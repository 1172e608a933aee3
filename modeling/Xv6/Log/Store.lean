import Xv6.Log.Crash

/-!
# The buffered store between two calls

`Store a s H C` is the invariant of the cache, the log and the disk at the
moments when no code of `bio.c` or `log.c` is running: the dirty blocks are the
listed ones, and the log on the disk owes nothing. `C` is what the store
contains; outside the log only `log_write` changes it.

Each call keeps the invariant or stops for a reason that is named: `bread_store`
and `bread_stops`, `logWrite_store`, `brelse_store`, and for the commit that
`sync` and `flush` share `commitFlagged_store` and `commitFlagged_stops`. These
are the step lemmas of `Log.Atomic`, `Log.Refine` and `Log.Room`.
-/

namespace Xv6.Log

open Xv6.Lib Xv6.Lib.Prog

structure Store (a : LogArea) (s : St) (H : Finset Nat) (C : Nat → Block) : Prop where
  cached : Cached s H s.lh.toFinset C
  log : s.log = a
  nodup : s.lh.Nodup
  short : s.lh.length < LOGSIZE
  held_home : ∀ b ∈ H, a.Home b
  lh_home : ∀ b ∈ s.lh, a.Home b
  is_flush : s.is_flush = false
  committing : s.committing = false
  replay : (redoLog a).replay s.disk = []
  valid : (redoLog a).valid (s.disk a.start)

/-- Two descriptions of the contents agree outside the log. -/
def SameHome (a : LogArea) (C C' : Nat → Block) : Prop := ∀ b, ¬ a.Mem b → C' b = C b

theorem SameHome.refl (a : LogArea) (C : Nat → Block) : SameHome a C C := fun _ _ => rfl

theorem SameHome.trans {a : LogArea} {C C' C'' : Nat → Block} (h : SameHome a C C')
    (h' : SameHome a C' C'') : SameHome a C C'' := fun b hb => (h' b hb).trans (h b hb)

/-- The disk after a complete commit. -/
theorem commitWrites_all {a : LogArea} {d C : Nat → Block} {lh : List Nat}
    (hreplay : (redoLog a).replay d = []) (hvalid : (redoLog a).valid (d a.start))
    (hnd : lh.Nodup) (hlen : lh.length < LOGSIZE) (hhome : ∀ b ∈ lh, a.Home b) :
    let d' := applyWrites d (commitWrites a d C lh)
    (∀ b ∈ lh, d' b = C b) ∧ (∀ b, ¬ a.Mem b → b ∉ lh → d' b = d b) ∧
      (redoLog a).replay d' = [] ∧ (redoLog a).valid (d' a.start) := by
  intro d'
  by_cases hnil : lh = []
  · subst hnil
    exact ⟨by simp, fun _ _ _ => rfl, hreplay, hvalid⟩
  -- the whole commit is the one with its header written, recovered without a cut
  have hready : (redoLog a).Ready
      ((redoLog a).committed d (copies a C 0 lh) (putHead (d a.start) lh)) :=
    ready_committed hlen hhome
  obtain ⟨hlogged, hrest⟩ :=
    image_committed (d := d) (C := C) (v := d a.start) hnd hlen hhome
  rcases RedoLog.recovery_all hready with ⟨hagree, hnil', hhead⟩
  have hd' : d' = applyWrites ((redoLog a).committed d (copies a C 0 lh) (putHead (d a.start) lh))
      ((redoLog a).recovery
        ((redoLog a).committed d (copies a C 0 lh) (putHead (d a.start) lh))) := by
    show applyWrites d (commitWrites a d C lh) = _
    rw [commitWrites, if_neg hnil, RedoLog.commit, applyWrites_append]
    rfl
  rw [← hd'] at hagree hnil' hhead
  -- the home blocks that were logged, and the others
  refine ⟨fun b hb => ?_, fun b hb hbl => ?_, hnil', ?_⟩
  · exact (hagree b (hhome b hb).2).trans (hlogged b hb)
  · exact (hagree b hb).trans (hrest b hb hbl)
  · have hv := (redoLog a).valid_erase hready.valid
    rw [← hhead] at hv
    exact hv

section

variable {a : LogArea} {s : St} {H : Finset Nat} {C : Nat → Block}

theorem Store.held_mem (h : Store a s H C) : ∀ b ∈ H, ¬ a.Mem b := fun b hb => (h.held_home b hb).2

theorem Store.card (h : Store a s H C) : s.num_unused_buf + (H ∪ s.lh.toFinset).card = NBUF :=
  h.cached.card

/-- A store whose cache changed but whose log did not. -/
theorem Store.quiet {s' : St} {H' : Finset Nat} (h : Store a s H C)
    (hc : Cached s' H' s.lh.toFinset C) (hq : Quiet s s') (hH : ∀ b ∈ H', a.Home b) :
    Store a s' H' C where
  cached := by rwa [hq.lh]
  log := hq.log.trans h.log
  nodup := by rw [hq.lh]; exact h.nodup
  short := by rw [hq.lh]; exact h.short
  held_home := hH
  lh_home := by rw [hq.lh]; exact h.lh_home
  is_flush := hq.is_flush.trans h.is_flush
  committing := hq.committing.trans h.committing
  replay := by rw [hq.disk]; exact h.replay
  valid := by rw [hq.disk]; exact h.valid

/-! ## Commits -/

/-- A commit, when no listed block is held. -/
theorem commitFlagged_store (h : Store a s H C) (hfree : ∀ b ∈ s.lh, b ∉ H)
    (hroom : s.lh = [] ∨ 0 < s.num_unused_buf) :
    Ends commitFlagged s fun n s' =>
      n = s.lh.length ∧ (∃ C', Store a s' H C' ∧ SameHome a C C') ∧ s'.lh = [] ∧
        s'.outstanding = s.outstanding ∧ s'.commits = s.commits ++ [s.outstanding] ∧
        s'.writes = s.writes ++ commitWrites a s.disk C s.lh := by
  -- the cache has a buffer free for the copies
  have hcard : s.lh = [] ∨ (H ∪ s.lh.toFinset).card < NBUF := by
    have := h.card
    exact hroom.imp_right fun _ => by omega
  have hall := commitWrites_all (C := C) h.replay h.valid h.nodup h.short h.lh_home
  unfold Ends commitFlagged
  simp only [wp_bind, wp_get, wp_modify, wp_pure]
  have h0 : Cached { s with committing := true, is_flush := true } H s.lh.toFinset C :=
    h.cached.congr rfl rfl rfl
  refine (commit_ends h0 h.log rfl h.nodup h.short h.held_mem
    (fun b hb => ⟨hfree b hb, h.lh_home b hb⟩) hcard).mono ?_
  rintro - s' ⟨hc, hdisk, hwrites, hsame⟩
  have hlh : s'.lh = [] := hsame.lh
  simp only at hdisk hwrites hc
  rcases hall with ⟨hlogged, hrest, hreplay, hvalid⟩
  rw [← hdisk] at hlogged hrest hreplay hvalid
  refine ⟨trivial, ⟨applyWrites C (commitWrites a s.disk C s.lh), ?_, ?_⟩, hlh, hsame.outstanding,
    hsame.commits, hwrites⟩
  -- afterwards the log is empty and the rest as before
  · constructor
    case cached =>
      rw [show ({ s' with committing := false, is_flush := false } : St).lh = [] from hlh]
      exact hc.congr rfl rfl rfl
    case log => exact hsame.log.trans h.log
    case nodup =>
      show s'.lh.Nodup
      rw [hlh]
      exact List.nodup_nil
    case short =>
      show s'.lh.length < LOGSIZE
      rw [hlh]
      decide
    case held_home => exact h.held_home
    case lh_home =>
      show ∀ b ∈ s'.lh, a.Home b
      rw [hlh]
      simp
    case is_flush => rfl
    case committing => rfl
    case replay => exact hreplay
    case valid => exact hvalid
  -- home blocks have their latest content
  · intro b hb
    rw [hc.clean b (Finset.notMem_empty b)]
    by_cases hbl : b ∈ s.lh
    · exact hlogged b hbl
    · rw [hrest b hb hbl]
      exact (h.cached.clean b fun hbl' => hbl (List.mem_toFinset.1 hbl')).symm

/-- A commit that has something to do panics without an unused buffer, and never
returns to a process that holds a listed block. -/
theorem commitFlagged_stops (h : Store a s H C)
    (hno : s.lh ≠ [] ∧ s.num_unused_buf = 0 ∨ ∃ b ∈ s.lh, b ∈ H) : Stops commitFlagged s := by
  have hsize := a.size_eq
  have hL : LOGSIZE = 100 := rfl
  have hshort := h.short
  have hne : s.lh ≠ [] := by
    rcases hno with ⟨hne, -⟩ | ⟨b, hb, -⟩
    · exact hne
    · exact List.ne_nil_of_mem hb
  have hHD : ∀ b ∈ H ∪ s.lh.toFinset, ¬ a.Mem b := by
    intro b hb
    rcases Finset.mem_union.1 hb with hb | hb
    · exact h.held_mem b hb
    · exact (h.lh_home b (List.mem_toFinset.1 hb)).2
  -- the state in which `write_log` starts
  have hlog : ∀ s1 : St, s1.order = s.order → s1.buf = s.buf → s1.disk = s.disk →
      s1.is_flush = true → s1.log = s.log → Stops (writeLogFrom breadBusy 0 s.lh) s1 := by
    intro s1 ho hb hd hfl hl
    have h1 : Cached s1 H s.lh.toFinset C := h.cached.congr ho hb hd
    by_cases hfull : s.num_unused_buf = 0
    · rcases List.exists_cons_of_ne_nil hne with ⟨b, bs, hlh⟩
      have hmem : a.Mem (a.start + 0 + 1) := ⟨by omega, by omega⟩
      have hfull1 : s1.num_unused_buf = 0 := by
        rw [St.num_unused_buf, ho, hb]
        exact hfull
      rw [hlh]
      simp only [Stops, writeLogFrom, breadBusy, breadWith, bgetWith, wp_bind, wp_get, hl, h.log]
      rw [if_neg (by simp [hfl])]
      exact (bgetFind_full h1 hfull1 fun hx => hHD _ hx hmem).wp
    · have hcard := h.cached.card
      refine writeLogFrom_stops hHD (by omega) s.lh (fun b hb => List.mem_toFinset.2 hb) ?_ h1
        (hl.trans h.log) hfl (by omega)
      rcases hno with ⟨-, h0⟩ | hheld
      · exact absurd h0 hfull
      · exact hheld
  unfold commitFlagged commit
  simp only [Stops, wp_bind, wp_get, wp_modify]
  rw [if_pos (by simpa using hne)]
  simp only [wp_bind, writeLog, wp_get]
  exact Stops.wp (hlog _ rfl rfl rfl rfl rfl)

/-! ## The calls of an operation -/

/-- `bread` of a block that the process does not hold, with a buffer to spare. -/
theorem bread_store (h : Store a s H C) {b : Nat} (hb : b ∉ H) (hhome : a.Home b)
    (hfree : s.num_unused_buf ≤ 2 → ∀ c ∈ s.lh, c ∉ H) (hroom : 0 < s.num_unused_buf) :
    Ends (bread b) s fun i s' =>
      (∃ C', Store a s' (insert b H) C' ∧ SameHome a C C') ∧ Holds s' i b ∧
        (s'.buf i).data = C b ∧ s'.outstanding = s.outstanding ∧
        ((2 < s.num_unused_buf ∧ Quiet s s') ∨
          (s.num_unused_buf ≤ 2 ∧ s'.lh = [] ∧ s'.commits = s.commits ++ [s.outstanding] ∧
            s'.writes = s.writes ++ commitWrites a s.disk C s.lh)) := by
  have hins : ∀ c ∈ insert b H, a.Home c := by
    intro c hc
    rcases Finset.mem_insert.1 hc with rfl | hc
    · exact hhome
    · exact h.held_home c hc
  have hbin : b ∈ insert b H := Finset.mem_insert_self _ _
  have hcard := h.card
  by_cases hfew : s.num_unused_buf ≤ 2
  · -- the flush, then a search in a cache without dirty buffers
    unfold bread breadWith bgetWith
    simp only [Ends, wp_bind, wp_get]
    rw [if_pos ⟨h.is_flush, hfew⟩]
    unfold flush
    simp only [wp_bind, wp_get, h.committing, Bool.false_eq_true, if_false, wp_pure]
    refine (commitFlagged_store h (hfree hfew) (Or.inr hroom)).mono ?_
    rintro - s1 ⟨-, ⟨C1, h1, hC⟩, hlh1, hout1, hcommits1, hwrites1⟩
    have hc1 : Cached s1 H ∅ C1 := by
      have hc := h1.cached
      rwa [hlh1, List.toFinset_nil] at hc
    have hlt1 : (H ∪ ∅).card < NBUF := by
      rw [Finset.union_empty]
      have := Finset.card_le_card (Finset.subset_union_left : H ⊆ H ∪ s.lh.toFinset)
      omega
    refine (fetch_cached hc1 hb hhome.1 (Or.inr hlt1)).mono ?_ fun _ hf => hf
    rintro i s2 h2
    refine h2.mono ?_ fun _ hf => hf
    rintro j s3 ⟨h3, hj, hq3, -⟩
    have hstore := h1.quiet (by rwa [hlh1, List.toFinset_nil]) hq3 hins
    refine ⟨⟨C1, hstore, hC⟩, hj, ?_, hq3.outstanding.trans hout1, Or.inr ⟨hfew, ?_, ?_, ?_⟩⟩
    · rw [h3.data j b hj (h3.valid_of_holds hj (Finset.mem_union_left _ hbin)), hC b hhome.2]
    · exact hq3.lh.trans hlh1
    · exact hq3.commits.trans hcommits1
    · exact hq3.writes.trans hwrites1
  -- buffers enough: no flush, and the log stays as it is
  · refine (bread_cached h.cached (Or.inr (by omega)) hb hhome.1 (Or.inr (by omega))).mono ?_
    rintro i s1 ⟨h1, hi, hq, -⟩
    refine ⟨⟨C, h.quiet h1 hq hins, SameHome.refl a C⟩, hi, ?_, hq.outstanding,
      Or.inl ⟨by omega, hq⟩⟩
    exact h1.data i b hi (h1.valid_of_holds hi (Finset.mem_union_left _ hbin))

/-- When `bread` cannot return: the process holds the block, there is no unused
buffer, or a flush is due while it holds a listed block. -/
theorem bread_stops (h : Store a s H C) {b : Nat}
    (hno : b ∈ H ∨ s.num_unused_buf = 0 ∨ s.num_unused_buf ≤ 2 ∧ ∃ c ∈ s.lh, c ∈ H) :
    Stops (bread b) s := by
  have hcard := h.card
  -- the search fails whatever is dirty
  have hsearch : ∀ (s1 : St) (D : Finset Nat) (C1 : Nat → Block) (Q : Bidx → St → Prop),
      Cached s1 H D C1 → (b ∈ H ∨ H.card = NBUF) → wp (bgetFind b) s1 Q fun _ => True := by
    intro s1 D C1 Q h1 hor
    have hstop : Stops (bgetFind b) s1 := by
      by_cases hbH : b ∈ H
      · exact bgetFind_held h1 hbH
      · have hfull := h1.card
        have hle := Finset.card_le_card (Finset.subset_union_left : H ⊆ H ∪ D)
        have hHN := hor.resolve_left hbH
        have hbD : b ∉ H ∪ D := by
          intro hbD
          have heq : H = H ∪ D := Finset.eq_of_subset_of_card_le Finset.subset_union_left (by omega)
          exact hbH (heq ▸ hbD)
        exact bgetFind_full h1 (by omega) hbD
    exact hstop.wp
  unfold bread breadWith bgetWith
  simp only [Stops, wp_bind, wp_get]
  by_cases hfew : s.num_unused_buf ≤ 2
  · rw [if_pos ⟨h.is_flush, hfew⟩]
    unfold flush
    simp only [wp_bind, wp_get, h.committing, Bool.false_eq_true, if_false, wp_pure]
    by_cases hgo : s.lh ≠ [] ∧ s.num_unused_buf = 0 ∨ ∃ c ∈ s.lh, c ∈ H
    · exact (commitFlagged_stops h hgo).wp
    · rw [not_or, not_and_or, not_not] at hgo
      have hfree : ∀ c ∈ s.lh, c ∉ H := fun c hc hcH => hgo.2 ⟨c, hc, hcH⟩
      refine (commitFlagged_store h hfree (hgo.1.imp_right Nat.pos_of_ne_zero)).mono ?_
      rintro - s1 ⟨-, ⟨C1, h1, _⟩, hlh1, -⟩
      have hc1 := h1.cached
      rw [hlh1, List.toFinset_nil] at hc1
      refine hsearch s1 ∅ C1 _ hc1 (hno.imp_right fun hor => ?_)
      have h0 : s.num_unused_buf = 0 := hor.resolve_right fun hc => hgo.2 hc.2
      rw [hgo.1.resolve_right (fun hc => hc h0), List.toFinset_nil, Finset.union_empty] at hcard
      omega
  · rw [if_neg fun hc => hfew hc.2]
    exact hsearch s _ C _ h.cached (hno.imp_right fun h0 => by omega)

/-- `log_write` of new contents. -/
theorem logWrite_store (h : Store a s H C) {i : Bidx} {b : Nat} (hi : Holds s i b) (hb : b ∈ H)
    (v : Block) (hroom : s.lh.length < LOGSIZE - 1) (hout : 1 ≤ s.outstanding) :
    Ends (do setBuf i fun x => { x with data := v }; logWrite i) s fun _ s' =>
      Store a s' H (Function.update C b v) ∧
        s'.lh = (if b ∈ s.lh then s.lh else s.lh ++ [b]) ∧ s'.outstanding = s.outstanding ∧
        s'.commits = s.commits ∧ s'.writes = s.writes ∧ s'.disk = s.disk ∧
        s'.num_unused_buf = s.num_unused_buf ∧ Holds s' i b := by
  have hsize := a.size_eq
  have hL : LOGSIZE = 100 := rfl
  -- a block that is logged already is absorbed
  have hset : insert b s.lh.toFinset = (if b ∈ s.lh then s.lh else s.lh ++ [b]).toFinset := by
    split
    · next hbl => exact Finset.insert_eq_self.2 (List.mem_toFinset.2 hbl)
    · ext c
      simp
  simp only [Ends, wp_bind, wp_setBuf]
  refine (logWrite_cached h.cached hi hb v ⟨by omega, by rw [h.log]; omega⟩ hout).mono ?_
  rintro - s' ⟨hc, rfl⟩
  rw [hset] at hc
  refine ⟨?_, rfl, rfl, rfl, rfl, rfl, ?_, ?_⟩
  -- only the list of the logged blocks and the content of this one change
  · constructor
    case cached => exact hc
    case log => exact h.log
    case nodup =>
      show (if b ∈ s.lh then s.lh else s.lh ++ [b]).Nodup
      split
      · exact h.nodup
      · next hbl => exact List.nodup_append_comm.1 (List.nodup_cons.2 ⟨hbl, h.nodup⟩)
    case short =>
      show (if b ∈ s.lh then s.lh else s.lh ++ [b]).length < LOGSIZE
      split
      · exact h.short
      · rw [List.length_append, List.length_singleton]
        omega
    case held_home => exact h.held_home
    case lh_home =>
      show ∀ c ∈ (if b ∈ s.lh then s.lh else s.lh ++ [b]), a.Home c
      split
      · exact h.lh_home
      · intro c hcl
        rcases List.mem_append.1 hcl with hcl | hcl
        · exact h.lh_home c hcl
        · rw [List.mem_singleton.1 hcl]
          exact h.held_home b hb
    case is_flush => exact h.is_flush
    case committing => exact h.committing
    case replay => exact h.replay
    case valid => exact h.valid
  · have h1 := h.card
    have h2 := hc.card
    rw [← hset, Finset.union_insert, Finset.insert_eq_self.2 (Finset.mem_union_left _ hb)] at h2
    omega
  · simpa [Holds, St.setBuf, Buf.caches] using hi

/-- Giving a block back keeps what is stored, and frees a buffer unless the block is listed. -/
theorem brelse_store (h : Store a s H C) {i : Bidx} {b : Nat} (hi : Holds s i b) (hb : b ∈ H) :
    Ends (brelse i) s fun _ s' =>
      Store a s' (H.erase b) C ∧ Quiet s s' ∧ s.num_unused_buf ≤ s'.num_unused_buf := by
  refine (brelse_cached h.cached hi hb).mono ?_
  rintro - s' ⟨hc, hq, -⟩
  refine ⟨h.quiet hc hq fun c hcH => h.held_home c (Finset.mem_of_mem_erase hcH), hq, ?_⟩
  have h1 := h.card
  have h2 := hc.card
  have hle := Finset.card_le_card
    (Finset.union_subset_union_left (t := s.lh.toFinset) (Finset.erase_subset b H))
  omega

end

end Xv6.Log
