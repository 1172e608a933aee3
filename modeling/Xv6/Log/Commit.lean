import Xv6.Log.Cache

/-!
# The sector writes of a commit and of recovery

The log of Project03 is a redo log (`redoLog`). Run on a cache that holds the
new contents, `commit` issues exactly the writes of a commit of that log, and
`recover_from_log` those of its recovery, whatever the buffers are and whichever
of them get recycled on the way.

* `commit_ends`: the writes of `commit`, and the cache after it;
* `recover_ends`: those of recovery, from a disk cut anywhere in a commit;
* `replay_committed`, `ready_committed`: what the log on the disk owes after the
  header has been written.

So what a crash leaves is a matter of `Lib.Disk`. The loops of `write_log` and
`install_trans` are recursions on the list of logged blocks, and each has one
lemma by induction on what is still to be copied.
-/

namespace Xv6.Log

open Xv6.Lib Xv6.Lib.Prog

/-! ## The header block -/

/-- The list that the header block stores. -/
def headList (b : Block) : List Nat := (List.range (headN b)).map (headBlock b)

/-- The entries of a header are written behind its first `i` entries. -/
theorem getLE_putBlocks (bs : List Nat) : ∀ (b : Block) (i o k : Nat), o + k ≤ 4 + 4 * i →
    getLE (putBlocks b i bs) o k = getLE b o k := by
  induction bs with
  | nil =>
      intro b i o k _
      rfl
  | cons x xs ih =>
      intro b i o k h
      rw [putBlocks, ih _ _ _ _ (by omega)]
      exact getLE_setLE_disjoint b x (Or.inl h)

/-- An entry that has been written is read back. -/
theorem headBlock_putBlocks (bs : List Nat) : ∀ (b : Block) (i j : Nat) (hj : j < bs.length),
    4 + 4 * (i + bs.length) ≤ BSIZE → (∀ x ∈ bs, x < FSSIZE) →
    headBlock (putBlocks b i bs) (i + j) = bs[j] := by
  induction bs with
  | nil =>
      intro b i j hj
      cases hj
  | cons x xs ih =>
      intro b i j hj hlen hlt
      rw [List.length_cons] at hlen hj
      rw [List.forall_mem_cons] at hlt
      rw [putBlocks]
      cases j with
      | zero =>
          have hx : x < 256 ^ 4 := lt_of_lt_of_le hlt.1 (by decide)
          rw [headBlock, getLE_putBlocks _ _ _ _ _ (by omega), Nat.add_zero,
            getLE_setLE _ _ (by omega), Nat.mod_eq_of_lt hx]
          rfl
      | succ j =>
          have h := ih (setLE b (4 + 4 * i) 4 x) (i + 1) j (by omega) (by omega) hlt.2
          rw [Nat.add_right_comm, Nat.add_assoc] at h
          rw [h]
          rfl

theorem headN_putHead (b : Block) {lh : List Nat} (hlen : lh.length < LOGSIZE) :
    headN (putHead b lh) = lh.length := by
  have hlt : lh.length < 256 ^ 4 := lt_of_lt_of_le hlen (by decide)
  rw [headN, putHead, getLE_putBlocks _ _ _ _ _ (by omega), getLE_setLE _ _ (by decide),
    Nat.mod_eq_of_lt hlt]

/-- A header that has been written is read back as the list it was written from. -/
theorem headList_putHead (b : Block) {lh : List Nat} (hlen : lh.length < LOGSIZE)
    (hlt : ∀ x ∈ lh, x < FSSIZE) : headList (putHead b lh) = lh := by
  rw [headList, headN_putHead b hlen]
  apply List.ext_getElem
  · simp
  · intro j h1 h2
    have hroom : 4 + 4 * (0 + lh.length) ≤ BSIZE := by
      have : LOGSIZE = 100 := rfl
      have : BSIZE = 512 := rfl
      omega
    have h := headBlock_putBlocks lh (setLE b 0 4 lh.length) 0 j h2 hroom hlt
    rw [Nat.zero_add] at h
    simpa [putHead] using h

/-! ## The log as a redo log -/

/-- Block `b` belongs to the log. -/
def LogArea.Mem (a : LogArea) (b : Nat) : Prop := a.start ≤ b ∧ b < a.start + a.size

/-- A block of the disk outside the log. -/
def LogArea.Home (a : LogArea) (b : Nat) : Prop := b < FSSIZE ∧ ¬ a.Mem b

/-- The writes of `install_trans` for the list `bs`, from index `tail` on. -/
def installs (a : LogArea) (d : Nat → Block) : Nat → List Nat → List (Nat × Block)
  | _, [] => []
  | tail, b :: bs => (b, d (a.start + tail + 1)) :: installs a d (tail + 1) bs

/-- The writes of `write_log`, when block `b` contains `C b`. -/
def copies (a : LogArea) (C : Nat → Block) : Nat → List Nat → List (Nat × Block)
  | _, [] => []
  | tail, b :: bs => (a.start + tail + 1, C b) :: copies a C (tail + 1) bs

/-- What is installed depends on the log area only. -/
theorem installs_congr {a : LogArea} {d d' : Nat → Block} (bs : List Nat) :
    ∀ tail, (∀ i, i < bs.length → d (a.start + (tail + i) + 1) = d' (a.start + (tail + i) + 1)) →
      installs a d tail bs = installs a d' tail bs := by
  induction bs with
  | nil =>
      intro tail _
      rfl
  | cons b bs ih =>
      intro tail h
      rw [installs, installs, ih]
      · exact congrArg (fun v => (b, v) :: _) (h 0 (Nat.succ_pos _))
      · intro i hi
        have heq : tail + 1 + i = tail + (i + 1) := by omega
        rw [heq]
        exact h (i + 1) (Nat.succ_lt_succ hi)

/-- What is installed goes to the blocks of the list. -/
theorem mem_installs {a : LogArea} {d : Nat → Block} {w : Nat × Block} (bs : List Nat) :
    ∀ tail, w ∈ installs a d tail bs → w.1 ∈ bs := by
  induction bs with
  | nil =>
      intro tail hw
      cases hw
  | cons b bs ih =>
      intro tail hw
      rcases List.mem_cons.1 hw with rfl | hw
      · exact List.mem_cons_self
      · exact List.mem_cons_of_mem _ (ih _ hw)

/-- The installations go to the blocks of the list, in its order. -/
theorem map_installs {a : LogArea} {d : Nat → Block} (bs : List Nat) :
    ∀ tail, (installs a d tail bs).map Prod.fst = bs := by
  induction bs with
  | nil =>
      intro tail
      rfl
  | cons b bs ih =>
      intro tail
      rw [installs, List.map_cons, ih]

/-- What is copied goes to the log area, behind the header. -/
theorem mem_copies {a : LogArea} {C : Nat → Block} {w : Nat × Block} (bs : List Nat) :
    ∀ tail, w ∈ copies a C tail bs →
      a.start + tail < w.1 ∧ w.1 ≤ a.start + tail + bs.length := by
  induction bs with
  | nil =>
      intro tail hw
      cases hw
  | cons b bs ih =>
      intro tail hw
      rw [List.length_cons]
      rcases List.mem_cons.1 hw with rfl | hw
      · simp only
        omega
      · have := ih _ hw
        omega

/-- The log of Project03. -/
def redoLog (a : LogArea) : RedoLog Nat Block where
  area := { b | a.Mem b }
  head := a.start
  home := { b | a.Home b }
  valid := fun v => headN v < LOGSIZE
  replay := fun d =>
    if headN (d a.start) < LOGSIZE then installs a d 0 (headList (d a.start)) else []
  erase := fun v => putHead v []
  head_mem := by
    have := a.size_eq
    have : LOGSIZE = 100 := rfl
    exact ⟨Nat.le_refl _, by omega⟩
  home_notMem := fun h => h.2
  valid_erase := fun _ => by
    rw [headN_putHead _ (by decide)]
    decide
  replay_congr := by
    intro d d' h
    have hsize := a.size_eq
    have hL : LOGSIZE = 100 := rfl
    have hhead : d a.start = d' a.start := h _ ⟨Nat.le_refl _, by omega⟩
    rw [hhead]
    split
    · next hn =>
      apply installs_congr
      intro i hi
      rw [headList, List.length_map, List.length_range] at hi
      exact h _ ⟨by omega, by omega⟩
    · rfl
  replay_nil := by
    intro d d' hhead h
    rw [← hhead]
    split
    · next hn =>
      rw [if_pos hn] at h
      have hlen := congrArg (List.map Prod.fst) h
      rw [map_installs] at hlen
      rw [hlen]
      rfl
    · rfl
  replay_erase := by
    intro d
    rw [Function.update_self, headList, headN_putHead _ (by decide)]
    rfl

/-! ## One copy -/

section

variable {a : LogArea} {flush : M Unit}

/-- Outside a flush, three free places leave room for the two buffers of a copy. -/
theorem Cached.two_lt_unused {s : St} {H D : Finset Nat} {C : Nat → Block} (h : Cached s H D C)
    (hq : s.is_flush = true ∨ (H ∪ D).card + 3 ≤ NBUF) :
    s.is_flush = true ∨ 2 < s.num_unused_buf := by
  have hcard := h.card
  rcases hq with hq | hq
  · exact Or.inl hq
  · right
    omega

/-- The two `bread`s of a loop body. -/
theorem two_reads {s : St} {H D : Finset Nat} {C : Nat → Block} (h : Cached s H D C) {x y : Nat}
    (hxy : x ≠ y) (hx : x ∉ H) (hy : y ∉ H) (hltx : x < FSSIZE) (hlty : y < FSSIZE)
    (hq : s.is_flush = true ∨ (H ∪ D).card + 4 ≤ NBUF) (hcard : (H ∪ D).card < NBUF)
    (hroom : y ∈ D ∨ (H ∪ D).card + 1 < NBUF) :
    Ends (breadWith flush x) s fun i s1 => Ends (breadWith flush y) s1 fun j s2 =>
      Cached s2 (insert y (insert x H)) D C ∧ Holds s2 i x ∧ Holds s2 j y ∧ Quiet s s2 := by
  have hle : (insert x H ∪ D).card ≤ (H ∪ D).card + 1 := by
    rw [Finset.insert_union]
    exact Finset.card_insert_le _ _
  have hq0 : s.is_flush = true ∨ 2 < s.num_unused_buf :=
    h.two_lt_unused (hq.imp_right fun hq => by omega)
  -- the first block
  refine (bread_cached h hq0 hx hltx (Or.inr hcard)).mono ?_
  rintro i s1 ⟨h1, hi, hquiet, -⟩
  have hq1 : s1.is_flush = true ∨ 2 < s1.num_unused_buf := by
    refine h1.two_lt_unused (hq.imp (fun hq => ?_) fun hq => by omega)
    rw [hquiet.is_flush]
    exact hq
  have hy1 : y ∉ insert x H := by
    rw [Finset.mem_insert, not_or]
    exact ⟨hxy.symm, hy⟩
  have hroom1 : y ∈ D ∨ (insert x H ∪ D).card < NBUF := hroom.imp_right fun hr => by omega
  -- the second, which is another one
  refine (bread_cached h1 hq1 hy1 hlty hroom1).mono ?_
  rintro j s2 ⟨h2, hj, hquiet', hkeep⟩
  refine ⟨h2, ?_, hj, hquiet.trans hquiet'⟩
  rw [Holds, hkeep i ((h1.locked_of_holds hi).2 (Finset.mem_insert_self _ _))]
  exact hi

/-- The rest of a loop body: copy, write, release the source and the copy. -/
theorem copy_release {s : St} {H D : Finset Nat} {C : Nat → Block} (h : Cached s H D C)
    {i j : Bidx} {x y : Nat} (hi : Holds s i x) (hj : Holds s j y) (hxy : x ≠ y) (hx : x ∈ H)
    (hy : y ∈ H) {Q : St → Prop} {E : Stop → Prop}
    (hQ : ∀ s', Cached s' ((H.erase y).erase x) (D.erase x) (Function.update C x (C y)) →
      Same s s' → s'.disk = Function.update s.disk x (C y) →
      s'.writes = s.writes ++ [(x, C y)] → Q s') :
    wp (memmove i j) s (fun _ s1 => wp (bwrite i) s1 (fun _ s2 => wp (brelse j) s2
      (fun _ s3 => wp (brelse i) s3 (fun _ => Q) E) E) E) E := by
  have hij : j ≠ i := by
    rintro rfl
    exact hxy (hi.inj hj)
  have hdata : (s.buf j).data = C y :=
    h.data j y hj (h.valid_of_holds hj (Finset.mem_union_left _ hy))
  unfold memmove
  rw [wp_modify]
  simp only [hdata]
  -- the copy is written through, and the buffer it came from is untouched
  refine (bwrite_cached h hi hx (C y)).mono ?_
  rintro - s2 ⟨h2, hsame, hdisk, hwrites, hkeep⟩
  have hi2 : Holds s2 i x := by
    rcases h2.valid x (Finset.mem_union_left _ hx) with ⟨k, hk, _⟩
    by_cases hki : k = i
    · exact hki ▸ hk
    · rw [Holds, hkeep k hki] at hk
      exact absurd (h.uniq k i x hk hi) hki
  have hj2 : Holds s2 j y := by
    rw [Holds, hkeep j hij]
    exact hj
  -- both are released, the source first
  refine (brelse_cached h2 hj2 hy).mono ?_
  rintro - s3 ⟨h3, hq3, hkeep3⟩
  have hi3 : Holds s3 i x := by
    rw [Holds, hkeep3 i hij.symm]
    exact hi2
  refine (brelse_cached h3 hi3 (Finset.mem_erase.2 ⟨hxy, hx⟩)).mono ?_
  rintro - s4 ⟨h4, hq4, -⟩
  have hq := hq3.trans hq4
  exact hQ s4 h4 (hsame.trans hq.toSame) (hq.disk.trans hdisk) (hq.writes.trans hwrites)

/-! ## The loops -/

/-- What is copied depends on the listed blocks only. -/
theorem copies_congr {C C' : Nat → Block} (bs : List Nat) :
    ∀ tail, (∀ b ∈ bs, C b = C' b) → copies a C tail bs = copies a C' tail bs := by
  induction bs with
  | nil =>
      intro tail _
      rfl
  | cons b bs ih =>
      intro tail h
      rw [List.forall_mem_cons] at h
      rw [copies, copies, h.1, ih _ h.2]

theorem erase_erase_insert_insert {x y : Nat} {H : Finset Nat} (hxy : x ≠ y) (hx : x ∉ H)
    (hy : y ∉ H) : ((insert y (insert x H)).erase y).erase x = H := by
  rw [Finset.erase_insert, Finset.erase_insert hx]
  rw [Finset.mem_insert, not_or]
  exact ⟨hxy.symm, hy⟩

theorem erase_sdiff_toFinset (D : Finset Nat) (b : Nat) (bs : List Nat) :
    D.erase b \ bs.toFinset = D \ (b :: bs).toFinset := by
  rw [List.toFinset_cons, Finset.sdiff_insert, Finset.erase_sdiff_comm]

/-- `write_log` copies the rest of the list into the log, by induction on the list. A flush
is going on, so that `bread` does not start another. -/
theorem writeLogFrom_ends {H D : Finset Nat} (hHD : ∀ b ∈ H ∪ D, ¬ a.Mem b)
    (hcard : (H ∪ D).card < NBUF) (bs : List Nat) (hbs : ∀ b ∈ bs, b ∈ D ∧ b ∉ H) :
    ∀ {tail : Nat} {s : St} {C : Nat → Block}, Cached s H D C → s.log = a → s.is_flush = true →
      tail + bs.length < a.size →
      Ends (writeLogFrom (breadWith flush) tail bs) s fun _ s' =>
        Cached s' H D (applyWrites C (copies a C tail bs)) ∧ Same s s' ∧
          s'.disk = applyWrites s.disk (copies a C tail bs) ∧
          s'.writes = s.writes ++ copies a C tail bs := by
  induction bs with
  | nil =>
      intro tail s C h _ _ _
      simp only [Ends, writeLogFrom, wp_pure]
      exact ⟨h, Same.refl s, rfl, (List.append_nil _).symm⟩
  | cons b bs ih =>
      intro tail s C h hlog hfl hlen
      rw [List.length_cons] at hlen
      rw [List.forall_mem_cons] at hbs
      rcases hbs with ⟨⟨hbD, hbH⟩, hbs⟩
      -- the log block of this turn is no block that is held or pinned
      have hmem : a.Mem (a.start + tail + 1) := ⟨by omega, by omega⟩
      have hx : a.start + tail + 1 ∉ H ∪ D := fun hx => hHD _ hx hmem
      have hxH : a.start + tail + 1 ∉ H := fun hx' => hx (Finset.mem_union_left _ hx')
      have hxD : a.start + tail + 1 ∉ D := fun hx' => hx (Finset.mem_union_right _ hx')
      have hne : ∀ c, c ∈ D → c ≠ a.start + tail + 1 := by
        rintro c hc rfl
        exact hxD hc
      have hltx : a.start + tail + 1 < FSSIZE := lt_of_lt_of_le hmem.2 a.fits
      have hltb : b < FSSIZE := h.range b (Finset.mem_union_right _ hbD)
      simp only [Ends, writeLogFrom, wp_bind, wp_get, hlog]
      -- one turn: the log block and the cached block are read, copied and released
      refine (two_reads h (hne b hbD).symm hxH hbH hltx hltb (Or.inl hfl) hcard
        (Or.inl hbD)).mono ?_
      intro i s1 h1
      refine h1.mono ?_
      rintro j s2 ⟨h2, hi, hj, hquiet⟩
      refine copy_release h2 hi hj (hne b hbD).symm (by simp) (by simp) ?_
      intro s3 h3 hsame3 hdisk3 hwrites3
      rw [erase_erase_insert_insert (hne b hbD).symm hxH hbH, Finset.erase_eq_of_notMem hxD] at h3
      have hsame := hquiet.toSame.trans hsame3
      -- the later blocks of the log are copied as if nothing had been written yet
      have hcopies : copies a (Function.update C (a.start + tail + 1) (C b)) (tail + 1) bs =
          copies a C (tail + 1) bs :=
        copies_congr bs _ fun c hc => Function.update_of_ne (hne c (hbs c hc).1) _ _
      refine (ih hbs h3 (hsame.log.trans hlog) (hsame.is_flush.trans hfl) (by omega)).mono ?_
      rintro - s4 ⟨h4, hsame4, hdisk4, hwrites4⟩
      rw [hcopies] at h4 hdisk4 hwrites4
      refine ⟨h4, hsame.trans hsame4, ?_, ?_⟩
      · rw [hdisk4, hdisk3, hquiet.disk]
        rfl
      · rw [hwrites4, hwrites3, hquiet.writes, List.append_assoc]
        rfl

/-- A process that holds one of the listed blocks waits for itself. -/
theorem writeLogFrom_stops {H D : Finset Nat} (hHD : ∀ b ∈ H ∪ D, ¬ a.Mem b)
    (hcard : (H ∪ D).card < NBUF) (bs : List Nat) (hbs : ∀ b ∈ bs, b ∈ D)
    (hheld : ∃ b ∈ bs, b ∈ H) :
    ∀ {tail : Nat} {s : St} {C : Nat → Block}, Cached s H D C → s.log = a → s.is_flush = true →
      tail + bs.length < a.size → Stops (writeLogFrom (breadWith flush) tail bs) s := by
  induction bs with
  | nil =>
      rcases hheld with ⟨b, hb, _⟩
      cases hb
  | cons b bs ih =>
      intro tail s C h hlog hfl hlen
      rw [List.length_cons] at hlen
      rw [List.forall_mem_cons] at hbs
      rcases hbs with ⟨hbD, hbs⟩
      have hmem : a.Mem (a.start + tail + 1) := ⟨by omega, by omega⟩
      have hx : a.start + tail + 1 ∉ H ∪ D := fun hx => hHD _ hx hmem
      have hxH : a.start + tail + 1 ∉ H := fun hx' => hx (Finset.mem_union_left _ hx')
      have hxD : a.start + tail + 1 ∉ D := fun hx' => hx (Finset.mem_union_right _ hx')
      have hne : a.start + tail + 1 ≠ b := by
        rintro rfl
        exact hxD hbD
      have hltx : a.start + tail + 1 < FSSIZE := lt_of_lt_of_le hmem.2 a.fits
      simp only [Stops, writeLogFrom, wp_bind, wp_get, hlog]
      -- this block is the one that its caller holds, so reading it waits for its own lock
      by_cases hbH : b ∈ H
      · refine (bread_cached h (Or.inl hfl) hxH hltx (Or.inr hcard)).mono ?_
        rintro i s1 ⟨h1, -, hquiet, -⟩
        have hfl1 : s1.is_flush = true := hquiet.is_flush.trans hfl
        unfold breadWith bgetWith
        simp only [wp_bind, wp_get]
        rw [if_neg (by simp [hfl1])]
        exact (bgetFind_held h1 (Finset.mem_insert_of_mem hbH)).wp
      -- it is one of the blocks behind
      · have hheld' : ∃ c ∈ bs, c ∈ H := by
          rcases hheld with ⟨c, hc, hcH⟩
          rcases List.mem_cons.1 hc with rfl | hc
          · exact absurd hcH hbH
          · exact ⟨c, hc, hcH⟩
        have hltb : b < FSSIZE := h.range b (Finset.mem_union_right _ hbD)
        refine (two_reads h hne hxH hbH hltx hltb (Or.inl hfl) hcard (Or.inl hbD)).mono ?_
        intro i s1 h1
        refine h1.mono ?_
        rintro j s2 ⟨h2, hi, hj, hquiet⟩
        refine copy_release h2 hi hj hne (by simp) (by simp) ?_
        intro s3 h3 hsame3 _ _
        rw [erase_erase_insert_insert hne hxH hbH, Finset.erase_eq_of_notMem hxD] at h3
        have hsame := hquiet.toSame.trans hsame3
        exact ih hbs hheld' h3 (hsame.log.trans hlog) (hsame.is_flush.trans hfl) (by omega)

/-- `install_trans` brings the rest of the list to its home blocks, by induction on the list. -/
theorem installFrom_ends {H : Finset Nat} (hH : ∀ b ∈ H, ¬ a.Mem b) (bs : List Nat)
    (hbs : ∀ b ∈ bs, b ∉ H ∧ a.Home b) :
    ∀ {tail : Nat} {s : St} {D : Finset Nat} {C : Nat → Block}, Cached s H D C → s.log = a →
      (∀ b ∈ D, ¬ a.Mem b) → (s.is_flush = true ∨ (H ∪ D).card + 4 ≤ NBUF) →
      (H ∪ D).card < NBUF → ((∀ b ∈ bs, b ∈ D) ∧ bs.Nodup ∨ (H ∪ D).card + 1 < NBUF) →
      tail + bs.length < a.size →
      Ends (installFrom (breadWith flush) tail bs) s fun _ s' =>
        Cached s' H (D \ bs.toFinset) (applyWrites C (installs a C tail bs)) ∧ Same s s' ∧
          s'.disk = applyWrites s.disk (installs a C tail bs) ∧
          s'.writes = s.writes ++ installs a C tail bs := by
  induction bs with
  | nil =>
      intro tail s D C h _ _ _ _ _ _
      simp only [Ends, installFrom, wp_pure]
      refine ⟨?_, Same.refl s, rfl, (List.append_nil _).symm⟩
      simpa [installs] using h
  | cons b bs ih =>
      intro tail s D C h hlog hD hq hcard hroom hlen
      rw [List.length_cons] at hlen
      rw [List.forall_mem_cons] at hbs
      rcases hbs with ⟨⟨hbH, hbhome⟩, hbs⟩
      -- the log block of this turn is no home block
      have hmem : a.Mem (a.start + tail + 1) := ⟨by omega, by omega⟩
      have hxH : a.start + tail + 1 ∉ H := fun hx => hH _ hx hmem
      have hne : a.start + tail + 1 ≠ b := by
        rintro rfl
        exact hbhome.2 hmem
      have hltx : a.start + tail + 1 < FSSIZE := lt_of_lt_of_le hmem.2 a.fits
      have hroomb : b ∈ D ∨ (H ∪ D).card + 1 < NBUF :=
        hroom.imp_left fun hr => hr.1 b List.mem_cons_self
      have hle : (H ∪ D.erase b).card ≤ (H ∪ D).card :=
        Finset.card_le_card (Finset.union_subset_union_right (Finset.erase_subset _ _))
      simp only [Ends, installFrom, wp_bind, wp_get, hlog]
      -- one turn: both blocks are read, and the log block is written home
      refine (two_reads h hne hxH hbH hltx hbhome.1 hq hcard hroomb).mono ?_
      intro i s1 h1
      refine h1.mono ?_
      rintro j s2 ⟨h2, hi, hj, hquiet⟩
      refine copy_release h2 hj hi hne.symm (by simp) (by simp) ?_
      intro s3 h3 hsame3 hdisk3 hwrites3
      rw [Finset.erase_right_comm, erase_erase_insert_insert hne hxH hbH] at h3
      have hsame := hquiet.toSame.trans hsame3
      have hinst : installs a (Function.update C b (C (a.start + tail + 1))) (tail + 1) bs =
          installs a C (tail + 1) bs := by
        apply installs_congr
        intro k hk
        apply Function.update_of_ne
        rintro rfl
        exact hbhome.2 ⟨by omega, by omega⟩
      -- a block that was written home is clean, so the turns to come have the room they need
      have hroom3 : (∀ c ∈ bs, c ∈ D.erase b) ∧ bs.Nodup ∨ (H ∪ D.erase b).card + 1 < NBUF := by
        refine hroom.imp (fun hr => ?_) fun hr => by omega
        rw [List.forall_mem_cons, List.nodup_cons] at hr
        refine ⟨fun c hc => Finset.mem_erase.2 ⟨?_, hr.1.2 c hc⟩, hr.2.2⟩
        rintro rfl
        exact hr.2.1 hc
      have hq3 : s3.is_flush = true ∨ (H ∪ D.erase b).card + 4 ≤ NBUF :=
        hq.imp (fun hq => hsame.is_flush.trans hq) fun hq => by omega
      refine (ih hbs h3 (hsame.log.trans hlog) (fun c hc => hD c (Finset.mem_of_mem_erase hc)) hq3
        (by omega) hroom3 (by omega)).mono ?_
      rintro - s4 ⟨h4, hsame4, hdisk4, hwrites4⟩
      rw [hinst] at h4 hdisk4 hwrites4
      rw [erase_sdiff_toFinset] at h4
      refine ⟨h4, hsame.trans hsame4, ?_, ?_⟩
      · rw [hdisk4, hdisk3, hquiet.disk]
        rfl
      · rw [hwrites4, hwrites3, hquiet.writes, List.append_assoc]
        rfl

/-- `write_head` writes the list into the header block. -/
theorem writeHead_ends {s : St} {H D : Finset Nat} {C : Nat → Block} (h : Cached s H D C)
    (hlog : s.log = a) (hHD : ∀ b ∈ H ∪ D, ¬ a.Mem b)
    (hq : s.is_flush = true ∨ (H ∪ D).card + 3 ≤ NBUF) (hcard : (H ∪ D).card < NBUF) :
    Ends (writeHead (breadWith flush)) s fun _ s' =>
      Cached s' H D (Function.update C a.start (putHead (C a.start) s.lh)) ∧ Same s s' ∧
        s'.disk = Function.update s.disk a.start (putHead (C a.start) s.lh) ∧
        s'.writes = s.writes ++ [(a.start, putHead (C a.start) s.lh)] := by
  have hsize := a.size_eq
  have hL : LOGSIZE = 100 := rfl
  have hfits := a.fits
  -- the header block is one of the log, so nobody holds it
  have hmem : a.Mem a.start := ⟨Nat.le_refl _, by omega⟩
  have hx : a.start ∉ H ∪ D := fun hx => hHD _ hx hmem
  have hxH : a.start ∉ H := fun hx' => hx (Finset.mem_union_left _ hx')
  have hxD : a.start ∉ D := fun hx' => hx (Finset.mem_union_right _ hx')
  simp only [Ends, writeHead, wp_bind, wp_get, hlog, wp_setBuf]
  refine (bread_cached h (h.two_lt_unused hq) hxH (by omega) (Or.inr hcard)).mono ?_
  rintro i s1 ⟨h1, hi, hquiet, -⟩
  have hin : a.start ∈ insert a.start H := Finset.mem_insert_self _ _
  have hdata : (s1.buf i).data = C a.start :=
    h1.data i _ hi (h1.valid_of_holds hi (Finset.mem_union_left _ hin))
  have hset : (s1.setBuf i fun b => { b with data := putHead b.data s.lh }) =
      s1.setBuf i fun b => { b with data := putHead (C a.start) s.lh } := by
    simp [St.setBuf, hdata]
  rw [hset]
  -- the header is written through and released
  refine (bwrite_cached h1 hi hin (putHead (C a.start) s.lh)).mono ?_
  rintro - s2 ⟨h2, hsame2, hdisk2, hwrites2, hkeep2⟩
  have hi2 : Holds s2 i a.start := by
    rcases h2.valid a.start (Finset.mem_union_left _ hin) with ⟨k, hk, _⟩
    by_cases hki : k = i
    · exact hki ▸ hk
    · rw [Holds, hkeep2 k hki] at hk
      exact absurd (h1.uniq k i _ hk hi) hki
  refine (brelse_cached h2 hi2 hin).mono ?_
  rintro - s3 ⟨h3, hq3, -⟩
  rw [Finset.erase_insert hxH, Finset.erase_eq_of_notMem hxD] at h3
  refine ⟨h3, (hquiet.toSame.trans hsame2).trans hq3.toSame, ?_, ?_⟩
  · rw [hq3.disk, hdisk2, hquiet.disk]
  · rw [hq3.writes, hwrites2, hquiet.writes]

/-! ## Commit and recovery -/

/-- Copies stay in the log area and off the header. -/
theorem copies_mem {C : Nat → Block} {bs : List Nat} (hlen : bs.length < LOGSIZE) :
    ∀ w ∈ copies a C 0 bs, w.1 ∈ (redoLog a).area ∧ w.1 ≠ (redoLog a).head := by
  intro w hw
  have hsize := a.size_eq
  have := mem_copies bs 0 hw
  refine ⟨⟨by omega, by omega⟩, ?_⟩
  show w.1 ≠ a.start
  omega

/-- The disk right after the header of a transaction has been written. -/
theorem replay_committed {d : Nat → Block} {ws : List (Nat × Block)} {b : Block} {lh : List Nat}
    (hlen : lh.length < LOGSIZE) (hlt : ∀ x ∈ lh, x < FSSIZE) :
    (redoLog a).replay ((redoLog a).committed d ws (putHead b lh)) =
      installs a ((redoLog a).committed d ws (putHead b lh)) 0 lh := by
  have hhead : (redoLog a).committed d ws (putHead b lh) a.start = putHead b lh :=
    Function.update_self ..
  show (if headN ((redoLog a).committed d ws (putHead b lh) a.start) < LOGSIZE then _ else _) = _
  rw [hhead, if_pos (by rwa [headN_putHead b hlen]), headList_putHead b hlen hlt]

/-- A disk with a header for the copies can be redone. -/
theorem ready_committed {d : Nat → Block} {ws : List (Nat × Block)} {b : Block} {lh : List Nat}
    (hlen : lh.length < LOGSIZE) (hhome : ∀ x ∈ lh, a.Home x) :
    (redoLog a).Ready ((redoLog a).committed d ws (putHead b lh)) := by
  constructor
  · have hhead : (redoLog a).committed d ws (putHead b lh) (redoLog a).head = putHead b lh :=
      Function.update_self ..
    rw [hhead]
    show headN (putHead b lh) < LOGSIZE
    rwa [headN_putHead b hlen]
  · intro w hw
    rw [replay_committed hlen fun x hx => (hhome x hx).1] at hw
    exact hhome _ (mem_installs _ _ hw)

/-- The writes of `commit` on the disk `d`, when block `b` contains `C b`. -/
def commitWrites (a : LogArea) (d C : Nat → Block) (lh : List Nat) : List (Nat × Block) :=
  if lh = [] then [] else (redoLog a).commit d (copies a C 0 lh) (putHead (d a.start) lh)

/-- A commit comes to an end: the copies, the header, the installations and the empty header
have been written in this order, and nothing stays listed. -/
theorem commit_ends {s : St} {H : Finset Nat} {C : Nat → Block}
    (h : Cached s H s.lh.toFinset C) (hlog : s.log = a) (hfl : s.is_flush = true)
    (hnd : s.lh.Nodup) (hlen : s.lh.length < LOGSIZE) (hH : ∀ b ∈ H, ¬ a.Mem b)
    (hlh : ∀ b ∈ s.lh, b ∉ H ∧ a.Home b) (hcard : s.lh = [] ∨ (H ∪ s.lh.toFinset).card < NBUF) :
    Ends commit s fun _ s' =>
      Cached s' H ∅ (applyWrites C (commitWrites a s.disk C s.lh)) ∧
        s'.disk = applyWrites s.disk (commitWrites a s.disk C s.lh) ∧
        s'.writes = s.writes ++ commitWrites a s.disk C s.lh ∧
        Same { s with lh := [], commits := s.commits ++ [s.outstanding] } s' := by
  have hsize := a.size_eq
  have hL : LOGSIZE = 100 := rfl
  have hstart : a.Mem a.start := ⟨Nat.le_refl _, by omega⟩
  unfold commit
  simp only [Ends, wp_bind, wp_get, wp_modify]
  by_cases hnil : s.lh = []
  · -- nothing to do
    rw [if_neg (by simpa using hnil)]
    rw [hnil, List.toFinset_nil] at h
    simp only [wp_pure, commitWrites, hnil, if_true, applyWrites_nil, List.append_nil]
    exact ⟨h.congr rfl rfl rfl, trivial, trivial, rfl, rfl, rfl, rfl, rfl, rfl⟩
  rw [if_pos hnil, commitWrites, if_neg hnil]
  have hcard := hcard.resolve_left hnil
  have hHD : ∀ b ∈ H ∪ s.lh.toFinset, ¬ a.Mem b := by
    intro b hb
    rcases Finset.mem_union.1 hb with hb | hb
    · exact hH b hb
    · exact (hlh b (List.mem_toFinset.1 hb)).2.2
  have hclean : ∀ b, a.Mem b → b ∉ s.lh.toFinset := fun b hb hbl =>
    (hlh b (List.mem_toFinset.1 hbl)).2.2 hb
  have hCstart : C a.start = s.disk a.start := h.clean _ (hclean _ hstart)
  -- the copies
  simp only [wp_bind, writeLog, wp_get]
  have h0 : Cached { s with commits := s.commits ++ [s.outstanding] } H s.lh.toFinset C :=
    h.congr rfl rfl rfl
  have hbs : ∀ b ∈ s.lh, b ∈ s.lh.toFinset ∧ b ∉ H := fun b hb =>
    ⟨List.mem_toFinset.2 hb, (hlh b hb).1⟩
  refine (writeLogFrom_ends hHD hcard s.lh hbs h0 hlog hfl (by omega)).mono ?_
  rintro - s1 ⟨h1, hsame1, hdisk1, hwrites1⟩
  have hfl1 : s1.is_flush = true := hsame1.is_flush.trans hfl
  have hlog1 : s1.log = a := hsame1.log.trans hlog
  -- the header
  refine (writeHead_ends h1 hlog1 hHD (Or.inl hfl1) hcard).mono ?_
  have hhead1 : applyWrites C (copies a C 0 s.lh) a.start = s.disk a.start := by
    rw [← hCstart]
    exact applyWrites_of_ne fun w hw => (copies_mem hlen w hw).2
  rw [hhead1, hsame1.lh, hdisk1, hwrites1]
  rintro - s2 ⟨h2, hsame2, hdisk2, hwrites2⟩
  have hlog2 : s2.log = a := hsame2.log.trans hlog1
  have hfl2 : s2.is_flush = true := hsame2.is_flush.trans hfl1
  have hlh2 : s2.lh = s.lh := hsame2.lh.trans hsame1.lh
  replace hdisk2 : s2.disk =
    (redoLog a).committed s.disk (copies a C 0 s.lh) (putHead (s.disk a.start) s.lh) := hdisk2
  generalize hC2 : Function.update (applyWrites C (copies a C 0 s.lh)) a.start
    (putHead (s.disk a.start) s.lh) = C2 at h2
  -- the installs
  simp only [installTrans, wp_bind, wp_get, hlh2]
  refine (installFrom_ends hH s.lh hlh h2 hlog2 (fun b hb => hHD b (Finset.mem_union_right _ hb))
    (Or.inl hfl2) hcard (Or.inl ⟨fun b hb => List.mem_toFinset.2 hb, hnd⟩) (by omega)).mono ?_
  rintro - s3 ⟨h3, hsame3, hdisk3, hwrites3⟩
  have hinst : installs a C2 0 s.lh = (redoLog a).replay s2.disk := by
    rw [hdisk2, replay_committed hlen fun x hx => (hlh x hx).2.1, ← hdisk2]
    apply installs_congr
    intro i hi
    exact h2.clean _ (hclean _ ⟨by omega, by omega⟩)
  rw [sdiff_self] at h3
  -- the erased header
  have h3' : Cached { s3 with lh := [] } H ⊥ (applyWrites C2 (installs a C2 0 s.lh)) :=
    h3.congr rfl rfl rfl
  have hH' : ∀ b ∈ H ∪ ⊥, ¬ a.Mem b := by
    simpa using hH
  have hcard' : (H ∪ ⊥).card < NBUF :=
    lt_of_le_of_lt (Finset.card_le_card (Finset.union_subset_union_right bot_le)) hcard
  rw [wp_modify]
  refine (writeHead_ends h3' (hsame3.log.trans hlog2) hH' (Or.inl (hsame3.is_flush.trans hfl2))
    hcard').mono ?_
  have hready : (redoLog a).Ready s2.disk := by
    rw [hdisk2]
    exact ready_committed hlen fun x hx => (hlh x hx).2
  have hhead3 : applyWrites C2 (installs a C2 0 s.lh) a.start = s2.disk a.start := by
    rw [applyWrites_of_ne]
    · exact h2.clean _ (hclean _ hstart)
    · rintro w hw heq
      exact (hlh _ (mem_installs _ _ hw)).2.2 (heq ▸ hstart)
  rw [hhead3]
  rintro - s4 ⟨h4, hsame4, hdisk4, hwrites4⟩
  have hws : (redoLog a).commit s.disk (copies a C 0 s.lh) (putHead (s.disk a.start) s.lh) =
      copies a C 0 s.lh ++ (a.start, putHead (s.disk a.start) s.lh) ::
        (installs a C2 0 s.lh ++ [(a.start, putHead (s2.disk a.start) [])]) := by
    rw [RedoLog.commit, RedoLog.recovery, ← hdisk2, ← hinst]
    rfl
  rw [hws]
  refine ⟨?_, ?_, ?_, ?_⟩
  · simp only [applyWrites_append, applyWrites_cons, applyWrites_nil, hC2]
    exact h4
  · simp only [applyWrites_append, applyWrites_cons, applyWrites_nil]
    rw [hdisk4]
    show Function.update s3.disk _ _ = _
    rw [hdisk3, hdisk2]
    rfl
  · rw [hwrites4]
    show s3.writes ++ _ = _
    rw [hwrites3, hwrites2]
    simp
  · have hsame := hsame1.trans (hsame2.trans hsame3)
    exact ⟨hsame4.is_flush.trans hsame.is_flush, hsame4.log.trans hsame.log,
      hsame4.outstanding.trans hsame.outstanding, hsame4.committing.trans hsame.committing,
      hsame4.lh, hsame4.commits.trans hsame.commits⟩

/-- Nothing is cached at boot. -/
theorem binit_cached (a : LogArea) (d : Nat → Block) : Cached (binit a d) ∅ ∅ d := by
  have hno : ∀ i b, ¬ Holds (binit a d) i b := by
    intro i b hi
    have := (caches_iff.1 hi).1
    cases this
  constructor
  case nodup => exact List.nodup_reverse.2 (List.nodup_finRange NBUF)
  case mem => exact fun i => List.mem_reverse.2 (List.mem_finRange i)
  case uniq => exact fun i j b hi => absurd hi (hno i b)
  case locked => simp [binit]
  case refcnt => simp [binit]
  case dirty => simp [binit]
  case valid => simp
  case data => exact fun i b hi => absurd hi (hno i b)
  case clean => exact fun _ _ => rfl
  case range => simp

/-- `recover_from_log` on a cold cache. -/
theorem recover_ends {d : Nat → Block} (h : (redoLog a).Ready d) :
    Ends recoverFromLog (binit a d) fun _ s' =>
      s'.writes = (redoLog a).recovery d ∧ s'.disk = applyWrites d ((redoLog a).recovery d) ∧
        Cached s' ∅ ∅ s'.disk ∧ Same (binit a d) s' := by
  have hsize := a.size_eq
  have hL : LOGSIZE = 100 := rfl
  have hfits := a.fits
  have hlog : (binit a d).log = a := rfl
  have hn : headN (d a.start) < LOGSIZE := h.valid
  have hreplay : (redoLog a).replay d = installs a d 0 (headList (d a.start)) := if_pos hn
  have hlist : ∀ b ∈ headList (d a.start), a.Home b := by
    intro b hb
    have hhome := h.home
    rw [hreplay] at hhome
    rw [← map_installs (a := a) (d := d) (headList (d a.start)) 0, List.mem_map] at hb
    rcases hb with ⟨w, hw, rfl⟩
    exact hhome w hw
  -- the header is read
  have h0 := binit_cached a d
  have hq0 : (binit a d).is_flush = true ∨ ((∅ : Finset Nat) ∪ ∅).card + 3 ≤ NBUF :=
    Or.inr (by decide)
  have hdisk0 : (binit a d).disk = d := rfl
  have hwrites0 : (binit a d).writes = [] := rfl
  have hlh0 : (binit a d).lh = [] := rfl
  generalize binit a d = s0 at h0 hq0 hlog hdisk0 hwrites0 hlh0 ⊢
  simp only [Ends, recoverFromLog, readHead, bread, wp_bind, wp_get, hlog]
  refine (bread_cached h0 (h0.two_lt_unused hq0) (Finset.notMem_empty _) (by omega)
    (Or.inr (by decide))).mono ?_
  rintro i s1 ⟨h1, hi, hquiet1, -⟩
  have hin : a.start ∈ insert a.start (∅ : Finset Nat) := Finset.mem_insert_self _ _
  have hdata : (s1.buf i).data = d a.start :=
    h1.data i _ hi (h1.valid_of_holds hi (Finset.mem_union_left _ hin))
  have hsigned : headN (d a.start) < 2 ^ 31 := by omega
  have hbound : ¬ headN (d a.start) > LOGSIZE := by omega
  simp only [hdata, if_pos hsigned, if_neg hbound, wp_bind, wp_modify]
  have h1' : Cached { s1 with lh := headList (d a.start) } (insert a.start ∅) ∅ d :=
    h1.congr rfl rfl rfl
  refine (brelse_cached h1' hi hin).mono ?_
  rintro - s2 ⟨h2, hquiet2, -⟩
  rw [Finset.erase_insert (Finset.notMem_empty _)] at h2
  have hsame2 : Same { s0 with lh := headList (d a.start) } s2 :=
    ⟨hquiet2.is_flush.trans hquiet1.is_flush, hquiet2.log.trans hquiet1.log,
      hquiet2.outstanding.trans hquiet1.outstanding, hquiet2.committing.trans hquiet1.committing,
      hquiet2.lh, hquiet2.commits.trans hquiet1.commits⟩
  have hlog2 : s2.log = a := hsame2.log.trans hlog
  have hdisk2 : s2.disk = d := (hquiet2.disk.trans hquiet1.disk).trans hdisk0
  have hwrites2 : s2.writes = [] := (hquiet2.writes.trans hquiet1.writes).trans hwrites0
  -- the installs
  have hlen : 0 + (headList (d a.start)).length < a.size := by
    rw [headList, List.length_map, List.length_range]
    omega
  simp only [installTrans, wp_bind, wp_get, hsame2.lh]
  refine (installFrom_ends (a := a) (H := ∅) (by simp) (headList (d a.start))
    (fun b hb => ⟨Finset.notMem_empty _, hlist b hb⟩) h2 hlog2 (by simp)
    (Or.inr (by decide)) (by decide) (Or.inr (by decide)) hlen).mono ?_
  rintro - s3 ⟨h3, hsame3, hdisk3, hwrites3⟩
  rw [Finset.empty_sdiff, ← hreplay] at h3
  rw [← hreplay] at hdisk3 hwrites3
  have hhead3 : applyWrites d ((redoLog a).replay d) a.start = d a.start :=
    h.head_redo List.prefix_rfl
  -- the erased header
  have h3' : Cached { s3 with lh := [] } ∅ ∅ (applyWrites d ((redoLog a).replay d)) :=
    h3.congr rfl rfl rfl
  refine (writeHead_ends h3' (hsame3.log.trans hlog2) (by simp) (Or.inr (by decide))
    (by decide)).mono ?_
  rw [hhead3]
  rintro - s4 ⟨h4, hsame4, hdisk4, hwrites4⟩
  have hdisk : s4.disk = applyWrites d ((redoLog a).recovery d) := by
    rw [hdisk4, RedoLog.recovery, applyWrites_append]
    show Function.update s3.disk _ _ = _
    rw [hdisk3, hdisk2]
    rfl
  refine ⟨?_, hdisk, ?_, ?_⟩
  · rw [hwrites4]
    show s3.writes ++ _ = _
    rw [hwrites3, hwrites2]
    rfl
  · have hC : s4.disk =
        Function.update (applyWrites d ((redoLog a).replay d)) a.start
          (putHead (d a.start) []) := by
      rw [hdisk4]
      show Function.update s3.disk _ _ = _
      rw [hdisk3, hdisk2]
    rw [hC]
    exact h4
  · have hsame := hsame2.trans hsame3
    exact ⟨hsame4.is_flush.trans hsame.is_flush, hsame4.log.trans hsame.log,
      hsame4.outstanding.trans hsame.outstanding, hsame4.committing.trans hsame.committing,
      hsame4.lh.trans hlh0.symm, hsame4.commits.trans hsame.commits⟩

end

end Xv6.Log
