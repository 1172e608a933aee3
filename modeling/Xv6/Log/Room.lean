import Xv6.Log.Refine

/-!
# Room in the log and in the buffer cache

`begin_op` reserves no space. What keeps `log_write` from finding the log full,
and `bget` from finding no buffer, is the flush that `bget` starts while two
buffers are left: a listed block pins a buffer, so at most 98 blocks are listed.

`never_exhausted` says of every state that a careful process reaches that two
buffers are left and that no next call panics for want of room. Careful means
that it holds fewer than four buffers when it asks for the next, and that it
holds no listed one when a commit may start, which would wait for it. The
operations may be as large and as many as one likes.
-/

namespace Xv6.Log

open Xv6.Lib Xv6.Lib.Prog

/-! ## The steps of one process -/

/-- The kernel code that a step runs. -/
def Act.code : Act → M Unit
  | .beginOp => Log.beginOp
  | .endOp => Log.endOp
  | .sync => do let _ ← Log.sync
  | .bread b => do let _ ← Log.bread b
  | .write i v => do setBuf i fun x => { x with data := v }; logWrite i
  | .brelse i => Log.brelse i

/-- The process reads home blocks, has at most four buffers at a time, and has no
listed one when a flush starts. -/
def Careful (s : Sys) : Act → Prop
  | .bread b => s.k.log.Home b ∧ s.k.num_held < 4 ∧ (s.k.num_unused_buf ≤ 2 → Free s.k)
  | .sync => Free s.k
  | _ => True

/-- A careful process does what is allowed. -/
theorem Careful.allowed {s : Sys} {act : Act} (h : Careful s act) : Allowed s act := by
  cases act with
  | bread b => exact h.1
  | beginOp => trivial
  | endOp => trivial
  | sync => trivial
  | write i v => trivial
  | brelse i => trivial

/-! ## The property -/

/-- Neither the log nor the cache has run out. -/
def Spared (e : Stop) : Prop :=
  e ≠ .panic "too big a transaction" ∧ e ≠ .panic "bget: no buffers"

/-- The buffers that `bget` cannot recycle. -/
def St.busy (s : St) : Finset Bidx :=
  Finset.univ.filter fun i => (s.buf i).dirty = true ∨ (s.buf i).refcnt ≠ 0

/-- Two buffers are left, the dirty ones are those of the listed blocks, and
neither panic is one step away. -/
structure Roomy (s : Sys) : Prop where
  spare : s.k.busy.card ≤ NBUF - 2
  dirty : ∀ i, (s.k.buf i).dirty = true ↔ ∃ b ∈ s.k.lh, Holds s.k i b
  pinned : ∀ b ∈ s.k.lh, ∃ i, Holds s.k i b ∧ (s.k.buf i).dirty = true
  no_panic : ∀ act, Careful s act → ∀ e, act.code.run s.k = .error e → Spared e

/-! ## Room -/

/-- Every buffer is unused or busy. -/
theorem Cached.card_busy {s : St} {H D : Finset Nat} {C : Nat → Block} (h : Cached s H D C) :
    s.num_unused_buf + s.busy.card = NBUF := by
  have hbusy : s.busy = Finset.univ.filter fun i => ¬ (s.buf i).unused = true := by
    unfold St.busy Buf.unused
    ext i
    simp only [Finset.mem_filter, Finset.mem_univ, true_and]
    cases (s.buf i).dirty <;> simp
  rw [hbusy, h.num_unused, Finset.card_filter_add_card_filter_not, Finset.card_univ,
    Fintype.card_fin]

section

variable {a : LogArea} {s : St} {H : Finset Nat} {C : Nat → Block}

/-- The log is never longer than the cache has buffers in use. -/
theorem Store.lh_short (h : Store a s H C) (hroom : 2 ≤ s.num_unused_buf) :
    s.lh.length < LOGSIZE - 1 := by
  have hcard := h.card
  have hle := Finset.card_le_card
    (Finset.subset_union_right : s.lh.toFinset ⊆ H ∪ s.lh.toFinset)
  rw [List.toFinset_card_of_nodup h.nodup] at hle
  have hN : NBUF = 100 := rfl
  have hL : LOGSIZE = 100 := rfl
  omega

/-- Asking for a block that the process holds; the flush comes first. -/
theorem bread_asleep (h : Store a s H C) {b : Nat} (hb : b ∈ H)
    (hfree : s.num_unused_buf ≤ 2 → ∀ c ∈ s.lh, c ∉ H) (hroom : 0 < s.num_unused_buf) :
    wp (bread b) s (fun _ _ => False) (· = .asleep) := by
  unfold bread breadWith bgetWith
  simp only [wp_bind, wp_get]
  by_cases hfew : s.num_unused_buf ≤ 2
  · rw [if_pos ⟨h.is_flush, hfew⟩]
    unfold flush
    simp only [wp_bind, wp_get, h.committing, Bool.false_eq_true, if_false, wp_pure]
    refine (commitFlagged_store h (hfree hfew) (Or.inr hroom)).mono ?_
    rintro - s1 ⟨-, ⟨C1, h1, -⟩, -⟩
    exact (bgetFind_asleep h1.cached hb).mono (fun _ _ hf => hf.elim) fun _ he => he
  · rw [if_neg fun hc => hfew hc.2]
    exact (bgetFind_asleep h.cached hb).mono (fun _ _ hf => hf.elim) fun _ he => he

/-- With two unused buffers no action meets the panic for want of buffers. -/
theorem Store.code_spared (h : Store a s H C) (hroom : 2 ≤ s.num_unused_buf) {t : Sys}
    (ht : t.k = s) {act : Act} (hok : Careful t act) :
    wp act.code s (fun _ _ => True) Spared := by
  subst ht
  have hpos : 0 < t.k.num_unused_buf := by omega
  cases act with
  | beginOp => exact (beginOp_store h).mono fun _ _ _ => trivial
  | endOp => exact (endOp_store h).mono fun _ _ _ => trivial
  | sync =>
      simp only [Act.code, wp_bind]
      refine (sync_store h (h.free hok) (Or.inr hpos)).mono ?_
      intro _ _ _
      exact (wp_pure ..).2 trivial
  | bread b =>
      rcases hok with ⟨hhome, -, hfree⟩
      rw [h.log] at hhome
      simp only [Act.code, wp_bind]
      -- a block that is held already makes the read wait, but does not exhaust the buffers
      by_cases hb : b ∈ H
      · refine (bread_asleep h hb (fun hfew => h.free (hfree hfew)) hpos).mono ?_ ?_
        · intro _ _ hf
          exact hf.elim
        · rintro _ rfl
          constructor <;> simp
      · refine (bread_store h hb hhome (fun hfew => h.free (hfree hfew)) hpos).mono ?_
        intro _ _ _
        exact (wp_pure ..).2 trivial
  | write i v =>
      have hsize := a.size_eq
      have hshort := h.lh_short hroom
      have hL : LOGSIZE = 100 := rfl
      simp only [Act.code, logWrite, wp_bind, wp_setBuf, wp_get]
      -- the log header has room, since the held and the pinned blocks fit in the cache
      refine wp_ite (fun hbig => ?_) fun _ => ?_
      · -- the log has room
        have hlh : (t.k.setBuf i fun x => { x with data := v }).lh = t.k.lh := rfl
        have hlog : (t.k.setBuf i fun x => { x with data := v }).log = t.k.log := rfl
        rw [hlh, hlog, h.log] at hbig
        omega
      · refine wp_ite (fun _ => ?_) fun _ => ?_
        · simp [halt, Spared]
        · simp
  | brelse i =>
      simp only [Act.code, brelse, wp_bind, wp_get]
      refine wp_ite (fun _ => ?_) fun _ => ?_
      · simp [halt, Spared]
      · simp only [wp_bind, wp_setBuf, wp_get]
        refine wp_ite (fun _ => ?_) fun _ => ?_ <;> simp

end

/-! ## Steps -/

/-- Two buffers are left, also if the step is a flush. -/
theorem next_room {a : LogArea} {s s' : Sys} {H : Finset Nat} {C : Nat → Block}
    (h : Inv a s H C) (hroom : s.maxHeld < 4) {act : Act} (hok : Careful s act)
    (hs : next s act = some s') : (∃ H' C', Inv a s' H' C') ∧ s'.maxHeld < 4 := by
  rcases next_inv h hok.allowed hs with ⟨H', C', h', -⟩
  refine ⟨⟨H', C', h'⟩, ?_⟩
  -- only a read holds one block more, and the condition bounds it
  cases act with
  | beginOp =>
      rcases Option.map_eq_some_iff.1 hs with ⟨k, -, rfl⟩
      exact hroom
  | endOp =>
      simp only [next, Option.ite_none_left_eq_some] at hs
      rcases Option.map_eq_some_iff.1 hs.2 with ⟨k, -, rfl⟩
      exact hroom
  | sync =>
      rcases Option.map_eq_some_iff.1 hs with ⟨k, -, rfl⟩
      exact hroom
  | bread b =>
      rcases Option.map_eq_some_iff.1 hs with ⟨k, -, rfl⟩
      exact max_lt hroom hok.2.1
  | write i v =>
      simp only [next, Option.ite_none_right_eq_some] at hs
      rcases Option.map_eq_some_iff.1 hs.2 with ⟨k, -, rfl⟩
      exact hroom
  | brelse i =>
      rcases Option.map_eq_some_iff.1 hs with ⟨k, -, rfl⟩
      exact hroom

/-- A process that holds less than four buffers has room for the next call. -/
theorem Inv.roomy {a : LogArea} {s : Sys} {H : Finset Nat} {C : Nat → Block} (h : Inv a s H C)
    (hroom : s.maxHeld < 4) : Roomy s := by
  have hN : NBUF = 100 := rfl
  have hcached := h.store.cached
  have htwo : 2 ≤ s.k.num_unused_buf := h.spare (by omega)
  have hdirty : ∀ i, (s.k.buf i).dirty = true ↔ ∃ b ∈ s.k.lh, Holds s.k i b := by
    intro i
    simpa using hcached.dirty i
  constructor
  case spare =>
    have hcard := hcached.card_busy
    omega
  case dirty => exact hdirty
  case pinned =>
    intro b hb
    rcases hcached.valid b (Finset.mem_union_right _ (List.mem_toFinset.2 hb)) with ⟨i, hi, -⟩
    exact ⟨i, hi, (hdirty i).2 ⟨b, hb, hi⟩⟩
  case no_panic =>
    intro act hok e he
    exact wp.of_error (h.store.code_spared htwo rfl hok) he

/-- However many operations a process runs, and however large they are, the log and
the cache have room for the next step. -/
theorem never_exhausted {s : Sys} (hr : ReachOk Init next Careful s) : Roomy s := by
  have hinv : (∃ a H C, Inv a s H C) ∧ s.maxHeld < 4 := by
    refine hr.invariant (fun s => (∃ a H C, Inv a s H C) ∧ s.maxHeld < 4) ?_ ?_
    · intro s hs
      rcases init_inv hs with ⟨a, h⟩
      rcases hs with ⟨-, -, -, -, -, hmax⟩
      exact ⟨⟨a, _, _, h⟩, by omega⟩
    · rintro s act s' ⟨⟨a, H, C, h⟩, hroom⟩ hok hs
      rcases next_room h hroom hok hs with ⟨⟨H', C', h'⟩, hroom'⟩
      exact ⟨⟨a, H', C', h'⟩, hroom'⟩
  rcases hinv with ⟨⟨a, H, C, h⟩, hroom⟩
  exact h.roomy hroom

/-- A process logs a block and syncs. -/
theorem never_exhausted_write :
    ∃ k i s, recoverFromLog.run (binit mkfsLog fun _ _ => 0) = .ok ((), k) ∧
      exec next ⟨k, k.disk, 0⟩
        [.beginOp, .bread 500, .write i fun _ => 1, .brelse i, .endOp, .sync] = some s ∧
      Roomy s := by
  rcases boots_and_writes fun _ => 1 with ⟨k, i, s1, s2, s3, s4, s5, s6, hk, h⟩
  have hinit : Init ⟨k, k.disk, 0⟩ := ⟨mkfsLog, _, boots_ready, hk, rfl, rfl⟩
  have hread : Careful s1 (.bread 500) := by
    refine ⟨h.home, ?_, fun hfew => absurd h.access.unused (Nat.not_lt.2 hfew)⟩
    rw [h.access.held]
    decide
  have hr1 : ReachOk Init next Careful s1 := .step (a := .beginOp) (.init hinit) trivial h.begins
  have hr2 : ReachOk Init next Careful s2 := .step hr1 hread h.access.reads
  have hr3 : ReachOk Init next Careful s3 := .step (a := .write i _) hr2 trivial h.access.writes
  have hr4 : ReachOk Init next Careful s4 := .step (a := .brelse i) hr3 trivial h.access.releases
  have hr5 : ReachOk Init next Careful s5 := .step (a := .endOp) hr4 trivial h.ends
  have hr6 : ReachOk Init next Careful s6 := .step (a := .sync) hr5 h.free h.syncs
  refine ⟨k, i, s6, hk, ?_, never_exhausted hr6⟩
  simp only [exec_cons, exec_nil, h.begins, h.access.reads, h.access.writes, h.access.releases,
    h.ends, h.syncs, Option.bind_some]

end Xv6.Log
