import Xv6.Lib.Transition
import Xv6.Log.Store

/-!
# The buffered store as a block map

One process calls `bread`, changes and logs what it got, releases it, starts and
ends operations and calls `sync`. To it the store is a map from home blocks to
their contents: `bread` returns what was last logged, whether it comes from a
pinned buffer, a clean one, a recycled one or the disk, and `sync` makes the disk
equal to the map.

`store_refines_map` says so in every state that a run reaches, of the calls that
come next; it also says when they return, and that no block is cached twice. A
buffer is changed and logged in one step, so writes that are never logged are no
part of the runs. The abstract side is the field `map` of the system, updated by
`log_write` alone. `Log.Atomic` says what of the map survives a crash.
-/

namespace Xv6.Log

open Xv6.Lib Xv6.Lib.Prog

/-! ## The system -/

/-- The kernel with the history that the statements are about: the block map as
the process wrote it, and the largest number of buffers it held when it called
`bread`. -/
structure Sys where
  k : St
  map : Nat → Block
  maxHeld : Nat

inductive Act
  | beginOp
  | endOp
  | sync
  | bread (b : Nat)
  | write (i : Bidx) (v : Block)
  | brelse (i : Bidx)

def St.num_held (s : St) : Nat := s.order.countP fun i => (s.buf i).locked

/-- The state that `x` returns in. -/
def after {α : Type} (x : M α) (s : St) : Option St :=
  match x.run s with
  | .ok (_, s') => some s'
  | .error _ => none

/-- The process takes a step. `write` puts contents into a buffer that it holds
and calls `log_write`. -/
def next (s : Sys) : Act → Option Sys
  | .beginOp => (after beginOp s.k).map fun k => { s with k := k }
  | .endOp =>
      if s.k.outstanding = 0 then none
      else (after endOp s.k).map fun k => { s with k := k }
  | .sync => (after sync s.k).map fun k => { s with k := k }
  | .bread b =>
      (after (bread b) s.k).map fun k =>
        { s with k := k, maxHeld := max s.maxHeld s.k.num_held }
  | .write i v =>
      if (s.k.buf i).locked = true then
        (after (do setBuf i fun x => { x with data := v }; logWrite i) s.k).map fun k =>
          { s with k := k, map := Function.update s.map (s.k.buf i).blockno v }
      else none
  | .brelse i => (after (brelse i) s.k).map fun k => { s with k := k }

/-- The process reads home blocks. -/
def Allowed (s : Sys) : Act → Prop
  | .bread b => s.k.log.Home b
  | _ => True

/-- No buffer that the process holds is listed in `log.lh`. -/
def Free (s : St) : Prop := ∀ i, (s.buf i).locked = true → (s.buf i).blockno ∉ s.lh

/-- After the boot has recovered a disk. -/
def Init (s : Sys) : Prop :=
  ∃ a d, (redoLog a).Ready d ∧ recoverFromLog.run (binit a d) = .ok ((), s.k) ∧
    s.map = s.k.disk ∧ s.maxHeld = 0

/-! ## The property -/

/-- The disk holds the whole map and needs no log for that. -/
structure Synced (s : Sys) (k : St) : Prop where
  lh : k.lh = []
  clean : ∀ i, (k.buf i).dirty = false
  disk : ∀ b, s.k.log.Home b → k.disk b = s.map b
  crash : ∃ r, recoverFromLog.run (binit s.k.log k.disk) = .ok ((), r) ∧
    ∀ b, s.k.log.Home b → r.disk b = s.map b

/-- A `bread` that returns, returns what the map has; it does return, for a block
that the process does not hold, if a buffer is unused and no flush is due that
would wait for a buffer that the process holds. The same for `sync`. Two buffers
at least are unused as long as the process has never asked for another block
while it held 98 or more. -/
structure Refines (s : Sys) : Prop where
  uniq : ∀ i j b, Holds s.k i b → Holds s.k j b → i = j
  bread : ∀ b, s.k.log.Home b → ∀ i k', (bread b).run s.k = .ok (i, k') →
    Holds k' i b ∧ (k'.buf i).locked = true ∧ (k'.buf i).data = s.map b
  bread_returns : ∀ b, s.k.log.Home b → (s.k.num_unused_buf ≤ 2 → Free s.k) →
    (∀ i, Holds s.k i b → (s.k.buf i).locked = false) → 0 < s.k.num_unused_buf →
    ∃ i k', (Log.bread b).run s.k = .ok (i, k')
  sync : ∀ n k', sync.run s.k = .ok (n, k') → Synced s k'
  sync_returns : Free s.k → 0 < s.k.num_unused_buf → ∃ n k', Log.sync.run s.k = .ok (n, k')
  spare : s.maxHeld + 3 ≤ NBUF → 2 ≤ s.k.num_unused_buf

/-! ## The invariant -/

structure Inv (a : LogArea) (s : Sys) (H : Finset Nat) (C : Nat → Block) : Prop where
  store : Store a s.k H C
  map : SameHome a s.map C
  spare : s.maxHeld + 3 ≤ NBUF → 2 ≤ s.k.num_unused_buf

/-- The state after code that has ended. -/
theorem after_eq_some {α : Type} {x : M α} {s s' : St} (h : after x s = some s') :
    ∃ r, x.run s = .ok (r, s') := by
  unfold after at h
  split at h
  · next r s1 hx =>
    cases h
    exact ⟨r, hx⟩
  · cases h

theorem after_of_run {α : Type} {x : M α} {s s' : St} {r : α} (h : x.run s = .ok (r, s')) :
    after x s = some s' := by
  unfold after
  rw [h]

theorem after_of_ends {α : Type} {x : M α} {s s' : St} {Q : α → St → Prop} (hx : Ends x s Q)
    (h : after x s = some s') : ∃ r, Q r s' := by
  rcases after_eq_some h with ⟨r, hr⟩
  exact ⟨r, wp.of_ok hx hr⟩

/-- Where no buffer of a listed block is held, no listed block is held. -/
theorem Store.free {a : LogArea} {s : St} {H : Finset Nat} {C : Nat → Block} (h : Store a s H C)
    (hf : Free s) : ∀ b ∈ s.lh, b ∉ H := by
  intro b hb hbH
  rcases h.cached.valid b (Finset.mem_union_left _ hbH) with ⟨i, hi, _⟩
  apply hf i ((h.cached.locked_of_holds hi).2 hbH)
  rwa [hi.blockno]

/-- The held buffers are those of the held blocks. -/
theorem Store.num_held {a : LogArea} {s : St} {H : Finset Nat} {C : Nat → Block}
    (h : Store a s H C) : s.num_held = H.card := by
  have hfin : (s.order.filter fun i => (s.buf i).locked).toFinset =
      Finset.univ.filter fun i => (s.buf i).locked = true := by
    ext i
    simp [h.cached.mem i]
  rw [St.num_held, List.countP_eq_length_filter,
    ← List.toFinset_card_of_nodup (h.cached.nodup.filter _), hfin]
  -- a buffer that is locked caches exactly one held block
  refine Finset.card_bij (fun i _ => (s.buf i).blockno) ?_ ?_ ?_
  · intro i hi
    rw [Finset.mem_filter, h.cached.locked] at hi
    rcases hi with ⟨-, b, hb, hib⟩
    rwa [hib.blockno]
  · intro i hi j hj hij
    rw [Finset.mem_filter, h.cached.locked] at hi hj
    rcases hi with ⟨-, b, _, hib⟩
    rcases hj with ⟨-, c, _, hjc⟩
    rw [hib.blockno, hjc.blockno] at hij
    subst hij
    exact h.cached.uniq i j b hib hjc
  -- and every held block has one
  · intro b hb
    rcases h.cached.valid b (Finset.mem_union_left _ hb) with ⟨i, hib, _⟩
    refine ⟨i, ?_, hib.blockno⟩
    rw [Finset.mem_filter]
    exact ⟨Finset.mem_univ i, (h.cached.locked_of_holds hib).2 hb⟩

/-- What `sync` does when it can go ahead. -/
theorem sync_store {a : LogArea} {s : St} {H : Finset Nat} {C : Nat → Block} (h : Store a s H C)
    (hfree : ∀ b ∈ s.lh, b ∉ H) (hroom : s.lh = [] ∨ 0 < s.num_unused_buf) :
    Ends sync s fun _ s' => (∃ C', Store a s' H C' ∧ SameHome a C C') ∧ s'.lh = [] ∧
      s'.outstanding = s.outstanding ∧ s'.commits = s.commits ++ [s.outstanding] ∧
      s'.writes = s.writes ++ commitWrites a s.disk C s.lh := by
  unfold sync
  simp only [Ends, wp_bind, wp_get, h.committing, Bool.false_eq_true, if_false]
  refine (commitFlagged_store h hfree hroom).mono ?_
  rintro n s' ⟨-, hstore, hrest⟩
  exact ⟨hstore, hrest⟩

/-- The outcome of a `sync` that returned. -/
theorem sync_returned {a : LogArea} {s s' : St} {H : Finset Nat} {C : Nat → Block} {n : Nat}
    (h : Store a s H C) (hs : sync.run s = .ok (n, s')) :
    (∃ C', Store a s' H C' ∧ SameHome a C C') ∧ s'.lh = [] ∧
      s'.outstanding = s.outstanding ∧ s'.commits = s.commits ++ [s.outstanding] ∧
      s'.writes = s.writes ++ commitWrites a s.disk C s.lh := by
  by_cases hno : s.lh ≠ [] ∧ s.num_unused_buf = 0 ∨ ∃ b ∈ s.lh, b ∈ H
  · have hstop : Stops sync s := by
      unfold sync
      simp only [Stops, wp_bind, wp_get, h.committing, Bool.false_eq_true, if_false]
      exact commitFlagged_stops h hno
    exact (Stops.ne_ok hstop hs).elim
  · rw [not_or, not_and_or, not_not] at hno
    have hret := wp.of_ok (sync_store h (fun b hb hbH => hno.2 ⟨b, hb, hbH⟩)
      (hno.1.imp_right Nat.pos_of_ne_zero)) hs
    exact hret

/-- The outcome of a `bread` that returned. -/
theorem bread_returned {a : LogArea} {s s' : St} {H : Finset Nat} {C : Nat → Block} {b : Nat}
    {i : Bidx} (h : Store a s H C) (hhome : a.Home b) (hs : (bread b).run s = .ok (i, s')) :
    b ∉ H ∧ (∃ C', Store a s' (insert b H) C' ∧ SameHome a C C') ∧ Holds s' i b ∧
      (s'.buf i).data = C b ∧ s'.outstanding = s.outstanding ∧
      ((2 < s.num_unused_buf ∧ Quiet s s') ∨
        (s.num_unused_buf ≤ 2 ∧ s'.lh = [] ∧ s'.commits = s.commits ++ [s.outstanding] ∧
          s'.writes = s.writes ++ commitWrites a s.disk C s.lh)) := by
  by_cases hno : b ∈ H ∨ s.num_unused_buf = 0 ∨ s.num_unused_buf ≤ 2 ∧ ∃ c ∈ s.lh, c ∈ H
  · exact (Stops.ne_ok (bread_stops h hno) hs).elim
  · rw [not_or, not_or] at hno
    rcases hno with ⟨hb, hroom, hfree⟩
    have hret := wp.of_ok (bread_store h hb hhome
      (fun hfew c hc hcH => hfree ⟨hfew, c, hc, hcH⟩) (by omega)) hs
    exact ⟨hb, hret⟩

/-! ## Steps -/

theorem beginOp_store {a : LogArea} {s : St} {H : Finset Nat} {C : Nat → Block}
    (h : Store a s H C) :
    Ends beginOp s fun _ s' => s' = { s with outstanding := s.outstanding + 1 } := by
  simp [beginOp, h.committing]

theorem endOp_store {a : LogArea} {s : St} {H : Finset Nat} {C : Nat → Block}
    (h : Store a s H C) :
    Ends endOp s fun _ s' => s' = { s with outstanding := s.outstanding - 1 } := by
  simp [endOp, h.committing]

/-- `outstanding` does not matter to the store. -/
theorem Store.outstanding {a : LogArea} {s : St} {H : Finset Nat} {C : Nat → Block}
    (h : Store a s H C) (n : Nat) : Store a { s with outstanding := n } H C where
  cached := h.cached.congr rfl rfl rfl
  log := h.log
  nodup := h.nodup
  short := h.short
  held_home := h.held_home
  lh_home := h.lh_home
  is_flush := h.is_flush
  committing := h.committing
  replay := h.replay
  valid := h.valid

/-- The outcome of a write that returned. -/
theorem write_returned {a : LogArea} {s s' : St} {H : Finset Nat} {C : Nat → Block} {i : Bidx}
    {v : Block} (h : Store a s H C) (hl : (s.buf i).locked = true)
    (hs : after (do setBuf i fun x => { x with data := v }; logWrite i) s = some s') :
    1 ≤ s.outstanding ∧ (s.buf i).blockno ∈ H ∧
      Store a s' H (Function.update C (s.buf i).blockno v) ∧
      s'.lh = (if (s.buf i).blockno ∈ s.lh then s.lh else s.lh ++ [(s.buf i).blockno]) ∧
      s'.outstanding = s.outstanding ∧ s'.commits = s.commits ∧ s'.writes = s.writes ∧
      s'.disk = s.disk ∧ s'.num_unused_buf = s.num_unused_buf := by
  have hsize := a.size_eq
  have hL : LOGSIZE = 100 := rfl
  rcases (h.cached.locked i).1 hl with ⟨b, hb, hi⟩
  rcases after_eq_some hs with ⟨r, hr⟩
  by_cases hgo : s.lh.length < LOGSIZE - 1 ∧ 1 ≤ s.outstanding
  · rw [hi.blockno]
    rcases wp.of_ok (logWrite_store h hi hb v hgo.1 hgo.2) hr with ⟨h1, h2, h3, h4, h5, h6, h7, -⟩
    exact ⟨hgo.2, hb, h1, h2, h3, h4, h5, h6, h7⟩
  · -- `log_write` panics
    have hstop : Stops (do setBuf i fun x => { x with data := v }; logWrite i) s := by
      simp only [Stops, logWrite, wp_bind, wp_setBuf, wp_get]
      refine wp_ite (fun _ => by simp [halt]) fun h1 => ?_
      refine wp_ite (fun _ => by simp [halt]) fun h2 => ?_
      have hlog : (s.setBuf i fun x => { x with data := v }).log = s.log := rfl
      have hlh : (s.setBuf i fun x => { x with data := v }).lh = s.lh := rfl
      have hout : (s.setBuf i fun x => { x with data := v }).outstanding = s.outstanding := rfl
      rw [hlog, hlh, h.log] at h1
      rw [hout] at h2
      omega
    exact (Stops.ne_ok hstop hr).elim

/-- The same write to both keeps them the same on home blocks. -/
theorem update_sameHome {a : LogArea} {C C' : Nat → Block} (h : SameHome a C C') (b : Nat)
    (v : Block) : SameHome a (Function.update C b v) (Function.update C' b v) := by
  intro c hc
  by_cases hcb : c = b
  · subst hcb
    simp
  · rw [Function.update_of_ne hcb, Function.update_of_ne hcb, h c hc]

/-- Nothing reaches the disk. -/
structure Still (s s' : St) : Prop where
  disk : s'.disk = s.disk
  writes : s'.writes = s.writes
  commits : s'.commits = s.commits

/-- What a step does to the disk, the count of operations and the map, when block
`b` contains `C b` before it. -/
def Effect (a : LogArea) (C : Nat → Block) (s s' : Sys) : Act → Prop
  | .beginOp => s'.k.outstanding = s.k.outstanding + 1 ∧ s'.map = s.map ∧ Still s.k s'.k
  | .endOp => s'.k.outstanding = s.k.outstanding - 1 ∧ s'.map = s.map ∧ Still s.k s'.k
  | .sync => s'.k.outstanding = s.k.outstanding ∧ s'.map = s.map ∧ s'.k.lh = [] ∧
      s'.k.commits = s.k.commits ++ [s.k.outstanding] ∧
      s'.k.writes = s.k.writes ++ commitWrites a s.k.disk C s.k.lh
  | .bread _ => s'.k.outstanding = s.k.outstanding ∧ s'.map = s.map ∧
      (2 < s.k.num_unused_buf ∧ Still s.k s'.k ∨
        s.k.num_unused_buf ≤ 2 ∧ s'.k.commits = s.k.commits ++ [s.k.outstanding])
  | .write _ _ => s'.k.outstanding = s.k.outstanding ∧ Still s.k s'.k
  | .brelse _ => s'.k.outstanding = s.k.outstanding ∧ s'.map = s.map ∧ Still s.k s'.k

/-- A step keeps the invariant and is one of the map, one case for each action. -/
theorem next_inv {a : LogArea} {s s' : Sys} {H : Finset Nat} {C : Nat → Block} (h : Inv a s H C)
    {act : Act} (hok : Allowed s act) (hs : next s act = some s') :
    ∃ H' C', Inv a s' H' C' ∧ Effect a C s s' act := by
  cases act with
  | beginOp =>
      rcases Option.map_eq_some_iff.1 hs with ⟨k, hk, rfl⟩
      rcases after_of_ends (beginOp_store h.store) hk with ⟨-, rfl⟩
      exact ⟨H, C, ⟨h.store.outstanding _, h.map, h.spare⟩, rfl, rfl, rfl, rfl, rfl⟩
  | endOp =>
      simp only [next, Option.ite_none_left_eq_some] at hs
      rcases Option.map_eq_some_iff.1 hs.2 with ⟨k, hk, rfl⟩
      rcases after_of_ends (endOp_store h.store) hk with ⟨-, rfl⟩
      exact ⟨H, C, ⟨h.store.outstanding _, h.map, h.spare⟩, rfl, rfl, rfl, rfl, rfl⟩
  | sync =>
      rcases Option.map_eq_some_iff.1 hs with ⟨k, hk, rfl⟩
      rcases after_eq_some hk with ⟨n, hn⟩
      rcases sync_returned h.store hn with ⟨⟨C', hstore, hC⟩, hlh, hout, hcommits, hwrites⟩
      -- the pinned blocks are home now, so fewer are needed than before
      refine ⟨H, C', ⟨hstore, h.map.trans hC, fun hm => ?_⟩, hout, rfl, hlh, hcommits, hwrites⟩
      have h1 := h.store.card
      have h2 := hstore.card
      have h3 := h.spare hm
      have hle := Finset.card_le_card (Finset.subset_union_left : H ⊆ H ∪ s.k.lh.toFinset)
      rw [hlh, List.toFinset_nil, Finset.union_empty] at h2
      show 2 ≤ k.num_unused_buf
      omega
  | bread b =>
      rcases Option.map_eq_some_iff.1 hs with ⟨k, hk, rfl⟩
      rcases after_eq_some hk with ⟨i, hi⟩
      have hhome : a.Home b := h.store.log ▸ hok
      rcases bread_returned h.store hhome hi with ⟨hb, ⟨C', hstore, hC⟩, -, -, hout, hcase⟩
      refine ⟨insert b H, C', ⟨hstore, h.map.trans hC, fun hm => ?_⟩, hout, rfl, ?_⟩
      · have h1 := h.store.card
        have h2 := hstore.card
        have h3 := h.store.num_held
        have hins := Finset.card_insert_le b (H ∪ s.k.lh.toFinset)
        have hinsH := Finset.card_insert_le b H
        have hmax : s.k.num_held ≤ max s.maxHeld s.k.num_held := le_max_right _ _
        simp only at hm
        show 2 ≤ k.num_unused_buf
        -- the read found buffers enough, or it flushed first
        rcases hcase with ⟨hmany, hq⟩ | ⟨-, hlh, -⟩
        · rw [hq.lh, Finset.insert_union] at h2
          omega
        · rw [hlh, List.toFinset_nil, Finset.union_empty] at h2
          omega
      · rcases hcase with ⟨hmany, hq⟩ | ⟨hfew, -, hcommits, -⟩
        · exact Or.inl ⟨hmany, hq.disk, hq.writes, hq.commits⟩
        · exact Or.inr ⟨hfew, hcommits⟩
  | write i v =>
      simp only [next, Option.ite_none_right_eq_some] at hs
      rcases hs with ⟨hl, hs⟩
      rcases Option.map_eq_some_iff.1 hs with ⟨k, hk, rfl⟩
      obtain ⟨-, -, hstore, -, hout, hcommits, hwrites, hdisk, hnum⟩ := write_returned h.store hl hk
      refine ⟨H, _, ⟨hstore, update_sameHome h.map _ v, fun hm => ?_⟩, hout, hdisk, hwrites,
        hcommits⟩
      show 2 ≤ k.num_unused_buf
      rw [hnum]
      exact h.spare hm
  | brelse i =>
      rcases Option.map_eq_some_iff.1 hs with ⟨k, hk, rfl⟩
      rcases after_eq_some hk with ⟨r, hr⟩
      -- `brelse` of a buffer that is not locked panics
      cases hl : (s.k.buf i).locked with
      | true =>
          rcases (h.store.cached.locked i).1 hl with ⟨b, hb, hi⟩
          rcases wp.of_ok (brelse_store h.store hi hb) hr with ⟨hstore, hq, hle⟩
          exact ⟨_, C, ⟨hstore, h.map, fun hm => (h.spare hm).trans hle⟩, hq.outstanding, rfl,
            hq.disk, hq.writes, hq.commits⟩
      | false =>
          have hstop : Stops (brelse i) s.k := by simp [brelse, hl, halt]
          exact (Stops.ne_ok hstop hr).elim

/-- The store that recovery leaves. -/
theorem recover_store {a : LogArea} {d : Nat → Block} {k : St} (hd : (redoLog a).Ready d)
    (hr : recoverFromLog.run (binit a d) = .ok ((), k)) :
    Store a k ∅ k.disk ∧ k.outstanding = 0 ∧ k.lh = [] ∧ k.commits = [] := by
  rcases wp.of_ok (recover_ends hd) hr with ⟨-, hdisk, hc, hsame⟩
  rcases RedoLog.recovery_all hd with ⟨-, hnil, hhead⟩
  rw [← hdisk] at hnil hhead
  have hlh : k.lh = [] := hsame.lh
  refine ⟨?_, hsame.outstanding, hlh, hsame.commits⟩
  -- after recovery nothing is logged and nothing is held
  constructor
  case cached =>
    rw [hlh]
    exact hc
  case log => exact hsame.log
  case nodup =>
    rw [hlh]
    exact List.nodup_nil
  case short =>
    rw [hlh]
    decide
  case held_home => simp
  case lh_home => simp [hlh]
  case is_flush => exact hsame.is_flush
  case committing => exact hsame.committing
  case replay => exact hnil
  case valid =>
    have hv := (redoLog a).valid_erase hd.valid
    rw [← hhead] at hv
    exact hv

/-- The invariant at boot: nothing is held, and the cache shows the disk. -/
theorem init_inv {s : Sys} (h : Init s) : ∃ a, Inv a s ∅ s.k.disk := by
  rcases h with ⟨a, d, hd, hr, hmap, hm⟩
  rcases recover_store hd hr with ⟨hstore, -, hlh, -⟩
  refine ⟨a, hstore, ?_, fun _ => ?_⟩
  · rw [hmap]
    exact SameHome.refl a _
  · have hcard := hstore.card
    rw [hlh] at hcard
    simp only [List.toFinset_nil, Finset.union_empty, Finset.card_empty] at hcard
    have : NBUF = 100 := rfl
    omega

/-! ## The refinement -/

/-- After a commit the disk shows what the map holds. -/
theorem Store.synced {a : LogArea} {s : Sys} {k : St} {H : Finset Nat} {C : Nat → Block}
    (hs : s.k.log = a) (h : Store a k H C) (hC : SameHome a s.map C) (hlh : k.lh = []) :
    Synced s k := by
  have hc := h.cached
  rw [hlh, List.toFinset_nil] at hc
  have hdisk : ∀ b, s.k.log.Home b → k.disk b = s.map b := by
    intro b hb
    rw [hs] at hb
    rw [← hc.clean b (Finset.notMem_empty b)]
    exact hC b hb.2
  obtain ⟨r, hr, -, hagree⟩ :=
    recover_after_cuts (RedoLog.ready_of_replay_nil h.valid h.replay) .refl
  have hagree' := hagree.trans (RedoLog.agree_image_of_replay_nil h.replay)
  refine ⟨hlh, fun i => ?_, hdisk, r, hs ▸ hr, fun b hb => ?_⟩
  · rw [← Bool.not_eq_true, hc.dirty]
    simp
  · rw [← hdisk b hb]
    rw [hs] at hb
    exact hagree' b hb.2

/-- The invariant says what is claimed of the next `bread` and the next `sync`. -/
theorem Inv.refines {a : LogArea} {s : Sys} {H : Finset Nat} {C : Nat → Block}
    (h : Inv a s H C) : Refines s := by
  have hlog := h.store.log
  constructor
  case uniq => exact h.store.cached.uniq
  case bread =>
    intro b hb i k' hr
    rw [hlog] at hb
    rcases bread_returned h.store hb hr with ⟨-, ⟨C', hstore, -⟩, hi, hdata, -⟩
    refine ⟨hi, (hstore.cached.locked_of_holds hi).2 (Finset.mem_insert_self _ _), ?_⟩
    rw [hdata]
    exact h.map b hb.2
  -- the block is not held, so the read does not wait for its own caller
  case bread_returns =>
    intro b hb hf hnot hroom
    rw [hlog] at hb
    have hbH : b ∉ H := by
      intro hbH
      rcases h.store.cached.valid b (Finset.mem_union_left _ hbH) with ⟨i, hi, _⟩
      have hl := (h.store.cached.locked_of_holds hi).2 hbH
      rw [hnot i hi] at hl
      cases hl
    obtain ⟨i, k', hr, -⟩ :=
      (bread_store h.store hbH hb (fun hfew => h.store.free (hf hfew)) hroom).exists
    exact ⟨i, k', hr⟩
  case sync =>
    intro n k' hr
    rcases sync_returned h.store hr with ⟨⟨C', hstore, hC⟩, hlh, -⟩
    exact hstore.synced hlog (h.map.trans hC) hlh
  case sync_returns =>
    intro hf hroom
    rcases (sync_store h.store (h.store.free hf) (Or.inr hroom)).exists with ⟨n, k', hr, -⟩
    exact ⟨n, k', hr⟩
  case spare => exact h.spare

/-- In every state that a process can reach, the store is the block map. -/
theorem store_refines_map {s : Sys} (hr : ReachOk Init next Allowed s) : Refines s := by
  have hinv : ∃ a H C, Inv a s H C := by
    refine hr.invariant (fun s => ∃ a H C, Inv a s H C) ?_ ?_
    · intro s hs
      rcases init_inv hs with ⟨a, h⟩
      exact ⟨a, _, _, h⟩
    rintro s act s' ⟨a, H, C, h⟩ hok hs
    rcases next_inv h hok hs with ⟨H', C', h', -⟩
    exact ⟨a, H', C', h'⟩
  rcases hinv with ⟨a, H, C, h⟩
  exact h.refines

/-- The zeroed disk boots. -/
theorem boots : ∃ k, recoverFromLog.run (binit mkfsLog fun _ _ => 0) = .ok ((), k) := by
  rcases replay_of_headN_zero (a := mkfsLog) (d := fun _ _ => 0) rfl with ⟨hreplay, hvalid⟩
  rcases (recover_ends (RedoLog.ready_of_replay_nil hvalid hreplay)).exists with ⟨_, k, hk, -⟩
  exact ⟨k, hk⟩

theorem boots_ready : (redoLog mkfsLog).Ready fun _ _ => 0 := by
  rcases replay_of_headN_zero (a := mkfsLog) (d := fun _ _ => 0) rfl with ⟨hreplay, hvalid⟩
  exact RedoLog.ready_of_replay_nil hvalid hreplay

/-- One access to block `b`: `bread`, new contents `v` and `log_write`, `brelse`. -/
structure Access (s : Sys) (b : Nat) (v : Block) (i : Bidx) (s1 s2 s3 : Sys) : Prop where
  reads : next s (.bread b) = some s1
  writes : next s1 (.write i v) = some s2
  releases : next s2 (.brelse i) = some s3
  unused : 2 < s.k.num_unused_buf
  held : s.k.num_held = 0
  open1 : s1.k.outstanding = 1
  open2 : s2.k.outstanding = 1
  open3 : s3.k.outstanding = 1
  lh : s3.k.lh = s.k.lh ++ [b]
  store : ∃ C, Store mkfsLog s3.k ∅ C

/-- Inside an operation a block that is not listed yet can be changed. -/
theorem exists_access {s : Sys} {C : Nat → Block} (h : Store mkfsLog s.k ∅ C)
    (hout : s.k.outstanding = 1) {b : Nat} (hb : mkfsLog.Home b) (hbl : b ∉ s.k.lh)
    (hroom : s.k.lh.length < 98) (v : Block) : ∃ i s1 s2 s3, Access s b v i s1 s2 s3 := by
  have hN : NBUF = 100 := rfl
  have hL : LOGSIZE = 100 := rfl
  have hcard := h.card
  rw [Finset.empty_union, List.toFinset_card_of_nodup h.nodup] at hcard
  have hmany : 2 < s.k.num_unused_buf := by omega
  have hin : b ∈ insert b (∅ : Finset Nat) := Finset.mem_insert_self _ _
  -- bread
  obtain ⟨i, k1, hk1, ⟨C1, h1, -⟩, hi1, -, hout1, hcase1⟩ :=
    (bread_store h (Finset.notMem_empty b) hb (fun hfew => by omega) (by omega)).exists
  have hlh1 : k1.lh = s.k.lh := by
    rcases hcase1 with ⟨-, hq⟩ | ⟨hfew, -⟩
    · exact hq.lh
    · omega
  -- write
  have hl1 : (k1.buf i).locked = true := (h1.cached.locked_of_holds hi1).2 hin
  obtain ⟨_, k2, hk2, h2, hlh2, hout2, -, -, -, -, hi2⟩ :=
    (logWrite_store h1 hi1 hin v (by rw [hlh1]; omega) (by omega)).exists
  -- brelse
  rcases (brelse_store h2 hi2 hin).exists with ⟨_, k3, hk3, h3, hq3, -⟩
  rw [Finset.erase_insert (Finset.notMem_empty b)] at h3
  refine ⟨i, ⟨k1, s.map, max s.maxHeld s.k.num_held⟩,
    ⟨k2, Function.update s.map (k1.buf i).blockno v, max s.maxHeld s.k.num_held⟩,
    ⟨k3, Function.update s.map (k1.buf i).blockno v, max s.maxHeld s.k.num_held⟩,
    ?_, ?_, ?_, hmany, ?_, ?_, ?_, ?_, ?_, _, h3⟩
  · simp only [next, after_of_run hk1, Option.map_some]
  · simp only [next, if_pos hl1, after_of_run hk2, Option.map_some]
  · simp only [next, after_of_run hk3, Option.map_some]
  · rw [h.num_held, Finset.card_empty]
  · exact hout1.trans hout
  · exact hout2.trans (hout1.trans hout)
  · exact hq3.outstanding.trans (hout2.trans (hout1.trans hout))
  · show k3.lh = _
    rw [hq3.lh, hlh2, hlh1, if_neg hbl]

/-- An operation of one access, and a `sync` after it. -/
structure Operation (s : Sys) (b : Nat) (v : Block) (i : Bidx) (s1 s2 s3 s4 s5 s6 : Sys) :
    Prop where
  begins : next s .beginOp = some s1
  access : Access s1 b v i s2 s3 s4
  ends : next s4 .endOp = some s5
  syncs : next s5 .sync = some s6
  closed : s.k.outstanding = 0
  opened : s1.k.outstanding = 1
  home : s1.k.log.Home b
  held : s4.k.num_held = 0
  free : Free s5.k
  closes : s5.k.outstanding = 0

/-- The zeroed disk boots, and a process runs an operation on block 500. -/
theorem boots_and_writes (v : Block) : ∃ k i s1 s2 s3 s4 s5 s6,
    recoverFromLog.run (binit mkfsLog fun _ _ => 0) = .ok ((), k) ∧
      Operation ⟨k, k.disk, 0⟩ 500 v i s1 s2 s3 s4 s5 s6 := by
  rcases boots with ⟨k, hk⟩
  rcases recover_store boots_ready hk with ⟨h, hout, hlh, -⟩
  have hhome : mkfsLog.Home 500 := ⟨by decide, by unfold LogArea.Mem mkfsLog; decide⟩
  -- `begin_op`, one access, `end_op`, and a `sync` at the end
  rcases (beginOp_store h).exists with ⟨_, _, hk1, rfl⟩
  have h1 := h.outstanding (k.outstanding + 1)
  obtain ⟨i, s2, s3, s4, hacc⟩ := exists_access
    (s := ⟨{ k with outstanding := k.outstanding + 1 }, k.disk, 0⟩) h1 (by simp [hout]) hhome
    (by simp [hlh]) (by simp [hlh]) v
  rcases hacc.store with ⟨C4, h4⟩
  rcases (endOp_store h4).exists with ⟨_, _, hk5, rfl⟩
  have h5 := h4.outstanding (s4.k.outstanding - 1)
  -- the access has left buffers unused
  have hroom : 0 < s4.k.num_unused_buf := by
    have hcard := h4.card
    rw [Finset.empty_union, hacc.lh] at hcard
    simp only [hlh, List.nil_append, List.toFinset_cons, List.toFinset_nil, insert_empty_eq,
      Finset.card_singleton] at hcard
    have hN : NBUF = 100 := rfl
    omega
  obtain ⟨_, k6, hk6, -⟩ :=
    (sync_store h5 (fun b _ => Finset.notMem_empty b) (.inr hroom)).exists
  refine ⟨k, i, _, s2, s3, s4, { s4 with k := { s4.k with outstanding := s4.k.outstanding - 1 } },
    { s4 with k := k6 }, hk, ?_, hacc, ?_, ?_, hout, ?_, h.log ▸ hhome, ?_, ?_, ?_⟩
  · simp only [next, after_of_run hk1, Option.map_some]
  · have hopen : ¬s4.k.outstanding = 0 := by
      rw [hacc.open3]
      decide
    simp only [next, if_neg hopen, after_of_run hk5, Option.map_some]
  · simp only [next, after_of_run hk6, Option.map_some]
  · show k.outstanding + 1 = 1
    rw [hout]
  · rw [h4.num_held, Finset.card_empty]
  · intro j hj
    rcases (h5.cached.locked j).1 hj with ⟨b, hb, -⟩
    exact absurd hb (Finset.notMem_empty b)
  · show s4.k.outstanding - 1 = 0
    rw [hacc.open3]

/-- A process logs a block and syncs. -/
theorem store_refines_map_write :
    ∃ k i s, recoverFromLog.run (binit mkfsLog fun _ _ => 0) = .ok ((), k) ∧
      exec next ⟨k, k.disk, 0⟩
        [.beginOp, .bread 500, .write i fun _ => 1, .brelse i, .endOp, .sync] = some s ∧
      Refines s := by
  rcases boots_and_writes fun _ => 1 with ⟨k, i, s1, s2, s3, s4, s5, s6, hk, h⟩
  have hinit : Init ⟨k, k.disk, 0⟩ := ⟨mkfsLog, _, boots_ready, hk, rfl, rfl⟩
  have hr1 : ReachOk Init next Allowed s1 := .step (a := .beginOp) (.init hinit) trivial h.begins
  have hr2 : ReachOk Init next Allowed s2 := .step (a := .bread 500) hr1 h.home h.access.reads
  have hr3 : ReachOk Init next Allowed s3 := .step (a := .write i _) hr2 trivial h.access.writes
  have hr4 : ReachOk Init next Allowed s4 := .step (a := .brelse i) hr3 trivial h.access.releases
  have hr5 : ReachOk Init next Allowed s5 := .step (a := .endOp) hr4 trivial h.ends
  have hr6 : ReachOk Init next Allowed s6 := .step (a := .sync) hr5 trivial h.syncs
  refine ⟨k, i, s6, hk, ?_, store_refines_map hr6⟩
  simp only [exec_cons, exec_nil, h.begins, h.access.reads, h.access.writes, h.access.releases,
    h.ends, h.syncs, Option.bind_some]

end Xv6.Log
