import Xv6.Mlfq.Boost
import Xv6.Mlfq.Membership

/-!
# Levels, priorities and consumed slices

Without `schedulerLock` where a process stands is a matter of counting: a fresh
process goes through 4 turns at level 0, 6 at level 1, and then loses one
priority at level 2 every 8 turns. The count is kept beside the state
(`LSt.count`); boosts and `fork` start it again.

The counter is no part of the program: it is the number of times the process has
been dispatched. `level_of_turns` gives the level, the queue, the priority and the
consumed slice of every RUNNABLE or SLEEPING process as functions of it, in every
state of every run in which nobody locks the scheduler. A `setPriority` on the
process changes what its priority sinks from, so that part is about processes it
has not touched (`LSt.touched`). The invariant behind it is `LInv`, with one lemma
for each kind of step.
-/

namespace Xv6.Mlfq

open Xv6.Lib

/-! ## The tables -/

/-- The level of a process after `k` turns. -/
def levelOf (k : Nat) : Nat := if k < 4 then 0 else if k < 10 then 1 else 2

/-- The turns it has used up at that level since it came there, at level 2 since
its priority last changed. -/
def remainder (k : Nat) : Nat :=
  if k < 4 then k else if k < 10 then k - 4 else (k - 10) % 8

def priorityOf (k : Nat) : Int := max 0 (3 - ((k - 10) / 8 : Nat))

theorem levelOf_le (k : Nat) : levelOf k ≤ 2 := by
  unfold levelOf
  split
  · omega
  · split <;> omega

theorem remainder_lt (k : Nat) : remainder k < 2 * levelOf k + 4 := by
  unfold remainder levelOf
  split
  · omega
  · split <;> omega

/-! ## Counting turns -/

/-- The state, with the number of turns each process has had since it was last
enqueued fresh or boosted, and whether `setPriority` has been called on it since. -/
structure LSt where
  st : St
  count : Pidx → Nat
  touched : Pidx → Bool

namespace LSt

/-- The step from `s` to `s'` ends a turn, and `scheduler()` calls `priorityBoost`. -/
def Boosts (s s' : St) : Prop := s.cpu ≠ none ∧ s'.cpu = none ∧ s.global_ticks ≥ 100

instance (s s' : St) : Decidable (Boosts s s') := inferInstanceAs (Decidable (_ ∧ _ ∧ _))

/-- The process that the step from `s` to `s'` dispatches. -/
def dispatched (s s' : St) : Option Pidx :=
  match s.cpu with
  | none => s'.running
  | some _ => none

/-- The slot that the step enqueues fresh. -/
def enqueued (s : St) (a : Act) : Option Pidx :=
  match s.running, a with
  | some p, .forkDone =>
      match s.kont p with
      | .fork np => some np
      | _ => none
  | _, _ => none

/-- The step is a `setPriority` call on the process in slot `q`. -/
def Touches (s : St) (a : Act) (q : Pidx) : Prop :=
  match a with
  | .setPriority pid _ => (s.proc q).pid = pid
  | _ => False

instance (s : St) (a : Act) (q : Pidx) : Decidable (Touches s a q) := by
  unfold Touches
  split <;> infer_instance

/-- The counts after a step to `s'`. -/
def after (l : LSt) (a : Act) (s' : St) : LSt where
  st := s'
  count q :=
    if Boosts l.st s' ∨ enqueued l.st a = some q then 0
    else if dispatched l.st s' = some q then l.count q + 1
    else l.count q
  touched q :=
    if Boosts l.st s' ∨ enqueued l.st a = some q then false
    else l.touched q || decide (Touches l.st a q)

def next (l : LSt) (a : Act) : Option LSt := (Mlfq.next l.st a).map (l.after a)

def Init (l : LSt) : Prop :=
  l.st = userinit ∧ (∀ q, l.count q = 0) ∧ ∀ q, l.touched q = false

end LSt

/-- The calls of the scheduler lock. -/
def Locks : Act → Prop
  | .schedulerLock _ | .schedulerUnlock _ => True
  | _ => False

/-- Where process `p` stands after `k` turns; `t` tells whether its priority may
have been set by hand. -/
structure AsCounted (s : St) (p : Pidx) (k : Nat) (t : Bool) : Prop where
  qlv : (s.proc p).qlv = levelOf k
  queued : p ∈ s.q (levelOf k)
  once : (ent s.q).count p = 1
  priority : t = false → (s.proc p).priority = priorityOf k
  consumed_tq : (s.proc p).consumed_tq = remainder k
  lt : (s.proc p).consumed_tq < 2 * levelOf k + 4

/-! ## One turn -/

/-- What `scheduler()` does to a process picked from level `lv` after its turn. -/
def charge (lv : Nat) (x : Proc) : Proc :=
  let x := { x with consumed_tq := (x.consumed_tq + 1) % 2 ^ 32 }
  if x.consumed_tq ≥ lv * 2 + 4 then
    { x with
      priority := if lv = 2 then (if x.priority - 1 ≥ 0 then x.priority - 1 else 0) else x.priority
      qlv := ((if lv + 1 < 2 then lv + 1 else 2 : Nat) : Int)
      consumed_tq := 0 }
  else x

/-- The level it is put back in. -/
def chargedLevel (lv : Nat) (x : Proc) : Nat :=
  if (x.consumed_tq + 1) % 2 ^ 32 ≥ lv * 2 + 4 then (if lv + 1 < 2 then lv + 1 else 2) else lv

@[simp] theorem charge_state (lv : Nat) (x : Proc) : (charge lv x).state = x.state := by
  unfold charge
  dsimp only
  split <;> rfl

theorem chargedLevel_le {lv : Nat} (hlv : lv ≤ 2) (x : Proc) : chargedLevel lv x ≤ 2 := by
  unfold chargedLevel
  split
  · split <;> omega
  · exact hlv

/-- Where nobody is dictator, `requeue` charges the process and puts it back. -/
theorem requeue_eq {s : St} {p : Pidx} {lv : Nat} (hd : s.is_dictated = false) :
    requeue s p lv =
      if (s.proc p).state ≠ .ZOMBIE then
        enQ (s.setProc p (charge lv)) (chargedLevel lv (s.proc p)) p
      else s.setProc p (charge lv) := by
  have hd1 : (s.setProc p fun q =>
      { q with consumed_tq := (q.consumed_tq + 1) % 2 ^ 32 }).is_dictated = false := hd
  unfold requeue
  simp only [hd1, Bool.false_eq_true, if_false, St.setProc_proc_self, decide_eq_true_eq]
  -- the quantum of level `lv` is used up, or it is not
  by_cases hfull : ((s.proc p).consumed_tq + 1) % 2 ^ 32 ≥ lv * 2 + 4
  · have hs : ∀ f : Proc → Proc, (s.setProc p fun q =>
        { q with consumed_tq := (q.consumed_tq + 1) % 2 ^ 32 }).setProc p f =
        s.setProc p fun q => f { q with consumed_tq := (q.consumed_tq + 1) % 2 ^ 32 } := by
      intro f
      simp [St.setProc]
    have hc : s.setProc p (charge lv) = s.setProc p fun q =>
        { q with
          priority := if lv = 2 then (if q.priority - 1 ≥ 0 then q.priority - 1 else 0)
            else q.priority
          qlv := ((if lv + 1 < 2 then lv + 1 else 2 : Nat) : Int)
          consumed_tq := 0 } := by
      simp only [St.setProc, charge, if_pos hfull]
    simp only [if_pos hfull, hs, chargedLevel, hc, St.setProc_proc_self]
  · have hc : s.setProc p (charge lv) = s.setProc p fun q =>
        { q with consumed_tq := (q.consumed_tq + 1) % 2 ^ 32 } := by
      simp only [St.setProc, charge, if_neg hfull]
    simp only [if_neg hfull, chargedLevel, hc, St.setProc_proc_self]

/-- Process `x`, in queue `lv`, stands where `k` turns lead. -/
structure Placed (k : Nat) (t : Bool) (lv : Nat) (x : Proc) : Prop where
  lv : lv = levelOf k
  qlv : x.qlv = levelOf k
  consumed_tq : x.consumed_tq = remainder k
  priority : t = false → x.priority = priorityOf k

/-- A fresh or boosted process. -/
theorem Placed.fresh {x : Proc} (hq : x.qlv = 0) (hp : x.priority = 3) (hc : x.consumed_tq = 0)
    (t : Bool) : Placed 0 t 0 x :=
  ⟨rfl, hq, hc, fun _ => hp⟩

theorem levelOf_succ {k : Nat} :
    levelOf (k + 1) = if remainder k + 1 ≥ levelOf k * 2 + 4 then
      (if levelOf k + 1 < 2 then levelOf k + 1 else 2) else levelOf k := by
  unfold levelOf remainder
  grind

theorem remainder_succ {k : Nat} :
    remainder (k + 1) = if remainder k + 1 ≥ levelOf k * 2 + 4 then 0 else remainder k + 1 := by
  unfold levelOf remainder
  grind

/-- The priority changes with the end of a slice at level 2 only. -/
theorem priorityOf_succ {k : Nat} :
    priorityOf (k + 1) = if remainder k + 1 ≥ levelOf k * 2 + 4 ∧ levelOf k = 2 then
      (if priorityOf k - 1 ≥ 0 then priorityOf k - 1 else 0) else priorityOf k := by
  unfold levelOf remainder priorityOf
  grind

/-- One more turn. -/
theorem Placed.charge {k : Nat} {t : Bool} {lv : Nat} {x : Proc} (h : Placed k t lv x) :
    Placed (k + 1) t (chargedLevel lv x) (charge lv x) := by
  rcases h with ⟨rfl, hq, hc, hp⟩
  -- `consumed_tq` is below its quantum, so it does not wrap
  have hsmall : (x.consumed_tq + 1) % 2 ^ 32 = remainder k + 1 := by
    have h1 := remainder_lt k
    have h2 := levelOf_le k
    rw [hc, Nat.mod_eq_of_lt (by omega)]
  unfold chargedLevel Mlfq.charge
  rw [hsmall]
  dsimp only
  by_cases hfull : remainder k + 1 ≥ levelOf k * 2 + 4
  · -- the slice is used up: the next level, or at level 2 the next priority
    rw [if_pos hfull, if_pos hfull]
    refine ⟨?_, ?_, ?_, ?_⟩
    · rw [levelOf_succ, if_pos hfull]
    · rw [levelOf_succ, if_pos hfull]
    · rw [remainder_succ, if_pos hfull]
    · intro ht
      rw [priorityOf_succ, ← hp ht]
      simp only [hfull, true_and]
  -- the slice goes on: one tick more, and the same level
  · rw [if_neg hfull, if_neg hfull]
    refine ⟨?_, ?_, ?_, ?_⟩
    · rw [levelOf_succ, if_neg hfull]
    · rw [levelOf_succ, if_neg hfull]
      exact hq
    · rw [remainder_succ, if_neg hfull]
    · intro ht
      rw [priorityOf_succ, if_neg (fun hn => hfull hn.1)]
      exact hp ht

/-! ## Boosting -/

/-- Every process in the queue of a level stands where its count leads. -/
def Counted (C : Pidx → Nat) (T : Pidx → Bool) (s : St) : Prop :=
  ∀ lv, lv ≤ 2 → ∀ x ∈ s.q lv, Placed (C x) (T x) lv (s.proc x)

/-- After a boost all entries are in `mlfq[0]`, and fresh. -/
theorem priorityBoost_counted {s : St} (h : Core s) (hd : s.is_dictated = false) :
    Counted (fun _ => 0) (fun _ => false) (priorityBoost s) := by
  have hboost : priorityBoost s = boostLevel (boostLevel (boostLevel s 0) 1) 2 := by
    simp [priorityBoost, hd]
  have hb := boostLevels_boosted h.wf h.total_le
  rw [hboost]
  intro lv hlv x hx
  rw [hb.q] at hx
  rcases (show lv = 0 ∨ lv = 1 ∨ lv = 2 from by omega) with rfl | rfl | rfl
  · rcases hb.fresh hx with ⟨hq, hp, hc⟩
    exact .fresh hq hp hc false
  · -- the other two queues are empty
    cases hx
  · cases hx

/-! ## Giving up the CPU -/

/-- The counted processes after a step that has left their queues and their
scheduling properties alone. -/
structure Keeps (s s' : St) : Prop where
  mlfq : s'.mlfq = s.mlfq
  qlv : ∀ p, (s'.proc p).qlv = (s.proc p).qlv
  priority : ∀ p, (s'.proc p).priority = (s.proc p).priority
  consumed_tq : ∀ p, (s'.proc p).consumed_tq = (s.proc p).consumed_tq
  global_ticks : s'.global_ticks = s.global_ticks

namespace Keeps

variable {s s' s'' : St}

theorem refl (s : St) : Keeps s s := ⟨rfl, fun _ => rfl, fun _ => rfl, fun _ => rfl, rfl⟩

theorem trans (h : Keeps s s') (h' : Keeps s' s'') : Keeps s s'' :=
  ⟨h'.mlfq.trans h.mlfq, fun p => (h'.qlv p).trans (h.qlv p),
    fun p => (h'.priority p).trans (h.priority p),
    fun p => (h'.consumed_tq p).trans (h.consumed_tq p), h'.global_ticks.trans h.global_ticks⟩

/-- Assigning to other fields of a process. -/
theorem setProc (s : St) (p : Pidx) (f : Proc → Proc) (hq : ∀ x, (f x).qlv = x.qlv)
    (hp : ∀ x, (f x).priority = x.priority) (hc : ∀ x, (f x).consumed_tq = x.consumed_tq) :
    Keeps s (s.setProc p f) := by
  refine ⟨rfl, ?_, ?_, ?_, rfl⟩ <;> intro q <;> by_cases hqp : q = p
  · subst hqp; simp [hq]
  · simp [hqp]
  · subst hqp; simp [hp]
  · simp [hqp]
  · subst hqp; simp [hc]
  · simp [hqp]

theorem placed (h : Keeps s s') {k : Nat} {t : Bool} {lv : Nat} {p : Pidx}
    (hp : Placed k t lv (s.proc p)) : Placed k t lv (s'.proc p) :=
  ⟨hp.lv, (h.qlv p).trans hp.qlv, (h.consumed_tq p).trans hp.consumed_tq,
    fun ht => (h.priority p).trans (hp.priority ht)⟩

theorem counted (h : Keeps s s') {C : Pidx → Nat} {T : Pidx → Bool} (hc : Counted C T s) :
    Counted C T s' := by
  intro lv hlv x hx
  rw [St.q, h.mlfq] at hx
  exact h.placed (hc lv hlv x hx)

end Keeps

theorem setKont_keeps (s : St) (p : Pidx) (k : Kont) : Keeps s (s.setKont p k) :=
  ⟨rfl, fun _ => rfl, fun _ => rfl, fun _ => rfl, rfl⟩

theorem wakeup1_keeps (s : St) (chan : Chan) : Keeps s (wakeup1 s chan) := by
  refine ⟨rfl, ?_, ?_, ?_, rfl⟩ <;> intro p <;> unfold wakeup1 <;> dsimp only <;> split <;> rfl

theorem kill_keeps (s : St) (pid : Int) : Keeps s (kill s pid) := by
  unfold kill
  split
  · exact .refl s
  · exact .setProc s _ _ (fun _ => rfl) (fun _ => rfl) (fun _ => rfl)

/-- Passing children on leaves queues and levels. -/
theorem passChildren_keeps (s : St) (p : Pidx) : Keeps s (passChildren s p) := by
  unfold passChildren
  generalize List.finRange NPROC = l
  induction l generalizing s with
  | nil => exact .refl s
  | cons c l ih =>
      rw [List.foldl_cons]
      refine Keeps.trans ?_ (ih _)
      split
      · have h1 : Keeps s (s.setProc c fun q => { q with parent := some s.initproc }) :=
          .setProc s c _ (fun _ => rfl) (fun _ => rfl) (fun _ => rfl)
        dsimp only
        split
        · exact h1.trans (wakeup1_keeps _ _)
        · exact h1
      · exact .refl s

/-- An entry of a queue is an entry. -/
theorem mem_ent {Q : Nat → List Pidx} {lv : Nat} (hlv : lv ≤ 2) {x : Pidx} (hx : x ∈ Q lv) :
    x ∈ ent Q := by
  unfold ent
  rcases (show lv = 0 ∨ lv = 1 ∨ lv = 2 from by omega) with rfl | rfl | rfl
  · exact List.mem_append_left _ (List.mem_append_left _ hx)
  · exact List.mem_append_left _ (List.mem_append_right _ hx)
  · exact List.mem_append_right _ hx

/-- The process at the gap is charged and goes where one more turn leads. -/
theorem requeue_counted {s : St} {p : Pidx} {lv : Nat} (h : Gap s p) (hlv : lv ≤ 2)
    (hd : s.is_dictated = false) {C : Pidx → Nat} {T : Pidx → Bool} (hC : Counted C T s) {k : Nat}
    (hk : C p = k + 1) (hp : Placed k (T p) lv (s.proc p)) : Counted C T (requeue s p lv) := by
  have hC1 : Counted C T (s.setProc p (charge lv)) := by
    intro l hl x hx
    -- the process that runs is in no queue, so charging it moves no entry
    have hne : x ≠ p := ((h.mem x).1 (mem_ent hl hx)).1
    rw [St.setProc_proc_ne _ _ hne]
    exact hC l hl x hx
  rw [requeue_eq hd]
  split
  · have h1 := h.setProc (charge lv)
    have hlv' := chargedLevel_le hlv (s.proc p)
    have hQ := enQ_queues h1.wf (h1.room hlv') p
    intro l hl x hx
    rw [hQ.q] at hx
    rw [hQ.proc]
    -- the level it is put on, and the other two
    by_cases hll : l = chargedLevel lv (s.proc p)
    · subst hll
      rw [Function.update_self, List.mem_append, List.mem_singleton] at hx
      rcases hx with hx | rfl
      · exact hC1 _ hl x hx
      · rw [St.setProc_proc_self, hk]
        exact hp.charge
    · rw [Function.update_of_ne hll] at hx
      exact hC1 l hl x hx
  · exact hC1

/-- With the hundredth tick the turn ends in a boost. -/
theorem feedback_counted {s : St} {p : Pidx} {lv : Nat} (h : Gap s p)
    (honly : ∀ d, s.scheduler_dictator = some d → d = p) (hlv : lv ≤ 2)
    (hd : s.is_dictated = false) (hst : Live (s.proc p) ∨ (s.proc p).state = .ZOMBIE)
    {C : Pidx → Nat} {T : Pidx → Bool} (hC : Counted C T s) {k : Nat} (hk : C p = k + 1)
    (hp : Placed k (T p) lv (s.proc p)) :
    if s.global_ticks ≥ 100 then
      Counted (fun _ => 0) (fun _ => false) (feedback s p lv)
    else Counted C T (feedback s p lv) := by
  rcases requeue_core h honly hlv (hst.imp_right fun hz => ⟨hz, hd⟩) with ⟨hcore, -⟩
  have hcount := requeue_counted h hlv hd hC hk hp
  have hticks : (requeue s p lv).global_ticks = s.global_ticks := by
    rw [requeue_eq hd]
    split <;> rfl
  have hd1 : (requeue s p lv).is_dictated = false :=
    (requeue_still s p lv).is_dictated.trans hd
  unfold feedback
  generalize requeue s p lv = s1 at hcore hcount hticks hd1
  dsimp only
  rw [hticks]
  -- with 100 ticks gone the boost follows, and every count starts again
  by_cases ht : s.global_ticks ≥ 100
  · rw [if_pos ht, if_pos ht]
    exact priorityBoost_counted (s := { s1 with global_ticks := 0 })
      ⟨hcore.wf, hcore.nodup, hcore.mem, hcore.dict, hcore.fork, hcore.fork_inj, hcore.overwrote⟩
      hd1
  · rw [if_neg ht, if_neg ht]
    exact hcount

/-- A process that comes back after its turn stands where one turn more leads, or has been
boosted with all others. -/
theorem sched_counted {s : St} (h : Inv s) {p : Pidx} {lv : Nat} (hcpu : s.cpu = some (p, lv))
    (hd : s.is_dictated = false) {st : ProcState}
    (hst : st = .RUNNABLE ∨ st = .SLEEPING ∨ st = .ZOMBIE) {C : Pidx → Nat} {T : Pidx → Bool}
    (hC : Counted C T s) {k : Nat} (hk : C p = k + 1) (hp : Placed k (T p) lv (s.proc p)) :
    if s.global_ticks ≥ 100 then
      Counted (fun _ => 0) (fun _ => false) (sched s p lv st)
    else Counted C T (sched s p lv st) := by
  rcases h.cpu p lv hcpu with ⟨hlv, -, honly⟩
  have hkeep : Keeps s (s.setProc p fun q => { q with state := st }) :=
    .setProc s p _ (fun _ => rfl) (fun _ => rfl) (fun _ => rfl)
  have hlive : Live ((s.setProc p fun q => { q with state := st }).proc p) ∨
      ((s.setProc p fun q => { q with state := st }).proc p).state = .ZOMBIE := by
    unfold Live
    rw [St.setProc_proc_self]
    exact or_assoc.2 hst
  exact feedback_counted ((h.gap hcpu).setProc _) honly hlv hd hlive (hkeep.counted hC) hk
    (hkeep.placed hp)

/-! ## Steps -/

/-- The invariant: everyone queued stands where the turns it has had lead, and
the process on the CPU where the turns before this one have led. -/
structure LInv (l : LSt) : Prop where
  inv : Inv l.st
  undictated : l.st.is_dictated = false
  counted : Counted l.count l.touched l.st
  running : ∀ p lv, l.st.cpu = some (p, lv) →
    ∃ k, l.count p = k + 1 ∧ Placed k (l.touched p) lv (l.st.proc p)

namespace LInv

variable {l : LSt} {a : Act} {s' : St} {p : Pidx} {lv : Nat}

theorem no_dictator (h : LInv l) : l.st.scheduler_dictator = none := by
  have hd := h.inv.dict
  rw [h.undictated] at hd
  simpa using hd.symm

/-- A step that neither begins nor ends a turn. -/
theorem stay (h : LInv l) (hinv : Inv s') (hd : s'.is_dictated = false)
    (hcpu : s'.cpu = l.st.cpu) (he : LSt.enqueued l.st a = none)
    (hC : ∀ T, (∀ q, T q = (l.touched q || decide (LSt.Touches l.st a q))) → Counted l.count T s')
    (hrun : ∀ q k lv T, T = (l.touched q || decide (LSt.Touches l.st a q)) →
      Placed k (l.touched q) lv (l.st.proc q) → Placed k T lv (s'.proc q)) :
    LInv (l.after a s') := by
  -- the step dispatches nobody and boosts nobody, so the counts stay
  have hno : ¬ LSt.Boosts l.st s' := fun hb => hb.1 (hcpu ▸ hb.2.1)
  have hdisp : LSt.dispatched l.st s' = none := by
    unfold LSt.dispatched St.running
    rw [hcpu]
    cases l.st.cpu <;> rfl
  have hcount : (l.after a s').count = l.count := by
    funext q
    simp [LSt.after, hno, he, hdisp]
  have htouched : ∀ q, (l.after a s').touched q =
      (l.touched q || decide (LSt.Touches l.st a q)) := by
    intro q
    simp [LSt.after, hno, he]
  refine ⟨hinv, hd, ?_, ?_⟩
  · rw [hcount]
    exact hC _ htouched
  · intro q lv' hq
    rcases h.running q lv' (hcpu ▸ hq) with ⟨k, hk, hp⟩
    rw [hcount]
    exact ⟨k, hk, hrun q k lv' _ (htouched q) hp⟩

/-- A step that leaves queues and scheduling properties alone. -/
theorem keeps (h : LInv l) (hinv : Inv s') (hk : Keeps l.st s') (hd : s'.is_dictated = false)
    (hcpu : s'.cpu = l.st.cpu) (he : LSt.enqueued l.st a = none)
    (ht : ∀ q, ¬ LSt.Touches l.st a q) : LInv (l.after a s') := by
  refine h.stay hinv hd hcpu he ?_ ?_
  · intro T hT
    have hT' : T = l.touched := by
      funext q
      simp [hT q, ht q]
    rw [hT']
    exact hk.counted h.counted
  · intro q k lv T hT hp
    have hT' : T = l.touched q := by simp [hT, ht q]
    rw [hT']
    exact hk.placed hp

/-- The timer interrupt, after which the process comes back. -/
theorem tick (h : LInv l)
    (hinv : Inv { l.st with global_ticks := (l.st.global_ticks + 1) % 2 ^ 32 })
    (he : LSt.enqueued l.st .tick = none) :
    LInv (l.after .tick { l.st with global_ticks := (l.st.global_ticks + 1) % 2 ^ 32 }) := by
  have ht : ∀ q, ¬ LSt.Touches l.st .tick q := fun _ hf => hf
  refine h.stay hinv h.undictated rfl he ?_ ?_
  · intro T hT
    have hT' : T = l.touched := by
      funext q
      simp [hT q, ht q]
    rw [hT']
    exact h.counted
  · intro q k lv T hT hp
    have hT' : T = l.touched q := by simp [hT, ht q]
    rw [hT']
    exact hp

/-- The running process gives up the CPU. -/
theorem gives_up (h : LInv l) (hcpu : l.st.cpu = some (p, lv)) {s1 : St} (hinv1 : Inv s1)
    (hk : Keeps l.st s1) (hd : s1.is_dictated = false) (hcpu1 : s1.cpu = l.st.cpu)
    {st : ProcState} (hst : st = .RUNNABLE ∨ st = .SLEEPING ∨ st = .ZOMBIE)
    (hinv : Inv (sched s1 p lv st)) (he : LSt.enqueued l.st a = none)
    (ht : ∀ q, ¬ LSt.Touches l.st a q) : LInv (l.after a (sched s1 p lv st)) := by
  rcases h.running p lv hcpu with ⟨k, hkp, hp⟩
  rcases sched_givenUp s1 p lv st with ⟨-, -, -, hnone, hdict, -⟩
  -- the process that gives up is counted once more, on the level it is put on
  have hcount := sched_counted hinv1 (hcpu1.trans hcpu) hd hst (hk.counted h.counted) hkp
    (hk.placed hp)
  have hdisp : LSt.dispatched l.st (sched s1 p lv st) = none := by
    unfold LSt.dispatched
    rw [hcpu]
  refine ⟨hinv, ?_, ?_, ?_⟩
  · rcases hdict with ⟨-, h1⟩ | ⟨-, h1⟩
    · exact h1.trans hd
    · exact h1
  · rw [hk.global_ticks] at hcount
    -- a boost sets every count back; without one they stay
    by_cases hticks : l.st.global_ticks ≥ 100
    · rw [if_pos hticks] at hcount
      have hb : LSt.Boosts l.st (sched s1 p lv st) := ⟨by rw [hcpu]; simp, hnone, hticks⟩
      have h1 : (l.after a (sched s1 p lv st)).count = fun _ => 0 := by
        funext q
        simp [LSt.after, hb]
      have h2 : (l.after a (sched s1 p lv st)).touched = fun _ => false := by
        funext q
        simp [LSt.after, hb]
      rw [h1, h2]
      exact hcount
    · rw [if_neg hticks] at hcount
      have hb : ¬ LSt.Boosts l.st (sched s1 p lv st) := fun hb => hticks hb.2.2
      have h1 : (l.after a (sched s1 p lv st)).count = l.count := by
        funext q
        simp [LSt.after, hb, he, hdisp]
      have h2 : (l.after a (sched s1 p lv st)).touched = l.touched := by
        funext q
        simp [LSt.after, hb, he, ht q]
      rw [h1, h2]
      exact hcount
  -- nobody runs on the CPU now
  · intro q lv' hq
    rw [show (l.after a (sched s1 p lv st)).st.cpu = none from hnone] at hq
    cases hq

/-- The scheduler starts a turn of the process it finds, or finds none. -/
theorem schedule (h : LInv l) (hcpu : l.st.cpu = none) (hs : Mlfq.schedule l.st = some s') :
    LInv (l.after .schedule s') := by
  have hinv : Inv s' := schedule_inv h.inv hcpu hs
  have he : LSt.enqueued l.st .schedule = none := by
    unfold LSt.enqueued St.running
    rw [hcpu]
    rfl
  have ht : ∀ q, ¬ LSt.Touches l.st .schedule q := fun _ hf => hf
  unfold Mlfq.schedule at hs
  rw [h.undictated, if_neg Bool.false_ne_true] at hs
  rcases pickLevel_cases h.inv.wf with ⟨s1, hp, h1⟩ | ⟨x, lv, pre, post, s1, hlv, hq, hx, hp, h1⟩
  · rw [hp] at hs
    cases hs
    refine h.stay hinv (h1.is_dictated.trans h.undictated) h1.cpu he ?_ ?_
    · intro T hT
      have hT' : T = l.touched := by
        funext q
        simp [hT q, ht q]
      intro lv hlv x hx
      rw [h1.q] at hx
      rw [h1.proc, hT']
      exact h.counted lv hlv x hx
    · intro q k lv T hT hp
      rw [h1.proc]
      simpa [hT, ht q] using hp
  · rw [hp] at hs
    cases hs
    have hb : ¬ LSt.Boosts l.st (dispatch s1 x lv) := fun hb => hb.1 hcpu
    have hdisp : LSt.dispatched l.st (dispatch s1 x lv) = some x := by
      unfold LSt.dispatched
      rw [hcpu]
      rfl
    have htouched : (l.after .schedule (dispatch s1 x lv)).touched = l.touched := by
      funext q
      simp [LSt.after, hb, he, ht q]
    have hcount : ∀ q, (l.after .schedule (dispatch s1 x lv)).count q =
        if q = x then l.count q + 1 else l.count q := by
      intro q
      simp [LSt.after, hb, he, hdisp, eq_comm]
    have hk : Keeps s1 (dispatch s1 x lv) :=
      (Keeps.setProc s1 x (fun q => { q with state := .RUNNING, chan := .null }) (fun _ => rfl)
        (fun _ => rfl) (fun _ => rfl)).trans ⟨rfl, fun _ => rfl, fun _ => rfl, fun _ => rfl, rfl⟩
    refine ⟨hinv, h1.is_dictated.trans h.undictated, ?_, ?_⟩
    · intro l' hl' y hy
      -- the process on the CPU is in no queue
      have hne : y ≠ x := by
        rintro rfl
        have hlive := ((hinv.mem y).1 (mem_ent hl' hy)).1
        have hrun := (hinv.cpu y lv rfl).2.1
        unfold Live at hlive
        rw [hrun] at hlive
        rcases hlive with h2 | h2 <;> cases h2
      rw [hcount y, if_neg hne, htouched]
      have hy1 : y ∈ s1.q l' := hy
      have hy' : y ∈ l.st.q l' := by
        rw [h1.q] at hy1
        by_cases hll : l' = lv
        · subst hll
          rw [Function.update_self, List.mem_append] at hy1
          rw [hq, List.mem_append, List.mem_cons]
          tauto
        · rwa [Function.update_of_ne hll] at hy1
      refine hk.placed ?_
      rw [h1.proc]
      exact h.counted l' hl' y hy'
    · intro q lv' hc
      cases hc
      refine ⟨l.count x, by rw [hcount x, if_pos rfl], ?_⟩
      rw [htouched]
      refine hk.placed ?_
      rw [h1.proc]
      refine h.counted lv hlv x ?_
      rw [hq]
      exact List.mem_append_right _ (List.mem_cons_self ..)

/-- Only the priority of the process looked for is set, and that call is noted. -/
theorem setPriority (h : LInv l) (hcpu : l.st.cpu = some (p, lv)) {pid priority : Int}
    (hinv : Inv (Mlfq.setPriority l.st pid priority)) :
    LInv (l.after (.setPriority pid priority) (Mlfq.setPriority l.st pid priority)) := by
  rcases findPidLevels_queues h.inv.wf pid with ⟨Q, hQ, hperm, hpid⟩
  have hstill := setPriority_still l.st pid priority
  -- how the call leaves a process
  have hproc : ∀ q, (Mlfq.setPriority l.st pid priority).proc q = l.st.proc q ∨
      (l.st.proc q).pid = pid ∧
        (Mlfq.setPriority l.st pid priority).proc q =
          { l.st.proc q with priority := priority } := by
    intro q
    unfold Mlfq.setPriority
    dsimp only
    split
    · exact .inl (by rw [hQ.proc])
    · split
      · exact .inl (by rw [hQ.proc])
      · next i hi =>
        by_cases hq : q = i
        · subst hq
          refine .inr ⟨hpid q hi, ?_⟩
          rw [St.setProc_proc_self, hQ.proc]
        · exact .inl (by rw [St.setProc_proc_ne _ _ hq, hQ.proc])
  have hq : ∀ l', (Mlfq.setPriority l.st pid priority).q l' = Q l' := by
    intro l'
    rw [← hQ.q]
    unfold Mlfq.setPriority
    dsimp only
    split
    · rfl
    · split <;> rfl
  have hplaced : ∀ q k lv T, T = (l.touched q ||
      decide (LSt.Touches l.st (.setPriority pid priority) q)) →
      Placed k (l.touched q) lv (l.st.proc q) →
      Placed k T lv ((Mlfq.setPriority l.st pid priority).proc q) := by
    rintro q k lv T rfl hp
    rcases hproc q with heq | ⟨hpq, heq⟩
    · rw [heq]
      refine ⟨hp.lv, hp.qlv, hp.consumed_tq, fun ht => hp.priority ?_⟩
      exact (Bool.or_eq_false_iff.1 ht).1
    · rw [heq]
      refine ⟨hp.lv, hp.qlv, hp.consumed_tq, fun ht => ?_⟩
      exact absurd hpq (of_decide_eq_false (Bool.or_eq_false_iff.1 ht).2)
  refine h.stay hinv (hstill.is_dictated.trans h.undictated) hstill.cpu ?_ ?_ hplaced
  · unfold LSt.enqueued St.running
    rw [hcpu]
    rfl
  · intro T hT lv' hlv' x hx
    rw [hq] at hx
    exact hplaced x _ _ _ (hT x) (h.counted lv' hlv' x ((hperm lv').mem_iff.1 hx))

/-- The new process starts at level 0. -/
theorem forkDone (h : LInv l) (hcpu : l.st.cpu = some (p, lv)) {np : Pidx}
    (hk : l.st.kont p = .fork np) : LInv (l.after .forkDone (Mlfq.forkDone l.st p np)) := by
  have hinv := forkDone_inv h.inv hcpu hk
  -- the new process is an embryo, so it is in no queue and has a place on level 0
  have hemb := h.inv.fork p np hk
  have hdead : ¬ Live (l.st.proc np) := by
    unfold Live
    rw [hemb]
    exact fun hl => hl.elim (fun h1 => nomatch h1) (fun h1 => nomatch h1)
  have hroom := ((h.inv.gap hcpu).room (Nat.zero_le 2))
  have hQ := enQ_queues (s := l.st.setProc np fun q =>
    { q with parent := some p, state := .RUNNABLE, priority := 3, qlv := 0, consumed_tq := 0 })
    h.inv.wf hroom np
  have hcpu' : (Mlfq.forkDone l.st p np).cpu = l.st.cpu := rfl
  have hq : (Mlfq.forkDone l.st p np).q =
      Function.update l.st.q 0 (l.st.q 0 ++ [np]) := hQ.q
  -- it starts with the fields of a fresh process
  have hnew : Fresh ((Mlfq.forkDone l.st p np).proc np) := by
    unfold Mlfq.forkDone
    simp [enQ, Fresh]
  have hother : ∀ q, q ≠ np → (Mlfq.forkDone l.st p np).proc q = l.st.proc q := by
    intro q hq
    unfold Mlfq.forkDone
    simp [enQ, hq]
  have hb : ¬ LSt.Boosts l.st (Mlfq.forkDone l.st p np) := by
    intro hb
    exact hb.1 (hcpu'.symm.trans hb.2.1)
  have he : LSt.enqueued l.st .forkDone = some np := by
    unfold LSt.enqueued St.running
    rw [hcpu]
    simp [hk]
  have hdisp : LSt.dispatched l.st (Mlfq.forkDone l.st p np) = none := by
    unfold LSt.dispatched
    rw [hcpu]
  have ht : ∀ q, ¬ LSt.Touches l.st .forkDone q := fun _ hf => hf
  have hcount : ∀ q, (l.after .forkDone (Mlfq.forkDone l.st p np)).count q =
      if q = np then 0 else l.count q := by
    intro q
    simp [LSt.after, hb, he, hdisp, eq_comm]
  have htouched : ∀ q, (l.after .forkDone (Mlfq.forkDone l.st p np)).touched q =
      if q = np then false else l.touched q := by
    intro q
    simp [LSt.after, hb, he, ht q, eq_comm]
  refine ⟨hinv, h.undictated, ?_, ?_⟩
  -- the entries of the queues: the new process, and those that were there
  · intro l' hl' x hx
    change x ∈ (Mlfq.forkDone l.st p np).q l' at hx
    by_cases hxn : x = np
    · subst hxn
      rcases hnew with ⟨hqlv, hprio, hcons⟩
      have hl0 : l' = 0 := by
        by_contra hne
        rw [hq, Function.update_of_ne hne] at hx
        exact hdead ((h.inv.mem x).1 (mem_ent hl' hx)).1
      rw [hcount x, if_pos rfl, hl0]
      exact .fresh hqlv hprio hcons _
    · rw [hcount x, if_neg hxn, htouched x, if_neg hxn]
      change Placed _ _ _ ((Mlfq.forkDone l.st p np).proc x)
      rw [hother x hxn]
      refine h.counted l' hl' x ?_
      rw [hq] at hx
      by_cases hl0 : l' = 0
      · subst hl0
        rw [Function.update_self, List.mem_append, List.mem_singleton] at hx
        exact hx.resolve_right hxn
      · rwa [Function.update_of_ne hl0] at hx
  -- the process that runs is the parent, with its count unchanged
  · intro q lv' hc
    have hc' : l.st.cpu = some (q, lv') := hc
    rcases h.running q lv' hc' with ⟨k, hkq, hp⟩
    have hqn : q ≠ np := by
      rintro rfl
      rw [(h.inv.cpu q lv' hc').2.1] at hemb
      cases hemb
    refine ⟨k, by rw [hcount q, if_neg hqn, hkq], ?_⟩
    rw [htouched q, if_neg hqn]
    change Placed _ _ _ ((Mlfq.forkDone l.st p np).proc q)
    rw [hother q hqn]
    exact hp

/-- What the running process can do, apart from the scheduler lock. -/
theorem running_step (h : LInv l) (hcpu : l.st.cpu = some (p, lv)) (hno : ¬ Locks a)
    (hinv : Inv s') (hs : nextRunning l.st p lv a = some s') : LInv (l.after a s') := by
  have hnd := h.no_dictator
  have hund := h.undictated
  -- no other call enqueues a fresh process or sets a priority
  have he : a ≠ .forkDone → LSt.enqueued l.st a = none := by
    intro hne
    unfold LSt.enqueued
    split
    · exact absurd rfl hne
    · rfl
  have hquiet : ∀ {s1 : St}, Inv s1 → Keeps l.st s1 → s1.is_dictated = l.st.is_dictated →
      s1.cpu = l.st.cpu → a ≠ .forkDone → (∀ q, ¬ LSt.Touches l.st a q) → LInv (l.after a s1) :=
    fun h1 hk hd hc hf ht => h.keeps h1 hk (hd.trans hund) hc (he hf) ht
  cases a with
  | schedule => cases hs
  | tick =>
      cases hs
      exact h.tick hinv (he (by simp))
  | wakeup chan =>
      cases hs
      exact hquiet hinv (wakeup1_keeps _ _) rfl rfl (by simp) fun _ hf => hf
  | yield =>
      simp only [nextRunning, Option.ite_none_left_eq_some, Option.some.injEq] at hs
      rcases hs with ⟨-, rfl⟩
      exact h.gives_up hcpu h.inv (.refl _) hund rfl (.inl rfl) hinv (he (by simp)) fun _ hf => hf
  | sleep chan =>
      have hsl : s' = Mlfq.sleep l.st p lv chan := by
        simp only [nextRunning] at hs
        split at hs
        · exact (Option.some.inj hs).symm
        · exact (Option.some.inj hs).symm
        · cases hs
      subst hsl
      refine h.gives_up hcpu (h.inv.calm (.setProc _ p (fun q => { q with chan := chan }) rfl))
        (.setProc _ p _ (fun _ => rfl) (fun _ => rfl) (fun _ => rfl)) hund rfl (.inr (.inl rfl))
        hinv (he (by simp)) fun _ hf => hf
  | kill pid =>
      simp only [nextRunning, Option.ite_none_right_eq_some, Option.some.injEq] at hs
      rcases hs with ⟨-, rfl⟩
      have hr := kill_roused l.st pid
      exact hquiet hinv (kill_keeps _ _) hr.is_dictated hr.cpu (by simp) fun _ hf => hf
  | forkAlloc =>
      simp only [nextRunning, Option.ite_none_right_eq_some, Option.some.injEq] at hs
      rcases hs with ⟨-, rfl⟩
      have hk : Keeps l.st (Mlfq.forkAlloc l.st p) ∧
          (Mlfq.forkAlloc l.st p).is_dictated = l.st.is_dictated ∧
            (Mlfq.forkAlloc l.st p).cpu = l.st.cpu := by
        unfold Mlfq.forkAlloc allocproc
        cases firstProc l.st fun p => p.state = .UNUSED with
        | none => exact ⟨.refl _, rfl, rfl⟩
        | some np =>
            refine ⟨?_, rfl, rfl⟩
            exact (Keeps.setProc l.st np (fun q => { q with state := .EMBRYO, pid := l.st.nextpid })
              (fun _ => rfl) (fun _ => rfl) (fun _ => rfl)).trans
                ⟨rfl, fun _ => rfl, fun _ => rfl, fun _ => rfl, rfl⟩
      exact hquiet hinv hk.1 hk.2.1 hk.2.2 (by simp) fun _ hf => hf
  | forkFail =>
      simp only [nextRunning] at hs
      split at hs
      · next np _ =>
        cases hs
        have hk : Keeps l.st (Mlfq.forkFail l.st p np) :=
          (Keeps.setProc l.st np (fun q => { q with state := .UNUSED }) (fun _ => rfl)
            (fun _ => rfl) (fun _ => rfl)).trans (setKont_keeps _ _ _)
        exact hquiet hinv hk rfl rfl (by simp) fun _ hf => hf
      · cases hs
  | forkDone =>
      simp only [nextRunning] at hs
      split at hs
      · next np hk =>
        cases hs
        exact h.forkDone hcpu hk
      · cases hs
  | exitBegin =>
      simp only [nextRunning, Option.ite_none_right_eq_some] at hs
      rcases hs with ⟨-, hs⟩
      unfold Mlfq.exitBegin at hs
      split at hs
      · cases hs
      · cases hs
        exact hquiet hinv (setKont_keeps _ _ _) rfl rfl (by simp) fun _ hf => hf
  | exitEnd =>
      simp only [nextRunning, Option.ite_none_right_eq_some, Option.some.injEq] at hs
      rcases hs with ⟨-, rfl⟩
      unfold Mlfq.exitEnd at hinv ⊢
      dsimp only at hinv ⊢
      generalize hs1 : Mlfq.passChildren (wakeup1 l.st _) p = s1 at hinv ⊢
      have hk : Keeps l.st s1 := by
        rw [← hs1]
        exact (wakeup1_keeps _ _).trans (passChildren_keeps _ _)
      have hcalm : Calm l.st s1 := by
        rw [← hs1]
        exact (calm_wakeup1 _ _).trans (calm_passChildren _ _)
      have hne : s1.scheduler_dictator ≠ some p := by
        rw [hcalm.dictator, hnd]
        simp
      rw [if_neg hne] at hinv ⊢
      exact h.gives_up hcpu (h.inv.calm hcalm) hk (hcalm.is_dictated.trans hund) hcalm.cpu
        (.inr (.inr rfl)) hinv (he (by simp)) fun _ hf => hf
  | wait =>
      have hw : s' = Mlfq.wait l.st p lv := by
        simp only [nextRunning] at hs
        split at hs
        · exact (Option.some.inj hs).symm
        · exact (Option.some.inj hs).symm
        · cases hs
      subst hw
      unfold Mlfq.wait at hinv ⊢
      split at hinv
      · next c _ =>
        exact hquiet hinv ((Keeps.setProc l.st c (fun q =>
          { q with pid := 0, parent := none, killed := false, state := .UNUSED }) (fun _ => rfl)
          (fun _ => rfl) (fun _ => rfl)).trans (setKont_keeps _ _ _)) rfl rfl (by simp)
          fun _ hf => hf
      · split at hinv
        · next hn =>
          rw [if_pos hn]
          exact hquiet hinv (setKont_keeps _ _ _) rfl rfl (by simp) fun _ hf => hf
        · next hn =>
          rw [if_neg hn]
          have h1 : Inv (l.st.setKont p .wait) := h.inv.setKont p (by simp)
          exact h.gives_up hcpu (h1.calm (.setProc _ p (fun q => { q with chan := .proc p }) rfl))
            ((setKont_keeps _ _ _).trans (.setProc _ p _ (fun _ => rfl) (fun _ => rfl)
              (fun _ => rfl))) hund rfl (.inr (.inl rfl)) hinv (he (by simp)) fun _ hf => hf
  | setPriority pid priority =>
      simp only [nextRunning, Option.ite_none_right_eq_some, Option.some.injEq] at hs
      rcases hs with ⟨-, rfl⟩
      exact h.setPriority hcpu hinv
  | schedulerLock password => exact absurd trivial hno
  | schedulerUnlock password => exact absurd trivial hno

/-- Every step that does not lock keeps the counts. -/
theorem step (h : LInv l) (hno : ¬ Locks a) {l' : LSt} (hs : l.next a = some l') : LInv l' := by
  unfold LSt.next at hs
  rw [Option.map_eq_some_iff] at hs
  rcases hs with ⟨s', hs, rfl⟩
  -- a step that is no `schedulerLock` keeps the invariant of the queues
  have hinv : Inv s' := by
    refine next_inv h.inv ?_ hs
    rintro ⟨p, lv, password, -, rfl, -⟩
    exact hno trivial
  unfold Mlfq.next at hs
  split at hs
  -- a call of the process that runs
  · next p lv hcpu => exact h.running_step hcpu hno hinv hs
  · next hcpu =>
    -- a step of the scheduler, or an interrupt while no process runs
    have he : LSt.enqueued l.st a = none := by
      unfold LSt.enqueued St.running
      rw [hcpu]
      rfl
    split at hs
    · exact h.schedule hcpu hs
    · cases hs
      exact h.tick hinv he
    · next chan =>
      cases hs
      exact h.keeps hinv (wakeup1_keeps _ _) h.undictated rfl he fun _ hf => hf
    · cases hs

end LInv

/-! ## Runs -/

/-- The first process has had no turn. -/
theorem linv_init {l : LSt} (h : l.Init) : LInv l := by
  rcases h with ⟨hst, hcount, -⟩
  have h0 : userinit.q 0 = [⟨0, by decide⟩] := by decide
  have h1 : userinit.q 1 = [] := rfl
  have h2 : userinit.q 2 = [] := rfl
  refine ⟨hst ▸ userinit_inv, by rw [hst]; rfl, ?_, ?_⟩
  · intro lv hlv x hx
    rw [hst] at hx ⊢
    rcases (show lv = 0 ∨ lv = 1 ∨ lv = 2 from by omega) with rfl | rfl | rfl
    · rw [h0, List.mem_singleton] at hx
      subst hx
      rw [hcount]
      exact .fresh rfl rfl rfl _
    · rw [h1] at hx
      cases hx
    · rw [h2] at hx
      cases hx
  · intro p lv hp
    rw [hst] at hp
    cases hp

/-- At the head of the scheduler loop, and whoever has the CPU, the number of
turns tells level, queue, priority and consumed slice of every process that is
RUNNABLE or SLEEPING. -/
theorem level_of_turns {l : LSt} (hr : ReachOk LSt.Init LSt.next (fun _ a => ¬ Locks a) l)
    (p : Pidx) (hp : Live (l.st.proc p)) :
    AsCounted l.st p (l.count p) (l.touched p) := by
  have h : LInv l := by
    refine hr.invariant LInv (fun _ => linv_init) ?_
    intro l a l' h hno hs
    exact h.step hno hs
  -- without a lock there is no dictator
  have hnd : ¬ IsDictator l.st p := by
    intro hd
    have hf := h.undictated
    rw [hd.1] at hf
    cases hf
  -- a live process is in exactly one queue, once
  have hmem := (h.inv.mem p).2 ⟨hp, hnd⟩
  obtain ⟨lv, hlv, hq⟩ : ∃ lv, lv ≤ 2 ∧ p ∈ l.st.q lv := by
    unfold ent at hmem
    rw [List.mem_append, List.mem_append] at hmem
    rcases hmem with (h0 | h1) | h2
    · exact ⟨0, by omega, h0⟩
    · exact ⟨1, by omega, h1⟩
    · exact ⟨2, by omega, h2⟩
  rcases h.counted lv hlv p hq with ⟨rfl, hqlv, hcons, hprio⟩
  refine ⟨hqlv, hq, List.count_eq_one_of_mem h.inv.nodup hmem, hprio, hcons, ?_⟩
  rw [hcons]
  exact remainder_lt _

/-- The first process yields after each of `n` turns. -/
def turns (n : Nat) : List Act := (List.replicate n [.schedule, .yield]).flatten

/-- After eleven turns the first process has had one turn at level 2. -/
theorem level_of_turns_eleven :
    ∃ l, exec LSt.next ⟨userinit, fun _ => 0, fun _ => false⟩ (turns 11) = some l ∧
      l.count ⟨0, by decide⟩ = 11 ∧ AsCounted l.st ⟨0, by decide⟩ 11 false := by
  have hrun : (exec LSt.next ⟨userinit, fun _ => 0, fun _ => false⟩ (turns 11)).any (fun l =>
      l.count ⟨0, by decide⟩ = 11 ∧ l.touched ⟨0, by decide⟩ = false ∧
        Live (l.st.proc ⟨0, by decide⟩)) = true := by
    decide +kernel
  simp only [Option.any_eq_true, decide_eq_true_eq] at hrun
  rcases hrun with ⟨l, hl, hcount, htouched, hlive⟩
  have h0 : ReachOk LSt.Init LSt.next (fun _ a => ¬ Locks a)
      ⟨userinit, fun _ => 0, fun _ => false⟩ := .init ⟨rfl, fun _ => rfl, fun _ => rfl⟩
  have hok : ∀ a ∈ turns 11, ¬ Locks a := by
    intro a ha
    simp only [turns, List.mem_flatten, List.mem_replicate] at ha
    rcases ha with ⟨as, ⟨-, rfl⟩, ha⟩
    rcases List.mem_pair.1 ha with rfl | rfl <;> exact id
  have hr := h0.exec (fun a ha _ => hok a ha) hl
  have h := level_of_turns hr ⟨0, by decide⟩ hlive
  rw [hcount, htouched] at h
  exact ⟨l, hl, hcount, h⟩

end Xv6.Mlfq
