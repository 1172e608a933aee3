import Mathlib.Logic.Function.Basic
import Mathlib.Data.Int.Basic
import Xv6.Lib.Transition

/-!
# The lock and the flag of the log

Any number of processes call `begin_op`, `end_op`, `sync` and `flush`. A step takes
`log.lock`, or runs a section with it up to where it is given up, or reads
`log.committing` outside. `flush` is called from `bget`, also from inside a commit
when `is_flush` is clear.

`sync` and `flush` set `committing` without another look at it once they have the
lock, and `sync` goes to sleep with a lock that it has not taken.

* `commits_exclude_iff`: in a run at most one process is in a commit and the lock
  is kept to, if and only if every step finds `committing` clear where it relies
  on that;
* `commits_overlap`: two commits at once.

What a commit does to the disk is no part of the state; `Log.Concurrent` looks
into one.
-/

namespace Xv6.Log.Mutex

open Xv6.Lib

/-! ## The system -/

/-- What a process does with `log.lock`: the loops of `begin_op`, `end_op` and `sync`,
and the two sections of `sync` and `flush`. -/
inductive Section
  | beginOp
  | endOp
  | sync
  | set
  | clear
  deriving DecidableEq

/-- Where a process stands: in none of the calls, before a section, in it, in `sleep`,
before one of the reads outside the lock, or in `commit`. -/
inductive Pc
  | user
  | acquire (k : Section)
  | inside (k : Section)
  | asleep (k : Section)
  | syncTest
  | syncWhile
  | flushTest
  | commit
  deriving DecidableEq

/-- `nested p` is the number of commits below the call of `flush` that `p` is in. -/
structure St (P : Type) where
  lock : Option P
  committing : Bool
  is_flush : Bool
  outstanding : Int
  pc : P → Pc
  nested : P → Nat
  panicked : Bool

inductive Act (P : Type)
  | beginOp (p : P)
  | endOp (p : P)
  | sync (p : P)
  | flush (p : P)
  | run (p : P)

variable {P : Type}

section code

variable [DecidableEq P]

namespace St

def go (s : St P) (p : P) (c : Pc) : St P := { s with pc := Function.update s.pc p c }

/-- `wakeup(&log)` -/
def wakeup (s : St P) : St P :=
  { s with pc := fun q =>
      match s.pc q with
      | .asleep k => .acquire k
      | c => c }

/-- `sleep(&log, &log.lock)`; `release` panics unless the lock is held. -/
def sleep (s : St P) (p : P) (k : Section) : St P :=
  if s.lock = some p then { s with lock := none }.go p (.asleep k)
  else { s with panicked := true }

/-- The end of `sync` or `flush`. -/
def done (s : St P) (p : P) : St P :=
  if s.nested p = 0 then s.go p .user
  else { s with nested := Function.update s.nested p (s.nested p - 1) }.go p .commit

/-- The loop of `sync`. -/
def syncLoop (s : St P) (p : P) : St P :=
  if s.committing = true then s.sleep p .sync else s.wakeup.done p

/-- A section with `log.lock`, up to where the lock is given up. -/
def runSection (s : St P) (p : P) : Section → St P
  | .beginOp =>
      if s.committing = true then s.sleep p .beginOp
      else { s with outstanding := s.outstanding + 1, lock := none }.go p .user
  | .endOp =>
      if s.committing = true then s.sleep p .endOp
      else ({ s with outstanding := s.outstanding - 1, lock := none }.wakeup).go p .user
  | .sync => s.syncLoop p
  | .set => { s with committing := true, is_flush := true, lock := none }.go p .commit
  | .clear => ({ s with committing := false, is_flush := false, lock := none }.wakeup).done p

end St

/-- Process `p` goes on. -/
def run (s : St P) (p : P) : Option (St P) :=
  match s.pc p with
  | .user => none
  | .acquire k => if s.lock = none then some ({ s with lock := some p }.go p (.inside k)) else none
  | .inside k => some (s.runSection p k)
  | .asleep _ => none
  | .syncTest => some (s.go p (if s.committing = true then .syncWhile else .acquire .set))
  | .syncWhile => some (s.syncLoop p)
  | .flushTest =>
      if s.committing = true then some (s.wakeup.done p) else some (s.go p (.acquire .set))
  | .commit => some (s.go p (.acquire .clear))

/-- A call from where no other of the calls is running. -/
def call (s : St P) (p : P) (c : Pc) : Option (St P) :=
  if s.pc p = .user then some (s.go p c) else none

def next (s : St P) (a : Act P) : Option (St P) :=
  if s.panicked = true then none
  else match a with
    | .beginOp p => call s p (.acquire .beginOp)
    | .endOp p => call s p (.acquire .endOp)
    | .sync p => call s p .syncTest
    | .flush p =>
        if s.pc p = .commit ∧ s.is_flush = false then
          some ({ s with nested := Function.update s.nested p (s.nested p + 1) }.go p .flushTest)
        else call s p .flushTest
    | .run p => run s p

end code

structure Init (s : St P) : Prop where
  lock : s.lock = none
  committing : s.committing = false
  is_flush : s.is_flush = false
  pc : ∀ p, s.pc p = .user
  nested : ∀ p, s.nested p = 0
  panicked : s.panicked = false

/-! ## The property -/

/-- The process has set `committing` and not cleared it yet. -/
def Committing (s : St P) (p : P) : Prop :=
  s.pc p = .commit ∨ s.pc p = .acquire .clear ∨ s.pc p = .inside .clear ∨ 0 < s.nested p

/-- One process commits at a time, nobody has slept without the lock, and nobody has left a
section with it. -/
structure Good (s : St P) : Prop where
  exclusive : ∀ p q, Committing s p → Committing s q → p = q
  sleeps : s.panicked = false
  returns : ∀ p, s.lock = some p → ∃ k, s.pc p = .inside k

/-- Nobody else has set `committing` when it is set, and no commit is still running when
`sync`, which has seen one, reads again. -/
def Alone (s : St P) : Act P → Prop
  | .run p => s.pc p = .inside .set ∨ s.pc p = .syncWhile → s.committing = false
  | _ => True

/-! ## The invariant -/

namespace Pc

/-- Between the two assignments to `committing`. -/
def commits : Pc → Bool
  | .commit | .acquire .clear | .inside .clear => true
  | _ => false

/-- Nobody but `begin_op` and `end_op` sleeps. -/
def regular : Pc → Bool
  | .acquire .sync | .inside .sync => false
  | .asleep k => k = .beginOp ∨ k = .endOp
  | _ => true

/-- Where a process stands that `wakeup` has woken. -/
def woken : Pc → Pc
  | .asleep k => .acquire k
  | c => c

variable {c : Pc}

theorem commits_woken (h : c.regular = true) : c.woken.commits = c.commits := by
  cases c with
  | asleep k => cases k <;> first | rfl | cases h
  | _ => rfl

theorem regular_woken (h : c.regular = true) : c.woken.regular = true := by
  cases c with
  | asleep k => cases k <;> first | rfl | cases h
  | _ => exact h

theorem woken_inside {k : Section} : c.woken = .inside k ↔ c = .inside k := by
  cases c <;> simp [woken]

end Pc

structure Inv (s : St P) : Prop where
  good : Good s
  committing : s.committing = true ↔ ∃ p, (s.pc p).commits = true
  is_flush : s.is_flush = s.committing
  nested : ∀ p, s.nested p = 0
  lock : ∀ p k, s.pc p = .inside k → s.lock = some p
  regular : ∀ p, (s.pc p).regular = true

section

variable {s s' : St P} {p q : P}

/-- Without a nested flush a process commits exactly where its counter says so. -/
theorem committing_iff (h : ∀ p, s.nested p = 0) : Committing s p ↔ (s.pc p).commits = true := by
  unfold Committing
  rw [h p]
  cases s.pc p with
  | acquire k => cases k <;> simp [Pc.commits]
  | inside k => cases k <;> simp [Pc.commits]
  | _ => simp [Pc.commits]

/-- What there is to show of a state when no process has called `flush` from `commit`. -/
theorem Inv.mk' (hex : ∀ p q, (s.pc p).commits = true → (s.pc q).commits = true → p = q)
    (hpan : s.panicked = false) (hlock : ∀ p, s.lock = some p ↔ ∃ k, s.pc p = .inside k)
    (hcom : s.committing = true ↔ ∃ p, (s.pc p).commits = true) (hfl : s.is_flush = s.committing)
    (hnest : ∀ p, s.nested p = 0) (hreg : ∀ p, (s.pc p).regular = true) : Inv s := by
  refine ⟨⟨?_, hpan, fun p hp => (hlock p).1 hp⟩, hcom, hfl, hnest, ?_, hreg⟩
  · intro p q hp hq
    exact hex p q ((committing_iff hnest).1 hp) ((committing_iff hnest).1 hq)
  · intro p k hp
    exact (hlock p).2 ⟨k, hp⟩

theorem Inv.lock_iff (h : Inv s) : s.lock = some p ↔ ∃ k, s.pc p = .inside k := by
  constructor
  · exact h.good.returns p
  · rintro ⟨k, hk⟩
    exact h.lock p k hk

theorem Inv.exclusive (h : Inv s) (hp : (s.pc p).commits = true) (hq : (s.pc q).commits = true) :
    p = q :=
  h.good.exclusive p q ((committing_iff h.nested).2 hp) ((committing_iff h.nested).2 hq)

theorem Inv.count (h : Inv s) (n : Int) : Inv { s with outstanding := n } :=
  Inv.mk' (fun _ _ => h.exclusive) h.good.sleeps (fun _ => h.lock_iff) h.committing h.is_flush
    h.nested h.regular

/-- `wakeup` puts nobody between the assignments. -/
theorem Inv.wakeup (h : Inv s) : Inv s.wakeup := by
  have hpc : ∀ q, s.wakeup.pc q = (s.pc q).woken := by
    intro q
    show (match s.pc q with | .asleep k => Pc.acquire k | c => c) = _
    cases s.pc q <;> rfl
  have hcom : ∀ q, (s.wakeup.pc q).commits = (s.pc q).commits := by
    intro q
    rw [hpc]
    exact Pc.commits_woken (h.regular q)
  refine Inv.mk' ?_ h.good.sleeps ?_ ?_ h.is_flush h.nested ?_
  -- a wakeup moves sleepers to the start of their section, and nobody into a commit
  · intro q r hq hr
    exact h.exclusive ((hcom q).symm.trans hq) ((hcom r).symm.trans hr)
  · intro q
    rw [hpc]
    simp only [Pc.woken_inside]
    exact h.lock_iff
  · refine h.committing.trans ?_
    constructor
    · rintro ⟨q, hq⟩
      exact ⟨q, (hcom q).trans hq⟩
    · rintro ⟨q, hq⟩
      exact ⟨q, (hcom q).symm.trans hq⟩
  · intro q
    rw [hpc]
    exact Pc.regular_woken (h.regular q)

/-- Nobody is in a call at the start. -/
theorem init_inv (h : Init s) : Inv s := by
  have hcom : ∀ q, (s.pc q).commits = false := by
    intro q
    rw [h.pc]
    rfl
  refine Inv.mk' ?_ h.panicked ?_ ?_ ?_ h.nested ?_
  · intro q r hq
    rw [hcom] at hq
    cases hq
  · intro q
    rw [h.lock, h.pc]
    exact ⟨nofun, fun ⟨_, hk⟩ => by cases hk⟩
  · rw [h.committing]
    refine ⟨nofun, ?_⟩
    rintro ⟨q, hq⟩
    rw [hcom] at hq
    cases hq
  · rw [h.is_flush, h.committing]
  · intro q
    rw [h.pc]
    rfl

variable [DecidableEq P]

/-- A process has gone on, and is between the assignments if and only if it was. -/
theorem Inv.go (h : Inv s) {c : Pc} {l : Option P} (hc : c.commits = (s.pc p).commits)
    (hreg : c.regular = true)
    (hl : ∀ q, l = some q ↔ ∃ k, Function.update s.pc p c q = .inside k) :
    Inv ({ s with lock := l }.go p c) := by
  have hpc : ∀ q, (Function.update s.pc p c q).commits = (s.pc q).commits := by
    intro q
    by_cases hq : q = p
    · rw [hq, Function.update_self, hc]
    · rw [Function.update_of_ne hq]
  refine Inv.mk' ?_ h.good.sleeps hl ?_ h.is_flush h.nested ?_
  · intro q r hq hr
    exact h.exclusive ((hpc q).symm.trans hq) ((hpc r).symm.trans hr)
  · refine h.committing.trans ?_
    constructor
    · rintro ⟨q, hq⟩
      exact ⟨q, (hpc q).trans hq⟩
    · rintro ⟨q, hq⟩
      exact ⟨q, (hpc q).symm.trans hq⟩
  · intro q
    show (Function.update s.pc p c q).regular = true
    by_cases hq : q = p
    · rw [hq, Function.update_self, hreg]
    · rw [Function.update_of_ne hq]
      exact h.regular q

/-- A process outside the sections does not take the lock. -/
theorem Inv.stay (h : Inv s) {c : Pc} (hc : c.commits = (s.pc p).commits) (hreg : c.regular = true)
    (hin : ∀ k, c ≠ .inside k) (hout : ∀ k, s.pc p ≠ .inside k) : Inv (s.go p c) := by
  refine Inv.go (l := s.lock) h hc hreg ?_
  intro q
  rw [h.lock_iff]
  by_cases hq : q = p
  · rw [hq, Function.update_self]
    constructor
    · rintro ⟨k, hk⟩
      exact absurd hk (hout k)
    · rintro ⟨k, hk⟩
      exact absurd hk (hin k)
  · rw [Function.update_of_ne hq]

/-- A process gives up the lock. -/
theorem Inv.leave (h : Inv s) {c : Pc} {k : Section} (hk : s.pc p = .inside k)
    (hc : c.commits = (s.pc p).commits) (hreg : c.regular = true) (hin : ∀ k, c ≠ .inside k) :
    Inv ({ s with lock := none }.go p c) := by
  refine h.go hc hreg ?_
  intro q
  by_cases hq : q = p
  · rw [hq, Function.update_self]
    constructor
    · nofun
    · rintro ⟨j, hj⟩
      exact absurd hj (hin j)
  · rw [Function.update_of_ne hq]
    constructor
    · nofun
    · rintro ⟨j, hj⟩
      have h1 := h.lock p k hk
      have h2 := h.lock q j hj
      rw [h1] at h2
      exact absurd (Option.some.inj h2).symm hq

/-! ## Steps -/

/-- `committing` is set by a process that finds it clear. -/
theorem set_inv (h : Inv s) (hpc : s.pc p = .inside .set) (hclear : s.committing = false) :
    Inv (s.runSection p .set) := by
  -- the flag was clear, so nobody commits yet
  have hnone : ∀ q, (s.pc q).commits = false := by
    intro q
    by_contra hq
    have hset := h.committing.2 ⟨q, by simpa using hq⟩
    rw [hclear] at hset
    cases hset
  have hother : ∀ q, (Function.update s.pc p .commit q).commits = true → q = p := by
    intro q hq
    by_contra hne
    rw [Function.update_of_ne hne, hnone q] at hq
    cases hq
  -- from now on `p` alone commits, and it has left the lock
  refine Inv.mk' ?_ h.good.sleeps ?_ ?_ rfl h.nested ?_
  · intro q r hq hr
    exact (hother q hq).trans (hother r hr).symm
  · intro q
    constructor
    · nofun
    · rintro ⟨k, hk⟩
      have hk : Function.update s.pc p .commit q = .inside k := hk
      by_cases hq : q = p
      · rw [hq, Function.update_self] at hk
        cases hk
      · rw [Function.update_of_ne hq] at hk
        have h1 := h.lock p _ hpc
        rw [h.lock q k hk] at h1
        exact absurd (Option.some.inj h1) hq
  · refine ⟨fun _ => ⟨p, ?_⟩, fun _ => rfl⟩
    show (Function.update s.pc p Pc.commit p).commits = true
    rw [Function.update_self]
    rfl
  · intro q
    show (Function.update s.pc p Pc.commit q).regular = true
    by_cases hq : q = p
    · rw [hq, Function.update_self]
      rfl
    · rw [Function.update_of_ne hq]
      exact h.regular q

theorem done_eq (h : s.nested p = 0) : s.done p = s.go p .user := if_pos h

/-- `committing` is cleared by the process that has set it. -/
theorem clear_inv (h : Inv s) (hpc : s.pc p = .inside .clear) : Inv (s.runSection p .clear) := by
  have hw := h.wakeup
  have hpcw : s.wakeup.pc p = .inside .clear := by
    show (match s.pc p with | .asleep k => Pc.acquire k | c => c) = _
    rw [hpc]
  -- `p` was the one that commits, so nobody does now
  have hother : ∀ q, (Function.update s.wakeup.pc p Pc.user q).commits = false := by
    intro q
    by_cases hq : q = p
    · rw [hq, Function.update_self]
      rfl
    · rw [Function.update_of_ne hq]
      by_contra hc
      exact hq (hw.exclusive (by simpa using hc) (by rw [hpcw]; rfl))
  have hdone : s.runSection p .clear =
      ({ s with committing := false, is_flush := false, lock := none } : St P).wakeup.go p .user :=
    done_eq (h.nested p)
  rw [hdone]
  refine Inv.mk' ?_ h.good.sleeps ?_ ?_ rfl h.nested ?_
  · intro q r hq
    have h1 := hother q
    rw [show (Function.update s.wakeup.pc p Pc.user q).commits = true from hq] at h1
    cases h1
  · intro q
    constructor
    · nofun
    · rintro ⟨k, hk⟩
      have hk : Function.update s.wakeup.pc p .user q = .inside k := hk
      by_cases hq : q = p
      · rw [hq, Function.update_self] at hk
        cases hk
      · rw [Function.update_of_ne hq] at hk
        have h1 := hw.lock p _ hpcw
        rw [hw.lock q k hk] at h1
        exact absurd (Option.some.inj h1) hq
  -- the flag is clear, and that is true of everybody
  · refine ⟨nofun, ?_⟩
    rintro ⟨q, hq⟩
    have h1 := hother q
    rw [show (Function.update s.wakeup.pc p Pc.user q).commits = true from hq] at h1
    cases h1
  · intro q
    show (Function.update s.wakeup.pc p Pc.user q).regular = true
    by_cases hq : q = p
    · rw [hq, Function.update_self]
      rfl
    · rw [Function.update_of_ne hq]
      exact hw.regular q

/-- A loop of `begin_op` or `end_op` goes to sleep with the lock. -/
theorem sleep_inv (h : Inv s) {k : Section} (hpc : s.pc p = .inside k)
    (hk : k = .beginOp ∨ k = .endOp) : Inv (s.sleep p k) := by
  unfold St.sleep
  rw [if_pos (h.lock p k hpc)]
  refine h.leave hpc ?_ ?_ nofun
  · rw [hpc]
    rcases hk with rfl | rfl <;> rfl
  · rcases hk with rfl | rfl <;> rfl

/-- A section under the lock keeps the invariant; the flag is set only when it is clear. -/
theorem section_inv (h : Inv s) {k : Section} (hpc : s.pc p = .inside k)
    (hok : k = .set → s.committing = false) : Inv (s.runSection p k) := by
  cases k with
  | beginOp =>
      show Inv (if s.committing = true then s.sleep p .beginOp
        else ({ s with outstanding := s.outstanding + 1, lock := none } : St P).go p .user)
      -- `begin_op` waits for a commit or counts itself in
      split
      · exact sleep_inv h hpc (.inl rfl)
      · exact (h.count (s.outstanding + 1)).leave hpc (by rw [hpc]; rfl) rfl nofun
  | endOp =>
      show Inv (if s.committing = true then s.sleep p .endOp
        else (({ s with outstanding := s.outstanding - 1, lock := none } : St P).wakeup).go p .user)
      -- `end_op` of this log waits for a commit or counts itself out
      split
      · exact sleep_inv h hpc (.inr rfl)
      · have hpcw : s.wakeup.pc p = .inside .endOp := by
          show (match s.pc p with | .asleep k => Pc.acquire k | c => c) = _
          rw [hpc]
        exact (h.wakeup.count (s.outstanding - 1)).leave hpcw (by
          show _ = (s.wakeup.pc p).commits
          rw [hpcw]
          rfl) rfl nofun
  | sync =>
      have hreg := h.regular p
      rw [hpc] at hreg
      cases hreg
  | set => exact set_inv h hpc (hok rfl)
  | clear => exact clear_inv h hpc

/-- `sync` or `flush` returns to a process that has not committed. -/
theorem return_inv (h : Inv s) (hcom : (s.pc p).commits = false) (hout : ∀ k, s.pc p ≠ .inside k)
    (hsleep : ∀ k, s.pc p ≠ .asleep k) : Inv (s.wakeup.done p) := by
  have hpcw : s.wakeup.pc p = s.pc p := by
    show (match s.pc p with | .asleep k => Pc.acquire k | c => c) = _
    cases hpc : s.pc p with
    | asleep k => exact absurd hpc (hsleep k)
    | _ => rfl
  rw [done_eq (s := s.wakeup) (h.nested p)]
  refine h.wakeup.stay ?_ rfl nofun ?_
  · rw [hpcw, hcom]
    rfl
  · rw [hpcw]
    exact hout

/-- A call begins outside all sections. -/
theorem call_inv (h : Inv s) {c : Pc} (hs : call s p c = some s') (hcom : c.commits = false)
    (hreg : c.regular = true) (hin : ∀ k, c ≠ .inside k) : Inv s' := by
  simp only [call, Option.ite_none_right_eq_some, Option.some.injEq] at hs
  rcases hs with ⟨hpc, rfl⟩
  refine h.stay ?_ hreg hin ?_
  · rw [hpc, hcom]
    rfl
  · rw [hpc]
    nofun

/-- A process goes on, one case for each place where it can stand. -/
theorem run_inv (h : Inv s) (hok : Alone s (.run p)) (hs : run s p = some s') : Inv s' := by
  unfold run at hs
  cases hpc : s.pc p with
  | user =>
      rw [hpc] at hs
      cases hs
  | asleep k =>
      rw [hpc] at hs
      cases hs
  | acquire k =>
      simp only [hpc, Option.ite_none_right_eq_some, Option.some.injEq] at hs
      rcases hs with ⟨hfree, rfl⟩
      have hreg := h.regular p
      rw [hpc] at hreg
      -- the lock was free, so nobody else is inside
      refine h.go ?_ ?_ ?_
      · rw [hpc]
        cases k <;> rfl
      · cases k <;> first | rfl | cases hreg
      · intro q
        by_cases hq : q = p
        · subst hq
          rw [Function.update_self]
          exact ⟨fun _ => ⟨k, rfl⟩, fun _ => rfl⟩
        · rw [Function.update_of_ne hq]
          constructor
          · intro heq
            exact absurd (Option.some.inj heq).symm hq
          · rintro ⟨j, hj⟩
            have hl := h.lock q j hj
            rw [hfree] at hl
            cases hl
  | inside k =>
      simp only [hpc, Option.some.injEq] at hs
      subst hs
      refine section_inv h hpc ?_
      rintro rfl
      exact hok (.inl hpc)
  | syncTest =>
      simp only [hpc, Option.some.injEq] at hs
      subst hs
      -- the first test of `sync`, made without the lock
      split
      · exact h.stay (by rw [hpc]; rfl) rfl nofun (by rw [hpc]; nofun)
      · exact h.stay (by rw [hpc]; rfl) rfl nofun (by rw [hpc]; nofun)
  | syncWhile =>
      simp only [hpc, Option.some.injEq] at hs
      subst hs
      -- this log's `sync` does not sleep: its loop is left at once
      unfold St.syncLoop
      rw [if_neg (by rw [hok (.inr hpc)]; decide)]
      refine return_inv h ?_ ?_ ?_ <;> rw [hpc]
      · rfl
      · nofun
      · nofun
  | flushTest =>
      simp only [hpc] at hs
      -- `bget` flushes, or goes on
      split at hs
      · cases hs
        refine return_inv h ?_ ?_ ?_ <;> rw [hpc]
        · rfl
        · nofun
        · nofun
      · cases hs
        exact h.stay (by rw [hpc]; rfl) rfl nofun (by rw [hpc]; nofun)
  | commit =>
      simp only [hpc, Option.some.injEq] at hs
      subst hs
      exact h.stay (by rw [hpc]; rfl) rfl nofun (by rw [hpc]; nofun)

/-- Every step that starts no nested flush keeps the invariant. -/
theorem next_inv (h : Inv s) {a : Act P} (hok : Alone s a) (hs : next s a = some s') : Inv s' := by
  unfold next at hs
  rw [if_neg (by rw [h.good.sleeps]; decide)] at hs
  cases a with
  | beginOp p => exact call_inv h hs rfl rfl nofun
  | endOp p => exact call_inv h hs rfl rfl nofun
  | sync p => exact call_inv h hs rfl rfl nofun
  | flush p =>
      -- while a process commits, `is_flush` is set, and `bget` does not call `flush`
      have hno : ¬ (s.pc p = .commit ∧ s.is_flush = false) := by
        rintro ⟨hpc, hfl⟩
        rw [h.is_flush] at hfl
        have hset := h.committing.2 ⟨p, by rw [hpc]; rfl⟩
        rw [hfl] at hset
        cases hset
      simp only [if_neg hno] at hs
      exact call_inv h hs rfl rfl nofun
  | run p => exact run_inv h hok hs

/-- A step that does not meet the condition goes wrong. -/
theorem not_good (h : Inv s) {a : Act P} (hok : ¬ Alone s a) (hs : next s a = some s') :
    ¬ Good s' := by
  intro hg
  unfold next at hs
  rw [if_neg (by rw [h.good.sleeps]; decide)] at hs
  cases a with
  | run p =>
      unfold Alone at hok
      rw [Classical.not_imp] at hok
      rcases hok with ⟨hpc, hset⟩
      have hset : s.committing = true := by simpa using hset
      rcases hpc with hpc | hpc
      · -- another process is between the assignments as well
        rcases h.committing.1 hset with ⟨q, hq⟩
        have hne : q ≠ p := by
          rintro rfl
          rw [hpc] at hq
          cases hq
        simp only [run, hpc, Option.some.injEq] at hs
        subst hs
        refine hne (hg.exclusive q p ?_ (.inl (Function.update_self ..)))
        have hq' := (committing_iff h.nested).2 hq
        unfold Committing at hq' ⊢
        have hsame : (s.runSection p .set).pc q = s.pc q := Function.update_of_ne hne _ _
        rw [hsame]
        exact hq'
      · -- `release` in `sleep`
        simp only [run, hpc, Option.some.injEq] at hs
        subst hs
        have hno : s.lock ≠ some p := by
          intro hl
          rcases h.good.returns p hl with ⟨k, hk⟩
          rw [hpc] at hk
          cases hk
        have hpan := hg.sleeps
        unfold St.syncLoop St.sleep at hpan
        rw [if_pos hset, if_neg hno] at hpan
        cases hpan
  | _ => exact hok trivial

/-! ## Runs -/

/-- In a run, the commits exclude each other and the lock is kept to in every state if
and only if every step finds `committing` clear where it relies on that. -/
theorem commits_exclude_iff (hs : Init s) {tr : List (Act P × St P)} (htr : IsTrace next s tr) :
    (∀ x ∈ tr, Good x.2) ↔ StepsOk Alone s tr := by
  refine @trace_good_iff _ _ _ Alone Inv Good ?_ ?_ _ _ (init_inv hs) htr
  · intro s a s' h hn
    refine ⟨fun hg => ?_, fun hok => (next_inv h hok hn).good⟩
    by_contra hok
    exact not_good h hok hn hg
  · intro s a s' h hn hg
    refine next_inv h ?_ hn
    by_contra hok
    exact not_good h hok hn hg

end

/-- Two processes, and nobody in a call. -/
def quiet : St Bool where
  lock := none
  committing := false
  is_flush := false
  outstanding := 0
  pc := fun _ => .user
  nested := fun _ => 0
  panicked := false

theorem quiet_init : Init quiet := ⟨rfl, rfl, rfl, fun _ => rfl, fun _ => rfl, rfl⟩

/-- One process commits, and `begin_op` of the other one sleeps until it is through. -/
def oneCommits : List (Act Bool) :=
  [.sync true, .run true, .run true, .run true, .beginOp false, .run false, .run false, .run true,
    .run true, .run true, .run false, .run false]

theorem commits_exclude_iff_one : (trace next quiet oneCommits).length = 12 ∧
    ((∀ x ∈ trace next quiet oneCommits, Good x.2) ↔
      StepsOk Alone quiet (trace next quiet oneCommits)) :=
  ⟨by decide, commits_exclude_iff quiet_init (isTrace_trace next quiet oneCommits)⟩

/-- Both processes find `committing` clear, and then both set it. -/
def bothTest : List (Act Bool) :=
  [.sync true, .flush false, .run true, .run false, .run true, .run true, .run false, .run false]

/-- `sync` finds a commit in progress. -/
def syncMeetsCommit : List (Act Bool) :=
  [.flush false, .run false, .run false, .run false, .sync true, .run true, .run true]

/-- Two processes can commit at once, and the panic can be reached. -/
theorem commits_overlap :
    (∃ s : St Bool, Reachable Init next s ∧ Committing s true ∧ Committing s false) ∧
      (∃ s : St Bool, Reachable Init next s ∧ s.panicked = true) ∧
      ¬ ∀ s : St Bool, Reachable Init next s → Good s := by
  have hboth : ∃ s : St Bool, Reachable Init next s ∧ Committing s true ∧ Committing s false := by
    have hrun : (exec next quiet bothTest).map (fun s => (s.pc true, s.pc false)) =
        some (.commit, .commit) := by decide
    rcases Option.map_eq_some_iff.1 hrun with ⟨s, hs, hpc⟩
    rcases Prod.mk.inj hpc with ⟨h1, h2⟩
    exact ⟨s, reachable_exec (.init quiet_init) hs, .inl h1, .inl h2⟩
  have hpanic : ∃ s : St Bool, Reachable Init next s ∧ s.panicked = true := by
    have hrun : (exec next quiet syncMeetsCommit).map (fun s => s.panicked) = some true := by decide
    rcases Option.map_eq_some_iff.1 hrun with ⟨s, hs, hpan⟩
    exact ⟨s, reachable_exec (.init quiet_init) hs, hpan⟩
  refine ⟨hboth, hpanic, fun hall => ?_⟩
  rcases hboth with ⟨s, hr, h1, h2⟩
  exact absurd ((hall s hr).exclusive true false h1 h2) (by decide)

end Xv6.Log.Mutex
