import Xv6.Mlfq.Queue

/-!
# What the scheduler picks

`pickProc` rotates its ring in place. Read on the queue that the ring stands for:
the entry it returns is fixed by the states and priorities in the queue
(`Picks`), the entries behind it come to the front, and a search in vain has
gone once round. `scheduler()` then takes the lowest level that has an entry to
give.

* `picks_lowest`: `pickProc` takes that entry and keeps the order of the others,
  whatever place the ring starts at, and a pass of `scheduler()` dispatches from
  the lowest level that has one;
* `bound_unbeaten`: at level 2 an entry whose priority does not beat `USELESS`,
  the bound that the search starts from, is never taken.

The passes are those without a dictator. No system call stores a priority as
large as `USELESS`.
-/

namespace Xv6.Mlfq

open Xv6.Lib

variable {s : St}

/-! ## One level -/

/-- What `pickProc(lv)` owes to its callers. -/
structure PicksRight (s : St) (lv : Nat) : Prop where
  /-- the entry is taken out, what was behind it goes before what was ahead of it -/
  taken : ∀ pre x post, Picks s lv pre x post →
    ∃ s', pickProc s lv = (some x, s') ∧ Queues s s' (Function.update s.q lv (post ++ pre))
  /-- nothing is returned only when there is nothing to return -/
  found : (∃ y ∈ s.q lv, Eligible s lv y) → ∃ pre x post, Picks s lv pre x post
  /-- a search in vain leaves the queue as it was -/
  vain : (∀ y ∈ s.q lv, ¬ Eligible s lv y) →
    ∃ s', pickProc s lv = (none, s') ∧ Queues s s' s.q

theorem Picks.not_vain {lv : Nat} {pre post : List Pidx} {x : Pidx} (h : Picks s lv pre x post)
    (hn : ∀ y ∈ s.q lv, ¬ Eligible s lv y) : False := by
  apply hn x _ h.eligible
  rw [h.q]
  simp

/-- `pickProc` of any level keeps what it owes. -/
theorem pickProc_right (hw : WfQ s) (lv : Nat) : PicksRight s lv := by
  rcases pickProc_picks hw lv with ⟨s', hp, hq, hn⟩ | ⟨x, pre, post, s', hx, hp, hq⟩
  · constructor
    · intro pre x post hx
      exact (hx.not_vain hn).elim
    · rintro ⟨y, hy, he⟩
      exact (hn y hy he).elim
    · intro _
      exact ⟨s', hp, hq⟩
  · constructor
    · intro pre' x' post' hx'
      rcases hx.unique hx' with ⟨rfl, rfl, rfl⟩
      exact ⟨s', hp, hq⟩
    · intro _
      exact ⟨pre, x, post, hx⟩
    · intro hn
      exact (hx.not_vain hn).elim

/-! ## The scheduler -/

/-- One pass of a `scheduler()` that is not dictated. -/
structure DispatchesLowest (s : St) : Prop where
  lowest : ∀ lv ≤ 2, (∀ l < lv, ∀ y ∈ s.q l, ¬ Eligible s l y) →
    ∀ pre x post, Picks s lv pre x post →
      ∃ s', schedule s = some s' ∧ s'.cpu = some (x, lv) ∧ (s'.proc x).state = .RUNNING ∧
        s'.q = Function.update s.q lv (post ++ pre)
  idle : (∀ lv ≤ 2, ∀ y ∈ s.q lv, ¬ Eligible s lv y) →
    ∃ s', schedule s = some s' ∧ Queues s s' s.q

/-- A pass of the scheduler takes an entry of the lowest level that has a RUNNABLE one. -/
theorem schedule_lowest (hw : WfQ s) (hd : s.is_dictated = false) : DispatchesLowest s := by
  rcases pickLevel_picks hw with ⟨s', hp, hq, hn⟩ | ⟨x, lv, pre, post, s', hlv, hlow, hx, hp, hq⟩
  · constructor
    · intro lv hlv _ pre x post hx
      exact (hx.not_vain (hn lv hlv)).elim
    · intro _
      exact ⟨s', by simp [schedule, hd, hp], hq⟩
  · constructor
    · intro lv' hlv' hlow' pre' x' post' hx'
      -- two lowest levels are the same one
      have hle : lv' ≤ lv := by
        by_contra hlt
        exact hx.not_vain (hlow' lv (by omega))
      have hge : lv ≤ lv' := by
        by_contra hlt
        exact hx'.not_vain (hlow lv' (by omega))
      obtain rfl : lv = lv' := by omega
      rcases hx.unique hx' with ⟨rfl, rfl, rfl⟩
      refine ⟨dispatch s' x lv, by simp [schedule, hd, hp], rfl, by simp [dispatch, St.setProc], ?_⟩
      exact hq.q
    · intro hn
      exact (hx.not_vain (hn lv hlv)).elim

/-- **`pickProc` takes the right entry and keeps the order of the others**, at any
place in the ring and for any states and priorities, and an undictated
`scheduler()` takes the lowest level with an entry to give. -/
theorem picks_lowest (hw : WfQ s) :
    (∀ lv ≤ 2, PicksRight s lv) ∧ (s.is_dictated = false → DispatchesLowest s) := by
  constructor
  · intro lv _
    exact pickProc_right hw lv
  · intro hd
    exact schedule_lowest hw hd

/-- The other rings are still empty. -/
theorem WfQ.of_level {lv : Nat} (h : (s.mlfq lv).Wf) (hb : ∀ l, l ≠ lv → s.mlfq l = boot.mlfq l) :
    WfQ s := by
  intro l
  by_cases hl : l = lv
  · subst hl
    exact h
  · rw [hb l hl]
    exact ⟨by show 0 < NPROC; decide, rfl, by show 0 ≤ NPROC; decide⟩

theorem five_lt : 5 < NPROC := by decide

theorem six_lt : 6 < NPROC := by decide

theorem seven_lt : 7 < NPROC := by decide

/-- Three entries of level 2 across the end of the ring: slot 5 asleep, slots 6 and
7 RUNNABLE with one priority. -/
def wrapped : St :=
  { boot with
    proc := fun p => { boot.proc p with
      state := if p = ⟨5, five_lt⟩ then .SLEEPING else .RUNNABLE, priority := 2 }
    mlfq := Function.update boot.mlfq 2
      ⟨fun i => if i = 63 then ⟨5, five_lt⟩ else if i = 0 then ⟨6, six_lt⟩ else ⟨7, seven_lt⟩,
        63, 2, 3⟩ }

/-- A level 2 whose ring has wrapped around: the second of three entries is picked, and the
others keep their order behind it. -/
theorem picks_lowest_wrapped :
    (pickProc wrapped 2).1 = some ⟨6, by decide⟩ ∧
      (pickProc wrapped 2).2.q 2 = [⟨7, by decide⟩, ⟨5, by decide⟩] := by
  have hw : WfQ wrapped := by
    apply @WfQ.of_level _ 2
    · constructor <;> decide
    · intro l hl
      simp [wrapped, hl]
  have hx : Picks wrapped 2 [⟨5, by decide⟩] ⟨6, by decide⟩ [⟨7, by decide⟩] := by
    constructor <;> first | decide | exact ⟨by decide, by decide⟩
  rcases ((picks_lowest hw).1 2 (by decide)).taken _ _ _ hx with ⟨s', hp, hq⟩
  rw [hp]
  exact ⟨rfl, by rw [hq.q, Function.update_self]; rfl⟩

/-- Slot 0 alone at level 2, RUNNABLE with the priority the search starts from. -/
def unbeaten : St :=
  enQ { boot with proc := fun p => { boot.proc p with state := .RUNNABLE, priority := 200 } } 2
    boot.initproc

/-- A RUNNABLE entry of level 2 that does not beat the bound is never picked. -/
theorem bound_unbeaten : ¬ ∀ s : St, WfQ s → ∀ pre x post, s.q 2 = pre ++ x :: post →
    (s.proc x).state = .RUNNABLE →
    (∀ y ∈ pre, (s.proc y).state = .RUNNABLE → (s.proc x).priority < (s.proc y).priority) →
    (∀ y ∈ post, (s.proc y).state = .RUNNABLE → (s.proc x).priority ≤ (s.proc y).priority) →
    (pickProc s 2).1 = some x := by
  intro hall
  have hw : WfQ unbeaten := by
    apply @WfQ.of_level _ 2
    · constructor <;> decide
    · intro l hl
      simp [unbeaten, enQ, hl]
  have hpick := hall unbeaten hw [] ⟨0, by decide⟩ [] (by decide) (by decide) (by simp) (by simp)
  have hnone : (pickProc unbeaten 2).1 = none := by decide
  rw [hnone] at hpick
  cases hpick

end Xv6.Mlfq
