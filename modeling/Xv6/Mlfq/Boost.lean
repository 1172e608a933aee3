import Xv6.Mlfq.Queue

/-!
# Priority boosting

`priorityBoost` reads the size of each queue once and moves that many entries to
the end of `mlfq[0]`, which for level 0 is a rotation by the whole queue. The
entries come out in the order of the levels, behind the dictator if there is one,
provided that they all have room in one ring.

The loops are described by what has been moved so far (`boostLevels_boosted`), and
`boost_flattens` says what is in the three rings at the end, for a boost with and
without a dictator and for the unlock that puts the dictator in front. Levels,
time quanta and priorities of the processes moved are part of the statement. The
timer that calls `priorityBoost` is a step of `Mlfq.Sched`.
-/

namespace Xv6.Mlfq

open Xv6.Lib

variable {s s' s'' : St} {Q Q' : Nat → List Pidx} {L L' : List Pidx}

/-! ## The entries that have been moved -/

/-- A fresh or boosted process. -/
def Fresh (x : Proc) : Prop := x.qlv = 0 ∧ x.priority = 3 ∧ x.consumed_tq = 0

/-- What `priorityBoost` assigns to the processes in the queues. -/
def boosted (p : Proc) : Proc := { p with qlv := 0, priority := 3, consumed_tq := 0 }

theorem fresh_boosted (p : Proc) : Fresh (boosted p) := ⟨rfl, rfl, rfl⟩

@[simp] theorem boosted_boosted (p : Proc) : boosted (boosted p) = boosted p := rfl

/-- From `s` to `s'` the entries `L` have been moved, and the rings now stand for `Q`. -/
structure Boosted (s s' : St) (Q : Nat → List Pidx) (L : List Pidx) : Prop where
  wf : WfQ s'
  q : s'.q = Q
  rest : s' = { s with
    mlfq := s'.mlfq
    proc := fun y => if y ∈ L then boosted (s.proc y) else s.proc y }

namespace Boosted

theorem proc (h : Boosted s s' Q L) (y : Pidx) :
    s'.proc y = if y ∈ L then boosted (s.proc y) else s.proc y := by rw [h.rest]

theorem fresh (h : Boosted s s' Q L) {y : Pidx} (hy : y ∈ L) : Fresh (s'.proc y) := by
  rw [h.proc, if_pos hy]
  exact fresh_boosted _

theorem refl (hw : WfQ s) : Boosted s s s.q [] := by
  refine ⟨hw, rfl, ?_⟩
  simp

/-- Two moves in a row move both lists. -/
theorem trans (h : Boosted s s' Q L) (h' : Boosted s' s'' Q' L') :
    Boosted s s'' Q' (L ++ L') := by
  refine ⟨h'.wf, h'.q, ?_⟩
  have hr := h'.rest
  rw [h.rest] at hr
  rw [hr]
  congr 1
  funext y
  by_cases hy : y ∈ L <;> by_cases hy' : y ∈ L' <;> simp [hy, hy']

theorem congr (h : Boosted s s' Q L) (hQ : Q = Q') : Boosted s s' Q' L := hQ ▸ h

end Boosted

/-! ## The loops -/

/-- One entry leaves the head of its queue for the end of `mlfq[0]`. -/
theorem boost1_boosted (hw : WfQ s) {lv : Nat} {x : Pidx} {l : List Pidx} (hq : s.q lv = x :: l)
    (hroom : (Function.update s.q lv l 0).length < NPROC) :
    Boosted s (boost1 s lv)
      (Function.update (Function.update s.q lv l) 0 (Function.update s.q lv l 0 ++ [x])) [x] := by
  rcases deQ_queues hw hq with ⟨s1, hd, h1⟩
  have hb : boost1 s lv = (enQ s1 0 x).setProc x boosted := by
    simp only [boost1, hd]
    rfl
  rw [← h1.q] at hroom ⊢
  have h2 := enQ_queues h1.wf hroom x
  rw [hb]
  refine ⟨h2.wf, h2.q, ?_⟩
  rw [(h1.trans h2).rest, St.setProc]
  congr 1
  funext y
  by_cases hy : y = x <;> simp [hy]

/-- Level 0: the entries moved so far are behind those to come. -/
theorem boost_zero (as : List Pidx) :
    ∀ {s : St} {bs : List Pidx}, WfQ s → s.q 0 = as ++ bs →
      Boosted s ((fun s => boost1 s 0)^[as.length] s) (Function.update s.q 0 (bs ++ as)) as := by
  induction as with
  | nil =>
      intro s bs hw hq
      apply (Boosted.refl hw).congr
      rw [List.append_nil, ← List.nil_append bs, ← hq, Function.update_eq_self]
  | cons x as ih =>
      intro s bs hw hq
      have hlen := q_length_le hw 0
      rw [hq] at hlen
      simp only [List.cons_append, List.length_cons, List.length_append] at hlen
      rw [List.cons_append] at hq
      -- the head of level 0 goes behind level 0
      have h1 := boost1_boosted hw hq (by
        rw [Function.update_self, List.length_append]
        omega)
      have hq1 : (boost1 s 0).q 0 = as ++ (bs ++ [x]) := by
        rw [h1.q, Function.update_self, Function.update_self, List.append_assoc]
      have h2 := ih h1.wf hq1
      apply (h1.trans h2).congr
      rw [h1.q, Function.update_idem, Function.update_idem, List.append_assoc,
        List.singleton_append]

/-- Another level is emptied into `mlfq[0]`. -/
theorem boost_succ {lv : Nat} (hne : lv ≠ 0) (as : List Pidx) :
    ∀ {s : St}, WfQ s → s.q lv = as → (s.q 0).length + as.length ≤ NPROC →
      Boosted s ((fun s => boost1 s lv)^[as.length] s)
        (Function.update (Function.update s.q lv []) 0 (s.q 0 ++ as)) as := by
  induction as with
  | nil =>
      intro s hw hq _
      apply (Boosted.refl hw).congr
      rw [← hq, Function.update_eq_self, hq, List.append_nil, Function.update_eq_self]
  | cons x as ih =>
      intro s hw hq hlen
      rw [List.length_cons] at hlen
      -- the head of level `lv` goes behind level 0
      have h1 := boost1_boosted hw hq (by
        rw [Function.update_of_ne hne.symm]
        omega)
      rw [Function.update_of_ne hne.symm] at h1
      have hlv1 : (boost1 s lv).q lv = as := by
        rw [h1.q, Function.update_of_ne hne, Function.update_self]
      have hq0 : (boost1 s lv).q 0 = s.q 0 ++ [x] := by
        rw [h1.q, Function.update_self]
      have h2 := ih h1.wf hlv1 (by
        rw [hq0, List.length_append, List.length_singleton]
        omega)
      apply (h1.trans h2).congr
      rw [hq0, h1.q]
      funext l
      -- the three kinds of level: 0, the one emptied, and the others
      by_cases hl0 : l = 0
      · subst hl0
        simp
      · by_cases hl : l = lv
        · subst hl
          simp [hne]
        · simp [hl, hl0]

theorem boostLevel_zero (hw : WfQ s) : Boosted s (boostLevel s 0) s.q (s.q 0) := by
  have hlen : (s.mlfq 0).size = (s.q 0).length := by rw [St.q, Ring.length_toList]
  have h := boost_zero (s.q 0) hw (List.append_nil _).symm
  rwa [List.nil_append, Function.update_eq_self, ← hlen] at h

/-- Boosting a level other than 0 empties it into level 0. -/
theorem boostLevel_succ (hw : WfQ s) {lv : Nat} (hne : lv ≠ 0)
    (hroom : (s.q 0).length + (s.q lv).length ≤ NPROC) :
    Boosted s (boostLevel s lv)
      (Function.update (Function.update s.q lv []) 0 (s.q 0 ++ s.q lv)) (s.q lv) := by
  have hlen : (s.mlfq lv).size = (s.q lv).length := by rw [St.q, Ring.length_toList]
  have h := boost_succ hne (s.q lv) hw rfl hroom
  rwa [← hlen] at h

/-- The queues after the boosting loop: everything in `mlfq[0]`. -/
def flat (Q : Nat → List Pidx) : Nat → List Pidx :=
  Function.update (Function.update (Function.update Q 1 []) 2 []) 0 (Q 0 ++ Q 1 ++ Q 2)

/-- The three loops, first level 0, then 1, then 2. -/
theorem boostLevels_boosted (hw : WfQ s)
    (hroom : (s.q 0).length + (s.q 1).length + (s.q 2).length ≤ NPROC) :
    Boosted s (boostLevel (boostLevel (boostLevel s 0) 1) 2) (flat s.q)
      (s.q 0 ++ s.q 1 ++ s.q 2) := by
  have h0 := boostLevel_zero hw
  -- level 1 fits behind level 0
  have hroom1 : ((boostLevel s 0).q 0).length + ((boostLevel s 0).q 1).length ≤ NPROC := by
    rw [h0.q]
    omega
  have h1 := boostLevel_succ h0.wf (show 1 ≠ 0 by omega) hroom1
  rw [h0.q] at h1
  have hq0 : (boostLevel (boostLevel s 0) 1).q 0 = s.q 0 ++ s.q 1 := by
    rw [h1.q, Function.update_self]
  have hq2 : (boostLevel (boostLevel s 0) 1).q 2 = s.q 2 := by
    rw [h1.q, Function.update_of_ne (by omega), Function.update_of_ne (by omega)]
  -- and level 2 behind both
  have hroom2 : ((boostLevel (boostLevel s 0) 1).q 0).length +
      ((boostLevel (boostLevel s 0) 1).q 2).length ≤ NPROC := by
    rw [hq0, hq2, List.length_append]
    exact hroom
  have h2 := boostLevel_succ h1.wf (show 2 ≠ 0 by omega) hroom2
  rw [hq0, hq2] at h2
  apply ((h0.trans h1).trans h2).congr
  rw [h1.q, flat]
  funext l
  by_cases hl0 : l = 0
  · simp [hl0]
  · by_cases hl2 : l = 2 <;> simp [hl0, hl2]

/-! ## The two ways a dictatorship ends in front of `mlfq[0]` -/

/-- What `priorityBoost` leaves: `front`, then the queues of `s`. -/
structure Flattened (s s' : St) (front : List Pidx) : Prop where
  wf : WfQ s'
  zero : s'.q 0 = front ++ s.q 0 ++ s.q 1 ++ s.q 2
  one : s'.q 1 = []
  two : s'.q 2 = []
  free : s'.is_dictated = false ∧ s'.scheduler_dictator = none
  moved : ∀ y ∈ s'.q 0, s'.proc y = { s.proc y with qlv := 0, priority := 3, consumed_tq := 0 }
  others : ∀ y, y ∉ s'.q 0 → s'.proc y = s.proc y

/-- Whatever has been put in front of level 0 before the loops ends up in front. -/
theorem flattened_of_loops {front : List Pidx}
    (h : Queues s s' (Function.update s.q 0 (front ++ s.q 0)))
    (hfree : s'.is_dictated = false ∧ s'.scheduler_dictator = none)
    (hroom : front.length + (s.q 0).length + (s.q 1).length + (s.q 2).length ≤ NPROC) :
    Flattened s (boostLevel (boostLevel (boostLevel s' 0) 1) 2) front := by
  -- the loops start with the dictator at the front of level 0
  have hq0 : s'.q 0 = front ++ s.q 0 := by rw [h.q, Function.update_self]
  have hq1 : s'.q 1 = s.q 1 := by rw [h.q, Function.update_of_ne (by omega)]
  have hq2 : s'.q 2 = s.q 2 := by rw [h.q, Function.update_of_ne (by omega)]
  have hb := boostLevels_boosted h.wf (by
    rw [hq0, hq1, hq2, List.length_append]
    exact hroom)
  have hzero : (boostLevel (boostLevel (boostLevel s' 0) 1) 2).q 0 =
      s'.q 0 ++ s'.q 1 ++ s'.q 2 := by rw [hb.q, flat, Function.update_self]
  constructor
  · exact hb.wf
  · rw [hzero, hq0, hq1, hq2]
  · rw [hb.q]
    rfl
  · rw [hb.q]
    rfl
  · rw [hb.rest]
    exact hfree
  -- every process of the three levels is boosted
  · intro y hy
    rw [hzero] at hy
    rw [hb.proc, if_pos hy, h.proc]
    rfl
  · intro y hy
    rw [hzero] at hy
    rw [hb.proc, if_neg hy, h.proc]

/-- The whole boost, with the dictator in front if there is one. -/
theorem priorityBoost_flattened (hw : WfQ s) (hd : s.is_dictated = s.scheduler_dictator.isSome)
    (hroom : s.scheduler_dictator.toList.length + (s.q 0).length + (s.q 1).length +
      (s.q 2).length ≤ NPROC) :
    Flattened s (priorityBoost s) s.scheduler_dictator.toList := by
  cases hdict : s.scheduler_dictator with
  | none =>
      rw [hdict] at hd hroom
      have hf : s.is_dictated = false := hd
      have hb : priorityBoost s = boostLevel (boostLevel (boostLevel s 0) 1) 2 := by
        simp [priorityBoost, hf]
      rw [hb]
      apply flattened_of_loops
      · apply (Queues.refl hw).congr
        simp
      · exact ⟨hf, hdict⟩
      · exact hroom
  | some d =>
      rw [hdict] at hd hroom
      have hf : s.is_dictated = true := hd
      simp only [Option.toList_some, List.length_singleton] at hroom ⊢
      -- the dictator goes to the front, and the dictatorship is over before the loops
      have hq := (enQFront_queues hw (by omega) d).undictate
      have hb : priorityBoost s = boostLevel (boostLevel (boostLevel
          { enQFront s d with is_dictated := false, scheduler_dictator := none } 0) 1) 2 := by
        simp [priorityBoost, hf, hdict]
      rw [hb]
      have hflat := @flattened_of_loops _ _ [d] hq ⟨rfl, rfl⟩ hroom
      exact ⟨hflat.wf, hflat.zero, hflat.one, hflat.two, hflat.free, hflat.moved, hflat.others⟩

/-- `schedulerUnlock` by the dictator. -/
theorem schedulerUnlock_front (hw : WfQ s) (hroom : (s.q 0).length < NPROC) {d : Pidx}
    (hf : s.is_dictated = true) (hd : s.scheduler_dictator = some d) :
    ∃ s', schedulerUnlock s d PASSWORD = some s' ∧ WfQ s' ∧
      s'.q = Function.update s.q 0 (d :: s.q 0) := by
  have hw1 : WfQ (s.setProc d boosted) := hw
  have hq := (enQFront_queues hw1 hroom d).undictate
  refine ⟨{ enQFront (s.setProc d boosted) d with
    scheduler_dictator := none, is_dictated := false }, ?_, hq.wf, hq.q⟩
  have hn : ¬ (¬ s.is_dictated = true ∨ s.scheduler_dictator ≠ some d) := by
    rintro (h | h)
    · exact h hf
    · exact h hd
  simp only [schedulerUnlock, ne_eq, not_true_eq_false, if_false, if_neg hn]
  rfl

/-- **Boosting flattens the queues in order**: the dictator if there is one, then
the three queues level by level, all of them fresh; and the dictator that gives up
goes before the others. -/
theorem boost_flattens (hw : WfQ s) (hd : s.is_dictated = s.scheduler_dictator.isSome)
    (hroom : s.scheduler_dictator.toList.length + (s.q 0).length + (s.q 1).length +
      (s.q 2).length ≤ NPROC) :
    Flattened s (priorityBoost s) s.scheduler_dictator.toList ∧
      ∀ d, s.scheduler_dictator = some d →
        ∃ s', schedulerUnlock s d PASSWORD = some s' ∧ WfQ s' ∧
          s'.q = Function.update s.q 0 (d :: s.q 0) := by
  refine ⟨priorityBoost_flattened hw hd hroom, ?_⟩
  intro d hdict
  rw [hdict] at hd hroom
  apply schedulerUnlock_front hw _ hd hdict
  simp only [Option.toList_some, List.length_singleton] at hroom
  omega

/-- Slot 1 dictates, `mlfq[0]` lies across the end of its ring, and level 2 has an entry. -/
def lockedOut : St :=
  enQ { boot with
    mlfq := Function.update boot.mlfq 0
      ⟨fun i => if i = 63 then ⟨3, by decide⟩ else ⟨4, by decide⟩, 63, 1, 2⟩
    is_dictated := true
    scheduler_dictator := some ⟨1, by decide⟩ } 2 ⟨5, by decide⟩

/-- A boost that ends a dictatorship. -/
theorem boost_flattens_lockedOut :
    (priorityBoost lockedOut).q 0 =
      [⟨1, by decide⟩, ⟨3, by decide⟩, ⟨4, by decide⟩, ⟨5, by decide⟩] := by
  have hw : WfQ lockedOut := by
    intro lv
    by_cases h2 : lv = 2
    · subst h2
      constructor <;> decide
    · by_cases h0 : lv = 0
      · subst h0
        constructor <;> decide
      · have hb : lockedOut.mlfq lv = boot.mlfq lv := by simp [lockedOut, enQ, h2, h0]
        rw [hb]
        exact ⟨by show 0 < NPROC; decide, rfl, by show 0 ≤ NPROC; decide⟩
  rw [(boost_flattens hw rfl (by decide)).1.zero]
  decide

end Xv6.Mlfq
