import Mathlib.Data.List.Rotate
import Mathlib.Logic.Function.Iterate
import Mathlib.Tactic.Common
import Xv6.Mlfq.Sched

/-!
# What the queue operations do

Each operation of `Mlfq.Proc` on the rings, described on the queues they stand
for. `Queues s s' Q` says that an operation took `s` to `s'` with the queues `Q`,
changing nothing but the rings and overwriting no live entry.

The descriptions need rings that are well formed; the ones that enqueue need room
as well. Nothing later in the development looks at `front` and `back` again,
except where a ring is overfull.

* `Queues.picks`, `pickLevel_picks`: `pickProc` on one ring and on the three;
* `findPid_cases`, `findPidLevels_cases`: the search for a pid, which rotates the
  ring it stops in.
-/

namespace Xv6.Mlfq

open Xv6.Lib

/-- All rings are well formed. -/
def WfQ (s : St) : Prop := ∀ lv, (s.mlfq lv).Wf

/-- From `s` to `s'` only the rings changed, and they now stand for `Q`. -/
structure Queues (s s' : St) (Q : Nat → List Pidx) : Prop where
  wf : WfQ s'
  q : s'.q = Q
  rest : s' = { s with mlfq := s'.mlfq }

namespace Queues

variable {s s' s'' : St} {Q Q' : Nat → List Pidx}

theorem refl (hw : WfQ s) : Queues s s s.q := ⟨hw, rfl, rfl⟩

theorem trans (h : Queues s s' Q) (h' : Queues s' s'' Q') : Queues s s'' Q' := by
  refine ⟨h'.wf, h'.q, ?_⟩
  have hr := h'.rest
  rw [h.rest] at hr
  exact hr

theorem proc (h : Queues s s' Q) : s'.proc = s.proc := by rw [h.rest]
theorem kont (h : Queues s s' Q) : s'.kont = s.kont := by rw [h.rest]
theorem dictator (h : Queues s s' Q) : s'.scheduler_dictator = s.scheduler_dictator := by
  rw [h.rest]
theorem is_dictated (h : Queues s s' Q) : s'.is_dictated = s.is_dictated := by rw [h.rest]
theorem cpu (h : Queues s s' Q) : s'.cpu = s.cpu := by rw [h.rest]
theorem overwrote (h : Queues s s' Q) : s'.overwrote = s.overwrote := by rw [h.rest]

theorem congr (h : Queues s s' Q) (hQ : Q = Q') : Queues s s' Q' := hQ ▸ h

end Queues

theorem q_length_le {s : St} (hw : WfQ s) (lv : Nat) : (s.q lv).length ≤ NPROC := by
  rw [St.q, Ring.length_toList]
  exact (hw lv).size_le

/-! ## One entry in or out -/

/-- `enQ` into a ring that is not full appends the entry. -/
theorem enQ_queues {s : St} (hw : WfQ s) {lv : Nat} (hroom : (s.q lv).length < NPROC)
    (idx : Pidx) : Queues s (enQ s lv idx) (Function.update s.q lv (s.q lv ++ [idx])) := by
  rw [St.q, Ring.length_toList] at hroom
  refine ⟨?_, ?_, ?_⟩
  · intro l
    by_cases hl : l = lv
    · subst hl
      simpa [enQ] using Ring.wf_push (hw l) hroom idx
    · simpa [enQ, hl] using hw l
  · funext l
    by_cases hl : l = lv
    · subst hl
      simpa [enQ, St.q] using Ring.toList_push (hw l) hroom idx
    · simp [enQ, St.q, hl]
  · have hno : (decide (NPROC ≤ (s.mlfq lv).size)) = false := by simpa using hroom
    simp [enQ, hno]

/-- `deQ` takes the first entry. -/
theorem deQ_queues {s : St} (hw : WfQ s) {lv : Nat} {x : Pidx} {l : List Pidx}
    (hq : s.q lv = x :: l) :
    ∃ s', deQ s lv = (some x, s') ∧ Queues s s' (Function.update s.q lv l) := by
  rcases Ring.pop_of_toList_cons (hw lv) hq with ⟨r, hp, hwr, hr⟩
  refine ⟨_, by simp [deQ, hp]; rfl, ?_, ?_, rfl⟩
  · intro l'
    by_cases hl : l' = lv
    · subst hl
      simpa using hwr
    · simpa [hl] using hw l'
  · funext l'
    by_cases hl : l' = lv
    · subst hl
      simpa [St.q] using hr
    · simp [St.q, hl]

/-! ## Rotation -/

/-- A `deQ` and an `enQ` of the same entry rotate the queue by one. -/
theorem rotate1_queues {s : St} (hw : WfQ s) {lv : Nat} {x : Pidx} {l : List Pidx}
    (hq : s.q lv = x :: l) : Queues s (rotate1 s lv) (Function.update s.q lv (l ++ [x])) := by
  rcases deQ_queues hw hq with ⟨s1, hd, h1⟩
  have hlen : l.length + 1 ≤ NPROC := by simpa [hq] using q_length_le hw lv
  have hq1 : s1.q lv = l := by rw [h1.q, Function.update_self]
  have hroom : (s1.q lv).length < NPROC := by rw [hq1]; omega
  have h2 := enQ_queues h1.wf hroom x
  have hrot : rotate1 s lv = enQ s1 lv x := by simp [rotate1, hd]
  rw [hrot]
  refine (h1.trans h2).congr ?_
  rw [hq1, h1.q, Function.update_idem]

/-- The loops of `pickProc` and `setPriority` look at the head before they put
it back behind the others. -/
theorem deQ_enQ_queues {s : St} (hw : WfQ s) {lv : Nat} {x : Pidx} {l : List Pidx}
    (hq : s.q lv = x :: l) :
    ∃ s1, deQ s lv = (some x, s1) ∧ s1.proc = s.proc ∧
      Queues s (enQ s1 lv x) (Function.update s.q lv (l ++ [x])) := by
  rcases deQ_queues hw hq with ⟨s1, hd, h1⟩
  have hrot := rotate1_queues hw hq
  have heq : rotate1 s lv = enQ s1 lv x := by simp [rotate1, hd]
  rw [heq] at hrot
  exact ⟨s1, hd, h1.proc, hrot⟩

/-- Rotating past the entries `as` puts them behind the others. -/
theorem rotate_queues {lv : Nat} (as : List Pidx) :
    ∀ {s : St} {bs : List Pidx}, WfQ s → s.q lv = as ++ bs →
      Queues s ((fun s => rotate1 s lv)^[as.length] s) (Function.update s.q lv (bs ++ as)) := by
  induction as with
  | nil =>
      intro s bs hw hq
      refine (Queues.refl hw).congr ?_
      rw [List.append_nil, ← List.nil_append bs, ← hq, Function.update_eq_self]
  | cons x as ih =>
      intro s bs hw hq
      rw [List.cons_append] at hq
      have h1 := rotate1_queues hw hq
      have hq1 : (rotate1 s lv).q lv = as ++ (bs ++ [x]) := by
        rw [h1.q, Function.update_self, List.append_assoc]
      have h2 := ih h1.wf hq1
      refine (h1.trans h2).congr ?_
      rw [h1.q, Function.update_idem, List.append_assoc, List.singleton_append]

/-- `enQFront` puts its argument before the entries of `mlfq[0]`. -/
theorem enQFront_queues {s : St} (hw : WfQ s) (hroom : (s.q 0).length < NPROC) (d : Pidx) :
    Queues s (enQFront s d) (Function.update s.q 0 (d :: s.q 0)) := by
  have h1 := enQ_queues hw hroom d
  have hlen : (s.mlfq 0).size = (s.q 0).length := by rw [St.q, Ring.length_toList]
  have hq1 : (enQ s 0 d).q 0 = s.q 0 ++ [d] := by rw [h1.q, Function.update_self]
  have h2 := rotate_queues (s.q 0) h1.wf hq1
  have h3 := h1.trans h2
  rw [h1.q, Function.update_idem] at h3
  rw [enQFront, hlen]
  exact h3

/-- Ending a dictatorship does not concern the rings. -/
theorem Queues.undictate {s s' : St} {Q : Nat → List Pidx} (h : Queues s s' Q) :
    Queues { s with is_dictated := false, scheduler_dictator := none }
      { s' with is_dictated := false, scheduler_dictator := none } Q := by
  refine ⟨h.wf, h.q, ?_⟩
  have hr := h.rest
  rw [hr]

/-! ## pickProc -/

/-- Levels 0 and 1: the first RUNNABLE entry leaves, the ones ahead of it go
behind the ones after it. -/
theorem pickFirst_some {lv : Nat} {x : Pidx} (pre : List Pidx) :
    ∀ {s : St} {post : List Pidx} {n : Nat}, WfQ s → s.q lv = pre ++ x :: post →
      pre.length < n → (∀ y ∈ pre, (s.proc y).state ≠ .RUNNABLE) →
      (s.proc x).state = .RUNNABLE →
      ∃ s', pickFirst s lv n = (some x, s') ∧
        Queues s s' (Function.update s.q lv (post ++ pre)) := by
  induction pre with
  | nil =>
      intro s post n hw hq hn _ hx
      obtain ⟨m, rfl⟩ : ∃ m, n = m + 1 := ⟨n - 1, by simp at hn; omega⟩
      rcases deQ_queues hw hq with ⟨s1, hd, h1⟩
      refine ⟨s1, ?_, by simpa using h1⟩
      simp [pickFirst, hd, h1.proc, hx]
  | cons y pre ih =>
      intro s post n hw hq hn hpre hx
      obtain ⟨m, rfl⟩ : ∃ m, n = m + 1 := ⟨n - 1, by simp at hn; omega⟩
      rw [List.cons_append] at hq
      rcases deQ_enQ_queues hw hq with ⟨s1, hd, hp1, hrot⟩
      have hy : (s.proc y).state ≠ .RUNNABLE := hpre y (by simp)
      -- the entry goes back behind the others, so the search goes on in a rotated queue
      have hq2 : (enQ s1 lv y).q lv = pre ++ x :: (post ++ [y]) := by
        rw [hrot.q, Function.update_self]
        simp
      obtain ⟨s2, hp, h2⟩ := ih (n := m) hrot.wf hq2 (by simpa using hn)
        (fun z hz => by rw [hrot.proc]; exact hpre z (by simp [hz])) (by rw [hrot.proc]; exact hx)
      refine ⟨s2, ?_, ?_⟩
      · simp [pickFirst, hd, hp1, hy, hp]
      · refine (hrot.trans h2).congr ?_
        rw [hrot.q, Function.update_idem]
        simp

/-- Levels 0 and 1: with nothing to run the queue has gone round. -/
theorem pickFirst_none {lv : Nat} (as : List Pidx) :
    ∀ {s : St} {bs : List Pidx}, WfQ s → s.q lv = as ++ bs →
      (∀ y ∈ as, (s.proc y).state ≠ .RUNNABLE) →
      ∃ s', pickFirst s lv as.length = (none, s') ∧
        Queues s s' (Function.update s.q lv (bs ++ as)) := by
  induction as with
  | nil =>
      intro s bs hw hq _
      refine ⟨s, rfl, (Queues.refl hw).congr ?_⟩
      rw [List.append_nil, ← List.nil_append bs, ← hq, Function.update_eq_self]
  | cons y as ih =>
      intro s bs hw hq hall
      rw [List.cons_append] at hq
      -- the entry in front cannot run, so it goes to the back
      rcases deQ_enQ_queues hw hq with ⟨s1, hd, hp1, hrot⟩
      have hy : (s.proc y).state ≠ .RUNNABLE := hall y (by simp)
      have hq2 : (enQ s1 lv y).q lv = as ++ (bs ++ [y]) := by
        rw [hrot.q, Function.update_self, List.append_assoc]
      -- the rest of the ring is tried from there
      obtain ⟨s2, hp, h2⟩ := ih hrot.wf hq2
        (fun z hz => by rw [hrot.proc]; exact hall z (by simp [hz]))
      refine ⟨s2, ?_, ?_⟩
      · simp [pickFirst, hd, hp1, hy, hp]
      · refine (hrot.trans h2).congr ?_
        rw [hrot.q, Function.update_idem]
        simp

/-- The search of level 2 on the queue itself: the best priority of a RUNNABLE
entry and the round in which it was first seen. -/
def scanList (s : St) : List Pidx → Nat → Int × Nat → Int × Nat
  | [], _, best => best
  | x :: l, i, best =>
      if (s.proc x).state = .RUNNABLE ∧ best.1 > (s.proc x).priority then
        scanList s l (i + 1) ((s.proc x).priority, i)
      else scanList s l (i + 1) best

/-- The loop over level 2 goes once around the queue, and finds what the scan of the list
finds. By induction on the entries that are left. -/
theorem scanPriority_queues {lv : Nat} (as : List Pidx) :
    ∀ {s : St} {bs : List Pidx} (i : Nat) (best : Int × Nat), WfQ s → s.q lv = as ++ bs →
      ∃ s', scanPriority s lv as.length i best = (scanList s as i best, s') ∧
        Queues s s' (Function.update s.q lv (bs ++ as)) := by
  induction as with
  | nil =>
      intro s bs i best hw hq
      refine ⟨s, rfl, (Queues.refl hw).congr ?_⟩
      rw [List.append_nil, ← List.nil_append bs, ← hq, Function.update_eq_self]
  | cons y as ih =>
      intro s bs i best hw hq
      rw [List.cons_append] at hq
      rcases deQ_enQ_queues hw hq with ⟨s1, hd, hp1, hrot⟩
      have hq2 : (enQ s1 lv y).q lv = as ++ (bs ++ [y]) := by
        rw [hrot.q, Function.update_self, List.append_assoc]
      have hscan : ∀ i best, scanList (enQ s1 lv y) as i best = scanList s as i best := by
        intro i best
        generalize hl : as = l
        clear hq hq2 ih hl
        induction l generalizing i best with
        | nil => rfl
        | cons z l ih => simp [scanList, hrot.proc, ih]
      -- the two ways to go on differ only in the best priority carried along
      have hgo : ∀ best', ∃ s', scanPriority (enQ s1 lv y) lv as.length (i + 1) best' =
          (scanList s as (i + 1) best', s') ∧
          Queues s s' (Function.update s.q lv (bs ++ y :: as)) := by
        intro best'
        rcases ih (i + 1) best' hrot.wf hq2 with ⟨s2, hp, h2⟩
        refine ⟨s2, by rw [hp, hscan], (hrot.trans h2).congr ?_⟩
        rw [hrot.q, Function.update_idem]
        simp
      by_cases hrun : (s.proc y).state = .RUNNABLE
      · by_cases hbest : best.1 > (s.proc y).priority
        · rcases hgo ((s.proc y).priority, i) with ⟨s2, hp, h2⟩
          exact ⟨s2, by simp [scanPriority, scanList, hd, hrot.proc, hrun, hbest, hp], h2⟩
        · rcases hgo best with ⟨s2, hp, h2⟩
          exact ⟨s2, by simp [scanPriority, scanList, hd, hrot.proc, hrun, hbest, hp], h2⟩
      · rcases hgo best with ⟨s2, hp, h2⟩
        exact ⟨s2, by simp [scanPriority, scanList, hd, hrot.proc, hrun, hp], h2⟩

/-- What the search of level 2 finds: an entry of the list, the first of those
with the least priority value, unless nothing beats the bound it starts from. -/
theorem scanList_cases (s : St) (l : List Pidx) : ∀ (i : Nat) (best : Int × Nat),
    (scanList s l i best = best ∧
      ∀ y ∈ l, (s.proc y).state = .RUNNABLE → best.1 ≤ (s.proc y).priority) ∨
    ∃ pre x post, l = pre ++ x :: post ∧ (s.proc x).state = .RUNNABLE ∧
      (s.proc x).priority < best.1 ∧ scanList s l i best = ((s.proc x).priority, i + pre.length) ∧
      (∀ y ∈ pre, (s.proc y).state = .RUNNABLE → (s.proc x).priority < (s.proc y).priority) ∧
      ∀ y ∈ post, (s.proc y).state = .RUNNABLE → (s.proc x).priority ≤ (s.proc y).priority := by
  induction l with
  | nil =>
      intro i best
      exact Or.inl ⟨rfl, by simp⟩
  | cons z l ih =>
      intro i best
      by_cases hz : (s.proc z).state = .RUNNABLE ∧ best.1 > (s.proc z).priority
      · -- `z` is the new best; either it stays so or a later entry beats it
        have hstep : scanList s (z :: l) i best =
            scanList s l (i + 1) ((s.proc z).priority, i) := by simp [scanList, hz]
        rcases ih (i + 1) ((s.proc z).priority, i) with ⟨heq, hall⟩ | ⟨pre, x, post, hl, hx, hlt,
            heq, hpre, hpost⟩
        · refine Or.inr ⟨[], z, l, rfl, hz.1, hz.2, by simp [hstep, heq], by simp, hall⟩
        · refine Or.inr ⟨z :: pre, x, post, by simp [hl], hx, lt_trans hlt hz.2, ?_, ?_, hpost⟩
          · rw [hstep, heq]
            simp only [List.length_cons, Prod.mk.injEq, true_and]
            omega
          · intro y hy hyr
            rcases List.mem_cons.1 hy with rfl | hy
            · exact hlt
            · exact hpre y hy hyr
      -- `z` is no better than the best so far
      · have hstep : scanList s (z :: l) i best = scanList s l (i + 1) best := by
          simp only [scanList, if_neg hz]
        have hzle : (s.proc z).state = .RUNNABLE → best.1 ≤ (s.proc z).priority := by
          intro hr
          by_contra hlt
          exact hz ⟨hr, by omega⟩
        rcases ih (i + 1) best with ⟨heq, hall⟩ | ⟨pre, x, post, hl, hx, hlt, heq, hpre, hpost⟩
        · refine Or.inl ⟨by rw [hstep, heq], ?_⟩
          intro y hy hyr
          rcases List.mem_cons.1 hy with rfl | hy
          · exact hzle hyr
          · exact hall y hy hyr
        · refine Or.inr ⟨z :: pre, x, post, by simp [hl], hx, hlt, ?_, ?_, hpost⟩
          · rw [hstep, heq]
            simp only [List.length_cons, Prod.mk.injEq, true_and]
            omega
          · intro y hy hyr
            rcases List.mem_cons.1 hy with rfl | hy
            · exact lt_of_lt_of_le hlt (hzle hyr)
            · exact hpre y hy hyr

/-- Taking the entry behind `pre` leaves the queue rotated to just after it. -/
theorem takeNth_queues {s : St} (hw : WfQ s) {lv : Nat} {pre post : List Pidx} {x : Pidx}
    (hq : s.q lv = pre ++ x :: post) :
    ∃ s', takeNth s lv pre.length = (some x, s') ∧
      Queues s s' (Function.update s.q lv (post ++ pre)) := by
  have h1 := rotate_queues pre hw hq
  have hq1 : ((fun s => rotate1 s lv)^[pre.length] s).q lv = x :: (post ++ pre) := by
    rw [h1.q, Function.update_self, List.cons_append]
  rcases deQ_queues h1.wf hq1 with ⟨s2, hd, h2⟩
  refine ⟨s2, hd, (h1.trans h2).congr ?_⟩
  rw [h1.q, Function.update_idem]

/-- An entry that `pickProc(lv)` may return. At level 2 only a priority below the
bound of the search is looked at. -/
def Eligible (s : St) (lv : Nat) (y : Pidx) : Prop :=
  (s.proc y).state = .RUNNABLE ∧ (lv = 2 → (s.proc y).priority < USELESS)

/-- The queue of level `lv` is `pre`, then the entry `x` to be picked, then `post`:
the first RUNNABLE one at levels 0 and 1, the first of those with the least
priority value at level 2. -/
structure Picks (s : St) (lv : Nat) (pre : List Pidx) (x : Pidx) (post : List Pidx) : Prop where
  q : s.q lv = pre ++ x :: post
  eligible : Eligible s lv x
  first : lv ≠ 2 → ∀ y ∈ pre, (s.proc y).state ≠ .RUNNABLE
  before : lv = 2 → ∀ y ∈ pre, (s.proc y).state = .RUNNABLE →
    (s.proc x).priority < (s.proc y).priority
  after : lv = 2 → ∀ y ∈ post, (s.proc y).state = .RUNNABLE →
    (s.proc x).priority ≤ (s.proc y).priority

/-- Of two picks of one queue, the one found earlier is not ahead of the other. -/
theorem Picks.not_ahead {s : St} {lv : Nat} {pre pre' post post' c : List Pidx} {x x' : Pidx}
    (h : Picks s lv pre x post) (h' : Picks s lv pre' x' post') (hpre : pre' = pre ++ x :: c)
    (hpost : post = c ++ x' :: post') : False := by
  have hx : x ∈ pre' := by simp [hpre]
  have hx' : x' ∈ post := by simp [hpost]
  by_cases hlv : lv = 2
  · have hlt := h'.before hlv x hx h.eligible.1
    have hle := h.after hlv x' hx' h'.eligible.1
    omega
  · exact h'.first hlv x hx h.eligible.1

/-- A queue has at most one entry to be picked. -/
theorem Picks.unique {s : St} {lv : Nat} {pre pre' post post' : List Pidx} {x x' : Pidx}
    (h : Picks s lv pre x post) (h' : Picks s lv pre' x' post') :
    pre = pre' ∧ x = x' ∧ post = post' := by
  have heq : pre ++ x :: post = pre' ++ x' :: post' := by rw [← h.q, h'.q]
  rcases List.append_eq_append_iff.1 heq with ⟨c, hpre, hx⟩ | ⟨c, hpre, hx⟩
  · cases c with
    | nil =>
        simp only [List.nil_append, List.cons.injEq] at hx
        exact ⟨by simpa using hpre.symm, hx.1, hx.2⟩
    | cons z c =>
        simp only [List.cons_append, List.cons.injEq] at hx
        rcases hx with ⟨rfl, hpost⟩
        exact (h.not_ahead h' hpre hpost).elim
  · cases c with
    | nil =>
        simp only [List.nil_append, List.cons.injEq] at hx
        exact ⟨by simpa using hpre, hx.1.symm, hx.2.symm⟩
    | cons z c =>
        simp only [List.cons_append, List.cons.injEq] at hx
        rcases hx with ⟨rfl, hpost⟩
        exact (h'.not_ahead h hpre hpost).elim

/-- Level 2: what the two loops come to. -/
theorem pickProc_best {s : St} (hw : WfQ s) (hemp : ¬ isEmpty s 2) :
    (∃ s', pickProc s 2 = (none, s') ∧ Queues s s' s.q ∧ ∀ y ∈ s.q 2, ¬ Eligible s 2 y) ∨
    ∃ x pre post s', Picks s 2 pre x post ∧ pickProc s 2 = (some x, s') ∧
      Queues s s' (Function.update s.q 2 (post ++ pre)) := by
  have hlen : (s.mlfq 2).size = (s.q 2).length := by rw [St.q, Ring.length_toList]
  -- the scan turns the ring once and leaves it as it was
  obtain ⟨s1, hs1, h1⟩ :=
    scanPriority_queues (s.q 2) 0 (USELESS, 0) hw (List.append_nil (s.q 2)).symm
  rw [List.nil_append, Function.update_eq_self] at h1
  have hpick : pickProc s 2 =
      if (scanList s (s.q 2) 0 (USELESS, 0)).1 = USELESS then (none, s1)
      else takeNth s1 2 (scanList s (s.q 2) 0 (USELESS, 0)).2 := by
    simp only [pickProc, if_neg hemp, if_true, hlen, hs1]
  rcases scanList_cases s (s.q 2) 0 (USELESS, 0) with ⟨heq, hall⟩ | ⟨pre, x, post, hl, hx, hlt,
      heq, hpre, hpost⟩
  · -- nothing beats the bound
    refine Or.inl ⟨s1, by rw [hpick, heq, if_pos rfl], h1, ?_⟩
    intro y hy he
    have hle : USELESS ≤ (s.proc y).priority := hall y hy he.1
    have hlt := he.2 rfl
    omega
  -- `x` is the best: it is taken out, and the ring is left turned behind it
  · have hlt' : (s.proc x).priority < USELESS := hlt
    have hne : (s.proc x).priority ≠ USELESS := by omega
    have hl1 : s1.q 2 = pre ++ x :: post := by rw [h1.q, hl]
    rcases takeNth_queues h1.wf hl1 with ⟨s2, ht, h2⟩
    refine Or.inr ⟨x, pre, post, s2, ⟨hl, ⟨hx, fun _ => hlt'⟩, by simp, fun _ => hpre,
      fun _ => hpost⟩, ?_, ?_⟩
    · rw [hpick, heq, if_neg hne]
      simpa using ht
    · apply (h1.trans h2).congr
      rw [h1.q]

/-- Levels 0 and 1: what the loop comes to. -/
theorem pickProc_first {s : St} (hw : WfQ s) {lv : Nat} (hlv : lv ≠ 2) (hemp : ¬ isEmpty s lv) :
    (∃ s', pickProc s lv = (none, s') ∧ Queues s s' s.q ∧ ∀ y ∈ s.q lv, ¬ Eligible s lv y) ∨
    ∃ x pre post s', Picks s lv pre x post ∧ pickProc s lv = (some x, s') ∧
      Queues s s' (Function.update s.q lv (post ++ pre)) := by
  have hlen : (s.mlfq lv).size = (s.q lv).length := by rw [St.q, Ring.length_toList]
  have hpick : pickProc s lv = pickFirst s lv (s.q lv).length := by
    simp [pickProc, hemp, hlv, hlen]
  by_cases hall : ∀ y ∈ s.q lv, (s.proc y).state ≠ .RUNNABLE
  · rcases pickFirst_none (s.q lv) hw (List.append_nil (s.q lv)).symm hall with ⟨s1, hp, h1⟩
    refine Or.inl ⟨s1, by rw [hpick, hp], ?_, fun y hy he => hall y hy he.1⟩
    apply h1.congr
    rw [List.nil_append, Function.update_eq_self]
  · push Not at hall
    rcases hall with ⟨y, hy, hyr⟩
    -- split the queue at its first RUNNABLE entry
    obtain ⟨x, pre, post, hl, hx, hpre⟩ : ∃ x pre post, s.q lv = pre ++ x :: post ∧
        (s.proc x).state = .RUNNABLE ∧ ∀ z ∈ pre, (s.proc z).state ≠ .RUNNABLE := by
      have hf : ((s.q lv).find? fun z => (s.proc z).state = .RUNNABLE).isSome := by
        rw [List.find?_isSome]
        exact ⟨y, hy, by simpa using hyr⟩
      rcases Option.isSome_iff_exists.1 hf with ⟨x, hx⟩
      rcases List.find?_eq_some_iff_append.1 hx with ⟨hxr, pre, post, hl, hpre⟩
      exact ⟨x, pre, post, hl, by simpa using hxr, fun z hz => by simpa using hpre z hz⟩
    obtain ⟨s1, hp, h1⟩ := pickFirst_some pre (n := (s.q lv).length) hw hl
      (by rw [hl]; simp) hpre hx
    refine Or.inr ⟨x, pre, post, s1, ⟨hl, ⟨hx, fun h2 => absurd h2 hlv⟩, fun _ => hpre,
      fun h2 => absurd h2 hlv, fun h2 => absurd h2 hlv⟩, by rw [hpick, hp], h1⟩

/-- `pickProc` takes the entry to be picked out of its queue and keeps the others,
or finds none and leaves the queue as it was. -/
theorem pickProc_picks {s : St} (hw : WfQ s) (lv : Nat) :
    (∃ s', pickProc s lv = (none, s') ∧ Queues s s' s.q ∧ ∀ y ∈ s.q lv, ¬ Eligible s lv y) ∨
    ∃ x pre post s', Picks s lv pre x post ∧ pickProc s lv = (some x, s') ∧
      Queues s s' (Function.update s.q lv (post ++ pre)) := by
  by_cases hemp : isEmpty s lv
  · refine Or.inl ⟨s, by simp [pickProc, hemp], Queues.refl hw, ?_⟩
    have hlen : (s.q lv).length = 0 := by simpa [isEmpty, St.q] using hemp
    simp [List.length_eq_zero_iff.1 hlen]
  · by_cases hlv : lv = 2
    · subst hlv
      exact pickProc_best hw hemp
    · exact pickProc_first hw hlv hemp

/-- `pickProc` finds a RUNNABLE entry and rotates the queue behind it, or there is none and
the queue is back where it was. -/
theorem pickProc_cases {s : St} (hw : WfQ s) (lv : Nat) :
    (∃ s', pickProc s lv = (none, s') ∧ Queues s s' s.q) ∨
    ∃ x pre post s', s.q lv = pre ++ x :: post ∧ (s.proc x).state = .RUNNABLE ∧
      pickProc s lv = (some x, s') ∧ Queues s s' (Function.update s.q lv (post ++ pre)) := by
  rcases pickProc_picks hw lv with ⟨s', hp, h, -⟩ | ⟨x, pre, post, s', hx, hp, h⟩
  · exact Or.inl ⟨s', hp, h⟩
  · exact Or.inr ⟨x, pre, post, s', hx.q, hx.eligible.1, hp, h⟩

theorem Queues.eligible {s s' : St} {Q : Nat → List Pidx} (h : Queues s s' Q) {lv : Nat}
    {y : Pidx} : Eligible s' lv y ↔ Eligible s lv y := by
  simp only [Eligible, h.proc]

/-- A search that found nothing has left the next one the same queues. -/
theorem Queues.picks {s s' : St} (h : Queues s s' s.q) {lv : Nat} {pre post : List Pidx}
    {x : Pidx} (hx : Picks s' lv pre x post) : Picks s lv pre x post := by
  rcases hx with ⟨hq, he, hf, hb, ha⟩
  rw [h.q] at hq
  simp only [h.proc] at hf hb ha
  exact ⟨hq, h.eligible.1 he, hf, hb, ha⟩

/-- The levels are searched from 0 to 2. -/
theorem pickLevel_picks {s : St} (hw : WfQ s) :
    (∃ s', pickLevel s = (none, s') ∧ Queues s s' s.q ∧
      ∀ lv ≤ 2, ∀ y ∈ s.q lv, ¬ Eligible s lv y) ∨
    ∃ x lv pre post s', lv ≤ 2 ∧ (∀ l < lv, ∀ y ∈ s.q l, ¬ Eligible s l y) ∧
      Picks s lv pre x post ∧ pickLevel s = (some (x, lv), s') ∧
      Queues s s' (Function.update s.q lv (post ++ pre)) := by
  unfold pickLevel
  -- level 0
  rcases pickProc_picks hw 0 with ⟨s0, hp0, h0, hn0⟩ | ⟨x, pre, post, s0, hx, hp0, h0⟩
  swap
  · exact Or.inr ⟨x, 0, pre, post, s0, by omega, by simp, hx, by simp [hp0], h0⟩
  -- level 1, the ring of level 0 having been turned once around
  rcases pickProc_picks h0.wf 1 with ⟨s1, hp1, h1, hn1⟩ | ⟨x, pre, post, s1, hx, hp1, h1⟩
  swap
  · refine Or.inr ⟨x, 1, pre, post, s1, by omega, ?_, h0.picks hx, by simp [hp0, hp1], ?_⟩
    · intro l hl
      obtain rfl : l = 0 := by omega
      exact hn0
    · apply (h0.trans h1).congr
      rw [h0.q]
  have h01 : Queues s s1 s.q := (h0.trans h1).congr h0.q
  have hn01 : ∀ l < 2, ∀ y ∈ s.q l, ¬ Eligible s l y := by
    intro l hl y hy he
    obtain rfl | rfl : l = 0 ∨ l = 1 := by omega
    · exact hn0 y hy he
    · exact hn1 y (by rwa [h0.q]) (h0.eligible.2 he)
  -- level 2
  rcases pickProc_picks h1.wf 2 with ⟨s2, hp2, h2, hn2⟩ | ⟨x, pre, post, s2, hx, hp2, h2⟩
  · refine Or.inl ⟨s2, by simp [hp0, hp1, hp2], (h01.trans h2).congr h01.q, ?_⟩
    intro l hl y hy he
    by_cases hl2 : l = 2
    · subst hl2
      exact hn2 y (by rwa [h01.q]) (h01.eligible.2 he)
    · exact hn01 l (by omega) y hy he
  · refine Or.inr ⟨x, 2, pre, post, s2, by omega, hn01, h01.picks hx, by simp [hp0, hp1, hp2], ?_⟩
    apply (h01.trans h2).congr
    rw [h01.q]

/-! ## Searching for a pid -/

/-- The search of `setPriority` stops behind the first entry with the pid. -/
theorem findPid_found {lv : Nat} {pid : Int} {x : Pidx} (pre : List Pidx) :
    ∀ {s : St} {post : List Pidx} {n : Nat}, WfQ s → s.q lv = pre ++ x :: post →
      pre.length < n → (∀ y ∈ pre, (s.proc y).pid ≠ pid) → (s.proc x).pid = pid →
      ∃ s', findPid s lv pid n = (some x, s') ∧
        Queues s s' (Function.update s.q lv (post ++ (pre ++ [x]))) := by
  induction pre with
  | nil =>
      intro s post n hw hq hn _ hx
      obtain ⟨m, rfl⟩ : ∃ m, n = m + 1 := ⟨n - 1, by simp at hn; omega⟩
      rcases deQ_enQ_queues hw hq with ⟨s1, hd, hp1, hrot⟩
      refine ⟨enQ s1 lv x, ?_, hrot⟩
      simp [findPid, hd, hrot.proc, hx]
  -- the entry in front is another process, and goes to the back
  | cons y pre ih =>
      intro s post n hw hq hn hpre hx
      obtain ⟨m, rfl⟩ : ∃ m, n = m + 1 := ⟨n - 1, by simp at hn; omega⟩
      rw [List.cons_append] at hq
      rcases deQ_enQ_queues hw hq with ⟨s1, hd, hp1, hrot⟩
      have hy : (s.proc y).pid ≠ pid := hpre y (by simp)
      have hq2 : (enQ s1 lv y).q lv = pre ++ x :: (post ++ [y]) := by
        rw [hrot.q, Function.update_self]
        simp
      obtain ⟨s2, hp, h2⟩ := ih (n := m) hrot.wf hq2 (by simpa using hn)
        (fun z hz => by rw [hrot.proc]; exact hpre z (by simp [hz])) (by rw [hrot.proc]; exact hx)
      refine ⟨s2, ?_, ?_⟩
      · simp [findPid, hd, hrot.proc, hy, hp]
      · apply (hrot.trans h2).congr
        rw [hrot.q, Function.update_idem]
        simp

/-- Without such an entry the queue has gone round. -/
theorem findPid_absent {lv : Nat} {pid : Int} (as : List Pidx) :
    ∀ {s : St} {bs : List Pidx}, WfQ s → s.q lv = as ++ bs →
      (∀ y ∈ as, (s.proc y).pid ≠ pid) →
      ∃ s', findPid s lv pid as.length = (none, s') ∧
        Queues s s' (Function.update s.q lv (bs ++ as)) := by
  induction as with
  | nil =>
      intro s bs hw hq _
      refine ⟨s, rfl, (Queues.refl hw).congr ?_⟩
      rw [List.append_nil, ← List.nil_append bs, ← hq, Function.update_eq_self]
  | cons y as ih =>
      intro s bs hw hq hall
      rw [List.cons_append] at hq
      -- the entry in front is another process, and goes to the back
      rcases deQ_enQ_queues hw hq with ⟨s1, hd, hp1, hrot⟩
      have hy : (s.proc y).pid ≠ pid := hall y (by simp)
      have hq2 : (enQ s1 lv y).q lv = as ++ (bs ++ [y]) := by
        rw [hrot.q, Function.update_self, List.append_assoc]
      obtain ⟨s2, hp, h2⟩ := ih hrot.wf hq2
        (fun z hz => by rw [hrot.proc]; exact hall z (by simp [hz]))
      refine ⟨s2, ?_, ?_⟩
      · simp [findPid, hd, hrot.proc, hy, hp]
      · apply (hrot.trans h2).congr
        rw [hrot.q, Function.update_idem]
        simp

/-- The first entry with the pid is `x`, in the queue `pre ++ x :: post` of level `lv`. -/
structure Located (s : St) (pid : Int) (lv : Nat) (pre : List Pidx) (x : Pidx)
    (post : List Pidx) : Prop where
  level : lv ≤ 2
  q : s.q lv = pre ++ x :: post
  here : (s.proc x).pid = pid
  first : ∀ y ∈ pre, (s.proc y).pid ≠ pid
  lower : ∀ l < lv, ∀ y ∈ s.q l, (s.proc y).pid ≠ pid

/-- One level of the search. -/
theorem findPid_cases {s : St} (hw : WfQ s) (lv : Nat) (pid : Int) :
    (∃ s', findPid s lv pid (s.mlfq lv).size = (none, s') ∧ Queues s s' s.q ∧
      ∀ y ∈ s.q lv, (s.proc y).pid ≠ pid) ∨
    ∃ pre x post s', s.q lv = pre ++ x :: post ∧ (s.proc x).pid = pid ∧
      (∀ y ∈ pre, (s.proc y).pid ≠ pid) ∧ findPid s lv pid (s.mlfq lv).size = (some x, s') ∧
      Queues s s' (Function.update s.q lv (post ++ (pre ++ [x]))) := by
  have hlen : (s.mlfq lv).size = (s.q lv).length := by rw [St.q, Ring.length_toList]
  rw [hlen]
  by_cases hall : ∀ y ∈ s.q lv, (s.proc y).pid ≠ pid
  · rcases findPid_absent (s.q lv) hw (List.append_nil (s.q lv)).symm hall with ⟨s1, hp, h1⟩
    refine Or.inl ⟨s1, hp, h1.congr ?_, hall⟩
    rw [List.nil_append, Function.update_eq_self]
  · push Not at hall
    rcases hall with ⟨y, hy, hyp⟩
    -- the first entry with the pid, for the search stops there
    have hf : ((s.q lv).find? fun z => (s.proc z).pid = pid).isSome := by
      rw [List.find?_isSome]
      exact ⟨y, hy, by simpa using hyp⟩
    rcases Option.isSome_iff_exists.1 hf with ⟨x, hx⟩
    rcases List.find?_eq_some_iff_append.1 hx with ⟨hxp, pre, post, hl, hpre⟩
    have hxp : (s.proc x).pid = pid := by simpa using hxp
    have hpre : ∀ y ∈ pre, (s.proc y).pid ≠ pid := fun y hy => by simpa using hpre y hy
    obtain ⟨s1, hp, h1⟩ := findPid_found pre (n := (s.q lv).length) hw hl (by rw [hl]; simp)
      hpre hxp
    exact Or.inr ⟨pre, x, post, s1, hl, hxp, hpre, hp, h1⟩

/-- The search over the levels. -/
theorem findPidLevels_cases {s : St} (hw : WfQ s) (pid : Int) :
    (∃ s', findPidLevels s pid = (none, s') ∧ Queues s s' s.q ∧
      ∀ lv ≤ 2, ∀ y ∈ s.q lv, (s.proc y).pid ≠ pid) ∨
    ∃ lv pre x post s', Located s pid lv pre x post ∧ findPidLevels s pid = (some x, s') ∧
      Queues s s' (Function.update s.q lv (post ++ (pre ++ [x]))) := by
  unfold findPidLevels
  -- level 0
  rcases findPid_cases hw 0 pid with ⟨s0, hp0, h0, hn0⟩ | ⟨pre, x, post, s0, hq, hx, hpre, hp0, h0⟩
  swap
  · exact Or.inr ⟨0, pre, x, post, s0, ⟨by omega, hq, hx, hpre, by simp⟩, by simp [hp0], h0⟩
  -- level 1
  rcases findPid_cases h0.wf 1 pid with ⟨s1, hp1, h1, hn1⟩ |
    ⟨pre, x, post, s1, hq, hx, hpre, hp1, h1⟩
  swap
  · rw [h0.proc] at hx hpre
    rw [h0.q] at hq h1
    refine Or.inr ⟨1, pre, x, post, s1, ⟨by omega, hq, hx, hpre, ?_⟩, by simp [hp0, hp1],
      h0.trans h1⟩
    intro l hl
    obtain rfl : l = 0 := by omega
    exact hn0
  rw [h0.proc, h0.q] at hn1
  have h01 : Queues s s1 s.q := (h0.trans h1).congr h0.q
  have hn01 : ∀ l < 2, ∀ y ∈ s.q l, (s.proc y).pid ≠ pid := by
    intro l hl
    obtain rfl | rfl : l = 0 ∨ l = 1 := by omega
    · exact hn0
    · exact hn1
  -- level 2
  rcases findPid_cases h1.wf 2 pid with ⟨s2, hp2, h2, hn2⟩ |
    ⟨pre, x, post, s2, hq, hx, hpre, hp2, h2⟩
  · rw [h01.proc, h01.q] at hn2
    refine Or.inl ⟨s2, by simp [hp0, hp1, hp2], (h01.trans h2).congr h01.q, ?_⟩
    intro l hl
    by_cases hl2 : l = 2
    · subst hl2
      exact hn2
    · exact hn01 l (by omega)
  · rw [h01.proc] at hx hpre
    rw [h01.q] at hq h2
    exact Or.inr ⟨2, pre, x, post, s2, ⟨by omega, hq, hx, hpre, hn01⟩, by simp [hp0, hp1, hp2],
      h01.trans h2⟩

end Xv6.Mlfq
