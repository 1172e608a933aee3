import Mathlib.Algebra.BigOperators.Pi
import Mathlib.Algebra.BigOperators.Group.Finset.Basic
import Mathlib.Algebra.Order.BigOperators.Group.Finset
import Mathlib.Data.Fintype.BigOperators

/-!
# Counted references

Owners of type `ι` hold values of type `α`, and each value refers a number of times
to each resource of type `β`. `tally` adds the references up over all owners.

A reference count kept beside a resource is right when it is the tally of it. The
lemmas say what a change does to the sums:

* `tally_update`: when one owner changes its value, the sums change by what the
  two values refer to;
* `refers_le_tally`, `tally_eq_zero_iff`: no owner refers more often than the
  tally says, and at zero nobody does.
-/

namespace Xv6.Lib

universe u v w

variable {ι : Type u} {α : Type v} {β : Type w} [Fintype ι]

/-- How often the values that `g` gives to the owners refer to `b`. -/
def tally (refers : α → β → Nat) (g : ι → α) (b : β) : Nat := ∑ i, refers (g i) b

variable {refers : α → β → Nat} {g : ι → α} {i : ι} {a : α} {b : β}

/-- One owner gets another value. -/
theorem tally_update [DecidableEq ι] :
    tally refers (Function.update g i a) b + refers (g i) b = tally refers g b + refers a b := by
  unfold tally
  rw [← Finset.add_sum_erase Finset.univ (fun j => refers (g j) b) (Finset.mem_univ i),
    ← Finset.add_sum_erase Finset.univ (fun j => refers (Function.update g i a j) b)
      (Finset.mem_univ i)]
  have hrest : ∑ j ∈ Finset.univ.erase i, refers (Function.update g i a j) b =
      ∑ j ∈ Finset.univ.erase i, refers (g j) b := by
    apply Finset.sum_congr rfl
    intro j hj
    rw [Function.update_of_ne (Finset.ne_of_mem_erase hj)]
  rw [hrest, Function.update_self]
  omega

theorem refers_le_tally : refers (g i) b ≤ tally refers g b :=
  Finset.single_le_sum (f := fun j => refers (g j) b) (fun _ _ => Nat.zero_le _) (Finset.mem_univ i)

theorem tally_eq_zero_iff : tally refers g b = 0 ↔ ∀ i, refers (g i) b = 0 := by
  unfold tally
  simp

end Xv6.Lib
