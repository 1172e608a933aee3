import Mathlib.Data.List.Nodup
import Mathlib.Logic.Function.Basic

/-!
# Intrusive queues

A queue whose links lie in its elements: `next b` is the element after `b`, and
the queue is known by its head. `Chain next h l` says that the links from `h` on
go through the list `l` and end there. Appending walks to the end, as C code with
a pointer to the last link does.

The walks take the length of the queue as fuel; a chain has no repetitions
(`Chain.nodup`), so they come to its end.

* `Chain.unique`, `Chain.follow`: the list is read off the links;
* `Chain.update`: changing the link of an element outside the queue does nothing
  to it;
* `Chain.append`: the walk to the end and the new link there append one element.
-/

namespace Xv6.Lib

universe u

variable {β : Type u} {next : β → Option β} {h : Option β} {l l' : List β} {b : β}

/-- The elements of `l`, in this order, are the chain from `h` on. -/
def Chain (next : β → Option β) : Option β → List β → Prop
  | h, [] => h = none
  | h, b :: l => h = some b ∧ Chain next (next b) l

/-- The elements from `h` on, `k` of them at most. -/
def follow (next : β → Option β) : Nat → Option β → List β
  | 0, _ => []
  | _ + 1, none => []
  | k + 1, some b => b :: follow next k (next b)

/-- The last element of the chain that starts with `b`, if it is met within `k`. -/
def lastFrom (next : β → Option β) : Nat → β → Option β
  | 0, _ => none
  | k + 1, b =>
      match next b with
      | none => some b
      | some c => lastFrom next k c

/-- Put `b` behind the last element, as its new end. `none` is a walk that does
not end within `k` elements. -/
def append [DecidableEq β] (next : β → Option β) (k : Nat) (h : Option β) (b : β) :
    Option ((β → Option β) × Option β) :=
  let next := Function.update next b none
  match h with
  | none => some (next, some b)
  | some a => (lastFrom next k a).map fun c => (Function.update next c (some b), some a)

namespace Chain

@[simp] theorem nil_iff : Chain next h [] ↔ h = none := Iff.rfl

@[simp] theorem cons_iff : Chain next h (b :: l) ↔ h = some b ∧ Chain next (next b) l := Iff.rfl

/-- What is read off a chain is what is on it. -/
theorem unique (hl : Chain next h l) (hl' : Chain next h l') : l = l' := by
  induction l generalizing h l' with
  | nil =>
      cases l' with
      | nil => rfl
      | cons b' l' => cases hl.symm.trans hl'.1
  | cons b l ih =>
      cases l' with
      | nil => cases hl'.symm.trans hl.1
      | cons b' l' =>
          cases hl.1.symm.trans hl'.1
          rw [ih hl.2 hl'.2]

/-- From any of its elements on, a chain is the chain from there. -/
theorem after {p q : List β} (hl : Chain next h (p ++ b :: q)) : Chain next (next b) q := by
  induction p generalizing h with
  | nil => exact hl.2
  | cons _ p ih => exact ih hl.2

/-- A chain ends, so it does not come back to an element. -/
theorem nodup (hl : Chain next h l) : l.Nodup := by
  induction l generalizing h with
  | nil => exact List.nodup_nil
  | cons b l ih =>
      refine List.nodup_cons.2 ⟨?_, ih hl.2⟩
      intro hb
      rcases List.append_of_mem hb with ⟨p, q, rfl⟩
      have hlen := congrArg List.length (unique hl.2 (after hl.2))
      simp at hlen
      omega

/-- Following the links from the head gives the chain, if there is fuel for it. -/
theorem follow {k : Nat} (hl : Chain next h l) (hk : l.length ≤ k) :
    Lib.follow next k h = l := by
  induction l generalizing h k with
  | nil =>
      subst hl
      cases k <;> rfl
  | cons b l ih =>
      rcases hl with ⟨rfl, hl⟩
      cases k with
      | zero => cases hk
      | succ k => exact congrArg (b :: ·) (ih hl (Nat.le_of_succ_le_succ hk))

/-- The links of other elements do not matter. -/
theorem update [DecidableEq β] {v : Option β} (hl : Chain next h l) (hb : b ∉ l) :
    Chain (Function.update next b v) h l := by
  induction l generalizing h with
  | nil => exact hl
  | cons a l ih =>
      rw [List.mem_cons, not_or] at hb
      refine ⟨hl.1, ?_⟩
      rw [Function.update_of_ne (Ne.symm hb.1)]
      exact ih hl.2 hb.2

/-- From any element on, the links lead to the last one. -/
theorem lastFrom {k : Nat} (hl : Chain next h (l ++ [b])) {a : β} (ha : h = some a)
    (hk : l.length < k) : Lib.lastFrom next k a = some b := by
  subst ha
  induction l generalizing a k with
  | nil =>
      rcases hl with ⟨hab, hnil⟩
      cases hab
      cases k with
      | zero => cases hk
      | succ k =>
          unfold Lib.lastFrom
          rw [nil_iff.1 hnil]
  -- not yet the last one: one step of fuel, one step along the chain
  | cons c l ih =>
      rcases hl with ⟨hac, hl⟩
      cases hac
      cases k with
      | zero => cases hk
      | succ k =>
          unfold Lib.lastFrom
          cases hc : next c with
          | none =>
              rw [hc] at hl
              cases l <;> cases hl.1
          | some d =>
              rw [hc] at hl
              exact ih (Nat.lt_of_succ_lt_succ hk) hl

/-- The link of the last element can be set to a new last element. -/
theorem link [DecidableEq β] {a : β} (hl : Chain next h (l ++ [a])) (hb : b ∉ l ++ [a])
    (hend : next b = none) : Chain (Function.update next a (some b)) h (l ++ [a] ++ [b]) := by
  have hnd := hl.nodup
  induction l generalizing h with
  | nil =>
      rcases hl with ⟨rfl, -⟩
      have hne : b ≠ a := by simpa using hb
      refine ⟨rfl, ?_⟩
      rw [Function.update_self]
      refine ⟨rfl, ?_⟩
      rwa [Function.update_of_ne hne]
  | cons c l ih =>
      rw [List.cons_append, List.nodup_cons] at hnd
      rw [List.cons_append, List.mem_cons, not_or] at hb
      have hne : c ≠ a := by
        rintro rfl
        exact hnd.1 (List.mem_append_right _ (List.mem_singleton_self _))
      refine ⟨hl.1, ?_⟩
      rw [Function.update_of_ne hne]
      exact ih hl.2 hb.2 hnd.2

/-- Appending an element that is not on the chain yet. -/
theorem append [DecidableEq β] {k : Nat} (hl : Chain next h l) (hb : b ∉ l) (hk : l.length ≤ k) :
    ∃ x, Lib.append next k h b = some x ∧ Chain x.1 x.2 (l ++ [b]) := by
  have hl' : Chain (Function.update next b none) h l := hl.update hb
  unfold Lib.append
  cases h with
  | none =>
      have hnil : l = [] := hl.unique rfl
      subst hnil
      exact ⟨_, rfl, rfl, Function.update_self ..⟩
  | some a =>
      rcases List.eq_nil_or_concat l with hnil | ⟨l₁, c, hcat⟩
      · rw [hnil] at hl
        cases hl
      · rw [List.concat_eq_append] at hcat
        subst hcat
        rw [List.length_append, List.length_singleton] at hk
        have hend : Lib.lastFrom (Function.update next b none) k a = some c :=
          hl'.lastFrom rfl hk
        dsimp only
        rw [hend]
        exact ⟨_, rfl, hl'.link hb (Function.update_self ..)⟩

end Chain

end Xv6.Lib
