import Mathlib.Data.List.GetD
import Mathlib.Tactic.Common

/-!
# Overwriting a range of a list

`splice c o l` is the list `c` with `l` written at offset `o`; it grows when `l`
goes beyond the end. Offsets beyond the end leave no gap to fill, so the results
ask for `o ≤ c.length`.

* `length_splice`, `getD_splice`: the length, and each element;
* `splice_splice`: two writes that follow on each other are one write, so a
  loop that writes a range in parts writes the range.
-/

namespace Xv6.Lib

variable {α : Type} {c l : List α} {o : Nat}

def splice (c : List α) (o : Nat) (l : List α) : List α :=
  c.take o ++ (l ++ c.drop (o + l.length))

/-- Lists of one length are told apart by their elements. -/
theorem ext_getD {c' : List α} (d : α) (hlen : c.length = c'.length)
    (h : ∀ i, i < c.length → c.getD i d = c'.getD i d) : c = c' := by
  refine List.ext_getElem hlen ?_
  intro i hi hi'
  have hd := h i hi
  rwa [List.getD_eq_getElem _ _ hi, List.getD_eq_getElem _ _ hi'] at hd

/-- Writing past the end makes the list longer. -/
theorem length_splice (h : o ≤ c.length) :
    (splice c o l).length = max c.length (o + l.length) := by
  unfold splice
  rw [List.length_append, List.length_append, List.length_take, List.length_drop,
    Nat.min_eq_left h]
  omega

/-- Inside the range the new elements are read, outside it the old ones. -/
theorem getD_splice (d : α) (h : o ≤ c.length) (i : Nat) :
    (splice c o l).getD i d =
      if o ≤ i ∧ i < o + l.length then l.getD (i - o) d else c.getD i d := by
  have htake : (c.take o).length = o := by
    rw [List.length_take, Nat.min_eq_left h]
  unfold splice
  rcases Nat.lt_or_ge i o with hi | hi
  · rw [if_neg (by omega), List.getD_append _ _ _ _ (by omega), List.getD_eq_getElem?_getD,
      List.getElem?_take_of_lt hi, ← List.getD_eq_getElem?_getD]
  · rw [List.getD_append_right _ _ _ _ (by omega), htake]
    rcases Nat.lt_or_ge i (o + l.length) with hi' | hi'
    · rw [if_pos ⟨hi, hi'⟩, List.getD_append _ _ _ _ (by omega)]
    · rw [if_neg (by omega), List.getD_append_right _ _ _ _ (by omega), List.getD_eq_getElem?_getD,
        List.getElem?_drop, ← List.getD_eq_getElem?_getD,
        show o + l.length + (i - o - l.length) = i by omega]

theorem splice_nil : splice c o [] = c := List.take_append_drop o c

/-- First the head of what is written, and then the rest. -/
theorem splice_splice {m : Nat} (h : o ≤ c.length) (hm : m ≤ l.length) :
    splice (splice c o (l.take m)) (o + m) (l.drop m) = splice c o l := by
  rcases l with _ | ⟨d, l⟩
  · rw [List.drop_nil, List.take_nil, splice_nil]
  · have htake : ((d :: l).take m).length = m := by
      rw [List.length_take, Nat.min_eq_left hm]
    have hdrop : ((d :: l).drop m).length = (d :: l).length - m := List.length_drop
    have ho : o + m ≤ (splice c o ((d :: l).take m)).length := by
      rw [length_splice h, htake]
      exact Nat.le_max_right _ _
    -- byte by byte: before the seam, behind it, and behind the whole piece
    refine ext_getD d ?_ ?_
    · rw [length_splice ho, length_splice h, length_splice h, htake, hdrop]
      omega
    · intro i _
      rw [getD_splice d ho, getD_splice d h, getD_splice d h, htake, hdrop]
      rcases Nat.lt_or_ge i (o + m) with hi | hi
      · rw [if_neg (by omega)]
        by_cases hio : o ≤ i
        · rw [if_pos ⟨hio, hi⟩, if_pos ⟨hio, by omega⟩, List.getD_eq_getElem?_getD,
            List.getElem?_take_of_lt (by omega), ← List.getD_eq_getElem?_getD]
        · rw [if_neg (by omega), if_neg (by omega)]
      · by_cases hil : i < o + (d :: l).length
        · rw [if_pos ⟨hi, by omega⟩, if_pos ⟨by omega, hil⟩, List.getD_eq_getElem?_getD,
            List.getElem?_drop, ← List.getD_eq_getElem?_getD,
              show m + (i - (o + m)) = i - o by omega]
        · rw [if_neg (by omega), if_neg (by omega), if_neg (by omega)]

end Xv6.Lib
