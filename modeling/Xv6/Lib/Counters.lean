import Mathlib.Data.Nat.ModEq
import Mathlib.Data.List.Basic
import Mathlib.Logic.Function.Basic

/-!
# Free-running counters

A ring buffer whose counters only ever grow: the element that counter value `c`
stands for lies in cell `c % n`, and the number of elements is a difference of
counters. The counters are 32-bit words that wrap around; this does no harm as
long as `n` divides `2 ^ 32`, which every result below assumes.

`window n cell r w` is the list of the elements between the counters `r` and `w`.
Read on it, code that moves the counters works on a queue:

* `Window.push`, `Window.pop`: storing at `w` appends, reading at `r` takes the
  head;
* `Window.append`: two adjoining windows are one, which a ring with a third
  counter between the two needs;
* `Window.dropLast`, `Window.snoc`: the last element can be taken back.
-/

namespace Xv6.Lib

universe u

variable {α : Type u} {n : Nat} {cell : Nat → α} {r w e : UInt32}

/-- The elements from counter `r` up to counter `w`. -/
def window (n : Nat) (cell : Nat → α) (r w : UInt32) : List α :=
  (List.range (w - r).toNat).map fun i => cell ((r.toNat + i) % n)

namespace Window

@[simp] theorem length (n : Nat) (cell : Nat → α) (r w : UInt32) :
    (window n cell r w).length = (w - r).toNat := by
  simp [window]

@[simp] theorem self (n : Nat) (cell : Nat → α) (r : UInt32) : window n cell r r = [] := by
  simp [window]

theorem toNat_sub (a b : UInt32) : (a - b).toNat = (2 ^ 32 - b.toNat + a.toNat) % 2 ^ 32 :=
  UInt32.toNat_sub a b

theorem toNat_succ (a : UInt32) : (a + 1).toNat = (a.toNat + 1) % 2 ^ 32 := UInt32.toNat_add a 1

/-- Counters that differ are apart by at least one. -/
theorem ne_of_lt (h : r ≠ w) : 0 < (w - r).toNat := by
  have hr := r.toNat_lt
  have hw := w.toNat_lt
  have hne : r.toNat ≠ w.toNat := fun he => h (UInt32.toNat_inj.1 he)
  rw [toNat_sub]
  omega

theorem eq_of_zero (h : (w - r).toNat = 0) : r = w := by
  by_contra hne
  have := ne_of_lt hne
  omega

theorem empty_iff : window n cell r w = [] ↔ r = w := by
  rw [← List.length_eq_zero_iff, length]
  refine ⟨eq_of_zero, ?_⟩
  rintro rfl
  simp

/-- A counter and its value before it wraps name the same cell. -/
theorem mod_of_dvd (hn : n ∣ 2 ^ 32) (a i : Nat) : (a % 2 ^ 32 + i) % n = (a + i) % n := by
  have hmod : a % 2 ^ 32 ≡ a [MOD n] := (Nat.mod_modEq a (2 ^ 32)).of_dvd hn
  exact hmod.add_right i

/-- With room left, the next cell is none of those in the window. -/
theorem cell_ne {i : Nat} (hn : n ∣ 2 ^ 32) (hi : i < (w - r).toNat) (hroom : (w - r).toNat < n) :
    (r.toNat + i) % n ≠ w.toNat % n := by
  have hr := r.toNat_lt
  have hw := w.toNat_lt
  intro he
  have hw' : w.toNat = (r.toNat + (w - r).toNat) % 2 ^ 32 := by
    rw [toNat_sub]
    omega
  have hcell := mod_of_dvd hn (r.toNat + (w - r).toNat) 0
  rw [Nat.add_zero, Nat.add_zero, ← hw'] at hcell
  rw [hcell] at he
  have hmod : i ≡ (w - r).toNat [MOD n] := Nat.ModEq.add_left_cancel' r.toNat he
  have := hmod.eq_of_lt_of_lt (lt_trans hi hroom) hroom
  omega

/-- With room left, an element stored at `w` is the last. -/
theorem push (hn : n ∣ 2 ^ 32) (hroom : (w - r).toNat < n) (c : α)
    (hlt : (w - r).toNat < 2 ^ 32 - 1) :
    window n (Function.update cell (w.toNat % n) c) r (w + 1) = window n cell r w ++ [c] := by
  have hr := r.toNat_lt
  have hw := w.toNat_lt
  have hlen : (w + 1 - r).toNat = (w - r).toNat + 1 := by
    rw [toNat_sub, toNat_succ, toNat_sub] at *
    omega
  -- the new cell is the one the write counter points to, also across the wrap of the counters
  have hlast : (r.toNat + (w - r).toNat) % n = w.toNat % n := by
    have hcell := mod_of_dvd hn (r.toNat + (w - r).toNat) 0
    have hw' : w.toNat = (r.toNat + (w - r).toNat) % 2 ^ 32 := by
      rw [toNat_sub]
      omega
    rw [Nat.add_zero, Nat.add_zero, ← hw'] at hcell
    exact hcell.symm
  unfold window
  rw [hlen, List.range_succ, List.map_append]
  congr 1
  -- the cells of the old window are other cells: there was room
  · apply List.map_congr_left
    intro i hi
    exact Function.update_of_ne (cell_ne hn (List.mem_range.1 hi) hroom) _ _
  · rw [List.map_singleton, hlast, Function.update_self]

/-- The first element lies at `r`. -/
theorem pop (hn : n ∣ 2 ^ 32) (h : r ≠ w) :
    window n cell r w = cell (r.toNat % n) :: window n cell (r + 1) w := by
  have hr := r.toNat_lt
  have hw := w.toNat_lt
  have hpos := ne_of_lt h
  have hlen : (w - r).toNat = (w - (r + 1)).toNat + 1 := by
    rw [toNat_sub, toNat_sub, toNat_succ] at *
    omega
  unfold window
  rw [hlen, List.range_succ_eq_map, List.map_cons, List.map_map, Nat.add_zero]
  congr 1
  apply List.map_congr_left
  intro i _
  show cell ((r.toNat + (i + 1)) % n) = cell (((r + 1).toNat + i) % n)
  rw [toNat_succ, mod_of_dvd hn]
  congr 2
  omega

/-- Two windows that meet. -/
theorem append (hn : n ∣ 2 ^ 32) (h : (w - r).toNat + (e - w).toNat < 2 ^ 32) :
    window n cell r w ++ window n cell w e = window n cell r e := by
  have hr := r.toNat_lt
  have hw := w.toNat_lt
  have he := e.toNat_lt
  have hlen : (e - r).toNat = (w - r).toNat + (e - w).toNat := by
    simp only [toNat_sub] at *
    omega
  have hw' : w.toNat = (r.toNat + (w - r).toNat) % 2 ^ 32 := by
    rw [toNat_sub]
    omega
  unfold window
  rw [hlen, List.range_add, List.map_append, List.map_map]
  congr 1
  apply List.map_congr_left
  intro i _
  show cell ((w.toNat + i) % n) = cell ((r.toNat + ((w - r).toNat + i)) % n)
  rw [← Nat.add_assoc, ← mod_of_dvd hn (r.toNat + (w - r).toNat), ← hw']

/-- Without its last step the distance is one less. -/
theorem toNat_pred (h : r ≠ w) : (w - 1 - r).toNat + 1 = (w - r).toNat := by
  have hr := r.toNat_lt
  have hw := w.toNat_lt
  have hpos := ne_of_lt h
  have h1 : (w - 1).toNat = (2 ^ 32 - 1 + w.toNat) % 2 ^ 32 := toNat_sub w 1
  have h2 := toNat_sub (w - 1) r
  have h3 := toNat_sub w r
  omega

/-- Taking back the counter `w` drops the last element. -/
theorem dropLast (h : r ≠ w) : window n cell r (w - 1) = (window n cell r w).dropLast := by
  have hlen := toNat_pred h
  unfold window
  rw [← hlen, List.range_succ, List.map_append, List.map_singleton, List.dropLast_concat]

/-- The last element lies before `w`. -/
theorem snoc (hn : n ∣ 2 ^ 32) (h : r ≠ w) :
    window n cell r w = window n cell r (w - 1) ++ [cell ((w - 1).toNat % n)] := by
  have hlen := toNat_pred h
  have hr := r.toNat_lt
  have hw := (w - 1).toNat_lt
  have hlast : (r.toNat + (w - 1 - r).toNat) % n = (w - 1).toNat % n := by
    have hcell := mod_of_dvd hn (r.toNat + (w - 1 - r).toNat) 0
    have hw' : (w - 1).toNat = (r.toNat + (w - 1 - r).toNat) % 2 ^ 32 := by
      rw [toNat_sub (w - 1) r]
      omega
    rw [Nat.add_zero, Nat.add_zero, ← hw'] at hcell
    exact hcell.symm
  unfold window
  rw [← hlen, List.range_succ, List.map_append, List.map_singleton, hlast]

/-- Storing at `e` leaves the elements of an earlier window alone. -/
theorem update_before (hn : n ∣ 2 ^ 32) (h : (w - r).toNat + (e - w).toNat < 2 ^ 32)
    (hroom : (e - r).toNat < n) (c : α) :
    window n (Function.update cell (e.toNat % n) c) r w = window n cell r w := by
  have hlen : (e - r).toNat = (w - r).toNat + (e - w).toNat := by
    have happ := congrArg List.length (@append α n cell r w e hn h)
    rw [List.length_append, length, length, length] at happ
    exact happ.symm
  unfold window
  apply List.map_congr_left
  intro i hi
  have hi : i < (w - r).toNat := List.mem_range.1 hi
  exact Function.update_of_ne (cell_ne hn (by omega) hroom) _ _

end Window

end Xv6.Lib
