import Mathlib.Data.Nat.ModEq
import Mathlib.Data.List.Basic
import Mathlib.Logic.Function.Basic

/-!
# Ring buffers

A queue kept in an array of `n` cells with a `front`, a `back` and a `size`
counter, as C code writes it: `push` stores at `back` without looking whether
the ring is full, `pop` reads at `front`. `Ring.toList` is the queue it stands
for.

On a well-formed ring (`Ring.Wf`) with room left the two operations are those of
a queue:

* `toList_push`: `push` appends, as long as `size < n`;
* `toList_pop`, `pop_eq_none`: `pop` takes the head, and gives nothing only when
  the queue is empty;
* `Aligned.push`, `Aligned.pop`: the counters keep fitting each other also in a
  ring that has been pushed beyond its size. What such a ring holds is another
  matter, and `toList` does not describe it.
-/

namespace Xv6.Lib

universe u

/-- A ring of capacity `n`. Cells at or past `n` are never used. -/
structure Ring (α : Type u) (n : Nat) where
  cell : Nat → α
  front : Nat
  back : Nat
  size : Nat

namespace Ring

variable {α : Type u} {n : Nat}

/-- Store at `back` and advance it. -/
def push (r : Ring α n) (x : α) : Ring α n :=
  { r with
    cell := Function.update r.cell r.back x
    back := (r.back + 1) % n
    size := r.size + 1 }

/-- Read at `front` and advance it; an empty ring has nothing to give. -/
def pop (r : Ring α n) : Option (α × Ring α n) :=
  if r.size = 0 then none
  else some (r.cell r.front, { r with front := (r.front + 1) % n, size := r.size - 1 })

/-- The queue the ring stands for, from `front` on. -/
def toList (r : Ring α n) : List α :=
  (List.range r.size).map fun i => r.cell ((r.front + i) % n)

/-- The three counters agree and no live cell is shared by two entries. -/
structure Wf (r : Ring α n) : Prop where
  front_lt : r.front < n
  back_eq : r.back = (r.front + r.size) % n
  size_le : r.size ≤ n

/-- The three counters agree. -/
structure Aligned (r : Ring α n) : Prop where
  front_lt : r.front < n
  back_eq : r.back = (r.front + r.size) % n

theorem Wf.aligned {r : Ring α n} (h : r.Wf) : r.Aligned := ⟨h.front_lt, h.back_eq⟩

/-- Agreeing counters are kept by `push`, whether the ring is full or not. -/
theorem Aligned.push {r : Ring α n} (h : r.Aligned) (x : α) : (r.push x).Aligned where
  front_lt := h.front_lt
  back_eq := by
    show (r.back + 1) % n = (r.front + (r.size + 1)) % n
    rw [h.back_eq, Nat.mod_add_mod, Nat.add_assoc]

/-- Taking the head moves one end of the window, and leaves it aligned. -/
theorem Aligned.pop {r r' : Ring α n} {x : α} (h : r.Aligned) (hp : r.pop = some (x, r')) :
    r'.Aligned := by
  unfold Ring.pop at hp
  split at hp
  · cases hp
  · next hsz =>
      cases hp
      have hn : 0 < n := by have := h.front_lt; omega
      refine ⟨Nat.mod_lt _ hn, ?_⟩
      show r.back = ((r.front + 1) % n + (r.size - 1)) % n
      rw [Nat.mod_add_mod, h.back_eq]
      congr 1
      omega

@[simp] theorem length_toList (r : Ring α n) : r.toList.length = r.size := by
  simp [toList]

/-- Two offsets below `n` that reach the same cell are equal. -/
theorem offset_inj {f i j : Nat} (hi : i < n) (hj : j < n) (h : (f + i) % n = (f + j) % n) :
    i = j := by
  have hmod : i ≡ j [MOD n] := Nat.ModEq.add_left_cancel' f h
  exact hmod.eq_of_lt_of_lt hi hj

theorem wf_push {r : Ring α n} (h : r.Wf) (hroom : r.size < n) (x : α) : (r.push x).Wf where
  front_lt := h.front_lt
  back_eq := (h.aligned.push x).back_eq
  size_le := hroom

/-- With room left, `push` appends. -/
theorem toList_push {r : Ring α n} (h : r.Wf) (hroom : r.size < n) (x : α) :
    (r.push x).toList = r.toList ++ [x] := by
  unfold toList
  show (List.range (r.size + 1)).map _ = _
  rw [List.range_succ, List.map_append]
  congr 1
  · apply List.map_congr_left
    intro i hi
    have hi : i < r.size := List.mem_range.1 hi
    -- a live cell is not the one at `back`
    have hne : (r.front + i) % n ≠ r.back := by
      rw [h.back_eq]
      intro heq
      have : i = r.size := offset_inj (by omega) hroom heq
      omega
    exact Function.update_of_ne hne _ _
  · show [Function.update r.cell r.back x ((r.front + r.size) % n)] = [x]
    rw [← h.back_eq, Function.update_self]

/-- Only an empty ring has nothing to give. -/
theorem pop_eq_none {r : Ring α n} : r.pop = none ↔ r.toList = [] := by
  unfold pop
  split
  · next h => simp [toList, h]
  · next h =>
      have : r.toList.length ≠ 0 := by simpa using h
      constructor
      · intro hc
        cases hc
      · intro hc
        simp [hc] at this

/-- What is left after taking the head is a well-formed ring. -/
theorem wf_pop {r r' : Ring α n} {x : α} (h : r.Wf) (hp : r.pop = some (x, r')) : r'.Wf where
  front_lt := (h.aligned.pop hp).front_lt
  back_eq := (h.aligned.pop hp).back_eq
  size_le := by
    unfold pop at hp
    split at hp
    · cases hp
    · cases hp
      have := h.size_le
      show r.size - 1 ≤ n
      omega

/-- `pop` takes the head of the queue. -/
theorem toList_pop {r r' : Ring α n} {x : α} (h : r.Wf) (hp : r.pop = some (x, r')) :
    r.toList = x :: r'.toList := by
  unfold pop at hp
  split at hp
  · cases hp
  · next hsz =>
      cases hp
      obtain ⟨k, hk⟩ : ∃ k, r.size = k + 1 := ⟨r.size - 1, by omega⟩
      have hf : r.front % n = r.front := Nat.mod_eq_of_lt h.front_lt
      simp only [toList, hk, List.range_succ_eq_map, List.map_cons, List.map_map, Nat.add_zero, hf,
        Nat.add_sub_cancel]
      congr 1
      apply List.map_congr_left
      intro i _
      show r.cell ((r.front + (i + 1)) % n) = r.cell (((r.front + 1) % n + i) % n)
      rw [Nat.mod_add_mod]
      congr 2
      omega

/-- A queue with a head can be popped. -/
theorem pop_of_toList_cons {r : Ring α n} {x : α} {l : List α} (h : r.Wf)
    (hl : r.toList = x :: l) : ∃ r', r.pop = some (x, r') ∧ r'.Wf ∧ r'.toList = l := by
  cases hp : r.pop with
  | none =>
      rw [pop_eq_none, hl] at hp
      cases hp
  | some p =>
      rcases p with ⟨y, r'⟩
      have heq := toList_pop h hp
      rw [hl] at heq
      cases heq
      exact ⟨r', rfl, wf_pop h hp, rfl⟩

end Ring

end Xv6.Lib
