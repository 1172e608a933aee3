import Mathlib.Data.List.Basic
import Mathlib.Logic.Function.Basic

/-!
# Tables of slots

A table is a list of slots, each free or taken by a key with its value. A new
entry goes into the first free slot, or to the end (`place`); an entry is removed
by freeing its slot, and slots are never moved.

While no two slots have one key (`Distinct`), the table is a finite map, and the
operations are updates of it:

* `lookup_iff`: what is looked up is what some slot holds;
* `lookup_place`, `distinct_place`: placing a key that is absent adds it;
* `lookup_remove`, `distinct_remove`: removing a key takes it out and leaves the
  others where they are.
-/

namespace Xv6.Lib

variable {κ ν : Type}

/-- A table of slots. -/
abbrev Slots (κ ν : Type) := List (Option (κ × ν))

namespace Slots

variable {l : Slots κ ν} {i j : Nat} {k k' : κ} {v w : ν} {e : Option (κ × ν)}

/-- Slot `i` is taken by `k`, with the value `v`. -/
def At (l : Slots κ ν) (i : Nat) (k : κ) (v : ν) : Prop := l[i]? = some (some (k, v))

/-- No two slots have one key. -/
def Distinct (l : Slots κ ν) : Prop := ∀ i j k v w, At l i k v → At l j k w → i = j

/-- Slot `i` holds `e`; slot `l.length` is the one after the last. -/
def put (l : Slots κ ν) (i : Nat) (e : Option (κ × ν)) : Slots κ ν :=
  if i < l.length then l.set i e else l ++ [e]

/-- The first free slot, or the end. -/
def free (l : Slots κ ν) : Nat :=
  ((List.range l.length).find? fun i => (l.getD i none).isNone).getD l.length

/-- Take the first free slot. -/
def place (l : Slots κ ν) (k : κ) (v : ν) : Slots κ ν := put l (free l) (some (k, v))

section keys

variable [DecidableEq κ]

/-- The first slot that `k` has taken. -/
def index (l : Slots κ ν) (k : κ) : Option Nat :=
  (List.range l.length).find? fun i => (l.getD i none).map Prod.fst = some k

/-- The value of `k`, and its slot. -/
def lookup (l : Slots κ ν) (k : κ) : Option (ν × Nat) :=
  (index l k).bind fun i => (l.getD i none).map fun e => (e.2, i)

/-- Free the slot of `k`. -/
def remove (l : Slots κ ν) (k : κ) : Slots κ ν :=
  match index l k with
  | some i => l.set i none
  | none => l

end keys

/-! ## Slots -/

theorem At.lt (h : At l i k v) : i < l.length := (List.getElem?_eq_some_iff.1 h).1

theorem getD_of_at (h : At l i k v) : l.getD i none = some (k, v) := by
  rw [List.getD_eq_getElem?_getD, h]
  rfl

/-- What is read at an index is there. -/
theorem at_of_getD (h : l.getD i none = some (k, v)) : At l i k v := by
  unfold At
  rw [List.getD_eq_getElem?_getD] at h
  cases hi : l[i]? with
  | none =>
      rw [hi] at h
      cases h
  | some e =>
      rw [hi] at h
      exact congrArg some h

theorem free_le (l : Slots κ ν) : free l ≤ l.length := by
  unfold free
  cases h : (List.range l.length).find? fun i => (l.getD i none).isNone with
  | none => exact Nat.le_refl _
  | some i => exact Nat.le_of_lt (List.mem_range.1 (List.mem_of_find?_eq_some h))

/-- The slot that is found is free. -/
theorem free_getD (l : Slots κ ν) : l.getD (free l) none = none := by
  unfold free
  cases h : (List.range l.length).find? fun i => (l.getD i none).isNone with
  | none =>
      rw [Option.getD_none, List.getD_eq_getElem?_getD, List.getElem?_eq_none (Nat.le_refl _)]
      rfl
  | some i =>
      have hfree : (l.getD i none).isNone = true :=
        List.find?_some (p := fun i => (l.getD i none).isNone) h
      exact Option.isNone_iff_eq_none.1 hfree

/-- Putting an entry right behind the last one makes the table longer by one. -/
theorem length_put (hi : i ≤ l.length) : (put l i e).length = max l.length (i + 1) := by
  unfold put
  split
  · rw [List.length_set]
    omega
  · rw [List.length_append, List.length_singleton]
    omega

/-- Putting changes one slot. -/
theorem put_getD (hi : i ≤ l.length) (j : Nat) :
    (put l i e).getD j none = if j = i then e else l.getD j none := by
  unfold put
  rw [List.getD_eq_getElem?_getD, List.getD_eq_getElem?_getD]
  by_cases hj : j = i
  · subst hj
    rw [if_pos rfl]
    split
    · next hlt =>
        rw [List.getElem?_set_self hlt]
        rfl
    · rw [List.getElem?_append_right (by omega), show j - l.length = 0 by omega]
      rfl
  · rw [if_neg hj]
    split
    · rw [List.getElem?_set_ne (Ne.symm hj)]
    · rcases Nat.lt_or_ge j l.length with hlt | hge
      · rw [List.getElem?_append_left hlt]
      · rw [List.getElem?_eq_none (by rw [List.length_append, List.length_singleton]; omega),
          List.getElem?_eq_none hge]

theorem at_iff_getD : At l i k v ↔ l.getD i none = some (k, v) := ⟨getD_of_at, at_of_getD⟩

/-- The same as a relation. -/
theorem put_at (hi : i ≤ l.length) :
    At (put l i e) j k v ↔ if j = i then e = some (k, v) else At l j k v := by
  rw [at_iff_getD, put_getD hi]
  split
  · rfl
  · exact at_iff_getD.symm

/-- An entry is placed where nothing was, and all others stay. -/
theorem place_at : At (place l k v) j k' w ↔ j = free l ∧ k' = k ∧ w = v ∨ At l j k' w := by
  unfold place
  rw [put_at (free_le l)]
  by_cases hj : j = free l
  · rw [if_pos hj]
    have hno : ¬ At l j k' w := by
      intro h
      have := getD_of_at h
      rw [hj, free_getD] at this
      cases this
    constructor
    · intro h
      cases h
      exact .inl ⟨hj, rfl, rfl⟩
    · rintro (⟨-, rfl, rfl⟩ | h)
      · rfl
      · exact absurd h hno
  · rw [if_neg hj]
    exact ⟨.inr, fun h => h.resolve_left fun h => hj h.1⟩

/-- A new entry costs one slot at most. -/
theorem length_place_le (l : Slots κ ν) (k : κ) (v : ν) : (place l k v).length ≤ l.length + 1 := by
  unfold place put
  split
  · rw [List.length_set]
    exact Nat.le_succ _
  · rw [List.length_append]
    exact Nat.le_refl _

/-! ## The map -/

variable [DecidableEq κ]

/-- The index that is found holds the key. -/
theorem index_some (h : index l k = some i) : ∃ v, At l i k v := by
  unfold index at h
  have hkey := List.find?_some h
  rw [decide_eq_true_iff, Option.map_eq_some_iff] at hkey
  rcases hkey with ⟨⟨k', v⟩, he, rfl⟩
  exact ⟨v, at_of_getD he⟩

theorem index_none (h : index l k = none) : ¬ At l i k v := by
  intro hat
  have hno := List.find?_eq_none.1 h i (List.mem_range.2 hat.lt)
  rw [getD_of_at hat] at hno
  exact hno (decide_eq_true rfl)

/-- Where keys are distinct, the slot that holds a key is the one found. -/
theorem index_of_at (hd : Distinct l) (h : At l i k v) : index l k = some i := by
  cases hidx : index l k with
  | none => exact absurd h (index_none hidx)
  | some j =>
      rcases index_some hidx with ⟨w, hj⟩
      rw [hd j i k w v hj h]

/-- A lookup returns what the slot holds. -/
theorem lookup_some (h : lookup l k = some (v, i)) : At l i k v := by
  unfold lookup at h
  rw [Option.bind_eq_some_iff] at h
  rcases h with ⟨j, hidx, hj⟩
  rcases index_some hidx with ⟨w, hat⟩
  rw [getD_of_at hat] at hj
  cases hj
  exact hat

theorem lookup_iff (hd : Distinct l) : lookup l k = some (v, i) ↔ At l i k v := by
  refine ⟨lookup_some, fun h => ?_⟩
  unfold lookup
  rw [index_of_at hd h, Option.bind_some, getD_of_at h]
  rfl

/-- A lookup fails where no index is found. -/
theorem lookup_none : lookup l k = none ↔ index l k = none := by
  unfold lookup
  cases hidx : index l k with
  | none => exact ⟨fun _ => rfl, fun _ => rfl⟩
  | some i =>
      rcases index_some hidx with ⟨v, hat⟩
      rw [Option.bind_some, getD_of_at hat]
      exact ⟨nofun, nofun⟩

/-- Tables with the same entries are the same map. -/
theorem lookup_eq_of_at {f : Option (ν × Nat)} (hd : Distinct l)
    (h : ∀ v i, At l i k v ↔ f = some (v, i)) : lookup l k = f := by
  apply Option.ext
  rintro ⟨v, i⟩
  rw [lookup_iff hd]
  exact h v i

/-- Placing a key that is not there keeps the keys distinct. -/
theorem distinct_place (hd : Distinct l) (hk : lookup l k = none) : Distinct (place l k v) := by
  have hno : ∀ i w, ¬ At l i k w := fun i w => index_none (lookup_none.1 hk)
  intro i j k' v' w' hi hj
  rw [place_at] at hi hj
  rcases hi with ⟨rfl, rfl, -⟩ | hi <;> rcases hj with ⟨rfl, hkj, -⟩ | hj
  · rfl
  · exact absurd hj (hno _ _)
  · subst hkj
    exact absurd hi (hno _ _)
  · exact hd i j k' v' w' hi hj

/-- Placing an entry is an update of the map. -/
theorem lookup_place (hd : Distinct l) (hk : lookup l k = none) :
    lookup (place l k v) = Function.update (lookup l) k (some (v, free l)) := by
  funext k'
  refine lookup_eq_of_at (distinct_place hd hk) fun w i => ?_
  rw [place_at]
  by_cases hkk : k' = k
  · subst hkk
    rw [Function.update_self]
    constructor
    · rintro (⟨rfl, -, rfl⟩ | h)
      · rfl
      · exact absurd h (index_none (lookup_none.1 hk))
    · intro h
      cases h
      exact .inl ⟨rfl, rfl, rfl⟩
  · rw [Function.update_of_ne hkk, lookup_iff hd]
    exact ⟨fun h => h.resolve_left fun h => hkk h.2.1, .inr⟩

/-- Removing a key takes its entry out and leaves all others at their places. -/
theorem remove_at (hd : Distinct l) : At (remove l k) i k' v ↔ k' ≠ k ∧ At l i k' v := by
  unfold remove
  cases hidx : index l k with
  | none =>
      -- a key that is not there is not removed, and no slot has it
      refine ⟨fun h => ⟨?_, h⟩, fun h => h.2⟩
      rintro rfl
      exact index_none hidx h
  | some j =>
      rcases index_some hidx with ⟨w, hat⟩
      dsimp only
      by_cases hij : i = j
      · subst hij
        unfold At
        rw [List.getElem?_set_self hat.lt]
        refine ⟨nofun, fun ⟨hne, h⟩ => ?_⟩
        rw [hat] at h
        cases h
        exact absurd rfl hne
      -- another slot than the one emptied: its key is another one, since the keys are distinct
      · unfold At
        rw [List.getElem?_set_ne (Ne.symm hij)]
        refine ⟨fun h => ⟨?_, h⟩, fun h => h.2⟩
        rintro rfl
        exact hij (hd i j k' v w h hat)

theorem distinct_remove (hd : Distinct l) : Distinct (remove l k) := by
  intro i j k' v' w' hi hj
  exact hd i j k' v' w' ((remove_at hd).1 hi).2 ((remove_at hd).1 hj).2

/-- Removing an entry is an update of the map. -/
theorem lookup_remove (hd : Distinct l) :
    lookup (remove l k) = Function.update (lookup l) k none := by
  funext k'
  refine lookup_eq_of_at (distinct_remove hd) fun w i => ?_
  rw [remove_at hd]
  by_cases hkk : k' = k
  · subst hkk
    rw [Function.update_self]
    exact ⟨fun h => absurd rfl h.1, nofun⟩
  · rw [Function.update_of_ne hkk, lookup_iff hd]
    exact ⟨fun h => h.2, fun h => ⟨hkk, h⟩⟩

theorem length_remove (l : Slots κ ν) (k : κ) : (remove l k).length = l.length := by
  unfold remove
  cases index l k with
  | none => rfl
  | some i => exact List.length_set

end Slots

end Xv6.Lib
