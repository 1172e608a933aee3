import Mathlib.Data.List.Nodup

/-!
# Who holds what

A pool of resources of type `α`, some free and the others held by owners of type
`ι`. `Ledger free holds` says that nothing free is held and nothing is held
twice. An allocator takes the head of the free list and gives it to an owner
(`take`), or puts back what an owner lets go (`back`); between these moves owners
can pass resources on and drop them (`mono`, `pass`).

Code that works for one owner can see the others as one: `merge` reads a ledger
through a map of the owners, and `comap` splits the merged owner again once its
share is known. Each rule keeps `Ledger`, so an invariant over a run of allocator
calls is a chain of them.
-/

namespace Xv6.Lib

universe u v w

variable {α : Type u} {ι : Type v} {κ : Type w}

/-- No resource is free and held, free twice, or held by two owners. -/
structure Ledger (free : List α) (holds : ι → α → Prop) : Prop where
  nodup : free.Nodup
  idle : ∀ a ∈ free, ∀ i, ¬ holds i a
  apart : ∀ i j a, holds i a → holds j a → i = j

namespace Ledger

variable {free free' : List α} {holds holds' : ι → α → Prop} {a : α}

/-- Owners may drop what they hold. -/
theorem mono (h : Ledger free holds) (hle : ∀ i a, holds' i a → holds i a) :
    Ledger free holds' where
  nodup := h.nodup
  idle := fun a ha i hi => h.idle a ha i (hle i a hi)
  apart := fun i j a hi hj => h.apart i j a (hle i a hi) (hle j a hj)

/-- The head of the free list goes to one owner. -/
theorem take (h : Ledger (a :: free) holds) (i : ι)
    (hle : ∀ j b, holds' j b → holds j b ∨ j = i ∧ b = a) : Ledger free holds' where
  nodup := (List.nodup_cons.1 h.nodup).2
  idle := by
    intro b hb j hj
    rcases hle j b hj with hj | ⟨-, rfl⟩
    · exact h.idle b (List.mem_cons_of_mem _ hb) j hj
    · exact (List.nodup_cons.1 h.nodup).1 hb
  apart := by
    intro j k b hj hk
    rcases hle j b hj with h1 | ⟨h1, h2⟩
    · rcases hle k b hk with h3 | ⟨-, rfl⟩
      · exact h.apart j k b h1 h3
      · exact absurd h1 (h.idle b List.mem_cons_self j)
    · rcases hle k b hk with h3 | ⟨h3, -⟩
      · exact absurd (h2 ▸ h3) (h.idle a List.mem_cons_self k)
      · rw [h1, h3]

/-- What an owner lets go goes back to the pool. -/
theorem back (h : Ledger free holds) {i : ι} (ha : holds i a)
    (hle : ∀ j b, holds' j b → holds j b ∧ b ≠ a) : Ledger (a :: free) holds' where
  nodup := List.nodup_cons.2 ⟨fun hm => h.idle a hm i ha, h.nodup⟩
  idle := by
    intro b hb j hj
    rcases hle j b hj with ⟨h1, hne⟩
    rcases List.mem_cons.1 hb with rfl | hb
    · exact hne rfl
    · exact h.idle b hb j h1
  apart := fun j k b hj hk => h.apart j k b (hle j b hj).1 (hle k b hk).1

/-- What one owner holds passes to another. -/
theorem pass (h : Ledger free holds) {i : ι} (ha : holds i a) (j : ι)
    (hle : ∀ k b, holds' k b → holds k b ∧ b ≠ a ∨ k = j ∧ b = a) : Ledger free holds' :=
  have hback : Ledger (a :: free) fun k b => holds k b ∧ b ≠ a := h.back ha fun _ _ hb => hb
  hback.take j hle

/-- Some owners seen as one. -/
theorem merge (h : Ledger free holds) (f : ι → κ) :
    Ledger free fun k a => ∃ i, f i = k ∧ holds i a where
  nodup := h.nodup
  idle := by
    rintro a ha k ⟨i, -, hi⟩
    exact h.idle a ha i hi
  apart := by
    rintro k l a ⟨i, rfl, hi⟩ ⟨j, rfl, hj⟩
    rw [h.apart i j a hi hj]

/-- Owners told apart again: those seen as one must not share. -/
theorem comap {seen : κ → α → Prop} (h : Ledger free seen) (f : ι → κ)
    (hle : ∀ i a, holds i a → seen (f i) a)
    (hsep : ∀ i j a, f i = f j → holds i a → holds j a → i = j) : Ledger free holds where
  nodup := h.nodup
  idle := fun a ha i hi => h.idle a ha (f i) (hle i a hi)
  apart := fun i j a hi hj => hsep i j a (h.apart _ _ a (hle i a hi) (hle j a hj)) hi hj

end Ledger

end Xv6.Lib
