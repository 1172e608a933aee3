import Xv6.Lib.Prog

/-!
# Code on a part of the state

A component keeps a part of a larger state (`Part`). Its code runs on the whole
through `zoom`, and code on the whole `Covers` code on the part if, whenever it
returns, the other returns a related value from the part and leaves it in the
same state. The larger code may stop where the other goes on.

The rules follow the structure of the code (`Covers.bind`, `Covers.ite`), and an
assignment to the rest of the state adds nothing (`Covers.modify`). So what the
larger code returns, and the part it leaves, are known from the smaller.
-/

namespace Xv6.Lib

/-- How a state of type `τ` holds one of type `σ`. -/
structure Part (τ σ : Type) where
  get : τ → σ
  put : τ → σ → τ
  get_put : ∀ t s, get (put t s) = s
  put_put : ∀ t s s', put (put t s) s' = put t s'

namespace Prog

variable {ε σ τ α β α' β' : Type} {l : Part τ σ}

/-- Run `x` on the part. -/
def zoom (l : Part τ σ) (x : Prog ε σ α) : Prog ε τ α := fun t =>
  match x (l.get t) with
  | .ok (a, s) => .ok (a, l.put t s)
  | .error e => .error e

/-- Code on a part of the state: the rest is as it was. -/
@[simp] theorem wp_zoom {x : Prog ε σ α} {t : τ} {Q : α → τ → Prop} {E : ε → Prop} :
    wp (zoom l x) t Q E ↔ wp x (l.get t) (fun a s => Q a (l.put t s)) E := by
  unfold wp
  have hrun : (zoom l x).run t =
      match x.run (l.get t) with
      | .ok (a, s) => .ok (a, l.put t s)
      | .error e => .error e := rfl
  rw [hrun]
  cases x.run (l.get t) with
  | ok r => rfl
  | error e => rfl

/-- If `y` returns from the part with `Q`, so does `x` from the whole, up to `R`
between the results. -/
def Covers (l : Part τ σ) (R : α → β → Prop) (x : Prog ε τ α) (y : Prog ε σ β) : Prop :=
  ∀ t Q, wp y (l.get t) Q (fun _ => True) →
    wp x t (fun a t' => ∃ b, R a b ∧ Q b (l.get t')) fun _ => True

namespace Covers

variable {R : α → β → Prop} {R' : α' → β' → Prop} {x : Prog ε τ α} {y : Prog ε σ β}

theorem pure {a : α} {b : β} (h : R a b) :
    Covers l R (pure a : Prog ε τ α) (pure b : Prog ε σ β) := by
  intro t Q hQ
  exact (wp_pure ..).2 ⟨b, h, (wp_pure ..).1 hQ⟩

theorem throw {e : ε} (y : Prog ε σ β) : Covers l R (throw e : Prog ε τ α) y := by
  intro t Q _
  exact (wp_throw ..).2 trivial

/-- Covering composes. -/
theorem bind {f : α → Prog ε τ α'} {g : β → Prog ε σ β'} (h : Covers l R x y)
    (hf : ∀ a b, R a b → Covers l R' (f a) (g b)) : Covers l R' (x >>= f) (y >>= g) := by
  intro t Q hQ
  rw [wp_bind] at hQ ⊢
  apply (h t _ hQ).mono
  · rintro a t' ⟨b, hab, hb⟩
    exact hf a b hab t' Q hb
  · intro e he
    exact he

/-- Code on the part covers itself. -/
theorem zoom (y : Prog ε σ α) : Covers l Eq (zoom l y) y := by
  intro t Q hQ
  rw [wp_zoom]
  apply hQ.mono
  · intro a s hs
    exact ⟨a, rfl, by rwa [l.get_put]⟩
  · intro e he
    exact he

/-- An assignment that leaves the part alone. -/
theorem modify {f : τ → τ} (hf : ∀ t, l.get (f t) = l.get t) (h : Covers l R x y) :
    Covers l R (modify f >>= fun _ => x) y := by
  intro t Q hQ
  rw [wp_bind, wp_modify]
  exact h (f t) Q (by rwa [hf])

/-- Covering branch by branch, where the two conditions agree. -/
theorem ite {c : Prop} [Decidable c] {x' : Prog ε τ α} {y' : Prog ε σ β}
    (hx : c → Covers l R x y) (hy : ¬ c → Covers l R x' y') :
    Covers l R (if c then x else x') (if c then y else y') := by
  split
  · next h => exact hx h
  · next h => exact hy h

end Covers

end Prog

end Xv6.Lib
