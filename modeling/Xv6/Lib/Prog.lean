import Mathlib.Logic.Basic
import Mathlib.Data.List.Basic

/-!
# Sequential code

Code that runs on a state of type `σ` and returns, or stops with a reason of
type `ε` (a panic, a sleep nobody ends). `wp x s Q E` says that `x`, run from
`s`, returns with `Q` or stops with `E`; with `E` false it is total correctness
(`Ends`), with `Q` false it says that the code stops (`Stops`).

* `wp.mono`, `wp.and`: the rule of consequence and the conjunction rule;
* `wp_bind`, `wp_pure`, `wp_throw`, `wp_modify`: the structure of the code, as
  simp lemmas, so that a specification is proved by following the text;
* `Within`: code all of whose steps stay inside a relation does so as a whole,
  which is what frame conditions are proved with.

There is no rule for loops. Code with a loop is a function by recursion on its
bound, and its specification an induction on it.
-/

namespace Xv6.Lib

universe u v

/-- Sequential code over the state `σ`. -/
abbrev Prog (ε σ α : Type) := StateT σ (Except ε) α

namespace Prog

variable {ε σ α β : Type}

/-- `x` from `s` returns with `Q` or stops with `E`. -/
def wp (x : Prog ε σ α) (s : σ) (Q : α → σ → Prop) (E : ε → Prop) : Prop :=
  match x.run s with
  | .ok (a, s') => Q a s'
  | .error e => E e

/-- `x` from `s` returns with `Q`. -/
abbrev Ends (x : Prog ε σ α) (s : σ) (Q : α → σ → Prop) : Prop :=
  wp x s Q fun _ => False

/-- `x` from `s` does not return. -/
abbrev Stops (x : Prog ε σ α) (s : σ) : Prop :=
  wp x s (fun _ _ => False) fun _ => True

/-! ## Consequences -/

/-- The rule of consequence, for the result and for the stops. -/
theorem wp.mono {x : Prog ε σ α} {s : σ} {Q Q' : α → σ → Prop} {E E' : ε → Prop}
    (h : wp x s Q E) (hQ : ∀ a s', Q a s' → Q' a s') (hE : ∀ e, E e → E' e) :
    wp x s Q' E' := by
  unfold wp at h ⊢
  cases hx : x.run s with
  | ok p =>
      rw [hx] at h
      exact hQ _ _ h
  | error e =>
      rw [hx] at h
      exact hE _ h

theorem Ends.mono {x : Prog ε σ α} {s : σ} {Q Q' : α → σ → Prop} {E : ε → Prop}
    (h : Ends x s Q) (hQ : ∀ a s', Q a s' → Q' a s') : wp x s Q' E :=
  wp.mono h hQ fun _ he => he.elim

/-- Code that ends has a result. -/
theorem Ends.exists {x : Prog ε σ α} {s : σ} {Q : α → σ → Prop} (h : Ends x s Q) :
    ∃ a s', x.run s = .ok (a, s') ∧ Q a s' := by
  unfold Ends wp at h
  cases hx : x.run s with
  | ok p =>
      rw [hx] at h
      exact ⟨p.1, p.2, rfl, h⟩
  | error e =>
      rw [hx] at h
      exact h.elim

/-- Two specifications of the same run. -/
theorem wp.inter {x : Prog ε σ α} {s : σ} {Q Q' : α → σ → Prop} {E E' : ε → Prop} (h : wp x s Q E)
    (h' : wp x s Q' E') : wp x s (fun a s' => Q a s' ∧ Q' a s') (fun e => E e ∧ E' e) := by
  unfold wp at h h' ⊢
  cases hx : x.run s with
  | ok p =>
      rw [hx] at h h'
      exact ⟨h, h'⟩
  | error e =>
      rw [hx] at h h'
      exact ⟨h, h'⟩

theorem wp.and {x : Prog ε σ α} {s : σ} {Q Q' : α → σ → Prop} {E : ε → Prop} (h : wp x s Q E)
    (h' : wp x s Q' E) : wp x s (fun a s' => Q a s' ∧ Q' a s') E :=
  wp.mono (h.inter h') (fun _ _ hQ => hQ) fun _ he => he.1

/-- Two specifications of a run of which one says that it returns. -/
theorem wp.exists_and {x : Prog ε σ α} {s : σ} {Q Q' : α → σ → Prop} {E : ε → Prop}
    (h : wp x s (fun a s' => Q a s' ∧ Q' a s') fun e => False ∧ E e) :
    ∃ a s', x.run s = .ok (a, s') ∧ Q a s' ∧ Q' a s' :=
  Ends.exists (wp.mono h (fun _ _ hQ => hQ) fun _ he => he.1)

/-- A postcondition of the run itself. -/
theorem wp_run {x : Prog ε σ α} {s : σ} {Q : α → σ → Prop}
    (h : ∀ a s', x.run s = .ok (a, s') → Q a s') : wp x s Q fun _ => True := by
  unfold wp
  cases hx : x.run s with
  | ok p => exact h _ _ hx
  | error e => trivial

/-- A specification and the run itself. -/
theorem wp.and_run {x : Prog ε σ α} {s : σ} {Q : α → σ → Prop} {E : ε → Prop} (h : wp x s Q E) :
    wp x s (fun a s' => Q a s' ∧ x.run s = .ok (a, s')) E :=
  wp.mono (h.inter (wp_run fun _ _ hrun => hrun)) (fun _ _ hQ => hQ) fun _ he => he.1

/-- A postcondition that always holds. -/
theorem wp_any {x : Prog ε σ α} {s : σ} {Q : α → σ → Prop} (h : ∀ a s', Q a s') :
    wp x s Q fun _ => True :=
  wp_run fun a s' _ => h a s'

/-- What a run that returned satisfies. -/
theorem wp.of_ok {x : Prog ε σ α} {s s' : σ} {a : α} {Q : α → σ → Prop} {E : ε → Prop}
    (h : wp x s Q E) (hx : x.run s = .ok (a, s')) : Q a s' := by
  unfold wp at h
  rw [hx] at h
  exact h

/-- What a run that stopped satisfies. -/
theorem wp.of_error {x : Prog ε σ α} {s : σ} {e : ε} {Q : α → σ → Prop} {E : ε → Prop}
    (h : wp x s Q E) (hx : x.run s = .error e) : E e := by
  unfold wp at h
  rw [hx] at h
  exact h

/-- Whether a run stopped for the reason `e`. -/
def stopped [DecidableEq ε] {β : Type} (r : Except ε β) (e : ε) : Bool :=
  match r with
  | .ok _ => false
  | .error e' => e' = e

theorem eq_of_stopped [DecidableEq ε] {β : Type} {r : Except ε β} {e : ε} (h : stopped r e = true) :
    r = .error e := by
  cases r with
  | ok p => cases h
  | error e' => rw [of_decide_eq_true h]

theorem Stops.ne_ok {x : Prog ε σ α} {s s' : σ} {a : α} (h : Stops x s)
    (hx : x.run s = .ok (a, s')) : False :=
  wp.of_ok h hx

/-- What does not return satisfies any postcondition. -/
theorem Stops.wp {x : Prog ε σ α} {s : σ} {Q : α → σ → Prop} (h : Stops x s) :
    wp x s Q fun _ => True :=
  wp.mono h (fun _ _ hf => hf.elim) fun _ ht => ht

theorem wp_of_ok {x : Prog ε σ α} {s s' : σ} {a : α} {Q : α → σ → Prop} {E : ε → Prop}
    (hx : x.run s = .ok (a, s')) (hQ : Q a s') : wp x s Q E := by
  unfold wp
  rw [hx]
  exact hQ

/-! ## The structure of the code -/

@[simp] theorem wp_pure (a : α) (s : σ) (Q : α → σ → Prop) (E : ε → Prop) :
    wp (pure a : Prog ε σ α) s Q E ↔ Q a s := Iff.rfl

/-- The rule of composition. -/
@[simp] theorem wp_bind (x : Prog ε σ α) (f : α → Prog ε σ β) (s : σ) (Q : β → σ → Prop)
    (E : ε → Prop) :
    wp (x >>= f) s Q E ↔ wp x s (fun a s' => wp (f a) s' Q E) E := by
  unfold wp
  rw [StateT.run_bind]
  cases x.run s with
  | ok p => rfl
  | error e => rfl

@[simp] theorem wp_get (s : σ) (Q : σ → σ → Prop) (E : ε → Prop) :
    wp (get : Prog ε σ σ) s Q E ↔ Q s s := Iff.rfl

@[simp] theorem wp_modify (f : σ → σ) (s : σ) (Q : PUnit → σ → Prop) (E : ε → Prop) :
    wp (modify f : Prog ε σ PUnit) s Q E ↔ Q ⟨⟩ (f s) := Iff.rfl

@[simp] theorem wp_set (t s : σ) (Q : PUnit → σ → Prop) (E : ε → Prop) :
    wp (set t : Prog ε σ PUnit) s Q E ↔ Q ⟨⟩ t := Iff.rfl

@[simp] theorem wp_throw (e : ε) (s : σ) (Q : α → σ → Prop) (E : ε → Prop) :
    wp (throw e : Prog ε σ α) s Q E ↔ E e := Iff.rfl

/-- Code that satisfies what other code satisfies runs as that does. -/
theorem run_eq_of_wp {x y : Prog ε σ α} {s : σ} (h : ∀ Q E, wp x s Q E → wp y s Q E) :
    y.run s = x.run s := by
  -- the postcondition that says exactly how `x` ends holds of `y` too
  have hx := h (fun a s' => x.run s = .ok (a, s')) (fun e => x.run s = .error e)
  unfold wp at hx
  cases hrun : x.run s with
  | ok p =>
      simp only [hrun] at hx
      specialize hx trivial
      cases hy : y.run s with
      | ok q =>
          rw [hy] at hx
          exact hx.symm
      | error e =>
          rw [hy] at hx
          cases hx
  | error e =>
      simp only [hrun] at hx
      specialize hx trivial
      cases hy : y.run s with
      | ok q =>
          rw [hy] at hx
          cases hx
      | error e' =>
          rw [hy] at hx
          exact hx.symm

theorem wp_congr {x y : Prog ε σ α} {s : σ} {Q : α → σ → Prop} {E : ε → Prop}
    (h : x.run s = y.run s) : wp x s Q E ↔ wp y s Q E := by
  unfold wp
  rw [h]

-- `wp` of a program at a closed state must not be evaluated by running the program
attribute [irreducible] wp

/-- Each branch under its condition. -/
theorem wp_ite {c : Prop} [Decidable c] {x y : Prog ε σ α} {s : σ} {Q : α → σ → Prop}
    {E : ε → Prop} (hx : c → wp x s Q E) (hy : ¬ c → wp y s Q E) :
    wp (if c then x else y) s Q E := by
  split
  · next h => exact hx h
  · next h => exact hy h

/-! ## Effects -/

/-- From any state the code makes a step of `R`, or stops with `E`. -/
def Within (R : σ → σ → Prop) (E : ε → Prop) (x : Prog ε σ α) : Prop :=
  ∀ s, wp x s (fun _ s' => R s s') E

namespace Within

variable {R : σ → σ → Prop} {E : ε → Prop}

theorem pure (hrefl : ∀ s, R s s) (a : α) : Within R E (pure a : Prog ε σ α) := fun s =>
  (wp_pure ..).2 (hrefl s)

theorem get (hrefl : ∀ s, R s s) : Within R E (get : Prog ε σ σ) := fun s => (wp_get ..).2 (hrefl s)

theorem throw {e : ε} (he : E e) : Within R E (throw e : Prog ε σ α) := fun _ => (wp_throw ..).2 he

theorem modify {f : σ → σ} (hf : ∀ s, R s (f s)) :
    Within R E (modify f : Prog ε σ PUnit) := fun s =>
  (wp_modify ..).2 (hf s)

/-- Composition of code whose effects compose. -/
theorem bind (htrans : ∀ s1 s2 s3, R s1 s2 → R s2 s3 → R s1 s3) {x : Prog ε σ α}
    {f : α → Prog ε σ β} (hx : Within R E x) (hf : ∀ a, Within R E (f a)) :
    Within R E (x >>= f) := by
  intro s
  rw [wp_bind]
  refine wp.mono (hx s) ?_ fun _ he => he
  intro a s1 h1
  refine wp.mono (hf a s1) ?_ fun _ he => he
  intro b s2 h2
  exact htrans s s1 s2 h1 h2

theorem ite {c : Prop} [Decidable c] {x y : Prog ε σ α} (hx : c → Within R E x)
    (hy : ¬ c → Within R E y) : Within R E (if c then x else y) := by
  intro s
  exact wp_ite (fun h => hx h s) fun h => hy h s

end Within

end Prog

end Xv6.Lib
