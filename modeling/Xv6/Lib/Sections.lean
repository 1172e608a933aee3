import Xv6.Lib.Prog
import Xv6.Lib.Transition

/-!
# Calls that run section by section

A call is a tree of sections (`Resumption`): each is sequential code that nobody
interrupts, and what it returns decides how the call goes on. Two processes make
one call each, and their sections follow each other in any order (`World.turn`).
A section that stops (it would sleep, or panics) is not run, so a run only holds
steps that go through.

* `run_bind`: run without interruption, a call is the sequence of its sections,
  so the sectioned text of a function can be compared with its whole text;
* `turn_cases`: what one turn can do;
* `reachable_call`: what passes from a call to each of its continuations holds of
  what is left of it in every reachable world.
-/

namespace Xv6.Lib

universe u

/-- A call over sections of kind `S`. -/
inductive Resumption (S : Type → Type u) (α : Type) : Type (max 1 u)
  | ret (a : α)
  | sect {β : Type} (x : S β) (k : β → Resumption S α)

namespace Resumption

open Prog

variable {S : Type → Type u} {α β ε σ : Type}

/-- First `c`, then `f`. -/
def bind : Resumption S α → (α → Resumption S β) → Resumption S β
  | ret a, f => f a
  | sect x k, f => sect x fun b => (k b).bind f

/-- The call without interruption. -/
def run (code : ∀ {β : Type}, S β → Prog ε σ β) : Resumption S α → Prog ε σ α
  | ret a => Pure.pure a
  | sect x k => code x >>= fun b => (k b).run code

/-- Running a composition is running its parts, whatever the sections stand for. -/
theorem run_bind (code : ∀ {β : Type}, S β → Prog ε σ β) (c : Resumption S α)
    (f : α → Resumption S β) :
    (c.bind f).run code = c.run code >>= fun a => (f a).run code := by
  induction c with
  | ret a =>
      show (f a).run code = (Pure.pure a : Prog ε σ α) >>= fun a => (f a).run code
      rw [pure_bind]
  | sect x k ih =>
      show (code x >>= fun b => ((k b).bind f).run code) = _
      rw [run, bind_assoc]
      congr 1
      funext b
      exact ih b

/-- Composition is associative. -/
theorem bind_bind {γ : Type} (c : Resumption S α) (f : α → Resumption S β)
    (g : β → Resumption S γ) :
    (c.bind f).bind g = c.bind fun a => (f a).bind g := by
  induction c with
  | ret a => rfl
  | sect x k ih => exact congrArg (sect x) (funext ih)

end Resumption

/-- The common state of two processes, and what is left of their calls. -/
structure World (S : Type → Type u) (σ α : Type) where
  state : σ
  call : Fin 2 → Resumption S α

namespace World

open Prog

variable {S : Type → Type u} {α ε σ : Type} {w w' : World S σ α} {i j : Fin 2}

/-- Process `i` runs its next section. -/
def turn (code : ∀ {β : Type}, S β → Prog ε σ β) (w : World S σ α) (i : Fin 2) :
    Option (World S σ α) :=
  match w.call i with
  | .ret _ => none
  | .sect x k =>
      match (code x).run w.state with
      | .ok (b, s) => some ⟨s, Function.update w.call i (k b)⟩
      | .error _ => none

/-- What a turn has done. -/
theorem turn_cases {code : ∀ {β : Type}, S β → Prog ε σ β} (h : w.turn code i = some w') :
    ∃ (β : Type) (x : S β) (k : β → Resumption S α) (b : β), w.call i = .sect x k ∧
      (code x).run w.state = .ok (b, w'.state) ∧ w'.call = Function.update w.call i (k b) := by
  unfold turn at h
  cases hc : w.call i with
  | ret a =>
      rw [hc] at h
      cases h
  | sect x k =>
      rw [hc] at h
      dsimp only at h
      cases hx : (code x).run w.state with
      | error e =>
          rw [hx] at h
          cases h
      | ok r =>
          rw [hx] at h
          cases h
          exact ⟨_, x, k, r.1, rfl, hx, rfl⟩

/-- What is left of a call stays a part of it, whatever the other process does. -/
theorem reachable_call {code : ∀ {β : Type}, S β → Prog ε σ β} {init : World S σ α → Prop}
    {P : Resumption S α → Prop} (hinit : ∀ w, init w → P (w.call i))
    (hstep : ∀ {β : Type} (x : S β) (k : β → Resumption S α) (b : β), P (.sect x k) → P (k b)) :
    Reachable init (turn code) w → P (w.call i) := by
  intro hr
  refine hr.invariant (fun w => P (w.call i)) hinit ?_
  intro w j w' hw _ hturn
  rcases turn_cases hturn with ⟨β, x, k, b, hc, -, hcall⟩
  rw [hcall]
  by_cases hij : i = j
  · subst hij
    rw [Function.update_self]
    rw [hc] at hw
    exact hstep x k b hw
  · rw [Function.update_of_ne hij]
    exact hw

end World

end Xv6.Lib
