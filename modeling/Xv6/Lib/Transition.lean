import Mathlib.Logic.Basic
import Mathlib.Data.List.Basic

/-!
# Labelled transition systems

A system is a step function `next : σ → α → Option σ`: the label says which
party moves and settles every choice the environment has, `none` means that the
step is not possible (or that the code stops there). The two rules every safety
proof below rests on:

* `ReachOk.invariant`: an invariant kept by every step that meets a side
  condition holds in every state reached by such steps;
* `trace_good_iff`: if a step from a good state ends in a good state exactly
  when it meets the side condition, then a whole run stays good exactly when
  every one of its steps meets it.
-/

namespace Xv6.Lib

universe u v

variable {σ : Type u} {α : Type v}

/-! ## Reachable states -/

/-- The states reached from `init` by steps that all meet `ok`, a condition on
the label and on the state the step is taken in. -/
inductive ReachOk (init : σ → Prop) (next : σ → α → Option σ) (ok : σ → α → Prop) : σ → Prop
  | init {s : σ} (h : init s) : ReachOk init next ok s
  | step {s s' : σ} {a : α} (hr : ReachOk init next ok s) (ha : ok s a)
      (hs : next s a = some s') : ReachOk init next ok s'

/-- The states reached by any steps at all. -/
abbrev Reachable (init : σ → Prop) (next : σ → α → Option σ) : σ → Prop :=
  ReachOk init next (fun _ _ => True)

/-- Inductive invariance along the steps that meet `ok`. -/
theorem ReachOk.invariant {init : σ → Prop} {next : σ → α → Option σ} {ok : σ → α → Prop}
    (inv : σ → Prop) (hinit : ∀ s, init s → inv s)
    (hstep : ∀ s a s', inv s → ok s a → next s a = some s' → inv s') :
    ∀ {s}, ReachOk init next ok s → inv s := by
  intro s hr
  induction hr with
  | init h => exact hinit _ h
  | step _ ha hs ih => exact hstep _ _ _ ih ha hs

/-- A stronger side condition reaches fewer states. -/
theorem ReachOk.mono {init : σ → Prop} {next : σ → α → Option σ} {ok ok' : σ → α → Prop}
    (h : ∀ s a, ok s a → ok' s a) :
    ∀ {s}, ReachOk init next ok s → ReachOk init next ok' s := by
  intro s hr
  induction hr with
  | init h0 => exact .init h0
  | step _ ha hs ih => exact .step ih (h _ _ ha) hs

/-- Take the steps of a list of labels in order. -/
def exec (next : σ → α → Option σ) : σ → List α → Option σ
  | s, [] => some s
  | s, a :: as => (next s a).bind fun s' => exec next s' as

@[simp] theorem exec_nil (next : σ → α → Option σ) (s : σ) : exec next s [] = some s := rfl

theorem exec_cons (next : σ → α → Option σ) (s : σ) (a : α) (as : List α) :
    exec next s (a :: as) = (next s a).bind fun s' => exec next s' as := rfl

/-- A run in two parts. -/
theorem exec_append (next : σ → α → Option σ) (s : σ) (as bs : List α) :
    exec next s (as ++ bs) = (exec next s as).bind fun s' => exec next s' bs := by
  induction as generalizing s with
  | nil => rfl
  | cons a as ih =>
      cases h : next s a with
      | none => simp [exec_cons, h]
      | some s' => simp [exec_cons, h, ih]

/-- Where labels that always meet the condition lead from a reachable state. -/
theorem ReachOk.exec {init : σ → Prop} {next : σ → α → Option σ} {ok : σ → α → Prop}
    {s s' : σ} {as : List α} (hr : ReachOk init next ok s) (hok : ∀ a ∈ as, ∀ s, ok s a)
    (h : Lib.exec next s as = some s') : ReachOk init next ok s' := by
  induction as generalizing s with
  | nil =>
      cases h
      exact hr
  | cons a as ih =>
      rw [exec_cons, Option.bind_eq_some_iff] at h
      rcases h with ⟨s1, hs1, h⟩
      rw [List.forall_mem_cons] at hok
      exact ih (.step hr (hok.1 s) hs1) hok.2 h

/-- The steps that meet a condition. -/
def only (next : σ → α → Option σ) (ok : σ → α → Prop) [∀ s a, Decidable (ok s a)] :
    σ → α → Option σ :=
  fun s a => if ok s a then next s a else none

/-- Where labels that meet the condition when it is their turn lead. -/
theorem ReachOk.exec_only {init : σ → Prop} {next : σ → α → Option σ} {ok : σ → α → Prop}
    [∀ s a, Decidable (ok s a)] {s s' : σ} {as : List α} (hr : ReachOk init next ok s)
    (h : Lib.exec (only next ok) s as = some s') : ReachOk init next ok s' := by
  induction as generalizing s with
  | nil =>
      cases h
      exact hr
  | cons a as ih =>
      rw [exec_cons, Option.bind_eq_some_iff] at h
      rcases h with ⟨s1, hs1, h⟩
      unfold only at hs1
      split at hs1
      · next hok => exact ih (.step hr hok hs1) h
      · cases hs1

/-- Whatever a list of labels leads to from a reachable state is reachable. -/
theorem reachable_exec {init : σ → Prop} {next : σ → α → Option σ} {s s' : σ} {as : List α}
    (hr : Reachable init next s) (h : exec next s as = some s') : Reachable init next s' :=
  hr.exec (fun _ _ _ => trivial) h

/-! ## Refinement by a function

`view` shows a state of the first system as a state of the second; every step of
the first, from a state with `inv`, is the step of the second with that label. -/

section

variable {τ : Type v} {next : σ → α → Option σ} {next' : τ → α → Option τ} (view : σ → τ)
  (inv : σ → Prop)

/-- A view under which every step is a step of another system carries whole runs over, with
the invariant that the view needs. -/
theorem exec_view (hstep : ∀ s a s', inv s → next s a = some s' →
      next' (view s) a = some (view s') ∧ inv s')
    {s s' : σ} {as : List α} (hs : inv s) (h : exec next s as = some s') :
    exec next' (view s) as = some (view s') ∧ inv s' := by
  induction as generalizing s with
  | nil =>
      cases h
      exact ⟨rfl, hs⟩
  | cons a as ih =>
      rw [exec_cons, Option.bind_eq_some_iff] at h
      rcases h with ⟨s1, hs1, h⟩
      have h1 := hstep s a s1 hs hs1
      rw [exec_cons, h1.1]
      exact ih h1.2 h

/-- What a run shows when one step may show as no step or as several. -/
def shown {β : Type v} (next : σ → α → Option σ) (shows : σ → α → List β) : σ → List α → List β
  | _, [] => []
  | s, a :: as =>
      shows s a ++
        match next s a with
        | none => []
        | some s' => shown next shows s' as

/-- The same where a step is seen as several events of the other system, or as none. -/
theorem exec_shown {β : Type v} {next' : τ → β → Option τ} {shows : σ → α → List β} {ok : α → Prop}
    (hstep : ∀ s a s', inv s → ok a → next s a = some s' →
      exec next' (view s) (shows s a) = some (view s') ∧ inv s')
    {s s' : σ} {as : List α} (hs : inv s) (hok : ∀ a ∈ as, ok a) (h : exec next s as = some s') :
    exec next' (view s) (shown next shows s as) = some (view s') ∧ inv s' := by
  induction as generalizing s with
  | nil =>
      cases h
      exact ⟨rfl, hs⟩
  | cons a as ih =>
      rw [exec_cons, Option.bind_eq_some_iff] at h
      rcases h with ⟨s1, hs1, h⟩
      rw [List.forall_mem_cons] at hok
      have h1 := hstep s a s1 hs hok.1 hs1
      have h2 := ih h1.2 hok.2 h
      refine ⟨?_, h2.2⟩
      unfold shown
      rw [exec_append, h1.1, hs1]
      exact h2.1

end

/-! ## Whole runs -/

/-- `tr` lists the labels of a run from `s`, each with the state it leads to. -/
def IsTrace (next : σ → α → Option σ) : σ → List (α × σ) → Prop
  | _, [] => True
  | s, p :: tr => next s p.1 = some p.2 ∧ IsTrace next p.2 tr

/-- The run that a list of labels gives, up to the first step that is not possible. -/
def trace (next : σ → α → Option σ) : σ → List α → List (α × σ)
  | _, [] => []
  | s, a :: as =>
      match next s a with
      | none => []
      | some s' => (a, s') :: trace next s' as

/-- The states that a run passes through are one by one steps of the system. -/
theorem isTrace_trace (next : σ → α → Option σ) (s : σ) (as : List α) :
    IsTrace next s (trace next s as) := by
  induction as generalizing s with
  | nil => trivial
  | cons a as ih =>
      unfold trace
      cases h : next s a with
      | none => trivial
      | some s' => exact ⟨h, ih s'⟩

/-- Every step of the run meets `ok` in the state it is taken in. -/
def StepsOk (ok : σ → α → Prop) : σ → List (α × σ) → Prop
  | _, [] => True
  | s, p :: tr => ok s p.1 ∧ StepsOk ok p.2 tr

/-- The states of a run whose steps all meet the condition are reached by such steps. -/
theorem ReachOk.of_trace {init : σ → Prop} {next : σ → α → Option σ} {ok : σ → α → Prop} {s : σ}
    {tr : List (α × σ)} (hr : ReachOk init next ok s) (htr : IsTrace next s tr)
    (hok : StepsOk ok s tr) : ∀ p ∈ tr, ReachOk init next ok p.2 := by
  induction tr generalizing s with
  | nil => simp
  | cons p tr ih =>
      have hp : ReachOk init next ok p.2 := .step hr hok.1 htr.1
      exact List.forall_mem_cons.2 ⟨hp, ih hp htr.2 hok.2⟩

/-- If, from a state that satisfies `inv`, a step ends in a `good` state exactly
when it meets `ok`, and good steps keep `inv`, then all states of a run are good
exactly when all its steps meet `ok`. -/
theorem trace_good_iff {next : σ → α → Option σ} {ok : σ → α → Prop} {inv good : σ → Prop}
    (hiff : ∀ s a s', inv s → next s a = some s' → (good s' ↔ ok s a))
    (hinv : ∀ s a s', inv s → next s a = some s' → good s' → inv s')
    {s : σ} {tr : List (α × σ)} (hs : inv s) (htr : IsTrace next s tr) :
    (∀ p ∈ tr, good p.2) ↔ StepsOk ok s tr := by
  induction tr generalizing s with
  | nil => simp [StepsOk]
  | cons p tr ih =>
      rcases htr with ⟨hp, htr⟩
      have h1 : good p.2 ↔ ok s p.1 := hiff _ _ _ hs hp
      rw [List.forall_mem_cons, StepsOk, h1]
      constructor
      · rintro ⟨hok, hall⟩
        exact ⟨hok, (ih (hinv _ _ _ hs hp (h1.2 hok)) htr).1 hall⟩
      · rintro ⟨hok, hall⟩
        exact ⟨hok, (ih (hinv _ _ _ hs hp (h1.2 hok)) htr).2 hall⟩

end Xv6.Lib
