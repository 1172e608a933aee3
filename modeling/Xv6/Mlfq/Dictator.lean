import Xv6.Mlfq.Effect

/-!
# The dictator

`is_dictated` and `scheduler_dictator` are set and cleared together. On one CPU
only the dictator runs until they are cleared, so nobody else can take its slot
away, and its own `exit` clears them before it becomes a ZOMBIE.

* `DictInv.step`: each step keeps the invariant `DictInv`, read off `next_effect`;
* `dictator_alive`: in every reachable state the two variables agree, and the
  dictator, if there is one, is a live process.

On several CPUs the others pass their scheduler loops meanwhile; that is the
subject of `Mlfq.Smp`.
-/

namespace Xv6.Mlfq

open Xv6.Lib

variable {s s' : St}

/-- A process that can run, sleep or be woken. -/
def Alive (x : Proc) : Prop := x.state ≠ .UNUSED ∧ x.state ≠ .EMBRYO ∧ x.state ≠ .ZOMBIE

instance (x : Proc) : Decidable (Alive x) := inferInstanceAs (Decidable (_ ∧ _ ∧ _))

/-- The two variables agree, the dictator is alive, and the scheduler finds it. -/
structure DictatorAlive (s : St) : Prop where
  agree : s.is_dictated = true ↔ s.scheduler_dictator ≠ none
  alive : ∀ d, s.scheduler_dictator = some d → Alive (s.proc d)
  /-- no pass of `scheduler()` looks at `ptable.proc[-1]` -/
  found : s.cpu = none → ∃ s', schedule s = some s' ∧ (s.is_dictated = true → ∃ d,
    s.scheduler_dictator = some d ∧ s'.cpu = some (d, 0) ∧ Alive (s.proc d))

/-- The invariant: while there is a dictator nobody else is on the CPU. -/
structure DictInv (s : St) : Prop where
  dict : s.is_dictated = s.scheduler_dictator.isSome
  running : ∀ p lv, s.cpu = some (p, lv) → (s.proc p).state = .RUNNING
  only : ∀ p lv, s.cpu = some (p, lv) → ∀ d, s.scheduler_dictator = some d → d = p
  head : s.cpu = none → ∀ d, s.scheduler_dictator = some d →
    (s.proc d).state = .RUNNABLE ∨ (s.proc d).state = .SLEEPING
  fork : ∀ p np, s.kont p = .fork np → np ≠ p

/-- The invariant says what is claimed of the dictator. -/
theorem DictInv.safe (h : DictInv s) : DictatorAlive s := by
  -- the dictator runs, or is at the head of the queue of the next scheduling
  have halive : ∀ d, s.scheduler_dictator = some d → Alive (s.proc d) := by
    intro d hd
    unfold Alive
    cases hc : s.cpu with
    | none =>
        rcases h.head hc d hd with hst | hst <;> rw [hst] <;> decide
    | some c =>
        rcases c with ⟨p, lv⟩
        rw [h.only p lv hc d hd, h.running p lv hc]
        decide
  refine ⟨?_, halive, fun _ => ?_⟩
  · rw [h.dict, Option.isSome_iff_ne_none]
  -- `scheduler` with a dictator has one to run
  · unfold schedule
    cases hd : s.is_dictated with
    | true =>
        have hsome := h.dict
        rw [hd] at hsome
        rcases Option.isSome_iff_exists.1 hsome.symm with ⟨d, hdd⟩
        rw [if_pos rfl, hdd]
        exact ⟨_, rfl, fun _ => ⟨d, rfl, rfl, halive d hdd⟩⟩
    | false =>
        rw [if_neg Bool.false_ne_true]
        split
        · exact ⟨_, rfl, fun hf => nomatch hf⟩
        · exact ⟨_, rfl, fun hf => nomatch hf⟩

/-! ## One step -/

section step

variable {a : Act} {p : Pidx} {lv : Nat}

/-- The process that stays on the CPU is left RUNNING. -/
theorem DictInv.stays (h : DictInv s) (he : Effect a s s') (hc : s.cpu = some (p, lv))
    (hc' : s'.cpu = some (p, lv)) : (s'.proc p).state = .RUNNING := by
  have hrun := h.running p lv hc
  cases he.proc p with
  | same hst => rw [hst, hrun]
  | woken hsl => rw [hrun] at hsl; cases hsl
  | dispatched lv' _ _ hst => exact hst
  | parked lv' _ hnone =>
      rw [hc'] at hnone
      cases hnone
  | allocated hu => rw [hrun] at hu; cases hu
  | forked r lv' hr hk =>
      -- no process is in the middle of making itself
      rw [hc] at hr
      cases hr
      exact absurd rfl (h.fork p p hk)
  | reaped hz => rw [hrun] at hz; cases hz

/-- At the head of the loop only a wakeup changes the state of the dictator. -/
theorem DictInv.waits (h : DictInv s) (he : Effect a s s') (hc : s.cpu = none)
    (hc' : s'.cpu = none) {d : Pidx} (hd : s.scheduler_dictator = some d) :
    (s'.proc d).state = .RUNNABLE ∨ (s'.proc d).state = .SLEEPING := by
  have hst := h.head hc d hd
  cases he.proc d with
  | same heq => rwa [heq]
  | woken _ hr => exact .inl hr
  | dispatched lv' _ hd' =>
      rw [hc'] at hd'
      cases hd'
  | parked lv' hp =>
      rw [hc] at hp
      cases hp
  | allocated hu => rcases hst with h1 | h1 <;> rw [h1] at hu <;> cases hu
  | forked r lv' hr =>
      rw [hc] at hr
      cases hr
  | reaped hz => rcases hst with h1 | h1 <;> rw [h1] at hz <;> cases hz

/-- A step keeps it, whatever the step does: one case for each effect. -/
theorem DictInv.step (h : DictInv s) (he : Effect a s s') : DictInv s' := by
  have hfork : ∀ q np, s'.kont q = .fork np → np ≠ q := by
    intro q np hq
    cases he.kont with
    | kept hk => exact h.fork q np (hk q np hq)
    | forking r np' lv' hr hk hu _ =>
        rcases hk q np hq with h1 | ⟨rfl, rfl⟩
        · exact h.fork q np h1
        · -- the new slot was UNUSED, the caller was RUNNING
          rintro rfl
          rw [h.running np lv' hr] at hu
          cases hu
  have hdict : s'.is_dictated = s'.scheduler_dictator.isSome := by
    cases he.dict with
    | same hd hi => rw [hd, hi, h.dict]
    | cleared hd hi => rw [hd, hi]; rfl
    | taken r lv' _ _ hd hi => rw [hd, hi]; rfl
  cases he.cpu with
  | same hc =>
      refine ⟨hdict, fun q lv' hq => ?_, fun q lv' hq d hd => ?_, fun hn d hd => ?_, hfork⟩
      · exact h.stays he (hc ▸ hq) hq
      · rw [hc] at hq
        cases he.dict with
        | same hd' _ =>
            rw [hd'] at hd
            exact h.only q lv' hq d hd
        | cleared hd' _ =>
            rw [hd'] at hd
            cases hd
        | taken r lv'' hr _ hd' _ =>
            rw [hr] at hq
            rw [hd'] at hd
            cases hq
            cases hd
            rfl
      · cases he.dict with
        | same hd' _ =>
            rw [hd'] at hd
            exact h.waits he (hc ▸ hn) hn hd
        | cleared hd' _ =>
            rw [hd'] at hd
            cases hd
        | taken r lv'' hr _ _ _ =>
            rw [hc, hr] at hn
            cases hn
  | parked p lv hc hc' hl =>
      refine ⟨hdict, fun q lv' hq => ?_, fun q lv' hq => ?_, fun _ d hd => ?_, hfork⟩
      · rw [hc'] at hq
        cases hq
      · rw [hc'] at hq
        cases hq
      · cases he.dict with
        | same hd' _ =>
            -- the dictator itself has given up the CPU
            have hdp := h.only p lv hc d (hd' ▸ hd)
            subst hdp
            rcases hl with h1 | h1 | ⟨-, h1⟩
            · exact .inl h1
            · exact .inr h1
            · exact absurd hd h1
        | cleared hd' _ =>
            rw [hd'] at hd
            cases hd
        | taken r lv'' _ hsame _ _ =>
            rw [hsame, hc] at hc'
            cases hc'
  | dispatched p lv hc hc' hrun hd =>
      refine ⟨hdict, fun q lv' hq => ?_, fun q lv' hq d hd' => ?_, fun hn => ?_, hfork⟩
      · rw [hc'] at hq
        cases hq
        exact hrun
      · rw [hc'] at hq
        cases hq
        cases he.dict with
        | same hs hi =>
            rw [hs] at hd'
            have hdd := hd (by rw [h.dict, hd']; rfl)
            rw [hd'] at hdd
            exact Option.some.inj hdd
        | cleared hs _ =>
            rw [hs] at hd'
            cases hd'
        | taken r lv'' hr _ _ _ =>
            rw [hc] at hr
            cases hr
      · rw [hc'] at hn
        cases hn

end step

/-! ## Every run -/

/-- There is no dictator after `userinit`. -/
theorem userinit_dict : DictInv userinit := by
  have hd : userinit.scheduler_dictator = none := by decide
  have hc : userinit.cpu = none := by decide
  refine ⟨by decide, fun p lv hp => ?_, fun p lv hp => ?_, fun _ d hdd => ?_, fun p np hk => ?_⟩
  · rw [hc] at hp
    cases hp
  · rw [hc] at hp
    cases hp
  · rw [hd] at hdd
    cases hdd
  · have hu : userinit.kont p = .user := rfl
    rw [hu] at hk
    cases hk

theorem DictInv.of_reachable (hr : Reachable Init next s) : DictInv s := by
  refine hr.invariant DictInv ?_ ?_
  · rintro s0 rfl
    exact userinit_dict
  · exact fun s0 a s1 h _ hs => h.step (next_effect hs)

/-- The dictator is always a live process. -/
theorem dictator_alive (hr : Reachable Init next s) : DictatorAlive s :=
  (DictInv.of_reachable hr).safe

/-- The first process forks, locks the scheduler and goes to sleep. -/
def dictatorRun : List Act := [.schedule, .forkAlloc, .forkDone, .schedulerLock PASSWORD,
      .sleep .null]

/-- A dictator that sleeps is alive. -/
theorem dictator_alive_asleep : ∃ s, s.scheduler_dictator = some ⟨0, by decide⟩ ∧
    (s.proc ⟨0, by decide⟩).state = .SLEEPING ∧ DictatorAlive s := by
  have hrun : ∃ s, exec next userinit dictatorRun = some s ∧
      s.scheduler_dictator = some ⟨0, by decide⟩ ∧ (s.proc ⟨0, by decide⟩).state = .SLEEPING := by
    refine ⟨_, rfl, ?_⟩
    decide
  rcases hrun with ⟨s, hs, hd, hst⟩
  exact ⟨s, hd, hst, dictator_alive (reachable_exec (.init rfl) hs)⟩

end Xv6.Mlfq
