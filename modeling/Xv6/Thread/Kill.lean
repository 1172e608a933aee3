import Xv6.Thread.Effect

/-!
# What kill touches

`kill` looks at nothing but pids: it takes the first slot of `ptable` with the
pid, whatever its state, and marks every thread slot with that pid. So what it
touches depends on which slots carry the pid: slots given back carry 0 or the pid
they had, and a failed `thread_create` leaves its caller's pid behind.

* `kill_iff_on_target`: wherever the thread that calls it stands, and for every pid,
  `kill` returns, and touches its target alone exactly when the slots with the pid
  are those of a live process;
* `kill_zero`: `kill(0)` ends the thread slots that are free.

What the threads that it has marked do next is no part of this; a thread that is
ended where it stands is the subject of `Thread.Locks`.
-/

namespace Xv6.Thread.Kill

open Xv6.Lib Prog

variable {s s' : Kernel} {p q : Pidx} {i : Tidx} {pid : Int}

/-! ## Pids of slots -/

/-- No two slots of `ptable` share a pid other than 0, whether they are in use or not. -/
def Distinct (s : Kernel) : Prop :=
  ∀ q r, (s.proc q).pid = (s.proc r).pid → (s.proc q).pid ≠ 0 → q = r

/-- A call gives no pid to a second process. -/
theorem Effect.distinct {k : Cont} {c : Call} {r : Outcome} (h : Effect p i k c s s' r) (hi : Ids s)
    (hd : Distinct s) (hp : InUse s p) : Distinct s' := by
  intro q r heq hne
  have hq := hi.proc_lt q
  have hr := hi.proc_lt r
  rcases (h.proc q).pid_cases hp with ⟨h1, -⟩ | ⟨h1, -, hf1⟩ | ⟨h1, -⟩
  · rcases (h.proc r).pid_cases hp with ⟨h2, -⟩ | ⟨h2, -, -⟩ | ⟨h2, -⟩
    · rw [h1] at heq hne
      rw [h2] at heq
      exact hd q r heq hne
    · -- a new pid is larger than all others
      omega
    · omega
  · rcases (h.proc r).pid_cases hp with ⟨h2, -⟩ | ⟨-, -, hf2⟩ | ⟨h2, -⟩
    · omega
    · exact Option.some_injective _ (hf1.symm.trans hf2)
    · omega
  · exact absurd h1 hne

theorem Distinct.dressed (h : Distinct s) (hp : Pickable s p i) : Distinct (s.dressed p i) := by
  intro q r
  rw [(dressed_proc hp q).1, (dressed_proc hp r).1]
  exact h q r

/-- Nor does going back to the scheduler. -/
theorem Distinct.left {a : Label} {s1 : Kernel} {k : Cont} {r : Outcome} (h : Distinct s1) :
    Distinct (a.left s k s1 r) := by
  intro q q'
  rw [after_pid, after_pid]
  exact h q q'

/-- The first process has its pid alone. -/
theorem Started.distinct (h : Started p i s) : Distinct s := by
  rcases h.proc with ⟨pd, kst, -, -, hp⟩
  have hzero : ∀ q, (s.proc q).pid ≠ 0 → q = p := by
    intro q hq
    by_contra hne
    apply hq
    rw [h.other q hne]
    rfl
  intro q r heq hne
  rw [hzero q hne, hzero r (heq ▸ hne)]

/-- Runs of slices keep the pids apart, by the lemma for one call. -/
theorem distinct_slices : SliceInv anyCall (fun s => Ids s ∧ Distinct s)
    (fun p i s => Wears p i s ∧ Ids s ∧ Distinct s)
    fun p _ s => InUse s p ∧ Ids s ∧ Distinct s where
  init := fun s h => by
    rcases h.started with ⟨p, i, h⟩
    exact ⟨h.ids, Started.distinct h⟩
  dress := fun s p i h hp => ⟨hp.wears, h.1.dressed hp, h.2.dressed hp⟩
  call := fun s p i k c h _ _ => h.1.call fun r s' he =>
    ⟨he.ids h.2.1 h.1.inUse, Effect.distinct he h.2.1 h.2.2 h.1.inUse⟩
  left := fun s a k s1 r h => ⟨h.2.1.left h.1, h.2.2.left⟩

/-- In every state of a run the processes in use have different pids. -/
theorem onCpu_distinct {k : Cont} (h : OnCpu anyCall p i k s) : Ids s ∧ Distinct s :=
  (distinct_slices.runs h).2

/-! ## One call -/

/-- A process that a kill is meant for. -/
def LiveProc (x : Proc) : Prop := x.state ≠ .UNUSED ∧ x.state ≠ .EMBRYO ∧ x.state ≠ .ZOMBIE

instance (x : Proc) : Decidable (LiveProc x) := inferInstanceAs (Decidable (_ ∧ _ ∧ _))

/-- `kill(pid)` has returned `r` and touched its target alone. -/
structure TouchesTarget (s s' : Kernel) (pid r : Int) : Prop where
  hit : ∀ q, LiveProc (s.proc q) → ((s.proc q).pid : Int) = pid → r = 0 ∧
    (∀ q', q' ≠ q → s'.proc q' = s.proc q') ∧
    (∀ i, ((s.pthread i).pid : Int) ≠ pid → s'.pthread i = s.pthread i) ∧
    s' = { s with proc := s'.proc, pthread := s'.pthread }
  miss : (∀ q, LiveProc (s.proc q) → ((s.proc q).pid : Int) ≠ pid) → r = -1 ∧ s' = s
  proc_unused : ∀ q, (s.proc q).state = .UNUSED → (s'.proc q).state = .UNUSED
  th_unused : ∀ i, (s.pthread i).state = .UNUSED → (s'.pthread i).state = .UNUSED

/-- Every slot of `ptable` with the pid is that of a live process, and then no
UNUSED thread slot has it. -/
structure OnTarget (s : Kernel) (pid : Int) : Prop where
  live : ∀ q, ((s.proc q).pid : Int) = pid → LiveProc (s.proc q)
  slots : ∀ q, ((s.proc q).pid : Int) = pid →
    ∀ i, ((s.pthread i).pid : Int) = pid → (s.pthread i).state ≠ .UNUSED

/-- The state that `kill` leaves, once slot `q` has been found. -/
def killed (s : Kernel) (q : Pidx) (pid : Int) : Kernel :=
  { s.setProc q fun x => { x with
      killed := true, state := if x.state = .SLEEPING then .RUNNABLE else x.state } with
    pthread := fun j =>
      if ((s.pthread j).pid : Int) = pid then
        { s.pthread j with
          state := if (s.pthread j).thread_id = MAINTH then .RUNNABLE else .THZOMBIE }
      else s.pthread j }

/-- Marking a process neither uses nor frees one. -/
theorem killed_state (q r : Pidx) (pid : Int) :
    ((killed s q pid).proc r).state = .UNUSED ↔ (s.proc r).state = .UNUSED := by
  by_cases hr : r = q
  · subst hr
    simp only [killed, Kernel.setProc_self]
    split
    · next h => simp [h]
    · rfl
  · simp [killed, Kernel.setProc_ne hr]

/-- `kill` returns -1 and changes nothing, or marks a process with the pid. -/
theorem kill_run (s : Kernel) (pid : Int) :
    (∀ q, ((s.proc q).pid : Int) ≠ pid) ∧ (kill pid).run s = .ok (-1, s) ∨
    ∃ q, ((s.proc q).pid : Int) = pid ∧ (kill pid).run s = .ok (0, killed s q pid) := by
  cases hf : findProc fun q => decide (((s.proc q).pid : Int) = pid) with
  | none =>
      have h : Ends (kill pid) s fun r s' => r = -1 ∧ s' = s := by
        unfold kill
        simp [hf]
      rcases h.exists with ⟨r, s', hrun, rfl, rfl⟩
      exact Or.inl ⟨fun q => by simpa using findProc_none.1 hf q, hrun⟩
  | some q =>
      have h : Ends (kill pid) s fun r s' => r = 0 ∧ s' = killed s q pid := by
        unfold kill
        simp only [wp_bind, wp_get, hf, wp_setProc, wp_modify, wp_pure]
        exact ⟨trivial, rfl⟩
      rcases h.exists with ⟨r, s', hrun, rfl, rfl⟩
      exact Or.inr ⟨q, by simpa using findProc_some hf, hrun⟩

/-- The slot that is found is the only one with its pid, if its process is in use. -/
theorem only_slot (hi : Ids s) (hd : Distinct s) (hu : InUse s q) {r : Pidx}
    (hq : ((s.proc q).pid : Int) = pid) (hr : ((s.proc r).pid : Int) = pid) : r = q := by
  have hne := hi.proc_ne q hu
  apply hd r q
  · omega
  · omega

/-- `kill` touches what it is asked to exactly when the call is on target. -/
theorem touchesTarget_iff (hi : Ids s) (hd : Distinct s) (pid : Int) :
    ∃ r s', (kill pid).run s = .ok (r, s') ∧ (TouchesTarget s s' pid r ↔ OnTarget s pid) := by
  rcases kill_run s pid with ⟨hnone, hrun⟩ | ⟨q, hq, hrun⟩
  · -- no slot has the pid
    refine ⟨-1, s, hrun, fun _ => ?_, fun _ => ?_⟩
    · constructor
      · intro q hq
        exact absurd hq (hnone q)
      · intro q hq
        exact absurd hq (hnone q)
    · constructor
      · intro q _ hq
        exact absurd hq (hnone q)
      · intro _
        exact ⟨rfl, rfl⟩
      · exact fun _ h => h
      · exact fun _ h => h
  · refine ⟨0, killed s q pid, hrun, fun h => ?_, fun h => ?_⟩
    · -- the result 0 needs a live process with the pid, and no other slot can have it
      have hlive : ∃ r, LiveProc (s.proc r) ∧ ((s.proc r).pid : Int) = pid := by
        by_contra hno
        push Not at hno
        cases (h.miss hno).1
      rcases hlive with ⟨r, hr, hrp⟩
      constructor
      · intro r' hr'
        rw [only_slot hi hd hr.1 hrp hr']
        exact hr
      · intro _ _ i hip hunused
        have hst := h.th_unused i hunused
        simp only [killed, hip, if_true] at hst
        split at hst <;> cases hst
    -- the slot that is found is the one process with the pid
    · constructor
      · intro r hr hrp
        rcases only_slot hi hd hr.1 hrp hq with rfl
        refine ⟨rfl, ?_, ?_, rfl⟩
        · intro r' hr'
          simp [killed, hr']
        · intro i hip
          simp [killed, hip]
      · intro hno
        exact absurd hq (hno q (h.live q hq))
      · intro r hr
        exact (killed_state q r pid).2 hr
      · intro i hunused
        by_cases hip : ((s.pthread i).pid : Int) = pid
        · exact absurd hunused (h.slots q hq i hip)
        · simpa [killed, hip] using hunused

/-- **When kill touches its target alone**: a thread on the CPU calls it, in any state of
any run and with any pid; if and only if the slots with that pid are those of a live
process. -/
theorem kill_iff_on_target {k : Cont} (h : OnCpu anyCall p i k s) (pid : Int) :
    ∃ r s', (kill pid).run s = .ok (r, s') ∧ (TouchesTarget s s' pid r ↔ OnTarget s pid) := by
  rcases onCpu_distinct h with ⟨hi, hd⟩
  exact touchesTarget_iff hi hd pid

/-- The first process calls `kill(0)`: the thread slots that were free are lost. -/
theorem kill_zero : ¬ ∀ p i k s, OnCpu anyCall p i k s → ∀ pid r s',
    (kill pid).run s = .ok (r, s') → TouchesTarget s s' pid r := by
  intro hall
  have hrun : (run []).map (fun s => (decide (Pickable s 0 0), ((s.dressed 0 0).proc 1).pid,
      (s.pthread 1).state, (s.pthread 1).pid)) = some (true, 0, .UNUSED, 0) := by decide +kernel
  rcases Option.map_eq_some_iff.1 hrun with ⟨s, hs, hv⟩
  simp only [Prod.mk.injEq, decide_eq_true_eq] at hv
  rcases hv with ⟨hpick, hproc, hst, hth⟩
  have hcpu := run_onCpu hs hpick
  rcases onCpu_distinct hcpu with ⟨hi, hd⟩
  rcases touchesTarget_iff hi hd 0 with ⟨r, s', hk, hiff⟩
  have hon := hiff.1 (hall 0 0 _ _ hcpu 0 r s' hk)
  exact hon.slots 1 (by omega) 1 (show ((s.pthread 1).pid : Int) = 0 by omega) hst

/-- The first process calls `kill(1)` and touches itself alone. -/
theorem kill_iff_on_target_self : ∃ s s', (kill 1).run s = .ok (0, s') ∧
    (s.pthread 1).state = .UNUSED ∧ (s'.pthread 1).state = .UNUSED := by
  have hrun : (run []).map (fun s => (decide (Pickable s 0 0),
      decide (∀ q, ((s.dressed 0 0).proc q).pid = 1 → q = 0),
      decide (LiveProc ((s.dressed 0 0).proc 0)), ((s.dressed 0 0).proc 0).pid,
      decide (∀ j, ((s.dressed 0 0).pthread j).pid = 1 →
        ((s.dressed 0 0).pthread j).state ≠ .UNUSED),
      (s.pthread 1).state)) = some (true, true, true, 1, true, .UNUSED) := by decide +kernel
  rcases Option.map_eq_some_iff.1 hrun with ⟨s, hs, hv⟩
  simp only [Prod.mk.injEq, decide_eq_true_eq] at hv
  rcases hv with ⟨hpick, hslot, hlive, hpid, hth, hst⟩
  rcases kill_iff_on_target (run_onCpu hs hpick) 1 with ⟨r, s', hk, hiff⟩
  have hon : OnTarget (s.dressed 0 0) 1 := by
    constructor
    · intro q hq
      rw [hslot q (by omega)]
      exact hlive
    · intro _ _ j hj
      exact hth j (by omega)
  have ht := hiff.2 hon
  have hr := (ht.hit 0 hlive (by omega)).1
  subst hr
  exact ⟨s.dressed 0 0, s', hk, hst, ht.th_unused 1 hst⟩

end Xv6.Thread.Kill
