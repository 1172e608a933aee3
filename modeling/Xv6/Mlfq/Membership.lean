import Xv6.Mlfq.Invariant

/-!
# Which queue a process is in

At the head of the scheduler loop every process that is RUNNABLE or SLEEPING,
the dictator excepted, should be in exactly one of the three queues and there
once, and nothing else should be in any. `schedulerUnlock` breaks this: it puts
the dictator in front of `mlfq[0]`, and `scheduler()` enqueues it a second time
when it gives up the CPU. It is the only operation that does.

* `membership_without_unlock`: in every run without an unlock by the dictator the
  property holds in every state at the head of the loop;
* `unlock_queues_twice`: a run with one in which it fails.

The property is about one CPU and about the loop head: inside a step a process can
be in no queue, and that is what `Gap` of `Mlfq.Invariant` describes.
-/

namespace Xv6.Mlfq

open Xv6.Lib

/-! ## The property -/

/-- Live processes other than the dictator are queued once; the dictator and the
slots that hold no process to schedule are not queued. -/
def Membership (s : St) : Prop :=
  ∀ p, (Live (s.proc p) → ¬ IsDictator s p → (ent s.q).count p = 1) ∧
    (IsDictator s p ∨ (s.proc p).state = .UNUSED ∨ (s.proc p).state = .EMBRYO ∨
      (s.proc p).state = .ZOMBIE → (ent s.q).count p = 0)

/-- Membership at the head of the scheduler loop; at all times the three queues
fit in the table and no live entry has been overwritten. -/
structure QueuesOk (s : St) : Prop where
  membership : s.cpu = none → Membership s
  sizes : (s.mlfq 0).size + (s.mlfq 1).size + (s.mlfq 2).size ≤ NPROC
  overwrote : s.overwrote = false

/-- `schedulerUnlock` takes the branch that ends the dictatorship. -/
def UnlocksDictator (s : St) (a : Act) : Prop :=
  ∃ p lv password, s.cpu = some (p, lv) ∧ a = .schedulerUnlock password ∧
    password = PASSWORD ∧ IsDictator s p

/-- The invariant says what is claimed of the queues. -/
theorem Inv.queuesOk {s : St} (h : Inv s) : QueuesOk s := by
  refine ⟨?_, ?_, h.overwrote⟩
  · intro _ p
    constructor
    · intro hl hnd
      exact List.count_eq_one_of_mem h.nodup ((h.mem p).2 ⟨hl, hnd⟩)
    · intro hp
      apply List.count_eq_zero_of_not_mem
      intro hm
      rcases (h.mem p).1 hm with ⟨hl, hnd⟩
      rcases hp with hd | hst
      · exact hnd hd
      · rcases hl with hl | hl <;> simp [hl] at hst
  · have hlen := h.total_le
    simpa [St.q] using hlen

/-! ## The scheduler's choice -/

/-- The loop over the levels finds a RUNNABLE entry at one of them, or none at all. -/
theorem pickLevel_cases {s : St} (hw : WfQ s) :
    (∃ s', pickLevel s = (none, s') ∧ Queues s s' s.q) ∨
    ∃ x lv pre post s', lv ≤ 2 ∧ s.q lv = pre ++ x :: post ∧ (s.proc x).state = .RUNNABLE ∧
      pickLevel s = (some (x, lv), s') ∧ Queues s s' (Function.update s.q lv (post ++ pre)) := by
  rcases pickLevel_picks hw with ⟨s', hp, h, -⟩ | ⟨x, lv, pre, post, s', hlv, -, hx, hp, h⟩
  · exact Or.inl ⟨s', hp, h⟩
  · exact Or.inr ⟨x, lv, pre, post, s', hlv, hx.q, hx.eligible.1, hp, h⟩

/-- Dispatching a process that is in no queue. -/
theorem Gap.run {s : St} {p : Pidx} (h : Gap s p)
    (honly : ∀ d, s.scheduler_dictator = some d → d = p) {lv : Nat} (hlv : lv ≤ 2) :
    Inv (dispatch s p lv) := by
  have hrun : ((dispatch s p lv).proc p).state = .RUNNING := by
    simp [dispatch, St.setProc]
  have h1 := (h.setProc fun q => { q with state := .RUNNING, chan := .null }).core
    (Or.inl (by simp [Live]))
  refine ⟨⟨h1.wf, h1.nodup, h1.mem, h1.dict, h1.fork, h1.fork_inj, h1.overwrote⟩, ?_, ?_⟩
  · intro q lv' hq
    cases hq
    exact ⟨hlv, hrun, honly⟩
  · intro hn
    cases hn

/-- A pass of the scheduler: the process that is picked leaves its queue and gets the CPU.
The cases are with and without a dictator. -/
theorem schedule_inv {s s' : St} (h : Inv s) (hcpu : s.cpu = none) (hs : schedule s = some s') :
    Inv s' := by
  unfold schedule at hs
  by_cases hd : s.is_dictated = true
  · -- the dictator is dispatched in whatever state it is
    rw [if_pos hd, Option.map_eq_some_iff] at hs
    rcases hs with ⟨d, hdd, rfl⟩
    have hlive := h.head hcpu d hdd
    have hne : (s.proc d).state ≠ .EMBRYO := by
      rcases hlive with hl | hl <;> rw [hl] <;> simp
    exact (h.toCore.gap (Or.inr ⟨hd, hdd⟩) (h.not_forking hne)).run
      (fun d' hd' => by rw [hdd] at hd'; exact (Option.some.inj hd').symm) (Nat.zero_le 2)
  · have hnone : s.scheduler_dictator = none := by
      have hdict := h.dict
      rw [Bool.not_eq_true] at hd
      rw [hd] at hdict
      simpa using hdict.symm
    rw [if_neg hd] at hs
    rcases pickLevel_cases h.wf with ⟨s1, hp, h1⟩ | ⟨x, lv, pre, post, s1, hlv, hq, hx, hp, h1⟩
    · rw [hp] at hs
      cases hs
      exact h.queues h1 (List.Perm.refl _)
    · rw [hp] at hs
      cases hs
      -- the queue the process is taken from, split at it
      have hperm : (ent s.q).Perm (x :: ent s1.q) := by
        have hc : (s.q lv).Perm (x :: (post ++ pre)) := by
          rw [hq]
          exact List.perm_middle.trans (List.perm_append_comm.cons x)
        have hu := ent_update_cons s.q hlv hc
        rwa [Function.update_eq_self, ← h1.q] at hu
      have hnd := List.nodup_cons.1 (hperm.nodup_iff.1 h.nodup)
      have hdn : ∀ q, ¬ IsDictator s1 q := by
        intro q hq
        rw [IsDictator, h1.dictator, hnone] at hq
        cases hq.2
      have hgap : Gap s1 x := by
        refine ⟨h1.wf, hnd.2, ?_, by rw [h1.is_dictated, h1.dictator]; exact h.dict, ?_,
          by rw [h1.kont]; exact h.fork_inj, by rw [h1.overwrote]; exact h.overwrote⟩
        · intro q
          have hm : q ∈ ent s.q ↔ q = x ∨ q ∈ ent s1.q := by
            rw [hperm.mem_iff, List.mem_cons]
          have hl : q ∈ ent s.q ↔ Live (s1.proc q) := by
            rw [h.mem q, IsDictator, hnone, h1.proc]
            simp
          constructor
          · intro hq
            exact ⟨fun heq => hnd.1 (heq ▸ hq), hl.1 (hm.2 (Or.inr hq)), hdn q⟩
          · rintro ⟨hne, hlq, _⟩
            exact (hm.1 (hl.2 hlq)).resolve_left hne
        · rw [h1.kont, h1.proc]
          intro q np hkq
          have he := h.fork q np hkq
          refine ⟨?_, he⟩
          rintro rfl
          rw [hx] at he
          cases he
      refine hgap.run ?_ hlv
      rw [h1.dictator, hnone]
      simp

/-! ## System calls -/

/-- Assigning to a slot that is not live, not on the CPU and does not become
live: `fork` and `wait` do this to other slots than their own. -/
theorem Inv.setDead {s : St} (h : Inv s) {p : Pidx} {f : Proc → Proc}
    (hb : ¬ Live (s.proc p)) (ha : ¬ Live (f (s.proc p))) (hcpu : ∀ lv, s.cpu ≠ some (p, lv))
    (hfork : ∀ q, s.kont q = .fork p → (f (s.proc p)).state = .EMBRYO) :
    Inv (s.setProc p f) := by
  have hself : (s.setProc p f).proc p = f (s.proc p) := s.setProc_proc_self p f
  have hother : ∀ q, q ≠ p → (s.setProc p f).proc q = s.proc q :=
    fun q hq => s.setProc_proc_ne f hq
  -- who is live stays the same, so the queues still hold the live ones
  have hlive : ∀ q, Live ((s.setProc p f).proc q) ↔ Live (s.proc q) := by
    intro q
    by_cases hq : q = p
    · subst hq
      rw [hself]
      exact ⟨fun hl => absurd hl ha, fun hl => absurd hl hb⟩
    · rw [hother q hq]
  refine ⟨⟨h.wf, h.nodup, ?_, h.dict, ?_, h.fork_inj, h.overwrote⟩, ?_, ?_⟩
  · intro q
    rw [hlive]
    exact h.mem q
  · intro q np hq
    by_cases hnp : np = p
    · subst hnp
      rw [hself]
      exact hfork q hq
    · rw [hother np hnp]
      exact h.fork q np hq
  · intro q lv hq
    have hne : q ≠ p := fun heq => hcpu lv (heq ▸ hq)
    rw [hother q hne]
    exact h.cpu q lv hq
  · intro hn d hd
    rw [hlive]
    exact h.head hn d hd

theorem Inv.running_ne {s : St} (h : Inv s) {q : Pidx}
    (hq : (s.proc q).state ≠ .RUNNING) : ∀ lv', s.cpu ≠ some (q, lv') := by
  intro lv' hc
  exact hq (h.cpu q lv' hc).2.1

/-- `fork` starts to set up slot `np`. -/
theorem Inv.setFork {s : St} (h : Inv s) {p np : Pidx} (hemb : (s.proc np).state = .EMBRYO)
    (hfree : ∀ q, s.kont q ≠ .fork np) : Inv (s.setKont p (.fork np)) := by
  refine ⟨⟨h.wf, h.nodup, h.mem, h.dict, ?_, ?_, h.overwrote⟩, h.cpu, h.head⟩
  · intro q np' hq
    by_cases hqp : q = p
    · subst hqp
      have hnp : np = np' := by simpa using hq
      subst hnp
      exact hemb
    · exact h.fork q np' (by simpa [hqp] using hq)
  · intro q q' np' hq hq'
    by_cases hqp : q = p <;> by_cases hqp' : q' = p
    · rw [hqp, hqp']
    · subst hqp
      have hnp : np = np' := by simpa using hq
      subst hnp
      exact absurd (by simpa [hqp'] using hq') (hfree q')
    · subst hqp'
      have hnp : np = np' := by simpa using hq'
      subst hnp
      exact absurd (by simpa [hqp] using hq) (hfree q)
    · exact h.fork_inj q q' np' (by simpa [hqp] using hq) (by simpa [hqp'] using hq')

/-- An EMBRYO is not queued, so allocating one changes nothing for the queues. -/
theorem forkAlloc_inv {s : St} (h : Inv s) {p : Pidx} : Inv (forkAlloc s p) := by
  unfold forkAlloc allocproc
  cases hf : firstProc s fun p => p.state = .UNUSED with
  | none => simpa using h
  | some np =>
      have hun : (s.proc np).state = .UNUSED := by simpa using firstProc_some hf
      have h1 : Inv (s.setProc np fun q => { q with state := .EMBRYO, pid := s.nextpid }) :=
        h.setDead (by simp [Live, hun]) (by simp [Live]) (h.running_ne (by simp [hun]))
          (fun _ _ => rfl)
      have hfree : ∀ q, s.kont q ≠ .fork np := h.not_forking (by simp [hun])
      have hemb : ((s.setProc np fun q =>
          { q with state := .EMBRYO, pid := s.nextpid }).proc np).state = .EMBRYO := by simp
      have h2 : Inv { s.setProc np fun q => { q with state := .EMBRYO, pid := s.nextpid } with
          nextpid := s.nextpid + 1 } := { h1 with }
      exact h2.setFork hemb hfree

/-- Once `fork` has left its middle part no process is setting `np` up. -/
theorem Inv.not_forking_after {s : St} (h : Inv s) {p np : Pidx} (hk : s.kont p = .fork np) :
    ∀ q, (s.setKont p .user).kont q ≠ .fork np := by
  intro q hq
  by_cases hqp : q = p
  · subst hqp
    simp at hq
  · have hq' : s.kont q = .fork np := by simpa [hqp] using hq
    exact hqp (h.fork_inj q p np hq' hk)

/-- Nor does giving it back. -/
theorem forkFail_inv {s : St} (h : Inv s) {p np : Pidx} (hk : s.kont p = .fork np) :
    Inv (forkFail s p np) := by
  have hemb := h.fork p np hk
  have h1 : Inv (s.setKont p .user) := h.setKont p (by simp)
  have h2 : Inv ((s.setKont p .user).setProc np fun q => { q with state := .UNUSED }) :=
    h1.setDead (by simp [Live, hemb]) (by simp [Live]) (h1.running_ne (by simp [hemb]))
      (fun q hq => absurd hq (h.not_forking_after hk q))
  exact h2

/-- The new process becomes RUNNABLE and is queued at level 0 in one step. -/
theorem forkDone_inv {s : St} (h : Inv s) {p np : Pidx} {lv : Nat} (hcpu : s.cpu = some (p, lv))
    (hk : s.kont p = .fork np) : Inv (forkDone s p np) := by
  -- the child is an embryo, in no queue; it is queued on level 0 as it becomes `RUNNABLE`
  have hemb := h.fork p np hk
  have hne : p ≠ np := by
    rintro rfl
    rw [(h.cpu p lv hcpu).2.1] at hemb
    cases hemb
  have h1 : Inv (s.setKont p .user) := h.setKont p (by simp)
  have hdead : ¬ Live ((s.setKont p .user).proc np) := by simp [Live, hemb]
  have hgap := (h1.toCore.gap (Or.inl hdead) (h.not_forking_after hk)).setProc fun q =>
      { q with parent := some p, state := .RUNNABLE, priority := 3, qlv := 0, consumed_tq := 0 }
  have hnd : ¬ IsDictator s np := by
    intro hd
    exact hne ((h.cpu p lv hcpu).2.2 np hd.2).symm
  have hQ := enQ_queues hgap.wf (hgap.room (Nat.zero_le 2)) np
  have hcore := hgap.join (by simp [Live]) hnd (Nat.zero_le 2) hQ
    (List.perm_append_singleton _ _)
  have hinv : Inv (enQ ((s.setKont p .user).setProc np fun q =>
      { q with parent := some p, state := .RUNNABLE, priority := 3, qlv := 0, consumed_tq := 0 })
      0 np) := by
    -- the parent still runs on the CPU
    refine ⟨hcore, ?_, ?_⟩
    · rw [hQ.cpu, hQ.proc, hQ.dictator]
      intro q lv' hq
      have hq' : s.cpu = some (q, lv') := hq
      rcases h.cpu q lv' hq' with ⟨hlv, hrun, honly⟩
      have hqn : q ≠ np := by
        rintro rfl
        rw [hrun] at hemb
        cases hemb
      refine ⟨hlv, ?_, honly⟩
      simpa [hqn] using hrun
    · rw [hQ.cpu]
      intro hn
      have hn' : s.cpu = none := hn
      rw [hcpu] at hn'
      cases hn'
  exact hinv.setKont np (by simp)

/-- The part of `exit` before the locks leaves the queues. -/
theorem exitBegin_inv {s s' : St} (h : Inv s) {p : Pidx} (hs : exitBegin s p = some s') :
    Inv s' := by
  unfold exitBegin at hs
  split at hs
  · cases hs
  · cases hs
    exact h.setKont p (by simp)

/-- Ending the dictatorship of the process on the CPU. -/
theorem Inv.undictate {s : St} (h : Inv s) {p : Pidx} {lv : Nat} (hcpu : s.cpu = some (p, lv)) :
    Inv { s with is_dictated := false, scheduler_dictator := none } := by
  rcases h.cpu p lv hcpu with ⟨hlv, hrun, honly⟩
  have hcore := ((h.gap hcpu).undictate honly).core (Or.inl (by simp [Live, hrun]))
  refine ⟨hcore, ?_, by simp⟩
  intro q lv' hq
  have hq' : s.cpu = some (q, lv') := hq
  rcases h.cpu q lv' hq' with ⟨hlv', hrun', _⟩
  exact ⟨hlv', hrun', by simp⟩

/-- A process that has exited is in no queue. -/
theorem exitEnd_inv {s : St} (h : Inv s) {p : Pidx} {lv : Nat} (hcpu : s.cpu = some (p, lv)) :
    Inv (exitEnd s p lv) := by
  unfold exitEnd
  dsimp only
  generalize hs1 : passChildren (wakeup1 s _) p = s1
  have hcalm : Calm s s1 := by
    rw [← hs1]
    exact (calm_wakeup1 _ _).trans (calm_passChildren _ _)
  have h1 := h.calm hcalm
  have hcpu1 : s1.cpu = some (p, lv) := by rw [hcalm.cpu, hcpu]
  split
  · exact sched_inv' (h1.undictate hcpu1) hcpu1 (Or.inr (Or.inr ⟨rfl, rfl⟩))
  · next hnd =>
      -- the dictator can only be the running process, so there is none
      have hf : s1.is_dictated = false := by
        rw [h1.dict]
        cases hd : s1.scheduler_dictator with
        | none => rfl
        | some d =>
            have hdp := (h1.cpu p lv hcpu1).2.2 d hd
            exact absurd (hdp ▸ hd) hnd
      exact sched_inv' h1 hcpu1 (Or.inr (Or.inr ⟨rfl, hf⟩))

/-- `wait` empties the slot of a zombie, which is in no queue, or goes to sleep. -/
theorem wait_inv {s : St} (h : Inv s) {p : Pidx} {lv : Nat} (hcpu : s.cpu = some (p, lv)) :
    Inv (wait s p lv) := by
  unfold wait
  split
  · next c hc =>
      have hz : (s.proc c).parent = some p ∧ (s.proc c).state = .ZOMBIE := by
        simpa using firstProc_some hc
      have hfree : ∀ q, s.kont q ≠ .fork c := h.not_forking (by simp [hz.2])
      refine Inv.setKont ?_ p (by simp)
      exact h.setDead (by simp [Live, hz.2]) (by simp [Live])
        (h.running_ne (by simp [hz.2])) (fun q hq => absurd hq (hfree q))
  · split
    · exact h.setKont p (by simp)
    · exact sched_inv (h.setKont p (by simp)) hcpu _ (Or.inr (Or.inl rfl))

/-- The search of `setPriority` over the levels only rotates queues, and finds a
process with the pid it looks for. -/
theorem findPidLevels_queues {s : St} (hw : WfQ s) (pid : Int) :
    ∃ Q, Queues s (findPidLevels s pid).2 Q ∧ (∀ lv, (Q lv).Perm (s.q lv)) ∧
      ∀ i, (findPidLevels s pid).1 = some i → (s.proc i).pid = pid := by
  rcases findPidLevels_cases hw pid with ⟨s', hp, h, -⟩ | ⟨lv, pre, x, post, s', hx, hp, h⟩
  · refine ⟨s.q, ?_, fun _ => .refl _, ?_⟩
    · rwa [hp]
    · rw [hp]
      exact fun i hi => nomatch hi
  · refine ⟨Function.update s.q lv (post ++ (pre ++ [x])), by rwa [hp], ?_, ?_⟩
    · intro l
      by_cases hl : l = lv
      · subst hl
        have hperm : (post ++ (pre ++ [x])).Perm (pre ++ [x] ++ post) := List.perm_append_comm
        rw [Function.update_self, hx.q]
        simpa using hperm
      · rw [Function.update_of_ne hl]
    · intro i hi
      rw [hp] at hi
      cases hi
      exact hx.here

/-- `setPriority` rotates queues. -/
theorem setPriority_inv {s : St} (h : Inv s) (pid priority : Int) :
    Inv (setPriority s pid priority) := by
  rcases findPidLevels_queues h.wf pid with ⟨Q, hQ, hp, -⟩
  have h1 := h.queues hQ (ent_perm hp)
  unfold setPriority
  dsimp only
  split
  · exact h1
  · split
    · exact h1
    · exact h1.calm (Calm.setProc _ _ _ rfl)

/-- The new dictator is on the CPU, so in no queue; or the caller is killed. -/
theorem schedulerLock_inv {s s' : St} (h : Inv s) {p : Pidx} {lv : Nat} {password : Int}
    (hcpu : s.cpu = some (p, lv)) (hs : schedulerLock s p password = some s') : Inv s' := by
  unfold schedulerLock at hs
  split at hs
  · exact exitBegin_inv (h.undictate hcpu) hs
  split at hs
  · exact exitBegin_inv h hs
  · next hd _ =>
      cases hs
      -- the new dictator is the running process, which is in no queue
      rcases h.cpu p lv hcpu with ⟨hlv, hrun, _⟩
      have hf : s.is_dictated = false := by simpa using hd
      have h1 : Inv { s with
          global_ticks := 0, scheduler_dictator := some p, is_dictated := true } := by
        refine ⟨⟨h.wf, h.nodup, ?_, rfl, h.fork, h.fork_inj, h.overwrote⟩, ?_, ?_⟩
        · intro q
          show q ∈ ent s.q ↔ Live (s.proc q) ∧ ¬ (true = true ∧ some p = some q)
          rw [h.mem q, IsDictator, hf]
          constructor
          · rintro ⟨hl, _⟩
            refine ⟨hl, ?_⟩
            rintro ⟨_, hpq⟩
            cases hpq
            simp [Live, hrun] at hl
          · rintro ⟨hl, _⟩
            exact ⟨hl, by simp⟩
        · intro q lv' hq
          have hq' : s.cpu = some (q, lv') := hq
          rcases h.cpu q lv' hq' with ⟨hlv', hrun', _⟩
          rw [hcpu] at hq'
          cases hq'
          exact ⟨hlv', hrun', fun d hd => (Option.some.inj hd).symm⟩
        · intro hn
          have hn' : s.cpu = none := hn
          rw [hcpu] at hn'
          cases hn'
      exact h1.calm (Calm.setProc _ _ _ rfl)

/-- An unlock that is not the dictator's own ends in `kill`. -/
theorem schedulerUnlock_inv {s s' : St} (h : Inv s) {p : Pidx} {lv : Nat} {password : Int}
    (hcpu : s.cpu = some (p, lv)) (hno : ¬ UnlocksDictator s (.schedulerUnlock password))
    (hs : schedulerUnlock s p password = some s') : Inv s' := by
  unfold schedulerUnlock at hs
  split at hs
  · exact exitBegin_inv h hs
  split at hs
  · cases hs
    exact h
  · next hpw hd =>
      exfalso
      push Not at hpw hd
      exact hno ⟨p, lv, password, hcpu, rfl, hpw, hd.1, hd.2⟩

/-! ## Every step -/

theorem tick_calm (s : St) :
    Calm s { s with global_ticks := (s.global_ticks + 1) % 2 ^ 32 } :=
  ⟨rfl, fun _ => rfl, rfl, rfl, rfl, rfl, rfl⟩

/-- Every action of the running process, one case each. -/
theorem nextRunning_inv {s s' : St} (h : Inv s) {p : Pidx} {lv : Nat} {a : Act}
    (hcpu : s.cpu = some (p, lv)) (hno : ¬ UnlocksDictator s a)
    (hs : nextRunning s p lv a = some s') : Inv s' := by
  cases a with
  | schedule => cases hs
  | tick =>
      cases hs
      exact h.calm (tick_calm s)
  | wakeup chan =>
      cases hs
      exact h.calm (calm_wakeup1 s chan)
  | yield =>
      simp only [nextRunning, Option.ite_none_left_eq_some, Option.some.injEq] at hs
      rcases hs with ⟨_, rfl⟩
      exact sched_inv' h hcpu (Or.inl rfl)
  -- the sleeper leaves its CPU and is queued again
  | sleep chan =>
      have hsl : Inv (sleep s p lv chan) := sched_inv h hcpu _ (Or.inr (Or.inl rfl))
      simp only [nextRunning] at hs
      split at hs
      · cases hs
        exact hsl
      · cases hs
        exact hsl
      · cases hs
  | kill pid =>
      simp only [nextRunning, Option.ite_none_right_eq_some, Option.some.injEq] at hs
      rcases hs with ⟨_, rfl⟩
      exact h.calm (calm_kill s pid)
  | forkAlloc =>
      simp only [nextRunning, Option.ite_none_right_eq_some, Option.some.injEq] at hs
      rcases hs with ⟨_, rfl⟩
      exact forkAlloc_inv h
  | forkFail =>
      simp only [nextRunning] at hs
      split at hs
      · next hk =>
          cases hs
          exact forkFail_inv h hk
      · cases hs
  | forkDone =>
      simp only [nextRunning] at hs
      split at hs
      · next hk =>
          cases hs
          exact forkDone_inv h hcpu hk
      · cases hs
  | exitBegin =>
      simp only [nextRunning, Option.ite_none_right_eq_some] at hs
      exact exitBegin_inv h hs.2
  | exitEnd =>
      simp only [nextRunning, Option.ite_none_right_eq_some, Option.some.injEq] at hs
      rcases hs with ⟨_, rfl⟩
      exact exitEnd_inv h hcpu
  | wait =>
      simp only [nextRunning] at hs
      split at hs
      · cases hs
        exact wait_inv h hcpu
      · cases hs
        exact wait_inv h hcpu
      · cases hs
  | setPriority pid priority =>
      simp only [nextRunning, Option.ite_none_right_eq_some, Option.some.injEq] at hs
      rcases hs with ⟨_, rfl⟩
      exact setPriority_inv h pid priority
  | schedulerLock password =>
      simp only [nextRunning, Option.ite_none_right_eq_some] at hs
      exact schedulerLock_inv h hcpu hs.2
  | schedulerUnlock password =>
      simp only [nextRunning, Option.ite_none_right_eq_some] at hs
      exact schedulerUnlock_inv h hcpu hno hs.2

/-- Every step that is no unlock of the dictator keeps the invariant. -/
theorem next_inv {s s' : St} (h : Inv s) {a : Act} (hno : ¬ UnlocksDictator s a)
    (hs : next s a = some s') : Inv s' := by
  unfold next at hs
  split at hs
  · next p lv hcpu => exact nextRunning_inv h hcpu hno hs
  · next hcpu =>
      split at hs
      · exact schedule_inv h hcpu hs
      · cases hs
        exact h.calm (tick_calm s)
      · cases hs
        exact h.calm (calm_wakeup1 s _)
      · cases hs

/-! ## Runs -/

/-- Nobody is queued at boot, and nobody is alive. -/
theorem boot_core : Core boot := by
  have hwf : WfQ boot := fun _ => ⟨by show 0 < NPROC; decide, rfl, by show 0 ≤ NPROC; decide⟩
  have hent : ent boot.q = [] := rfl
  refine ⟨hwf, ?_, ?_, rfl, ?_, ?_, rfl⟩
  · rw [hent]
    exact List.nodup_nil
  · intro p
    rw [hent]
    simp [Live, boot]
  · simp [boot]
  · simp [boot]

/-- The first process is set up as `fork` would do it. -/
theorem userinit_inv : Inv userinit := by
  unfold userinit allocproc
  cases hf : firstProc boot fun p => p.state = .UNUSED with
  | none => exact ⟨boot_core, by simp [boot], by simp [boot]⟩
  | some p =>
      have hgap : Gap boot p := boot_core.gap (Or.inl (by simp [Live, boot])) (by simp [boot])
      have h1 := (hgap.setProc fun q => { q with state := .EMBRYO, pid := boot.nextpid }).setProc
        fun q => { q with state := .RUNNABLE, priority := 3, qlv := 0, consumed_tq := 0 }
      have hQ := enQ_queues h1.wf (h1.room (Nat.zero_le 2)) p
      have hcore := h1.join (by simp [Live]) (by simp [IsDictator, St.setProc, boot])
        (Nat.zero_le 2) hQ (List.perm_append_singleton _ _)
      have hdict : ∀ d : Pidx, boot.scheduler_dictator ≠ some d := by simp [boot]
      refine ⟨⟨hcore.wf, hcore.nodup, hcore.mem, hcore.dict, hcore.fork, hcore.fork_inj,
        hcore.overwrote⟩, ?_, ?_⟩
      · intro q lv hq
        cases hq
      · intro _ d hd
        cases hd

/-- In every run without a `schedulerUnlock` that ends a dictatorship the queues
are as they should be. -/
theorem membership_without_unlock {s : St}
    (hr : ReachOk Init next (fun s a => ¬ UnlocksDictator s a) s) : QueuesOk s := by
  have hinv : Inv s := by
    refine hr.invariant Inv ?_ ?_
    · rintro s rfl
      exact userinit_inv
    · intro s a s' h hno hs
      exact next_inv h hno hs
  exact hinv.queuesOk

/-! ## The dictator that unlocks -/

/-- The first process locks the scheduler, unlocks it again and yields. -/
def unlockRun : List Act :=
  [.schedule, .schedulerLock PASSWORD, .schedulerUnlock PASSWORD, .yield]

/-- After that it is in `mlfq[0]` twice. -/
theorem unlock_queues_twice : ¬ ∀ s, Reachable Init next s → QueuesOk s := by
  intro hall
  have hrun : ∃ s, exec next userinit unlockRun = some s ∧ s.cpu = none ∧
      Live (s.proc ⟨0, by decide⟩) ∧ ¬ IsDictator s ⟨0, by decide⟩ ∧
      (ent s.q).count ⟨0, by decide⟩ = 2 := by
    refine ⟨_, rfl, ?_⟩
    decide
  rcases hrun with ⟨s, hs, hcpu, hl, hnd, hcount⟩
  have hr : Reachable Init next s := reachable_exec (.init rfl) hs
  have hone := ((hall s hr).membership hcpu ⟨0, by decide⟩).1 hl hnd
  rw [hcount] at hone
  cases hone

/-- The first process forks and yields. -/
def forkRun : List Act := [.schedule, .forkAlloc, .forkDone, .yield]

/-- The condition of `membership_without_unlock` is met, for instance, by `forkRun`. -/
theorem membership_without_unlock_fork :
    ∃ s, exec next userinit forkRun = some s ∧ QueuesOk s := by
  have hrun : ∃ s, exec next userinit forkRun = some s := ⟨_, rfl⟩
  rcases hrun with ⟨s, hs⟩
  have h0 : ReachOk Init next (fun s a => ¬ UnlocksDictator s a) userinit := .init rfl
  refine ⟨s, hs, membership_without_unlock (h0.exec ?_ hs)⟩
  rintro a ha s ⟨p, lv, password, -, rfl, -⟩
  simp [forkRun] at ha

end Xv6.Mlfq
