import Xv6.Mlfq.Queue

/-!
# What a step does to the processes

The queue operations do not look at what a process is doing and leave that
alone, whatever state the rings are in. So a step is described by the states of
the processes, the CPU, and the dictator, without any invariant of the rings.

`sleep_effect`, `wait_effect`, `schedulerLock_effect` and the others each describe
one system call; `next_effect` puts them together and says all that a step can do
to the processes. The invariants that are about processes and not about queues
(`Mlfq.Dictator`, `Mlfq.Smp`, the runs of `Mlfq.Priority`) are proved from it and
do not unfold `next`.
-/

namespace Xv6.Mlfq

open Xv6.Lib

variable {s s' s'' : St} {p q : Pidx} {lv : Nat}

/-! ## Queue operations -/

/-- The counters of all rings agree, however full they are. -/
def Aligned (s : St) : Prop := ∀ lv, (s.mlfq lv).Aligned

/-- `enQ` moves the tail of one ring, and keeps its counters in step. -/
theorem enQ_aligned (h : Aligned s) (lv : Nat) (idx : Pidx) : Aligned (enQ s lv idx) := by
  intro l
  by_cases hl : l = lv
  · subst hl
    simpa [enQ] using (h l).push idx
  · simpa [enQ, hl] using h l

/-- `deQ` moves the head of one ring, and keeps its counters in step. -/
theorem deQ_aligned (h : Aligned s) (lv : Nat) : Aligned (deQ s lv).2 := by
  unfold deQ
  split
  · exact h
  · next idx r hp =>
    intro l
    by_cases hl : l = lv
    · subst hl
      simpa using (h l).pop hp
    · simpa [hl] using h l

/-- Nothing but the rings and the scheduling properties of processes has changed. -/
structure Still (s s' : St) : Prop where
  state : ∀ q, (s'.proc q).state = (s.proc q).state
  kont : s'.kont = s.kont
  dictator : s'.scheduler_dictator = s.scheduler_dictator
  is_dictated : s'.is_dictated = s.is_dictated
  cpu : s'.cpu = s.cpu
  aligned : Aligned s → Aligned s'

namespace Still

theorem refl (s : St) : Still s s := ⟨fun _ => rfl, rfl, rfl, rfl, rfl, id⟩

/-- Two such changes in a row are one. -/
theorem trans (h : Still s s') (h' : Still s' s'') : Still s s'' where
  state := fun q => (h'.state q).trans (h.state q)
  kont := h'.kont.trans h.kont
  dictator := h'.dictator.trans h.dictator
  is_dictated := h'.is_dictated.trans h.is_dictated
  cpu := h'.cpu.trans h.cpu
  aligned := fun ha => h'.aligned (h.aligned ha)

theorem iterate {f : St → St} (h : ∀ s, Still s (f s)) (n : Nat) (s : St) : Still s (f^[n] s) := by
  induction n generalizing s with
  | zero => exact .refl s
  | succ n ih => exact (h s).trans (ih (f s))

/-- Assigning to other fields of a process. -/
theorem setProc (f : Proc → Proc) (hf : (f (s.proc p)).state = (s.proc p).state) :
    Still s (s.setProc p f) := by
  refine ⟨fun q => ?_, rfl, rfl, rfl, rfl, id⟩
  by_cases hq : q = p
  · subst hq
    simpa using hf
  · simp [hq]

end Still

/-! ### The rings -/

/-- Nothing but the rings has changed, and their counters still agree. -/
structure Rings (s s' : St) : Prop where
  rest : s' = { s with mlfq := s'.mlfq, overwrote := s'.overwrote }
  aligned : Aligned s → Aligned s'

namespace Rings

theorem refl (s : St) : Rings s s := ⟨rfl, id⟩

theorem trans (h : Rings s s') (h' : Rings s' s'') : Rings s s'' := by
  refine ⟨?_, fun ha => h'.aligned (h.aligned ha)⟩
  have hr := h'.rest
  rw [h.rest] at hr
  exact hr

theorem iterate {f : St → St} (h : ∀ s, Rings s (f s)) (n : Nat) (s : St) : Rings s (f^[n] s) := by
  induction n generalizing s with
  | zero => exact .refl s
  | succ n ih => exact (h s).trans (ih (f s))

theorem proc (h : Rings s s') : s'.proc = s.proc := by rw [h.rest]

theorem still (h : Rings s s') : Still s s' := by
  refine ⟨fun q => by rw [h.proc], ?_, ?_, ?_, ?_, h.aligned⟩ <;> rw [h.rest]

end Rings

theorem enQ_rings (s : St) (lv : Nat) (idx : Pidx) : Rings s (enQ s lv idx) :=
  ⟨rfl, fun h => enQ_aligned h lv idx⟩

/-- `deQ` changes one ring. -/
theorem deQ_rings (s : St) (lv : Nat) : Rings s (deQ s lv).2 := by
  have ha : Aligned s → Aligned (deQ s lv).2 := fun h => deQ_aligned h lv
  unfold deQ at ha ⊢
  split at ha
  · exact .refl s
  · exact ⟨rfl, ha⟩

/-- A rotation changes one ring. -/
theorem rotate1_rings (s : St) (lv : Nat) : Rings s (rotate1 s lv) := by
  have h := deQ_rings s lv
  unfold rotate1
  split
  · next heq =>
    rw [heq] at h
    exact h
  · next heq =>
    rw [heq] at h
    exact h.trans (enQ_rings _ _ _)

/-- The loop over levels 0 and 1 changes their ring only. -/
theorem pickFirst_rings (n : Nat) : ∀ s : St, Rings s (pickFirst s lv n).2 := by
  induction n with
  | zero => exact fun s => .refl s
  | succ n ih =>
      intro s
      have h := deQ_rings s lv
      unfold pickFirst
      split
      · next heq =>
        rw [heq] at h
        exact h
      · next heq =>
        rw [heq] at h
        split
        · exact (h.trans (enQ_rings _ _ _)).trans (ih _)
        · exact h

/-- The loop over level 2 changes its ring only. -/
theorem scanPriority_rings (n : Nat) :
    ∀ (s : St) (i : Nat) (best : Int × Nat), Rings s (scanPriority s lv n i best).2 := by
  induction n with
  | zero => exact fun s _ _ => .refl s
  | succ n ih =>
      intro s i best
      have h := deQ_rings s lv
      unfold scanPriority
      split
      · next heq =>
        rw [heq] at h
        exact h
      · next idx s1 heq =>
        rw [heq] at h
        have h1 : Rings s (enQ s1 lv idx) := h.trans (enQ_rings _ _ _)
        dsimp only
        split
        · exact h1.trans (ih _ _ _)
        · split <;> exact h1.trans (ih _ _ _)

theorem takeNth_rings (s : St) (lv n : Nat) : Rings s (takeNth s lv n).2 :=
  (Rings.iterate (fun s => rotate1_rings s lv) n s).trans (deQ_rings _ lv)

/-- `pickProc` changes rings only, at any level. -/
theorem pickProc_rings (s : St) (lv : Nat) : Rings s (pickProc s lv).2 := by
  unfold pickProc
  split
  · exact .refl s
  · dsimp only
    split
    · have h : Rings s (scanPriority s lv (s.mlfq lv).size 0 (USELESS, 0)).2 :=
        scanPriority_rings _ s 0 (USELESS, 0)
      split
      · exact h
      · exact h.trans (takeNth_rings _ _ _)
    · exact pickFirst_rings _ s

/-- So does the loop over the levels. -/
theorem pickLevel_rings (s : St) : Rings s (pickLevel s).2 := by
  have h0 := pickProc_rings s 0
  unfold pickLevel
  split
  · next heq =>
    rw [heq] at h0
    exact h0
  · next s0 heq =>
    rw [heq] at h0
    -- nothing on level 0
    have h1 := pickProc_rings s0 1
    split
    · next heq1 =>
      rw [heq1] at h1
      exact h0.trans h1
    · next s1 heq1 =>
      rw [heq1] at h1
      -- nothing on level 1 either
      have h2 := pickProc_rings s1 2
      split
      · next heq2 =>
        rw [heq2] at h2
        exact (h0.trans h1).trans h2
      · next heq2 =>
        rw [heq2] at h2
        exact (h0.trans h1).trans h2

theorem enQFront_rings (s : St) (d : Pidx) : Rings s (enQFront s d) :=
  (enQ_rings s 0 d).trans (Rings.iterate (fun s => rotate1_rings s 0) _ _)

/-- The search for a pid rotates a ring. -/
theorem findPid_rings {pid : Int} (n : Nat) : ∀ s : St, Rings s (findPid s lv pid n).2 := by
  induction n with
  | zero => exact fun s => .refl s
  | succ n ih =>
      intro s
      have h := deQ_rings s lv
      unfold findPid
      split
      · next heq =>
        rw [heq] at h
        exact h
      · next heq =>
        rw [heq] at h
        dsimp only
        split
        · exact (h.trans (enQ_rings _ _ _)).trans (ih _)
        · exact h.trans (enQ_rings _ _ _)

/-- The search through all levels changes rings only. -/
theorem findPidLevels_rings (s : St) (pid : Int) : Rings s (findPidLevels s pid).2 := by
  have h0 : Rings s (findPid s 0 pid (s.mlfq 0).size).2 := findPid_rings _ s
  unfold findPidLevels
  split
  · next heq =>
    rw [heq] at h0
    exact h0
  · next s0 heq =>
    rw [heq] at h0
    have h1 : Rings s0 (findPid s0 1 pid (s0.mlfq 1).size).2 := findPid_rings _ s0
    split
    · next heq1 =>
      rw [heq1] at h1
      exact h0.trans h1
    · next s1 heq1 =>
      rw [heq1] at h1
      exact (h0.trans h1).trans (findPid_rings _ s1)

/-! ### The scheduling properties -/

/-- Boosting one entry changes its ring, its level, its priority and its quantum. -/
theorem boost1_still (s : St) (lv : Nat) : Still s (boost1 s lv) := by
  have h := (deQ_rings s lv).still
  unfold boost1
  split
  · next heq =>
    rw [heq] at h
    exact h
  · next heq =>
    rw [heq] at h
    exact (h.trans (.setProc _ rfl)).trans (enQ_rings _ _ _).still

theorem boostLevel_still (s : St) (lv : Nat) : Still s (boostLevel s lv) :=
  Still.iterate (fun s => boost1_still s lv) _ s

/-- `setPriority` changes rings and one priority. -/
theorem setPriority_still (s : St) (pid priority : Int) : Still s (setPriority s pid priority) := by
  have hlevels := (findPidLevels_rings s pid).still
  unfold setPriority
  dsimp only
  split
  · exact hlevels
  · split
    · exact hlevels
    · exact hlevels.trans (.setProc _ rfl)

/-! ## Steps -/

/-- What wakes a process with `wakeup`, `kill` or the end of another process. -/
def Wakes (x : Proc) : Act → Prop
  | .wakeup chan => x.chan = chan
  | .kill pid => x.pid = pid
  | .exitEnd => True
  | _ => False

/-- How a process is left that has given up the CPU. -/
def LeftOff (s' : St) (q : Pidx) : Prop :=
  (s'.proc q).state = .RUNNABLE ∨ (s'.proc q).state = .SLEEPING ∨
    (s'.proc q).state = .ZOMBIE ∧ s'.scheduler_dictator ≠ some q

/-- The state of process `q` after a step. -/
inductive Change (a : Act) (s s' : St) (q : Pidx) : Prop
  | same (h : (s'.proc q).state = (s.proc q).state)
  | woken (h : (s.proc q).state = .SLEEPING) (h' : (s'.proc q).state = .RUNNABLE)
      (ha : Wakes (s.proc q) a)
  | dispatched (lv : Nat) (hc : s.cpu = none) (hc' : s'.cpu = some (q, lv))
      (h' : (s'.proc q).state = .RUNNING)
  | parked (lv : Nat) (hc : s.cpu = some (q, lv)) (hc' : s'.cpu = none) (h' : LeftOff s' q)
  | allocated (h : (s.proc q).state = .UNUSED) (h' : (s'.proc q).state = .EMBRYO)
  /-- the running process ends its `fork` -/
  | forked (p : Pidx) (lv : Nat) (hc : s.cpu = some (p, lv)) (hk : s.kont p = .fork q)
      (hk' : s'.kont p = .user) (h' : (s'.proc q).state = .UNUSED ∨ (s'.proc q).state = .RUNNABLE)
  | reaped (h : (s.proc q).state = .ZOMBIE) (h' : (s'.proc q).state = .UNUSED)

/-- Which process is on the CPU. -/
inductive CpuChange (s s' : St) : Prop
  | same (h : s'.cpu = s.cpu)
  | parked (p : Pidx) (lv : Nat) (h : s.cpu = some (p, lv)) (h' : s'.cpu = none)
      (hl : LeftOff s' p)
  | dispatched (p : Pidx) (lv : Nat) (h : s.cpu = none) (h' : s'.cpu = some (p, lv))
      (hr : (s'.proc p).state = .RUNNING)
      (hd : s.is_dictated = true → s.scheduler_dictator = some p)

/-- Which process is the dictator. -/
inductive DictChange (s s' : St) : Prop
  | same (h : s'.scheduler_dictator = s.scheduler_dictator) (h' : s'.is_dictated = s.is_dictated)
  | cleared (h : s'.scheduler_dictator = none) (h' : s'.is_dictated = false)
  | taken (p : Pidx) (lv : Nat) (hc : s.cpu = some (p, lv)) (hc' : s'.cpu = s.cpu)
      (h : s'.scheduler_dictator = some p) (h' : s'.is_dictated = true)

/-- Which processes are in the middle of `fork`. -/
inductive KontChange (s s' : St) : Prop
  | kept (h : ∀ q np, s'.kont q = .fork np → s.kont q = .fork np)
  | forking (p np : Pidx) (lv : Nat) (hc : s.cpu = some (p, lv))
      (h : ∀ q np', s'.kont q = .fork np' → s.kont q = .fork np' ∨ q = p ∧ np' = np)
      (hu : (s.proc np).state = .UNUSED) (he : (s'.proc np).state = .EMBRYO)

structure Effect (a : Act) (s s' : St) : Prop where
  proc : ∀ q, Change a s s' q
  cpu : CpuChange s s'
  dict : DictChange s s'
  kont : KontChange s s'
  aligned : Aligned s → Aligned s'

variable {a : Act}

/-- What leaves states, continuations and the dictator alone is an effect of any action. -/
theorem Still.effect (h : Still s s') : Effect a s s' where
  proc := fun q => .same (h.state q)
  cpu := .same h.cpu
  dict := .same h.dictator h.is_dictated
  kont := .kept fun _ _ hq => by rwa [h.kont] at hq
  aligned := h.aligned

/-- Going on elsewhere in the kernel, but not in the middle of `fork`. -/
theorem setKont_kept {k : Kont} (hk : ∀ np, k ≠ .fork np) (q np : Pidx)
    (h : (s.setKont p k).kont q = .fork np) : s.kont q = .fork np := by
  by_cases hq : q = p
  · subst hq
    rw [St.setKont_kont_self] at h
    exact absurd h (hk np)
  · rwa [St.setKont_kont_ne _ _ hq] at h

/-- Going on somewhere else in a call is an effect, unless a `fork` begins. -/
theorem setKont_effect {k : Kont} (hk : ∀ np, k ≠ .fork np) : Effect a s (s.setKont p k) where
  proc := fun _ => .same rfl
  cpu := .same rfl
  dict := .same rfl rfl
  kont := .kept (setKont_kept hk)
  aligned := id

/-! ### Wakeups -/

/-- Some sleeping processes have become RUNNABLE. -/
structure Roused (P : Proc → Prop) (s s' : St) : Prop where
  state : ∀ q, (s'.proc q).state = (s.proc q).state ∨
    (s.proc q).state = .SLEEPING ∧ (s'.proc q).state = .RUNNABLE ∧ P (s.proc q)
  kont : s'.kont = s.kont
  dictator : s'.scheduler_dictator = s.scheduler_dictator
  is_dictated : s'.is_dictated = s.is_dictated
  cpu : s'.cpu = s.cpu
  aligned : Aligned s → Aligned s'

/-- Wakeups in a row are wakeups. -/
theorem Roused.trans {P P' : Proc → Prop} (h : Roused P s s') (h' : Roused P' s' s'') :
    Roused (fun _ => True) s s'' where
  state := fun q => by
    rcases h.state q with h1 | ⟨h1, h2, -⟩
    · rcases h'.state q with h3 | ⟨h3, h4, -⟩
      · exact .inl (h3.trans h1)
      · exact .inr ⟨h1.symm.trans h3, h4, trivial⟩
    · rcases h'.state q with h3 | ⟨h3, -⟩
      · exact .inr ⟨h1, h3.trans h2, trivial⟩
      · rw [h2] at h3
        cases h3
  kont := h'.kont.trans h.kont
  dictator := h'.dictator.trans h.dictator
  is_dictated := h'.is_dictated.trans h.is_dictated
  cpu := h'.cpu.trans h.cpu
  aligned := fun ha => h'.aligned (h.aligned ha)

theorem Still.roused {P : Proc → Prop} (h : Still s s') : Roused P s s' :=
  ⟨fun q => .inl (h.state q), h.kont, h.dictator, h.is_dictated, h.cpu, h.aligned⟩

/-- Wakeups are an effect of the actions that wake. -/
theorem Roused.effect {P : Proc → Prop} (h : Roused P s s') (ha : ∀ x, P x → Wakes x a) :
    Effect a s s' where
  proc := fun q => by
    rcases h.state q with h1 | ⟨h1, h2, h3⟩
    · exact .same h1
    · exact .woken h1 h2 (ha _ h3)
  cpu := .same h.cpu
  dict := .same h.dictator h.is_dictated
  kont := .kept fun q np hq => by rwa [h.kont] at hq
  aligned := h.aligned

/-- `wakeup1` rouses those that sleep on the channel. -/
theorem wakeup1_roused (s : St) (chan : Chan) :
    Roused (fun x => x.chan = chan) s (wakeup1 s chan) := by
  refine ⟨fun q => ?_, rfl, rfl, rfl, rfl, id⟩
  unfold wakeup1
  dsimp only
  split
  · next h => exact .inr ⟨h.1, rfl, h.2⟩
  · exact .inl rfl

/-- `kill` rouses its target. -/
theorem kill_roused (s : St) (pid : Int) : Roused (fun x => x.pid = pid) s (kill s pid) := by
  unfold kill firstProc
  cases hf : (List.finRange NPROC).find? _ with
  | none => exact (Still.refl s).roused
  | some i =>
      have hi := List.find?_some hf
      rw [decide_eq_true_iff] at hi
      refine ⟨fun q => ?_, rfl, rfl, rfl, rfl, id⟩
      by_cases hq : q = i
      · subst hq
        dsimp only
        rw [St.setProc_proc_self]
        dsimp only
        split
        · next h => exact .inr ⟨h, rfl, hi⟩
        · exact .inl rfl
      · exact .inl (by simp [hq])

/-- `exit` rouses `init` for each zombie child that it passes on. -/
theorem passChildren_roused (s : St) (p : Pidx) :
    Roused (fun _ => True) s (passChildren s p) := by
  unfold passChildren
  generalize List.finRange NPROC = l
  induction l generalizing s with
  | nil => exact (Still.refl s).roused
  | cons c l ih =>
      rw [List.foldl_cons]
      refine Roused.trans (P := fun _ => True) ?_ (ih _)
      split
      · have h1 : Still s (s.setProc c fun q => { q with parent := some s.initproc }) :=
          .setProc _ rfl
        dsimp only
        split
        · exact (h1.roused (P := fun _ => True)).trans (wakeup1_roused _ _)
        · exact h1.roused
      · exact (Still.refl s).roused

/-! ### Giving up the CPU -/

/-- The scheduler has the CPU again. -/
structure GivenUp (s s' : St) : Prop where
  state : ∀ q, (s'.proc q).state = (s.proc q).state
  kont : s'.kont = s.kont
  cpu : s'.cpu = none
  dict : s'.scheduler_dictator = s.scheduler_dictator ∧ s'.is_dictated = s.is_dictated ∨
    s'.scheduler_dictator = none ∧ s'.is_dictated = false
  aligned : Aligned s → Aligned s'

/-- Going back into a queue changes rings, levels and quanta. -/
theorem requeue_still (s : St) (p : Pidx) (lv : Nat) : Still s (requeue s p lv) := by
  have h0 : Still s (s.setProc p fun q => { q with consumed_tq := (q.consumed_tq + 1) % 2 ^ 32 }) :=
    .setProc _ rfl
  unfold requeue
  dsimp only
  split
  · exact h0
  · have hqueue : ∀ (s1 : St) (lv' : Nat), Still s s1 →
        Still s (if (s1.proc p).state ≠ .ZOMBIE then enQ s1 lv' p else s1) := by
      intro s1 lv' h1
      split
      · exact h1.trans (enQ_rings _ _ _).still
      · exact h1
    apply hqueue
    split
    · exact h0.trans (.setProc _ rfl)
    · exact h0

/-- `priorityBoost` leaves states and continuations, and ends a dictatorship or leaves it. -/
theorem priorityBoost_spec (s : St) : (∀ q, ((priorityBoost s).proc q).state = (s.proc q).state) ∧
    (priorityBoost s).kont = s.kont ∧ ((priorityBoost s).scheduler_dictator = s.scheduler_dictator ∧
      (priorityBoost s).is_dictated = s.is_dictated ∨
        (priorityBoost s).scheduler_dictator = none ∧ (priorityBoost s).is_dictated = false) ∧
          (Aligned s → Aligned (priorityBoost s)) := by
  have hlevels : ∀ s0 : St, Still s0 (boostLevel (boostLevel (boostLevel s0 0) 1) 2) := fun s0 =>
    ((boostLevel_still s0 0).trans (boostLevel_still _ 1)).trans (boostLevel_still _ 2)
  unfold priorityBoost
  by_cases hd : s.is_dictated = true
  · rw [if_pos hd]
    -- what follows once the dictator has been queued
    have hgo : ∀ s1 : St, Still s s1 → ∀ s2, s2 = boostLevel (boostLevel (boostLevel
        { s1 with is_dictated := false, scheduler_dictator := none } 0) 1) 2 →
        (∀ q, (s2.proc q).state = (s.proc q).state) ∧ s2.kont = s.kont ∧
          (s2.scheduler_dictator = none ∧ s2.is_dictated = false) ∧
            (Aligned s → Aligned s2) := by
      rintro s1 hfront s2 rfl
      have h := hlevels { s1 with is_dictated := false, scheduler_dictator := none }
      exact ⟨fun q => (h.state q).trans (hfront.state q), h.kont.trans hfront.kont,
        ⟨h.dictator, h.is_dictated⟩, fun ha => h.aligned (hfront.aligned ha)⟩
    cases s.scheduler_dictator with
    | none =>
        rcases hgo s (.refl s) _ rfl with ⟨hst, hk, hdict, ha⟩
        exact ⟨hst, hk, .inr hdict, ha⟩
    | some d =>
        rcases hgo _ (enQFront_rings s d).still _ rfl with ⟨hst, hk, hdict, ha⟩
        exact ⟨hst, hk, .inr hdict, ha⟩
  · rw [if_neg hd]
    have h := hlevels s
    exact ⟨h.state, h.kont, .inl ⟨h.dictator, h.is_dictated⟩, h.aligned⟩

/-- What the scheduler does with a process that comes back changes no state. -/
theorem feedback_givenUp (s : St) (p : Pidx) (lv : Nat) : GivenUp s (feedback s p lv) := by
  have h := requeue_still s p lv
  unfold feedback
  generalize requeue s p lv = s1 at h
  dsimp only
  split
  · obtain ⟨hst, hk, hd, ha⟩ := priorityBoost_spec { s1 with global_ticks := 0 }
    refine ⟨fun q => (hst q).trans (h.state q), hk.trans h.kont, rfl, ?_,
      fun hal => ha (h.aligned hal)⟩
    rcases hd with ⟨h1, h2⟩ | ⟨h1, h2⟩
    · exact .inl ⟨h1.trans h.dictator, h2.trans h.is_dictated⟩
    · exact .inr ⟨h1, h2⟩
  · exact ⟨h.state, h.kont, rfl, .inl ⟨h.dictator, h.is_dictated⟩, h.aligned⟩

/-- `sched` gives the CPU up in the state `st`, and does nothing else to the states. -/
theorem sched_givenUp (s : St) (p : Pidx) (lv : Nat) (st : ProcState) :
    ((sched s p lv st).proc p).state = st ∧
      (∀ q, q ≠ p → ((sched s p lv st).proc q).state = (s.proc q).state) ∧
      (sched s p lv st).kont = s.kont ∧ (sched s p lv st).cpu = none ∧
      ((sched s p lv st).scheduler_dictator = s.scheduler_dictator ∧
        (sched s p lv st).is_dictated = s.is_dictated ∨
          (sched s p lv st).scheduler_dictator = none ∧ (sched s p lv st).is_dictated = false) ∧
      (Aligned s → Aligned (sched s p lv st)) := by
  have h := feedback_givenUp (s.setProc p fun q => { q with state := st }) p lv
  refine ⟨?_, fun q hq => ?_, h.kont, h.cpu, h.dict, h.aligned⟩
  · have hp := h.state p
    rw [St.setProc_proc_self] at hp
    exact hp
  · have hq' := h.state q
    rw [St.setProc_proc_ne _ _ hq] at hq'
    exact hq'

/-- Giving up the CPU after some processes have been woken. -/
theorem sched_effect {P : Proc → Prop} {s0 : St} {st : ProcState} (hcpu : s.cpu = some (p, lv))
    (h : Roused P s s0) (ha : ∀ x, P x → Wakes x a)
    (hst : st = .RUNNABLE ∨ st = .SLEEPING ∨ st = .ZOMBIE ∧ s0.scheduler_dictator ≠ some p) :
    Effect a s (sched s0 p lv st) := by
  rcases sched_givenUp s0 p lv st with ⟨hp, hother, hk, hc, hd, ha'⟩
  have hleft : LeftOff (sched s0 p lv st) p := by
    unfold LeftOff
    rw [hp]
    -- a zombie is no dictator: its `exit` has cleared the variable
    rcases hst with h1 | h1 | ⟨h1, h2⟩
    · exact .inl h1
    · exact .inr (.inl h1)
    · refine .inr (.inr ⟨h1, ?_⟩)
      rcases hd with ⟨hd, -⟩ | ⟨hd, -⟩
      · rwa [hd]
      · rw [hd]
        exact fun hn => nomatch hn
  refine ⟨fun q => ?_, .parked p lv hcpu hc hleft, ?_, .kept fun q np hq => ?_,
    fun hal => ha' (h.aligned hal)⟩
  -- the process that gives up its CPU, and those that the call has woken
  · by_cases hq : q = p
    · subst hq
      exact .parked lv hcpu hc hleft
    · rcases h.state q with h1 | ⟨h1, h2, h3⟩
      · exact .same ((hother q hq).trans h1)
      · exact .woken h1 ((hother q hq).trans h2) (ha _ h3)
  · rcases hd with ⟨h1, h2⟩ | ⟨h1, h2⟩
    · exact .same (h1.trans h.dictator) (h2.trans h.is_dictated)
    · exact .cleared h1 h2
  · rwa [hk, h.kont] at hq

/-- An effect after a change of the kernel code the process stands in. -/
theorem Effect.of_setKont {k : Kont} (hk : ∀ np, k ≠ .fork np)
    (hnf : ∀ np, s.kont p ≠ .fork np) (h : Effect a (s.setKont p k) s') : Effect a s s' := by
  have hsame : ∀ q np, (s.setKont p k).kont q = .fork np ↔ s.kont q = .fork np := by
    intro q np
    refine ⟨setKont_kept hk q np, fun hq => ?_⟩
    have hqp : q ≠ p := by
      rintro rfl
      exact hnf np hq
    rwa [St.setKont_kont_ne _ _ hqp]
  -- one effect at a time; only a fork that ends asks for the continuation
  refine ⟨fun q => ?_, ?_, ?_, ?_, h.aligned⟩
  · cases h.proc q with
    | same h => exact .same h
    | woken h h' ha => exact .woken h h' ha
    | dispatched lv hc hc' h' => exact .dispatched lv hc hc' h'
    | parked lv hc hc' h' => exact .parked lv hc hc' h'
    | allocated h h' => exact .allocated h h'
    | forked r lv hc hr hr' h' => exact .forked r lv hc ((hsame r q).1 hr) hr' h'
    | reaped h h' => exact .reaped h h'
  · cases h.cpu with
    | same h => exact .same h
    | parked r lv h h' hl => exact .parked r lv h h' hl
    | dispatched r lv h h' hr hd => exact .dispatched r lv h h' hr hd
  · cases h.dict with
    | same h h' => exact .same h h'
    | cleared h h' => exact .cleared h h'
    | taken r lv hc hc' h h' => exact .taken r lv hc hc' h h'
  · cases h.kont with
    | kept h => exact .kept fun q np hq => (hsame q np).1 (h q np hq)
    | forking r np lv hc h hu he =>
        exact .forking r np lv hc (fun q np' hq => (h q np' hq).imp (hsame q np').1 id) hu he

/-! ### The scheduler loop -/

/-- Switching to a process makes it RUNNING. -/
theorem dispatch_effect {s0 : St} (hcpu : s.cpu = none) (h : Still s s0)
    (hd : s.is_dictated = true → s.scheduler_dictator = some p) :
    Effect a s (dispatch s0 p lv) := by
  have hp : ((dispatch s0 p lv).proc p).state = .RUNNING := by
    simp [dispatch, St.setProc]
  refine ⟨fun q => ?_, .dispatched p lv hcpu rfl hp hd, .same h.dictator h.is_dictated,
    .kept fun _ _ hq => ?_, h.aligned⟩
  · by_cases hq : q = p
    · subst hq
      exact .dispatched lv hcpu rfl hp
    · refine .same ?_
      rw [← h.state q]
      simp [dispatch, St.setProc, hq]
  · have hk : (dispatch s0 p lv).kont = s.kont := h.kont
    rwa [hk] at hq

/-- One pass of the scheduler: a RUNNABLE process gets the CPU, or nobody does. -/
theorem schedule_effect (hcpu : s.cpu = none) (hs : schedule s = some s') :
    Effect a s s' := by
  unfold schedule at hs
  by_cases hd : s.is_dictated = true
  · rw [if_pos hd, Option.map_eq_some_iff] at hs
    rcases hs with ⟨d, hdd, rfl⟩
    exact dispatch_effect hcpu (.refl s) fun _ => hdd
  · have hstill := (pickLevel_rings s).still
    rw [if_neg hd] at hs
    split at hs
    · next p lv s0 heq =>
      cases hs
      rw [heq] at hstill
      exact dispatch_effect hcpu hstill fun h => absurd h hd
    · next s0 heq =>
      cases hs
      rw [heq] at hstill
      exact hstill.effect

/-! ### System calls -/

theorem firstProc_some {P : Proc → Bool} {i : Pidx} (h : firstProc s P = some i) :
    P (s.proc i) = true :=
  List.find?_some (p := fun p => P (s.proc p)) h

/-- `allocproc` makes an UNUSED slot an EMBRYO, and `fork` goes on with it. -/
theorem forkAlloc_effect (hcpu : s.cpu = some (p, lv)) : Effect a s (forkAlloc s p) := by
  unfold forkAlloc allocproc
  cases hf : firstProc s fun p => p.state = .UNUSED with
  | none => exact (Still.refl s).effect
  | some np =>
      have hu : (s.proc np).state = .UNUSED := by simpa using firstProc_some hf
      refine ⟨fun q => ?_, .same rfl, .same rfl rfl,
        .forking p np lv hcpu (fun q np' hq => ?_) hu ?_,
        id⟩
      · by_cases hq : q = np
        · subst hq
          exact .allocated hu (by simp)
        · refine .same ?_
          simp [hq, St.setProc]
      · by_cases hqp : q = p
        · subst hqp
          refine .inr ⟨rfl, ?_⟩
          have heq : Kont.fork np = .fork np' := by simpa using hq
          exact (Kont.fork.inj heq).symm
        · refine .inl ?_
          simpa [hqp, St.setProc] using hq
      · simp

/-- A `fork` that fails gives its EMBRYO back. -/
theorem forkFail_effect {np : Pidx} (hcpu : s.cpu = some (p, lv)) (hk : s.kont p = .fork np) :
    Effect a s (forkFail s p np) := by
  unfold forkFail
  refine ⟨fun q => ?_, .same rfl, .same rfl rfl, .kept ?_, id⟩
  · by_cases hq : q = np
    · subst hq
      exact .forked p lv hcpu hk (by simp) (.inl (by simp))
    · refine .same ?_
      simp [hq]
  · exact setKont_kept fun np h => nomatch h

/-- A `fork` that succeeds makes its EMBRYO RUNNABLE and queues it. -/
theorem forkDone_effect {np : Pidx} (hcpu : s.cpu = some (p, lv)) (hk : s.kont p = .fork np) :
    Effect a s (forkDone s p np) := by
  unfold forkDone
  dsimp only
  refine ⟨fun q => ?_, .same rfl, .same rfl rfl, .kept fun q np' hq => ?_,
    fun ha => enQ_aligned (s := s.setProc np _) ha 0 np⟩
  · by_cases hq : q = np
    · subst hq
      refine .forked p lv hcpu hk ?_ (.inr ?_)
      · by_cases hpq : p = q
        · simp [hpq]
        · rw [St.setKont_kont_ne _ _ hpq, St.setKont_kont_self]
      · simp [enQ]
    · refine .same ?_
      simp [enQ, hq]
  · have h1 := setKont_kept (k := .user) (by simp) q np' hq
    exact setKont_kept (k := .user) (by simp) q np' h1

/-- The part of `exit` before the locks changes no state. -/
theorem exitBegin_effect (hs : exitBegin s p = some s') : Effect a s s' := by
  unfold exitBegin at hs
  split at hs
  · cases hs
  · cases hs
    exact setKont_effect fun np h => nomatch h

/-- The last part of `exit`: the dictator that exits is none afterwards. -/
theorem exitEnd_effect (hcpu : s.cpu = some (p, lv)) : Effect .exitEnd s (exitEnd s p lv) := by
  unfold exitEnd
  dsimp only
  generalize hs1 : passChildren (wakeup1 s _) p = s1
  have h : Roused (fun _ => True) s s1 := by
    rw [← hs1]
    exact (wakeup1_roused _ _).trans (passChildren_roused _ _)
  split
  · next hd =>
    -- the flags are cleared before the process becomes a ZOMBIE
    obtain ⟨hp, hother, hk, hc, hdict, ha⟩ := sched_givenUp
      { s1 with is_dictated := false, scheduler_dictator := none } p lv .ZOMBIE
    have hnone : (sched { s1 with is_dictated := false, scheduler_dictator := none } p lv
        .ZOMBIE).scheduler_dictator = none := by
      rcases hdict with ⟨h1, -⟩ | ⟨h1, -⟩ <;> exact h1
    have hfalse : (sched { s1 with is_dictated := false, scheduler_dictator := none } p lv
        .ZOMBIE).is_dictated = false := by
      rcases hdict with ⟨-, h1⟩ | ⟨-, h1⟩ <;> exact h1
    have hleft : LeftOff (sched { s1 with is_dictated := false, scheduler_dictator := none } p lv
        .ZOMBIE) p := by
      refine .inr (.inr ⟨hp, ?_⟩)
      rw [hnone]
      exact fun hn => nomatch hn
    refine ⟨fun q => ?_, .parked p lv hcpu hc hleft, .cleared hnone hfalse, .kept fun q np hq => ?_,
      fun hal => ha (h.aligned hal)⟩
    · by_cases hq : q = p
      · subst hq
        exact .parked lv hcpu hc hleft
      · rcases h.state q with h1 | ⟨h1, h2, h3⟩
        · exact .same ((hother q hq).trans h1)
        · exact .woken h1 ((hother q hq).trans h2) trivial
    · rw [hk] at hq
      rwa [show s1.kont = s.kont from h.kont] at hq
  · next hd => exact sched_effect hcpu h (fun _ _ => trivial) (.inr (.inr ⟨rfl, hd⟩))

theorem sleep_effect {chan : Chan} (hcpu : s.cpu = some (p, lv)) :
    Effect a s (sleep s p lv chan) := by
  have h : Still s (s.setProc p fun q => { q with chan := chan }) := .setProc _ rfl
  exact sched_effect (P := fun _ => False) hcpu h.roused (fun _ hf => hf.elim) (.inr (.inl rfl))

/-- `wait` frees a zombie child, goes to sleep or fails. -/
theorem wait_effect (hcpu : s.cpu = some (p, lv)) (hk : ∀ np, s.kont p ≠ .fork np) :
    Effect a s (wait s p lv) := by
  unfold wait
  split
  · next c hc =>
    have hz : (s.proc c).parent = some p ∧ (s.proc c).state = .ZOMBIE := by
      simpa using firstProc_some hc
    refine ⟨fun q => ?_, .same rfl, .same rfl rfl, .kept ?_, id⟩
    · by_cases hq : q = c
      · subst hq
        exact .reaped hz.2 (by simp)
      · refine .same ?_
        simp [hq]
    · exact setKont_kept fun np h => nomatch h
  · split
    · exact setKont_effect fun np h => nomatch h
    · exact .of_setKont (by simp) hk (sleep_effect hcpu)

/-- Clearing the flags, and going on in `exit`. -/
theorem undictate_exit_effect
    (hs : exitBegin { s with scheduler_dictator := none, is_dictated := false } p = some s') :
    Effect a s s' := by
  unfold exitBegin at hs
  split at hs
  · cases hs
  · cases hs
    exact ⟨fun q => .same rfl, .same rfl, .cleared rfl rfl,
      .kept (setKont_kept (by simp)), id⟩

/-- `schedulerLock` makes the caller the dictator, or kills it. -/
theorem schedulerLock_effect {password : Int} (hcpu : s.cpu = some (p, lv))
    (hs : schedulerLock s p password = some s') : Effect a s s' := by
  unfold schedulerLock at hs
  split at hs
  · exact undictate_exit_effect hs
  split at hs
  · exact exitBegin_effect hs
  · cases hs
    refine ⟨fun q => .same ?_, .same rfl, .taken p lv hcpu rfl rfl rfl, .kept fun _ _ hq => hq,
      id⟩
    by_cases hq : q = p
    · simp [hq]
    · simp [hq]

/-- `schedulerUnlock` ends the dictatorship, or kills the caller. -/
theorem schedulerUnlock_effect {password : Int} (hs : schedulerUnlock s p password = some s') :
    Effect a s s' := by
  unfold schedulerUnlock at hs
  split at hs
  · exact exitBegin_effect hs
  split at hs
  · cases hs
    exact (Still.refl s).effect
  · cases hs
    have h1 : Still s (s.setProc p fun q => { q with priority := 3, qlv := 0, consumed_tq := 0 }) :=
      .setProc _ rfl
    have h := h1.trans (enQFront_rings _ p).still
    exact ⟨fun q => .same (h.state q), .same h.cpu, .cleared rfl rfl,
      .kept fun _ _ hq => by rwa [show _ = s.kont from h.kont] at hq, h.aligned⟩

/-! ### Every step -/

/-- What the process on the CPU can do, one case for each action. -/
theorem nextRunning_effect (hcpu : s.cpu = some (p, lv)) (hs : nextRunning s p lv a = some s') :
    Effect a s s' := by
  -- the scheduler does nothing while a process runs; the others are its calls and two
  -- interrupts
  cases a with
  | schedule => cases hs
  | tick =>
      cases hs
      exact Still.effect ⟨fun _ => rfl, rfl, rfl, rfl, rfl, id⟩
  | wakeup chan =>
      cases hs
      exact (wakeup1_roused s chan).effect fun _ h => h
  | yield =>
      simp only [nextRunning, Option.ite_none_left_eq_some, Option.some.injEq] at hs
      rcases hs with ⟨-, rfl⟩
      exact sched_effect (P := fun _ => False) hcpu (Still.refl s).roused (fun _ hf => hf.elim)
        (.inl rfl)
  | sleep chan =>
      simp only [nextRunning] at hs
      -- a process in the middle of a call does not sleep a second time
      split at hs
      · cases hs
        exact sleep_effect hcpu
      · cases hs
        exact sleep_effect hcpu
      · cases hs
  | kill pid =>
      simp only [nextRunning, Option.ite_none_right_eq_some, Option.some.injEq] at hs
      rcases hs with ⟨-, rfl⟩
      exact (kill_roused s pid).effect fun _ h => h
  | forkAlloc =>
      simp only [nextRunning, Option.ite_none_right_eq_some, Option.some.injEq] at hs
      rcases hs with ⟨-, rfl⟩
      exact forkAlloc_effect hcpu
  | forkFail =>
      simp only [nextRunning] at hs
      split at hs
      · next hk =>
        cases hs
        exact forkFail_effect hcpu hk
      · cases hs
  | forkDone =>
      simp only [nextRunning] at hs
      split at hs
      · next hk =>
        cases hs
        exact forkDone_effect hcpu hk
      · cases hs
  | exitBegin =>
      simp only [nextRunning, Option.ite_none_right_eq_some] at hs
      exact exitBegin_effect hs.2
  | exitEnd =>
      simp only [nextRunning, Option.ite_none_right_eq_some, Option.some.injEq] at hs
      rcases hs with ⟨-, rfl⟩
      exact exitEnd_effect hcpu
  | wait =>
      simp only [nextRunning] at hs
      -- `wait` frees a zombie, sleeps, or returns
      split at hs
      · next hk =>
        cases hs
        exact wait_effect hcpu fun np h => nomatch hk.symm.trans h
      · next hk =>
        cases hs
        exact wait_effect hcpu fun np h => nomatch hk.symm.trans h
      · cases hs
  | setPriority pid priority =>
      simp only [nextRunning, Option.ite_none_right_eq_some, Option.some.injEq] at hs
      rcases hs with ⟨-, rfl⟩
      exact (setPriority_still s pid priority).effect
  | schedulerLock password =>
      simp only [nextRunning, Option.ite_none_right_eq_some] at hs
      exact schedulerLock_effect hcpu hs.2
  | schedulerUnlock password =>
      simp only [nextRunning, Option.ite_none_right_eq_some] at hs
      exact schedulerUnlock_effect hs.2

/-- What a step can do. -/
theorem next_effect (hs : next s a = some s') : Effect a s s' := by
  unfold next at hs
  split at hs
  · next p lv hcpu => exact nextRunning_effect hcpu hs
  · next hcpu =>
    split at hs
    · exact schedule_effect hcpu hs
    · cases hs
      exact Still.effect ⟨fun _ => rfl, rfl, rfl, rfl, rfl, id⟩
    · cases hs
      exact (wakeup1_roused s _).effect fun _ h => h
    · cases hs

end Xv6.Mlfq
