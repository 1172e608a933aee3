import Xv6.Mlfq.Effect

/-!
# Any number of CPUs

Every CPU runs `scheduler()`, and all its sections hold `ptable.lock`, so a step
of the machine is a step of one CPU on the shared tables. `pickProc` takes
RUNNABLE processes only, as long as the ring of level 2 holds no more than its
size; the dictator is taken whatever it is doing.

* `dispatches_runnable`: in every run in which no scheduler passes while the
  dictator is asleep or on a CPU, or with an overfull level 2, no process is on
  two CPUs and those switched to were RUNNABLE;
* `runs_twice`: two CPUs run the dictator at the same time.

The tables are those of `Mlfq.Sched`; only `cpu->proc` is one for each CPU. What a
CPU does between two sections with the lock is no step, since it touches nothing
of the scheduler.
-/

namespace Xv6.Mlfq

open Xv6.Lib

variable {s t : St} {lv : Nat} {x : Pidx}

/-! ## What pickProc takes -/

theorem deQ_proc (s : St) (lv : Nat) : (deQ s lv).2.proc = s.proc := by
  unfold deQ
  split <;> rfl

/-- Levels 0 and 1, however full the ring is. -/
theorem pickFirst_runnable (n : Nat) : ∀ s : St, (pickFirst s lv n).1 = some x →
    (s.proc x).state = .RUNNABLE := by
  induction n with
  | zero => exact fun _ h => nomatch h
  | succ n ih =>
      intro s h
      have hp := deQ_proc s lv
      unfold pickFirst at h
      split at h
      · cases h
      · next idx s1 heq =>
        rw [heq] at hp
        split at h
        · rw [← hp]
          exact ih (enQ s1 lv idx) h
        · next hr =>
          cases h
          rw [← hp]
          exact not_not.1 hr

/-- The states agree on what an operation on level `lv` looks at. -/
def SameRing (lv : Nat) (s t : St) : Prop := s.proc = t.proc ∧ s.mlfq lv = t.mlfq lv

theorem SameRing.enQ (h : SameRing lv s t) (idx : Pidx) :
    SameRing lv (enQ s lv idx) (enQ t lv idx) := by
  refine ⟨h.1, ?_⟩
  simp [Mlfq.enQ, h.2]

/-- `deQ` looks at its own ring only. -/
theorem SameRing.deQ (h : SameRing lv s t) :
    (deQ s lv).1 = (deQ t lv).1 ∧ SameRing lv (deQ s lv).2 (deQ t lv).2 := by
  unfold Mlfq.deQ
  rw [h.2]
  cases (t.mlfq lv).pop with
  | none => exact ⟨rfl, h⟩
  | some r => exact ⟨rfl, h.1, by simp⟩

/-- So does a rotation. -/
theorem SameRing.rotate1 (h : SameRing lv s t) : SameRing lv (rotate1 s lv) (rotate1 t lv) := by
  rcases h.deQ with ⟨h1, h2⟩
  unfold Mlfq.rotate1
  generalize Mlfq.deQ s lv = a at h1 h2
  generalize Mlfq.deQ t lv = b at h1 h2
  rcases a with ⟨i, s1⟩
  rcases b with ⟨j, t1⟩
  obtain rfl : i = j := h1
  cases i with
  | none => exact h2
  | some idx => exact h2.enQ idx

theorem SameRing.rotate (n : Nat) : ∀ {s t : St}, SameRing lv s t →
    SameRing lv ((fun s => Mlfq.rotate1 s lv)^[n] s) ((fun s => Mlfq.rotate1 s lv)^[n] t) := by
  induction n with
  | zero => exact fun h => h
  | succ n ih => exact fun h => ih h.rotate1

/-- So does the loop over level 2, by induction on its turns. -/
theorem SameRing.scan (n : Nat) : ∀ {s t : St} (i : Nat) (best : Int × Nat), SameRing lv s t →
    (scanPriority s lv n i best).1 = (scanPriority t lv n i best).1 ∧
      SameRing lv (scanPriority s lv n i best).2 (scanPriority t lv n i best).2 := by
  induction n with
  | zero => exact fun _ _ h => ⟨rfl, h⟩
  | succ n ih =>
      intro s t i best h
      -- both rings give the same entry and take it back
      rcases h.deQ with ⟨h1, h2⟩
      unfold scanPriority
      generalize Mlfq.deQ s lv = a at h1 h2
      generalize Mlfq.deQ t lv = b at h1 h2
      rcases a with ⟨i', s1⟩
      rcases b with ⟨j', t1⟩
      obtain rfl : i' = j' := h1
      cases i' with
      | none => exact ⟨rfl, h2⟩
      | some idx =>
          have h3 := h2.enQ idx
          dsimp only at h3 ⊢
          rw [h3.1]
          split
          · exact ih _ _ h3
          · split <;> exact ih _ _ h3

/-- What `pickProc` takes from level 2 depends on that ring only. -/
theorem SameRing.pick (h : SameRing 2 s t) : (pickProc s 2).1 = (pickProc t 2).1 := by
  unfold pickProc isEmpty
  rw [h.2]
  split
  · rfl
  · dsimp only
    rw [if_pos rfl, if_pos rfl]
    rcases SameRing.scan (t.mlfq 2).size 0 (USELESS, 0) h with ⟨h1, h2⟩
    rw [h1]
    split
    · rfl
    · exact (SameRing.rotate _ h2).deQ.1

/-- Level 2, if its ring is not overfull. -/
theorem pickProc_two_runnable (hw : (s.mlfq 2).Wf) (h : (pickProc s 2).1 = some x) :
    (s.proc x).state = .RUNNABLE := by
  -- the same state with the other rings empty
  let t : St := { s with mlfq := Function.update (fun _ => ⟨fun _ => x, 0, 0, 0⟩) 2 (s.mlfq 2) }
  have hst : SameRing 2 s t := by
    refine ⟨rfl, ?_⟩
    simp [t]
  have hwt : WfQ t := by
    intro l
    by_cases hl : l = 2
    · subst hl
      simpa [t] using hw
    · have hempty : t.mlfq l = ⟨fun _ => x, 0, 0, 0⟩ := by simp [t, hl]
      rw [hempty]
      exact ⟨by show 0 < NPROC; decide, rfl, by show 0 ≤ NPROC; decide⟩
  rw [hst.pick] at h
  rcases pickProc_cases hwt 2 with ⟨t1, hp, -⟩ | ⟨y, pre, post, t1, -, hy, hp, -⟩
  · rw [hp] at h
    cases h
  · rw [hp] at h
    cases h
    exact hy

/-- At levels 0 and 1 the test is made on the entry that is returned. -/
theorem pickProc_low_runnable (hlv : lv ≠ 2) (h : (pickProc s lv).1 = some x) :
    (s.proc x).state = .RUNNABLE := by
  unfold pickProc at h
  split at h
  · cases h
  · exact pickFirst_runnable _ s (by simpa [hlv] using h)

theorem deQ_other {l : Nat} (hl : l ≠ lv) : (deQ s lv).2.mlfq l = s.mlfq l := by
  unfold deQ
  split
  · rfl
  · simp [hl]

/-- The rings of other levels stay. -/
theorem pickFirst_other {l : Nat} (hl : l ≠ lv) (n : Nat) :
    ∀ s : St, (pickFirst s lv n).2.mlfq l = s.mlfq l := by
  induction n with
  | zero => exact fun _ => rfl
  | succ n ih =>
      intro s
      have hd := deQ_other (s := s) hl
      unfold pickFirst
      split
      · next s1 heq =>
        rw [heq] at hd
        exact hd
      · next idx s1 heq =>
        rw [heq] at hd
        split
        · rw [ih, ← hd]
          simp [enQ, hl]
        · exact hd

/-- Levels 0 and 1 leave the ring of level 2 alone. -/
theorem pickProc_other (hlv : lv ≠ 2) : (pickProc s lv).2.mlfq 2 = s.mlfq 2 := by
  unfold pickProc
  split
  · rfl
  · simpa [hlv] using pickFirst_other hlv.symm _ s

/-- The scheduler finds nothing at levels 0 and 1. -/
def ReachesLevel2 (s : St) : Prop :=
  (pickProc s 0).1 = none ∧ (pickProc (pickProc s 0).2 1).1 = none

instance (s : St) : Decidable (ReachesLevel2 s) := inferInstanceAs (Decidable (_ ∧ _))

/-- What the scheduler takes from the queues is RUNNABLE. -/
theorem pickLevel_runnable (ha : Aligned s)
    (hsize : ReachesLevel2 s → (s.mlfq 2).size ≤ NPROC) (h : (pickLevel s).1 = some (x, lv)) :
    (s.proc x).state = .RUNNABLE := by
  have h0 := (pickProc_rings s 0).still
  have hring0 := @pickProc_other s 0 (by decide)
  unfold pickLevel at h
  split at h
  · next p s0 heq =>
    -- found on level 0
    cases h
    exact pickProc_low_runnable (by decide) (congrArg Prod.fst heq)
  · next s0 heq =>
    rw [heq] at h0 hring0
    have h1 := (pickProc_rings s0 1).still
    have hring1 := @pickProc_other s0 1 (by decide)
    split at h
    · next p s1 heq1 =>
      -- found on level 1
      cases h
      rw [← h0.state]
      exact pickProc_low_runnable (by decide) (congrArg Prod.fst heq1)
    · next s1 heq1 =>
      rw [heq1] at h1 hring1
      split at h
      · next p s2 heq2 =>
        cases h
        -- found on level 2, whose ring nobody has touched yet
        have hring : s1.mlfq 2 = s.mlfq 2 := hring1.trans hring0
        have hlevel : ReachesLevel2 s := by
          unfold ReachesLevel2
          rw [heq, heq1]
          exact ⟨rfl, rfl⟩
        have hw : (s1.mlfq 2).Wf := by
          rw [hring]
          exact ⟨(ha 2).front_lt, (ha 2).back_eq, hsize hlevel⟩
        rw [← h0.state, ← h1.state]
        exact pickProc_two_runnable hw (congrArg Prod.fst heq2)
      · cases h

/-! ## The machine -/

namespace Smp

/-- The shared tables, and for every CPU its `c->proc` and the local `lv` of its
`scheduler()`. The `cpu` of the tables is not used. -/
structure MSt (n : Nat) where
  base : St
  cpus : Fin n → Option (Pidx × Nat)

/-- The tables as CPU `c` sees them. -/
def MSt.view {n : Nat} (s : MSt n) (c : Fin n) : St := { s.base with cpu := s.cpus c }

/-- What CPU `c` does next. -/
structure Event (n : Nat) where
  c : Fin n
  a : Act

variable {n : Nat}

def next (s : MSt n) (e : Event n) : Option (MSt n) :=
  (Mlfq.next (s.view e.c) e.a).map fun s' =>
    ⟨{ s' with cpu := none }, Function.update s.cpus e.c s'.cpu⟩

def Start (s : MSt n) : Prop := s.base = userinit ∧ ∀ c, s.cpus c = none

/-- In state `s` no process is on two CPUs, and the steps that meet `ok` switch
to RUNNABLE processes only and resume no sleeping one. -/
structure Dispatches (ok : MSt n → Event n → Prop) (s : MSt n) : Prop where
  one : ∀ c c' p lv lv', s.cpus c = some (p, lv) → s.cpus c' = some (p, lv') → c = c'
  runnable : ∀ e s', ok s e → next s e = some s' → s.cpus e.c = none → ∀ p lv,
    s'.cpus e.c = some (p, lv) → (s.base.proc p).state = .RUNNABLE
  asleep : ∀ e s', ok s e → next s e = some s' → ∀ p, (s.base.proc p).state = .SLEEPING →
    (s'.base.proc p).state = .SLEEPING ∨
      (s'.base.proc p).state = .RUNNABLE ∧ Wakes (s.base.proc p) e.a

/-- No scheduler passes while the dictator is asleep or on a CPU, or comes to a
level 2 whose ring is overfull. -/
def FindsRunnable (s : MSt n) (e : Event n) : Prop :=
  e.a = .schedule → s.cpus e.c = none →
    (s.base.is_dictated = true → ∀ d ∈ s.base.scheduler_dictator,
      (s.base.proc d).state = .RUNNABLE) ∧
    (s.base.is_dictated = false → ReachesLevel2 (s.view e.c) → (s.base.mlfq 2).size ≤ NPROC)

structure Inv (s : MSt n) : Prop where
  running : ∀ c p lv, s.cpus c = some (p, lv) → (s.base.proc p).state = .RUNNING
  one : ∀ c c' p lv lv', s.cpus c = some (p, lv) → s.cpus c' = some (p, lv') → c = c'
  fork : ∀ p np, s.base.kont p = .fork np → (s.base.proc np).state = .EMBRYO
  fork_inj : ∀ p p' np, s.base.kont p = .fork np → s.base.kont p' = .fork np → p = p'
  aligned : Aligned s.base

/-- What a scheduler that passes under the condition switches to is RUNNABLE. -/
theorem Inv.picks {s : MSt n} {e : Event n} {s1 : St} {p : Pidx} {lv : Nat} (h : Inv s)
    (hok : FindsRunnable s e) (hs : Mlfq.next (s.view e.c) e.a = some s1)
    (hc : s.cpus e.c = none) (hc1 : s1.cpu = some (p, lv)) :
    (s.base.proc p).state = .RUNNABLE := by
  have hview : (s.view e.c).cpu = none := hc
  unfold Mlfq.next at hs
  rw [hview] at hs
  -- only the scheduler puts a process on an idle CPU
  cases hact : e.a with
  | schedule =>
      rcases hok hact hc with ⟨hdict, hsize⟩
      rw [hact] at hs
      dsimp only at hs
      unfold schedule at hs
      -- the dictator is picked without a look at its state: here the condition is used
      by_cases hd : (s.view e.c).is_dictated = true
      · rw [if_pos hd, Option.map_eq_some_iff] at hs
        rcases hs with ⟨d, hdd, rfl⟩
        cases hc1
        exact hdict hd _ hdd
      · rw [if_neg hd] at hs
        split at hs
        · next q lv' s2 heq =>
          cases hs
          cases hc1
          have ha : Aligned (s.view e.c) := h.aligned
          exact pickLevel_runnable (s := s.view e.c) ha (hsize (Bool.eq_false_of_not_eq_true hd))
            (congrArg Prod.fst heq)
        · next s2 heq =>
          cases hs
          have hstill := (pickLevel_rings (s.view e.c)).still
          rw [heq] at hstill
          rw [hstill.cpu, hview] at hc1
          cases hc1
  | tick =>
      rw [hact] at hs
      cases hs
      cases hc1
  | wakeup chan =>
      rw [hact] at hs
      cases hs
      rw [(wakeup1_roused (s.view e.c) chan).cpu, hview] at hc1
      cases hc1
  | _ =>
      rw [hact] at hs
      cases hs

/-- What is known of a step under the condition. -/
structure Turn (s : MSt n) (e : Event n) (s1 : St) : Prop where
  effect : Effect e.a (s.view e.c) s1
  inv : Inv s
  picks : ∀ p lv, s.cpus e.c = none → s1.cpu = some (p, lv) →
    (s.base.proc p).state = .RUNNABLE

namespace Turn

variable {s : MSt n} {e : Event n} {s1 : St} {p : Pidx}

/-- A process that runs goes on, unless it gives up its CPU. -/
theorem runs (h : Turn s e s1) (hrun : (s.base.proc p).state = .RUNNING) :
    (s1.proc p).state = .RUNNING ∨ ∃ lv, s.cpus e.c = some (p, lv) ∧ s1.cpu = none := by
  have hrun' : ((s.view e.c).proc p).state = .RUNNING := hrun
  cases h.effect.proc p with
  | same hst => exact .inl (hst.trans hrun')
  | woken hsl => rw [hrun'] at hsl; cases hsl
  | dispatched lv hc hc' =>
      have := h.picks p lv hc hc'
      rw [hrun] at this
      cases this
  | parked lv hc hc' => exact .inr ⟨lv, hc, hc'⟩
  | allocated hu => rw [hrun'] at hu; cases hu
  | forked r lv hc hk =>
      have := h.inv.fork r p hk
      rw [hrun] at this
      cases this
  | reaped hz => rw [hrun'] at hz; cases hz

/-- A process that is being made stays so until its `fork` ends. -/
theorem makes {np r : Pidx} (h : Turn s e s1) (hk : s.base.kont r = .fork np)
    (hk1 : s1.kont r = .fork np) : (s1.proc np).state = .EMBRYO := by
  have he := h.inv.fork r np hk
  have he' : ((s.view e.c).proc np).state = .EMBRYO := he
  cases h.effect.proc np with
  | same hst => exact hst.trans he'
  | woken hsl => rw [he'] at hsl; cases hsl
  | dispatched lv hc hc' =>
      have := h.picks np lv hc hc'
      rw [he] at this
      cases this
  | parked lv hc hc' =>
      have := h.inv.running e.c np lv hc
      rw [he] at this
      cases this
  | allocated hu => rw [he'] at hu; cases hu
  | forked r' lv hc hk' huser =>
      rw [h.inv.fork_inj r r' np hk hk', huser] at hk1
      cases hk1
  | reaped hz => rw [he'] at hz; cases hz

/-- A process that sleeps is woken or sleeps on. -/
theorem sleeps (h : Turn s e s1) (hsl : (s.base.proc p).state = .SLEEPING) :
    (s1.proc p).state = .SLEEPING ∨
      (s1.proc p).state = .RUNNABLE ∧ Wakes (s.base.proc p) e.a := by
  have hsl' : ((s.view e.c).proc p).state = .SLEEPING := hsl
  cases h.effect.proc p with
  | same hst => exact .inl (hst.trans hsl')
  | woken _ hr hw => exact .inr ⟨hr, hw⟩
  | dispatched lv hc hc' =>
      have := h.picks p lv hc hc'
      rw [hsl] at this
      cases this
  | parked lv hc hc' =>
      have := h.inv.running e.c p lv hc
      rw [hsl] at this
      cases this
  | allocated hu => rw [hsl'] at hu; cases hu
  | forked r lv hc hk =>
      have := h.inv.fork r p hk
      rw [hsl] at this
      cases this
  | reaped hz => rw [hsl'] at hz; cases hz

/-- The process that is on the CPU of the step afterwards. -/
theorem own {lv : Nat} (h : Turn s e s1) (hc : s1.cpu = some (p, lv)) :
    s.cpus e.c = some (p, lv) ∨ s.cpus e.c = none ∧ (s.base.proc p).state = .RUNNABLE := by
  cases h.effect.cpu with
  | same hsame => exact .inl (hsame.symm.trans hc)
  | parked q lv' _ hnone =>
      rw [hnone] at hc
      cases hc
  | dispatched q lv' hnone hq =>
      rw [hq] at hc
      cases hc
      exact .inr ⟨hnone, h.picks p lv hnone hq⟩

/-- After a turn a process that is on a CPU is RUNNING. -/
theorem running {lv : Nat} (h : Turn s e s1) {c : Fin n}
    (hc : Function.update s.cpus e.c s1.cpu c = some (p, lv)) : (s1.proc p).state = .RUNNING := by
  by_cases hce : c = e.c
  · subst hce
    rw [Function.update_self] at hc
    -- the CPU of the step: what ran there runs on, or was just dispatched
    cases h.effect.cpu with
    | same hsame =>
        have hrun := h.inv.running e.c p lv (hsame.symm.trans hc)
        rcases h.runs hrun with h1 | ⟨lv', -, h1⟩
        · exact h1
        · rw [hc] at h1
          cases h1
    | parked q lv' _ hnone =>
        rw [hnone] at hc
        cases hc
    | dispatched q lv' _ hq hrun =>
        rw [hq] at hc
        cases hc
        exact hrun
  -- another CPU
  · rw [Function.update_of_ne hce] at hc
    rcases h.runs (h.inv.running c p lv hc) with h1 | ⟨lv', h1, -⟩
    · exact h1
    · -- it would be on two CPUs
      exact absurd (h.inv.one c e.c p lv lv' hc h1) hce

/-- The process of the CPU of the step is on no other CPU. -/
theorem only {lv lv' : Nat} (h : Turn s e s1) {c : Fin n} (hce : c ≠ e.c)
    (hc : s.cpus c = some (p, lv)) (hc1 : s1.cpu = some (p, lv')) : False := by
  rcases h.own hc1 with h1 | ⟨-, h1⟩
  · exact hce (h.inv.one c e.c p lv lv' hc h1)
  · rw [h.inv.running c p lv hc] at h1
    cases h1

/-- And it is on one CPU only. -/
theorem one {lv lv' : Nat} (h : Turn s e s1) {c c' : Fin n}
    (hc : Function.update s.cpus e.c s1.cpu c = some (p, lv))
    (hc' : Function.update s.cpus e.c s1.cpu c' = some (p, lv')) : c = c' := by
  by_cases h1 : c = e.c
  · by_cases h2 : c' = e.c
    · rw [h1, h2]
    · rw [h1, Function.update_self] at hc
      rw [Function.update_of_ne h2] at hc'
      exact (h.only h2 hc' hc).elim
  · rw [Function.update_of_ne h1] at hc
    by_cases h2 : c' = e.c
    · rw [h2, Function.update_self] at hc'
      exact (h.only h1 hc hc').elim
    · rw [Function.update_of_ne h2] at hc'
      exact h.inv.one c c' p lv lv' hc hc'

/-- The slot that a `fork` fills is an EMBRYO. -/
theorem fork {np : Pidx} (h : Turn s e s1) (hk : s1.kont p = .fork np) :
    (s1.proc np).state = .EMBRYO := by
  cases h.effect.kont with
  | kept hkept => exact h.makes (hkept p np hk) hk
  | forking r np' lv hc hnew hu he =>
      rcases hnew p np hk with h1 | ⟨rfl, rfl⟩
      · exact h.makes h1 hk
      · exact he

/-- No two `fork`s fill one slot. -/
theorem fork_inj {p' np : Pidx} (h : Turn s e s1) (hk : s1.kont p = .fork np)
    (hk' : s1.kont p' = .fork np) : p = p' := by
  cases h.effect.kont with
  | kept hkept => exact h.inv.fork_inj p p' np (hkept p np hk) (hkept p' np hk')
  | forking r np' lv hc hnew hu he =>
      -- the slot was UNUSED, so nobody else is making it
      have hfree : ∀ q, s.base.kont q ≠ .fork np' := by
        intro q hq
        have hne := (h.inv.fork q np' hq).symm.trans hu
        cases hne
      rcases hnew p np hk with h1 | ⟨rfl, rfl⟩
      · rcases hnew p' np hk' with h2 | ⟨rfl, rfl⟩
        · exact h.inv.fork_inj p p' np h1 h2
        · exact absurd h1 (hfree p)
      · rcases hnew p' np hk' with h2 | ⟨h2, -⟩
        · exact absurd h2 (hfree p')
        · exact h2.symm

end Turn

theorem Inv.turn {s : MSt n} {e : Event n} {s1 : St} (h : Inv s) (hok : FindsRunnable s e)
    (hs : Mlfq.next (s.view e.c) e.a = some s1) : Turn s e s1 :=
  ⟨next_effect hs, h, fun _ _ hc hc1 => h.picks hok hs hc hc1⟩

/-- A step that finds a RUNNABLE process, if any, keeps the invariant. -/
theorem step_inv : ∀ (s : MSt n) (e : Event n) (s' : MSt n), Inv s → FindsRunnable s e →
    next s e = some s' → Inv s' := by
  intro s e s' hinv hok hs
  rcases Option.map_eq_some_iff.1 hs with ⟨s1, hs1, rfl⟩
  have h := hinv.turn hok hs1
  exact ⟨fun c p lv => h.running, fun c c' p lv lv' => h.one, fun p np => h.fork,
    fun p p' np => h.fork_inj, h.effect.aligned hinv.aligned⟩

/-! ## Every run -/

/-- The invariant says what is claimed of the dispatches. -/
theorem Inv.dispatches {s : MSt n} (hinv : Inv s) : Dispatches FindsRunnable s where
  one := hinv.one
  runnable := fun e s' hok hs hc p lv hc' => by
    rcases Option.map_eq_some_iff.1 hs with ⟨s1, hs1, rfl⟩
    dsimp only at hc'
    rw [Function.update_self] at hc'
    exact hinv.picks hok hs1 hc hc'
  asleep := fun e s' hok hs p hsl => by
    rcases Option.map_eq_some_iff.1 hs with ⟨s1, hs1, rfl⟩
    exact (hinv.turn hok hs1).sleeps hsl

/-- The rings after `userinit`. -/
theorem userinit_aligned : Aligned userinit := by
  have hboot : Aligned boot := fun _ => ⟨by show 0 < NPROC; decide, rfl⟩
  unfold userinit allocproc
  cases firstProc boot fun p => p.state = .UNUSED with
  | none => exact hboot
  | some p => exact enQ_aligned hboot 0 p

/-- All CPUs are idle at the start. -/
theorem Start.inv {s : MSt n} (h : Start s) : Inv s := by
  rcases h with ⟨hbase, hcpus⟩
  have hk : ∀ p np, s.base.kont p ≠ .fork np := by
    intro p np
    rw [hbase]
    exact fun hn => nomatch (show Kont.user = Kont.fork np from hn)
  refine ⟨fun c p lv hc => ?_, fun c c' p lv lv' hc => ?_, fun p np hp => absurd hp (hk p np),
    fun p p' np hp => absurd hp (hk p np), ?_⟩
  · rw [hcpus] at hc
    cases hc
  · rw [hcpus] at hc
    cases hc
  · rw [hbase]
    exact userinit_aligned

/-- In a run in which no scheduler passes while the dictator is busy or level 2
is overfull, only RUNNABLE processes are dispatched. -/
theorem dispatches_runnable {s : MSt n} (hr : ReachOk Start next FindsRunnable s) :
    Dispatches FindsRunnable s :=
  (hr.invariant Inv (fun _ h => h.inv) step_inv).dispatches

/-! ## The dictator on two CPUs -/

def start (n : Nat) : MSt n := ⟨userinit, fun _ => none⟩

/-- The first process locks the scheduler on CPU 0, and CPU 1 makes a pass. -/
def dictatorTwice : List (Event 2) :=
  [⟨⟨0, Nat.zero_lt_two⟩, .schedule⟩, ⟨⟨0, Nat.zero_lt_two⟩, .schedulerLock PASSWORD⟩,
    ⟨⟨1, Nat.one_lt_two⟩, .schedule⟩]

/-- It runs on both. -/
theorem runs_twice : ¬ ∀ (n : Nat) (s : MSt n), Reachable Start next s →
    Dispatches (fun _ _ => True) s := by
  intro hall
  have hrun : ∃ s, exec next (start 2) dictatorTwice = some s ∧
      s.cpus 0 = some (⟨0, by decide⟩, 0) ∧ s.cpus 1 = some (⟨0, by decide⟩, 0) := by
    refine ⟨_, rfl, ?_⟩
    decide
  rcases hrun with ⟨s, hs, h0, h1⟩
  have hr : Reachable Start next s := reachable_exec (.init ⟨rfl, fun _ => rfl⟩) hs
  have heq := (hall 2 s hr).one 0 1 _ _ _ h0 h1
  cases heq

/-- The first process forks on CPU 0, and CPU 1 runs the new one. -/
def forkTwice : List (Event 2) :=
  [⟨⟨0, Nat.zero_lt_two⟩, .schedule⟩, ⟨⟨0, Nat.zero_lt_two⟩, .forkAlloc⟩,
    ⟨⟨0, Nat.zero_lt_two⟩, .forkDone⟩, ⟨⟨1, Nat.one_lt_two⟩, .schedule⟩]

instance (s : MSt n) (e : Event n) : Decidable (FindsRunnable s e) :=
  inferInstanceAs (Decidable (_ → _ → _ ∧ _))

/-- Two CPUs that each run a process. -/
theorem dispatches_runnable_two : ∃ s : MSt 2, s.cpus 0 = some (⟨0, by decide⟩, 0) ∧
    s.cpus 1 = some (⟨1, by decide⟩, 0) ∧ Dispatches FindsRunnable s := by
  have hrun : ∃ s, exec (only next FindsRunnable) (start 2) forkTwice = some s ∧
      s.cpus 0 = some (⟨0, by decide⟩, 0) ∧ s.cpus 1 = some (⟨1, by decide⟩, 0) := by
    refine ⟨_, rfl, ?_⟩
    decide
  rcases hrun with ⟨s, hs, h0, h1⟩
  have hstart : ReachOk Start next FindsRunnable (start 2) := .init ⟨rfl, fun _ => rfl⟩
  exact ⟨s, h0, h1, dispatches_runnable (hstart.exec_only hs)⟩

end Smp

end Xv6.Mlfq
