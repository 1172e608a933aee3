import Mathlib.Data.Fintype.Card
import Mathlib.Data.List.Nodup
import Xv6.Mlfq.Effect

/-!
# The scheduler invariant

The queues hold exactly the live processes, the dictator and the process on the
CPU left out, each of them once. While a process is on the CPU, or on its way in
or out of a queue, the state has a gap at it (`Gap`); the lemmas below say how a
gap opens and how it closes again.

`Inv` is an invariant of runs in which the dictator never calls
`schedulerUnlock`; `Mlfq.Membership` says what goes wrong when it does. As no
process is queued twice, the rings have room for whoever is enqueued
(`Gap.room`), so no operation meets a full one. The lemmas go from the parts of
a step to the whole of it: boosting (`priorityBoost_core`), the end of a time
slice (`feedback_inv`), and the way back into the scheduler (`sched_inv`).
-/

namespace Xv6.Mlfq

open Xv6.Lib

/-! ## Vocabulary -/

/-- All entries of the three queues. -/
def ent (Q : Nat → List Pidx) : List Pidx := Q 0 ++ Q 1 ++ Q 2

def Live (p : Proc) : Prop := p.state = .RUNNABLE ∨ p.state = .SLEEPING

instance (p : Proc) : Decidable (Live p) := inferInstanceAs (Decidable (_ ∨ _))

def IsDictator (s : St) (p : Pidx) : Prop :=
  s.is_dictated = true ∧ s.scheduler_dictator = some p

instance (s : St) (p : Pidx) : Decidable (IsDictator s p) := inferInstanceAs (Decidable (_ ∧ _))

/-! ## Entries -/

/-- The entries of one level set apart from the others. -/
theorem ent_split (Q : Nat → List Pidx) {lv : Nat} (hlv : lv ≤ 2) :
    ∃ others, ∀ l, (ent (Function.update Q lv l)).Perm (l ++ others) := by
  obtain rfl | rfl | rfl : lv = 0 ∨ lv = 1 ∨ lv = 2 := by omega
  · refine ⟨Q 1 ++ Q 2, fun l => ?_⟩
    simp [ent]
  · refine ⟨Q 0 ++ Q 2, fun l => ?_⟩
    have h : (Q 0 ++ l ++ Q 2).Perm (l ++ Q 0 ++ Q 2) := List.perm_append_comm.append_right _
    simpa [ent] using h
  · refine ⟨Q 0 ++ Q 1, fun l => ?_⟩
    have h : (Q 0 ++ Q 1 ++ l).Perm (l ++ (Q 0 ++ Q 1)) := List.perm_append_comm
    simpa [ent] using h

theorem ent_perm {Q Q' : Nat → List Pidx} (h : ∀ lv, (Q lv).Perm (Q' lv)) :
    (ent Q).Perm (ent Q') :=
  ((h 0).append (h 1)).append (h 2)

/-- Adding an entry to one level. -/
theorem ent_update_cons (Q : Nat → List Pidx) {lv : Nat} (hlv : lv ≤ 2) {l l' : List Pidx}
    {x : Pidx} (h : l.Perm (x :: l')) :
    (ent (Function.update Q lv l)).Perm (x :: ent (Function.update Q lv l')) := by
  rcases ent_split Q hlv with ⟨others, ho⟩
  exact (ho l).trans ((h.append_right others).trans ((ho l').symm.cons x))

theorem length_lt_of_notMem {l : List Pidx} {p : Pidx} (hl : l.Nodup) (hp : p ∉ l) :
    l.length < NPROC := by
  have h : (p :: l).length ≤ Fintype.card Pidx := (List.nodup_cons.2 ⟨hp, hl⟩).length_le_card
  have h' : l.length + 1 ≤ NPROC := by simpa using h
  exact h'

/-- No queue is longer than the three together. -/
theorem q_length_le_ent (Q : Nat → List Pidx) {lv : Nat} (hlv : lv ≤ 2) :
    (Q lv).length ≤ (ent Q).length := by
  rcases ent_split Q hlv with ⟨others, ho⟩
  have h := (ho (Q lv)).length_eq
  rw [Function.update_eq_self, List.length_append] at h
  omega

/-! ## The invariant -/

/-- States up to the difference between RUNNABLE and SLEEPING, which is all that
`wakeup` and `kill` change. -/
def cls : ProcState → ProcState
  | .RUNNABLE => .SLEEPING
  | st => st

theorem live_iff_cls (p : Proc) : Live p ↔ cls p.state = .SLEEPING := by
  unfold Live cls
  cases p.state <;> simp

theorem state_eq_iff_cls (p : Proc) {st : ProcState} (h1 : st ≠ .RUNNABLE) (h2 : st ≠ .SLEEPING) :
    p.state = st ↔ cls p.state = st := by
  unfold cls
  cases p.state <;> cases st <;> simp_all

/-- The part of the invariant that does not look at the CPU. -/
structure Core (s : St) : Prop where
  wf : WfQ s
  nodup : (ent s.q).Nodup
  mem : ∀ p, p ∈ ent s.q ↔ Live (s.proc p) ∧ ¬ IsDictator s p
  dict : s.is_dictated = s.scheduler_dictator.isSome
  fork : ∀ p np, s.kont p = .fork np → (s.proc np).state = .EMBRYO
  fork_inj : ∀ p p' np, s.kont p = .fork np → s.kont p' = .fork np → p = p'
  overwrote : s.overwrote = false

/-- The invariant of the scheduler: the running process is not queued, and
only it can be a dictator that is not asleep or ready. -/
structure Inv (s : St) : Prop extends Core s where
  cpu : ∀ p lv, s.cpu = some (p, lv) → lv ≤ 2 ∧ (s.proc p).state = .RUNNING ∧
    ∀ d, s.scheduler_dictator = some d → d = p
  head : s.cpu = none → ∀ d, s.scheduler_dictator = some d → Live (s.proc d)

theorem Core.total_le {s : St} (h : Core s) :
    (s.q 0).length + (s.q 1).length + (s.q 2).length ≤ NPROC := by
  have hcard := h.nodup.length_le_card
  rwa [ent, List.length_append, List.length_append, Fintype.card_fin] at hcard

/-- A step that leaves the queues, the dictator and the CPU alone and at most
moves processes between RUNNABLE and SLEEPING. -/
structure Calm (s s' : St) : Prop where
  mlfq : s'.mlfq = s.mlfq
  cls : ∀ p, cls (s'.proc p).state = cls (s.proc p).state
  kont : s'.kont = s.kont
  dictator : s'.scheduler_dictator = s.scheduler_dictator
  is_dictated : s'.is_dictated = s.is_dictated
  overwrote : s'.overwrote = s.overwrote
  cpu : s'.cpu = s.cpu

namespace Calm

variable {s s' s'' : St}

theorem refl (s : St) : Calm s s := ⟨rfl, fun _ => rfl, rfl, rfl, rfl, rfl, rfl⟩

theorem trans (h : Calm s s') (h' : Calm s' s'') : Calm s s'' :=
  ⟨h'.mlfq.trans h.mlfq, fun p => (h'.cls p).trans (h.cls p), h'.kont.trans h.kont,
    h'.dictator.trans h.dictator, h'.is_dictated.trans h.is_dictated,
    h'.overwrote.trans h.overwrote, h'.cpu.trans h.cpu⟩

theorem q (h : Calm s s') : s'.q = s.q := by
  funext lv
  rw [St.q, St.q, h.mlfq]

theorem live (h : Calm s s') (p : Pidx) : Live (s'.proc p) ↔ Live (s.proc p) := by
  rw [live_iff_cls, live_iff_cls, h.cls p]

theorem state (h : Calm s s') (p : Pidx) {st : ProcState} (h1 : st ≠ .RUNNABLE)
    (h2 : st ≠ .SLEEPING) : (s'.proc p).state = st ↔ (s.proc p).state = st := by
  rw [state_eq_iff_cls _ h1 h2, state_eq_iff_cls _ h1 h2, h.cls p]

/-- Assigning to fields of one process inside its class of states. -/
theorem setProc (s : St) (p : Pidx) (f : Proc → Proc)
    (hf : Mlfq.cls (f (s.proc p)).state = Mlfq.cls (s.proc p).state) : Calm s (s.setProc p f) := by
  refine ⟨rfl, fun q => ?_, rfl, rfl, rfl, rfl, rfl⟩
  by_cases hq : q = p
  · subst hq
    simpa using hf
  · simp [hq]

end Calm

/-- A calm step keeps who is queued, and who should be. -/
theorem Core.calm {s s' : St} (h : Core s) (c : Calm s s') : Core s' := by
  refine ⟨?_, by rw [c.q]; exact h.nodup, ?_, by rw [c.is_dictated, c.dictator]; exact h.dict,
    ?_, ?_, by rw [c.overwrote]; exact h.overwrote⟩
  · intro lv
    rw [c.mlfq]
    exact h.wf lv
  · intro p
    rw [c.q, h.mem p, c.live, IsDictator, IsDictator, c.is_dictated, c.dictator]
  · intro p np hp
    rw [c.kont] at hp
    exact (c.state np (by simp) (by simp)).2 (h.fork p np hp)
  · rw [c.kont]
    exact h.fork_inj

/-- A calm step keeps the invariant. -/
theorem Inv.calm {s s' : St} (h : Inv s) (c : Calm s s') : Inv s' := by
  refine ⟨h.toCore.calm c, ?_, ?_⟩
  · intro p lv hp
    rw [c.cpu] at hp
    rcases h.cpu p lv hp with ⟨hlv, hst, hdict⟩
    exact ⟨hlv, (c.state p (by simp) (by simp)).2 hst, by rw [c.dictator]; exact hdict⟩
  · intro hn d hd
    rw [c.cpu] at hn
    rw [c.dictator] at hd
    exact (c.live d).2 (h.head hn d hd)

/-- The invariant does not see a reordering of the queues. -/
theorem Core.queues {s s' : St} {Q : Nat → List Pidx} (h : Core s) (hQ : Queues s s' Q)
    (hp : (ent Q).Perm (ent s.q)) : Core s' := by
  refine ⟨hQ.wf, ?_, ?_, by rw [hQ.is_dictated, hQ.dictator]; exact h.dict, ?_, ?_,
    by rw [hQ.overwrote]; exact h.overwrote⟩
  · rw [hQ.q]
    exact hp.nodup_iff.2 h.nodup
  · intro p
    rw [hQ.q, hp.mem_iff, h.mem p, IsDictator, IsDictator, hQ.proc, hQ.is_dictated, hQ.dictator]
  · rw [hQ.kont, hQ.proc]
    exact h.fork
  · rw [hQ.kont]
    exact h.fork_inj

/-- So does moving entries between queues. -/
theorem Inv.queues {s s' : St} {Q : Nat → List Pidx} (h : Inv s) (hQ : Queues s s' Q)
    (hp : (ent Q).Perm (ent s.q)) : Inv s' := by
  refine ⟨h.toCore.queues hQ hp, ?_, ?_⟩
  · rw [hQ.cpu, hQ.proc, hQ.dictator]
    exact h.cpu
  · rw [hQ.cpu, hQ.proc, hQ.dictator]
    exact h.head

/-- Going on with another part of the kernel code, `fork` excepted. -/
theorem Inv.setKont {s : St} (h : Inv s) (p : Pidx) {k : Kont} (hk : ∀ np, k ≠ .fork np) :
    Inv (s.setKont p k) := by
  have hfork : ∀ q np, (s.setKont p k).kont q = .fork np → s.kont q = .fork np := by
    intro q np hq
    by_cases hqp : q = p
    · subst hqp
      simp [hk np] at hq
    · simpa [hqp] using hq
  exact ⟨⟨h.wf, h.nodup, h.mem, h.dict, fun q np hq => h.fork q np (hfork q np hq),
    fun q q' np h1 h2 => h.fork_inj q q' np (hfork q np h1) (hfork q' np h2), h.overwrote⟩,
    h.cpu, h.head⟩

/-! ## Wakeups, kills and the end of a process -/

theorem calm_wakeup1 (s : St) (chan : Chan) : Calm s (wakeup1 s chan) := by
  refine ⟨rfl, fun p => ?_, rfl, rfl, rfl, rfl, rfl⟩
  by_cases hp : (s.proc p).state = .SLEEPING ∧ (s.proc p).chan = chan
  · simp [wakeup1, hp, cls]
  · simp [wakeup1, hp]

/-- `kill` is calm. -/
theorem calm_kill (s : St) (pid : Int) : Calm s (kill s pid) := by
  unfold kill
  split
  · exact Calm.refl s
  · apply Calm.setProc
    show cls (if _ then _ else _) = _
    split
    · next h => simp [h, cls]
    · rfl

/-- Passing children on is calm. -/
theorem calm_passChildren (s : St) (p : Pidx) : Calm s (passChildren s p) := by
  unfold passChildren
  generalize List.finRange NPROC = l
  induction l generalizing s with
  | nil => exact Calm.refl s
  | cons c l ih =>
      rw [List.foldl_cons]
      refine Calm.trans ?_ (ih _)
      split
      · have h1 : Calm s (s.setProc c fun q => { q with parent := some s.initproc }) :=
          Calm.setProc s c _ rfl
        dsimp only
        split
        · exact h1.trans (calm_wakeup1 _ _)
        · exact h1
      · exact Calm.refl s

/-! ## Giving up the CPU -/

/-- The invariant holds but for process `p`, which is in no queue. -/
structure Gap (s : St) (p : Pidx) : Prop where
  wf : WfQ s
  nodup : (ent s.q).Nodup
  mem : ∀ q, q ∈ ent s.q ↔ q ≠ p ∧ Live (s.proc q) ∧ ¬ IsDictator s q
  dict : s.is_dictated = s.scheduler_dictator.isSome
  fork : ∀ q np, s.kont q = .fork np → np ≠ p ∧ (s.proc np).state = .EMBRYO
  fork_inj : ∀ q q' np, s.kont q = .fork np → s.kont q' = .fork np → q = q'
  overwrote : s.overwrote = false

/-- A process that is not queued, and that no `fork` is setting up, is a gap. -/
theorem Core.gap {s : St} (h : Core s) {p : Pidx} (hp : ¬ Live (s.proc p) ∨ IsDictator s p)
    (hfork : ∀ q, s.kont q ≠ .fork p) : Gap s p := by
  refine ⟨h.wf, h.nodup, ?_, h.dict, ?_, h.fork_inj, h.overwrote⟩
  · intro q
    rw [h.mem q]
    constructor
    · rintro ⟨hl, hnd⟩
      refine ⟨?_, hl, hnd⟩
      rintro rfl
      rcases hp with hp | hp
      · exact hp hl
      · exact hnd hp
    · rintro ⟨_, hl, hnd⟩
      exact ⟨hl, hnd⟩
  · intro q np hq
    exact ⟨fun heq => hfork q (heq ▸ hq), h.fork q np hq⟩

theorem Core.not_forking {s : St} (h : Core s) {p : Pidx} (hp : (s.proc p).state ≠ .EMBRYO) :
    ∀ q, s.kont q ≠ .fork p :=
  fun q hq => hp (h.fork q p hq)

/-- The process on the CPU is a gap. -/
theorem Inv.gap {s : St} (h : Inv s) {p : Pidx} {lv : Nat} (hcpu : s.cpu = some (p, lv)) :
    Gap s p := by
  rcases h.cpu p lv hcpu with ⟨_, hrun, _⟩
  refine h.toCore.gap (Or.inl ?_) (h.toCore.not_forking ?_)
  · simp [Live, hrun]
  · simp [hrun]

/-- What is done to the process in the gap does not matter to the others. -/
theorem Gap.setProc {s : St} {p : Pidx} (h : Gap s p) (f : Proc → Proc) :
    Gap (s.setProc p f) p := by
  have hother : ∀ q, q ≠ p → (s.setProc p f).proc q = s.proc q :=
    fun q hq => s.setProc_proc_ne f hq
  refine ⟨h.wf, h.nodup, ?_, h.dict, ?_, h.fork_inj, h.overwrote⟩
  · intro q
    show q ∈ ent s.q ↔ q ≠ p ∧ Live ((s.setProc p f).proc q) ∧ ¬ IsDictator s q
    rw [h.mem q]
    constructor
    · rintro ⟨hne, hl⟩
      exact ⟨hne, by rw [hother q hne]; exact hl⟩
    · rintro ⟨hne, hl⟩
      exact ⟨hne, by rw [hother q hne] at hl; exact hl⟩
  · intro q np hq
    rcases h.fork q np hq with ⟨hne, he⟩
    exact ⟨hne, by rw [hother np hne]; exact he⟩

/-- A process that is not to be queued closes the gap as it is. -/
theorem Gap.core {s : St} {p : Pidx} (h : Gap s p) (hp : ¬ Live (s.proc p) ∨ IsDictator s p) :
    Core s := by
  refine ⟨h.wf, h.nodup, ?_, h.dict, fun q np hq => (h.fork q np hq).2, h.fork_inj, h.overwrote⟩
  intro q
  rw [h.mem q]
  constructor
  · rintro ⟨_, hl, hnd⟩
    exact ⟨hl, hnd⟩
  · rintro ⟨hl, hnd⟩
    refine ⟨?_, hl, hnd⟩
    rintro rfl
    rcases hp with hp | hp
    · exact hp hl
    · exact hnd hp

/-- Ending the dictatorship of a gap. -/
theorem Gap.undictate {s : St} {p : Pidx} (h : Gap s p)
    (honly : ∀ d, s.scheduler_dictator = some d → d = p) :
    Gap { s with is_dictated := false, scheduler_dictator := none } p := by
  refine ⟨h.wf, h.nodup, ?_, rfl, h.fork, h.fork_inj, h.overwrote⟩
  intro q
  have hnd : ¬ IsDictator { s with is_dictated := false, scheduler_dictator := none } q := by
    simp [IsDictator]
  show q ∈ ent s.q ↔ _
  rw [h.mem q]
  constructor
  · rintro ⟨hne, hl, _⟩
    exact ⟨hne, hl, hnd⟩
  · rintro ⟨hne, hl, _⟩
    exact ⟨hne, hl, fun hd => hne (honly q hd.2)⟩

/-- A live process that is not the dictator closes the gap by joining a queue. -/
theorem Gap.join {s s' : St} {p : Pidx} (h : Gap s p) (hl : Live (s.proc p))
    (hnd : ¬ IsDictator s p) {lv : Nat} (hlv : lv ≤ 2) {l : List Pidx}
    (hQ : Queues s s' (Function.update s.q lv l)) (hlist : l.Perm (p :: s.q lv)) : Core s' := by
  -- the process outside goes into one queue, so every other entry stays
  have hp : p ∉ ent s.q := fun hm => ((h.mem p).1 hm).1 rfl
  have hperm : (ent (Function.update s.q lv l)).Perm (p :: ent s.q) := by
    have hc := ent_update_cons s.q hlv hlist
    rwa [Function.update_eq_self] at hc
  refine ⟨hQ.wf, ?_, ?_, by rw [hQ.is_dictated, hQ.dictator]; exact h.dict, ?_, ?_,
    by rw [hQ.overwrote]; exact h.overwrote⟩
  · rw [hQ.q]
    exact hperm.nodup_iff.2 (List.nodup_cons.2 ⟨hp, h.nodup⟩)
  · intro q
    rw [hQ.q, hperm.mem_iff, List.mem_cons, h.mem q, IsDictator, IsDictator, hQ.proc,
      hQ.is_dictated, hQ.dictator]
    constructor
    · rintro (rfl | ⟨_, hq⟩)
      · exact ⟨hl, hnd⟩
      · exact hq
    · intro hq
      by_cases hqp : q = p
      · exact Or.inl hqp
      · exact Or.inr ⟨hqp, hq⟩
  · rw [hQ.kont, hQ.proc]
    exact fun q np hq => (h.fork q np hq).2
  · rw [hQ.kont]
    exact h.fork_inj

theorem Gap.room {s : St} {p : Pidx} (h : Gap s p) {lv : Nat} (hlv : lv ≤ 2) :
    (s.q lv).length < NPROC := by
  have hp : p ∉ ent s.q := fun hm => ((h.mem p).1 hm).1 rfl
  exact lt_of_le_of_lt (q_length_le_ent s.q hlv) (length_lt_of_notMem h.nodup hp)

/-! ## Priority boosting -/

/-- Boosting one entry takes it out and puts it back at level 0, or leaves the queue; the
rest of the queue is no longer than before. -/
theorem boost1_core {s : St} (h : Core s) {lv : Nat} (hlv : lv ≤ 2) {x : Pidx} {l : List Pidx}
    (hq : s.q lv = x :: l) :
    Core (boost1 s lv) ∧ (boost1 s lv).scheduler_dictator = s.scheduler_dictator ∧
      l.length ≤ ((boost1 s lv).q lv).length := by
  rcases deQ_queues h.wf hq with ⟨s1, hd, h1⟩
  have hperm1 : (ent s.q).Perm (x :: ent s1.q) := by
    have hc := ent_update_cons s.q hlv (List.Perm.of_eq hq)
    rwa [Function.update_eq_self, ← h1.q] at hc
  have hx : x ∉ ent s1.q := (List.nodup_cons.1 (hperm1.nodup_iff.1 h.nodup)).1
  have hnd : (ent s1.q).Nodup := (List.nodup_cons.1 (hperm1.nodup_iff.1 h.nodup)).2
  have hroom : (s1.q 0).length < NPROC :=
    lt_of_le_of_lt (q_length_le_ent s1.q (by omega)) (length_lt_of_notMem hnd hx)
  have h2 := enQ_queues h1.wf hroom x
  have hperm2 : (ent (Function.update s1.q 0 (s1.q 0 ++ [x]))).Perm (ent s.q) := by
    have hc := ent_update_cons s1.q (Nat.zero_le 2) (List.perm_append_singleton x (s1.q 0))
    rw [Function.update_eq_self] at hc
    exact hc.trans hperm1.symm
  -- assigning the fields of `x` commutes with enqueueing it
  have hb : boost1 s lv = (enQ s1 0 x).setProc x fun p =>
      { p with qlv := 0, priority := 3, consumed_tq := 0 } := by
    simp only [boost1, hd]
    rfl
  have hcalm : Calm (enQ s1 0 x) (boost1 s lv) := by
    rw [hb]
    exact Calm.setProc _ _ _ rfl
  refine ⟨(h.queues (h1.trans h2) hperm2).calm hcalm, ?_, ?_⟩
  · rw [hcalm.dictator, h2.dictator, h1.dictator]
  · rw [hcalm.q, h2.q, h1.q]
    by_cases hlv0 : lv = 0
    · subst hlv0
      simp
    · simp [Function.update_of_ne hlv0]

/-- The loop over one level, by induction on the number of entries. -/
theorem boostLevel_core {s : St} (h : Core s) {lv : Nat} (hlv : lv ≤ 2) :
    Core (boostLevel s lv) ∧ (boostLevel s lv).scheduler_dictator = s.scheduler_dictator := by
  have hrun : ∀ n (s : St), Core s → n ≤ (s.q lv).length →
      Core ((fun s => boost1 s lv)^[n] s) ∧
        ((fun s => boost1 s lv)^[n] s).scheduler_dictator = s.scheduler_dictator := by
    intro n
    induction n with
    | zero => exact fun s h _ => ⟨h, rfl⟩
    | succ n ih =>
        intro s h hn
        rcases List.exists_cons_of_length_pos (l := s.q lv) (by omega) with ⟨x, l, hq⟩
        rcases boost1_core h hlv hq with ⟨h1, hd1, hlen⟩
        rw [hq, List.length_cons] at hn
        rcases ih (boost1 s lv) h1 (by omega) with ⟨h2, hd2⟩
        exact ⟨h2, hd2.trans hd1⟩
  have hlen : (s.mlfq lv).size = (s.q lv).length := by rw [St.q, Ring.length_toList]
  rw [boostLevel, hlen]
  exact hrun _ s h le_rfl

/-- Boosting ends a dictatorship by queueing the dictator, which must be live. -/
theorem priorityBoost_core {s : St} (h : Core s)
    (hlive : ∀ d, s.scheduler_dictator = some d → Live (s.proc d)) :
    Core (priorityBoost s) ∧ (priorityBoost s).scheduler_dictator = none := by
  -- the three loops one after the other
  have hlevels : ∀ s : St, Core s → s.scheduler_dictator = none →
      Core (boostLevel (boostLevel (boostLevel s 0) 1) 2) ∧
        (boostLevel (boostLevel (boostLevel s 0) 1) 2).scheduler_dictator = none := by
    intro s h hn
    rcases boostLevel_core h (Nat.zero_le 2) with ⟨h0, hd0⟩
    rcases boostLevel_core h0 (Nat.le_succ 1) with ⟨h1, hd1⟩
    rcases boostLevel_core h1 (Nat.le_refl 2) with ⟨h2, hd2⟩
    exact ⟨h2, by rw [hd2, hd1, hd0, hn]⟩
  unfold priorityBoost
  cases hd : s.is_dictated with
  | false =>
      have hn : s.scheduler_dictator = none := by
        have := h.dict
        rw [hd] at this
        simpa using this.symm
      simpa using hlevels s h hn
  -- with a dictator: it is put in front of level 0 first, and is a process like the others then
  | true =>
      obtain ⟨d, hdd⟩ : ∃ d, s.scheduler_dictator = some d := by
        have := h.dict
        rw [hd] at this
        exact Option.isSome_iff_exists.1 this.symm
      simp only [if_true, hdd]
      apply hlevels _ _ rfl
      have hne : (s.proc d).state ≠ .EMBRYO := by
        rcases hlive d hdd with hl | hl <;> rw [hl] <;> simp
      have hgap := (h.gap (Or.inr ⟨hd, hdd⟩) (h.not_forking hne)).undictate
        (fun d' hd' => by rw [hdd] at hd'; exact (Option.some.inj hd').symm)
      have hQ := (enQFront_queues h.wf (hgap.room (Nat.zero_le 2)) d).undictate
      exact hgap.join (hlive d hdd) (by simp [IsDictator]) (Nat.zero_le 2) hQ (List.Perm.refl _)

/-! ## The scheduler loop -/

/-- A live process that is not the dictator is queued again, a ZOMBIE is not. -/
theorem requeue_core {s : St} {p : Pidx} {lv : Nat} (h : Gap s p)
    (honly : ∀ d, s.scheduler_dictator = some d → d = p) (hlv : lv ≤ 2)
    (hst : Live (s.proc p) ∨ (s.proc p).state = .ZOMBIE ∧ s.is_dictated = false) :
    Core (requeue s p lv) ∧
      ∀ d, (requeue s p lv).scheduler_dictator = some d → Live ((requeue s p lv).proc d) := by
  have h0 := h.setProc fun q => { q with consumed_tq := (q.consumed_tq + 1) % 2 ^ 32 }
  unfold requeue
  generalize hs0 : s.setProc p (fun q => { q with consumed_tq := (q.consumed_tq + 1) % 2 ^ 32 })
    = s0 at h0 ⊢
  have hst0 : (s0.proc p).state = (s.proc p).state := by rw [← hs0, St.setProc_proc_self]
  have hi0 : s0.is_dictated = s.is_dictated := by rw [← hs0]; rfl
  have honly0 : ∀ d, s0.scheduler_dictator = some d → d = p := by
    rw [← hs0]
    exact honly
  have hlive0 : Live (s0.proc p) ↔ Live (s.proc p) := by rw [Live, Live, hst0]
  by_cases hd : s0.is_dictated = true
  · -- the dictator stays out of the queues
    have hlive : Live (s0.proc p) := by
      rw [hlive0]
      rcases hst with hl | ⟨_, hf⟩
      · exact hl
      · rw [hi0, hf] at hd
        cases hd
    obtain ⟨d, hdd⟩ : ∃ d, s0.scheduler_dictator = some d := by
      have hdict := h0.dict
      rw [hd] at hdict
      exact Option.isSome_iff_exists.1 hdict.symm
    have hdp : s0.scheduler_dictator = some p := by rw [hdd, honly0 d hdd]
    simp only [hd, if_true]
    refine ⟨h0.core (Or.inr ⟨hd, hdp⟩), ?_⟩
    intro d' hd'
    rw [honly0 d' hd']
    exact hlive
  · have hf : s0.is_dictated = false := by simpa using hd
    have hnone : s0.scheduler_dictator = none := by
      have hdict := h0.dict
      rw [hf] at hdict
      simpa using hdict.symm
    simp only [hf, Bool.false_eq_true, if_false]
    -- moving down a level changes neither the state of the process nor the queues
    generalize hfull : (decide ((s0.proc p).consumed_tq ≥ lv * 2 + 4)) = full
    generalize hlv' : (if full = true then (if lv + 1 < 2 then lv + 1 else 2) else lv) = lv'
    have hlv'2 : lv' ≤ 2 := by
      rw [← hlv']
      split
      · split <;> omega
      · exact hlv
    generalize hs1 : (if full = true then
      s0.setProc p fun q =>
        { q with
          priority := if lv = 2 then (if q.priority - 1 ≥ 0 then q.priority - 1 else 0)
            else q.priority
          qlv := lv'
          consumed_tq := 0 } else s0) = s1
    have h1 : Gap s1 p ∧ (s1.proc p).state = (s.proc p).state ∧
        s1.is_dictated = false ∧ s1.scheduler_dictator = none := by
      rw [← hs1]
      split
      · refine ⟨h0.setProc _, ?_, hf, hnone⟩
        rw [St.setProc_proc_self]
        exact hst0
      · exact ⟨h0, hst0, hf, hnone⟩
    rcases h1 with ⟨hgap, hst1, hf1, hn1⟩
    have hlive1 : Live (s1.proc p) ↔ Live (s.proc p) := by rw [Live, Live, hst1]
    rcases hst with hl | ⟨hz, _⟩
    · have hnz : (s1.proc p).state ≠ .ZOMBIE := by
        rw [hst1]
        rcases hl with hl | hl <;> rw [hl] <;> simp
      have hQ := enQ_queues hgap.wf (hgap.room hlv'2) p
      rw [if_pos hnz]
      refine ⟨hgap.join (hlive1.2 hl) (by simp [IsDictator, hf1]) hlv'2 hQ
        (List.perm_append_singleton _ _), ?_⟩
      intro d hdd
      rw [hQ.dictator, hn1] at hdd
      cases hdd
    · rw [if_neg (by rw [hst1, hz]; simp)]
      refine ⟨hgap.core (Or.inl ?_), ?_⟩
      · simp [Live, hst1, hz]
      · intro d hdd
        rw [hn1] at hdd
        cases hdd

/-- The process in the gap goes back into a queue if it is alive, and the invariant holds
again. -/
theorem feedback_inv {s : St} {p : Pidx} {lv : Nat} (h : Gap s p)
    (honly : ∀ d, s.scheduler_dictator = some d → d = p) (hlv : lv ≤ 2)
    (hst : Live (s.proc p) ∨ (s.proc p).state = .ZOMBIE ∧ s.is_dictated = false) :
    Inv (feedback s p lv) := by
  rcases requeue_core h honly hlv hst with ⟨h1, hl1⟩
  unfold feedback
  generalize requeue s p lv = s1 at h1 hl1
  by_cases ht : s1.global_ticks ≥ 100
  · simp only [if_pos ht]
    have h1' : Core { s1 with global_ticks := 0 } :=
      ⟨h1.wf, h1.nodup, h1.mem, h1.dict, h1.fork, h1.fork_inj, h1.overwrote⟩
    rcases priorityBoost_core h1' hl1 with ⟨hb, hdn⟩
    refine ⟨⟨hb.wf, hb.nodup, hb.mem, hb.dict, hb.fork, hb.fork_inj, hb.overwrote⟩, by simp, ?_⟩
    intro _ d hd
    have hd' : (priorityBoost { s1 with global_ticks := 0 }).scheduler_dictator = some d := hd
    rw [hdn] at hd'
    cases hd'
  · simp only [if_neg ht]
    exact ⟨⟨h1.wf, h1.nodup, h1.mem, h1.dict, h1.fork, h1.fork_inj, h1.overwrote⟩, by simp,
      fun _ d hd => hl1 d hd⟩

/-- `sched()` in state `st`, after some last assignments to the process. -/
theorem sched_inv {s : St} (h : Inv s) {p : Pidx} {lv : Nat} (hcpu : s.cpu = some (p, lv))
    (f : Proc → Proc) {st : ProcState}
    (hst : st = .RUNNABLE ∨ st = .SLEEPING ∨ st = .ZOMBIE ∧ s.is_dictated = false) :
    Inv (sched (s.setProc p f) p lv st) := by
  have hstate : (((s.setProc p f).setProc p fun q => { q with state := st }).proc p).state =
    st := by
    simp
  rcases h.cpu p lv hcpu with ⟨hlv, _, honly⟩
  apply feedback_inv (((h.gap hcpu).setProc f).setProc _) honly hlv
  rw [Live, hstate]
  rcases hst with h1 | h1 | ⟨h1, h2⟩
  · exact Or.inl (Or.inl h1)
  · exact Or.inl (Or.inr h1)
  · exact Or.inr ⟨h1, h2⟩

/-- Giving the CPU up in one of these states keeps the invariant. -/
theorem sched_inv' {s : St} (h : Inv s) {p : Pidx} {lv : Nat} (hcpu : s.cpu = some (p, lv))
    {st : ProcState}
    (hst : st = .RUNNABLE ∨ st = .SLEEPING ∨ st = .ZOMBIE ∧ s.is_dictated = false) :
    Inv (sched s p lv st) := by
  have hid : s.setProc p id = s := by simp [St.setProc]
  have h1 := sched_inv h hcpu id hst
  rwa [hid] at h1

end Xv6.Mlfq
