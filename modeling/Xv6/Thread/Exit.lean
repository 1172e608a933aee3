import Xv6.Thread.Locks

/-!
# Files and exit

`exit` closes the descriptors of the process and gives back its directory before
it takes any lock, and clears an entry only after the call that releases it. All
threads of a process share the entries. As long as no other thread comes to an
entry between the call and the clearing, and no thread is ended there, every
entry is released once.

The model adds to the tables of `System.lean` the descriptors of each process, the
number of times that each has been closed, and how far each thread is in `exit`. Left
out are the `open` and `close` calls of siblings after the first thread of the process
has come to `exit`, which put new files into entries or empty them; a count then says
nothing about the file that was there.
-/

namespace Xv6.Thread.Exit

open Xv6.Lib Prog Family Locks

variable {s : Kernel} {p q : Pidx} {i j : Tidx}

def NOFILE : Nat := 16
def NFILE : Nat := 100

/-- The open files and the directory of a process, and the history of its exit:
whether a thread has begun it, what was open then, and how often each descriptor
and the directory have been released, or a null pointer has. -/
structure Files where
  ofile : Fin NOFILE → Option (Fin NFILE)
  cwd : Option (Fin NINODE)
  begun : Bool
  opened : Fin NOFILE → Bool
  closed : Fin NOFILE → Nat
  put : Nat
  null : Bool

/-- A process that nobody exits yet. -/
def Files.set (ofile : Fin NOFILE → Option (Fin NFILE)) (cwd : Option (Fin NINODE)) : Files where
  ofile := ofile
  cwd := cwd
  begun := false
  opened := fun fd => (ofile fd).isSome
  closed := fun _ => 0
  put := 0
  null := false

/-- What `fork` gives to a new process whose slot held `f`. -/
def Files.forked (parent f : Files) : Files :=
  .set (fun fd => if (parent.ofile fd).isSome then parent.ofile fd else f.ofile fd) parent.cwd

/-- Where a thread stands in `exit`. -/
inductive Pc
  /-- about to look at a descriptor -/
  | loop (fd : Nat)
  /-- it is open -/
  | isOpen (fd : Fin NOFILE)
  /-- `fileclose` has been called -/
  | closed (fd : Fin NOFILE)
  /-- after `begin_op` -/
  | dir
  /-- `iput` has been called -/
  | put
  /-- about to take the locks -/
  | last
  deriving DecidableEq

/-- What a thread does in `exit` until it may lose the CPU. -/
def exitStep (f : Files) : Option Pc → Files × Pc
  | none => ({ f with begun := true }, .loop 0)
  | some (.loop n) =>
      if h : n < NOFILE then
        if (f.ofile ⟨n, h⟩).isSome then (f, .isOpen ⟨n, h⟩) else (f, .loop (n + 1))
      else (f, .dir)
  | some (.isOpen fd) =>
      ({ f with
          closed := Function.update f.closed fd (f.closed fd + 1)
          null := f.null || (f.ofile fd).isNone }, .closed fd)
  | some (.closed fd) => ({ f with ofile := Function.update f.ofile fd none }, .loop (fd + 1))
  | some .dir => ({ f with put := f.put + 1, null := f.null || f.cwd.isNone }, .put)
  | some .put => ({ f with cwd := none }, .last)
  | some .last => (f, .last)

/-- The call of the model that such a part of `exit` is: the last one, under the
locks, is its `exit`. -/
def exitCall (k : Cont) (wakes sleeps : Option Chan) : Option Pc → Call
  | some .last => if k = .user then .exit else .resume 0
  | _ => .inside wakes sleeps

structure EState where
  kernel : Kernel
  files : Pidx → Files
  pc : Tidx → Option Pc

/-- What a thread does in a turn: any call but `exit`, calls that leave the
process with these files, or a part of `exit`, called or forced by `trap`. -/
inductive Act
  | call (c : Call)
  | files (ofile : Fin NOFILE → Option (Fin NFILE)) (cwd : Fin NINODE)
  | exit (wakes sleeps : Option Chan)

structure Event where
  p : Pidx
  i : Tidx
  act : Act
  sp : Nat
  bp : Nat

def Event.label (e : Event) (s : EState) : Label :=
  ⟨e.p, e.i,
    match e.act with
    | .call c => c
    | .files .. => .inside none none
    | .exit wakes sleeps => exitCall (s.kernel.cont e.i) wakes sleeps (s.pc e.i), e.sp, e.bp⟩

/-- A thread in `exit` stays there. Other calls on files are over when it begins. -/
def Event.fits (e : Event) (s : EState) : Prop :=
  match e.act with
  | .call c => s.pc e.i = none ∧ c.exits = false
  | .files .. => s.pc e.i = none ∧ (s.files e.p).begun = false
  | .exit .. => True

instance (e : Event) (s : EState) : Decidable (e.fits s) := by
  unfold Event.fits
  cases e.act <;> infer_instance

/-- The files of the process that has run. -/
def Event.own (e : Event) (s : EState) : Files :=
  match e.act with
  | .call _ => s.files e.p
  | .files ofile cwd => .set ofile (some cwd)
  | .exit .. => (exitStep (s.files e.p) (s.pc e.i)).1

/-- The files after a turn that leads to `s'`. -/
def Event.after (e : Event) (s : EState) (s' : Kernel) (q : Pidx) : Files :=
  if q = e.p then e.own s
  else if (s.kernel.proc q).state = .UNUSED ∧ (s'.proc q).state = .RUNNABLE then
    (s.files e.p).forked (s.files q)
  else s.files q

/-- Where the threads stand after the turn. -/
def Event.pcs (e : Event) (s : EState) (j : Tidx) : Option Pc :=
  if j = e.i then
    match e.act with
    | .exit .. => some (exitStep (s.files e.p) (s.pc e.i)).2
    | _ => s.pc j
  else if (s.kernel.pthread j).state = .UNUSED then none
  else s.pc j

/-- One turn. -/
def step (s : EState) (e : Event) : Option EState :=
  if e.fits s then (next s.kernel (e.label s)).map fun s' => ⟨s', e.after s s', e.pcs s⟩ else none

def Start (s : EState) : Prop :=
  Init s.kernel ∧ (∀ q, ∃ ofile cwd, s.files q = .set ofile (some cwd)) ∧ ∀ j, s.pc j = none

/-- Nothing is released twice, no null pointer is, and a process that has exited
has released all it had. -/
structure ReleasedOnce (s : EState) : Prop where
  null : ∀ q, (s.files q).null = false
  closed : ∀ q fd, (s.files q).closed fd ≤ if (s.files q).opened fd then 1 else 0
  put : ∀ q, (s.files q).put ≤ 1
  zombie : ∀ q, (s.kernel.proc q).state = .ZOMBIE →
    (∀ fd, (s.files q).closed fd = if (s.files q).opened fd then 1 else 0) ∧ (s.files q).put = 1

/-! ## One process -/

/-- What holds of the files of a process. -/
structure Tally (f : Files) : Prop where
  null : f.null = false
  opened : ∀ fd, f.opened fd = true ↔ (f.ofile fd).isSome = true ∨ f.closed fd = 1
  closed : ∀ fd, f.closed fd ≤ 1
  put : f.put ≤ 1
  cwd : f.put = 0 → f.cwd.isSome = true

/-- The descriptors before `n` are closed. -/
def ClosedBelow (f : Files) (n : Nat) : Prop := ∀ fd : Fin NOFILE, fd.1 < n → f.ofile fd = none

/-- What holds where a thread stands. -/
def At (f : Files) : Option Pc → Prop
  | none => True
  | some (.loop n) => f.begun = true ∧ ClosedBelow f n
  | some (.isOpen fd) => f.begun = true ∧ ClosedBelow f fd
  | some (.closed fd) => f.begun = true ∧ ClosedBelow f fd ∧ f.closed fd = 1
  | some .dir => f.begun = true ∧ ClosedBelow f NOFILE
  | some .put => f.begun = true ∧ ClosedBelow f NOFILE ∧ f.put = 1
  | some .last => f.begun = true ∧ ClosedBelow f NOFILE ∧ f.put = 1

/-- What stays true of the files once a thread has begun to exit. -/
structure Later (f f' : Files) : Prop where
  begun : f.begun = true → f'.begun = true
  ofile : ∀ fd, f.ofile fd = none → f'.ofile fd = none
  closed : ∀ fd, f.closed fd = 1 → f'.closed fd = 1
  put : f.put = 1 → f'.put = 1

theorem Later.refl (f : Files) : Later f f := ⟨id, fun _ => id, fun _ => id, id⟩

theorem Later.below {f f' : Files} (h : Later f f') {n : Nat} (hb : ClosedBelow f n) :
    ClosedBelow f' n :=
  fun fd hfd => h.ofile fd (hb fd hfd)

/-- A thread stays where it is when others go on. -/
theorem At.later {f f' : Files} {pc : Option Pc} (h : At f pc) (hl : Later f f') : At f' pc := by
  rcases pc with _ | (n | fd | fd | _ | _ | _)
  · trivial
  · exact ⟨hl.begun h.1, hl.below h.2⟩
  · exact ⟨hl.begun h.1, hl.below h.2⟩
  · exact ⟨hl.begun h.1, hl.below h.2.1, hl.closed fd h.2.2⟩
  · exact ⟨hl.begun h.1, hl.below h.2⟩
  · exact ⟨hl.begun h.1, hl.below h.2.1, hl.put h.2.2⟩
  · exact ⟨hl.begun h.1, hl.below h.2.1, hl.put h.2.2⟩

theorem At.begun {f : Files} {pc : Pc} (h : At f (some pc)) : f.begun = true := by
  cases pc <;> exact h.1

theorem Tally.set (ofile : Fin NOFILE → Option (Fin NFILE)) {cwd : Option (Fin NINODE)}
    (h : cwd.isSome = true) : Tally (.set ofile cwd) := by
  constructor <;> simp [Files.set, h]

/-- A part of `exit` that does not release what has been released. -/
def Fresh (f : Files) : Option Pc → Prop
  | some (.isOpen fd) => (f.ofile fd).isSome = true ∧ f.closed fd = 0
  | some .dir => f.put = 0
  | _ => True

/-- A step of an exit only takes away. -/
theorem exitStep_later {f : Files} {pc : Option Pc} (h : Fresh f pc) :
    Later f (exitStep f pc).1 := by
  rcases pc with _ | (n | fd | fd | _ | _ | _)
  · exact ⟨fun _ => rfl, fun _ => id, fun _ => id, id⟩
  · unfold exitStep
    dsimp only
    split
    · split <;> exact .refl f
    · exact .refl f
  · refine ⟨id, fun _ => id, fun fd' hc => ?_, id⟩
    have hne : fd' ≠ fd := by
      rintro rfl
      rw [h.2] at hc
      cases hc
    simpa [exitStep, hne] using hc
  · refine ⟨id, fun fd' hn => ?_, fun _ => id, id⟩
    by_cases hfd : fd' = fd
    · simp [exitStep, hfd]
    · simpa [exitStep, hfd] using hn
  · refine ⟨id, fun _ => id, fun _ => id, fun hp => ?_⟩
    rw [show f.put = 0 from h] at hp
    cases hp
  · exact ⟨id, fun _ => id, fun _ => id, id⟩
  · exact .refl f

/-- A step of a fresh exit keeps the tally: what is closed was open. -/
theorem exitStep_tally {f : Files} {pc : Option Pc} (h : Tally f) (hat : At f pc)
    (hf : Fresh f pc) : Tally (exitStep f pc).1 := by
  rcases pc with _ | (n | fd | fd | _ | _ | _)
  · exact ⟨h.null, h.opened, h.closed, h.put, h.cwd⟩
  · unfold exitStep
    dsimp only
    split
    · split <;> exact h
    · exact h
  · rcases hf with ⟨hopen, hzero⟩
    -- the descriptor was open and had not been closed
    refine ⟨?_, fun fd' => ?_, fun fd' => ?_, h.put, h.cwd⟩
    · have hnone : (f.ofile fd).isNone = false := by
        cases hfd : f.ofile fd with
        | none =>
            rw [hfd] at hopen
            cases hopen
        | some x => rfl
      simp [exitStep, h.null, hnone]
    · by_cases hfd : fd' = fd
      · subst hfd
        have hop : f.opened fd' = true := (h.opened fd').2 (.inl hopen)
        simp [exitStep, hop, hopen]
      · simpa [exitStep, hfd] using h.opened fd'
    · by_cases hfd : fd' = fd
      · simp [exitStep, hfd, hzero]
      · simpa [exitStep, hfd] using h.closed fd'
  · refine ⟨h.null, fun fd' => ?_, h.closed, h.put, h.cwd⟩
    by_cases hfd : fd' = fd
    · subst hfd
      have hc : f.closed fd' = 1 := hat.2.2
      have hop : f.opened fd' = true := (h.opened fd').2 (.inr hc)
      simp [exitStep, hc, hop]
    · simpa [exitStep, hfd] using h.opened fd'
  -- the directory had not been put
  · have hzero : f.put = 0 := hf
    refine ⟨?_, h.opened, h.closed, ?_, ?_⟩
    · have hcwd := h.cwd hzero
      have hnone : f.cwd.isNone = false := by
        cases hc : f.cwd with
        | none =>
            rw [hc] at hcwd
            cases hcwd
        | some x => rfl
      simp [exitStep, h.null, hnone]
    · simp [exitStep, hzero]
    · simp [exitStep]
  · refine ⟨h.null, h.opened, h.closed, h.put, fun hp => ?_⟩
    have hput : f.put = 1 := hat.2.2
    have : f.put = 0 := hp
    omega
  · exact h

/-- The place of the exit after its step. -/
theorem exitStep_at {f : Files} {pc : Option Pc} (hat : At f pc) (hf : Fresh f pc) :
    At (exitStep f pc).1 (some (exitStep f pc).2) := by
  rcases pc with _ | (n | fd | fd | _ | _ | _)
  · exact ⟨rfl, fun fd hfd => absurd hfd (Nat.not_lt_zero _)⟩
  · unfold exitStep
    dsimp only
    split
    · next hn =>
      split
      · exact hat
      · next hopen =>
        refine ⟨hat.1, fun fd hfd => ?_⟩
        -- the descriptors below are closed, and this one is not open
        rcases Nat.lt_succ_iff_lt_or_eq.1 hfd with h1 | h1
        · exact hat.2 fd h1
        · have hfd' : fd = ⟨n, hn⟩ := Fin.ext h1
          rw [hfd']
          exact Option.not_isSome_iff_eq_none.1 hopen
    · next hn => exact ⟨hat.1, fun fd _ => hat.2 fd (by have := fd.2; omega)⟩
  · exact ⟨hat.1, hat.2, by simp [exitStep, hf.2]⟩
  · refine ⟨hat.1, fun fd' hfd => ?_⟩
    by_cases heq : fd' = fd
    · simp [exitStep, heq]
    · have hlt : fd'.1 < fd.1 := by
        have : fd'.1 ≠ fd.1 := fun h => heq (Fin.ext h)
        omega
      simpa [exitStep, heq] using hat.2.1 fd' hlt
  · have hzero : f.put = 0 := hf
    exact ⟨hat.1, hat.2, by simp [exitStep, hzero]⟩
  · exact ⟨hat.1, hat.2.1, hat.2.2⟩
  · exact hat

/-- A descriptor that has been released and not cleared: either the thread that
has run has just released it, or it was so before and the thread left it alone. -/
theorem exitStep_open {f : Files} {pc : Option Pc} {fd : Fin NOFILE}
    (hc : (exitStep f pc).1.closed fd = 1) (ho : (exitStep f pc).1.ofile fd ≠ none) :
    (exitStep f pc).2 = .closed fd ∨ f.closed fd = 1 ∧ f.ofile fd ≠ none ∧
      pc ≠ some (.closed fd) := by
  rcases pc with _ | (n | fd' | fd' | _ | _ | _)
  · exact .inr ⟨hc, ho, fun h => nomatch h⟩
  · refine .inr ?_
    unfold exitStep at hc ho
    dsimp only at hc ho
    split at hc
    · next hn =>
      rw [dif_pos hn] at ho
      split at hc
      · next hopen =>
        rw [if_pos hopen] at ho
        exact ⟨hc, ho, fun h => nomatch h⟩
      · next hopen =>
        rw [if_neg hopen] at ho
        exact ⟨hc, ho, fun h => nomatch h⟩
    · next hn =>
      rw [dif_neg hn] at ho
      exact ⟨hc, ho, fun h => nomatch h⟩
  -- the descriptor of this step, and the others
  · by_cases hfd : fd = fd'
    · subst hfd
      exact .inl rfl
    · refine .inr ⟨?_, ho, fun h => nomatch h⟩
      simpa [exitStep, hfd] using hc
  · by_cases hfd : fd = fd'
    · subst hfd
      simp [exitStep] at ho
    · refine .inr ⟨hc, ?_, ?_⟩
      · simpa [exitStep, hfd] using ho
      · intro h
        cases h
        exact hfd rfl
  · exact .inr ⟨hc, ho, fun h => nomatch h⟩
  · exact .inr ⟨hc, ho, fun h => nomatch h⟩
  · exact .inr ⟨hc, ho, fun h => nomatch h⟩

/-- The same for the directory. -/
theorem exitStep_put {f : Files} {pc : Option Pc} (hp : (exitStep f pc).1.put = 1) :
    ((exitStep f pc).2 = .put ∨ (exitStep f pc).2 = .last) ∨
      f.put = 1 ∧ pc ≠ some .put ∧ pc ≠ some .last := by
  rcases pc with _ | (n | fd' | fd' | _ | _ | _)
  · exact .inr ⟨hp, by simp, by simp⟩
  · refine .inr ⟨?_, by simp, by simp⟩
    unfold exitStep at hp
    dsimp only at hp
    split at hp
    · split at hp <;> exact hp
    · exact hp
  · exact .inr ⟨hp, by simp, by simp⟩
  · exact .inr ⟨hp, by simp, by simp⟩
  · exact .inl (.inl rfl)
  · exact .inl (.inr rfl)
  · exact .inl (.inr rfl)

/-! ## Every process -/

/-- Thread `j` has a slot and belongs to process `q`. -/
structure Member (s : Kernel) (q : Pidx) (j : Tidx) : Prop where
  used : InUse s q
  slot : (s.pthread j).state ≠ .UNUSED
  pid : (s.pthread j).pid = (s.proc q).pid

/-- A thread that had its slot belonged to the same process before the turn. -/
theorem member_before {a : Label} {s1 : Kernel} {o : Outcome} (h : Step a s s1 o)
    (hids : Ids (a.after s s1 o)) (hj : (s.pthread j).state ≠ .UNUSED)
    (hm : Member (a.after s s1 o) q j) : Member s q j := by
  have hown : InUse s a.p := h.used.1 h.picked.inUse
  by_cases hja : j = a.i
  · -- the thread that has run
    have hqa : q = a.p := by
      apply hids.uniq q a.p hm.used
      · exact (after_inUse h.effect.parked).2 h.effect.parked.inUse
      · rw [← hm.pid, hja, after_own.1, after_pid]
    rw [hja, hqa]
    refine ⟨hown, ?_, h.picked.2.1⟩
    rw [h.picked.2.2]
    decide
  · have hpid := h.slot_pid hja hj hm.slot
    by_cases hu : InUse s q
    · refine ⟨hu, hj, ?_⟩
      rw [← h.pid_stays hu hm.used, ← hm.pid, hpid]
    · -- the id of a new process is no thread's
      have hnew := (h.made hu hm.used).2.1
      have hlt := h.ids.th_lt j
      have := hm.pid
      omega

/-- A thread stands where it has released an entry and not cleared it, or has
cleared the directory. -/
def Releasing (pc : Option Pc) : Prop :=
  (∃ fd, pc = some (.closed fd)) ∨ pc = some .put ∨ pc = some .last

/-- A turn releases nothing that is being released: a thread that comes to a
descriptor finds it open and no sibling between the call and the clearing, and
one that comes to the directory finds no sibling past the call. It ends no thread
that stands there, and copies no directory that has been released. -/
structure ReleasesFresh (s : EState) (e : Event) : Prop where
  descriptor : (∃ w z, e.act = .exit w z) → ∀ fd, s.pc e.i = some (.isOpen fd) →
    ((s.files e.p).ofile fd).isSome = true ∧
      ∀ j, (s.kernel.pthread j).pid = (s.kernel.proc e.p).pid → s.pc j ≠ some (.closed fd)
  directory : (∃ w z, e.act = .exit w z) → s.pc e.i = some .dir →
    ∀ j, (s.kernel.pthread j).pid = (s.kernel.proc e.p).pid →
      s.pc j ≠ some .put ∧ s.pc j ≠ some .last
  ended : ∀ j, j ≠ e.i → Live (s.kernel.pthread j) → Releasing (s.pc j) →
    ((e.label s).c.kills = some ((s.kernel.pthread j).pid : Int) →
      (s.kernel.pthread j).thread_id = MAINTH) ∧
    (commits s.kernel.kmem (e.label s).c = true →
      (s.kernel.pthread j).pid = (s.kernel.proc e.p).pid →
        (s.kernel.pthread j).thread_id = (s.kernel.pthread e.i).thread_id)
  forked : (e.label s).c.forks = true → (s.files e.p).cwd.isSome = true

/-- The invariant: what has been released and not cleared is in the hands of a
live thread of a living process. -/
structure Inv (s : EState) : Prop where
  ids : Ids s.kernel
  tally : ∀ q, Tally (s.files q)
  place : ∀ q j, Member s.kernel q j → At (s.files q) (s.pc j)
  descriptor : ∀ q, InUse s.kernel q → (s.kernel.proc q).state ≠ .ZOMBIE → ∀ fd,
    (s.files q).closed fd = 1 → (s.files q).ofile fd ≠ none →
      ∃ j, Linked s.kernel q j ∧ s.pc j = some (.closed fd)
  directory : ∀ q, InUse s.kernel q → (s.kernel.proc q).state ≠ .ZOMBIE → (s.files q).put = 1 →
    ∃ j, Linked s.kernel q j ∧ (s.pc j = some .put ∨ s.pc j = some .last)
  zombie : ∀ q, (s.kernel.proc q).state = .ZOMBIE →
    ClosedBelow (s.files q) NOFILE ∧ (s.files q).put = 1

/-- By the tally everything is released once. -/
theorem Inv.released {s : EState} (h : Inv s) : ReleasedOnce s := by
  have hle : ∀ q fd, (s.files q).closed fd ≤ if (s.files q).opened fd then 1 else 0 := by
    intro q fd
    split
    · exact (h.tally q).closed fd
    · next hn =>
      have hone := (h.tally q).closed fd
      have hne : (s.files q).closed fd ≠ 1 := fun hc => hn (((h.tally q).opened fd).2 (.inr hc))
      omega
  refine ⟨fun q => (h.tally q).null, hle, fun q => (h.tally q).put, fun q hz => ?_⟩
  rcases h.zombie q hz with ⟨hall, hput⟩
  refine ⟨fun fd => ?_, hput⟩
  have hnone : (s.files q).ofile fd = none := hall fd fd.2
  split
  · next ho =>
    rcases ((h.tally q).opened fd).1 ho with h1 | h1
    · rw [hnone] at h1
      cases h1
    · exact h1
  · next ho =>
    have := hle q fd
    rw [if_neg ho] at this
    omega

/-! ## One turn -/

/-- A process that has called `exit` is a zombie. -/
theorem exit_zombie {s' : Kernel} {a : Label} (hs : next s a = some s') (hx : a.c.exits = true) :
    (s'.proc a.p).state = .ZOMBIE := by
  have hcall : a.c = .exit := by
    generalize a.c = c at hx
    cases c <;> first | rfl | cases hx
  have hwp : wp (call a.p (s.cont a.i) a.c) (s.dressed a.p a.i)
      (fun o s1 => o = .switch .user ∧ (s1.proc a.p).state = .ZOMBIE) fun _ => True := by
    rw [hcall]
    exact exit_wp fun c c' => ⟨⟨rfl, by simp [Kernel.exited]⟩, fun _ =>
      ⟨rfl, by simp [Kernel.exited]⟩⟩
  rcases next_wp hwp hs with ⟨o, s1, ⟨rfl, hz⟩, rfl⟩
  simp [Label.left, Outcome.parked, Kernel.undressed, cleared, hz]

/-- Only the last part of `exit` is the call that ends the process. -/
theorem Event.fits.exits {s : EState} {e : Event} (h : e.fits s)
    (hx : (e.label s).c.exits = true) : s.pc e.i = some .last ∧ ∃ w z, e.act = .exit w z := by
  unfold Event.fits at h
  unfold Event.label at hx
  cases hact : e.act with
  | call c =>
      rw [hact] at h hx
      rw [h.2] at hx
      cases hx
  | files ofile cwd =>
      rw [hact] at hx
      cases hx
  | exit w z =>
      refine ⟨?_, w, z, rfl⟩
      rw [hact] at hx
      unfold exitCall at hx
      dsimp only at hx
      split at hx
      · assumption
      · cases hx

/-- An exit that sleeps has not ended. -/
theorem exitCall_ends {k : Cont} {w z : Option Chan} {pc : Option Pc} :
    (exitCall k w z pc).ends = false := by
  unfold exitCall
  split
  · split <;> rfl
  · rfl

section turn

variable {s : EState} {e : Event} {s1 : Kernel} {o : Outcome}

/-- The thread that comes to an entry finds it as it was. -/
theorem Inv.fresh (h : Inv s) (hok : ReleasesFresh s e) (hp : Pickable s.kernel e.p e.i)
    (hact : ∃ w z, e.act = .exit w z) : Fresh (s.files e.p) (s.pc e.i) := by
  have hused : InUse s.kernel e.p := by
    unfold InUse
    rw [hp.1]
    decide
  -- the process of a thread that can be picked is no zombie
  have halive : (s.kernel.proc e.p).state ≠ .ZOMBIE := by
    rw [hp.1]
    decide
  cases hpc : s.pc e.i with
  | none => trivial
  | some pc =>
      cases pc with
      -- closed already by somebody who is still inside: the condition excludes it
      | isOpen fd =>
          rcases hok.descriptor hact fd hpc with ⟨hopen, hno⟩
          refine ⟨hopen, ?_⟩
          by_contra hc
          have hone : (s.files e.p).closed fd = 1 := by
            have := (h.tally e.p).closed fd
            omega
          have hne : (s.files e.p).ofile fd ≠ none := fun hn => by
            rw [hn] at hopen
            cases hopen
          rcases h.descriptor e.p hused halive fd hone hne with ⟨j, hj, hjpc⟩
          exact hno j hj.pid hjpc
      -- and the directory likewise
      | dir =>
          have hno := hok.directory hact hpc
          by_contra hc
          have hone : (s.files e.p).put = 1 := by
            have := (h.tally e.p).put
            have : (s.files e.p).put ≠ 0 := hc
            omega
          rcases h.directory e.p hused halive hone with ⟨j, hj, hjpc⟩
          rcases hjpc with hjpc | hjpc
          · exact (hno j hj.pid).1 hjpc
          · exact (hno j hj.pid).2 hjpc
      | loop n => trivial
      | closed fd => trivial
      | put => trivial
      | last => trivial

/-- What becomes of the files of the process that has run. -/
theorem Inv.own (h : Inv s) (hfits : e.fits s) (hok : ReleasesFresh s e)
    (hp : Pickable s.kernel e.p e.i) (hat : At (s.files e.p) (s.pc e.i)) :
    Tally (e.own s) ∧ ∀ pc, At (s.files e.p) pc → At (e.own s) pc := by
  have hfresh := h.fresh hok hp
  unfold Event.fits at hfits
  unfold Event.own
  cases hact : e.act with
  | call c => exact ⟨h.tally e.p, fun pc hpc => hpc⟩
  | files ofile cwd =>
      rw [hact] at hfits
      refine ⟨.set ofile rfl, fun pc hpc => ?_⟩
      -- no thread of the process is in `exit`
      cases pc with
      | none => trivial
      | some pc =>
          have := hpc.begun
          rw [hfits.2] at this
          cases this
  | exit w z =>
      have hf := hfresh ⟨w, z, hact⟩
      exact ⟨exitStep_tally (h.tally e.p) hat hf, fun pc hpc => hpc.later (exitStep_later hf)⟩

/-- The turn of thread `e.i` of process `e.p`. -/
structure Turn (s : EState) (e : Event) (s1 : Kernel) (o : Outcome) : Prop where
  step : Step (e.label s) s.kernel s1 o
  fits : e.fits s
  ok : ReleasesFresh s e
  inv : Inv s
  ids : Ids ((e.label s).after s.kernel s1 o)
  exits : (e.label s).c.exits = true →
    (((e.label s).after s.kernel s1 o).proc e.p).state = .ZOMBIE
  execs : (e.label s).c.execs = true → commits s.kernel.kmem (e.label s).c = false →
    s1.pthread = s.kernel.pthread

/-- The files of another process that was in use are as they were. -/
theorem Event.after_other {s' : Kernel} (hq : q ≠ e.p) (hu : InUse s.kernel q) :
    e.after s s' q = s.files q := by
  unfold Event.after
  rw [if_neg hq, if_neg fun h => hu h.1]

theorem Event.pcs_other (hj : j ≠ e.i) (hu : (s.kernel.pthread j).state ≠ .UNUSED) :
    e.pcs s j = s.pc j := by
  unfold Event.pcs
  rw [if_neg hj, if_neg hu]

namespace Turn

theorem picked (h : Turn s e s1 o) : Pickable s.kernel e.p e.i := h.step.picked

theorem used (h : Turn s e s1 o) : InUse s.kernel e.p := by
  unfold InUse
  rw [h.picked.1]
  decide

theorem member (h : Turn s e s1 o) : Member s.kernel e.p e.i := by
  refine ⟨h.used, ?_, h.picked.2.1⟩
  rw [h.picked.2.2]
  decide

/-- Thread `e.i` belongs to no other process. -/
theorem member_own (h : Turn s e s1 o) (hm : Member s.kernel q e.i) : q = e.p := by
  apply h.step.own hm.used
  rw [← hm.pid, h.picked.2.1]
  rfl

theorem own (h : Turn s e s1 o) :
    Tally (e.own s) ∧ ∀ pc, At (s.files e.p) pc → At (e.own s) pc :=
  h.inv.own h.fits h.ok h.picked (h.inv.place e.p e.i h.member)

/-- The files of a new process are copied from a directory that is there. -/
theorem made (h : Turn s e s1 o) (hq : ¬ InUse s.kernel q)
    (hu : InUse ((e.label s).after s.kernel s1 o) q) :
    e.after s ((e.label s).after s.kernel s1 o) q = (s.files e.p).forked (s.files q) ∧
      (s.files e.p).cwd.isSome = true := by
  rcases h.step.made hq hu with ⟨hqp, -, hst, hforks⟩
  unfold InUse at hq
  rw [not_not] at hq
  refine ⟨?_, h.ok.forked hforks⟩
  unfold Event.after
  rw [if_neg (show q ≠ e.p from hqp), if_pos ⟨hq, hst⟩]

/-- A live thread that stands where it has released something stays alive. -/
theorem stays (h : Turn s e s1 o) (hl : Linked s.kernel q j) (hj : j ≠ e.i)
    (hr : Releasing (s.pc j))
    (hz : (((e.label s).after s.kernel s1 o).proc q).state ≠ .ZOMBIE) :
    Linked ((e.label s).after s.kernel s1 o) q j := by
  rcases h.ok.ended j hj hl.live hr with ⟨hkill, hcommit⟩
  apply h.step.link hl
  · exact fun hji => absurd hji hj
  · exact fun hc _ => hkill hc
  · rintro hc rfl
    exact hz (h.exits hc)
  · intro hc hpid hid
    by_cases hcm : commits s.kernel.kmem (e.label s).c = true
    · exact absurd (hcommit hcm hpid) hid
    · rw [h.execs hc (Bool.eq_false_of_not_eq_true hcm)]

/-- A step of the kernel keeps the tally. -/
theorem tally (h : Turn s e s1 o) :
    Tally (e.after s ((e.label s).after s.kernel s1 o) q) := by
  by_cases hq : q = e.p
  · rw [hq]
    unfold Event.after
    rw [if_pos rfl]
    exact h.own.1
  · unfold Event.after
    rw [if_neg hq]
    split
    · next hnew =>
      have hfree : ¬ InUse s.kernel q := not_not.2 hnew.1
      have hu : InUse ((e.label s).after s.kernel s1 o) q := by
        unfold InUse
        rw [hnew.2]
        decide
      exact .set _ (h.made hfree hu).2
    · exact h.inv.tally q

/-- A step of the kernel keeps every thread in its place. -/
theorem place (h : Turn s e s1 o) (hm : Member ((e.label s).after s.kernel s1 o) q j) :
    At (e.after s ((e.label s).after s.kernel s1 o) q) (e.pcs s j) := by
  by_cases hfree : (s.kernel.pthread j).state = .UNUSED
  · -- a new thread
    have hj : j ≠ e.i := by
      rintro rfl
      exact h.member.slot hfree
    unfold Event.pcs
    rw [if_neg hj, if_pos hfree]
    trivial
  -- a thread that was there: the one of the step, or another one
  · have hbefore := member_before h.step h.ids hfree hm
    have hat := h.inv.place q j hbefore
    by_cases hj : j = e.i
    · subst hj
      have hq := h.member_own hbefore
      subst hq
      have hown : e.after s ((e.label s).after s.kernel s1 o) e.p = e.own s := if_pos rfl
      rw [hown]
      have hfits := h.fits
      unfold Event.fits at hfits
      unfold Event.pcs Event.own
      rw [if_pos rfl]
      cases hact : e.act with
      | call c => exact hat
      | files ofile cwd =>
          rw [hact] at hfits
          dsimp only
          rw [hfits.1]
          trivial
      | exit w z => exact exitStep_at hat (h.inv.fresh h.ok h.picked ⟨w, z, hact⟩)
    · rw [Event.pcs_other hj hfree]
      -- its process is that of the step, whose files only lose
      by_cases hq : q = e.p
      · subst hq
        have hown : e.after s ((e.label s).after s.kernel s1 o) e.p = e.own s := if_pos rfl
        rw [hown]
        exact h.own.2 _ hat
      · rw [Event.after_other hq hbefore.used]
        exact hat

/-- What is being released after the turn was so before in the hands of another
thread, or the thread that has run has just released it. -/
theorem descriptor (h : Turn s e s1 o) (hu : InUse ((e.label s).after s.kernel s1 o) q)
    (hz : (((e.label s).after s.kernel s1 o).proc q).state ≠ .ZOMBIE) {fd : Fin NOFILE}
    (hc : (e.after s ((e.label s).after s.kernel s1 o) q).closed fd = 1)
    (ho : (e.after s ((e.label s).after s.kernel s1 o) q).ofile fd ≠ none) :
    ∃ j, Linked ((e.label s).after s.kernel s1 o) q j ∧ e.pcs s j = some (.closed fd) := by
  -- who was inside before the step still is
  have hkeep : ∀ r, Linked s.kernel q r → r ≠ e.i → s.pc r = some (.closed fd) →
      ∃ j, Linked ((e.label s).after s.kernel s1 o) q j ∧ e.pcs s j = some (.closed fd) := by
    intro r hl hr hpc
    refine ⟨r, h.stays hl hr (.inl ⟨fd, hpc⟩) hz, ?_⟩
    rw [Event.pcs_other hr hl.live.inUse, hpc]
  by_cases hq : q = e.p
  · subst hq
    have hown : e.after s ((e.label s).after s.kernel s1 o) e.p = e.own s := if_pos rfl
    have halive : (s.kernel.proc e.p).state ≠ .ZOMBIE := by
      rw [h.picked.1]
      decide
    rw [hown] at hc ho
    have hfits := h.fits
    unfold Event.fits at hfits
    unfold Event.own at hc ho
    -- a call, a change of the files outside `exit`, or a step of an exit
    cases hact : e.act with
    | call c =>
        rw [hact] at hc ho hfits
        rcases h.inv.descriptor e.p h.used halive fd hc ho with ⟨r, hl, hpc⟩
        refine hkeep r hl ?_ hpc
        rintro rfl
        rw [hfits.1] at hpc
        cases hpc
    | files ofile cwd =>
        rw [hact] at hc
        cases hc
    | exit w z =>
        rw [hact] at hc ho
        rcases exitStep_open hc ho with hpc | ⟨hc, ho, hne⟩
        · refine ⟨e.i, h.step.own_link ?_ hz, ?_⟩
          · unfold Event.label
            rw [hact]
            exact exitCall_ends
          · unfold Event.pcs
            rw [if_pos rfl, hact]
            exact congrArg some hpc
        · rcases h.inv.descriptor e.p h.used halive fd hc ho with ⟨r, hl, hpc⟩
          refine hkeep r hl ?_ hpc
          rintro rfl
          exact hne hpc
  · by_cases hb : InUse s.kernel q
    · rw [Event.after_other hq hb] at hc ho
      have halive : (s.kernel.proc q).state ≠ .ZOMBIE := fun h1 =>
        hz ((h.step.zombie_iff hq hu).2 h1)
      rcases h.inv.descriptor q hb halive fd hc ho with ⟨r, hl, hpc⟩
      refine hkeep r hl ?_ hpc
      rintro rfl
      exact hq (h.member_own ⟨hl.used, hl.live.inUse, hl.pid⟩)
    -- a process that was just made has closed nothing
    · rw [(h.made hb hu).1] at hc
      cases hc

/-- A step of the kernel keeps the directory: a process that has put it has a thread that did. -/
theorem directory (h : Turn s e s1 o) (hu : InUse ((e.label s).after s.kernel s1 o) q)
    (hz : (((e.label s).after s.kernel s1 o).proc q).state ≠ .ZOMBIE)
    (hp : (e.after s ((e.label s).after s.kernel s1 o) q).put = 1) :
    ∃ j, Linked ((e.label s).after s.kernel s1 o) q j ∧
      (e.pcs s j = some .put ∨ e.pcs s j = some .last) := by
  -- who was inside before the step still is
  have hkeep : ∀ r, Linked s.kernel q r → r ≠ e.i → (s.pc r = some .put ∨ s.pc r = some .last) →
      ∃ j, Linked ((e.label s).after s.kernel s1 o) q j ∧
        (e.pcs s j = some .put ∨ e.pcs s j = some .last) := by
    intro r hl hr hpc
    refine ⟨r, h.stays hl hr (.inr hpc) hz, ?_⟩
    rw [Event.pcs_other hr hl.live.inUse]
    exact hpc
  by_cases hq : q = e.p
  · subst hq
    have hown : e.after s ((e.label s).after s.kernel s1 o) e.p = e.own s := if_pos rfl
    have halive : (s.kernel.proc e.p).state ≠ .ZOMBIE := by
      rw [h.picked.1]
      decide
    rw [hown] at hp
    have hfits := h.fits
    unfold Event.fits at hfits
    unfold Event.own at hp
    -- a call, a change of the files outside `exit`, or a step of an exit
    cases hact : e.act with
    | call c =>
        rw [hact] at hp hfits
        rcases h.inv.directory e.p h.used halive hp with ⟨r, hl, hpc⟩
        refine hkeep r hl ?_ hpc
        rintro rfl
        rw [hfits.1] at hpc
        rcases hpc with hpc | hpc <;> cases hpc
    | files ofile cwd =>
        rw [hact] at hp
        cases hp
    | exit w z =>
        rw [hact] at hp
        rcases exitStep_put hp with hpc | ⟨hp, hne⟩
        · refine ⟨e.i, h.step.own_link ?_ hz, ?_⟩
          · unfold Event.label
            rw [hact]
            exact exitCall_ends
          · unfold Event.pcs
            rw [if_pos rfl, hact]
            exact hpc.imp (congrArg some) (congrArg some)
        · rcases h.inv.directory e.p h.used halive hp with ⟨r, hl, hpc⟩
          refine hkeep r hl ?_ hpc
          rintro rfl
          exact hpc.elim hne.1 hne.2
  · by_cases hb : InUse s.kernel q
    · rw [Event.after_other hq hb] at hp
      have halive : (s.kernel.proc q).state ≠ .ZOMBIE := fun h1 =>
        hz ((h.step.zombie_iff hq hu).2 h1)
      rcases h.inv.directory q hb halive hp with ⟨r, hl, hpc⟩
      refine hkeep r hl ?_ hpc
      rintro rfl
      exact hq (h.member_own ⟨hl.used, hl.live.inUse, hl.pid⟩)
    -- a process that was just made has put nothing
    · rw [(h.made hb hu).1] at hp
      cases hp

/-- A process becomes a zombie by the last part of `exit`. -/
theorem zombie (h : Turn s e s1 o)
    (hz : (((e.label s).after s.kernel s1 o).proc q).state = .ZOMBIE) :
    ClosedBelow (e.after s ((e.label s).after s.kernel s1 o) q) NOFILE ∧
      (e.after s ((e.label s).after s.kernel s1 o) q).put = 1 := by
  by_cases hq : q = e.p
  · subst hq
    -- a process becomes a zombie by the last step of its exit
    have hx : (e.label s).c.exits = true := by
      rcases after_state (s := s.kernel) h.step.effect.parked with hst | ⟨hx, -⟩
      · exact absurd (hst.symm.trans hz) (by decide)
      · exact hx
    rcases h.fits.exits hx with ⟨hpc, w, z, hact⟩
    have hat := h.inv.place e.p e.i h.member
    have hown : e.after s ((e.label s).after s.kernel s1 o) e.p = s.files e.p := by
      unfold Event.after Event.own
      rw [if_pos rfl, hact, hpc]
      rfl
    rw [hpc] at hat
    rw [hown]
    exact hat.2
  · have hu : InUse ((e.label s).after s.kernel s1 o) q := by
      unfold InUse
      rw [hz]
      decide
    have hb := (h.step.zombie_iff hq hu).1 hz
    -- another process was a zombie before
    have hused : InUse s.kernel q := by
      unfold InUse
      rw [hb]
      decide
    rw [Event.after_other hq hused]
    exact h.inv.zombie q hb

end Turn

end turn

/-- Every step that releases nothing for the second time keeps the invariant. -/
theorem step_inv : ∀ (s : EState) (e : Event) (s' : EState), Inv s → ReleasesFresh s e →
    step s e = some s' → Inv s' := by
  intro s e s' hinv hok hs
  unfold step at hs
  split at hs
  · next hfits =>
    rcases Option.map_eq_some_iff.1 hs with ⟨k', hnext, rfl⟩
    have hids := next_ids hinv.ids hnext
    have hexits := exit_zombie hnext
    rcases next_step hinv.ids hnext with ⟨o, s1, hstep, hexec, rfl⟩
    have h : Turn s e s1 o := ⟨hstep, hfits, hok, hinv, hids, hexits, hexec⟩
    exact ⟨hids, fun q => h.tally, fun q j => h.place, fun q hu hz fd => h.descriptor hu hz,
      fun q hu hz => h.directory hu hz, fun q => h.zombie⟩
  · cases hs

/-! ## Every run -/

/-- The invariant holds of the first process. -/
theorem Start.inv {s : EState} (h : Start s) : Inv s := by
  rcases h with ⟨hinit, hfiles, hpc⟩
  rcases hinit.started with ⟨p, i, hst⟩
  refine ⟨hst.ids, fun q => ?_, fun q j _ => ?_, fun q _ _ fd hc => ?_, fun q _ _ hp => ?_,
    fun q hz => ?_⟩
  · rcases hfiles q with ⟨ofile, cwd, hf⟩
    rw [hf]
    exact .set ofile rfl
  · rw [hpc]
    trivial
  · rcases hfiles q with ⟨ofile, cwd, hf⟩
    rw [hf] at hc
    cases hc
  · rcases hfiles q with ⟨ofile, cwd, hf⟩
    rw [hf] at hp
    cases hp
  · have hu : InUse s.kernel q := by
      unfold InUse
      rw [hz]
      decide
    rcases hst.proc with ⟨pd, kst, -, -, hp⟩
    rw [hst.inUse hu, hp] at hz
    cases hz

/-- In a run in which no thread releases what another is releasing, everything is
released once. -/
theorem released_once {s : EState} (hr : ReachOk Start step ReleasesFresh s) : ReleasedOnce s :=
  (hr.invariant Inv (fun _ h => h.inv) step_inv).released

/-! ## A descriptor closed twice -/

theorem NFILE_pos : 0 < NFILE := by decide

theorem NINODE_pos : 0 < NINODE := by decide

/-- Every process has descriptor 0 open. -/
def startFiles (s : Kernel) : EState where
  kernel := s
  files := fun _ => .set (fun fd => if fd.1 = 0 then some ⟨0, NFILE_pos⟩ else none)
    (some ⟨0, NINODE_pos⟩)
  pc := fun _ => none

/-- Where the turns of a list lead, as long as they meet `ok`. -/
def runFiles (ok : EState → Event → Prop) [∀ s e, Decidable (ok s e)] (es : List Event) :
    Option EState :=
  start.bind fun s => Lib.exec (only step ok) (startFiles s) es

theorem runFiles_reachOk {ok : EState → Event → Prop} [∀ s e, Decidable (ok s e)]
    {es : List Event} {s : EState} (h : runFiles ok es = some s) : ReachOk Start step ok s := by
  rcases Option.bind_eq_some_iff.1 h with ⟨s0, h0, h⟩
  have hstart : Start (startFiles s0) := ⟨start_init h0, fun _ => ⟨_, _, rfl⟩, fun _ => rfl⟩
  exact (ReachOk.init hstart).exec_only h

/-- `n` parts of the `exit` of a thread. -/
def exits (p : Pidx) (i : Tidx) (n : Nat) : List Event :=
  List.replicate n ⟨p, i, .exit none none, 0, 0⟩

/-- `init` forks, its child creates a thread, and both threads of the child come
to the descriptor in `exit`. -/
def closingTwice : List Event :=
  [⟨0, 0, .call .fork, 0, 0⟩, ⟨1, 1, .call .thread_create, 0, 0⟩] ++ exits 1 1 3 ++ exits 1 2 3

/-- Two threads of one process, both in `exit`: a file is closed for both. -/
theorem closed_twice : ∃ s, Reachable Start step s ∧ ¬ ReleasedOnce s := by
  have hrun : (runFiles (fun _ _ => True) closingTwice).map (fun s =>
      (s.files 1).closed ⟨0, by decide⟩) = some 2 := by
    decide +kernel
  rcases Option.map_eq_some_iff.1 hrun with ⟨s, hs, hv⟩
  refine ⟨s, runFiles_reachOk hs, fun hone => ?_⟩
  have := hone.closed 1 ⟨0, by decide⟩
  rw [hv] at this
  split at this <;> omega

/-- No other thread is in `exit` when one comes to an entry, and none is ended. -/
def Alone (s : EState) (e : Event) : Prop :=
  ((e.label s).c.kills = none ∧ (e.label s).c.execs = false ∧
    ((e.label s).c.forks = true → (s.files e.p).cwd.isSome = true)) ∧
  match s.pc e.i with
  | some (.isOpen fd) => ((s.files e.p).ofile fd).isSome = true ∧ ∀ j, j ≠ e.i → s.pc j = none
  | some .dir => ∀ j, j ≠ e.i → s.pc j = none
  | _ => True

instance (s : EState) (e : Event) : Decidable (Alone s e) := by
  unfold Alone
  have : Decidable (match s.pc e.i with
    | some (.isOpen fd) => ((s.files e.p).ofile fd).isSome = true ∧ ∀ j, j ≠ e.i → s.pc j = none
    | some .dir => ∀ j, j ≠ e.i → s.pc j = none
    | _ => True) := by
    split <;> infer_instance
  infer_instance

/-- A single thread releases nothing twice. -/
theorem Alone.fresh {s : EState} {e : Event} (h : Alone s e) : ReleasesFresh s e := by
  rcases h with ⟨⟨hkill, hexec, hfork⟩, hpc⟩
  refine ⟨fun _ fd hfd => ?_, fun _ hdir j _ => ?_, fun j _ _ _ => ⟨fun hk => ?_, fun hc => ?_⟩,
    hfork⟩
  · rw [hfd] at hpc
    refine ⟨hpc.1, fun j _ hj => ?_⟩
    by_cases hji : j = e.i
    · rw [hji, hfd] at hj
      cases hj
    · rw [hpc.2 j hji] at hj
      cases hj
  · rw [hdir] at hpc
    by_cases hji : j = e.i
    · rw [hji, hdir]
      exact ⟨by simp, by simp⟩
    · rw [hpc j hji]
      exact ⟨by simp, by simp⟩
  · rw [hkill] at hk
    cases hk
  · rw [commits_execs hc] at hexec
    cases hexec

/-- A process with two threads of which one exits. -/
theorem released_once_zombie : ∃ s, (s.kernel.proc 1).state = .ZOMBIE ∧
    (s.kernel.pthread 2).state = .THZOMBIE ∧ (s.files 1).closed ⟨0, by decide⟩ = 1 ∧
      ReleasedOnce s := by
  have hrun : (runFiles Alone ([⟨0, 0, .call .fork, 0, 0⟩, ⟨1, 1, .call .thread_create, 0, 0⟩] ++
      exits 1 1 24)).map (fun s => ((s.kernel.proc 1).state, (s.kernel.pthread 2).state,
        (s.files 1).closed ⟨0, by decide⟩)) = some (.ZOMBIE, .THZOMBIE, 1) := by
    decide +kernel
  rcases Option.map_eq_some_iff.1 hrun with ⟨s, hs, hv⟩
  simp only [Prod.mk.injEq] at hv
  exact ⟨s, hv.1, hv.2.1, hv.2.2,
    released_once ((runFiles_reachOk hs).mono fun _ _ => Alone.fresh)⟩

end Xv6.Thread.Exit
