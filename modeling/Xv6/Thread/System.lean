import Xv6.Lib.Transition
import Xv6.Thread.Exec

/-!
# Runs of Project02

The scheduler picks any thread that it could find, dresses it as its process,
and undresses it when it gives up the CPU. There are two systems of steps:

* `next`: one call a step. A thread that makes several calls in a row goes back
  into its slot after each of them, as if the timer had interrupted it there;
* `sliceNext`: a whole time slice a step. The calls of a slice follow one
  another on the CPU, and the slot is written when the slice is over. In
  between the slot is stale: it has the `thread_id` of before an `exec`.

What a saved context says beyond `ebp` is not modelled. A copy that `fork` of a
main thread makes of a sibling that has been switched out goes on, in the
kernel, with the frames of that sibling; here it goes on in a call of its own
(`forkThread` copies `cont`). `OnOwnStack` tells such a copy apart. A copy of the
caller's own slot, which `fork` makes after an `exec` of the same slice, has the
context that was saved when the slice began, though the stack has been used since;
`CopiesApart` leaves such calls out. `Thread.Family` and `Thread.Sched` have these
two conditions, and `Thread.Stacks` one of its own; in other runs a copy goes on as
a thread of its own process. What is said of runs of `next` is said of runs of
single calls (`Thread.Join`, `Thread.Locks`, `Thread.Exit`, `Thread.Switch`).
-/

namespace Xv6.Thread

open Xv6.Lib

/-- What a thread does on the CPU. `w` is the word of its page 0 that a null
`joiner_pthread` leads to; `elf` and `argv` are what `exec` finds; `sleep` and
`wakeup` are those of any other system call or interrupt. -/
inductive Call
  | yield
  | sleep (c : Chan)
  | wakeup (c : Chan)
  /-- some way into any other system call: perhaps `wakeup`, then `sleep` or a
  timer interrupt -/
  | inside (wakes : Option Chan) (sleeps : Option Chan)
  | thread_create
  | thread_exit (retval : Nat)
  | thread_join (t w : Nat)
  | sbrk (n : Int)
  | fork
  | exit
  | wait
  | exec (elf : Option Elf) (argv : List Nat)
  | exec2 (elf : Option Elf) (argv : List Nat) (stacksize : Int)
  | kill (pid : Int)
  | setmemorylimit (pid limit : Int)
  /-- go on after `sleep` -/
  | resume (w : Nat)

/-- After `sched` returns in `sleep`: tidy up and go on. -/
def resume (p : Pidx) (k : Cont) (w : Nat) : M Outcome := do
  setProc p fun x => { x with chan := .null }
  match k with
  | .user | .sleep => return .ret 0
  | .join t => joinScan p t w
  | .wait => waitScan p

/-- `yield`, up to the switch, of a thread that is in a system call. -/
def yieldInside (p : Pidx) : M Outcome := do
  setProc p fun x => { x with state := .RUNNABLE }
  sched p
  return .switch .sleep

/-- Go on in a system call that is not one of this file. -/
def inside (p : Pidx) (k : Cont) (wakes sleeps : Option Chan) : M Outcome := do
  if k ≠ .user then setProc p fun x => { x with chan := .null }
  match wakes with
  | some c => wakeup1 c
  | none => pure ()
  match sleeps with
  | some c => sleep p c .sleep
  | none => yieldInside p

/-- The call `c` of the thread that stands at `k` and wears process `p`. -/
def call (p : Pidx) (k : Cont) : Call → M Outcome
  | .yield => return .ret 0
  | .sleep c => sleep p c .sleep
  | .wakeup c => do
      wakeup1 c
      return .ret 0
  | .inside wakes sleeps => inside p k wakes sleeps
  | .thread_create => do
      match ← thread_create p with
      | none => return .ret (-1)
      | some _ => return .ret 0
  | .thread_exit retval => thread_exit p retval
  | .thread_join t w => thread_join p t w
  | .sbrk n => return .ret (← growproc p n)
  | .fork => return .ret (← fork p)
  | .exit => exit p
  | .wait => waitScan p
  | .exec elf argv => return .ret (← exec p elf argv)
  | .exec2 elf argv n => return .ret (← exec2 p elf argv n)
  | .kill pid => return .ret (← kill pid)
  | .setmemorylimit pid limit => return .ret (← setmemorylimit pid limit)
  | .resume w => resume p k w

/-- A call comes from user code, and only a thread that slept or was preempted in
a system call goes on with it. The argument of `sbrk` is an `int`. -/
def Call.fits (k : Cont) : Call → Bool
  | .resume _ => k ≠ .user
  | .sbrk n => k = .user ∧ -2 ^ 31 ≤ n ∧ n < 2 ^ 31
  | .inside _ _ => k = .user ∨ k = .sleep
  | _ => k = .user

/-- Thread `i` of process `p` is one that `scheduler()` may pick. -/
def Pickable (s : Kernel) (p : Pidx) (i : Tidx) : Prop :=
  (s.proc p).state = .RUNNABLE ∧ (s.pthread i).pid = (s.proc p).pid ∧
    (s.pthread i).state = .RUNNABLE

instance (s : Kernel) (p : Pidx) (i : Tidx) : Decidable (Pickable s p i) :=
  inferInstanceAs (Decidable (_ ∧ _))

/-- Dress thread `i` as process `p`. -/
def switchTo (p : Pidx) (i : Tidx) : M Unit := do
  mvThreadToProc i p
  switchuvm p
  setProc p fun x => { x with state := .RUNNING }

/-- The page of the kernel stack that a thread is on when it gives up the CPU. A
trap from user mode starts on its own stack; a thread that goes on in the kernel
is on the stack that its saved `ebp` points into. -/
def stackPage (k : Cont) (t : Pthread) : Outcome → Nat
  | .ret _ => t.kstack / PGSIZE
  | .switch _ =>
      if k = .user ∨ t.context.ebp = 0 then t.kstack / PGSIZE else t.context.ebp / PGSIZE

/-- Undress it; after a call that returned this is a `yield`. `swtch` has saved
the context. The scheduler clears the process when it is through with all its
threads, and nothing looks at what is cleared before. -/
def switchFrom (p : Pidx) (i : Tidx) (ctx : Context) : Outcome → M Unit
  | .ret _ => do
      setProc p fun x => { x with state := .RUNNABLE, context := ctx }
      setCont i .user
      mvProcToThread p i
      clearProc p
  | .switch k => do
      setProc p fun x => { x with context := ctx }
      setCont i k
      mvProcToThread p i
      clearProc p

/-- A step: which process, which of its threads, which call, and how deep in the
kernel stack the thread is when it gives up the CPU. -/
structure Label where
  p : Pidx
  i : Tidx
  c : Call
  sp : Nat
  bp : Nat

/-- The context that thread `a.i`, which stood at `k`, is left with. -/
def Label.saved (a : Label) (k : Cont) (t : Pthread) (r : Outcome) : Context :=
  ⟨stackPage k t r * PGSIZE + a.sp % PGSIZE, stackPage k t r * PGSIZE + a.bp % PGSIZE⟩

/-- One turn: what the call returned, if it did. -/
def turn (a : Label) : M Outcome := do
  let s ← get
  switchTo a.p a.i
  let r ← call a.p (s.cont a.i) a.c
  switchFrom a.p a.i (a.saved (s.cont a.i) (s.pthread a.i) r) r
  return r

def Enabled (s : Kernel) (a : Label) : Prop := Pickable s a.p a.i ∧ a.c.fits (s.cont a.i) = true

instance (s : Kernel) (a : Label) : Decidable (Enabled s a) := inferInstanceAs (Decidable (_ ∧ _))

def next (s : Kernel) (a : Label) : Option Kernel :=
  if Enabled s a then
    match (turn a).run s with
    | .ok (_, s') => some s'
    | .error _ => none
  else none

/-! ## Time slices -/

/-- Calls in a row: the first goes on at `k`, and each of the others follows one
that returned. With the outcome comes where the last call that was made began. -/
def calls (p : Pidx) (k : Cont) (c : Call) : List Call → M (Cont × Outcome)
  | [] => do return (k, ← call p k c)
  | d :: ds => do
      match ← call p k c with
      | .ret _ => calls p .user d ds
      | .switch k' => return (k, .switch k')

/-- A step of a time slice: the calls after the first are in `rest`. -/
structure Slice extends Label where
  rest : List Call

/-- From the scheduler's switch to the thread up to the next switch back. -/
def slice (a : Slice) : M Outcome := do
  let s ← get
  switchTo a.p a.i
  let (k, r) ← calls a.p (s.cont a.i) a.c a.rest
  switchFrom a.p a.i (a.saved k (s.pthread a.i) r) r
  return r

/-- The calls after the first come from user code. -/
def Slice.Enabled (s : Kernel) (a : Slice) : Prop :=
  Thread.Enabled s a.toLabel ∧ ∀ c ∈ a.rest, c.fits .user = true

instance (s : Kernel) (a : Slice) : Decidable (a.Enabled s) := inferInstanceAs (Decidable (_ ∧ _))

def sliceNext (s : Kernel) (a : Slice) : Option Kernel :=
  if a.Enabled s then
    match (slice a).run s with
    | .ok (_, s') => some s'
    | .error _ => none
  else none

/-- The state after a call that returned. -/
def returned (p : Pidx) (k : Cont) (c : Call) (s : Kernel) : Option Kernel :=
  match (call p k c).run s with
  | .ok (.ret _, s') => some s'
  | _ => none

/-- Every call meets `ok` in the state that it is made in. -/
def Each (ok : Kernel → Cont → Call → Prop) (p : Pidx) (s : Kernel) (k : Cont) (c : Call) :
    List Call → Prop
  | [] => ok s k c
  | d :: ds => ok s k c ∧ ∀ s' ∈ returned p k c s, Each ok p s' .user d ds

instance Each.decidable (ok : Kernel → Cont → Call → Prop) [∀ s k c, Decidable (ok s k c)]
    (p : Pidx) : ∀ (s : Kernel) (k : Cont) (c : Call) (ds : List Call),
    Decidable (Each ok p s k c ds)
  | s, k, c, [] => inferInstanceAs (Decidable (ok s k c))
  | s, k, c, d :: ds =>
      have _ : ∀ s', Decidable (Each ok p s' .user d ds) := fun s' =>
        Each.decidable ok p s' .user d ds
      inferInstanceAs (Decidable (_ ∧ ∀ s' ∈ returned p k c s, _))

/-- The saved frame pointer of thread `i` is zero or leads into its own stack. -/
def OnOwnStack (s : Kernel) (i : Tidx) : Prop :=
  (s.pthread i).context.ebp = 0 ∨
    (s.pthread i).context.ebp / PGSIZE = (s.pthread i).kstack / PGSIZE

instance (s : Kernel) (i : Tidx) : Decidable (OnOwnStack s i) := inferInstanceAs (Decidable (_ ∨ _))

/-- The threads that a `fork` of a main thread copies are on their own stacks, and the
caller, which is on the CPU, is none of them. -/
def CopiesApart (p : Pidx) (s : Kernel) : Call → Prop
  | .fork => (s.proc p).thread_id = MAINTH →
      (s.pthread (s.proc p).thread_idx).thread_id = MAINTH ∧
        ∀ j, (s.pthread j).pid = (s.proc p).pid → (s.pthread j).thread_id ≠ MAINTH →
          OnOwnStack s j
  | _ => True

instance (p : Pidx) (s : Kernel) (c : Call) : Decidable (CopiesApart p s c) := by
  unfold CopiesApart
  split <;> infer_instance

/-! ## The first process -/

def inituvm (pd : PageDir) : KM PageDir := do
  match ← kalloc with
  | none => throw .fault
  | some mem => return (← mappages pd 0 ⟨V2P mem, true⟩).1

def userinit : M Unit := do
  match ← allocproc with
  | none => throw .fault
  | some p => do
      modify fun s => { s with initproc := p }
      match ← onKmem setupkvm with
      | none => halt "userinit: out of memory?"
      | some pd => do
          setPgdir p (← onKmem (inituvm pd))
          let s ← get
          let th := (s.proc p).thread_idx
          setProc p fun x =>
            { x with
              sz := PGSIZE, state := .RUNNABLE, th_sz := PGSIZE, parent_proc := some p
              parent_pthread := some th, joiner_pthread := some th, freed_sz := noFreed }
          mvProcToThread p th
          clearProc p

/-- A slot of `ptable` at boot. -/
def Proc.zero : Proc where
  pgdir := none
  parent_proc := none
  parent_pthread := none
  memlimit := 0
  thread_assign := 0
  stacksz := 0
  freed_sz := noFreed
  pid := 0
  sz := 0
  main_thread_idx := 0
  th_sz := 0
  kstack := 0
  state := .UNUSED
  chan := .null
  tf := 0
  context := ⟨0, 0⟩
  killed := false
  thread_id := 0
  joiner_pthread := none
  thread_idx := 0

/-- A slot of `pthread_table` at boot. -/
def Pthread.zero : Pthread where
  th_sz := 0
  pid := 0
  kstack := 0
  state := .UNUSED
  chan := .null
  tf := 0
  context := ⟨0, 0⟩
  ptable_idx := 0
  thread_id := 0
  joiner_pthread := none
  retval := 0

/-- The tables at boot. -/
def boot (m : Kmem) : Kernel where
  proc := fun _ => Proc.zero
  pthread := fun _ => Pthread.zero
  nextpid := 1
  initproc := 0
  kmem := m
  cont := fun _ => .user

/-- `kinit1` and `kinit2` have run: the pages above 4 MB are free, and what
`kinit1` freed below and nobody has taken. -/
structure Booted (m : Kmem) : Prop where
  frame : ∀ v ∈ m.freelist, v.1 % PGSIZE = 0 ∧ V2P v.1 < PHYSTOP
  nodup : m.freelist.Nodup
  enough : (PHYSTOP - 4 * 1024 * 1024) / PGSIZE ≤ m.freelist.length

/-- `userinit` has run. -/
def Init (s : Kernel) : Prop := ∃ m, Booted m ∧ userinit.run (boot m) = .ok ((), s)

/-- Address where kernel is linked. -/
def KERNLINK : Nat := KERNBASE + 0x100000

/-- `userinit` has run, in a kernel that lies where it is linked. -/
def Loaded (s : Kernel) : Prop :=
  ∃ m, Booted m ∧ KERNLINK ≤ m.kend ∧ userinit.run (boot m) = .ok ((), s)

theorem Loaded.init {s : Kernel} (h : Loaded s) : Init s := by
  rcases h with ⟨m, hm, -, hrun⟩
  exact ⟨m, hm, hrun⟩

end Xv6.Thread
