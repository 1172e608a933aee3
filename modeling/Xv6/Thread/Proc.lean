import Mathlib.Data.List.FinRange
import Xv6.Lib.Ring
import Xv6.Thread.Vm

/-!
# Processes and threads of Project02

`proc.c`: a process is "a cloth for threads". `ptable.proc[]` holds what the
threads of a process share and the variables of the thread that wears it;
`pthread_table.pthread[]` holds the variables of the threads that do not run.
Every function below runs with the table locks held on one CPU, so it is not
interrupted. Left out are open files, names and the contents of registers,
kernel stacks and user pages.

Code is a `Prog` on the state `Kernel` that stops with a `Stop`: a panic, a null
pointer that is followed, or the loss of the stack that it runs on. A call that
goes to sleep or ends its thread returns an `Outcome` that says so, and where it
goes on is kept for the slot (`Cont`), in place of a kernel stack. Words are
numbers, with `% 2 ^ 32` where the source can overflow. The locks themselves are in
`Thread.Spinlock` and `Thread.Sched`, the bytes of pages in `Thread.Program`.
-/

namespace Xv6.Thread

open Xv6.Lib

/-! ## Data -/

def NPROC : Nat := 64
def NTHRD : Nat := 256
def KSTACKSIZE : Nat := 4096
def MAINTH : Nat := 1

instance : NeZero NPROC := ⟨by decide⟩
instance : NeZero NTHRD := ⟨by decide⟩

/-- A `struct proc*` that is not null. -/
abbrev Pidx := Fin NPROC

/-- A `struct pthread_t*` that is not null. -/
abbrev Tidx := Fin NTHRD

inductive ProcState
  | UNUSED | EMBRYO | SLEEPING | RUNNABLE | RUNNING | ZOMBIE | THZOMBIE
  deriving DecidableEq

/-- A sleep channel: an address, often that of a thread slot. -/
inductive Chan
  | null
  | pthread (i : Tidx)
  | other (n : Nat)
  deriving DecidableEq

/-- A pointer to a thread slot as a channel. -/
def chanOf : Option Tidx → Chan
  | none => .null
  | some i => .pthread i

/-- A saved `struct context`: where it lies, and the `ebp` in it. -/
structure Context where
  ptr : Nat
  ebp : Nat
  deriving DecidableEq

/-- `struct proc`. `freed_sz` is the queue in `freed_sz[]`, `front`, `back` and
`freed`; a cell outside the queue is never read, and is not cleared here. -/
structure Proc where
  pgdir : Option PageDir
  parent_proc : Option Pidx
  parent_pthread : Option Tidx
  memlimit : Nat
  thread_assign : Nat
  stacksz : Nat
  freed_sz : Ring Nat NTHRD
  pid : Nat
  sz : Nat
  main_thread_idx : Tidx
  th_sz : Nat
  kstack : Nat
  state : ProcState
  chan : Chan
  tf : Nat
  context : Context
  killed : Bool
  thread_id : Nat
  joiner_pthread : Option Tidx
  thread_idx : Tidx

/-- `struct pthread_t`. -/
structure Pthread where
  th_sz : Nat
  pid : Nat
  kstack : Nat
  state : ProcState
  chan : Chan
  tf : Nat
  context : Context
  ptable_idx : Pidx
  thread_id : Nat
  joiner_pthread : Option Tidx
  retval : Nat

/-- Where a thread stands that does not run. -/
inductive Cont
  /-- in user code -/
  | user
  /-- in a system call that is not one of this file -/
  | sleep
  /-- in the `sleep` of `thread_join(t)` -/
  | join (t : Nat)
  /-- in the `sleep` of `wait` -/
  | wait
  deriving DecidableEq

structure Kernel where
  proc : Pidx → Proc
  pthread : Tidx → Pthread
  nextpid : Nat
  initproc : Pidx
  kmem : Kmem
  cont : Tidx → Cont

/-- Kernel code. -/
abbrev M (α : Type) := Prog Stop Kernel α

namespace Kernel

/-- Assign to fields of `ptable.proc[p]`. -/
def setProc (s : Kernel) (p : Pidx) (f : Proc → Proc) : Kernel :=
  { s with proc := Function.update s.proc p (f (s.proc p)) }

/-- Assign to fields of `pthread_table.pthread[i]`. -/
def setTh (s : Kernel) (i : Tidx) (f : Pthread → Pthread) : Kernel :=
  { s with pthread := Function.update s.pthread i (f (s.pthread i)) }

def setCont (s : Kernel) (i : Tidx) (k : Cont) : Kernel :=
  { s with cont := Function.update s.cont i k }

def setKmem (s : Kernel) (m : Kmem) : Kernel := { s with kmem := m }

end Kernel

def setProc (p : Pidx) (f : Proc → Proc) : M Unit := modify fun s => s.setProc p f

def setTh (i : Tidx) (f : Pthread → Pthread) : M Unit := modify fun s => s.setTh i f

def setCont (i : Tidx) (k : Cont) : M Unit := modify fun s => s.setCont i k

def halt {α : Type} (msg : String) : M α := throw (.panic msg)

/-- Run code that works on the free list. -/
def onKmem {α : Type} (x : KM α) : M α := fun s =>
  match x s.kmem with
  | .ok (a, m) => .ok (a, s.setKmem m)
  | .error e => .error e

/-- `uint` arithmetic. -/
def toUint (n : Int) : Nat := (n % 2 ^ 32).toNat

/-! ## Slots -/

/-- The first `th` of the pthread table that `f` accepts. -/
def findTh (f : Tidx → Bool) : Option Tidx := (List.finRange NTHRD).find? f

/-- The first `p` of the process table that `f` accepts. -/
def findProc (f : Pidx → Bool) : Option Pidx := (List.finRange NPROC).find? f

def SIZEOF_TRAPFRAME : Nat := 76
def SIZEOF_CONTEXT : Nat := 20

/-- Where the trap frame and the context of a new kernel stack lie. The context
is zero but for its `eip`. -/
def tfAt (kstack : Nat) : Nat := kstack + KSTACKSIZE - SIZEOF_TRAPFRAME
def contextAt (kstack : Nat) : Context := ⟨tfAt kstack - 4 - SIZEOF_CONTEXT, 0⟩

def allocthread : M (Option Tidx) := do
  let s ← get
  match findTh fun i => (s.pthread i).state = .UNUSED with
  | none => return none
  | some th => do
      setTh th fun t => { t with state := .EMBRYO }
      match ← onKmem kalloc with
      | none => do
          setTh th fun t => { t with kstack := 0, state := .UNUSED }
          return none
      | some k => do
          setTh th fun t =>
            { t with kstack := k, tf := tfAt k, context := contextAt k, retval := 0 }
          return some th

/-- An empty `freed_sz` queue. -/
def noFreed : Ring Nat NTHRD := ⟨fun _ => 0, 0, 0, 0⟩

def allocproc : M (Option Pidx) := do
  let s ← get
  match findProc fun p => (s.proc p).state = .UNUSED with
  | none => return none
  | some p => do
      match ← allocthread with
      | none => return none
      | some th => do
          let s ← get
          let k := (s.pthread th).kstack
          set { s with nextpid := s.nextpid + 1 }
          setProc p fun x => { x with state := .EMBRYO, pid := s.nextpid, kstack := k }
          setTh th fun t => { t with pid := s.nextpid }
          if k = 0 then
            setProc p fun x => { x with state := .UNUSED }
            return none
          setProc p fun x =>
            { x with
              tf := tfAt k, context := contextAt k
              sz := 0, memlimit := 0, thread_assign := 1
              thread_idx := th, thread_id := MAINTH, main_thread_idx := th, stacksz := 1
              freed_sz := noFreed, parent_proc := none, parent_pthread := none
              joiner_pthread := some th }
          return some p

/-- Do I really need ptable_idx? -/
def mvProcToThread (p : Pidx) (th : Tidx) : M Unit := do
  let s ← get
  let x := s.proc p
  setTh th fun t =>
    { t with
      th_sz := x.th_sz, pid := x.pid, kstack := x.kstack, state := x.state, chan := x.chan
      tf := x.tf, context := x.context, thread_id := x.thread_id
      joiner_pthread := x.joiner_pthread, ptable_idx := p }

def clearProc (p : Pidx) : M Unit :=
  setProc p fun x =>
    { x with state := if x.state ≠ .ZOMBIE then .RUNNABLE else x.state, chan := .null }

def mvThreadToProc (th : Tidx) (p : Pidx) : M Unit := do
  let s ← get
  let t := s.pthread th
  setProc p fun x =>
    { x with
      th_sz := t.th_sz, pid := t.pid, kstack := t.kstack, state := t.state, chan := t.chan
      tf := t.tf, context := t.context, thread_id := t.thread_id
      joiner_pthread := t.joiner_pthread, thread_idx := th }

/-! ## Sleeping -/

/-- `wakeup1` on the pthread table. -/
def wake (c : Chan) (t : Pthread) : Pthread :=
  if t.state = .SLEEPING ∧ t.chan = c then { t with state := .RUNNABLE } else t

def wakeup1 (c : Chan) : M Unit := modify fun s =>
    { s with pthread := fun i => wake c (s.pthread i) }

/-- How a call ends: it returns to user code, or control goes to the scheduler
and the thread will go on at `k`. -/
inductive Outcome
  | ret (r : Int)
  | switch (k : Cont)
  deriving DecidableEq

/-- The check of `sched` that does not concern locks or interrupts. -/
def sched (p : Pidx) : M Unit := do
  let s ← get
  if (s.proc p).state = .RUNNING then halt "sched running"

/-- `sleep`, up to the switch. -/
def sleep (p : Pidx) (c : Chan) (k : Cont) : M Outcome := do
  setProc p fun x => { x with chan := c, state := .SLEEPING }
  sched p
  return .switch k

/-! ## Memory -/

def switchuvm (p : Pidx) : M Unit := do
  let s ← get
  if (s.proc p).kstack = 0 then halt "switchuvm: no kstack"
  if (s.proc p).pgdir.isNone then halt "switchuvm: no pgdir"

/-- `curproc->pgdir`, about to be followed. -/
def getPgdir (p : Pidx) : M PageDir := do
  let s ← get
  match (s.proc p).pgdir with
  | none => throw .fault
  | some pd => return pd

def setPgdir (p : Pidx) (pd : PageDir) : M Unit := setProc p fun x => { x with pgdir := some pd }

/-- A request for `n` bytes in all is above the memory limit. -/
def overLimit (x : Proc) (n : Nat) : Bool := x.memlimit ≠ 0 && x.memlimit < n

def growproc (p : Pidx) (n : Int) : M Int := do
  let s ← get
  let x := s.proc p
  let newsz := toUint (x.sz + n)
  if overLimit x newsz then return -1
  let pd ← getPgdir p
  let (pd, sz) ← onKmem <|
    if n > 0 then allocuvm pd x.sz newsz
    else if n < 0 then deallocuvm pd x.sz newsz
    else pure (pd, x.sz)
  setPgdir p pd
  if n ≠ 0 ∧ sz = 0 then return -1
  setProc p fun x => { x with sz := sz }
  switchuvm p
  return x.sz

/-! ## Threads -/

/-- `pthread_fork`: fork used thread. -/
def pthread_fork (p : Pidx) : M (Option Tidx) := do
  match ← allocthread with
  | none => return none
  | some nth => do
      setProc p fun x => { x with thread_assign := (x.thread_assign + 1) % 2 ^ 32 }
      let s ← get
      setTh nth fun t =>
        { t with pid := (s.proc p).pid, thread_id := (s.proc p).thread_assign, ptable_idx := p }
      return some nth

/-- The size of a thread's stack with its guard page. -/
def stackBytes (x : Proc) : Nat := (x.stacksz + 1) * PGSIZE

/-- Where `pthread_exec` puts the next stack. -/
def stackBase (x : Proc) : Nat :=
  PGROUNDUP (if x.freed_sz.size ≠ 0 then x.freed_sz.cell x.freed_sz.front else x.sz)

/-- `pthread_exec`; false stands for -1. -/
def pthread_exec (p : Pidx) (th : Tidx) : M Bool := do
  let s ← get
  let x := s.proc p
  let base := stackBase x
  if overLimit x (toUint (base + stackBytes x)) then return false
  let pd ← getPgdir p
  let (pd, sz) ← onKmem (allocuvm pd base (toUint (base + stackBytes x)))
  setPgdir p pd
  if sz = 0 then return false
  let pd ← onKmem (clearpteu pd (toUint (sz - stackBytes x) / PGSIZE))
  setPgdir p pd
  let sp := toUint (sz - 8)
  if (← onKmem (copyout pd sp 8)) = false then return false
  match x.freed_sz.pop with
  | some (_, q) => setProc p fun x => { x with freed_sz := q }
  | none => setProc p fun x => { x with sz := sz }
  setTh th fun t => { t with th_sz := sz }
  return true

/-- `thread_create`; the result is the `*thread` of a successful call. -/
def thread_create (p : Pidx) : M (Option Nat) := do
  match ← pthread_fork p with
  | none => return none
  | some th => do
      if (← pthread_exec p th) = false then
        setTh th fun t => { t with state := .UNUSED }
        return none
      let s ← get
      let x := s.proc p
      setTh th fun t =>
        { t with
          pid := x.pid, state := .RUNNABLE, ptable_idx := p
          joiner_pthread := some x.thread_idx }
      setCont th .user
      return some (s.pthread th).thread_id

def kill (pid : Int) : M Int := do
  let s ← get
  match findProc fun p => (s.proc p).pid = pid with
  | none => return -1
  | some p => do
      setProc p fun x =>
        { x with killed := true, state := if x.state = .SLEEPING then .RUNNABLE else x.state }
      modify fun s => { s with
        pthread := fun i =>
          let t := s.pthread i
          if t.pid = pid then
            { t with state := if t.thread_id = MAINTH then .RUNNABLE else .THZOMBIE }
          else t }
      return 0

def thread_exit (p : Pidx) (retval : Nat) : M Outcome := do
  let s ← get
  let x := s.proc p
  if x.thread_id = MAINTH then
    let _ ← kill x.pid
  else
    setTh x.thread_idx fun t => { t with retval := retval }
    setProc p fun x => { x with state := .THZOMBIE }
  wakeup1 (chanOf x.joiner_pthread)
  sched p
  return .switch .user

/-- `th->joiner_pthread->thread_id`. Where the pointer is null this is a word of
the caller's page 0, `w`. -/
def joinerId (s : Kernel) (w : Nat) (t : Pthread) : Nat :=
  match t.joiner_pthread with
  | some j => (s.pthread j).thread_id
  | none => w

/-- The scan of `thread_join(t)`, called by thread `id` of process `pid`, does
not pass over `i`. -/
def mayJoin (s : Kernel) (pid id t w : Nat) (i : Tidx) : Bool :=
  (s.pthread i).pid = pid ∧ (s.pthread i).thread_id = t ∧ joinerId s w (s.pthread i) = id

/-- The base of the stack of a thread of process `x` that ends at `th_sz`. -/
def baseOf (x : Proc) (th_sz : Nat) : Nat := toUint (th_sz - stackBytes x)

/-- `kfree` of the kernel stack `v` by the thread that wears process `p`. `kfree` fills the
page with junk, so a thread does not get back from freeing its own stack. -/
def kfreeStack (p : Pidx) (v : Nat) : M Unit := do
  onKmem (kfree v)
  let s ← get
  if (s.proc p).kstack = v then throw .stack

/-- The part of `thread_join` that takes a terminated thread apart. -/
def reapThread (p : Pidx) (i : Tidx) : M Nat := do
  let s ← get
  let t := s.pthread i
  kfreeStack p t.kstack
  setTh i fun t =>
    { t with
      pid := 0, kstack := 0, state := .UNUSED, chan := .null, ptable_idx := 0, thread_id := 0
      joiner_pthread := none }
  let x := s.proc p
  setProc p fun y => { y with freed_sz := y.freed_sz.push (baseOf x t.th_sz) }
  let pd ← getPgdir p
  let (pd, _) ← onKmem (deallocuvm pd t.th_sz (baseOf x t.th_sz))
  setPgdir p pd
  setTh i fun t => { t with th_sz := 0 }
  return t.retval

/-- One pass of the loop of `thread_join`. -/
def joinScan (p : Pidx) (t w : Nat) : M Outcome := do
  let s ← get
  let x := s.proc p
  let child := mayJoin s x.pid x.thread_id t w
  match findTh fun i => child i ∧ (s.pthread i).state = .THZOMBIE with
  | some i => do
      let _ ← reapThread p i
      return .ret 0
  | none => do
      if (findTh child).isNone ∨ x.killed = true then return .ret (-1)
      sleep p (chanOf x.joiner_pthread) (.join t)

def thread_join (p : Pidx) (t w : Nat) : M Outcome := do
  if t = MAINTH then return .ret (-1)
  joinScan p t w

/-! ## Processes -/

/-- One turn of the loop of `fork` that copies threads; false ends the loop. The copy of
a thread that has never been switched out starts in user mode, as that one does. The
copy of one that has been gets its `ebp`, and so goes on with the frames of the thread
and as its process; here it goes on in a call of its own. `OnOwnStack` and `CopiesApart`
tell the two kinds apart. -/
def forkThread (p np : Pidx) (th : Tidx) : M Bool := do
  let s ← get
  let t := s.pthread th
  if t.pid ≠ (s.proc p).pid ∨ t.thread_id = MAINTH then return true
  match ← allocthread with
  | none => do
      setProc np fun x => { x with killed := true }
      return false
  | some nth => do
      let s ← get
      let t := s.pthread th
      setTh nth fun u =>
        { u with
          th_sz := t.th_sz, pid := (s.proc np).pid, state := t.state, chan := t.chan
          context := { u.context with ebp := t.context.ebp }
          ptable_idx := np, thread_id := t.thread_id
          joiner_pthread := some (s.proc np).main_thread_idx, retval := t.retval }
      setCont nth (s.cont th)
      return true

def forkThreads (p np : Pidx) : List Tidx → M Bool
  | [] => return true
  | th :: ths => do
      if (← forkThread p np th) = false then return false
      forkThreads p np ths

def fork (p : Pidx) : M Int := do
  match ← allocproc with
  | none => return -1
  | some np => do
      let s ← get
      let x := s.proc p
      let pd ← getPgdir p
      match ← onKmem (copyuvm pd x.sz) with
      | none => do
          onKmem (kfree (s.proc np).kstack)
          setProc np fun y => { y with pgdir := none, kstack := 0, state := .UNUSED }
          return -1
      | some d => do
          setProc np fun y =>
            { y with
              pgdir := some d, parent_proc := some p, parent_pthread := some x.thread_idx
              sz := x.sz, memlimit := x.memlimit, thread_assign := x.thread_assign
              stacksz := x.stacksz, th_sz := x.th_sz, state := .RUNNABLE, chan := x.chan
              killed := x.killed, thread_id := x.thread_id, freed_sz := x.freed_sz }
          let nth := (s.proc np).thread_idx
          setCont nth .user
          -- Only fork() thread.
          if x.thread_id ≠ MAINTH then
            setProc np fun y =>
              { y with
                thread_assign := 1, thread_id := MAINTH, joiner_pthread := some x.thread_idx }
            mvProcToThread np nth
            clearProc np
            return x.pid
          mvProcToThread np nth
          -- Copy Threads.
          if (← forkThreads p np (List.finRange NTHRD)) = false then return -1
          return (s.proc np).pid

/-- Pass abandoned children to init. -/
def adopt (p initproc : Pidx) (c : Option Tidx) (x : Proc) : Proc :=
  if x.parent_proc = some p then { x with parent_proc := some initproc, parent_pthread := c } else x

def exit (p : Pidx) : M Outcome := do
  let s ← get
  if p = s.initproc then halt "init exiting"
  wakeup1 (chanOf (s.proc p).parent_pthread)
  let c := (s.proc s.initproc).parent_pthread
  if (findProc fun q => (s.proc q).parent_proc = some p ∧ (s.proc q).state = .ZOMBIE).isSome then
    wakeup1 (chanOf c)
  modify fun s => { s with proc := fun q => adopt p s.initproc c (s.proc q) }
  setProc p fun x => { x with state := .ZOMBIE }
  modify fun s => { s with
    pthread := fun i =>
      let t := s.pthread i
      if t.pid = (s.proc p).pid then { t with state := .THZOMBIE } else t }
  sched p
  return .switch .user

/-- delete Thread; the caller wears process `p`. -/
def deleteThread (p : Pidx) (th : Tidx) : M Unit := do
  let s ← get
  kfreeStack p (s.pthread th).kstack
  setTh th fun t =>
    { t with
      th_sz := 0, pid := 0, kstack := 0, state := .UNUSED, chan := .null, ptable_idx := 0
      thread_id := 0, joiner_pthread := none, retval := 0 }

/-- Release the threads of a list that belong to process `pid`. -/
def reapThreads (p : Pidx) (pid : Nat) : List Tidx → M Unit
  | [] => pure ()
  | th :: ths => do
      let s ← get
      if (s.pthread th).pid = pid then deleteThread p th
      reapThreads p pid ths

/-- What `wait` does with a zombie child. -/
def reapProc (p c : Pidx) : M Unit := do
  let s ← get
  reapThreads p (s.proc c).pid (List.finRange NTHRD)
  match (s.proc c).pgdir with
  | none => halt "freevm: no pgdir"
  | some pd => onKmem (freevm pd)
  setProc c fun x =>
    { x with
      parent_pthread := none, parent_proc := none, joiner_pthread := none, memlimit := 0
      thread_assign := 0, stacksz := 0, pid := 0, thread_idx := 0, sz := 0, state := .UNUSED
      chan := .null, killed := false, thread_id := 0, freed_sz := noFreed }

/-- One pass of the loop of `wait`. -/
def waitScan (p : Pidx) : M Outcome := do
  let s ← get
  let x := s.proc p
  let child := fun c : Pidx => (s.proc c).parent_pthread = some x.thread_idx
  match findProc fun c => child c ∧ (s.proc c).state = .ZOMBIE with
  | some c => do
      reapProc p c
      return .ret (s.proc c).pid
  | none => do
      if (findProc fun c => child c).isNone ∨ x.killed = true then return .ret (-1)
      sleep p (.pthread x.thread_idx) .wait

def setmemorylimit (pid limit : Int) : M Int := do
  if limit < 0 then return -1
  let s ← get
  match findProc fun p => (s.proc p).pid = pid with
  | none => return -1
  | some p => do
      if (s.proc p).sz > limit then return -1
      setProc p fun x => { x with memlimit := limit.toNat }
      return 0

end Xv6.Thread
