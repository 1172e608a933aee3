import Xv6.Mlfq.Proc

/-!
# The MLFQ scheduler of Project01: processes and the scheduler loop

One CPU. A step is a section of kernel code that runs without preemption: a
system call or a part of one that holds `ptable.lock`, an interrupt handler, or
one pass of `scheduler()` up to its context switch. The section that leads back
into the scheduler (`sched()`, called by `yield`, `sleep` and `exit`) includes
what `scheduler()` does after `swtch` returns, so a step that gives up the CPU
ends at the head of the scheduler loop.

`next` is the step function and `userinit` the state the runs start in. An event
says which system call the running process makes or which interrupt arrives, and
carries the arguments; all orders of events are runs, so user programs are
arbitrary. A path that ends in `panic` has no next state. More than one CPU is the
subject of `Mlfq.Smp`.
-/

namespace Xv6.Mlfq

open Xv6.Lib

/-! ## Wakeups -/

def wakeup1 (s : St) (chan : Chan) : St :=
  { s with proc := fun p =>
      if (s.proc p).state = .SLEEPING ∧ (s.proc p).chan = chan then
        { s.proc p with state := .RUNNABLE }
      else s.proc p }

/-- The slot a search of `ptable.proc[]` from its start finds first. -/
def firstProc (s : St) (P : Proc → Bool) : Option Pidx :=
  (List.finRange NPROC).find? fun p => P (s.proc p)

def kill (s : St) (pid : Int) : St :=
  match firstProc s fun p => p.pid = pid with
  | none => s
  | some i =>
      s.setProc i fun p =>
        { p with
          killed := true
          state := if p.state = .SLEEPING then .RUNNABLE else p.state }

/-! ## The scheduler loop -/

/-- The loop over `lv` from 0 to 2: the first level with a process to run. -/
def pickLevel (s : St) : Option (Pidx × Nat) × St :=
  match pickProc s 0 with
  | (some p, s) => (some (p, 0), s)
  | (none, s) =>
      match pickProc s 1 with
      | (some p, s) => (some (p, 1), s)
      | (none, s) =>
          match pickProc s 2 with
          | (some p, s) => (some (p, 2), s)
          | (none, s) => (none, s)

/-- Switch to process `p`. If it was asleep, the first thing it does, still
under `ptable.lock`, is `p->chan = 0`. -/
def dispatch (s : St) (p : Pidx) (lv : Nat) : St :=
  { s.setProc p fun q => { q with state := .RUNNING, chan := .null } with cpu := some (p, lv) }

/-- One pass of `scheduler()` up to `swtch`. The dictator is taken as it is,
whatever its state; `ptable.proc[-1]` is outside the model. -/
def schedule (s : St) : Option St :=
  if s.is_dictated then s.scheduler_dictator.map fun d => dispatch s d 0
  else
    match pickLevel s with
    | (some (p, lv), s) => some (dispatch s p lv)
    | (none, s) => some s

/-- The "Feedback" part of `scheduler()`: charge process `p`, picked from level
`lv`, for its turn and put it back in a queue. -/
def requeue (s : St) (p : Pidx) (lv : Nat) : St :=
  let s := s.setProc p fun q => { q with consumed_tq := (q.consumed_tq + 1) % 2 ^ 32 }
  if s.is_dictated then s
  else
    let full : Bool := (s.proc p).consumed_tq ≥ lv * 2 + 4
    let lv' := if full then (if lv + 1 < 2 then lv + 1 else 2) else lv
    let s :=
      if full then
        s.setProc p fun q =>
          { q with
            priority := if lv = 2 then (if q.priority - 1 ≥ 0 then q.priority - 1 else 0)
              else q.priority
            qlv := lv'
            consumed_tq := 0 }
      else s
    if (s.proc p).state ≠ .ZOMBIE then enQ s lv' p else s

/-- The rest of the pass, once process `p` has given up the CPU. -/
def feedback (s : St) (p : Pidx) (lv : Nat) : St :=
  let s := requeue s p lv
  let s := if s.global_ticks ≥ 100 then priorityBoost { s with global_ticks := 0 } else s
  { s with cpu := none }

/-- `sched()` by process `p` in state `st`. -/
def sched (s : St) (p : Pidx) (lv : Nat) (st : ProcState) : St :=
  feedback (s.setProc p fun q => { q with state := st }) p lv

def sleep (s : St) (p : Pidx) (lv : Nat) (chan : Chan) : St :=
  sched (s.setProc p fun q => { q with chan := chan }) p lv .SLEEPING

/-! ## System calls of the running process `p` -/

/-- `allocproc` up to the release of `ptable.lock`. -/
def allocproc (s : St) : Option (Pidx × St) :=
  (firstProc s fun p => p.state = .UNUSED).map fun np =>
    (np, { s.setProc np fun q => { q with state := .EMBRYO, pid := s.nextpid } with
      nextpid := s.nextpid + 1 })

/-- `fork` up to the point where the new slot has been allocated. -/
def forkAlloc (s : St) (p : Pidx) : St :=
  match allocproc s with
  | none => s
  | some (np, s) => s.setKont p (.fork np)

/-- `kalloc` or `copyuvm` has failed: the slot is given back, `fork` returns -1. -/
def forkFail (s : St) (p np : Pidx) : St :=
  (s.setProc np fun q => { q with state := .UNUSED }).setKont p .user

/-- The last section of `fork`. -/
def forkDone (s : St) (p np : Pidx) : St :=
  let s := s.setProc np fun q =>
    { q with parent := some p, state := .RUNNABLE, priority := 3, qlv := 0, consumed_tq := 0 }
  ((enQ s 0 np).setKont p .user).setKont np .user

/-- `exit` up to its last section; `panic("init exiting")` stops the system. -/
def exitBegin (s : St) (p : Pidx) : Option St :=
  if p = s.initproc then none else some (s.setKont p .exit)

/-- The loop of `exit` that passes the children of `p` to init. -/
def passChildren (s : St) (p : Pidx) : St :=
  (List.finRange NPROC).foldl
    (fun s c =>
      if (s.proc c).parent = some p then
        let s := s.setProc c fun q => { q with parent := some s.initproc }
        if (s.proc c).state = .ZOMBIE then wakeup1 s (.proc s.initproc) else s
      else s) s

/-- The last section of `exit`, from `acquire(&ptable.lock)` to `sched()`. -/
def exitEnd (s : St) (p : Pidx) (lv : Nat) : St :=
  let s := wakeup1 s (match (s.proc p).parent with
    | some q => .proc q
    | none => .null)
  let s := passChildren s p
  let s :=
    if s.scheduler_dictator = some p then
      { s with is_dictated := false, scheduler_dictator := none }
    else s
  sched s p lv .ZOMBIE

/-- One round of the loop of `wait`. -/
def wait (s : St) (p : Pidx) (lv : Nat) : St :=
  match firstProc s fun q => q.parent = some p ∧ q.state = .ZOMBIE with
  | some c =>
      (s.setProc c fun q =>
        { q with pid := 0, parent := none, killed := false, state := .UNUSED }).setKont p .user
  | none =>
      if (firstProc s fun q => q.parent = some p) = none ∨ (s.proc p).killed then
        s.setKont p .user
      else sleep (s.setKont p .wait) p lv (.proc p)

/-- The search of `setPriority`: the queue is rotated until the process with
`pid` has come by, or once round. -/
def findPid (s : St) (lv : Nat) (pid : Int) : Nat → Option Pidx × St
  | 0 => (none, s)
  | n + 1 =>
      match deQ s lv with
      | (none, s) => (none, s)
      | (some idx, s) =>
          let s := enQ s lv idx
          if (s.proc idx).pid ≠ pid then findPid s lv pid n else (some idx, s)

/-- The loop of `setPriority` over the levels. -/
def findPidLevels (s : St) (pid : Int) : Option Pidx × St :=
  match findPid s 0 pid (s.mlfq 0).size with
  | (some i, s) => (some i, s)
  | (none, s) =>
      match findPid s 1 pid (s.mlfq 1).size with
      | (some i, s) => (some i, s)
      | (none, s) => findPid s 2 pid (s.mlfq 2).size

def setPriority (s : St) (pid priority : Int) : St :=
  let r := findPidLevels s pid
  if priority < 0 ∨ priority > 4 then r.2
  else
    match r.1 with
    | none => r.2
    | some i => r.2.setProc i fun q => { q with priority := priority }

def schedulerLock (s : St) (p : Pidx) (password : Int) : Option St :=
  if s.is_dictated then exitBegin { s with scheduler_dictator := none, is_dictated := false } p
  else if password ≠ PASSWORD then exitBegin s p
  else
    some ({ s with global_ticks := 0, scheduler_dictator := some p, is_dictated := true }.setProc p
      fun q => { q with consumed_tq := 0, qlv := -1 })

def schedulerUnlock (s : St) (p : Pidx) (password : Int) : Option St :=
  if password ≠ PASSWORD then exitBegin s p
  else if ¬ s.is_dictated ∨ s.scheduler_dictator ≠ some p then some s
  else
    let s := s.setProc p fun q => { q with priority := 3, qlv := 0, consumed_tq := 0 }
    some { enQFront s p with scheduler_dictator := none, is_dictated := false }

/-! ## Steps -/

inductive Act where
  /-- the scheduler makes its next pass -/
  | schedule
  /-- a timer interrupt -/
  | tick
  /-- `wakeup(chan)` by a system call or an interrupt handler -/
  | wakeup (chan : Chan)
  | yield
  | sleep (chan : Chan)
  | kill (pid : Int)
  | forkAlloc
  | forkFail
  | forkDone
  | exitBegin
  | exitEnd
  | wait
  | setPriority (pid priority : Int)
  | schedulerLock (password : Int)
  | schedulerUnlock (password : Int)
deriving DecidableEq, Repr

/-- What process `p`, on the CPU, can do next. A preempted `fork` or `exit` goes
on where it stopped; `wait` is resumed at the head of its loop. -/
def nextRunning (s : St) (p : Pidx) (lv : Nat) : Act → Option St
  | .schedule => none
  | .tick => some { s with global_ticks := (s.global_ticks + 1) % 2 ^ 32 }
  | .wakeup chan => some (wakeup1 s chan)
  | .yield => if s.kont p = .wait then none else some (sched s p lv .RUNNABLE)
  | .sleep chan =>
      match s.kont p with
      | .user | .exit => some (sleep s p lv chan)
      | _ => none
  | .kill pid => if s.kont p = .user then some (kill s pid) else none
  | .forkAlloc => if s.kont p = .user then some (forkAlloc s p) else none
  | .forkFail =>
      match s.kont p with
      | .fork np => some (forkFail s p np)
      | _ => none
  | .forkDone =>
      match s.kont p with
      | .fork np => some (forkDone s p np)
      | _ => none
  | .exitBegin => if s.kont p = .user then exitBegin s p else none
  | .exitEnd => if s.kont p = .exit then some (exitEnd s p lv) else none
  | .wait =>
      match s.kont p with
      | .user | .wait => some (wait s p lv)
      | _ => none
  | .setPriority pid priority =>
      if s.kont p = .user then some (setPriority s pid priority) else none
  | .schedulerLock password => if s.kont p = .user then schedulerLock s p password else none
  | .schedulerUnlock password => if s.kont p = .user then schedulerUnlock s p password else none

/-- One step of the machine. At the head of the scheduler loop only the
scheduler itself and interrupt handlers run. -/
def next (s : St) (a : Act) : Option St :=
  match s.cpu with
  | some (p, lv) => nextRunning s p lv a
  | none =>
      match a with
      | .schedule => schedule s
      | .tick => some { s with global_ticks := (s.global_ticks + 1) % 2 ^ 32 }
      | .wakeup chan => some (wakeup1 s chan)
      | _ => none

/-! ## The initial state -/

/-- `ptable` and the rings before `userinit`. -/
def boot : St where
  proc := fun _ => ⟨.UNUSED, 0, none, .null, false, 0, 0, 0⟩
  kont := fun _ => .user
  mlfq := fun _ => ⟨fun _ => ⟨0, by decide⟩, 0, 0, 0⟩
  nextpid := 1
  initproc := ⟨0, by decide⟩
  global_ticks := 0
  scheduler_dictator := none
  is_dictated := false
  cpu := none
  overwrote := false

/-- `userinit`: the first process, in slot 0. -/
def userinit : St :=
  match allocproc boot with
  | none => boot
  | some (p, s) =>
      let s := s.setProc p fun q =>
        { q with state := .RUNNABLE, priority := 3, qlv := 0, consumed_tq := 0 }
      enQ { s with initproc := p } 0 p

def Init (s : St) : Prop := s = userinit

end Xv6.Mlfq
