import Xv6.Thread.Effect
import Xv6.Thread.Spinlock

/-!
# Entering the scheduler

The calls of Project02 with the locks they take: `pthread_table.lock` before
`ptable.lock`, but for `wait`, which takes only the second. Under the locks the
code is that of the calls themselves. Every way into `sched` is followed from the
scheduler's switch to the thread up to the next switch back.

* the rules of each call say that without the locks it is the call of `Thread.Proc`
  (`reachable_kernel` for whole runs), and with which locks it ends;
* `meets_sched_iff`: in every reachable machine a thread that gives up the CPU,
  in whatever way, holds just what `sched` asks for, exactly if it is no main
  thread that calls `thread_exit`;
* `main_exit_panics`: one that does.

A service of the scheduler is a whole time slice. Left out by `Service.Enabled` are
threads that stand on the stack of another one, as a copy does that `fork` of a main
thread has made of a sibling that had been switched out: they would go on with the
frames and the process of that sibling.
-/

namespace Xv6.Thread.Sched

open Xv6.Lib Prog

/-! ## proc.c -/

/-- `sched`, up to the switch. -/
def sched (p : Pidx) : LM Unit := do
  if (← holding .ptable) = false then throw (.sched .ptable)
  let m ← get
  if m.cpu.ncli ≠ 1 then throw (.sched .locks)
  if (m.kernel.proc p).state = .RUNNING then throw (.sched .running)
  if m.cpu.FL_IF then throw (.sched .interruptible)

/-- `yield`, up to the switch. -/
def yield (p : Pidx) : LM Unit := do
  acquire .ptable
  lift (setProc p fun x => { x with state := .RUNNABLE })
  sched p

/-- `sleep`, up to the switch. -/
def sleep (p : Pidx) (c : Chan) (lk : Spin) : LM Unit := do
  if lk ≠ .ptable then
    acquire .ptable
    release lk
  lift (setProc p fun x => { x with chan := c, state := .SLEEPING })
  sched p

/-- The rest of `sleep`. -/
def awake (p : Pidx) (lk : Spin) : LM Unit := do
  lift (setProc p fun x => { x with chan := .null })
  if lk ≠ .ptable then
    release .ptable
    acquire lk

def wakeup (c : Chan) : LM Unit := do
  acquire .ptable
  lift (wakeup1 c)
  release .ptable

def kill (pid : Int) : LM Int := do
  acquire .ptable
  let r ← lift (Thread.kill pid)
  release .ptable
  return r

def thread_exit (p : Pidx) (retval : Nat) : LM Outcome := do
  acquire .pthread_table
  let m ← get
  let x := m.kernel.proc p
  if x.thread_id = MAINTH then
    let _ ← kill x.pid
  else
    lift (setTh x.thread_idx fun t => { t with retval := retval })
    lift (setProc p fun x => { x with state := .THZOMBIE })
  acquire .ptable
  release .pthread_table
  lift (wakeup1 (chanOf x.joiner_pthread))
  sched p
  return .switch .user

/-- What `exit` does under the locks. -/
def exitLocked (p : Pidx) : M Unit := do
  let s ← get
  wakeup1 (chanOf (s.proc p).parent_pthread)
  let c := (s.proc s.initproc).parent_pthread
  if (findProc fun q => (s.proc q).parent_proc = some p ∧ (s.proc q).state = .ZOMBIE).isSome then
    wakeup1 (chanOf c)
  modify fun s => { s with proc := fun q => adopt p s.initproc c (s.proc q) }
  setProc p fun x => { x with state := .ZOMBIE }
  modify fun s => { s with
    pthread := fun i =>
      let t := s.pthread i
      if t.pid = (s.proc p).pid then { t with state := .THZOMBIE } else t }

def exit (p : Pidx) : LM Outcome := do
  if p = (← get).kernel.initproc then lift (halt "init exiting")
  acquire .pthread_table
  acquire .ptable
  lift (exitLocked p)
  release .pthread_table
  sched p
  return .switch .user

/-- One pass of the loop of `thread_join`. -/
def joinScan (p : Pidx) (t w : Nat) : LM Outcome := do
  let s := (← get).kernel
  let x := s.proc p
  let child := mayJoin s x.pid x.thread_id t w
  match findTh fun i => child i ∧ (s.pthread i).state = .THZOMBIE with
  | some i => do
      let _ ← lift (reapThread p i)
      release .pthread_table
      return .ret 0
  | none => do
      if (findTh child).isNone ∨ x.killed = true then
        release .pthread_table
        return .ret (-1)
      sleep p (chanOf x.joiner_pthread) .pthread_table
      return .switch (.join t)

def thread_join (p : Pidx) (t w : Nat) : LM Outcome := do
  acquire .pthread_table
  if t = MAINTH then
    release .pthread_table
    return .ret (-1)
  joinScan p t w

/-- One pass of the loop of `wait`. -/
def waitScan (p : Pidx) : LM Outcome := do
  let s := (← get).kernel
  let x := s.proc p
  let child := fun c : Pidx => (s.proc c).parent_pthread = some x.thread_idx
  match findProc fun c => child c ∧ (s.proc c).state = .ZOMBIE with
  | some c => do
      lift (reapProc p c)
      release .ptable
      return .ret (s.proc c).pid
  | none => do
      if (findProc fun c => child c).isNone ∨ x.killed = true then
        release .ptable
        return .ret (-1)
      sleep p (.pthread x.thread_idx) .ptable
      return .switch .wait

def wait (p : Pidx) : LM Outcome := do
  acquire .ptable
  waitScan p

def growproc (p : Pidx) (n : Int) : LM Int := do
  acquire .ptable
  let r ← lift (Thread.growproc p n)
  release .ptable
  return r

def setmemorylimit (pid limit : Int) : LM Int := do
  if limit < 0 then return -1
  acquire .ptable
  let r ← lift (Thread.setmemorylimit pid limit)
  release .ptable
  return r

def allocproc : LM (Option Pidx) := do
  acquire .ptable
  let r ← lift Thread.allocproc
  release .ptable
  return r

/-- What `fork` does with the new process `np` and its page directory `d`, most of
it under both locks. -/
def forkInto (p np : Pidx) (d : PageDir) : M Int := do
  let s ← get
  let x := s.proc p
  setProc np fun y =>
    { y with
      pgdir := some d, parent_proc := some p, parent_pthread := some x.thread_idx
      sz := x.sz, memlimit := x.memlimit, thread_assign := x.thread_assign
      stacksz := x.stacksz, th_sz := x.th_sz, state := .RUNNABLE, chan := x.chan
      killed := x.killed, thread_id := x.thread_id, freed_sz := x.freed_sz }
  let nth := (s.proc np).thread_idx
  setCont nth .user
  -- Only fork() thread.
  if x.thread_id ≠ MAINTH then
    setProc np fun y =>
      { y with
        thread_assign := 1, thread_id := MAINTH, joiner_pthread := some x.thread_idx }
    mvProcToThread np nth
    clearProc np
    return x.pid
  mvProcToThread np nth
  -- Copy Threads.
  if (← forkThreads p np (List.finRange NTHRD)) = false then return -1
  return (s.proc np).pid

def fork (p : Pidx) : LM Int := do
  acquire .pthread_table
  match ← allocproc with
  | none => do
      release .pthread_table
      return -1
  | some np => do
      let s := (← get).kernel
      let pd ← lift (getPgdir p)
      match ← lift (onKmem (copyuvm pd (s.proc p).sz)) with
      | none => do
          lift (onKmem (kfree (s.proc np).kstack))
          lift (setProc np fun y => { y with pgdir := none, kstack := 0, state := .UNUSED })
          release .pthread_table
          return -1
      | some d => do
          acquire .ptable
          let r ← lift (forkInto p np d)
          release .ptable
          release .pthread_table
          return r

/-- What `thread_create` does with the slot `th` under both locks. -/
def createInto (p : Pidx) (th : Tidx) : M (Option Nat) := do
  if (← pthread_exec p th) = false then
    setTh th fun t => { t with state := .UNUSED }
    return none
  let s ← get
  let x := s.proc p
  setTh th fun t =>
    { t with
      pid := x.pid, state := .RUNNABLE, ptable_idx := p
      joiner_pthread := some x.thread_idx }
  setCont th .user
  return some (s.pthread th).thread_id

def thread_create (p : Pidx) : LM (Option Nat) := do
  acquire .pthread_table
  match ← lift (pthread_fork p) with
  | none => do
      release .pthread_table
      return none
  | some th => do
      acquire .ptable
      let r ← lift (createInto p th)
      release .ptable
      release .pthread_table
      return r

/-! ## exec.c -/

/-- `lock` and `unlock`. -/
def lock : LM Unit := acquire .pthread_table
def unlock : LM Unit := release .pthread_table

/-- The user stack of a new image that ends at `sz`; no size stands for
`goto bad`. -/
def stackImage (pd : PageDir) (sz : Nat) (argv : List Nat) (stacksize : Nat) :
    KM (PageDir × Option Nat) := do
  let base := PGROUNDUP sz
  let (pd, sz) ← allocuvm pd base (toUint (base + (stacksize + 1) * PGSIZE))
  if sz = 0 then return (pd, none)
  let pd ← clearpteu pd (toUint (sz - (stacksize + 1) * PGSIZE) / PGSIZE)
  if (← pushStack pd argv sz) = false then return (pd, none)
  return (pd, some sz)

/-- Commit to the user image; the result is the old page directory. -/
def commit (p : Pidx) (pd : PageDir) (sz stacksize : Nat) : M PageDir := do
  deleteThreads p
  let oldpgdir ← getPgdir p
  setProc p fun x =>
    { x with
      freed_sz := noFreed, pgdir := some pd, sz := sz, th_sz := sz, memlimit := 0
      thread_assign := 1, stacksz := stacksize, thread_id := MAINTH
      main_thread_idx := x.thread_idx }
  return oldpgdir

def execWith (p : Pidx) (elf : Option Elf) (argv : List Nat) (stacksize : Nat) : LM Int := do
  match elf with
  | none => return -1
  | some elf => do
      match ← lift (onKmem setupkvm) with
      | none => return -1
      | some pd => do
          match ← lift (onKmem (loadProgram elf.phdrs pd 0)) with
          | (pd, none) => do
              lift (onKmem (freevm pd))
              return -1
          | (pd, some sz) => do
              -- lock the exec().
              lock
              match ← lift (onKmem (stackImage pd sz argv stacksize)) with
              | (pd, none) => do
                  lift (onKmem (freevm pd))
                  unlock
                  return -1
              | (pd, some sz) => do
                  let oldpgdir ← lift (commit p pd sz stacksize)
                  unlock
                  lift (switchuvm p)
                  lift (onKmem (freevm oldpgdir))
                  return 0

def exec (p : Pidx) (elf : Option Elf) (argv : List Nat) : LM Int := execWith p elf argv 1

def exec2 (p : Pidx) (elf : Option Elf) (argv : List Nat) (stacksize : Int) : LM Int := do
  if stacksize < 1 ∨ stacksize > 100 then return -1
  execWith p elf argv stacksize.toNat

/-! ## Turns -/

/-- A call of a turn, with what the tables do not say: the locks of other files that a
system call of theirs takes, and the `intena` that `sched` has kept on the thread's
stack. -/
structure Event extends Label where
  /-- the lock with which the thread went to sleep; none if a timer interrupt took
  the CPU from it -/
  slept : Option Nat
  /-- the lock under which it wakes others -/
  wakes : Option Nat
  /-- the lock with which it goes to sleep -/
  sleeps : Nat
  intena : Bool

/-- A later call of the turn, with the locks of other files that it takes. -/
structure More where
  c : Call
  wakes : Option Nat
  sleeps : Nat

/-- The turn goes on with the call `d`. -/
def Event.more (e : Event) (d : More) : Event :=
  { e with c := d.c, wakes := d.wakes, sleeps := d.sleeps }

/-- A turn: the calls after the first are in `rest`. -/
structure Service extends Event where
  rest : List More

/-- The turn without locks. -/
def Service.slice (e : Service) : Slice := ⟨e.toLabel, e.rest.map More.c⟩

/-- Give back the lock `a` and take the lock `b`, unless they are the same. -/
def swap (a b : Option Nat) : LM Unit := do
  if a ≠ b then
    match a with
    | some n => release (.other n)
    | none => pure ()
    match b with
    | some n => acquire (.other n)
    | none => pure ()

/-- The lock that a thread which stood at `k` has when `sleep` returns. -/
def Event.had (e : Event) : Cont → Option Nat
  | .sleep => e.slept
  | _ => none

/-- `swtch` has come back to a thread that stood at `k`: the rest of `sched` and of
the function that called it, or `forkret`. -/
def resumed (e : Event) (k : Cont) : LM Unit := do
  setCpu fun c => { c with intena := e.intena }
  match k with
  | .user => release .ptable
  | .sleep =>
      match e.slept with
      | some n => awake e.p (.other n)
      | none => do
          lift (setProc e.p fun x => { x with chan := .null })
          release .ptable
  | .join _ => awake e.p .pthread_table
  | .wait => awake e.p .ptable

/-- Go on in a system call that is not one of this file. -/
def inside (e : Event) (k : Cont) (wakes sleeps : Option Chan) : LM Outcome := do
  swap (e.had k) e.wakes
  match wakes with
  | some c => wakeup c
  | none => pure ()
  match sleeps with
  | some c => do
      swap e.wakes (some e.sleeps)
      sleep e.p c (.other e.sleeps)
      return .switch .sleep
  | none => do
      swap e.wakes none
      yield e.p
      return .switch .sleep

/-- Go on after `sleep`. -/
def goOn (e : Event) (k : Cont) (w : Nat) : LM Outcome := do
  match k with
  | .user | .sleep => do
      swap (e.had k) none
      return .ret 0
  | .join t => joinScan e.p t w
  | .wait => waitScan e.p

/-- The call of a thread that stood at `k`. -/
def call (e : Event) (k : Cont) : Call → LM Outcome
  | .yield => return .ret 0
  | .sleep c => do
      acquire (.other e.sleeps)
      sleep e.p c (.other e.sleeps)
      return .switch .sleep
  | .wakeup c => do
      swap none e.wakes
      wakeup c
      swap e.wakes none
      return .ret 0
  | .inside wakes sleeps => inside e k wakes sleeps
  | .thread_create => do
      match ← thread_create e.p with
      | none => return .ret (-1)
      | some _ => return .ret 0
  | .thread_exit retval => thread_exit e.p retval
  | .thread_join t w => thread_join e.p t w
  | .sbrk n => return .ret (← growproc e.p n)
  | .fork => return .ret (← fork e.p)
  | .exit => exit e.p
  | .wait => wait e.p
  | .exec elf argv => return .ret (← exec e.p elf argv)
  | .exec2 elf argv n => return .ret (← exec2 e.p elf argv n)
  | .kill pid => return .ret (← kill pid)
  | .setmemorylimit pid limit => return .ret (← setmemorylimit pid limit)
  | .resume w => goOn e k w

/-- `scheduler`, up to the switch to the thread. -/
def dispatch (e : Event) : LM Unit := do
  sti
  acquire .ptable
  lift (switchTo e.p e.i)

/-- The calls of a turn, from where the thread stood. -/
def calls (e : Event) (k : Cont) : List More → LM (Cont × Outcome)
  | [] => do return (k, ← call e k e.c)
  | d :: ds => do
      match ← call e k e.c with
      | .ret _ => calls (e.more d) .user ds
      | .switch k' => return (k, .switch k')

/-- What the thread does, up to the switch back. In user mode a timer interrupt
takes the CPU from it. -/
def serve (e : Service) (k : Cont) : LM (Cont × Outcome) := do
  resumed e.toEvent k
  match ← calls e.toEvent k e.rest with
  | (k, .ret r) => do
      yield e.p
      return (k, .ret r)
  | (k, .switch k') => return (k, .switch k')

def turn (e : Service) : LM Outcome := do
  let s := (← get).kernel
  dispatch e.toEvent
  let (k, r) ← serve e (s.cont e.i)
  lift (switchFrom e.p e.i (e.saved k (s.pthread e.i) r) r)
  release .ptable
  return r

/-- The thread can be picked, stands on its own stack and copies none that does not. A copy
that `fork` has made of a sibling that had been switched out does not: it would go on with
the frames and the `curproc` of that sibling. -/
def Service.Enabled (s : Kernel) (e : Service) : Prop :=
  e.slice.Enabled s ∧ OnOwnStack s e.i ∧
    Each (fun s _ c => CopiesApart e.p s c) e.p (s.dressed e.p e.i) (s.cont e.i) e.c
      (e.rest.map More.c)

instance (s : Kernel) (e : Service) : Decidable (e.Enabled s) := inferInstanceAs (Decidable (_ ∧ _))

def next (m : Machine) (e : Service) : Option Machine :=
  if e.Enabled m.kernel then
    match (turn e).run m with
    | .ok (_, m') => some m'
    | .error _ => none
  else none

/-- `userinit` has run, and the CPU has no lock. -/
def Start (m : Machine) : Prop := Init m.kernel ∧ Holds [] m.cpu

/-- The call is `thread_exit`, made by a main thread. -/
def EndsMain (p : Pidx) (s : Kernel) (c : Call) : Prop :=
  (∃ retval, c = .thread_exit retval) ∧ (s.proc p).thread_id = MAINTH

/-- No call of the turn is `thread_exit` of a main thread. -/
def SparesMain (s : Kernel) (e : Service) : Prop :=
  Each (fun s _ c => ¬ EndsMain e.p s c) e.p (s.dressed e.p e.i) (s.cont e.i) e.c
    (e.rest.map More.c)

/-! ## What the code between the locks comes to

Each call, from a CPU that holds what the caller holds, ends as the call without
locks does, and no check of `sched` and none of `spinlock.c` fails. -/

variable {s : Kernel} {c : Cpu} {p : Pidx} {α β : Type} {ls : List Spin} {l : Spin}

/-- From `s`, and from a CPU that holds `ls`, `x` ends as `y` does, with the locks
`ls'`. -/
def Does (ls : List Spin) (s : Kernel) (x : LM α) (y : M α) (ls' : α → List Spin) : Prop :=
  ∀ c Q E, Holds ls c → wp y s Q E →
    wp x ⟨s, c⟩ (fun a m => Holds (ls' a) m.cpu ∧ Q a m.kernel)
      fun e => ∃ e0, e = .kernel e0 ∧ E e0

namespace Does

theorem lift (x : M α) : Does ls s (lift x) x fun _ => ls := by
  intro c Q E h hy
  rw [wp_lift]
  exact wp.mono hy (fun a s' hQ => ⟨h, hQ⟩) fun e he => ⟨e, rfl, he⟩

theorem pure (a : α) : Does ls s (pure a) (pure a) fun _ => ls := by
  intro c Q E h hy
  exact (wp_pure ..).2 ⟨h, (wp_pure ..).1 hy⟩

/-- One piece behind the other. -/
theorem bind {x : LM α} {y : M α} {f : α → LM β} {g : α → M β} {ls1 : α → List Spin}
    {ls2 : β → List Spin} (hx : Does ls s x y ls1)
    (hf : ∀ a s', Does (ls1 a) s' (f a) (g a) ls2) : Does ls s (x >>= f) (y >>= g) ls2 := by
  intro c Q E h hy
  rw [wp_bind] at hy ⊢
  refine wp.mono (hx c _ E h hy) ?_ fun e he => he
  rintro a ⟨s', c'⟩ ⟨h', hy'⟩
  exact hf a s' c' Q E h' hy'

/-- What follows need only be as it should from the states that `y` leads to. -/
theorem bind_run {x : LM α} {y : M α} {f : α → LM β} {g : α → M β} {ls1 : α → List Spin}
    {ls2 : β → List Spin} (hx : Does ls s x y ls1)
    (hf : ∀ a s', y.run s = .ok (a, s') → Does (ls1 a) s' (f a) (g a) ls2) :
    Does ls s (x >>= f) (y >>= g) ls2 := by
  intro c Q E h hy
  rw [wp_bind] at hy ⊢
  refine wp.mono (hx c _ E h hy.and_run) ?_ fun e he => he
  rintro a ⟨s', c'⟩ ⟨h', hy', hrun⟩
  exact hf a s' hrun c' Q E h' hy'

theorem acquire {x : LM α} {y : M α} {ls' : α → List Spin} (hl : l ∉ ls)
    (hx : Does (l :: ls) s x y ls') : Does ls s (do acquire l; x) y ls' := by
  intro c Q E h hy
  rw [wp_bind]
  exact acquire_wp h hl fun c' h' => hx c' Q E h' hy

/-- Letting a lock go. -/
theorem release {x : LM α} {y : M α} {ls1 : List Spin} {ls' : α → List Spin}
    (hp : ls.Perm (l :: ls1)) (hl : l ∉ ls1) (hx : Does ls1 s x y ls') :
    Does ls s (do release l; x) y ls' := by
  intro c Q E h hy
  rw [wp_bind]
  exact release_wp h hp hl fun c' h' => hx c' Q E h' hy

theorem release_head {x : LM α} {y : M α} {ls' : α → List Spin} (hl : l ∉ ls)
    (hx : Does ls s x y ls') : Does (l :: ls) s (do Thread.release l; x) y ls' :=
  release (.refl _) hl hx

theorem get {x : Machine → LM α} {y : Kernel → M α} {ls' : α → List Spin}
    (hx : ∀ c, Does ls s (x ⟨s, c⟩) (y s) ls') : Does ls s (get >>= x) (get >>= y) ls' := by
  intro c Q E h hy
  rw [wp_bind, wp_get] at hy ⊢
  exact hx c c Q E h hy

/-- Both branches. -/
theorem ite {b : Prop} [Decidable b] {x x' : LM α} {y y' : M α} {ls' : α → List Spin}
    (hx : b → Does ls s x y ls') (hx' : ¬ b → Does ls s x' y' ls') :
    Does ls s (if b then x else x') (if b then y else y') ls' := by
  split
  · next h => exact hx h
  · next h => exact hx' h

/-- Code that ends as `y` does may stand for it. -/
theorem congr {x : LM α} {y y' : M α} {ls' : α → List Spin}
    (hy : ∀ Q E, wp y' s Q E → wp y s Q E) (hx : Does ls s x y ls') : Does ls s x y' ls' :=
  fun c Q E h hy' => hx c Q E h (hy Q E hy')

/-- Code under one lock. -/
theorem under (hl : l ∉ ls) (x : M α) :
    Does ls s (do Thread.acquire l; let r ← Thread.lift x; Thread.release l; return r) x fun _ =>
      ls := by
  apply acquire hl
  have h : Does (l :: ls) s (do let r ← Thread.lift x; Thread.release l; return r) (x >>= Pure.pure)
      fun _ => ls := by
    refine bind (lift x) fun a s' => ?_
    exact release_head hl (pure a)
  rwa [bind_pure] at h

/-- Code under both locks. -/
theorem under_both (x : M α) :
    Does [.pthread_table] s (do
      Thread.acquire .ptable
      let r ← Thread.lift x
      Thread.release .ptable
      Thread.release .pthread_table
      return r) x fun _ => [] := by
  apply acquire (by simp)
  have h : Does [.ptable, .pthread_table] s (do
      let r ← Thread.lift x
      Thread.release .ptable
      Thread.release .pthread_table
      return r) (x >>= Pure.pure) fun _ => [] := by
    refine bind (lift x) fun r _ => ?_
    apply release_head (by simp)
    exact release_head List.not_mem_nil (pure r)
  rwa [bind_pure] at h

theorem release_last (hl : l ∉ ls) :
    Does (l :: ls) s (Thread.release l) (Pure.pure ()) fun _ => ls := by
  intro c Q E h hy
  exact Thread.release_head h hl fun c' h' => ⟨h', (wp_pure ..).1 hy⟩

end Does

/-! ## Calls -/

theorem kill_does (hl : .ptable ∉ ls) (pid : Int) :
    Does ls s (kill pid) (Thread.kill pid) fun _ => ls := .under hl _

theorem growproc_does (n : Int) : Does [] s (growproc p n) (Thread.growproc p n) fun _ => [] :=
  .under List.not_mem_nil _

theorem allocproc_does (hl : .ptable ∉ ls) :
    Does ls s allocproc Thread.allocproc fun _ => ls := .under hl _

/-- `wakeup` takes `ptable.lock` and lets it go. -/
theorem wakeup_does (hl : .ptable ∉ ls) (ch : Chan) :
    Does ls s (wakeup ch) (wakeup1 ch) fun _ => ls := by
  apply Does.acquire hl
  have h : Does (.ptable :: ls) s (do lift (wakeup1 ch); release .ptable)
      (wakeup1 ch >>= pure) fun _ => ls := by
    refine Does.bind (.lift _) fun _ s' => ?_
    exact Does.release_last hl
  rwa [bind_pure] at h

/-- `setmemorylimit` lets its lock go on each of its ways out. -/
theorem setmemorylimit_does (pid limit : Int) :
    Does [] s (setmemorylimit pid limit) (Thread.setmemorylimit pid limit) fun _ => [] := by
  unfold setmemorylimit
  by_cases hneg : limit < 0
  · unfold Thread.setmemorylimit
    rw [if_pos hneg, if_pos hneg]
    exact .pure _
  · rw [if_neg hneg]
    exact .under List.not_mem_nil _

/-! ### sched and sleep -/

/-- `sched` with `ptable.lock` alone passes its four checks. -/
theorem sched_wp {Q : Unit → Machine → Prop} {E : LStop → Prop} (h : Holds [.ptable] c)
    (hs : (s.proc p).state ≠ .RUNNING) (hQ : ∀ c', Holds [.ptable] c' → Q () ⟨s, c'⟩) :
    wp (sched p) ⟨s, c⟩ Q E := by
  unfold sched
  rw [wp_bind]
  refine holding_wp h fun c' h' => ?_
  have hn : ¬ c'.ncli ≠ 1 := by
    rw [h'.ncli]
    simp
  have hcli : c'.FL_IF = false := h'.cli (List.cons_ne_nil _ _)
  simp only [List.mem_singleton, decide_true, Bool.true_eq_false, if_false, wp_bind, wp_get, hn,
    hs, hcli, Bool.false_eq_true, wp_pure]
  exact hQ c' h'

/-- `sched` of a process that does not run. -/
theorem sched_does (hs : (s.proc p).state ≠ .RUNNING) :
    Does [.ptable] s (sched p) (Thread.sched p) fun _ => [.ptable] := by
  intro c Q E h hy
  refine sched_wp h hs fun c' h' => ⟨h', ?_⟩
  unfold Thread.sched at hy
  simp only [wp_bind, wp_get, hs, if_false, wp_pure] at hy
  exact hy

/-- The locks of the CPU when a call ends. -/
def heldAt : Outcome → List Spin
  | .ret _ => []
  | .switch _ => [.ptable]

/-- The switch at the end of a call. -/
theorem switch_wp {k : Cont} {Q : Outcome → Kernel → Prop} {E : Stop → Prop}
    (h : Holds [.ptable] c) (hs : (s.proc p).state ≠ .RUNNING)
    (hy : wp (Thread.sched p) s (fun _ s' => Q (.switch k) s') E) :
    wp (sched p) ⟨s, c⟩ (fun _ m => Holds (heldAt (.switch k)) m.cpu ∧ Q (.switch k) m.kernel)
      fun e => ∃ e0, e = .kernel e0 ∧ E e0 :=
  sched_does hs c _ E h hy

/-- `sleep` exchanges its lock for `ptable.lock`. -/
theorem sleep_does (ch : Chan) (lk : Spin) (k : Cont) :
    Does [lk] s (do sleep p ch lk; return .switch k) (Thread.sleep p ch k) heldAt := by
  -- after the exchange of the locks both codes are at `sched`
  have hsched : Does [.ptable] s
      (do
        lift (setProc p fun x => { x with chan := ch, state := .SLEEPING })
        sched p
        return .switch k)
      (Thread.sleep p ch k) heldAt := by
    intro c Q E h hy
    unfold Thread.sleep at hy
    simp only [wp_bind, wp_lift, wp_setProc, wp_pure] at hy ⊢
    have hs : ((s.setProc p fun x => { x with chan := ch, state := .SLEEPING }).proc p).state ≠
        .RUNNING := by
      rw [Kernel.setProc_self]
      simp
    exact switch_wp h hs hy
  by_cases hlk : lk = .ptable
  · subst hlk
    exact hsched
  -- a lock other than `ptable.lock` is let go once that one is held
  · have h : Does [lk] s (do
        acquire .ptable
        release lk
        lift (setProc p fun x => { x with chan := ch, state := .SLEEPING })
        sched p
        return .switch k) (Thread.sleep p ch k) heldAt := by
      apply Does.acquire
      · simpa using Ne.symm hlk
      · exact Does.release (.swap ..) (by simpa using hlk) hsched
    unfold sleep
    rw [if_pos hlk]
    simpa only [bind_assoc] using h

/-- Who wakes up exchanges them back. -/
theorem awake_wp {lk : Spin} {Q : Unit → Machine → Prop} {E : LStop → Prop}
    (h : Holds [.ptable] c)
    (hQ : ∀ c', Holds [lk] c' → Q () ⟨s.setProc p fun x => { x with chan := .null }, c'⟩) :
    wp (awake p lk) ⟨s, c⟩ Q E := by
  unfold awake
  simp only [wp_bind, wp_lift, wp_setProc]
  refine wp_ite (fun hlk => ?_) fun hlk => ?_
  · rw [wp_bind]
    refine release_head h List.not_mem_nil fun c1 h1 => ?_
    exact acquire_wp h1 List.not_mem_nil fun c2 h2 => hQ c2 h2
  · rw [not_not] at hlk
    subst hlk
    exact (wp_pure ..).2 (hQ c h)

/-! ### Threads and processes -/

/-- `thread_exit` of a thread that is not the main thread reaches `sched` with `ptable.lock`
alone. -/
theorem thread_exit_does (hs : (s.proc p).thread_id ≠ MAINTH) (retval : Nat) :
    Does [] s (thread_exit p retval) (Thread.thread_exit p retval) heldAt := by
  unfold thread_exit Thread.thread_exit
  apply Does.acquire List.not_mem_nil
  refine Does.get fun c => ?_
  dsimp only
  rw [if_neg hs, if_neg hs]
  intro c Q E h hy
  simp only [wp_bind, wp_lift, wp_setTh, wp_setProc, wakeup1_wp, wp_pure] at hy ⊢
  refine acquire_wp h (by simp) fun c1 h1 => ?_
  refine release_wp h1 (.swap ..) (by simp) fun c2 h2 => ?_
  rw [wp_lift, wakeup1_wp]
  apply switch_wp h2 _ hy
  rw [Kernel.woken_proc, Kernel.setProc_self]
  simp

/-- The locked part of `exit` leaves a zombie. -/
theorem exitLocked_zombie {Q : Unit → Kernel → Prop} {E : Stop → Prop}
    (h : wp (exitLocked p) s Q E) :
    wp (exitLocked p) s (fun a s' => Q a s' ∧ (s'.proc p).state = .ZOMBIE) E := by
  have hz : wp (exitLocked p) s (fun _ s' => (s'.proc p).state = .ZOMBIE) fun _ => True := by
    unfold exitLocked
    simp only [wp_bind, wp_get, wakeup1_wp]
    refine wp_ite (fun _ => ?_) fun _ => ?_
    · simp [wp_bind, wp_modify, wp_setProc]
    · simp [wp_bind, wp_modify, wp_setProc]
  exact wp.mono (h.inter hz) (fun _ _ hQ => hQ) fun e he => he.1

/-- `exit` is its check, its locked part, and the switch. -/
theorem exit_parts {Q : Outcome → Kernel → Prop} {E : Stop → Prop} :
    wp (Thread.exit p) s Q E ↔ wp (do
      if p = (← get).initproc then halt "init exiting"
      exitLocked p
      Thread.sched p
      return .switch .user) s Q E := by
  unfold Thread.exit exitLocked
  simp only [wp_bind, wp_get]
  by_cases hinit : p = s.initproc
  · simp only [if_pos hinit, wp_bind, wp_halt]
  simp only [if_neg hinit, wp_bind, wp_get, wakeup1_wp, wp_pure]
  split <;> simp only [wp_bind, wakeup1_wp, wp_modify, wp_setProc, wp_pure]

/-- `exit` reaches `sched` with `ptable.lock` alone. -/
theorem exit_does : Does [] s (exit p) (Thread.exit p) heldAt := by
  apply Does.congr fun Q E => exit_parts.1
  unfold exit
  refine Does.get fun c => ?_
  dsimp only
  by_cases hinit : p = s.initproc
  · rw [if_pos hinit, if_pos hinit]
    intro c Q E h hy
    simp only [wp_bind, wp_halt, wp_lift] at hy ⊢
    exact ⟨_, rfl, hy⟩
  rw [if_neg hinit, if_neg hinit]
  intro c Q E h hy
  simp only [wp_bind, wp_pure] at hy ⊢
  refine acquire_wp h List.not_mem_nil fun c1 h1 => ?_
  refine acquire_wp h1 (by simp) fun c2 h2 => ?_
  rw [wp_lift]
  refine wp.mono (exitLocked_zombie hy) ?_ fun e he => ⟨e, rfl, he⟩
  rintro _ s' ⟨hy', hz⟩
  refine release_wp h2 (.swap ..) (by simp) fun c3 h3 => ?_
  exact switch_wp h3 (by rw [hz]; decide) hy'

theorem ret_does (r : Int) : Does [] s (pure (.ret r)) (pure (.ret r)) heldAt := by
  intro c Q E h hy
  exact (wp_pure ..).2 ⟨h, (wp_pure ..).1 hy⟩

/-- The scan of `thread_join` sleeps on its table's lock or lets it go. -/
theorem joinScan_does (t w : Nat) :
    Does [.pthread_table] s (joinScan p t w) (Thread.joinScan p t w) heldAt := by
  unfold joinScan Thread.joinScan
  refine Does.get fun c => ?_
  dsimp only
  generalize findTh _ = r
  cases r with
  | some i =>
      refine Does.bind (.lift _) fun _ s' => ?_
      exact Does.release_head List.not_mem_nil (ret_does _)
  | none =>
      refine Does.ite (fun _ => ?_) fun _ => sleep_does _ _ _
      exact Does.release_head List.not_mem_nil (ret_does _)

/-- `thread_join` takes that lock. -/
theorem thread_join_does (t w : Nat) :
    Does [] s (thread_join p t w) (Thread.thread_join p t w) heldAt := by
  unfold thread_join Thread.thread_join
  apply Does.acquire List.not_mem_nil
  refine Does.ite (fun _ => ?_) fun _ => joinScan_does t w
  exact Does.release_head List.not_mem_nil (ret_does _)

/-- The scan of `wait` sleeps on `ptable.lock` or lets it go. -/
theorem waitScan_does : Does [.ptable] s (waitScan p) (Thread.waitScan p) heldAt := by
  unfold waitScan Thread.waitScan
  refine Does.get fun c => ?_
  dsimp only
  generalize findProc _ = r
  cases r with
  | some i =>
      refine Does.bind (.lift _) fun _ s' => ?_
      exact Does.release_head List.not_mem_nil (ret_does _)
  | none =>
      refine Does.ite (fun _ => ?_) fun _ => sleep_does _ _ _
      exact Does.release_head List.not_mem_nil (ret_does _)

theorem wait_does : Does [] s (wait p) (Thread.waitScan p) heldAt :=
  Does.acquire List.not_mem_nil waitScan_does

/-- `fork` in parts. The page directory of the caller and its size are read before
`copyuvm`, which does not touch the tables. -/
theorem fork_parts {Q : Int → Kernel → Prop} {E : Stop → Prop} (h : wp (Thread.fork p) s Q E) :
    wp (do
      match ← Thread.allocproc with
      | none => return -1
      | some np => do
          let s ← get
          let pd ← getPgdir p
          match ← onKmem (copyuvm pd (s.proc p).sz) with
          | none => do
              onKmem (kfree (s.proc np).kstack)
              setProc np fun y => { y with pgdir := none, kstack := 0, state := .UNUSED }
              return -1
          | some d => forkInto p np d) s Q E := by
  unfold Thread.fork at h
  rw [wp_bind] at h ⊢
  refine wp.mono h ?_ fun _ he => he
  intro r s1 h1
  cases r with
  | none => exact h1
  | some np =>
      simp only [wp_bind, wp_get] at h1 ⊢
      unfold getPgdir at h1 ⊢
      simp only [wp_bind, wp_get] at h1 ⊢
      cases hpd : (s1.proc p).pgdir with
      -- a process without a page table faults in both
      | none =>
          simp only [hpd, wp_throw] at h1 ⊢
          exact h1
      | some pd =>
          simp only [hpd, wp_pure, wp_onKmem] at h1 ⊢
          refine wp.mono h1 ?_ fun _ he => he
          intro r m h2
          cases r with
          | none => exact h2
          | some d =>
              unfold forkInto
              dsimp only
              rw [wp_bind, wp_get]
              exact h2

/-- `fork` lets its locks go on each of its ways out. -/
theorem fork_does : Does [] s (fork p) (Thread.fork p) fun _ => [] := by
  apply Does.congr fun Q E => fork_parts
  unfold fork
  apply Does.acquire List.not_mem_nil
  refine Does.bind (allocproc_does (by simp)) fun r s' => ?_
  cases r with
  | none => exact Does.release_head List.not_mem_nil (.pure _)
  | some np =>
      refine Does.get fun c => Does.bind (.lift _) fun pd s1 => Does.bind (.lift _) fun r s2 => ?_
      cases r with
      | none =>
          refine Does.bind (.lift _) fun _ _ => Does.bind (.lift _) fun _ _ => ?_
          exact Does.release_head List.not_mem_nil (.pure _)
      | some d => exact Does.under_both _

theorem thread_create_parts : Thread.thread_create p = (do
    match ← pthread_fork p with
    | none => return none
    | some th => createInto p th) := rfl

/-- So does `thread_create`. -/
theorem thread_create_does :
    Does [] s (thread_create p) (Thread.thread_create p) fun _ => [] := by
  rw [thread_create_parts]
  unfold thread_create
  apply Does.acquire List.not_mem_nil
  refine Does.bind (.lift _) fun r s' => ?_
  cases r with
  | none => exact Does.release_head List.not_mem_nil (.pure _)
  | some th => exact Does.under_both _

/-! ### exec -/

/-- Building an image: the page table, then what is put in it. -/
theorem newImage_parts (elf : Elf) (argv : List Nat) (stacksize : Nat) :
    newImage (some elf) argv stacksize = (do
      match ← setupkvm with
      | none => return none
      | some pd =>
          match ← (do
            match ← loadProgram elf.phdrs pd 0 with
            | (pd, none) => return (pd, none)
            | (pd, some sz) => stackImage pd sz argv stacksize) with
          | (pd, none) => do
              freevm pd
              return none
          | (pd, some sz) => return some (pd, sz)) := rfl

/-- `exec` with the building of its image written out. -/
theorem execWith_parts {elf : Elf} {argv : List Nat} {n : Nat} {Q : Int → Kernel → Prop}
    {E : Stop → Prop} (h : wp (Thread.execWith p (some elf) argv n) s Q E) :
    wp (do
      match ← onKmem setupkvm with
      | none => return -1
      | some pd => do
          match ← onKmem (loadProgram elf.phdrs pd 0) with
          | (pd, none) => do
              onKmem (freevm pd)
              return -1
          | (pd, some sz) => do
              match ← onKmem (stackImage pd sz argv n) with
              | (pd, none) => do
                  onKmem (freevm pd)
                  return -1
              | (pd, some sz) => do
                  let oldpgdir ← commit p pd sz n
                  switchuvm p
                  onKmem (freevm oldpgdir)
                  return 0) s Q E := by
  unfold Thread.execWith at h
  rw [wp_bind, wp_onKmem, newImage_parts, wp_bind] at h
  rw [wp_bind, wp_onKmem]
  refine wp.mono h ?_ fun _ he => he
  intro r m h1
  cases r with
  -- no memory for the page table
  | none =>
      simp only [wp_pure] at h1 ⊢
      exact h1
  | some pd =>
      dsimp only at h1 ⊢
      rw [wp_bind, wp_bind] at h1
      rw [wp_bind, wp_onKmem]
      refine wp.mono h1 ?_ fun _ he => he
      rintro ⟨pd, r⟩ m h2
      cases r with
      -- a segment that does not load
      | none =>
          simp only [wp_bind, wp_pure, wp_onKmem] at h2 ⊢
          exact h2
      | some sz =>
          dsimp only at h2 ⊢
          rw [wp_bind, wp_onKmem]
          refine wp.mono h2 ?_ fun _ he => he
          rintro ⟨pd, r⟩ m h3
          cases r with
          | none =>
              simp only [wp_bind, wp_pure, wp_onKmem] at h3 ⊢
              exact h3
          | some sz =>
              unfold commit
              simp only [wp_bind, wp_pure, wp_onKmem] at h3 ⊢
              exact h3

/-- `exec` lets its locks go on each of its ways out. -/
theorem execWith_does (elf : Option Elf) (argv : List Nat) (n : Nat) :
    Does [] s (execWith p elf argv n) (Thread.execWith p elf argv n) fun _ => [] := by
  unfold execWith
  cases elf with
  | none =>
      intro c Q E h hy
      unfold Thread.execWith newImage at hy
      simp only [wp_bind, wp_pure, wp_onKmem] at hy
      exact (wp_pure ..).2 ⟨h, hy⟩
  | some elf =>
      apply Does.congr fun Q E => execWith_parts
      dsimp only
      refine Does.bind (.lift _) fun r s1 => ?_
      cases r with
      -- each of the ways out has let its locks go
      | none => exact .pure _
      | some pd =>
          refine Does.bind (.lift _) fun r s2 => ?_
          rcases r with ⟨pd, r⟩
          cases r with
          | none => exact Does.bind (.lift _) fun _ _ => .pure _
          | some sz =>
              apply Does.acquire List.not_mem_nil
              refine Does.bind (.lift _) fun r s3 => ?_
              rcases r with ⟨pd, r⟩
              cases r with
              | none =>
                  refine Does.bind (.lift _) fun _ _ => ?_
                  exact Does.release_head List.not_mem_nil (.pure _)
              | some sz =>
                  refine Does.bind (.lift _) fun old s4 => ?_
                  apply Does.release_head List.not_mem_nil
                  refine Does.bind (.lift _) fun _ _ => Does.bind (.lift _) fun _ _ => .pure _

theorem exec2_does (elf : Option Elf) (argv : List Nat) (n : Int) :
    Does [] s (exec2 p elf argv n) (Thread.exec2 p elf argv n) fun _ => [] :=
  Does.ite (fun _ => .pure _) fun _ => execWith_does elf argv _

/-! ### Other system calls -/

/-- The CPU holds this lock of another file, if any. -/
def held (a : Option Nat) : List Spin := a.toList.map .other

/-- Exchanging one lock for another. -/
theorem swap_wp {a b : Option Nat} {Q : Unit → Machine → Prop} {E : LStop → Prop}
    (h : Holds (held a) c) (hQ : ∀ c', Holds (held b) c' → Q () ⟨s, c'⟩) :
    wp (swap a b) ⟨s, c⟩ Q E := by
  unfold swap
  by_cases hab : a = b
  · subst hab
    rw [if_neg (not_not.2 rfl)]
    exact (wp_pure ..).2 (hQ c h)
  rw [if_pos hab]
  have hb : ∀ c', Holds [] c' → wp (match b with
      | some n => acquire (.other n)
      | none => pure ()) ⟨s, c'⟩ Q E := by
    intro c' h'
    cases b with
    | none => exact (wp_pure ..).2 (hQ c' h')
    | some n => exact acquire_wp h' List.not_mem_nil hQ
  cases a with
  | none => exact hb c h
  | some n =>
      dsimp only
      rw [wp_bind]
      exact release_head h List.not_mem_nil hb

/-- `yield` takes `ptable.lock` and is no longer `RUNNING`. -/
theorem yield_wp {Q : Unit → Machine → Prop} {E : LStop → Prop} (h : Holds [] c)
    (hQ : ∀ c', Holds [.ptable] c' →
      Q () ⟨s.setProc p fun x => { x with state := .RUNNABLE }, c'⟩) :
    wp (yield p) ⟨s, c⟩ Q E := by
  unfold yield
  rw [wp_bind]
  refine acquire_wp h List.not_mem_nil fun c1 h1 => ?_
  simp only [wp_bind, wp_lift, wp_setProc]
  refine sched_wp h1 ?_ hQ
  rw [Kernel.setProc_self]
  simp

variable {e : Event} {k : Cont}

/-- A timer interrupt in a system call. -/
theorem yieldInside_does :
    Does [] s (do yield e.p; return .switch .sleep) (yieldInside e.p) heldAt := by
  intro c Q E h hy
  unfold yieldInside Thread.sched at hy
  simp only [wp_bind, wp_setProc, wp_get, Kernel.setProc_self, reduceCtorEq, if_false,
    wp_pure] at hy
  rw [wp_bind]
  exact yield_wp h fun c' h' => (wp_pure ..).2 ⟨h', hy⟩

/-- What `Thread.inside` does once the thread has tidied up. -/
def insideRest (p : Pidx) (wakes sleeps : Option Chan) : M Outcome := do
  match wakes with
  | some c => wakeup1 c
  | none => pure ()
  match sleeps with
  | some c => Thread.sleep p c .sleep
  | none => yieldInside p

/-- A call into the rest of the kernel, without the wakeup it begins with. -/
theorem inside_parts {wakes sleeps : Option Chan} {Q : Outcome → Kernel → Prop} {E : Stop → Prop}
    (h : wp (Thread.inside p k wakes sleeps) s Q E) :
    wp (insideRest p wakes sleeps)
      (if k = .user then s else s.setProc p fun x => { x with chan := .null }) Q E := by
  unfold Thread.inside at h
  by_cases hk : k = .user
  · rw [if_neg (not_not.2 hk)] at h
    rw [if_pos hk]
    exact h
  · rw [if_pos hk, wp_bind, wp_setProc] at h
    rw [if_neg hk]
    exact h

/-- It holds what it held before it slept. -/
theorem inside_does (wakes sleeps : Option Chan) :
    Does (held (e.had k)) s (inside e k wakes sleeps) (insideRest e.p wakes sleeps) heldAt := by
  -- the call ends at a sleep or at a timer tick
  have hend : ∀ s', Does (held e.wakes) s' (match sleeps with
      | some c => do
          swap e.wakes (some e.sleeps)
          sleep e.p c (.other e.sleeps)
          return .switch .sleep
      | none => do
          swap e.wakes none
          yield e.p
          return .switch .sleep) (match sleeps with
      | some c => Thread.sleep e.p c .sleep
      | none => yieldInside e.p) heldAt := by
    intro s' c Q E h hy
    cases sleeps with
    | some ch =>
        dsimp only at hy ⊢
        rw [wp_bind]
        exact swap_wp h fun c' h' => sleep_does ch (.other e.sleeps) .sleep c' Q E h' hy
    | none =>
        dsimp only at hy ⊢
        rw [wp_bind]
        exact swap_wp h fun c' h' => yieldInside_does c' Q E h' hy
  intro c Q E h hy
  unfold inside
  unfold insideRest at hy
  rw [wp_bind]
  -- it takes the lock that its wakeup needs, whatever it had before
  refine swap_wp h fun c1 h1 => ?_
  cases wakes with
  | none => exact hend s c1 Q E h1 hy
  | some ch =>
      dsimp only at hy ⊢
      refine Does.bind (wakeup_does ?_ ch) (fun _ s' => hend s') c1 Q E h1 hy
      unfold held
      simp

/-! ## Turns -/

/-- The locks of a thread that stood at `k` when `sleep` has returned. -/
def heldIn (e : Event) : Cont → List Spin
  | .user => []
  | .sleep => held e.slept
  | .join _ => [.pthread_table]
  | .wait => [.ptable]

/-- The thread goes on with the lock that it went to sleep with. -/
theorem resumed_wp {Q : Unit → Machine → Prop} {E : LStop → Prop} (h : Holds [.ptable] c)
    (hQ : ∀ c', Holds (heldIn e k) c' → Q () ⟨if k = .user then s else
      s.setProc e.p fun x => { x with chan := .null }, c'⟩) :
    wp (resumed e k) ⟨s, c⟩ Q E := by
  have h1 := h.intena e.intena
  unfold resumed
  rw [wp_bind, wp_setCpu]
  cases k with
  | user => exact release_head h1 List.not_mem_nil hQ
  | join t => exact awake_wp h1 hQ
  | wait => exact awake_wp h1 hQ
  | sleep =>
      unfold heldIn at hQ
      cases hs : e.slept with
      | some n =>
          rw [hs] at hQ
          exact awake_wp h1 hQ
      | none =>
          rw [hs] at hQ
          simp only [wp_bind, wp_lift, wp_setProc]
          exact release_head h1 List.not_mem_nil hQ

/-- A call that returns a number. -/
theorem returns_does {x : LM Int} {y : M Int} (h : Does [] s x y fun _ => []) :
    Does [] s (do return .ret (← x)) (do return .ret (← y)) heldAt :=
  h.bind fun r _ => ret_does r

/-- A call from user mode. -/
theorem call_does {a : Call} (hfit : a.fits .user = true)
    (hmain : ∀ r, a = .thread_exit r → (s.proc e.p).thread_id ≠ MAINTH) :
    Does [] s (call e .user a) (Thread.call e.p .user a) heldAt := by
  -- one lemma for each call, above; the main thread's `thread_exit` is excluded
  cases a with
  | yield => exact ret_does 0
  | sleep ch =>
      apply Does.acquire List.not_mem_nil
      exact sleep_does ch (.other e.sleeps) .sleep
  | wakeup ch =>
      intro c Q E h hy
      unfold Thread.call at hy
      unfold call
      rw [wp_bind]
      refine swap_wp h fun c1 h1 => ?_
      refine Does.bind (wakeup_does ?_ ch) (fun _ s' => ?_) c1 Q E h1 hy
      · unfold held
        simp
      · intro c Q E h hy
        rw [wp_bind]
        exact swap_wp h fun c' h' => ret_does 0 c' Q E h' hy
  | inside wakes sleeps =>
      intro c Q E h hy
      exact inside_does (k := .user) wakes sleeps c Q E h
        (@inside_parts s e.p .user _ _ Q E hy)
  | thread_create =>
      refine thread_create_does.bind fun r _ => ?_
      cases r with
      | none => exact ret_does (-1)
      | some _ => exact ret_does 0
  | thread_exit retval => exact thread_exit_does (hmain retval rfl) retval
  | thread_join t w => exact thread_join_does t w
  | sbrk n => exact returns_does (growproc_does n)
  | fork => exact returns_does fork_does
  | exit => exact exit_does
  | wait => exact wait_does
  | exec elf argv => exact returns_does (execWith_does elf argv 1)
  | exec2 elf argv n => exact returns_does (exec2_does elf argv n)
  | kill pid => exact returns_does (kill_does List.not_mem_nil pid)
  | setmemorylimit pid limit => exact returns_does (setmemorylimit_does pid limit)
  | resume w => cases hfit

/-- A thread goes on in the call it slept in, or makes a new one. -/
theorem resumed_call {Q : Outcome → Kernel → Prop} {E : Stop → Prop} (h : Holds [.ptable] c)
    (hfit : e.c.fits k = true) (hmain : ∀ r, e.c = .thread_exit r → (s.proc e.p).thread_id ≠ MAINTH)
    (hy : wp (Thread.call e.p k e.c) s Q E) :
    wp (do resumed e k; call e k e.c) ⟨s, c⟩
      (fun r m => Holds (heldAt r) m.cpu ∧ Q r m.kernel) fun x => ∃ e0, x = .kernel e0 ∧ E e0 := by
  rw [wp_bind]
  refine resumed_wp h fun c' h' => ?_
  -- a thread from user space makes a call
  by_cases hk : k = .user
  · subst hk
    rw [if_pos rfl]
    exact call_does hfit hmain c' Q E h' hy
  rw [if_neg hk]
  -- one that was asleep goes on, and what it does next depends on where it slept
  have hcase : (∃ w, e.c = .resume w) ∨ ∃ wakes sleeps, e.c = .inside wakes sleeps ∧
    k = .sleep := by
    cases hc : e.c with
    | resume w => exact .inl ⟨w, rfl⟩
    | inside wakes sleeps =>
        rw [hc] at hfit
        exact .inr ⟨wakes, sleeps, rfl, (of_decide_eq_true hfit).resolve_left hk⟩
    | sbrk n =>
        rw [hc] at hfit
        exact absurd (of_decide_eq_true hfit).1 hk
    | _ =>
        rw [hc] at hfit
        exact absurd (of_decide_eq_true hfit) hk
  rcases hcase with ⟨w, hc⟩ | ⟨wakes, sleeps, hc, rfl⟩
  · rw [hc] at hy ⊢
    unfold Thread.call resume at hy
    rw [wp_bind, wp_setProc] at hy
    unfold call goOn
    cases k with
    | user => exact absurd rfl hk
    | sleep =>
        rw [wp_bind]
        exact swap_wp h' fun c2 h2 => ret_does 0 c2 Q E h2 hy
    | join t => exact joinScan_does t w c' Q E h' hy
    | wait => exact waitScan_does c' Q E h' hy
  · rw [hc] at hy ⊢
    exact inside_does (k := .sleep) wakes sleeps c' Q E h'
      (@inside_parts s e.p .sleep _ _ Q E hy)

/-- The state at the switch back: a thread that returned to user mode has been
made to yield. -/
def Outcome.yielded (r : Outcome) (s : Kernel) (p : Pidx) : Kernel :=
  match r with
  | .ret _ => s.setProc p fun x => { x with state := .RUNNABLE }
  | .switch _ => s

/-- Calls from user mode. -/
theorem calls_does {ds : List More} (hfit : e.c.fits .user = true)
    (hrest : ∀ d ∈ ds, d.c.fits .user = true)
    (hmain : Each (fun s _ c => ¬ EndsMain e.p s c) e.p s .user e.c (ds.map More.c)) :
    Does [] s (calls e .user ds) (Thread.calls e.p .user e.c (ds.map More.c)) fun x =>
      heldAt x.2 := by
  have hret : ∀ r k s, Does (heldAt r) s (pure (k, r)) (pure (k, r)) fun x : Cont × Outcome =>
      heldAt x.2 := by
    intro r k s c Q E h hy
    exact (wp_pure ..).2 ⟨h, (wp_pure ..).1 hy⟩
  induction ds generalizing e s with
  | nil =>
      refine (call_does hfit fun r hr hid => ?_).bind fun r s' => hret r .user s'
      exact hmain ⟨⟨r, hr⟩, hid⟩
  | cons d ds ih =>
      rcases List.forall_mem_cons.1 hrest with ⟨hd, hds⟩
      refine (call_does hfit fun r hr hid => ?_).bind_run fun r s' hrun => ?_
      · exact hmain.1 ⟨⟨r, hr⟩, hid⟩
      cases r with
      | ret v => exact ih hd hds (hmain.2 s' (returned_some hrun))
      | switch k' => exact hret (.switch k') .user s'

/-- The calls of a turn, from the switch to the thread on. -/
theorem resumed_calls {ds : List More} {Q : Cont × Outcome → Kernel → Prop} {E : Stop → Prop}
    (h : Holds [.ptable] c) (hfit : e.c.fits k = true) (hrest : ∀ d ∈ ds, d.c.fits .user = true)
    (hmain : Each (fun s _ c => ¬ EndsMain e.p s c) e.p s k e.c (ds.map More.c))
    (hy : wp (Thread.calls e.p k e.c (ds.map More.c)) s Q E) :
    wp (do resumed e k; calls e k ds) ⟨s, c⟩
      (fun x m => Holds (heldAt x.2) m.cpu ∧ Q x m.kernel)
      fun x => ∃ e0, x = .kernel e0 ∧ E e0 := by
  cases ds with
  -- the last call of the time slice
  | nil =>
      rw [List.map_nil] at hy
      unfold Thread.calls at hy
      rw [wp_bind] at hy
      have hcall := resumed_call h hfit (fun r hr hid => hmain ⟨⟨r, hr⟩, hid⟩) hy
      rw [wp_bind] at hcall ⊢
      refine wp.mono hcall (fun _ m hm => ?_) fun _ he => he
      unfold calls
      rw [wp_bind]
      refine wp.mono hm (fun r m1 h1 => (wp_pure ..).2 ⟨h1.1, ?_⟩) fun _ he => he
      exact (wp_pure ..).1 h1.2
  | cons d ds =>
      rcases List.forall_mem_cons.1 hrest with ⟨hd, hds⟩
      rw [List.map_cons] at hy
      unfold Thread.calls at hy
      rw [wp_bind] at hy
      have hcall := resumed_call h hfit (fun r hr hid => hmain.1 ⟨⟨r, hr⟩, hid⟩) hy.and_run
      rw [wp_bind] at hcall ⊢
      refine wp.mono hcall (fun _ m hm => ?_) fun _ he => he
      unfold calls
      rw [wp_bind]
      refine wp.mono hm ?_ fun _ he => he
      rintro r ⟨s1, c1⟩ ⟨h1, hy1, hrun⟩
      -- it has returned, so the next one begins; or it has switched out
      cases r with
      | ret v =>
          exact calls_does hd hds (hmain.2 s1 (returned_some hrun)) c1 Q E h1 hy1
      | switch k' => exact (wp_pure ..).2 ⟨h1, (wp_pure ..).1 hy1⟩

/-- The calls of a time slice reach `sched` with `ptable.lock` alone, unless the main thread
ends. By induction on the calls that are left. -/
theorem serve_wp {e : Service} {Q : Cont × Outcome → Kernel → Prop} {E : Stop → Prop}
    (h : Holds [.ptable] c) (hfit : e.c.fits k = true)
    (hrest : ∀ d ∈ e.rest, d.c.fits .user = true)
    (hmain : Each (fun s _ c => ¬ EndsMain e.p s c) e.p s k e.c (e.rest.map More.c))
    (hy : wp (Thread.calls e.p k e.c (e.rest.map More.c)) s Q E) :
    wp (serve e k) ⟨s, c⟩ (fun x m => Holds [.ptable] m.cpu ∧
      ∃ s1, Q x s1 ∧ m.kernel = Outcome.yielded x.2 s1 e.p)
      fun x => ∃ e0, x = .kernel e0 ∧ E e0 := by
  have hcalls := resumed_calls h hfit hrest hmain hy
  rw [wp_bind] at hcalls
  unfold serve
  rw [wp_bind]
  refine wp.mono hcalls ?_ fun _ he => he
  intro _ m hm
  rw [wp_bind]
  refine wp.mono hm ?_ fun _ he => he
  rintro ⟨k1, r⟩ ⟨s1, c1⟩ ⟨h1, hQ⟩
  cases r with
  | ret r =>
      dsimp only
      rw [wp_bind]
      exact yield_wp h1 fun c2 h2 => (wp_pure ..).2 ⟨h2, s1, hQ, rfl⟩
  | switch k => exact (wp_pure ..).2 ⟨h1, s1, hQ, rfl⟩

/-- Parking sets the state that `yield` sets. -/
theorem yielded_parked (r : Outcome) (ctx : Context) :
    r.parked (Outcome.yielded r s p) p ctx = r.parked s p ctx := by
  cases r with
  | ret r =>
      unfold Outcome.yielded Outcome.parked
      dsimp only
      rw [Kernel.setProc_setProc]
      rfl
  | switch k => rfl

/-- `switchTo` dresses the process. -/
theorem switchTo_dressed {i : Tidx} {Q : Unit → Kernel → Prop} {E : Stop → Prop}
    (h : wp (switchTo p i) s Q E) :
    wp (switchTo p i) s (fun a s' => Q a s' ∧ s' = s.dressed p i) E := by
  have hd : wp (switchTo p i) s (fun _ s' => s' = s.dressed p i) fun _ => True :=
    switchTo_wp rfl trivial trivial
  exact wp.mono (h.inter hd) (fun _ _ hQ => hQ) fun _ he => he.1

/-- The calls that a service makes fit. -/
theorem Service.Enabled.rest {e : Service} (he : e.Enabled s) :
    ∀ d ∈ e.rest, d.c.fits .user = true := fun d hd =>
  he.1.2 d.c (List.mem_map_of_mem hd)

/-- The thread does what the calls without locks do, and control goes back to the
scheduler with `ptable.lock` and no other lock. -/
theorem turn_does {e : Service} {Q : Outcome → Kernel → Prop} {E : Stop → Prop} (h : Holds [] c)
    (he : e.Enabled s) (hmain : SparesMain s e) (hy : wp (Thread.slice e.slice) s Q E) :
    wp (turn e) ⟨s, c⟩ (fun r m => Holds [] m.cpu ∧ Q r m.kernel)
      fun x => ∃ e0, x = .kernel e0 ∧ E e0 := by
  unfold Thread.slice at hy
  unfold turn dispatch sti
  simp only [wp_bind, wp_get] at hy ⊢
  rw [wp_setCpu]
  refine acquire_wp h.sti List.not_mem_nil fun c1 h1 => ?_
  rw [wp_lift]
  refine wp.mono (switchTo_dressed hy) ?_ fun e0 he => ⟨e0, rfl, he⟩
  rintro _ s1 ⟨hy1, rfl⟩
  refine wp.mono (serve_wp h1 he.1.1.2 he.rest hmain hy1) ?_ fun _ he => he
  rintro ⟨k, r⟩ ⟨s2, c2⟩ ⟨h2, s1, hy2, hs2⟩
  dsimp only at hs2 hy2
  subst hs2
  rw [wp_lift]
  rw [switchFrom_wp] at hy2
  rw [switchFrom_wp, yielded_parked]
  refine release_head h2 List.not_mem_nil fun c3 h3 => (wp_pure ..).2 ⟨h3, ?_⟩
  exact (wp_pure ..).1 hy2

/-- `kill` makes a `SLEEPING` process `RUNNABLE` and leaves a `RUNNING` one as it is. -/
theorem kill_running (hrun : (s.proc p).state = .RUNNING) (pid : Int) :
    Ends (Thread.kill pid) s fun _ s' => (s'.proc p).state = .RUNNING := by
  unfold Thread.kill
  simp only [wp_bind, wp_get]
  split
  · exact (wp_pure ..).2 hrun
  · next q _ =>
      simp only [wp_bind, wp_setProc, wp_modify, wp_pure]
      by_cases hq : p = q
      · subst hq
        rw [Kernel.setProc_self, hrun]
        rfl
      · rw [Kernel.setProc_ne hq]
        exact hrun

/-- `sched` panics where the process is `RUNNING`. -/
theorem sched_panics {Q : Unit → Machine → Prop} {E : LStop → Prop} (h : Holds [.ptable] c)
    (hs : (s.proc p).state = .RUNNING) (hE : E (.sched .running)) : wp (sched p) ⟨s, c⟩ Q E := by
  unfold sched
  rw [wp_bind]
  refine holding_wp h fun c' h' => ?_
  have hn : ¬ c'.ncli ≠ 1 := by
    rw [h'.ncli]
    simp
  simp only [List.mem_singleton, decide_true, Bool.true_eq_false, if_false, wp_bind, wp_get, hn,
    hs, if_true, wp_throw]
  exact hE

/-- A main thread that calls `thread_exit` is still `RUNNING` when it gets to
`sched`. -/
theorem thread_exit_panics {retval : Nat} (h : Holds [] c) (hid : (s.proc p).thread_id = MAINTH)
    (hrun : (s.proc p).state = .RUNNING) :
    wp (thread_exit p retval) ⟨s, c⟩ (fun _ _ => False) fun x => x = .sched .running := by
  unfold thread_exit
  rw [wp_bind]
  refine acquire_wp h List.not_mem_nil fun c1 h1 => ?_
  simp only [wp_bind, wp_get]
  rw [if_pos hid, wp_bind]
  have hkill := kill_does (by simp) (s.proc p).pid c1 _ _ h1 (kill_running hrun (s.proc p).pid)
  refine wp.mono hkill ?_ ?_
  rotate_left
  · rintro _ ⟨_, _, hfalse⟩
    exact hfalse.elim
  rintro _ ⟨s2, c2⟩ ⟨h2, hrun2⟩
  dsimp only at h2 hrun2
  simp only [wp_bind]
  refine acquire_wp h2 (by simp) fun c3 h3 => ?_
  refine release_wp h3 (.swap ..) (by simp) fun c4 h4 => ?_
  rw [wp_lift, wakeup1_wp]
  exact sched_panics h4 (by rw [Kernel.woken_proc]; exact hrun2) rfl

/-! ## What `sched` asks for -/

/-- The scheduler hands `ptable.lock` to the thread that it picks. -/
theorem dispatch_wp (h : Holds [] c) :
    wp (dispatch e) ⟨s, c⟩ (fun _ m => m.kernel = s.dressed e.p e.i ∧ Holds [.ptable] m.cpu)
      fun _ => True := by
  unfold dispatch sti
  rw [wp_bind, wp_setCpu, wp_bind]
  refine acquire_wp h.sti List.not_mem_nil fun c1 h1 => ?_
  rw [wp_lift]
  exact switchTo_wp ⟨rfl, h1⟩ trivial trivial

/-- What `sched` is called with on the way from the switch to the thread to the
switch back passes all its checks. -/
def MeetsSched (e : Service) (k : Cont) (m : Machine) : Prop :=
  ∀ check, (serve e k).run m ≠ .error (.sched check)

theorem fits_user {a : Call} {r : Nat} (hfit : a.fits k = true) (hc : a = .thread_exit r) :
    k = .user := by
  rw [hc] at hfit
  exact of_decide_eq_true hfit

/-- A call after the first is not as it should be. -/
theorem exists_later {ok : Kernel → Cont → Call → Prop} {a d : Call} {ds : List Call}
    (hok : ok s k a) (h : ¬ Each ok p s k a (d :: ds)) :
    ∃ s' ∈ returned p k a s, ¬ Each ok p s' .user d ds := by
  by_contra hno
  refine h ⟨hok, fun s' hs' => ?_⟩
  by_contra hn
  exact hno ⟨s', hs', hn⟩

/-- Calls from user mode, one of which is `thread_exit` of a main thread: those before it
return, and it gets to `sched` in the state RUNNING. -/
theorem calls_panic {ds : List More} {i : Tidx} (h : Holds [] c) (hw : Wears e.p i s)
    (hfit : e.c.fits .user = true) (hrest : ∀ d ∈ ds, d.c.fits .user = true)
    (hmain : ¬ Each (fun s _ c => ¬ EndsMain e.p s c) e.p s .user e.c (ds.map More.c)) :
    wp (calls e .user ds) ⟨s, c⟩ (fun _ _ => False) fun x => x = .sched .running := by
  -- where the first call is the one
  have hfirst : ∀ f : Outcome → LM (Cont × Outcome), EndsMain e.p s e.c →
      wp (call e .user e.c >>= f) ⟨s, c⟩ (fun _ _ => False) fun x => x = .sched .running := by
    rintro f ⟨⟨retval, hc⟩, hid⟩
    rw [wp_bind, hc]
    exact wp.mono (thread_exit_panics h hid hw.running) (fun _ _ hf => hf.elim) fun _ he => he
  induction ds generalizing e s c with
  | nil => exact hfirst _ (not_not.1 hmain)
  | cons d ds ih =>
      by_cases hend : EndsMain e.p s e.c
      · exact hfirst _ hend
      rcases List.forall_mem_cons.1 hrest with ⟨hd, hds⟩
      rcases exists_later hend hmain with ⟨s', hs', hmain'⟩
      rcases of_returned hs' with ⟨v, hrun⟩
      have hcall := call_does hfit (fun r hr hid => hend ⟨⟨r, hr⟩, hid⟩) c
        (fun r s1 => r = .ret v ∧ s1 = s') (fun _ => False) h (wp_of_ok hrun ⟨rfl, rfl⟩)
      unfold calls
      rw [wp_bind]
      refine wp.mono hcall ?_ ?_
      · rintro r ⟨s1, c1⟩ ⟨h1, rfl, hs1⟩
        dsimp only at hs1
        subst hs1
        have heff : Effect e.p i .user e.c s s1 (.ret v) := (call_effect hw).of_ok hrun
        have hw' : Wears e.p i s1 := hw.ret heff
        refine ih h1 hw' hd hds hmain' ?_
        rintro f ⟨⟨retval, hc⟩, hid⟩
        rw [wp_bind, hc]
        exact wp.mono (thread_exit_panics h1 hid hw'.running) (fun _ _ hf => hf.elim) fun _ he => he
      · rintro x ⟨_, _, hf⟩
        exact hf.elim

/-- A main thread that calls `thread_exit` gets to `sched` in the state RUNNING. -/
theorem serve_panics {e : Service} {i : Tidx} (h : Holds [.ptable] c) (hw : Wears e.p i s)
    (hfit : e.c.fits k = true) (hrest : ∀ d ∈ e.rest, d.c.fits .user = true)
    (hmain : ¬ Each (fun s _ c => ¬ EndsMain e.p s c) e.p s k e.c (e.rest.map More.c)) :
    wp (serve e k) ⟨s, c⟩ (fun _ _ => False) fun x => x = .sched .running := by
  suffices hcalls : wp (do resumed e.toEvent k; calls e.toEvent k e.rest) ⟨s, c⟩
      (fun _ _ => False) fun x => x = .sched .running by
    unfold serve
    rw [wp_bind] at hcalls ⊢
    refine wp.mono hcalls (fun _ m hm => ?_) fun _ he => he
    rw [wp_bind]
    exact wp.mono hm (fun _ _ hf => hf.elim) fun _ he => he
  by_cases hk : k = .user
  · subst hk
    rw [wp_bind]
    exact resumed_wp h fun c1 h1 => calls_panic h1 hw hfit hrest hmain
  -- a thread that goes on in the kernel does so in its first call
  have hend : ¬ EndsMain e.p s e.c := by
    rintro ⟨⟨retval, hc⟩, -⟩
    exact hk (fits_user hfit hc)
  cases hds : e.rest with
  | nil =>
      rw [hds] at hmain
      exact (hmain hend).elim
  | cons d ds =>
      rw [hds] at hmain hrest
      rcases List.forall_mem_cons.1 hrest with ⟨hd, hds⟩
      rcases exists_later hend hmain with ⟨s', hs', hmain'⟩
      rcases of_returned hs' with ⟨v, hrun⟩
      have hcall := resumed_call (Q := fun r s1 => r = .ret v ∧ s1 = s') (E := fun _ => False) h
        hfit (fun r hr hid => hend ⟨⟨r, hr⟩, hid⟩) (wp_of_ok hrun ⟨rfl, rfl⟩)
      rw [wp_bind] at hcall ⊢
      refine wp.mono hcall (fun _ m hm => ?_) ?_
      · unfold calls
        rw [wp_bind]
        refine wp.mono hm ?_ ?_
        · rintro r ⟨s1, c1⟩ ⟨h1, rfl, hs1⟩
          dsimp only at hs1
          subst hs1
          have heff : Effect e.p i k e.c s s1 (.ret v) := (call_effect hw).of_ok hrun
          exact calls_panic h1 (hw.ret heff) hd hds hmain'
        · rintro x ⟨_, _, hf⟩
          exact hf.elim
      · rintro x ⟨_, _, hf⟩
        exact hf.elim

/-- Such a turn does not come to an end. -/
theorem turn_stops {e : Service} (h : Holds [] c) (he : e.Enabled s) (hmain : ¬ SparesMain s e) :
    Stops (turn e) ⟨s, c⟩ := by
  unfold turn
  simp only [Stops, wp_bind, wp_get]
  refine wp.mono (dispatch_wp h) ?_ fun _ _ => trivial
  rintro _ ⟨s1, c1⟩ ⟨hs1, h1⟩
  dsimp only at hs1 h1
  subst hs1
  exact wp.mono (serve_panics h1 he.1.1.1.wears he.1.1.2 he.rest hmain) (fun _ _ hf => hf.elim)
    fun _ _ => trivial

/-- Between turns nothing is locked, and the tables go through a run of the system
without locks. -/
theorem reachable_kernel {m : Machine} (hr : Reachable Start next m) :
    Reachable Init sliceNext m.kernel ∧ Holds [] m.cpu := by
  refine ReachOk.invariant (fun m => Reachable Init sliceNext m.kernel ∧ Holds [] m.cpu) ?_ ?_ hr
  · intro m hm
    exact ⟨.init hm.1, hm.2⟩
  · rintro ⟨s, c⟩ e m' ⟨hs, hc⟩ - hn
    unfold next at hn
    split at hn
    · next he =>
        split at hn
        · next r m1 hrun =>
            cases hn
            by_cases hmain : SparesMain s e
            · have hall : wp (slice e.slice) s
                  (fun r s' => (slice e.slice).run s = .ok (r, s')) fun _ => True :=
                wp_run fun r s' h => h
              rcases wp.of_ok (turn_does hc he hmain hall) hrun with ⟨hc', hrun'⟩
              refine ⟨.step (a := e.slice) hs trivial ?_, hc'⟩
              unfold sliceNext
              rw [if_pos he.1, hrun']
            · exact ((turn_stops hc he hmain).ne_ok hrun).elim
        · cases hn
    · cases hn

/-- A thread meets what `sched` asks for, on whatever way it gives up the CPU, if
and only if it is no main thread that calls `thread_exit`. -/
theorem meets_sched_iff {e : Service} {m m1 : Machine} (hr : Reachable Start next m)
    (he : e.Enabled m.kernel) (hd : (dispatch e.toEvent).run m = .ok ((), m1)) :
    MeetsSched e (m.kernel.cont e.i) m1 ↔ SparesMain m.kernel e := by
  rcases m with ⟨s, c⟩
  rcases m1 with ⟨s1, c1⟩
  rcases reachable_kernel hr with ⟨-, hc⟩
  rcases wp.of_ok (dispatch_wp hc) hd with ⟨hs1, hc1⟩
  dsimp only at hs1 hc1 he ⊢
  subst hs1
  constructor
  · intro hmeets
    by_contra hmain
    have hpanic := serve_panics hc1 he.1.1.1.wears he.1.1.2 he.rest hmain
    cases hrun : (serve e (s.cont e.i)).run ⟨s.dressed e.p e.i, c1⟩ with
    | ok r => exact wp.of_ok hpanic hrun
    | error x =>
        rw [wp.of_error hpanic hrun] at hrun
        exact hmeets .running hrun
  · intro hmain check hrun
    have hserve := serve_wp (Q := fun _ _ => True) (E := fun _ => True) hc1 he.1.1.2 he.rest hmain
      (wp_any fun _ _ => trivial)
    rcases wp.of_error hserve hrun with ⟨_, heq, -⟩
    cases heq

/-! ## The first process -/

/-- An idle CPU that runs a thread for which `switchuvm` has what it needs. -/
theorem dispatch_ends (h : Holds [] c) (hk : (s.pthread e.i).kstack ≠ 0)
    (hpd : (s.proc e.p).pgdir ≠ none) : ∃ m1, (dispatch e).run ⟨s, c⟩ = .ok ((), m1) := by
  have hw : Ends (dispatch e) ⟨s, c⟩ fun _ _ => True := by
    unfold dispatch sti
    rw [Ends, wp_bind, wp_setCpu, wp_bind]
    refine acquire_wp h.sti List.not_mem_nil fun c1 h1 => ?_
    rw [wp_lift]
    unfold switchTo mvThreadToProc switchuvm
    have hno : ((s.proc e.p).pgdir.isNone = true) = False := by
      simpa using hpd
    simp only [wp_bind, wp_get, wp_setProc, Kernel.setProc_self, hk, hno, if_false, wp_pure]
  rcases hw.exists with ⟨_, m1, hrun, -⟩
  exact ⟨m1, hrun⟩

/-- A CPU before `scheduler` runs. -/
def Cpu.zero : Cpu := ⟨fun _ => false, 0, false, false⟩

theorem Cpu.zero_holds : Holds [] Cpu.zero :=
  ⟨fun l => by simp [Cpu.zero], rfl, fun _ => rfl⟩

/-- The first process makes the call `a` and then the calls `ds`. -/
def first (p : Pidx) (i : Tidx) (a : Call) (ds : List More) : Service :=
  ⟨⟨⟨p, i, a, 0, 0⟩, none, none, 0, true⟩, ds⟩

/-- The first process can be picked for any calls that make no copy. -/
theorem first_runs (a : Call) (ds : List More) (ha : a.fits .user = true)
    (hds : ∀ d ∈ ds, d.c.fits .user = true) (hfork : a.forks = false)
    (hforks : ∀ d ∈ ds, d.c.forks = false) :
    ∃ s p i m1, Reachable Start next ⟨s, Cpu.zero⟩ ∧ (first p i a ds).Enabled s ∧
      s.cont i = .user ∧ (s.pthread i).thread_id = MAINTH ∧
      (dispatch (first p i a ds).toEvent).run ⟨s, Cpu.zero⟩ = .ok ((), m1) := by
  rcases (userinit_wp machine_booted).exists with ⟨_, s, hrun, p, i, hs⟩
  rcases hs.proc with ⟨pd, k, hk, -, hp⟩
  have hth := hs.th
  rw [hp] at hth
  have hinit : Init s := ⟨machine, machine_booted, hrun⟩
  obtain ⟨m1, hd⟩ := @dispatch_ends s Cpu.zero (first p i a ds).toEvent Cpu.zero_holds
    (by show (s.pthread i).kstack ≠ 0; rw [hth]; exact Nat.ne_of_gt hk)
    (by show (s.proc p).pgdir ≠ none; rw [hp]; simp)
  -- the process that `userinit` has made can be picked
  have hpick : Pickable s p i := by
    refine ⟨?_, ?_, ?_⟩
    · rw [hp]
    · rw [hth, hp]
      rfl
    · rw [hth]
      rfl
  have hown : OnOwnStack s i := by
    left
    rw [hth]
    rfl
  have hfit : a.fits (s.cont i) = true := by
    rw [hs.cont i]
    exact ha
  have hrest : ∀ c ∈ ds.map More.c, c.fits .user = true := by
    intro c hc
    rcases List.mem_map.1 hc with ⟨d, hd, rfl⟩
    exact hds d hd
  -- none of the calls makes a copy
  have hcopies : Each (fun s _ c => CopiesApart p s c) p (s.dressed p i) (s.cont i) a
      (ds.map More.c) := by
    refine Each.of_calls (fun _ _ => .of_forks hfork) fun c hc _ _ => .of_forks ?_
    rcases List.mem_map.1 hc with ⟨d, hd, rfl⟩
    exact hforks d hd
  refine ⟨s, p, i, m1, .init ⟨hinit, Cpu.zero_holds⟩, ⟨⟨⟨hpick, hfit⟩, hrest⟩, hown, hcopies⟩,
    hs.cont i, ?_, hd⟩
  rw [hth]
  rfl

/-- The first process calls `thread_exit`. -/
theorem main_exit_panics : ¬ ∀ m, Reachable Start next m → ∀ e, e.Enabled m.kernel →
    ∀ m1, (dispatch e.toEvent).run m = .ok ((), m1) → MeetsSched e (m.kernel.cont e.i) m1 := by
  intro hall
  obtain ⟨s, p, i, ⟨s1, c1⟩, hr, he, hcont, hid, hd⟩ :=
    first_runs (.thread_exit 0) [] rfl (by simp) rfl (by simp)
  have hmeets := hall _ hr _ he _ hd
  rcases wp.of_ok (dispatch_wp Cpu.zero_holds) hd with ⟨hs1, hc1⟩
  dsimp only at hs1 hc1
  subst hs1
  have hends : EndsMain p (s.dressed p i) (.thread_exit 0) := by
    refine ⟨⟨0, rfl⟩, ?_⟩
    unfold Kernel.dressed
    rw [Kernel.setProc_self]
    exact hid
  have hpanic := serve_panics (k := s.cont i) hc1 he.1.1.1.wears he.1.1.2 he.rest fun hspare =>
    hspare hends
  cases hrun : (serve (first p i (.thread_exit 0) []) (s.cont i)).run ⟨s.dressed p i, c1⟩ with
  | ok r => exact wp.of_ok hpanic hrun
  | error x =>
      rw [wp.of_error hpanic hrun] at hrun
      exact hmeets .running hrun

/-- The first process wakes others, grows and goes to sleep. -/
def nap : List More := [⟨.sbrk 4096, none, 0⟩, ⟨.sleep (.other 0), none, 0⟩]

/-- A time slice that ends in a timer tick. -/
theorem meets_sched_iff_sleep : ∃ s p i m1,
    (dispatch (first p i (.wakeup (.other 0)) nap).toEvent).run ⟨s, Cpu.zero⟩ = .ok ((), m1) ∧
      MeetsSched (first p i (.wakeup (.other 0)) nap) (s.cont i) m1 := by
  have hfits : ∀ d ∈ nap, d.c.fits .user = true := by decide
  have hforks : ∀ d ∈ nap, d.c.forks = false := by decide
  have hends : ∀ d ∈ nap.map More.c, d.ends = false := by decide
  obtain ⟨s, p, i, m1, hr, he, -, -, hd⟩ := first_runs (.wakeup (.other 0)) nap rfl hfits rfl hforks
  have hspare : ∀ {c : Call}, c.ends = false → ∀ s, Cont → ¬ EndsMain p s c := by
    rintro c hc s _ ⟨⟨r, rfl⟩, -⟩
    cases hc
  refine ⟨s, p, i, m1, hd, (meets_sched_iff hr he hd).2 ?_⟩
  exact Each.of_calls (hspare rfl) fun d hd => hspare (hends d hd)

end Xv6.Thread.Sched
