import Mathlib.Data.Fintype.Basic
import Mathlib.Data.List.FinRange
import Xv6.Lib.Ring
import Xv6.Lib.Transition

/-!
# The MLFQ scheduler of Project01: data and queue operations

`ptable`, the three rings `mlfq[0..2]` and the scheduler's globals of
`Project01-MLFQ/proc.c`, with the functions that touch the rings. An `int` that
is an index of `ptable.proc[]` or `-1` is an `Option Pidx`.

Of `struct proc` only the fields the scheduler reads or writes are kept; memory,
files and the saved registers play no part in it. The rings have `NPROC` cells and
are written without a look at their size, as in the source (`Lib.Ring`), so a ring
may be overfull here too. The messages printed to the console are left out.
-/

namespace Xv6.Mlfq

open Xv6.Lib

def NPROC : Nat := 64

/-- An index of `ptable.proc[]`. -/
abbrev Pidx : Type := Fin NPROC

def PASSWORD : Int := 2018008240

/-- The bound `pickProc` starts its search of the best priority from. -/
def USELESS : Int := 200

inductive ProcState where
  | UNUSED | EMBRYO | SLEEPING | RUNNABLE | RUNNING | ZOMBIE
deriving DecidableEq, Repr

/-- A sleep channel: an address. The only ones told apart are the null pointer
and the process slots, which `wait` sleeps on. -/
inductive Chan where
  | null
  | proc (i : Pidx)
  | other (n : Nat)
deriving DecidableEq, Repr

structure Proc where
  state : ProcState
  pid : Int
  parent : Option Pidx
  chan : Chan
  killed : Bool
  priority : Int
  qlv : Int
  consumed_tq : Nat
deriving DecidableEq, Repr

/-- Where the kernel code of a process stands when another process gets the CPU.
`fork` and `exit` can be preempted between their locked sections. -/
inductive Kont where
  /-- in user code, or in a system call that does not touch the scheduler -/
  | user
  /-- in `fork()`, with slot `np` allocated and not yet RUNNABLE -/
  | fork (np : Pidx)
  /-- in `wait()`, at the head of its loop -/
  | wait
  /-- in `exit()`, before the section that makes the process a ZOMBIE -/
  | exit
deriving DecidableEq, Repr

/-- `struct fq`. -/
abbrev Fq : Type := Ring Pidx NPROC

structure St where
  proc : Pidx → Proc
  kont : Pidx → Kont
  mlfq : Nat → Fq
  nextpid : Int
  initproc : Pidx
  global_ticks : Nat
  scheduler_dictator : Option Pidx
  is_dictated : Bool
  /-- `c->proc` and the local `lv` of `scheduler()`; `none` at the head of its loop -/
  cpu : Option (Pidx × Nat)
  /-- ghost: some `enQ` has stored into a full ring -/
  overwrote : Bool

namespace St

/-- Assign to fields of `ptable.proc[p]`. -/
def setProc (s : St) (p : Pidx) (f : Proc → Proc) : St :=
  { s with proc := Function.update s.proc p (f (s.proc p)) }

def setKont (s : St) (p : Pidx) (k : Kont) : St :=
  { s with kont := Function.update s.kont p k }

@[simp] theorem setProc_proc_self (s : St) (p : Pidx) (f : Proc → Proc) :
    (s.setProc p f).proc p = f (s.proc p) := by simp [setProc]

@[simp] theorem setProc_proc_ne (s : St) {p q : Pidx} (f : Proc → Proc) (h : q ≠ p) :
    (s.setProc p f).proc q = s.proc q := by simp [setProc, h]

@[simp] theorem setProc_kont (s : St) (p : Pidx) (f : Proc → Proc) :
    (s.setProc p f).kont = s.kont := rfl

@[simp] theorem setKont_proc (s : St) (p : Pidx) (k : Kont) : (s.setKont p k).proc = s.proc := rfl

@[simp] theorem setKont_kont_self (s : St) (p : Pidx) (k : Kont) : (s.setKont p k).kont p = k := by
  simp [setKont]

@[simp] theorem setKont_kont_ne (s : St) {p q : Pidx} (k : Kont) (h : q ≠ p) :
    (s.setKont p k).kont q = s.kont q := by simp [setKont, h]

/-- The queue that `mlfq[lv]` stands for. -/
def q (s : St) (lv : Nat) : List Pidx := (s.mlfq lv).toList

/-- The process on the CPU. -/
def running (s : St) : Option Pidx := s.cpu.map Prod.fst

end St

/-! ## Queue operations -/

def enQ (s : St) (lv : Nat) (idx : Pidx) : St :=
  { s with
    mlfq := Function.update s.mlfq lv ((s.mlfq lv).push idx)
    overwrote := s.overwrote || decide (NPROC ≤ (s.mlfq lv).size) }

def isEmpty (s : St) (lv : Nat) : Bool := (s.mlfq lv).size = 0

def deQ (s : St) (lv : Nat) : Option Pidx × St :=
  match (s.mlfq lv).pop with
  | none => (none, s)
  | some (idx, r) => (some idx, { s with mlfq := Function.update s.mlfq lv r })

/-- `enQ(lv, deQ(lv))`, the body of the rotation loops. The empty case is never
met there: the loops run at most `mlfq[lv].size` times. -/
def rotate1 (s : St) (lv : Nat) : St :=
  match deQ s lv with
  | (none, s) => s
  | (some idx, s) => enQ s lv idx

/-- The loop of `pickProc` for levels 0 and 1: the first RUNNABLE among the next
`n` entries, which is not put back. -/
def pickFirst (s : St) (lv : Nat) : Nat → Option Pidx × St
  | 0 => (none, s)
  | n + 1 =>
      match deQ s lv with
      | (none, s) => (none, s)
      | (some idx, s) =>
          if (s.proc idx).state ≠ .RUNNABLE then pickFirst (enQ s lv idx) lv n
          else (some idx, s)

/-- The first loop of `pickProc` for level 2: from round `i` on, `n` more rounds,
with the best priority and its round found so far. -/
def scanPriority (s : St) (lv : Nat) : Nat → Nat → Int × Nat → (Int × Nat) × St
  | 0, _, best => (best, s)
  | n + 1, i, best =>
      match deQ s lv with
      | (none, s) => (best, s)
      | (some idx, s) =>
          let s := enQ s lv idx
          if (s.proc idx).state ≠ .RUNNABLE then scanPriority s lv n (i + 1) best
          else if best.1 > (s.proc idx).priority then
            scanPriority s lv n (i + 1) ((s.proc idx).priority, i)
          else scanPriority s lv n (i + 1) best

/-- The second loop of `pickProc` for level 2: put back `n` entries and take the
one after them. -/
def takeNth (s : St) (lv : Nat) (n : Nat) : Option Pidx × St :=
  deQ ((fun s => rotate1 s lv)^[n] s) lv

def pickProc (s : St) (lv : Nat) : Option Pidx × St :=
  if isEmpty s lv then (none, s)
  else
    let sz := (s.mlfq lv).size
    if lv = 2 then
      let r := scanPriority s lv sz 0 (USELESS, 0)
      if r.1.1 = USELESS then (none, r.2) else takeNth r.2 lv r.1.2
    else pickFirst s lv sz

/-- The body of the boosting loop: one entry of `mlfq[lv]` moves to `mlfq[0]`. -/
def boost1 (s : St) (lv : Nat) : St :=
  match deQ s lv with
  | (none, s) => s
  | (some idx, s) =>
      enQ (s.setProc idx fun p => { p with qlv := 0, priority := 3, consumed_tq := 0 }) 0 idx

/-- `for (i = 0; i < mlfq[lv].size; i++)` around `boost1`, the size read once. -/
def boostLevel (s : St) (lv : Nat) : St :=
  (fun s => boost1 s lv)^[(s.mlfq lv).size] s

/-- Put process `d` in front of `mlfq[0]`: enqueue it, then rotate the others
behind it. -/
def enQFront (s : St) (d : Pidx) : St :=
  (fun s => rotate1 s 0)^[(s.mlfq 0).size] (enQ s 0 d)

def priorityBoost (s : St) : St :=
  let s :=
    if s.is_dictated then
      let s := match s.scheduler_dictator with
        | some d => enQFront s d
        | none => s
      { s with is_dictated := false, scheduler_dictator := none }
    else s
  boostLevel (boostLevel (boostLevel s 0) 1) 2

end Xv6.Mlfq
