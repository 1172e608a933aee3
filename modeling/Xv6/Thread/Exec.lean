import Xv6.Thread.Proc

/-!
# exec and exec2 of Project02

`exec.c`. What the program file says and whether its reads succeed is given;
the copied strings enter through their lengths.

`execWith` is the text that both calls share when bytes are left out: building the
image, the commit, and the end of the sibling threads. A file is an `Elf`, the
list of its program headers with the success of each read, or there is none. The
two calls as they stand in the source, down to the bytes of the file and of the
new stack, are in `Thread.Program`; `Thread.Covers` connects them with these.
-/

namespace Xv6.Thread

open Xv6.Lib

/-- `struct proghdr`, with the outcome of `loaduvm`'s read for each page. -/
structure ProgHdr where
  load : Bool
  vaddr : Nat
  memsz : Nat
  filesz : Nat
  reads : Nat → Bool

/-- A program file whose ELF header is in order; `none` stands for a program
header that cannot be read. -/
structure Elf where
  phdrs : List (Option ProgHdr)

def MAXARG : Nat := 32

/-- The loop of `loaduvm` from page `i` of the segment on. -/
def loadFrom (pd : PageDir) (ph : ProgHdr) : Nat → Nat → KM Bool
  | 0, _ => return true
  | n + 1, i => do
      let (_, found) ← walkpgdir pd (ph.vaddr / PGSIZE + i) false
      if found = false then throw (.panic "loaduvm: address should exist")
      if ph.reads i = false then return false
      loadFrom pd ph n (i + 1)

def loaduvm (pd : PageDir) (ph : ProgHdr) : KM Bool := do
  if ph.vaddr % PGSIZE ≠ 0 then throw (.panic "loaduvm: addr must be page aligned")
  loadFrom pd ph (pages ph.filesz) 0

/-- The loop that loads the program into memory; no size stands for `goto bad`. -/
def loadProgram : List (Option ProgHdr) → PageDir → Nat → KM (PageDir × Option Nat)
  | [], pd, sz => return (pd, some sz)
  | none :: _, pd, _ => return (pd, none)
  | some ph :: phs, pd, sz => do
      if ph.load = false then
        loadProgram phs pd sz
      else if ph.memsz < ph.filesz then return (pd, none)
      else if toUint (ph.vaddr + ph.memsz) < ph.vaddr then return (pd, none)
      else
        let (pd, sz) ← allocuvm pd sz (toUint (ph.vaddr + ph.memsz))
        if sz = 0 then return (pd, none)
        if ph.vaddr % PGSIZE ≠ 0 then return (pd, none)
        if (← loaduvm pd ph) = false then return (pd, none)
        loadProgram phs pd sz

/-- Push the argument strings, `argc` of which are done; no `sp` stands for
`goto bad`. -/
def pushArgs (pd : PageDir) : List Nat → Nat → Nat → KM (Option Nat)
  | [], _, sp => return some sp
  | len :: lens, argc, sp => do
      if argc ≥ MAXARG then return none
      let sp := toUint (sp - (len + 1)) / 4 * 4
      if (← copyout pd sp (len + 1)) = false then return none
      pushArgs pd lens (argc + 1) sp

/-- Push the strings and `ustack`. -/
def pushStack (pd : PageDir) (argv : List Nat) (sz : Nat) : KM Bool := do
  match ← pushArgs pd argv 0 sz with
  | none => return false
  | some sp => copyout pd (toUint (sp - (3 + argv.length + 1) * 4)) ((3 + argv.length + 1) * 4)

/-- Build the image in `pd`; no size stands for `goto bad`. -/
def buildImage (pd : PageDir) (elf : Elf) (argv : List Nat) (stacksize : Nat) :
    KM (PageDir × Option Nat) := do
  match ← loadProgram elf.phdrs pd 0 with
  | (pd, none) => return (pd, none)
  | (pd, some sz) => do
      let base := PGROUNDUP sz
      let (pd, sz) ← allocuvm pd base (toUint (base + (stacksize + 1) * PGSIZE))
      if sz = 0 then return (pd, none)
      let pd ← clearpteu pd (toUint (sz - (stacksize + 1) * PGSIZE) / PGSIZE)
      if (← pushStack pd argv sz) = false then return (pd, none)
      return (pd, some sz)

/-- The new image, or nothing after what was built has been given back. -/
def newImage (elf : Option Elf) (argv : List Nat) (stacksize : Nat) :
    KM (Option (PageDir × Nat)) := do
  match elf with
  | none => return none
  | some elf =>
      match ← setupkvm with
      | none => return none
      | some pd =>
          match ← buildImage pd elf argv stacksize with
          | (pd, none) => do
              freevm pd
              return none
          | (pd, some sz) => return some (pd, sz)

/-- Children of thread `th` become children of thread `to'`. -/
def reparent (th to' : Tidx) (x : Proc) : Proc :=
  if x.parent_pthread = some th then { x with parent_pthread := some to' } else x

/-- One turn of the loop of `deleteThreads`. -/
def deleteOther (p : Pidx) (th : Tidx) : M Unit := do
  let s ← get
  let x := s.proc p
  if (s.pthread th).pid = x.pid ∧ (s.pthread th).thread_id ≠ x.thread_id then
    modify fun s => { s with proc := fun c => reparent th x.thread_idx (s.proc c) }
    deleteThread p th

def deleteOthers (p : Pidx) : List Tidx → M Unit
  | [] => pure ()
  | th :: ths => do
      deleteOther p th
      deleteOthers p ths

/-- delete Threads left only one. -/
def deleteThreads (p : Pidx) : M Unit := do
  deleteOthers p (List.finRange NTHRD)
  setProc p fun x => { x with joiner_pthread := some x.thread_idx }

/-- What `exec` and `exec2` share. `elf` is what `path` names, if it is a program. -/
def execWith (p : Pidx) (elf : Option Elf) (argv : List Nat) (stacksize : Nat) : M Int := do
  match ← onKmem (newImage elf argv stacksize) with
  | none => return -1
  | some (pd, sz) => do
      -- Clean up other sibling threads.
      deleteThreads p
      let oldpgdir ← getPgdir p
      -- Commit to the user image.
      setProc p fun x =>
        { x with
          freed_sz := noFreed, pgdir := some pd, sz := sz, th_sz := sz, memlimit := 0
          thread_assign := 1, stacksz := stacksize, thread_id := MAINTH
          main_thread_idx := x.thread_idx }
      switchuvm p
      onKmem (freevm oldpgdir)
      return 0

def exec (p : Pidx) (elf : Option Elf) (argv : List Nat) : M Int := execWith p elf argv 1

def exec2 (p : Pidx) (elf : Option Elf) (argv : List Nat) (stacksize : Int) : M Int := do
  if stacksize < 1 ∨ stacksize > 100 then return -1
  execWith p elf argv stacksize.toNat

end Xv6.Thread
