import Mathlib.Data.List.FinRange
import Xv6.Lib.Bytes
import Xv6.Lib.Disk
import Xv6.Lib.Prog

/-!
# The buffer cache of Project03

`bio.c` and `iderw` of `ide.c` for the one device that holds the file system.
The code is that of one process: a sleep that only another process could end
stops it. A sector is a block, so a write of a buffer reaches the disk whole.

A buffer has the fields that `bio.c` reads, the list of the buffers is the list
`order` of their indices, and `unused` is the test that both searches of `bget`
make. `b->lock` is a flag: the process that sets it is the only one there is. The
driver itself, with its queue and its interrupts, is in `Dev.Ide`.
-/

namespace Xv6.Log

open Xv6.Lib

/-! ## Data -/

def BSIZE : Nat := 512
def ROOTDEV : Nat := 1
def MAXOPBLOCKS : Nat := 10
def LOGSIZE : Nat := MAXOPBLOCKS * 10
def NBUF : Nat := MAXOPBLOCKS * 10
def FSSIZE : Nat := 2500000

/-- The contents of a disk block. -/
abbrev Block := Fin BSIZE → UInt8

/-- An index into `bcache.buf`. -/
abbrev Bidx := Fin NBUF

/-- `struct buf`; `valid` and `dirty` are the bits of `flags`, and `locked` says
whether the sleep lock is held. -/
structure Buf where
  valid : Bool
  dirty : Bool
  dev : Nat
  blockno : Nat
  locked : Bool
  refcnt : Nat
  data : Block

/-- Why the code does not go on: `panic`, a sleep that this process cannot end,
or an access past the end of an array. -/
inductive Stop
  | panic (msg : String)
  | asleep
  | fault
  deriving DecidableEq

/-- The log's part of the superblock. `mkfs` makes the log `LOGSIZE` blocks long. -/
structure LogArea where
  start : Nat
  size : Nat
  size_eq : size = LOGSIZE
  fits : start + size ≤ FSSIZE

/-- Where `mkfs` puts it. -/
def mkfsLog : LogArea := ⟨2, LOGSIZE, rfl, by decide⟩

/-- The buffer cache, the disk below it and `struct log`. `lh` is
`log.lh.block[0..log.lh.n)`. Two fields record history for the statements and
are read by no code: `writes`, the sector writes issued so far, and `commits`,
the value of `outstanding` at each entry of `commit`. -/
structure St where
  disk : Nat → Block
  order : List Bidx
  buf : Bidx → Buf
  is_flush : Bool
  log : LogArea
  outstanding : Nat
  committing : Bool
  lh : List Nat
  writes : List (Nat × Block)
  commits : List Nat

/-- Kernel code. -/
abbrev M (α : Type) := Prog Stop St α

def halt {α : Type} (msg : String) : M α := throw (.panic msg)

/-- Assign to fields of one buffer. -/
def St.setBuf (s : St) (i : Bidx) (f : Buf → Buf) : St :=
  { s with buf := Function.update s.buf i (f (s.buf i)) }

def setBuf (i : Bidx) (f : Buf → Buf) : M Unit := modify fun s => s.setBuf i f

/-! ## bio.c -/

/-- The state that `binit` leaves; the memory starts out zero. -/
def binit (log : LogArea) (disk : Nat → Block) : St where
  disk := disk
  order := (List.finRange NBUF).reverse
  buf := fun _ => ⟨false, false, 0, 0, false, 0, fun _ => 0⟩
  is_flush := false
  log := log
  outstanding := 0
  committing := false
  lh := []
  writes := []
  commits := []

/-- Neither referenced nor pinned. -/
def Buf.unused (b : Buf) : Bool := b.refcnt == 0 && !b.dirty

def St.num_unused_buf (s : St) : Nat := s.order.countP fun i => (s.buf i).unused

def Buf.caches (b : Buf) (blockno : Nat) : Bool := b.dev == ROOTDEV && b.blockno == blockno

def acquiresleep (i : Bidx) : M Unit := do
  let s ← get
  if (s.buf i).locked = true then throw .asleep
  setBuf i fun b => { b with locked := true }

/-- The two searches of `bget`: for a buffer that has the block, then, from the
least recently used on, for one to recycle. -/
def bgetFind (blockno : Nat) : M Bidx := do
  let s ← get
  match s.order.find? fun i => (s.buf i).caches blockno with
  | some i =>
      setBuf i fun b => { b with refcnt := b.refcnt + 1 }
      acquiresleep i
      return i
  | none =>
      match s.order.reverse.find? fun i => (s.buf i).unused with
      | some i =>
          setBuf i fun b =>
            { b with dev := ROOTDEV, blockno := blockno, valid := false, dirty := false,
                     refcnt := 1 }
          acquiresleep i
          return i
      | none => halt "bget: no buffers"

/-- `bget`. It calls `flush` when few buffers are unused and no flush is running. -/
def bgetWith (flush : M Unit) (blockno : Nat) : M Bidx := do
  let s ← get
  if s.is_flush = false ∧ s.num_unused_buf ≤ 2 then flush
  bgetFind blockno

/-- `iderw`, with the request served before it returns. -/
def iderw (i : Bidx) : M Unit := do
  let s ← get
  let b := s.buf i
  if b.locked = false then halt "iderw: buf not locked"
  if b.valid = true ∧ b.dirty = false then halt "iderw: nothing to do"
  if b.blockno ≥ FSSIZE then halt "incorrect blockno"
  if b.dirty = true then
    modify fun s =>
      { s with disk := Function.update s.disk b.blockno b.data,
               writes := s.writes ++ [(b.blockno, b.data)] }
  else
    setBuf i fun b => { b with data := s.disk b.blockno }
  setBuf i fun b => { b with valid := true, dirty := false }

def breadWith (flush : M Unit) (blockno : Nat) : M Bidx := do
  let i ← bgetWith flush blockno
  let s ← get
  if (s.buf i).valid = false then iderw i
  return i

def bwrite (i : Bidx) : M Unit := do
  let s ← get
  if (s.buf i).locked = false then halt "bwrite"
  setBuf i fun b => { b with dirty := true }
  iderw i

def brelse (i : Bidx) : M Unit := do
  let s ← get
  if (s.buf i).locked = false then halt "brelse"
  setBuf i fun b => { b with locked := false, refcnt := b.refcnt - 1 }
  let s ← get
  if (s.buf i).refcnt = 0 then
    modify fun s => { s with order := i :: s.order.erase i }

end Xv6.Log
