import Xv6.Log.Bio

/-!
# The log of Project03

`log.c`: `begin_op` and `end_op` only count; a commit is started by `sync`, or
by `flush` from inside `bget`. The header block holds the number of logged blocks
and their numbers, as little-endian words (`Lib.Bytes`).

The code is that of one process, over the buffer cache of `Log.Bio`. `log.lock` is
left out here, since nobody else asks for it, and `flush` is a parameter of `bread`:
under `commit` it finds `committing` set and returns (`flushBusy`). The lists
`writes` and `commits` of the state record the sector writes and with how many
operations running each commit started; the code does not read them.
-/

namespace Xv6.Log

open Xv6.Lib

/-! ## struct logheader in a block -/

/-- `lh->n`. -/
def headN (b : Block) : Nat := getLE b 0 4

/-- `lh->block[i]`. -/
def headBlock (b : Block) (i : Nat) : Nat := getLE b (4 + 4 * i) 4

/-- `hb->block[i] = bs[0]`, `hb->block[i + 1] = bs[1]` and so on. -/
def putBlocks (b : Block) : Nat → List Nat → Block
  | _, [] => b
  | i, x :: xs => putBlocks (setLE b (4 + 4 * i) 4 x) (i + 1) xs

/-- The header block after `write_head` has filled it in. -/
def putHead (b : Block) (lh : List Nat) : Block := putBlocks (setLE b 0 4 lh.length) 0 lh

/-! ## Copying blocks -/

/-- `memmove(dst->data, src->data, BSIZE)`. -/
def memmove (dst src : Bidx) : M Unit :=
  modify fun s => s.setBuf dst fun b => { b with data := (s.buf src).data }

/-- The loop of `install_trans` from index `tail` on; its body leaves `lh` alone. -/
def installFrom (bread : Nat → M Bidx) : Nat → List Nat → M Unit
  | _, [] => pure ()
  | tail, block :: blocks => do
      let s ← get
      let lbuf ← bread (s.log.start + tail + 1)
      let dbuf ← bread block
      memmove dbuf lbuf
      bwrite dbuf
      brelse lbuf
      brelse dbuf
      installFrom bread (tail + 1) blocks

def installTrans (bread : Nat → M Bidx) : M Unit := do
  let s ← get
  installFrom bread 0 s.lh

/-- The loop of `write_log` from index `tail` on. -/
def writeLogFrom (bread : Nat → M Bidx) : Nat → List Nat → M Unit
  | _, [] => pure ()
  | tail, block :: blocks => do
      let s ← get
      let to' ← bread (s.log.start + tail + 1)
      let from' ← bread block
      memmove to' from'
      bwrite to'
      brelse from'
      brelse to'
      writeLogFrom bread (tail + 1) blocks

def writeLog (bread : Nat → M Bidx) : M Unit := do
  let s ← get
  writeLogFrom bread 0 s.lh

def writeHead (bread : Nat → M Bidx) : M Unit := do
  let s ← get
  let buf ← bread s.log.start
  setBuf buf fun b => { b with data := putHead b.data s.lh }
  bwrite buf
  brelse buf

/-! ## Commit -/

/-- `flush` as the code under `commit` calls it: `log.committing` is set there,
so it returns at once. -/
def flushBusy : M Unit := pure ()

def breadBusy : Nat → M Bidx := breadWith flushBusy

def commit : M Unit := do
  modify fun s => { s with commits := s.commits ++ [s.outstanding] }
  let s ← get
  if s.lh ≠ [] then
    writeLog breadBusy
    writeHead breadBusy
    installTrans breadBusy
    modify fun s => { s with lh := [] }
    writeHead breadBusy

/-- The part that `sync` and `flush` share: a commit with `committing` and
`is_flush` set. -/
def commitFlagged : M Nat := do
  let s ← get
  let n := s.lh.length
  modify fun s => { s with committing := true, is_flush := true }
  commit
  modify fun s => { s with committing := false, is_flush := false }
  return n

def flush : M Nat := do
  let s ← get
  if s.committing = true then return 0
  commitFlagged

/-- `sync`. When a commit is running it calls `sleep` without the lock that
`sleep` releases, and `release` panics with the name of the lock. -/
def sync : M Nat := do
  let s ← get
  if s.committing = true then halt "log"
  commitFlagged

def bread : Nat → M Bidx := breadWith (do let _ ← flush)

/-! ## Operations -/

def beginOp : M Unit := do
  let s ← get
  if s.committing = true then throw .asleep
  modify fun s => { s with outstanding := s.outstanding + 1 }

def endOp : M Unit := do
  let s ← get
  if s.committing = true then throw .asleep
  modify fun s => { s with outstanding := s.outstanding - 1 }

def logWrite (i : Bidx) : M Unit := do
  let s ← get
  if s.lh.length ≥ LOGSIZE ∨ s.lh.length ≥ s.log.size - 1 then halt "too big a transaction"
  if s.outstanding < 1 then halt "log_write outside of trans"
  let b := (s.buf i).blockno
  modify fun s => { s with lh := if b ∈ s.lh then s.lh else s.lh ++ [b] }
  setBuf i fun b => { b with dirty := true }

/-! ## Recovery -/

/-- `read_head`. A negative count leaves the list empty. -/
def readHead (bread : Nat → M Bidx) : M Unit := do
  let s ← get
  let buf ← bread s.log.start
  let s ← get
  let hb := (s.buf buf).data
  let n := if headN hb < 2 ^ 31 then headN hb else 0
  if n > LOGSIZE then throw .fault
  modify fun s => { s with lh := (List.range n).map (headBlock hb) }
  brelse buf

def recoverFromLog : M Unit := do
  readHead bread
  installTrans bread
  modify fun s => { s with lh := [] }
  writeHead bread

end Xv6.Log
