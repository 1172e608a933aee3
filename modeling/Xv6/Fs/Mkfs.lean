import Xv6.Fs.Disk

/-!
# mkfs of Project03

`mkfs.c` builds the file system image on the host. An input file is what its
successive `read`s return, up to `BSIZE` bytes each.

The whole program is modelled, from the blank image to the rounded size of the
root directory: `rsect` and `wsect` on the image, `ialloc`, `iappend` with its
one indirect block, `balloc` at the end, and `main` with its loop over the
arguments. An assertion that fails stops it. Names are bytes; that `main` strips a
leading `_` of them is part of it, and so is its assertion that a name has no
slash. The calls of the host, `open` and `lseek` with what they can fail of, are
left out.
-/

namespace Xv6.Fs.Mkfs

open Xv6.Lib Prog

/-! ## Data -/

def NINODES : Nat := 200

def nbitmap : Nat := FSSIZE / (BSIZE * 8) + 1
def ninodeblocks : Nat := NINODES / IPB + 1
def nlog : Nat := LOGSIZE

/-- Number of meta blocks (boot, sb, nlog, inode, bitmap) -/
def nmeta : Nat := 2 + nlog + ninodeblocks + nbitmap

/-- Number of data blocks -/
def nblocks : Nat := FSSIZE - nmeta

def sb : Superblock :=
  ⟨FSSIZE, nblocks, NINODES, nlog, 2, 2 + nlog, 2 + nlog + ninodeblocks⟩

/-- An input file. -/
structure InFile where
  name : List UInt8
  /-- what the calls of `read` return -/
  reads : List { c : List UInt8 // c ≠ [] ∧ c.length ≤ BSIZE }

/-- The bytes of the file. -/
def InFile.content (f : InFile) : List UInt8 := (f.reads.map Subtype.val).flatten

/-- Why the program does not end well: an assertion, an `exit(1)`, or an access
beyond the end of an array. -/
inductive Stop
  | assertion
  | exit
  | overrun
  deriving DecidableEq

/-- The image and the global variables. -/
structure Img where
  disk : Disk
  freeinode : Nat
  freeblock : Nat

abbrev MM (α : Type) := Prog Stop Img α

def assert (c : Bool) : MM Unit := if c = true then pure () else throw .assertion

/-! ## Sectors and inodes -/

/-- The image has `FSSIZE` sectors. -/
def rsect (sec : Nat) : MM Block := do
  let s ← get
  if sec < FSSIZE then return s.disk sec
  throw .exit

def wsect (sec : Nat) (buf : Block) : MM Unit :=
  modify fun s => { s with disk := s.disk.put sec buf }

def rinode (inum : Nat) : MM Dinode := do
  let buf ← rsect (IBLOCK inum sb)
  return dinodeAt buf (inum % IPB)

def winode (inum : Nat) (ip : Dinode) : MM Unit := do
  let buf ← rsect (IBLOCK inum sb)
  wsect (IBLOCK inum sb) (putDinode buf (inum % IPB) ip)

def ialloc (type : Nat) : MM Nat := do
  let s ← get
  set { s with freeinode := (s.freeinode + 1) % 2 ^ 32 }
  winode s.freeinode (((Dinode.zero.setType type).setNlink 1).setSize 0)
  return s.freeinode

/-- `freeblock++` -/
def takeBlock : MM Nat := do
  let s ← get
  set { s with freeblock := (s.freeblock + 1) % 2 ^ 32 }
  return s.freeblock

/-! ## Appending -/

/-- `din.addrs[k]`, set to a new block if it is zero. -/
def slot (din : Dinode) (k : Nat) : MM Dinode := do
  if din.addr k = 0 then
    let b ← takeBlock
    return din.setAddr k b
  else return din

/-- The block that `iappend` puts block `fbn` of the file in. -/
def place (din : Dinode) (fbn : Nat) : MM (Dinode × Nat) := do
  if fbn < NDIRECT then
    let din ← slot din fbn
    return (din, din.addr fbn)
  else
    let din ← slot din NDIRECT
    let indirect ← rsect (din.addr NDIRECT)
    -- `indirect` is an array of the stack, with `NINDIRECT` elements
    if NINDIRECT ≤ fbn - NDIRECT then throw .overrun
    if word indirect (fbn - NDIRECT) = 0 then
      let b ← takeBlock
      wsect (din.addr NDIRECT) (setWord indirect (fbn - NDIRECT) b)
      return (din, b)
    else return (din, word indirect (fbn - NDIRECT))

/-- The loop of `iappend`; every turn takes at least one byte. -/
def iappendFrom : Nat → Dinode → Nat → List UInt8 → MM (Dinode × Nat)
  | 0, din, off, _ => return (din, off)
  | fuel + 1, din, off, p => do
      if p = [] then return (din, off)
      let fbn := off / BSIZE
      assert (fbn < MAXFILE)
      let (din, x) ← place din fbn
      let n1 := min p.length ((fbn + 1) * BSIZE - off)
      let buf ← rsect x
      wsect x (patch buf (off - fbn * BSIZE) n1 fun i => p.getD i 0)
      iappendFrom fuel din (off + n1) (p.drop n1)

def iappend (inum : Nat) (p : List UInt8) : MM Unit := do
  let din ← rinode inum
  let (din, off) ← iappendFrom p.length din din.size p
  winode inum (din.setSize off)

/-! ## The program -/

/-- `struct dirent`; `strncpy` fills up with zeros. -/
def dirent (inum : Nat) (name : List UInt8) : List UInt8 :=
  UInt8.ofNat inum :: UInt8.ofNat (inum / 256) ::
    (List.range DIRSIZ).map fun i => name.getD i 0

/-- Mark the first `used` blocks. -/
def marked : Nat → Block
  | 0 => zeroes
  | used + 1 => setBit (marked used) used

def balloc (used : Nat) : MM Unit := do
  assert (used < BSIZE * 8)
  wsect sb.bmapstart (marked used)

/-- `'/'` and `'_'` -/
def SLASH : UInt8 := 47
def UNDERSCORE : UInt8 := 95

/-- Skip leading _ in name when writing to file system. -/
def skipUnderscore (name : List UInt8) : List UInt8 :=
  if name.head? = some UNDERSCORE then name.drop 1 else name

/-- The loop that reads a file. -/
def appendAll (inum : Nat) : List (List UInt8) → MM Unit
  | [] => return ()
  | c :: cs => do
      iappend inum c
      appendAll inum cs

def addFile (rootino : Nat) (f : InFile) : MM Unit := do
  assert (SLASH ∉ f.name)
  let inum ← ialloc T_FILE
  iappend rootino (dirent inum (skipUnderscore f.name))
  appendAll inum (f.reads.map Subtype.val)

def addFiles (rootino : Nat) : List InFile → MM Unit
  | [] => return ()
  | f :: fs => do
      addFile rootino f
      addFiles rootino fs

/-- fix size of root inode dir -/
def fixRoot (rootino : Nat) : MM Unit := do
  let din ← rinode rootino
  winode rootino (din.setSize ((din.size / BSIZE + 1) * BSIZE))

/-- `'.'` -/
def DOT : UInt8 := 46

/-- `main`, once the image has been filled with zeros. -/
def main (files : List InFile) : MM Unit := do
  wsect 1 (writesb sb)
  let rootino ← ialloc T_DIR
  assert (rootino = ROOTINO)
  iappend rootino (dirent rootino [DOT])
  iappend rootino (dirent rootino [DOT, DOT])
  addFiles rootino files
  fixRoot rootino
  balloc (← get).freeblock

/-- An image of zeros. -/
def blank : Img := ⟨fun _ => zeroes, 1, nmeta⟩

end Xv6.Fs.Mkfs
