import Xv6.Fs.Disk

/-!
# Inodes of Project03

`fs.c` as the system calls see it: blocks are read and written in place, which is
what the buffer cache and the log make of them. A system call runs alone, so a
sleep lock that is held stays held, and taking it again never ends. There is one
device.

The state is the disk, the inode cache, the file table and what each process
keeps of files (`Kernel`); code on it is a `Prog` that stops with a `Stop`, which
tells a panic, a sleep that nobody ends, and a store outside `addrs[]` apart.
`readi` and `writei` follow up to ten symbolic links, so they walk paths
themselves. The loops over the bytes of a file have their length as fuel, as every
turn takes one at least.

After the code stand the rules by which the specifications of the later files are
proved, one for each access to the disk and the cache.
-/

namespace Xv6.Fs

open Xv6.Lib Prog

/-! ## Data -/

def NINODE : Nat := 50
def NFILE : Nat := 100
def NOFILE : Nat := 16
def NPROC : Nat := 64
def CONSOLE : Nat := 1

instance : NeZero NINODE := ⟨by decide⟩
instance : NeZero NFILE := ⟨by decide⟩
instance : NeZero NOFILE := ⟨by decide⟩
instance : NeZero NPROC := ⟨by decide⟩

/-- A `struct inode*` that is not null. -/
abbrev Entry := Fin NINODE

/-- `struct inode`; what is a copy of the disk inode is in `din`. -/
structure Inode where
  inum : Nat
  ref : Nat
  locked : Bool
  valid : Bool
  din : Dinode

inductive FileType
  | FD_NONE | FD_PIPE | FD_INODE
  deriving DecidableEq

/-- `struct file`, but for the pipe. -/
structure File where
  type : FileType
  ref : Nat
  readable : Bool
  writable : Bool
  ip : Option Entry
  off : Nat

/-- The files of a process; one that is not there has no directory. -/
structure Task where
  cwd : Option Entry
  ofile : Fin NOFILE → Option (Fin NFILE)

structure Kernel where
  disk : Disk
  sb : Superblock
  icache : Entry → Inode
  ftable : Fin NFILE → File
  task : Fin NPROC → Task

/-- Why a call does not end: a `panic`, a lock that the caller holds itself, a
null pointer, or an access beyond the end of an array. -/
inductive Stop
  | panic (msg : String)
  | deadlock
  | fault
  | overrun
  deriving DecidableEq

abbrev FM (α : Type) := Prog Stop Kernel α

def halt {α : Type} (msg : String) : FM α := throw (.panic msg)

namespace Kernel

/-- Assign to fields of an inode. -/
def setInode (s : Kernel) (ip : Entry) (f : Inode → Inode) : Kernel :=
  { s with icache := Function.update s.icache ip (f (s.icache ip)) }

def setBlock (s : Kernel) (b : Nat) (v : Block) : Kernel := { s with disk := s.disk.put b v }

end Kernel

def setInode (ip : Entry) (f : Inode → Inode) : FM Unit := modify fun s => s.setInode ip f

def setDin (ip : Entry) (f : Dinode → Dinode) : FM Unit :=
  setInode ip fun x => { x with din := f x.din }

/-! ## Blocks -/

def bread (b : Nat) : FM Block := do
  let s ← get
  if b < FSSIZE then return s.disk b
  halt "incorrect blockno"

/-- Assign to the data of a block, and `log_write` it. -/
def bwrite (b : Nat) (v : Block) : FM Unit := modify fun s => s.setBlock b v

/-- Zero a block. -/
def bzero (b : Nat) : FM Unit := do
  let _ ← bread b
  bwrite b zeroes

/-- The loops of `balloc` from block `b` on, with `n` blocks left. -/
def ballocFrom : Nat → Nat → FM Nat
  | 0, _ => halt "balloc: out of blocks"
  | n + 1, b => do
      let s ← get
      let bp ← bread (BBLOCK b s.sb)
      if getBit bp (b % BPB) = false then
        bwrite (BBLOCK b s.sb) (setBit bp (b % BPB))
        bzero b
        return b
      ballocFrom n (b + 1)

/-- Allocate a zeroed disk block. -/
def balloc : FM Nat := do
  let s ← get
  ballocFrom s.sb.size 0

/-- Free a disk block. -/
def bfree (b : Nat) : FM Unit := do
  let s ← get
  let bp ← bread (BBLOCK b s.sb)
  if getBit bp (b % BPB) = false then halt "freeing free block"
  bwrite (BBLOCK b s.sb) (clearBit bp (b % BPB))

/-! ## The inode cache -/

/-- Find the inode with number inum and return the in-memory copy. -/
def iget (inum : Nat) : FM Entry := do
  let s ← get
  match (List.finRange NINODE).find? fun ip => 0 < (s.icache ip).ref ∧
    (s.icache ip).inum = inum with
  | some ip => do
      setInode ip fun x => { x with ref := x.ref + 1 }
      return ip
  | none =>
      match (List.finRange NINODE).find? fun ip => (s.icache ip).ref = 0 with
      | none => halt "iget: no inodes"
      | some ip => do
          setInode ip fun x => { x with inum := inum, ref := 1, valid := false }
          return ip

/-- Increment reference count for ip. -/
def idup (ip : Entry) : FM Entry := do
  setInode ip fun x => { x with ref := x.ref + 1 }
  return ip

/-- `acquiresleep(&ip->lock)` -/
def acquiresleep (ip : Entry) : FM Unit := do
  let s ← get
  if (s.icache ip).locked = true then throw .deadlock
  setInode ip fun x => { x with locked := true }

/-- `releasesleep(&ip->lock)` -/
def releasesleep (ip : Entry) : FM Unit := setInode ip fun x => { x with locked := false }

/-- Lock the given inode. Reads the inode from disk if necessary. -/
def ilock (ip : Entry) : FM Unit := do
  let s ← get
  if (s.icache ip).ref < 1 then halt "ilock"
  acquiresleep ip
  if (s.icache ip).valid = false then
    let bp ← bread (IBLOCK (s.icache ip).inum s.sb)
    let din := dinodeAt bp ((s.icache ip).inum % IPB)
    setInode ip fun x => { x with din := din, valid := true }
    if din.type = 0 then halt "ilock: no type"

/-- Unlock the given inode. -/
def iunlock (ip : Entry) : FM Unit := do
  let s ← get
  if (s.icache ip).locked = false ∨ (s.icache ip).ref < 1 then halt "iunlock"
  releasesleep ip

/-- Copy a modified in-memory inode to disk. -/
def iupdate (ip : Entry) : FM Unit := do
  let s ← get
  let x := s.icache ip
  let bp ← bread (IBLOCK x.inum s.sb)
  bwrite (IBLOCK x.inum s.sb) (putDinode bp (x.inum % IPB) x.din)

/-- The loop of `ialloc` from inode `inum` on, with `n` inodes left. -/
def iallocFrom (type : Nat) : Nat → Nat → FM Entry
  | 0, _ => halt "ialloc: no inodes"
  | n + 1, inum => do
      let s ← get
      let bp ← bread (IBLOCK inum s.sb)
      if (dinodeAt bp (inum % IPB)).type = 0 then
        bwrite (IBLOCK inum s.sb) (putDinode bp (inum % IPB) (Dinode.zero.setType type))
        iget inum
      else iallocFrom type n (inum + 1)

/-- Allocate an inode. Mark it as allocated by giving it type type. -/
def ialloc (type : Nat) : FM Entry := do
  let s ← get
  iallocFrom type (s.sb.ninodes - 1) 1

/-! ## The blocks of a file -/

/-- `ip->addrs[k]`, allocated if it is zero. -/
def addrSlot (ip : Entry) (k : Nat) : FM Nat := do
  let s ← get
  let addr := (s.icache ip).din.addr k
  if addr = 0 then
    let addr ← balloc
    setDin ip fun d => d.setAddr k addr
    return addr
  else return addr

/-- `a[i]` in indirect block `b`, allocated if it is zero. -/
def indirectSlot (b i : Nat) : FM Nat := do
  let bp ← bread b
  if word bp i = 0 then
    let addr ← balloc
    let s ← get
    bwrite b (setWord (s.disk b) i addr)
    return addr
  else return word bp i

/-- Return the disk block address of the nth block in inode ip. If there is no
such block, bmap allocates one. -/
def bmap (ip : Entry) (bn : Nat) : FM Nat := do
  if bn < NDIRECT then addrSlot ip bn
  else
    let bn := bn - NDIRECT
    if bn < NINDIRECT then
      let addr ← addrSlot ip NDIRECT
      indirectSlot addr bn
    else
      let bn := bn - NINDIRECT
      if bn < NDINDIRECT then
        let addr ← addrSlot ip (NDIRECT + 1)
        let addr ← indirectSlot addr (bn / NINDIRECT)
        indirectSlot addr (bn % NINDIRECT)
      else
        let bn := bn - NDINDIRECT
        if bn < NTINDIRECT then
          let addr ← addrSlot ip (NDIRECT + 1 + 1)
          let addr ← indirectSlot addr (bn / (NINDIRECT * NINDIRECT))
          let addr ← indirectSlot addr (bn % (NINDIRECT * NINDIRECT) / NINDIRECT)
          indirectSlot addr (bn % (NINDIRECT * NINDIRECT) % NINDIRECT)
        else halt "bmap: out of range"

/-- Do `f` to those of the numbers that are not zero. -/
def eachWord (f : Nat → FM Unit) : List Nat → FM Unit
  | [] => return ()
  | a :: as => do
      if a ≠ 0 then f a
      eachWord f as

/-- The nested loops of `itrunc`: free what hangs below an indirect block of the
given depth, and then the block. -/
def freeTree : Nat → Nat → FM Unit
  | 0, b => bfree b
  | k + 1, b => do
      let bp ← bread b
      eachWord (freeTree k) ((List.range NINDIRECT).map (word bp))
      bfree b

/-- Free `ip->addrs[k]`, the root of a tree of the given depth. -/
def truncSlot (ip : Entry) (depth k : Nat) : FM Unit := do
  let s ← get
  let addr := (s.icache ip).din.addr k
  if addr ≠ 0 then
    freeTree depth addr
    setDin ip fun d => d.setAddr k 0

def truncDirect (ip : Entry) : List Nat → FM Unit
  | [] => return ()
  | k :: ks => do
      truncSlot ip 0 k
      truncDirect ip ks

/-- Truncate inode (discard contents). -/
def itrunc (ip : Entry) : FM Unit := do
  truncDirect ip (List.range NDIRECT)
  truncSlot ip 1 NDIRECT
  truncSlot ip 2 (NDIRECT + 1)
  truncSlot ip 3 (NDIRECT + 1 + 1)
  setDin ip fun d => d.setSize 0
  iupdate ip

/-- Drop a reference to an in-memory inode. If that was the last reference and
the inode has no links to it, free the inode (and its content) on disk. -/
def iput (ip : Entry) : FM Unit := do
  acquiresleep ip
  let s ← get
  let x := s.icache ip
  if x.valid = true ∧ x.din.nlink = 0 ∧ x.ref = 1 then
    itrunc ip
    setDin ip fun d => d.setType 0
    iupdate ip
    setInode ip fun x => { x with valid := false }
  releasesleep ip
  setInode ip fun x => { x with ref := x.ref - 1 }

def iunlockput (ip : Entry) : FM Unit := do
  iunlock ip
  iput ip

/-! ## Contents -/

/-- The loop of `readi`; every turn reads at least one byte. -/
def readFrom (ip : Entry) : Nat → Nat → Nat → FM (List UInt8)
  | 0, _, _ => return []
  | fuel + 1, off, n => do
      if n = 0 then return []
      let bp ← bread (← bmap ip (off / BSIZE))
      let m := min n (BSIZE - off % BSIZE)
      let rest ← readFrom ip fuel (off + m) (n - m)
      return ((List.range m).map fun i => byteAt bp (off % BSIZE + i)) ++ rest

/-- `readi` of an inode that is no device and no link; nothing stands for -1. -/
def readContent (ip : Entry) (off n : Nat) : FM (Option (List UInt8)) := do
  let s ← get
  let size := (s.icache ip).din.size
  if size < off ∨ 2 ^ 32 ≤ off + n then return none
  let n := if size < off + n then size - off else n
  return some (← readFrom ip n off n)

/-- The loop of `writei`; the result is the offset behind the bytes. -/
def writeFrom (ip : Entry) : Nat → Nat → List UInt8 → FM Nat
  | 0, off, _ => return off
  | fuel + 1, off, src => do
      if src = [] then return off
      let b ← bmap ip (off / BSIZE)
      let bp ← bread b
      let m := min src.length (BSIZE - off % BSIZE)
      bwrite b (patch bp (off % BSIZE) m fun i => src.getD i 0)
      writeFrom ip fuel (off + m) (src.drop m)

/-- `writei` to an inode that is no device and no link; false stands for -1. -/
def writeContent (ip : Entry) (src : List UInt8) (off : Nat) : FM Bool := do
  let s ← get
  if (s.icache ip).din.size < off ∨ 2 ^ 32 ≤ off + src.length then return false
  if MAXFILE * BSIZE < off + src.length then return false
  let off ← writeFrom ip src.length off src
  let s ← get
  if src ≠ [] ∧ (s.icache ip).din.size < off then
    setDin ip fun d => d.setSize off
    iupdate ip
  return true

/-! ## Directories -/

/-- `sizeof(struct dirent)` -/
def SIZEOF_DIRENT : Nat := 16

/-- The string in a field of bytes. -/
def cstr (l : List UInt8) : List UInt8 := l.takeWhile (· ≠ 0)

/-- `de.inum` -/
def deInum (de : List UInt8) : Nat := (de.getD 0 0).toNat + 256 * (de.getD 1 0).toNat

/-- `de.name` -/
def deName (de : List UInt8) : List UInt8 := cstr (de.drop 2)

/-- An entry with the given fields; `strncpy` fills up with zeros. -/
def dirent (inum : Nat) (name : List UInt8) : List UInt8 :=
  UInt8.ofNat inum :: UInt8.ofNat (inum / 256) ::
    (List.range DIRSIZ).map fun i => name.getD i 0

/-- Read the entry at `off`. -/
def readDirent (dp : Entry) (off : Nat) (msg : String) : FM (List UInt8) := do
  match ← readContent dp off SIZEOF_DIRENT with
  | none => halt msg
  | some de =>
      if de.length ≠ SIZEOF_DIRENT then halt msg
      return de

/-- The offsets of the entries of a directory with `size` bytes. -/
def entryOffs (size : Nat) : List Nat :=
  (List.range ((size + SIZEOF_DIRENT - 1) / SIZEOF_DIRENT)).map (· * SIZEOF_DIRENT)

/-- The loop of `dirlookup`. -/
def lookupFrom (dp : Entry) (name : List UInt8) : List Nat → FM (Option (Nat × Nat))
  | [] => return none
  | off :: offs => do
      let de ← readDirent dp off "dirlookup read"
      if deInum de ≠ 0 ∧ deName de = name then return some (deInum de, off)
      lookupFrom dp name offs

/-- Look for a directory entry in a directory: the inode, and the byte offset of
the entry. -/
def dirlookup (dp : Entry) (name : List UInt8) : FM (Option (Entry × Nat)) := do
  let s ← get
  if (s.icache dp).din.type ≠ T_DIR then halt "dirlookup not DIR"
  match ← lookupFrom dp name (entryOffs (s.icache dp).din.size) with
  | none => return none
  | some (inum, off) => return some (← iget inum, off)

/-- The loop of `dirlink`: the first empty entry, or the end. -/
def emptyFrom (dp : Entry) (size : Nat) : List Nat → FM Nat
  | [] => return (entryOffs size).length * SIZEOF_DIRENT
  | off :: offs => do
      let de ← readDirent dp off "dirlink read"
      if deInum de = 0 then return off
      emptyFrom dp size offs

/-- Write a new directory entry (name, inum) into the directory dp. -/
def dirlink (dp : Entry) (name : List UInt8) (inum : Nat) : FM Bool := do
  match ← dirlookup dp name with
  | some (ip, _) => do
      iput ip
      return false
  | none => do
      let s ← get
      let size := (s.icache dp).din.size
      let off ← emptyFrom dp size (entryOffs size)
      if (← writeContent dp (dirent inum name) off) = false then halt "dirlink"
      return true

/-! ## Paths -/

/-- `'/'` -/
def SLASH : UInt8 := 47

/-- The names that successive calls of `skipelem` return. -/
def elems (path : List UInt8) : List (List UInt8) :=
  ((path.splitOn SLASH).filter (· ≠ [])).map (List.take DIRSIZ)

/-- The loop of `namex`. -/
def walk (parent : Bool) : Entry → List (List UInt8) → FM (Option (Entry × List UInt8))
  | ip, [] => do
      if parent = true then
        iput ip
        return none
      return some (ip, [])
  | ip, name :: names => do
      ilock ip
      let s ← get
      if (s.icache ip).din.type ≠ T_DIR then
        iunlockput ip
        return none
      if parent = true ∧ names = [] then
        iunlock ip
        return some (ip, name)
      match ← dirlookup ip name with
      | none => do
          iunlockput ip
          return none
      | some (next, _) => do
          iunlockput ip
          walk parent next names

/-- Where `namex` starts. -/
def startInode (p : Fin NPROC) (path : List UInt8) : FM Entry := do
  if path.head? = some SLASH then iget ROOTINO
  else
    let s ← get
    match (s.task p).cwd with
    | none => throw .fault
    | some cwd => idup cwd

/-- Look up and return the inode for a path name; the parent and the final path
element if `parent` is set. -/
def namex (p : Fin NPROC) (path : List UInt8) (parent : Bool) :
    FM (Option (Entry × List UInt8)) := do
  let ip ← startInode p path
  walk parent ip (elems path)

def namei (p : Fin NPROC) (path : List UInt8) : FM (Option Entry) := do
  return (← namex p path false).map Prod.fst

def nameiparent (p : Fin NPROC) (path : List UInt8) : FM (Option (Entry × List UInt8)) :=
  namex p path true

/-! ## Reading and writing -/

/-- The bytes of `addrs[]`. -/
def addrBytes (d : Dinode) : List UInt8 :=
  (List.range (4 * (NDIRECT + 3))).map fun i => byteAt d (12 + i)

/-- The path in a symbolic link, as `safestrcpy` copies it. -/
def linkText (d : Dinode) : FM (List UInt8) := do
  if 4 * (NDIRECT + 3) < d.size ∧ cstr (addrBytes d) = addrBytes d then throw .overrun
  return cstr ((addrBytes d).take d.size)

/-- What `readi` and `writei` do at `bad`, and when they are done. -/
def unfollow (oip ip : Entry) : FM Unit := do
  if oip ≠ ip then
    iunlock ip
    ilock oip

/-- Symbolic Cycle Detection: the loop of `readi` and `writei`, with the number
of links that may still be followed. -/
def follow (p : Fin NPROC) (oip : Entry) : Nat → Entry → FM (Option Entry)
  | 0, ip => do
      let s ← get
      if (s.icache ip).din.type ≠ T_SYMLINK then return some ip
      -- It is considered as "Symbolic Cycle".
      unfollow oip ip
      return none
  | turns + 1, ip => do
      let s ← get
      if (s.icache ip).din.type ≠ T_SYMLINK then return some ip
      let path ← linkText (s.icache ip).din
      iunlock ip
      match ← namei p path with
      | none => do
          ilock oip
          return none
      | some ip => do
          ilock ip
          follow p oip turns ip

/-- `consoleread` and `consolewrite` as they deal with the inode. -/
def console {α : Type} (ip : Entry) (r : α) : FM α := do
  iunlock ip
  ilock ip
  return r

/-- Read data from inode; nothing stands for -1. `con` is what the console would
return. -/
def readi (p : Fin NPROC) (con : Option (List UInt8)) (oip : Entry) (off n : Nat) :
    FM (Option (List UInt8)) := do
  match ← follow p oip 10 oip with
  | none => return none
  | some ip => do
      let s ← get
      if (s.icache ip).din.type = T_DEV then
        if (s.icache ip).din.major ≠ CONSOLE then
          unfollow oip ip
          return none
        unfollow oip ip
        console ip con
      else
        let r ← readContent ip off n
        unfollow oip ip
        return r

/-- Write data to inode; false stands for -1. -/
def writei (p : Fin NPROC) (oip : Entry) (src : List UInt8) (off : Nat) : FM Bool := do
  match ← follow p oip 10 oip with
  | none => return false
  | some ip => do
      let s ← get
      if (s.icache ip).din.type = T_DEV then
        if (s.icache ip).din.major ≠ CONSOLE then
          unfollow oip ip
          return false
        unfollow oip ip
        console ip true
      else
        let r ← writeContent ip src off
        unfollow oip ip
        return r

/-! ## Rules -/

section rules

variable {s : Kernel} {ip : Entry} {f g : Inode → Inode} {Q : Unit → Kernel → Prop}
    {E : Stop → Prop}

@[simp] theorem setInode_wp : wp (setInode ip f) s Q E ↔ Q () (s.setInode ip f) := by
  unfold setInode
  rw [wp_modify]

@[simp] theorem setDin_wp {f : Dinode → Dinode} :
    wp (setDin ip f) s Q E ↔ Q () (s.setInode ip fun x => { x with din := f x.din }) := by
  unfold setDin
  rw [setInode_wp]

@[simp] theorem setInode_self : (s.setInode ip f).icache ip = f (s.icache ip) :=
  Function.update_self ..

theorem setInode_of_ne {j : Entry} (h : j ≠ ip) : (s.setInode ip f).icache j = s.icache j :=
  Function.update_of_ne h _ _

theorem setInode_setInode :
    (s.setInode ip f).setInode ip g = s.setInode ip fun x => g (f x) := by
  unfold Kernel.setInode
  simp

theorem setInode_id (h : f (s.icache ip) = s.icache ip) : s.setInode ip f = s := by
  unfold Kernel.setInode
  rw [h, Function.update_eq_self]

end rules

end Xv6.Fs
