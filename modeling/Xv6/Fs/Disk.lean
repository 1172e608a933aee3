import Xv6.Lib.Bytes
import Xv6.Lib.Prog

/-!
# On-disk file system format of Project03

`fs.h`: blocks are arrays of bytes, a `struct dinode` is 64 bytes of a block, and
an indirect block is an array of little-endian block numbers. `param.h` of
Project03 gives the sizes, and a disk is a function from block numbers to blocks.

Every field has its offset (`Lib.Bytes`), and reading and writing it are
definitions under the source's names. The rules say that what is set is read back,
and that the other fields of the inode, the other inodes of the block and the
other blocks stay as they are. The string that a symbolic link keeps in `addrs[]`
is the subject of `Fs.Symlink`.
-/

namespace Xv6.Fs

open Xv6.Lib

/-! ## Layout -/

def ROOTINO : Nat := 1
def BSIZE : Nat := 512
def NDIRECT : Nat := 10
def NINDIRECT : Nat := BSIZE / 4
def NDINDIRECT : Nat := NINDIRECT * NINDIRECT
def NTINDIRECT : Nat := NINDIRECT * NINDIRECT * NINDIRECT
def MAXFILE : Nat := NDIRECT + NINDIRECT + NDINDIRECT + NTINDIRECT

/-- `sizeof(struct dinode)` -/
def SIZEOF_DINODE : Nat := 64

/-- Inodes per block. -/
def IPB : Nat := BSIZE / SIZEOF_DINODE

/-- Bitmap bits per block -/
def BPB : Nat := BSIZE * 8

def DIRSIZ : Nat := 14
def FSSIZE : Nat := 2500000
def LOGSIZE : Nat := 100

def T_DIR : Nat := 1
def T_FILE : Nat := 2
def T_DEV : Nat := 3
def T_SYMLINK : Nat := 4

abbrev Block := Fin BSIZE → UInt8

abbrev Disk := Nat → Block

def zeroes : Block := fun _ => 0

/-- The `i`-th number of an indirect block. -/
def word (b : Block) (i : Nat) : Nat := getLE b (4 * i) 4

def setWord (b : Block) (i v : Nat) : Block := setLE b (4 * i) 4 v

/-- Assign to block `b`. -/
def Disk.put (d : Disk) (b : Nat) (v : Block) : Disk := Function.update d b v

/-! ## Inodes -/

/-- `struct dinode`: `type`, `major`, `minor`, `nlink`, `size`, `addrs[]`. -/
abbrev Dinode := Fin SIZEOF_DINODE → UInt8

namespace Dinode

def zero : Dinode := fun _ => 0

def type (d : Dinode) : Nat := getLE d 0 2
def major (d : Dinode) : Nat := getLE d 2 2
def minor (d : Dinode) : Nat := getLE d 4 2
def nlink (d : Dinode) : Nat := getLE d 6 2
def size (d : Dinode) : Nat := getLE d 8 4

/-- `addrs[k]` -/
def addr (d : Dinode) (k : Nat) : Nat := getLE d (12 + 4 * k) 4

def setType (d : Dinode) (v : Nat) : Dinode := setLE d 0 2 v
def setMajor (d : Dinode) (v : Nat) : Dinode := setLE d 2 2 v
def setMinor (d : Dinode) (v : Nat) : Dinode := setLE d 4 2 v
def setNlink (d : Dinode) (v : Nat) : Dinode := setLE d 6 2 v
def setSize (d : Dinode) (v : Nat) : Dinode := setLE d 8 4 v
def setAddr (d : Dinode) (k v : Nat) : Dinode := setLE d (12 + 4 * k) 4 v

end Dinode

/-- The `k`-th inode of a block. -/
def dinodeAt (b : Block) (k : Nat) : Dinode := fun i => byteAt b (SIZEOF_DINODE * k + i.1)

def putDinode (b : Block) (k : Nat) (d : Dinode) : Block :=
  patch b (SIZEOF_DINODE * k) SIZEOF_DINODE (byteAt d)

structure Superblock where
  /-- Size of file system image (blocks) -/
  size : Nat
  /-- Number of data blocks -/
  nblocks : Nat
  /-- Number of inodes. -/
  ninodes : Nat
  /-- Number of log blocks -/
  nlog : Nat
  /-- Block number of first log block -/
  logstart : Nat
  /-- Block number of first inode block -/
  inodestart : Nat
  /-- Block number of first free map block -/
  bmapstart : Nat
  deriving DecidableEq

/-- Block containing inode i -/
def IBLOCK (i : Nat) (sb : Superblock) : Nat := i / IPB + sb.inodestart

/-- Block of free map containing bit for block b -/
def BBLOCK (b : Nat) (sb : Superblock) : Nat := b / BPB + sb.bmapstart

/-- Inode `i` as it is on the disk. -/
def Disk.dinode (d : Disk) (sb : Superblock) (i : Nat) : Dinode :=
  dinodeAt (d (IBLOCK i sb)) (i % IPB)

/-- The bit of block `b` in the free map. -/
def Disk.used (d : Disk) (sb : Superblock) (b : Nat) : Bool :=
  getBit (d (BBLOCK b sb)) (b % BPB)

/-- The superblock that lies in block 1. -/
def readsb (d : Disk) : Superblock :=
  ⟨word (d 1) 0, word (d 1) 1, word (d 1) 2, word (d 1) 3, word (d 1) 4, word (d 1) 5, word (d 1) 6⟩

/-- The first bytes of a block with the superblock. -/
def writesb (sb : Superblock) : Block :=
  setWord (setWord (setWord (setWord (setWord (setWord (setWord zeroes 0 sb.size) 1 sb.nblocks)
    2 sb.ninodes) 3 sb.nlog) 4 sb.logstart) 5 sb.inodestart) 6 sb.bmapstart

/-! ## Rules -/

section put

variable (d : Disk) (b : Nat) (v : Block)

@[simp] theorem Disk.put_self : d.put b v b = v := by simp [Disk.put]

theorem Disk.put_of_ne {c : Nat} (h : c ≠ b) : d.put b v c = d c := by simp [Disk.put, h]

end put

/-- A word of a block read back after it was written. -/
theorem word_setWord {i v : Nat} (b : Block) (hi : i < NINDIRECT) (hv : v < 2 ^ 32) :
    word (setWord b i v) i = v := by
  have hn : 4 * i + 4 ≤ BSIZE := by
    unfold NINDIRECT BSIZE at *
    omega
  exact (getLE_setLE b v hn).trans (Nat.mod_eq_of_lt hv)

theorem word_setWord_ne {i j v : Nat} (b : Block) (h : j ≠ i) :
    word (setWord b i v) j = word b j :=
  getLE_setLE_disjoint b v (by omega)

/-- Every word of a zeroed block is zero. -/
theorem word_zeroes (i : Nat) : word zeroes i = 0 := by
  have hbyte : ∀ o, getByte zeroes o = 0 := by
    intro o
    unfold getByte
    split <;> rfl
  unfold word
  simp [getLE, hbyte]

/-- A dinode read back from the block it was put in. -/
theorem dinodeAt_put (b : Block) {k : Nat} (d : Dinode) (hk : k < IPB) :
    dinodeAt (putDinode b k d) k = d := by
  have hn : SIZEOF_DINODE * k + SIZEOF_DINODE ≤ BSIZE := by
    unfold IPB SIZEOF_DINODE BSIZE at *
    omega
  funext i
  unfold dinodeAt putDinode
  rw [byteAt_patch_of_mem b _ hn i.2]
  simp [byteAt]

/-- The other dinodes of that block stay. -/
theorem dinodeAt_put_ne (b : Block) {k j : Nat} (d : Dinode) (h : j ≠ k) :
    dinodeAt (putDinode b k d) j = dinodeAt b j := by
  funext i
  have hi := i.2
  unfold dinodeAt putDinode
  apply byteAt_patch_of_notMem
  unfold SIZEOF_DINODE at *
  rcases Nat.lt_or_gt_of_ne h with h | h <;> omega

/-- Writing one inode leaves the others. -/
theorem Disk.dinode_put_ne {d : Disk} {sb : Superblock} {a k : Nat} (h : k ≠ a) (x : Dinode) :
    (d.put (IBLOCK a sb) (putDinode (d (IBLOCK a sb)) (a % IPB) x)).dinode sb k =
      d.dinode sb k := by
  unfold Disk.dinode
  by_cases hb : IBLOCK k sb = IBLOCK a sb
  · rw [hb, Disk.put_self]
    apply dinodeAt_put_ne
    unfold IBLOCK IPB BSIZE SIZEOF_DINODE at hb
    unfold IPB BSIZE SIZEOF_DINODE
    omega
  · rw [Disk.put_of_ne _ _ _ hb]

theorem Disk.dinode_put_self {d : Disk} {sb : Superblock} {a : Nat} (x : Dinode) :
    (d.put (IBLOCK a sb) (putDinode (d (IBLOCK a sb)) (a % IPB) x)).dinode sb a = x := by
  unfold Disk.dinode
  rw [Disk.put_self]
  exact dinodeAt_put _ _ (Nat.mod_lt _ (by decide))

/-- Bytes that are all zero make the number zero. -/
theorem getLE_zero {n : Nat} {b : Fin n → UInt8} (hb : ∀ i, b i = 0) (o k : Nat) :
    getLE b o k = 0 := by
  induction k generalizing o with
  | zero => rfl
  | succ k ih =>
      rw [getLE, ih]
      unfold getByte
      split <;> simp [hb]

namespace Dinode

variable (d : Dinode) (v : Nat) {j k : Nat}

@[simp] theorem zero_addr (k : Nat) : zero.addr k = 0 := getLE_zero (fun _ => rfl) _ _
@[simp] theorem zero_size : zero.size = 0 := getLE_zero (fun _ => rfl) _ _

theorem type_setType (hv : v < 2 ^ 16) : (d.setType v).type = v :=
  (getLE_setLE d v (by decide)).trans (Nat.mod_eq_of_lt hv)

theorem size_setSize (hv : v < 2 ^ 32) : (d.setSize v).size = v :=
  (getLE_setLE d v (by decide)).trans (Nat.mod_eq_of_lt hv)

theorem addr_setAddr (hk : k < NDIRECT + 3) (hv : v < 2 ^ 32) : (d.setAddr k v).addr k = v := by
  have hn : 12 + 4 * k + 4 ≤ SIZEOF_DINODE := by
    unfold NDIRECT SIZEOF_DINODE at *
    omega
  exact (getLE_setLE d v hn).trans (Nat.mod_eq_of_lt hv)

theorem addr_setAddr_ne (h : j ≠ k) : (d.setAddr k v).addr j = d.addr j :=
  getLE_setLE_disjoint d v (by omega)

@[simp] theorem addr_setType : (d.setType v).addr k = d.addr k :=
  getLE_setLE_disjoint d v (by omega)
@[simp] theorem addr_setNlink : (d.setNlink v).addr k = d.addr k :=
  getLE_setLE_disjoint d v (by omega)
@[simp] theorem addr_setSize : (d.setSize v).addr k = d.addr k :=
  getLE_setLE_disjoint d v (by omega)
@[simp] theorem type_setAddr : (d.setAddr k v).type = d.type :=
  getLE_setLE_disjoint d v (by omega)
@[simp] theorem size_setAddr : (d.setAddr k v).size = d.size :=
  getLE_setLE_disjoint d v (by omega)
@[simp] theorem nlink_setAddr : (d.setAddr k v).nlink = d.nlink :=
  getLE_setLE_disjoint d v (by omega)
@[simp] theorem type_setSize : (d.setSize v).type = d.type :=
  getLE_setLE_disjoint d v (by decide)
@[simp] theorem type_setNlink : (d.setNlink v).type = d.type :=
  getLE_setLE_disjoint d v (by decide)
@[simp] theorem size_setNlink : (d.setNlink v).size = d.size :=
  getLE_setLE_disjoint d v (by decide)
@[simp] theorem size_setType : (d.setType v).size = d.size :=
  getLE_setLE_disjoint d v (by decide)
@[simp] theorem nlink_setType : (d.setType v).nlink = d.nlink :=
  getLE_setLE_disjoint d v (by decide)
@[simp] theorem nlink_setSize : (d.setSize v).nlink = d.nlink :=
  getLE_setLE_disjoint d v (by decide)

end Dinode

/-- The superblock that was written is read back. -/
theorem readsb_writesb {d : Disk} {sb : Superblock} (h : d 1 = writesb sb)
    (hsb : sb.size < 2 ^ 32 ∧ sb.nblocks < 2 ^ 32 ∧ sb.ninodes < 2 ^ 32 ∧ sb.nlog < 2 ^ 32 ∧
      sb.logstart < 2 ^ 32 ∧ sb.inodestart < 2 ^ 32 ∧ sb.bmapstart < 2 ^ 32) : readsb d = sb := by
  rcases hsb with ⟨h1, h2, h3, h4, h5, h6, h7⟩
  unfold readsb
  rw [h]
  unfold writesb
  simp (disch := first | assumption | decide) only [word_setWord, word_setWord_ne]

end Xv6.Fs
