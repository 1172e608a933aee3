import Xv6.Fs.Inode
import Xv6.Fs.Mkfs
import Mathlib.Data.Finset.Card
import Mathlib.Data.Finset.Range

/-!
# The free map

What `balloc` and `bfree` do to the bits of the free map, and to nothing else. The
blocks before `nmeta` are the boot block, the superblock, the log, the inodes and
the free map itself.

* `balloc_wp`: a block that was free is marked and zeroed, or all are in use and
  `balloc` panics;
* `bfree_wp`, `freeAll_wp`: a marked block is free again, and so is each block of
  a list without repetitions.

The panic of `balloc` can come only when every block is marked, so callers that
count the free blocks (`nfree`) never meet it.
-/

namespace Xv6.Fs

open Xv6.Lib Prog
open Mkfs (sb nmeta)

variable {d d' : Disk} {b c : Nat} {s s' : Kernel} {E : Stop → Prop}

/-! ## Bits -/

/-- Block `b` belongs to the free map. -/
def InMap (b : Nat) : Prop := sb.bmapstart ≤ b ∧ b < nmeta

theorem nmeta_lt_FSSIZE : nmeta < FSSIZE := by decide

/-- The bit of every block lies in a bitmap block. -/
theorem BBLOCK_inMap (hb : b < FSSIZE) : InMap (BBLOCK b sb) := by
  refine ⟨Nat.le_add_left _ _, ?_⟩
  have hstart : sb.bmapstart = 128 := by decide
  have hmeta : nmeta = 739 := by decide
  unfold BBLOCK BPB BSIZE
  unfold FSSIZE at hb
  rw [hstart, hmeta]
  omega

theorem BBLOCK_ne (hb : InMap (BBLOCK b sb)) (hc : nmeta ≤ c) : BBLOCK b sb ≠ c := by
  have := hb.2
  omega

/-- A block behind the metadata holds no bit. -/
theorem used_put_of_ge (v : Block) (hb : InMap (BBLOCK b sb)) (hc : nmeta ≤ c) :
    (d.put c v).used sb b = d.used sb b := by
  unfold Disk.used
  rw [Disk.put_of_ne _ _ _ (BBLOCK_ne hb hc)]

theorem used_congr (h : ∀ b, InMap b → d' b = d b) (hb : InMap (BBLOCK b sb)) :
    d'.used sb b = d.used sb b := by
  unfold Disk.used
  rw [h _ hb]

theorem bit_lt : b % BPB < 8 * BSIZE := Nat.mod_lt _ (by decide)

/-- Two blocks on one bitmap block share a bit only if they are the same block. -/
theorem same_bit (h : BBLOCK c sb = BBLOCK b sb) : c % BPB = b % BPB ↔ c = b := by
  have hdiv : c / BPB = b / BPB := Nat.add_right_cancel h
  constructor
  · intro hmod
    rw [← Nat.div_add_mod c BPB, ← Nat.div_add_mod b BPB, hdiv, hmod]
  · rintro rfl
    rfl

/-- Setting the bit of one block. -/
theorem used_setBit (d : Disk) (b c : Nat) :
    (d.put (BBLOCK b sb) (setBit (d (BBLOCK b sb)) (b % BPB))).used sb c =
      (d.used sb c || decide (c = b)) := by
  unfold Disk.used
  by_cases h : BBLOCK c sb = BBLOCK b sb
  · rw [h, Disk.put_self, getBit_setBit _ _ bit_lt]
    simp only [same_bit h]
  · rw [Disk.put_of_ne _ _ _ h]
    have hne : c ≠ b := by
      rintro rfl
      exact h rfl
    simp [hne]

/-- Clearing the bit of one block. -/
theorem used_clearBit (d : Disk) (b c : Nat) :
    (d.put (BBLOCK b sb) (clearBit (d (BBLOCK b sb)) (b % BPB))).used sb c =
      (d.used sb c && decide (c ≠ b)) := by
  unfold Disk.used
  by_cases h : BBLOCK c sb = BBLOCK b sb
  · rw [h, Disk.put_self, getBit_clearBit _ _ bit_lt]
    simp only [ne_eq, same_bit h]
  · rw [Disk.put_of_ne _ _ _ h]
    have hne : c ≠ b := by
      rintro rfl
      exact h rfl
    simp [hne]

/-- A free map is given by its bits. -/
theorem map_ext (h : ∀ b, InMap (BBLOCK b sb) → d'.used sb b = d.used sb b) (hc : InMap c) :
    d' c = d c := by
  apply getBit_ext
  intro j hj
  have hb : BBLOCK ((c - sb.bmapstart) * BPB + j) sb = c := by
    unfold BBLOCK
    rw [Nat.mul_comm, Nat.mul_add_div (by decide), Nat.div_eq_of_lt (by unfold BPB; omega),
      Nat.add_zero, Nat.sub_add_cancel hc.1]
  have hbit : ((c - sb.bmapstart) * BPB + j) % BPB = j := by
    rw [Nat.mul_comm, Nat.mul_add_mod, Nat.mod_eq_of_lt (by unfold BPB; omega)]
  have hused := h ((c - sb.bmapstart) * BPB + j) (hb.symm ▸ hc)
  unfold Disk.used at hused
  rwa [hb, hbit] at hused

/-- The free map that `mkfs` writes. -/
theorem Mkfs.getBit_marked {n : Nat} (hn : n ≤ BPB) (j : Nat) :
    getBit (Mkfs.marked n) j = decide (j < n) := by
  induction n with
  | zero =>
      unfold Mkfs.marked getBit byteAt
      split <;> simp [zeroes]
  | succ n ih =>
      unfold Mkfs.marked
      rw [getBit_setBit _ _ (by unfold BPB at hn; omega), ih (Nat.le_of_succ_le hn),
        ← Bool.decide_or]
      exact decide_eq_decide.2 (by omega)

/-! ## `balloc` -/

/-- The disk after block `b` has been taken. -/
def Disk.take (d : Disk) (b : Nat) : Disk :=
  (d.put (BBLOCK b sb) (setBit (d (BBLOCK b sb)) (b % BPB))).put b zeroes

theorem take_of_ne (hb : c ≠ b) (hm : ¬ InMap c) (hlt : b < FSSIZE) : d.take b c = d c := by
  unfold Disk.take
  rw [Disk.put_of_ne _ _ _ hb, Disk.put_of_ne]
  rintro rfl
  exact hm (BBLOCK_inMap hlt)

@[simp] theorem take_self : d.take b b = zeroes := Disk.put_self _ _ _

theorem used_take (hb : nmeta ≤ b) (hc : InMap (BBLOCK c sb)) :
    (d.take b).used sb c = (d.used sb c || decide (c = b)) :=
  (used_put_of_ge _ hc hb).trans (used_setBit d b c)

theorem bread_wp {Q : Block → Kernel → Prop} (hb : b < FSSIZE) (h : Q (s.disk b) s) :
    wp (bread b) s Q E := by
  unfold bread
  simp only [wp_bind, wp_get]
  exact wp_ite (fun _ => (wp_pure ..).2 h) fun hn => absurd hb hn

@[simp] theorem bwrite_wp {v : Block} {Q : Unit → Kernel → Prop} :
    wp (bwrite b v) s Q E ↔ Q () (s.setBlock b v) := by
  unfold bwrite
  rw [wp_modify]

/-- `balloc` from block `b` on gives a free block and zeroes it, or finds none. By induction
on the blocks that are left; a block in use is passed over. -/
theorem ballocFrom_wp {n : Nat} {Q : Nat → Kernel → Prop} (hsb : s.sb = sb) (hn : b + n = FSSIZE)
    (hQ : ∀ c, b ≤ c → c < FSSIZE → s.disk.used sb c = false →
      Q c { s with disk := s.disk.take c })
    (hE : (∀ c, b ≤ c → c < FSSIZE → s.disk.used sb c = true) →
      E (.panic "balloc: out of blocks")) :
    wp (ballocFrom n b) s Q E := by
  induction n generalizing b with
  | zero =>
      refine (wp_throw ..).2 (hE ?_)
      intro c hge hlt
      omega
  | succ n ih =>
      have hb : b < FSSIZE := by omega
      have hmap := (BBLOCK_inMap hb).2
      have hmeta := nmeta_lt_FSSIZE
      unfold ballocFrom
      simp only [wp_bind, wp_get, hsb]
      refine bread_wp (by omega) ?_
      -- the bit is clear: the block is taken and zeroed; or it is set, and the next one is
      -- tried
      refine wp_ite (fun hfree => ?_) fun hused => ?_
      · unfold bzero
        simp only [wp_bind, bwrite_wp]
        refine bread_wp hb ?_
        exact (wp_pure ..).2 (hQ b (Nat.le_refl _) hb hfree)
      · apply ih (by omega)
        · intro c hge
          exact hQ c (Nat.le_of_succ_le hge)
        · intro hall
          apply hE
          intro c hge hlt
          rcases Nat.eq_or_lt_of_le hge with rfl | hlt'
          · unfold Disk.used
            simpa using hused
          · exact hall c hlt' hlt

/-- A block that is free is marked and zeroed, or there is none. -/
theorem balloc_wp {Q : Nat → Kernel → Prop} (hsb : s.sb = sb)
    (hQ : ∀ c, c < FSSIZE → s.disk.used sb c = false → Q c { s with disk := s.disk.take c })
    (hE : (∀ c, c < FSSIZE → s.disk.used sb c = true) → E (.panic "balloc: out of blocks")) :
    wp balloc s Q E := by
  unfold balloc
  simp only [wp_bind, wp_get, hsb]
  apply ballocFrom_wp hsb (Nat.zero_add _)
  · intro c _ hlt hfree
    exact hQ c hlt hfree
  · intro hall
    exact hE fun c hlt => hall c (Nat.zero_le _) hlt

/-! ## `bfree` -/

/-- The disk after block `b` has been freed. -/
def Disk.free (d : Disk) (b : Nat) : Disk :=
  d.put (BBLOCK b sb) (clearBit (d (BBLOCK b sb)) (b % BPB))

/-- `bfree` of a block in use clears its bit. -/
theorem bfree_wp {Q : Unit → Kernel → Prop} (hsb : s.sb = sb) (hb : b < FSSIZE)
    (hused : s.disk.used sb b = true) (hQ : Q () { s with disk := s.disk.free b }) :
    wp (bfree b) s Q E := by
  have hmap := (BBLOCK_inMap hb).2
  have hmeta := nmeta_lt_FSSIZE
  unfold bfree
  simp only [wp_bind, wp_get, hsb]
  refine bread_wp (by omega) ?_
  refine wp_ite (fun hfree => ?_) fun _ => bwrite_wp.2 hQ
  unfold Disk.used at hused
  rw [hused] at hfree
  cases hfree

/-- Free the blocks one after the other. -/
def freeAll : List Nat → FM Unit
  | [] => return ()
  | b :: bs => do
      bfree b
      freeAll bs

/-- Freeing two lists one behind the other. -/
theorem freeAll_append (as bs : List Nat) :
    freeAll (as ++ bs) = (do freeAll as; freeAll bs : FM Unit) := by
  induction as with
  | nil => rfl
  | cons a as ih =>
      show (do bfree a; freeAll (as ++ bs) : FM Unit) =
        (do (do bfree a; freeAll as : FM Unit); freeAll bs)
      rw [ih, bind_assoc]

/-- Blocks that are marked, each of them once, are freed without a panic. -/
theorem freeAll_wp {bs : List Nat} (hsb : s.sb = sb) (hnodup : bs.Nodup)
    (hlt : ∀ b ∈ bs, b < FSSIZE) (hused : ∀ b ∈ bs, s.disk.used sb b = true) :
    wp (freeAll bs) s (fun _ s' => s' = { s with disk := s'.disk } ∧
      (∀ c, ¬ InMap c → s'.disk c = s.disk c) ∧
      ∀ c, s'.disk.used sb c = (s.disk.used sb c && decide (c ∉ bs))) E := by
  induction bs generalizing s with
  | nil =>
      refine (wp_pure ..).2 ⟨rfl, fun _ _ => rfl, ?_⟩
      intro c
      simp
  | cons b bs ih =>
      rw [List.nodup_cons] at hnodup
      have hb : b < FSSIZE := hlt b List.mem_cons_self
      -- the first block's bit is cleared and no other
      have hbit : ∀ c, (s.disk.free b).used sb c = (s.disk.used sb c && decide (c ≠ b)) :=
        used_clearBit s.disk b
      unfold freeAll
      rw [wp_bind]
      refine bfree_wp hsb hb (hused b List.mem_cons_self) ?_
      refine wp.mono (ih hsb hnodup.2 (fun c hc => hlt c (List.mem_cons_of_mem _ hc)) ?_) ?_
        fun _ he => he
      · intro c hc
        have hne : c ≠ b := by
          rintro rfl
          exact hnodup.1 hc
        show (s.disk.free b).used sb c = true
        rw [hbit, hused c (List.mem_cons_of_mem _ hc)]
        simp [hne]
      · rintro _ s' ⟨hs', hkeep, hused'⟩
        refine ⟨hs', ?_, ?_⟩
        · intro c hc
          refine (hkeep c hc).trans (Disk.put_of_ne _ _ _ ?_)
          rintro rfl
          exact hc (BBLOCK_inMap hb)
        · intro c
          refine (hused' c).trans ?_
          show ((s.disk.free b).used sb c && _) = _
          rw [hbit, Bool.and_assoc]
          simp [not_or]

/-! ## Counting -/

/-- The number of free blocks. -/
def Disk.nfree (d : Disk) : Nat :=
  ((Finset.range FSSIZE).filter fun b => d.used sb b = false).card

end Xv6.Fs
