import Xv6.Fs.Content
import Xv6.Fs.Layout

/-!
# mkfs and the kernel

The image that `mkfs` has written, read by the kernel. Every file that fits in the
direct blocks and one indirect block is read back, and the free map marks its blocks.

* `agrees_iff_fits`: for all files that `mkfs` accepts, the kernel reads each from
  its inode as it was, and the free map is right, if and only if there are inodes
  for all of them and none needs a double indirect block;
* `big_disagrees`: a file that does need one takes `iappend` beyond its array.

What `mkfs` builds is described in `Fs.Layout`; the kernel's side is `ilock`,
`readi` and `bmap` as they stand in `Fs.Inode`, run on the image.
-/

namespace Xv6.Fs.Mkfs

open Xv6.Lib Prog

variable {d d' : Disk} {din : Dinode} {f : Placed} {fs : List Placed} {files : List InFile}
    {s : Img}
  {i b : Nat}

/-! ## The tree of a file -/

/-- The block tree that `iappend` builds. -/
def Placed.map (f : Placed) : Node → Nat
  | ⟨k, []⟩ =>
      if k < NDIRECT then (f.blks[k]?).getD 0 else if k = NDIRECT then f.ind.getD 0 else 0
  | ⟨k, [i]⟩ => if k = NDIRECT ∧ i < NINDIRECT then (f.blks[NDIRECT + i]?).getD 0 else 0
  | ⟨_, _ :: _ :: _⟩ => 0

/-- The place of a site. -/
def Site.node : Site → Node
  | .data k => if k < NDIRECT then ⟨k, []⟩ else ⟨NDIRECT, [k - NDIRECT]⟩
  | .ind => ⟨NDIRECT, []⟩

theorem Site.node_direct {k : Nat} (h : k < NDIRECT) : (Site.data k).node = ⟨k, []⟩ := if_pos h

theorem Site.node_indirect {k : Nat} (h : ¬ k < NDIRECT) :
    (Site.data k).node = ⟨NDIRECT, [k - NDIRECT]⟩ := if_neg h

/-- A place with a block is that of a site. -/
theorem Placed.map_site (f : Placed) {x : Node} (h : f.map x ≠ 0) :
    ∃ t : Site, t.node = x ∧ f.block t = some (f.map x) ∧ x.Valid := by
  have hsome : ∀ o : Option Nat, o.getD 0 ≠ 0 → o = some (o.getD 0) := by
    intro o ho
    cases o with
    | none => exact absurd rfl ho
    | some v => rfl
  rcases x with ⟨k, _ | ⟨i, _ | ⟨j, p⟩⟩⟩
  -- a slot of the inode: a direct block, or the indirect one
  · unfold Placed.map at h ⊢
    dsimp only at h ⊢
    split at h
    · next hk =>
      rw [if_pos hk]
      refine ⟨.data k, if_pos hk, hsome _ h, root_valid ?_⟩
      omega
    · next hk =>
      rw [if_neg hk]
      split at h
      · next hk' =>
        subst hk'
        rw [if_pos rfl]
        exact ⟨.ind, rfl, hsome _ h, root_valid (by decide)⟩
      · exact absurd rfl h
  -- one index: a block behind the indirect one
  · unfold Placed.map at h ⊢
    dsimp only at h ⊢
    split at h
    · next hk =>
      rw [if_pos hk]
      rcases hk with ⟨rfl, hi⟩
      refine ⟨.data (NDIRECT + i), ?_, hsome _ h, ?_⟩
      · rw [Site.node_indirect (by omega), Nat.add_sub_cancel_left]
      · refine ⟨by show NDIRECT < NDIRECT + 3; decide, by show 1 ≤ depth NDIRECT; decide, ?_⟩
        intro j hj
        rw [List.mem_singleton.1 hj]
        exact hi
    · exact absurd rfl h
  -- `mkfs` places nothing deeper
  · exact absurd rfl h

/-- A file as `mkfs` lays it out is a tree in the kernel's sense, node by node. -/
theorem Shape.tree (h : Shape d din f)
    (hrange : ∀ t b, f.block t = some b → nmeta ≤ b ∧ b < FSSIZE)
    (hinj : ∀ t u b, f.block t = some b → f.block u = some b → t = u) : Fs.Tree d din f.map where
  ptr := by
    rintro ⟨k, _ | ⟨i, p⟩⟩ hv hl
    -- the slots
    · show din.addr k = f.map ⟨k, []⟩
      unfold Placed.map
      dsimp only
      split
      · next hk => exact h.direct k hk
      · split
        · next hk => exact hk ▸ h.single
        · next h1 h2 =>
          have hk : k = NDIRECT + 1 ∨ k = NDIRECT + 1 + 1 := by
            have h3 : k < NDIRECT + 3 := hv.slot
            omega
          rcases hk with rfl | rfl
          · exact h.double
          · exact h.triple
    · -- only the indirect block has something below it
      have hl' : f.map ⟨k, p⟩ ≠ 0 := hl
      have hlen : p.length + 1 ≤ depth k := hv.length
      have hi : i < NINDIRECT := hv.index i List.mem_cons_self
      rcases f.map_site hl' with ⟨t, ht, hb, -⟩
      show word (d (f.map ⟨k, p⟩)) i = f.map ⟨k, i :: p⟩
      cases t with
      | data j =>
          exfalso
          by_cases hj : j < NDIRECT
          · rw [Site.node_direct hj] at ht
            cases ht
            unfold depth at hlen
            omega
          · rw [Site.node_indirect hj] at ht
            cases ht
            exact absurd hlen (by show ¬ 2 ≤ depth NDIRECT; decide)
      | ind =>
          cases ht
          rw [h.indirect _ hb i hi]
          show _ = if NDIRECT = NDIRECT ∧ i < NINDIRECT then _ else 0
          rw [if_pos ⟨rfl, hi⟩]
  valid := by
    intro x hx
    rcases f.map_site hx with ⟨t, -, -, hv⟩
    exact hv
  closed := by
    intro x hx
    rcases f.map_site hx with ⟨t, ht, hb, -⟩
    cases t with
    | ind =>
        subst ht
        trivial
    | data k =>
        by_cases hk : k < NDIRECT
        · rw [← ht, Site.node_direct hk]
          trivial
        · rw [← ht, Site.node_indirect hk]
          show f.map ⟨NDIRECT, []⟩ ≠ 0
          have hind : f.ind ≠ none := by
            intro hnone
            have h1 := h.single_iff.1 hnone
            have h2 := (List.getElem?_eq_some_iff.1 hb).1
            omega
          rcases Option.ne_none_iff_exists'.1 hind with ⟨b1, hb1⟩
          have hge := (hrange .ind b1 hb1).1
          unfold Placed.map
          dsimp only
          rw [if_neg (Nat.lt_irrefl _), if_pos rfl, hb1]
          rintro rfl
          exact absurd hge (by decide)
  inj := by
    intro x y hx hxy
    rcases f.map_site hx with ⟨t, ht, hb, -⟩
    rcases f.map_site (hxy ▸ hx) with ⟨u, hu, hb', -⟩
    rw [← ht, ← hu, hinj t u _ hb (hxy ▸ hb')]
  range := by
    intro x hx
    rcases f.map_site hx with ⟨t, -, hb, -⟩
    exact hrange t _ hb

/-- The leaf of a block number is the block placed there. -/
theorem Placed.map_leaf {bn : Nat} (hb : f.blks[bn]? = some b) (hlt : bn < NDIRECT + NINDIRECT) :
    f.map (leaf bn) = b := by
  unfold leaf Placed.map
  dsimp only
  by_cases hbn : bn < NDIRECT
  · rw [if_pos hbn]
    dsimp only
    rw [if_pos hbn, hb]
    rfl
  · have hi : bn - NDIRECT < NINDIRECT := by omega
    rw [if_neg hbn, if_pos hi]
    dsimp only
    rw [if_pos ⟨rfl, hi⟩, Nat.add_sub_cancel' (Nat.not_lt.1 hbn), hb]
    rfl

/-- The node of a place is the block placed there. -/
theorem Placed.map_node {t : Site} (hb : f.block t = some b)
    (hsmall : f.blks.length ≤ NDIRECT + NINDIRECT) : f.map t.node = b := by
  cases t with
  | ind =>
      have hind : f.ind = some b := hb
      unfold Site.node Placed.map
      dsimp only
      rw [if_neg (Nat.lt_irrefl _), if_pos rfl, hind]
      rfl
  | data k =>
      have hlt : k < f.blks.length := (List.getElem?_eq_some_iff.1 hb).1
      have hleaf := Placed.map_leaf hb (by omega)
      unfold leaf at hleaf
      dsimp only at hleaf
      by_cases hk : k < NDIRECT
      · rw [Site.node_direct hk]
        rwa [if_pos hk] at hleaf
      · rw [Site.node_indirect hk]
        rwa [if_neg hk, if_pos (by omega)] at hleaf

/-- The bytes `mkfs` wrote are those the kernel finds through the map. -/
theorem Holds.stores (h : Holds d f) (hsmall : f.blks.length ≤ NDIRECT + NINDIRECT)
    (hpos : ∀ t b, f.block t = some b → b ≠ 0) : Stores d f.map f.content := by
  intro o ho
  rcases h o ho with ⟨b, hb, hbyte⟩
  have hlt : o / BSIZE < f.blks.length := (List.getElem?_eq_some_iff.1 hb).1
  rw [Placed.map_leaf hb (by omega)]
  exact ⟨hpos (.data (o / BSIZE)) b hb, hbyte⟩

/-! ## The image -/

theorem finished_data (hb : nmeta ≤ b) : finished s b = s.disk b := by
  have hroot : IBLOCK ROOTINO sb < nmeta := by decide
  have hmap := bmapstart_lt
  unfold finished
  rw [Disk.put_of_ne _ _ _ (by omega), Disk.put_of_ne _ _ _ (by omega)]

/-- The inodes before the free map have been left alone, but for the size of the root
directory. -/
theorem finished_dinode (hi : IBLOCK i sb < sb.bmapstart) :
    (finished s).dinode sb i =
      if i = ROOTINO then
        (s.disk.dinode sb i).setSize (((s.disk.dinode sb i).size / BSIZE + 1) * BSIZE)
      else s.disk.dinode sb i := by
  have hput : (finished s).dinode sb i =
      (s.disk.put (IBLOCK ROOTINO sb) (putDinode (s.disk (IBLOCK ROOTINO sb)) (ROOTINO % IPB)
        ((s.disk.dinode sb ROOTINO).setSize
          (((s.disk.dinode sb ROOTINO).size / BSIZE + 1) * BSIZE)))).dinode sb i := by
    unfold finished Disk.dinode
    dsimp only
    rw [Disk.put_of_ne _ _ _ (Nat.ne_of_lt hi)]
  rw [hput]
  split
  · next h =>
    subst h
    exact Disk.dinode_put_self _
  · next h => exact Disk.dinode_put_ne h _

/-- Writing the bitmap at the end touches no file. -/
theorem finished_shape (h : Shape s.disk (s.disk.dinode sb i) f) (hi : IBLOCK i sb < sb.bmapstart)
    (hind : ∀ b, f.ind = some b → nmeta ≤ b) :
    Shape (finished s) ((finished s).dinode sb i) f := by
  have hshape : Shape s.disk ((finished s).dinode sb i) f := by
    rw [finished_dinode hi]
    split
    · exact h.setSize _
    · exact h
  exact hshape.frame fun b hb => finished_data (hind b hb)

/-- The blocks of the `i`-th file form a tree. -/
theorem Inv.tree (h : Inv s fs) (hf : fs[i]? = some f) (hi : IBLOCK (i + 1) sb < sb.bmapstart) :
    Fs.Tree (finished s) ((finished s).dinode sb (i + 1)) f.map := by
  have hblock : ∀ t b, f.block t = some b → blockAt fs i t = some b := fun t b hb =>
    (blockAt_of hf t).trans hb
  have hrange : ∀ t b, f.block t = some b → nmeta ≤ b ∧ b < FSSIZE := by
    intro t b hb
    have h1 := h.good.alloc.held i t b (hblock t b hb)
    exact ⟨h1.1, Nat.lt_of_lt_of_le h1.2 h.good.bound⟩
  refine (finished_shape (h.good.shape i f hf) hi fun b hb => (hrange .ind b hb).1).tree hrange ?_
  intro t u b ht hu
  exact (h.good.alloc.apart i t i u b (hblock t b ht) (hblock u b hu)).2

/-- The free map marks the first blocks. -/
theorem finished_used (h : Inv s fs) (hfew : IBLOCK fs.length sb < sb.bmapstart)
    (hfree : s.freeblock < BSIZE * 8) (hb : b < FSSIZE) :
    (finished s).used sb b = decide (b < s.freeblock) := by
  have hmap := BBLOCK_inMap hb
  unfold Disk.used finished
  by_cases hlt : b < BPB
  -- `mkfs` fills one bitmap block, which has the bits of all its blocks
  · have hblock : BBLOCK b sb = sb.bmapstart := by
      unfold BBLOCK
      rw [Nat.div_eq_of_lt hlt, Nat.zero_add]
    rw [hblock, Disk.put_self, getBit_marked (Nat.le_of_lt hfree), Nat.mod_eq_of_lt hlt]
  -- the others stay zero
  · have hdiv : 0 < b / BPB := Nat.div_pos (Nat.not_lt.1 hlt) (by decide)
    have hblock : BBLOCK b sb ≠ sb.bmapstart := by
      unfold BBLOCK
      omega
    have hroot : IBLOCK ROOTINO sb < sb.bmapstart := by decide
    have hzero : ∀ j, getBit zeroes j = false := by
      intro j
      unfold getBit byteAt
      split <;> exact Nat.zero_testBit _
    rw [Disk.put_of_ne _ _ _ hblock, Disk.put_of_ne _ _ _ (by have := hmap.1; omega),
      h.spare _ (by have := hmap.1; omega) hmap.2, hzero]
    have hge : s.freeblock ≤ b := by
      unfold BPB at hlt
      omega
    exact (decide_eq_false (Nat.not_lt.2 hge)).symm

/-! ## What the kernel makes of it -/

/-- The number at a place, as `bmap` comes to it. -/
def treeOf (d : Disk) (din : Dinode) (k : Nat) : List Nat → Nat
  | [] => din.addr k
  | i :: p => if treeOf d din k p = 0 then 0 else word (d (treeOf d din k p)) i

/-- Block `b` is used by the inode. -/
def Owned (d : Disk) (din : Dinode) (b : Nat) : Prop :=
  b ≠ 0 ∧ ∃ k p, Node.Valid ⟨k, p⟩ ∧ treeOf d din k p = b

/-- The walk from the addresses of a dinode agrees with the map. -/
theorem treeOf_eq {m : Node → Nat} {k : Nat} {p : List Nat} (h : Fs.Tree d din m)
    (hv : Node.Valid ⟨k, p⟩) : treeOf d din k p = m ⟨k, p⟩ := by
  induction p with
  | nil => exact h.ptr ⟨k, []⟩ hv trivial
  | cons i p ih =>
      have hup := ih hv.up
      unfold treeOf
      rw [hup]
      split
      · next h0 => exact (h.child_zero h0 i).symm
      · next h0 => exact h.ptr ⟨k, i :: p⟩ hv h0

/-- A file owns exactly the blocks its map holds. -/
theorem owned_iff {m : Node → Nat} (h : Fs.Tree d din m) : Owned d din b ↔ Fs.Holds m b := by
  constructor
  · rintro ⟨h0, k, p, hv, rfl⟩
    rw [treeOf_eq h hv] at h0 ⊢
    exact ⟨_, h0, rfl⟩
  · rintro ⟨⟨k, p⟩, h0, rfl⟩
    exact ⟨h0, k, p, h.valid _ h0, treeOf_eq h (h.valid _ h0)⟩

/-- The inode of the `i`-th input file. -/
def inumOf (i : Nat) : Nat := i + 2

/-- The kernel, on the disk `d`, reads the input files as they were, without taking
blocks; and the free map marks the metadata and the blocks of the inodes. -/
structure Agrees (files : List InFile) (d : Disk) : Prop where
  read : ∀ (i : Nat) (x : InFile), files[i]? = some x → ∀ (s : Kernel) (ip : Entry),
    s.disk = d → s.sb = readsb d → (s.icache ip).inum = inumOf i → 1 ≤ (s.icache ip).ref →
    (s.icache ip).locked = false → (s.icache ip).valid = false →
    Ends (ilock ip) s fun _ s1 =>
      (∀ p con off n, Ends (readi p con ip off n) s1 fun r s2 =>
        r = readSpec x.content off n ∧ s2 = s1) ∧
      ∀ bn, bn < Fs.blocks (s1.icache ip).din.size → Ends (bmap ip bn) s1 fun _ s2 => s2 = s1
  bits : ∀ b, b < FSSIZE → (d.used sb b = true ↔
    b < nmeta ∨ ∃ inum, 1 ≤ inum ∧ inum ≤ files.length + 1 ∧ Owned d (d.dinode sb inum) b)

/-- `mkfs` stops neither at an assertion nor with an error. -/
def Accepts (files : List InFile) : Prop :=
  wp (main files) blank (fun _ _ => True) fun e => e = .overrun

/-- There are inodes for all files, and none needs a double indirect block. -/
def Fits (files : List InFile) : Prop :=
  inumOf files.length ≤ IPB * ninodeblocks ∧
    ∀ x ∈ files, x.content.length ≤ (NDIRECT + NINDIRECT) * BSIZE

/-! ### Enough inodes -/

/-- Locking an inode that is not in the cache reads it from the disk. -/
theorem ilock_wp {k : Kernel} {ip : Entry} {Q : Unit → Kernel → Prop} {E : Fs.Stop → Prop}
    (hsb : k.sb = sb) (href : 1 ≤ (k.icache ip).ref) (hlock : (k.icache ip).locked = false)
    (hvalid : (k.icache ip).valid = false) (hi : IBLOCK (k.icache ip).inum sb < FSSIZE)
    (htype : (k.disk.dinode sb (k.icache ip).inum).type ≠ 0)
    (hQ : Q () (k.setInode ip fun x =>
      { x with locked := true, din := k.disk.dinode sb (k.icache ip).inum, valid := true })) :
    wp (ilock ip) k Q E := by
  have hload : dinodeAt (k.disk (IBLOCK (k.icache ip).inum sb)) ((k.icache ip).inum % IPB) =
      k.disk.dinode sb (k.icache ip).inum := rfl
  unfold ilock acquiresleep
  simp only [wp_bind, wp_get]
  rw [if_neg (Nat.not_lt.2 href)]
  simp only [wp_bind, wp_get, hlock, hvalid, Bool.false_eq_true, if_false, if_true,
    setInode_wp]
  rw [hsb]
  refine bread_wp hi ?_
  rw [setInode_setInode]
  refine wp_ite (fun h0 => absurd h0 htype) fun _ => (wp_pure ..).2 hQ

/-- The finished image has the superblock. -/
theorem finished_super (h : Inv s fs) : readsb (finished s) = sb := by
  have h1 : finished s 1 = writesb sb := by
    have hroot : IBLOCK ROOTINO sb ≠ 1 := by decide
    have hmap : sb.bmapstart ≠ 1 := by decide
    unfold finished
    rw [Disk.put_of_ne _ _ _ hmap.symm, Disk.put_of_ne _ _ _ hroot.symm]
    exact h.good.super
  exact readsb_writesb h1 (by decide)

/-- The inodes in use lie before the bitmap. -/
theorem inode_room {n : Nat} (h : inumOf n ≤ IPB * ninodeblocks) (hi : i < inumOf n) :
    IBLOCK i sb < sb.bmapstart := by
  have hipb : IPB = 8 := by decide
  have hblocks : ninodeblocks = 26 := by decide
  have hstart : sb.inodestart = 102 := by decide
  have hmap : sb.bmapstart = 128 := by decide
  unfold IBLOCK
  rw [hipb, hblocks] at h
  rw [hipb, hstart, hmap]
  omega

/-- An image for which there were enough inodes. -/
theorem agrees_of_tree (h : Tree s fs files) (hfree : s.freeblock < BSIZE * 8)
    (hroom : inumOf files.length ≤ IPB * ninodeblocks) : Agrees files (finished s) := by
  have hmeta := nmeta_lt_FSSIZE
  have hmap := bmapstart_lt
  have hlen := h.length
  have hinode : ∀ i, i < inumOf files.length → IBLOCK i sb < sb.bmapstart := fun i hi =>
    inode_room hroom hi
  have hused : ∀ b, b < FSSIZE → (finished s).used sb b = decide (b < s.freeblock) := by
    intro b hb
    refine finished_used h.inv ?_ hfree hb
    rw [hlen]
    exact hinode _ (Nat.lt_succ_self _)
  have htree : ∀ (i : Nat) (f : Placed), fs[i]? = some f →
      Fs.Tree (finished s) ((finished s).dinode sb (i + 1)) f.map := by
    intro i f hf
    have hi : i < fs.length := (List.getElem?_eq_some_iff.1 hf).1
    exact h.inv.tree hf (hinode _ (by unfold inumOf; omega))
  constructor
  · intro i x hx k ip hdisk hsb hinum href hlock hvalid
    rw [finished_super h.inv] at hsb
    rcases h.file i x hx with ⟨f, hf, htype, hcontent⟩
    have hi : i < files.length := (List.getElem?_eq_some_iff.1 hx).1
    have hi' : IBLOCK (inumOf i) sb < sb.bmapstart := hinode _ (by unfold inumOf; omega)
    have hdin := finished_dinode (s := s) hi'
    rw [if_neg (by unfold inumOf ROOTINO; omega)] at hdin
    have htype' : ((finished s).dinode sb (inumOf i)).type = T_FILE := by
      rw [hdin, ← htype]
      exact (h.inv.good.shape _ f hf).type
    have hsize : ((finished s).dinode sb (inumOf i)).size = x.content.length := by
      rw [hdin, ← hcontent]
      exact h.inv.size _ f hf
    have hsmall := (h.inv.good.shape _ f hf).small
    -- the bytes, on the disk that the kernel sees
    have hstores : Stores (finished s) f.map x.content := by
      rw [← hcontent]
      refine Stores.congr ((h.inv.good.holds _ f hf).stores hsmall ?_) ?_
      · intro t b hb
        exact (h.inv.good.block hf hb).2.2
      · intro y hy
        exact finished_data ((htree _ f hf).range y hy).1
    have hfits : x.content.length ≤ MAXFILE * BSIZE := by
      refine (h.small (List.mem_of_getElem? hx)).trans ?_
      exact Nat.mul_le_mul_right _ (by decide)
    refine ilock_wp hsb href hlock hvalid ?_ ?_ ?_
    · rw [hinum]
      omega
    · rw [hdisk, hinum, htype']
      decide
    · generalize hs1 : (k.setInode ip fun y =>
        { y with locked := true, din := k.disk.dinode sb (k.icache ip).inum, valid := true }) = s1
      have hdisk1 : s1.disk = finished s := by rw [← hs1]; exact hdisk
      have hdin1 : (s1.icache ip).din = (finished s).dinode sb (inumOf i) := by
        rw [← hs1, setInode_self, hdisk, hinum]
      have hfile : FileOf s1.disk (s1.icache ip).din f.map x.content := by
        rw [hdisk1, hdin1]
        exact ⟨htree _ f hf, htype', hsize, hfits, hstores⟩
      have hmapped := hfile.tree.mapped (by rw [← hs1]; exact hsb)
        (by
          intro b hb
          rw [hdisk1, hused b (by omega)]
          exact decide_eq_true (Nat.lt_of_lt_of_le hb h.inv.good.alloc.ge))
        (by
          intro y hy
          rcases f.map_site hy with ⟨t, -, hb, -⟩
          rw [hdisk1, hused _ (hfile.tree.range y hy).2]
          exact decide_eq_true (h.inv.good.block hf hb).2.1)
      constructor
      · intro p con off n
        refine wp.mono (readi_wp hmapped hfile) ?_ fun _ he => he
        rintro r s2 ⟨h1, h2⟩
        exact ⟨h2, h1⟩
      · intro bn hbn
        rw [hfile.size] at hbn
        -- the block holds a byte of the file
        have hlt : bn * BSIZE < x.content.length := by
          unfold Fs.blocks BSIZE at hbn
          unfold BSIZE
          omega
        have hdiv : bn * BSIZE / BSIZE = bn := Nat.mul_div_cancel _ BSIZE_pos
        have hblock := (hstores _ hlt).1
        have hmax := div_lt_MAXFILE hfits hlt
        rw [hdiv] at hblock hmax
        exact wp.mono (bmap_old hmapped hmax hblock) (fun _ _ h => h.2) fun _ he => he
  · intro b hb
    rw [hused b hb, decide_eq_true_eq]
    constructor
    · intro hlt
      by_cases hbm : b < nmeta
      · exact .inl hbm
      · rcases h.inv.good.alloc.onto b (Nat.not_lt.1 hbm) hlt with ⟨i, t, hit⟩
        rcases Option.bind_eq_some_iff.1 hit with ⟨f, hf, ht⟩
        have hi : i < fs.length := (List.getElem?_eq_some_iff.1 hf).1
        refine .inr ⟨i + 1, by omega, by omega, (owned_iff (htree i f hf)).2 ⟨t.node, ?_, ?_⟩⟩
        · rw [Placed.map_node ht (h.inv.good.shape i f hf).small]
          exact (h.inv.good.block hf ht).2.2
        · exact Placed.map_node ht (h.inv.good.shape i f hf).small
    · rintro (hbm | ⟨inum, h1, h2, hown⟩)
      · exact Nat.lt_of_lt_of_le hbm h.inv.good.alloc.ge
      · obtain ⟨f, hf⟩ : ∃ f, fs[inum - 1]? = some f :=
          ⟨_, List.getElem?_eq_getElem (by omega)⟩
        have ht := htree _ f hf
        rw [Nat.sub_add_cancel h1] at ht
        rcases (owned_iff ht).1 hown with ⟨y, hy, rfl⟩
        rcases f.map_site hy with ⟨t, -, hb', -⟩
        exact (h.inv.good.block hf hb').2.1

/-! ### Too many files -/

/-- An inode of ones. -/
def ones : Dinode := fun _ => 255

/-- An inode that lies where the free map is. -/
theorem dinodeAt_marked {n : Nat} (hge : nmeta ≤ n) (hn : n ≤ BPB) :
    dinodeAt (marked n) 0 = ones := by
  have hmeta : nmeta = 739 := by decide
  funext i
  have hi : i.1 < 64 := i.2
  unfold dinodeAt ones
  rw [Nat.mul_zero, Nat.zero_add]
  apply UInt8.toNat_inj.1
  apply Nat.eq_of_testBit_eq
  intro j
  show _ = (2 ^ 8 - 1).testBit j
  rw [Nat.testBit_two_pow_sub_one]
  rcases Nat.lt_or_ge j 8 with hj | hj
  · have hbit := getBit_marked hn (8 * i.1 + j)
    unfold getBit at hbit
    rw [Nat.mul_add_div (by decide), Nat.mul_add_mod, Nat.div_eq_of_lt hj, Nat.mod_eq_of_lt hj,
      Nat.add_zero] at hbit
    rw [hbit]
    exact decide_eq_decide.2 (by omega)
  · rw [decide_eq_false (Nat.not_lt.2 hj)]
    apply Nat.testBit_lt_two_pow
    calc (byteAt (marked n) i.1).toNat < 2 ^ 8 := UInt8.toNat_lt _
      _ ≤ 2 ^ j := Nat.pow_le_pow_right (by decide) hj

/-- Reading it is a panic. -/
theorem stops_read_ones {k : Kernel} {ip : Entry} {p : Fin NPROC} {con : Option (List UInt8)}
    (hdin : (k.icache ip).din = ones) : Stops (readi p con ip 0 1) k := by
  have hlink : (k.icache ip).din.type ≠ T_SYMLINK := by
    rw [hdin]
    decide
  have hdev : (k.icache ip).din.type ≠ T_DEV := by
    rw [hdin]
    decide
  have hsize : (k.icache ip).din.size = 2 ^ 32 - 1 := by
    rw [hdin]
    decide
  -- the address is behind the disk, and `bread` of it panics
  have haddr : (k.icache ip).din.addr 0 = 2 ^ 32 - 1 := by
    rw [hdin]
    decide
  unfold readi Stops
  rw [wp_bind]
  refine follow_wp hlink ?_
  simp only [wp_bind, wp_get]
  rw [if_neg hdev, wp_bind]
  unfold readContent
  simp only [wp_bind, wp_get, hsize]
  rw [if_neg (by omega), wp_bind, if_neg (by omega)]
  unfold readFrom
  rw [if_neg (by decide), wp_bind]
  unfold bmap
  rw [show 0 / BSIZE = 0 by decide, if_pos (by decide)]
  unfold addrSlot
  simp only [wp_bind, wp_get, haddr]
  rw [if_neg (by decide), wp_pure]
  unfold bread halt
  simp only [wp_bind, wp_get]
  rw [if_neg (by decide), wp_throw]
  trivial

/-- When the kernel agrees, the files fit. -/
theorem fits_of_agrees (h : Ends (main files) blank fun _ s => Agrees files s.disk) :
    Fits files := by
  have htree := @main_wp (fun _ => True) files (fun _ _ _ => trivial)
    (fun _ _ => trivial) (fun _ => trivial) (fun _ _ _ => trivial) fun _ => trivial
  rcases (h.inter htree).exists_and with ⟨_, s', -, hagree, s, fs, ht, hfree, hs'⟩
  refine ⟨?_, fun x hx => ht.small hx⟩
  by_contra hmany
  have hipb : IPB = 8 := by decide
  have hblocks : ninodeblocks = 26 := by decide
  have hlen : 206 < files.length := by
    rw [hipb, hblocks] at hmany
    unfold inumOf at hmany
    omega
  -- the kernel looks for inode 208 in the first block of the free map
  have hmap : (finished s) (IBLOCK 208 sb) = marked s.freeblock := Disk.put_self _ _ _
  have hdin : (finished s).dinode sb 208 = ones := by
    unfold Disk.dinode
    rw [hmap]
    exact dinodeAt_marked ht.inv.good.alloc.ge (Nat.le_of_lt hfree)
  obtain ⟨k, hdisk, hsb, hentry⟩ : ∃ k : Kernel, k.disk = finished s ∧ k.sb = sb ∧
      k.icache 0 = ⟨208, 1, false, false, Dinode.zero⟩ :=
    ⟨⟨finished s, sb, fun _ => ⟨208, 1, false, false, Dinode.zero⟩,
      fun _ => ⟨.FD_NONE, 0, false, false, none, 0⟩, fun _ => ⟨none, fun _ => none⟩⟩, rfl, rfl, rfl⟩
  have hinum : (k.icache 0).inum = 208 := by rw [hentry]
  have href : 1 ≤ (k.icache 0).ref := by rw [hentry]
  have hlock : (k.icache 0).locked = false := by rw [hentry]
  have hvalid : (k.icache 0).valid = false := by rw [hentry]
  have hread := hagree.read 206 files[206] (List.getElem?_eq_getElem hlen) k 0
    (hdisk.trans hs'.symm) (by rw [hsb, hs', finished_super ht.inv]) hinum href hlock hvalid
  have hstop : wp (ilock 0) k (fun _ s1 => Stops (readi 0 none 0 0 1) s1) fun _ => True := by
    refine ilock_wp hsb href hlock hvalid ?_ ?_ ?_
    · rw [hinum]
      decide
    · rw [hdisk, hinum, hdin]
      decide
    · apply stops_read_ones
      rw [setInode_self, hdisk, hinum]
      exact hdin
  rcases (hread.inter hstop).exists_and with ⟨_, s1, -, hok, hbad⟩
  rcases (hok.1 0 none 0 1).exists with ⟨_, _, hrun, -⟩
  exact hbad.ne_ok hrun

/-- When the files fit, the kernel agrees. -/
theorem agrees_of_fits (h : Accepts files) (hfits : Fits files) :
    Ends (main files) blank fun _ s => Agrees files s.disk := by
  have hroot : ¬ (NDIRECT + NINDIRECT) * BSIZE < 16 * (files.length + 2) := by
    have hbound : (NDIRECT + NINDIRECT) * BSIZE = 70656 := by decide
    have hroom : IPB * ninodeblocks = 208 := by decide
    have := hfits.1
    unfold inumOf at this
    omega
  have htree := @main_wp (fun e => e ≠ .overrun) files (fun _ _ _ => nofun)
    (fun _ _ => nofun) (fun hov => absurd hov hroot)
    (fun x hx hov => absurd (hfits.2 x hx) (Nat.not_le.2 hov)) fun _ => nofun
  refine wp.mono (h.inter htree) ?_ fun e he => he.2 he.1
  rintro _ s' ⟨-, s, fs, ht, hfree, hs'⟩
  rw [hs']
  exact agrees_of_tree ht hfree hfits.1

/-- For the files that `mkfs` accepts, the kernel agrees with `mkfs` if and only if there
are inodes for all of them and none needs a double indirect block. -/
theorem agrees_iff_fits (h : Accepts files) :
    (Ends (main files) blank fun _ s => Agrees files s.disk) ↔ Fits files :=
  ⟨fits_of_agrees, agrees_of_fits h⟩

/-- The file `cat` of two blocks, the second not full, `ls` of one full block, and `e` without a
byte. -/
def threeFiles : List InFile :=
  [⟨[99, 97, 116], [⟨List.replicate BSIZE 7, List.replicate_succ_ne_nil,
      Nat.le_of_eq List.length_replicate⟩, ⟨[10, 11, 12], List.cons_ne_nil _ _,
      Nat.le_of_ble_eq_true rfl⟩]⟩,
    ⟨[UNDERSCORE, 108, 115], [⟨List.replicate BSIZE 1, List.replicate_succ_ne_nil,
      Nat.le_of_eq List.length_replicate⟩]⟩,
    ⟨[101], []⟩]

theorem weights_threeFiles : (threeFiles.map weight).sum = 1075 := by decide +kernel

/-- Three input files. -/
theorem agrees_iff_fits_three : Fits threeFiles ∧
    Ends (main threeFiles) blank fun _ s => Agrees threeFiles s.disk := by
  have hacc : Accepts threeFiles := by
    unfold Accepts
    refine wp.mono (main_wp ?_ ?_ ?_ ?_ ?_) (fun _ _ _ => trivial) fun _ he => he
    · decide
    · intro _ hlt
      rw [weights_threeFiles] at hlt
      exact absurd hlt (by decide)
    · decide
    · intro _ _ _
      rfl
    · intro hlt
      rw [weights_threeFiles] at hlt
      exact absurd hlt (by decide)
  have hfits : Fits threeFiles := ⟨by decide, by decide +kernel⟩
  exact ⟨hfits, (agrees_iff_fits hacc).2 hfits⟩

/-- A file of 139 blocks. -/
def big : InFile where
  name := [98]
  reads := List.replicate 139 ⟨List.replicate BSIZE 1, List.replicate_succ_ne_nil,
    Nat.le_of_eq List.length_replicate⟩

theorem length_big : big.content.length = 139 * BSIZE := by
  unfold big InFile.content
  rw [List.map_replicate, List.length_flatten, List.map_replicate, List.length_replicate,
    List.sum_replicate, nsmul_eq_mul, Nat.cast_id]

/-- `mkfs` accepts the file, and goes beyond the indirect block. -/
theorem big_disagrees :
    Accepts [big] ∧ ¬ Ends (main [big]) blank fun _ s => Agrees [big] s.disk := by
  have hlarge : ¬ big.content.length ≤ (NDIRECT + NINDIRECT) * BSIZE := by
    rw [length_big]
    decide
  refine ⟨?_, fun h => hlarge ((fits_of_agrees h).2 big List.mem_cons_self)⟩
  unfold Accepts
  refine wp.mono (main_wp ?_ ?_ ?_ ?_ ?_) (fun _ _ _ => trivial) fun _ he => he
  · intro x hx hslash
    rw [List.mem_singleton.1 hx] at hslash
    exact absurd hslash (by decide)
  · intro hsmall
    exact absurd (hsmall big List.mem_cons_self) hlarge
  · intro _
    rfl
  · intro x _ _
    rfl
  · intro hlt
    rw [List.map_singleton, List.sum_singleton] at hlt
    have hmeta : nmeta = 739 := by decide
    rw [weight, length_big, hmeta] at hlt
    unfold FSSIZE BSIZE at hlt
    omega

end Xv6.Fs.Mkfs
