import Xv6.Fs.Trunc
import Xv6.Lib.Splice

/-!
# Regular files

A file is an array of bytes: `readi` returns a part of it and changes nothing, and
`writei` overwrites a part of it and changes no other file. The loops go through
the block tree of the inode, whose leaves hold the bytes.

`FileOf` connects an inode with its content, a list of bytes (`Lib.Splice`), and
`Op.spec` says what a call returns and does on the list.

* `call_wp`: one call keeps `FileOf` and does on the disk what it does on the list;
* `file_is_array`: so does every sequence of calls on a file that starts empty,
  with holes, offsets past the end and requests that are refused.

The blocks that the calls need are there; how many they need is computed from the
calls (`places`).
-/

namespace Xv6.Fs

open Xv6.Lib Prog
open Mkfs (sb nmeta)

variable {d d' : Disk} {din : Dinode} {m m' : Node → Nat} {x y : Node} {U : Nat → Prop} {ip : Entry}
  {s s' s1 : Kernel} {E : Stop → Prop} {c c' src : List UInt8} {off n : Nat}

/-! ## The bytes of a tree -/

/-- The leaves hold the bytes `c`. -/
def Stores (d : Disk) (m : Node → Nat) (c : List UInt8) : Prop :=
  ∀ o, o < c.length → m (leaf (o / BSIZE)) ≠ 0 ∧
    byteAt (d (m (leaf (o / BSIZE)))) (o % BSIZE) = c.getD o 0

/-- The number of blocks of `n` bytes. -/
def blocks (n : Nat) : Nat := (n + BSIZE - 1) / BSIZE

theorem BSIZE_pos : 0 < BSIZE := by decide

theorem mod_lt_BSIZE (o : Nat) : o % BSIZE < BSIZE := Nat.mod_lt _ BSIZE_pos

/-- An offset in the block of `off`. -/
theorem div_add_of_lt {i : Nat} (h : off % BSIZE + i < BSIZE) :
    (off + i) / BSIZE = off / BSIZE ∧ (off + i) % BSIZE = off % BSIZE + i := by
  have hdiv := Nat.div_add_mod off BSIZE
  have hoff : off + i = BSIZE * (off / BSIZE) + (off % BSIZE + i) := by omega
  rw [hoff, Nat.mul_add_div BSIZE_pos, Nat.mul_add_mod, Nat.div_eq_of_lt h, Nat.mod_eq_of_lt h]
  exact ⟨rfl, rfl⟩

/-- One block of the bytes. -/
theorem Stores.chunk (h : Stores d m c) {k : Nat} (hk : off % BSIZE + k ≤ BSIZE)
    (hlen : off + k ≤ c.length) :
    ((List.range k).map fun i => byteAt (d (m (leaf (off / BSIZE)))) (off % BSIZE + i)) =
      (c.drop off).take k := by
  refine ext_getD 0 ?_ ?_
  · rw [List.length_map, List.length_range, List.length_take, List.length_drop]
    omega
  · intro i hi
    rw [List.length_map, List.length_range] at hi
    rcases @div_add_of_lt off i (by omega) with ⟨hdiv, hmod⟩
    have hbyte := (h (off + i) (by omega)).2
    rw [hdiv, hmod] at hbyte
    rw [List.getD_eq_getElem?_getD, List.getElem?_map, List.getElem?_range hi]
    rw [List.getD_eq_getElem?_getD, List.getElem?_take_of_lt hi, List.getElem?_drop,
      ← List.getD_eq_getElem?_getD]
    exact hbyte

theorem div_lt_MAXFILE {o : Nat} (hfit : c.length ≤ MAXFILE * BSIZE) (ho : o < c.length) :
    o / BSIZE < MAXFILE := by
  apply Nat.div_lt_of_lt_mul
  rw [Nat.mul_comm]
  omega

/-! ## `readi` -/

/-- The loop of `readi` returns the bytes and changes nothing. -/
theorem readFrom_wp {fuel : Nat} (h : Mapped U s ip m) (hc : Stores s.disk m c)
    (hfit : c.length ≤ MAXFILE * BSIZE) (hlen : off + n ≤ c.length) (hfuel : n ≤ fuel) :
    wp (readFrom ip fuel off n) s (fun r s' => s' = s ∧ r = (c.drop off).take n) E := by
  induction fuel generalizing off n with
  | zero =>
      refine (wp_pure ..).2 ⟨rfl, ?_⟩
      rw [Nat.le_zero.1 hfuel, List.take_zero]
  | succ fuel ih =>
      unfold readFrom
      refine wp_ite (fun hn => ?_) fun hn => ?_
      · refine (wp_pure ..).2 ⟨rfl, ?_⟩
        rw [hn, List.take_zero]
      -- one piece: what is left of the block, or of the request
      · have hblock := (hc off (by omega)).1
        have hmod := mod_lt_BSIZE off
        rw [wp_bind]
        refine wp.mono (bmap_old h (div_lt_MAXFILE hfit (by omega : off < c.length)) hblock) ?_
          fun _ he => he
        rintro _ s1 ⟨rfl, rfl⟩
        rw [wp_bind]
        refine bread_wp (h.tree.range _ hblock).2 ?_
        dsimp only
        rw [wp_bind]
        refine wp.mono (@ih (off + min n (BSIZE - off % BSIZE))
          (n - min n (BSIZE - off % BSIZE)) (by omega) (by omega)) ?_ fun _ he => he
        rintro _ s2 ⟨rfl, rfl⟩
        refine (wp_pure ..).2 ⟨rfl, ?_⟩
        rw [hc.chunk (by omega) (by omega), ← List.drop_drop, ← List.take_add]
        congr 1
        omega

/-! ## `writei` -/

/-- Data is written to a block of the tree. -/
theorem Mapped.putLeaf (h : Mapped U s ip m) (hl : x.Leaf) (hx : m x ≠ 0) (v : Block) :
    Mapped U (s.setBlock (m x) v) ip m := by
  have hother : ∀ c, c ≠ m x → (s.setBlock (m x) v).disk c = s.disk c := fun c hc =>
    Disk.put_of_ne _ _ _ hc
  refine ⟨h.sb, h.tree.congr (fun _ _ => rfl) ?_, h.super, h.apart, ?_⟩
  · intro y hy hnl
    apply hother
    intro hyx
    rw [h.tree.inj y x hy hyx] at hnl
    exact hnl hl
  · intro b hb
    refine Iff.trans ?_ (h.used b hb)
    rw [show (s.setBlock (m x) v).disk.used Mkfs.sb b = s.disk.used Mkfs.sb b from
      used_put_of_ge _ (BBLOCK_inMap hb) (h.tree.range x hx).1]

/-- Writing a data block leaves the map and the other blocks alone. -/
theorem Mapped.frame_putLeaf (h : Mapped U s ip m) (hx : m x ≠ 0) (v : Block) :
    Frame U ip s (s.setBlock (m x) v) where
  sb := rfl
  ftable := rfl
  task := rfl
  others := fun _ _ => rfl
  entry := rfl
  disk := by
    intro b hb _
    refine Disk.put_of_ne _ _ _ ?_
    rintro rfl
    exact h.apart x hx hb
  beyond := fun b _ hm => used_put_of_ge _ hm (h.tree.range x hx).1

/-- A part of one block is overwritten; the block was in the tree, or is new and has
none of the bytes. -/
theorem Stores.patch {k : Nat} {p : List UInt8} {f : Nat → UInt8} (h : Stores s.disk m c)
    (ht : Tree d din m')
    (hkeep : ∀ y, m y ≠ 0 → m' y = m y) (hdata : ∀ y, y.Leaf → m y ≠ 0 → d (m y) = s.disk (m y))
    (hx : m' (leaf (off / BSIZE)) ≠ 0) (hoff : off ≤ c.length) (hk : off % BSIZE + k ≤ BSIZE)
    (hp : p.length = k) (hf : ∀ i, i < k → f i = p.getD i 0) :
    Stores (d.put (m' (leaf (off / BSIZE)))
      (Lib.patch (d (m' (leaf (off / BSIZE)))) (off % BSIZE) k f)) m' (splice c off p) := by
  intro o ho
  rw [length_splice hoff] at ho
  -- the byte is in the block that is written, or in another one
  by_cases hblock : o / BSIZE = off / BSIZE
  · refine ⟨hblock ▸ hx, ?_⟩
    have hdo := Nat.div_add_mod o BSIZE
    have hdoff := Nat.div_add_mod off BSIZE
    rw [hblock] at hdo
    rw [hblock, Disk.put_self, getD_splice 0 hoff]
    split
    · next hin =>
      rw [show o % BSIZE = off % BSIZE + (o - off) by omega]
      exact (byteAt_patch_of_mem _ _ hk (by omega)).trans (hf _ (by omega))
    · next hout =>
      rw [byteAt_patch_of_notMem _ _ (by omega)]
      have hoc := h o (by omega)
      rw [hblock] at hoc
      rw [hkeep _ hoc.1, hdata _ (leaf_isLeaf _) hoc.1]
      exact hoc.2
  · -- the bytes that are written lie in one block
    have hout : ¬ (off ≤ o ∧ o < off + p.length) := by
      rintro ⟨h1, h2⟩
      have hdiv := (@div_add_of_lt off (o - off) (by omega)).1
      rw [Nat.add_sub_cancel' h1] at hdiv
      exact hblock hdiv
    have hoc := h o (by omega)
    have hne : m' (leaf (o / BSIZE)) ≠ m' (leaf (off / BSIZE)) := by
      intro heq
      refine hblock (leaf_inj (ht.inj _ _ ?_ heq))
      rw [hkeep _ hoc.1]
      exact hoc.1
    refine ⟨by rw [hkeep _ hoc.1]; exact hoc.1, ?_⟩
    rw [Disk.put_of_ne _ _ _ hne, hkeep _ hoc.1, hdata _ (leaf_isLeaf _) hoc.1,
      getD_splice 0 hoff, if_neg hout]
    exact hoc.2

/-- What a write that began in `s` leaves. -/
structure Wrote (U : Nat → Prop) (ip : Entry) (T : Finset Node) (s : Kernel) (c : List UInt8)
    (s' : Kernel) (m' : Node → Nat) : Prop where
  mapped : Mapped U s' ip m'
  frame : Frame U ip s s'
  head : SameHead (s.icache ip).din (s'.icache ip).din
  stores : Stores s'.disk m' c
  sub : ∀ y, m' y ≠ 0 → y ∈ T

/-- The loop of `writei`: every turn stores one piece in the block that `bmap` gives. By
induction on the fuel, with the stored bytes as the invariant. -/
theorem writeFrom_wp {fuel : Nat} {T : Finset Node} (h : Mapped U s ip m)
    (hc : Stores s.disk m c) (hoff : off ≤ c.length) (hfit : off + src.length ≤ MAXFILE * BSIZE)
    (hfuel : src.length ≤ fuel) (hm : ∀ y, m y ≠ 0 → y ∈ T)
    (hT : ∀ bn, bn * BSIZE < off + src.length → ∀ y : Node, y.Above (leaf bn) → y ∈ T)
    (hE : room U < T.card → E (.panic "balloc: out of blocks")) :
    wp (writeFrom ip fuel off src) s (fun r s' => r = off + src.length ∧
      ∃ m', Wrote U ip T s (splice c off src) s' m') E := by
  induction fuel generalizing s m c off src with
  | zero =>
      have hnil : src = [] := List.eq_nil_of_length_eq_zero (Nat.le_zero.1 hfuel)
      subst hnil
      refine (wp_pure ..).2 ⟨rfl, m, h, .refl s, .refl _, ?_, hm⟩
      rwa [splice_nil]
  | succ fuel ih =>
      unfold writeFrom
      refine wp_ite (fun hnil => ?_) fun hnil => ?_
      · subst hnil
        refine (wp_pure ..).2 ⟨rfl, m, h, .refl s, .refl _, ?_, hm⟩
        rwa [splice_nil]
      · have hpos : 0 < src.length := List.length_pos_iff.2 hnil
        have hmod := mod_lt_BSIZE off
        have hdiv := Nat.div_add_mod off BSIZE
        have hbn : off / BSIZE < MAXFILE := by
          apply Nat.div_lt_of_lt_mul
          rw [Nat.mul_comm]
          omega
        -- the way to the block is among the places that the room is counted for
        have hway : ∀ y : Node, y.Above (leaf (off / BSIZE)) → y ∈ T := by
          apply hT
          rw [Nat.mul_comm]
          omega
        rw [wp_bind]
        refine wp.mono (bmap_wp h hbn fun hs => hE (hs.room_lt hm hway)) ?_ fun _ he => he
        rintro _ s1 ⟨m1, h1, rfl⟩
        rw [wp_bind]
        refine bread_wp (h1.mapped.tree.range _ h1.here).2 ?_
        dsimp only
        rw [wp_bind, bwrite_wp]
        generalize hk : min src.length (BSIZE - off % BSIZE) = k
        have htake : (src.take k).length = k := by
          rw [List.length_take]
          omega
        have hdrop : (src.drop k).length = src.length - k := List.length_drop
        -- the content with this piece spliced in
        have hstores := hc.patch (k := k) (p := src.take k) (f := fun i => src.getD i 0)
          h1.mapped.tree h1.keep h1.data h1.here hoff (by omega) htake (by
            intro i hi
            rw [List.getD_eq_getElem?_getD, List.getD_eq_getElem?_getD,
              List.getElem?_take_of_lt hi])
        have hm1 : ∀ y, m1 y ≠ 0 → y ∈ T := by
          intro y hy
          by_cases h0 : m y = 0
          · exact hway y (h1.new y h0 hy)
          · exact hm y h0
        -- the pieces that are left continue it
        refine wp.mono (@ih _ _ _ (src.drop k) (off + k)
          (h1.mapped.putLeaf (leaf_isLeaf _) h1.here _) hstores ?_ ?_ ?_ hm1 ?_) ?_ fun _ he => he
        · rw [length_splice hoff, htake]
          exact Nat.le_max_right _ _
        · omega
        · omega
        · intro bn hbn
          exact hT bn (by omega)
        · rintro _ s2 ⟨rfl, m2, h2⟩
          refine ⟨by omega, m2, h2.mapped, ?_, ?_, ?_, h2.sub⟩
          · exact h1.frame.trans ((h1.mapped.frame_putLeaf h1.here _).trans h2.frame)
          · exact h1.head.trans h2.head
          · rw [← splice_splice hoff (by omega : k ≤ src.length)]
            exact h2.stores

/-! ## Files -/

/-- Inode `din` has the bytes `c`. -/
structure Bytes (d : Disk) (din : Dinode) (m : Node → Nat) (c : List UInt8) : Prop where
  tree : Tree d din m
  size : din.size = c.length
  fits : c.length ≤ MAXFILE * BSIZE
  stores : Stores d m c

/-- The inode at `ip` has the bytes `c`; other blocks in use are `U`. -/
structure HasBytes (U : Nat → Prop) (s : Kernel) (ip : Entry) (m : Node → Nat) (c : List UInt8) :
    Prop where
  mapped : Mapped U s ip m
  bytes : Bytes s.disk (s.icache ip).din m c
  inum : (s.icache ip).inum < sb.ninodes

/-- Inode `din` is a regular file with the bytes `c`. -/
structure FileOf (d : Disk) (din : Dinode) (m : Node → Nat) (c : List UInt8) : Prop where
  tree : Tree d din m
  type : din.type = T_FILE
  size : din.size = c.length
  fits : c.length ≤ MAXFILE * BSIZE
  stores : Stores d m c

/-- The inode at `ip` is a regular file; other blocks in use are `U`. -/
structure IsFile (U : Nat → Prop) (s : Kernel) (ip : Entry) (m : Node → Nat) (c : List UInt8) :
    Prop where
  mapped : Mapped U s ip m
  file : FileOf s.disk (s.icache ip).din m c
  inum : (s.icache ip).inum < sb.ninodes

theorem FileOf.bytes (h : FileOf d din m c) : Bytes d din m c := ⟨h.tree, h.size, h.fits, h.stores⟩

theorem Bytes.file (h : Bytes d din m c) (ht : din.type = T_FILE) : FileOf d din m c :=
  ⟨h.tree, ht, h.size, h.fits, h.stores⟩

theorem IsFile.hasBytes (h : IsFile U s ip m c) : HasBytes U s ip m c :=
  ⟨h.mapped, h.file.bytes, h.inum⟩

theorem HasBytes.isFile (h : HasBytes U s ip m c) (ht : (s.icache ip).din.type = T_FILE) :
    IsFile U s ip m c :=
  ⟨h.mapped, h.bytes.file ht, h.inum⟩

/-- Only the file at `ip` may have changed. -/
structure Kept (U : Nat → Prop) (ip : Entry) (s s' : Kernel) : Prop where
  frame : Frame (fun b => U b ∧ b ≠ IBLOCK (s.icache ip).inum sb) ip s s'
  dinodes : ∀ i, i < sb.ninodes → i ≠ (s.icache ip).inum →
    s'.disk.dinode sb i = s.disk.dinode sb i

theorem Frame.mono {U' : Nat → Prop} (h : Frame U ip s s') (hU : ∀ b, U' b → U b) :
    Frame U' ip s s' :=
  ⟨h.sb, h.ftable, h.task, h.others, h.entry, fun b hb => h.disk b (hU b hb), h.beyond⟩

theorem Frame.inum (h : Frame U ip s s') : (s'.icache ip).inum = (s.icache ip).inum := by
  rw [h.entry]

theorem Kept.refl (s : Kernel) : Kept U ip s s := ⟨.refl s, fun _ _ _ => rfl⟩

/-- What two writes in a row keep. -/
theorem Kept.trans (h : Kept U ip s s1) (h' : Kept U ip s1 s') : Kept U ip s s' := by
  have hinum := h.frame.inum
  refine ⟨h.frame.trans ?_, ?_⟩
  · rw [← hinum]
    exact h'.frame
  · intro i hi hne
    refine (h'.dinodes i hi ?_).trans (h.dinodes i hi hne)
    rwa [hinum]

theorem Frame.kept (h : Frame U ip s s') (hU : ∀ b, b < nmeta → U b) : Kept U ip s s' := by
  refine ⟨h.mono fun b hb => hb.1, ?_⟩
  intro i hi _
  unfold Disk.dinode
  rw [h.disk _ (hU _ (Nat.lt_trans (IBLOCK_lt hi) bmapstart_lt)) (IBLOCK_notInMap hi)]

/-- Neither the tree nor the free map has been written. -/
theorem Mapped.congr (h : Mapped U s ip m) (hsb : s'.sb = s.sb)
    (haddr : ∀ k, k < NDIRECT + 3 → (s'.icache ip).din.addr k = (s.icache ip).din.addr k)
    (hd : ∀ b, Mkfs.sb.bmapstart ≤ b → s'.disk b = s.disk b) : Mapped U s' ip m where
  sb := hsb.trans h.sb
  tree := h.tree.congr haddr fun x hx _ =>
    hd _ (Nat.le_trans (Nat.le_of_lt bmapstart_lt) (h.tree.range x hx).1)
  super := h.super
  apart := h.apart
  used := by
    intro b hb
    rw [used_congr (fun b hb => hd b hb.1) (BBLOCK_inMap hb)]
    exact h.used b hb

theorem Stores.congr (h : Stores d m c) (hd : ∀ x, m x ≠ 0 → d' (m x) = d (m x)) :
    Stores d' m c := by
  intro o ho
  rcases h o ho with ⟨hx, hb⟩
  exact ⟨hx, by rw [hd _ hx]; exact hb⟩

/-- The bytes of another inode are as they were. -/
theorem Kept.bytes (h : Kept U ip s s') (hinum : (s.icache ip).inum < sb.ninodes)
    (hf : Bytes s.disk din m' c') (hU : ∀ x, m' x ≠ 0 → U (m' x)) : Bytes s'.disk din m' c' := by
  have hd : ∀ x, m' x ≠ 0 → s'.disk (m' x) = s.disk (m' x) := by
    intro x hx
    refine h.frame.disk _ ⟨hU x hx, ?_⟩ (hf.tree.notInMap hx)
    have := IBLOCK_lt hinum
    have := bmapstart_lt
    have := (hf.tree.range x hx).1
    omega
  exact ⟨hf.tree.congr (fun _ _ => rfl) fun x hx _ => hd x hx, hf.size, hf.fits,
    hf.stores.congr hd⟩

/-- Another file that was there is as it was. -/
theorem Kept.other (h : Kept U ip s s') (hinum : (s.icache ip).inum < sb.ninodes)
    (hf : FileOf s.disk din m' c') (hU : ∀ x, m' x ≠ 0 → U (m' x)) : FileOf s'.disk din m' c' :=
  (h.bytes hinum hf.bytes hU).file hf.type

/-! ### The calls on an array -/

/-- What `readi` returns. -/
def readSpec (c : List UInt8) (off n : Nat) : Option (List UInt8) :=
  if c.length < off ∨ 2 ^ 32 ≤ off + n then none else some ((c.drop off).take n)

/-- `writei` refuses. -/
def Refused (c : List UInt8) (off n : Nat) : Prop :=
  c.length < off ∨ 2 ^ 32 ≤ off + n ∨ MAXFILE * BSIZE < off + n

instance : Decidable (Refused c off n) := inferInstanceAs (Decidable (_ ∨ _ ∨ _))

/-- `readi` of a file that is an array of bytes gives its slice and changes nothing. -/
theorem readBytes_wp (h : Mapped U s ip m) (hf : Bytes s.disk (s.icache ip).din m c) :
    wp (readContent ip off n) s (fun r s' => s' = s ∧ r = readSpec c off n) E := by
  have hsize := hf.size
  unfold readContent readSpec
  simp only [wp_bind, wp_get, hsize]
  refine wp_ite (fun hbad => ?_) fun hok => ?_
  · rw [if_pos hbad]
    exact (wp_pure ..).2 ⟨rfl, rfl⟩
  · rw [if_neg hok, wp_bind]
    have htake : (c.drop off).take (if c.length < off + n then c.length - off else n) =
        (c.drop off).take n := by
      split
      · rw [List.take_of_length_le (by rw [List.length_drop]), List.take_of_length_le]
        rw [List.length_drop]
        omega
      · rfl
    refine wp.mono (@readFrom_wp _ _ _ _ _ _ off
      (if c.length < off + n then c.length - off else n) _
      h hf.stores hf.fits ?_ (Nat.le_refl _)) ?_ fun _ he => he
    · split <;> omega
    · rintro _ s1 ⟨rfl, rfl⟩
      exact (wp_pure ..).2 ⟨rfl, by rw [htake]⟩

theorem readContent_wp (h : Mapped U s ip m) (hf : FileOf s.disk (s.icache ip).din m c) :
    wp (readContent ip off n) s (fun r s' => s' = s ∧ r = readSpec c off n) E :=
  readBytes_wp h hf.bytes

/-- The size has been set and the inode has been written. -/
def resized (s : Kernel) (ip : Entry) (size : Nat) : Kernel :=
  let s := s.setInode ip fun x => { x with din := x.din.setSize size }
  { s with disk := written s ip }

theorem resized_self {size : Nat} : (resized s ip size).icache ip =
    { s.icache ip with din := (s.icache ip).din.setSize size } :=
  setInode_self (s := s) (f := fun x => { x with din := x.din.setSize size })

theorem disk_resized {size b : Nat} (hb : b ≠ IBLOCK (s.icache ip).inum sb) :
    (resized s ip size).disk b = s.disk b := by
  refine written_of_ne ?_
  rwa [setInode_self]

theorem ne_IBLOCK {i b : Nat} (hi : i < sb.ninodes) (hb : sb.bmapstart ≤ b) : b ≠ IBLOCK i sb := by
  have := IBLOCK_lt hi
  omega

/-- After the loop the new size makes the file the array that was stored. -/
theorem Wrote.resized {T : Finset Node} (hw : Wrote U ip T s c s' m') (hf : HasBytes U s ip m c')
    (hfit : c.length ≤ MAXFILE * BSIZE) :
    HasBytes U (resized s' ip c.length) ip m' c ∧ Kept U ip s (resized s' ip c.length) := by
  have hinum : (s'.icache ip).inum = (s.icache ip).inum := hw.frame.inum
  have hlt : (s'.icache ip).inum < sb.ninodes := hinum ▸ hf.inum
  have h32 : c.length < 2 ^ 32 := Nat.lt_of_le_of_lt hfit (by decide)
  -- writing the inode back touches no data block
  have hdata : ∀ x, m' x ≠ 0 → (Fs.resized s' ip c.length).disk (m' x) = s'.disk (m' x) := by
    intro x hx
    apply disk_resized
    apply ne_IBLOCK hlt
    exact Nat.le_trans (Nat.le_of_lt bmapstart_lt) (hw.mapped.tree.range x hx).1
  have hmapped : Mapped U (Fs.resized s' ip c.length) ip m' := by
    refine hw.mapped.congr rfl ?_ fun b hb => disk_resized (ne_IBLOCK hlt hb)
    intro k _
    rw [resized_self, Dinode.addr_setSize]
  refine ⟨⟨hmapped, ⟨hmapped.tree, ?_, hfit, hw.stores.congr hdata⟩, ?_⟩,
    Kept.trans (hw.frame.kept hf.mapped.super) ⟨⟨rfl, rfl, rfl, ?_, ?_, ?_, ?_⟩, ?_⟩⟩
  · rw [resized_self, Dinode.size_setSize _ _ h32]
  · rw [resized_self]
    exact hlt
  · intro j hj
    exact setInode_of_ne (s := s') (f := fun x => { x with din := x.din.setSize c.length }) hj
  · rw [resized_self]
  · intro b hb _
    exact disk_resized hb.2
  · intro b _ hm
    exact used_congr (fun b hb => disk_resized (ne_IBLOCK hlt hb.1)) hm
  · intro i _ hi
    have hother := @Disk.dinode_put_ne s'.disk sb _ _ hi
      ((s'.icache ip).din.setSize c.length)
    unfold Fs.resized written
    dsimp only
    rw [setInode_self]
    exact hother

/-- Without a new size the inode is not written. -/
theorem Wrote.same {T : Finset Node} (hw : Wrote U ip T s c s' m') (hf : HasBytes U s ip m c')
    (hlen : c.length = c'.length) : HasBytes U s' ip m' c ∧ Kept U ip s s' := by
  refine ⟨⟨hw.mapped, ⟨hw.mapped.tree, ?_, ?_, hw.stores⟩, ?_⟩, hw.frame.kept hf.mapped.super⟩
  · rw [hw.head.size, hf.bytes.size, hlen]
  · rw [hlen]
    exact hf.bytes.fits
  · rw [hw.frame.inum]
    exact hf.inum

/-- A write that starts behind the end or passes `MAXFILE` is refused before anything is
written. -/
theorem writeBytes_refused (hsize : (s.icache ip).din.size = c.length)
    (href : Refused c off src.length) :
    wp (writeContent ip src off) s (fun r s' => r = false ∧ s' = s) E := by
  unfold writeContent
  simp only [wp_bind, wp_get, hsize]
  refine wp_ite (fun _ => (wp_pure ..).2 ⟨rfl, rfl⟩) fun hok => ?_
  refine wp_ite (fun _ => (wp_pure ..).2 ⟨rfl, rfl⟩) fun hfit => ?_
  rcases href with h1 | h1 | h1
  · exact absurd (.inl h1) hok
  · exact absurd (.inr h1) hok
  · exact absurd h1 hfit

/-- `writei` refuses and changes nothing. -/
theorem writeContent_refused (h : IsFile U s ip m c) (href : Refused c off src.length) :
    wp (writeContent ip src off) s (fun r s' => r = false ∧ s' = s) E :=
  writeBytes_refused h.file.size href

/-- What is written replaces the bytes from `off` on; the inode keeps its type and its
links. -/
theorem writeBytes_wp {T : Finset Node} (h : HasBytes U s ip m c) (hm : ∀ y, m y ≠ 0 → y ∈ T)
    (href : ¬ Refused c off src.length)
    (hT : ∀ bn, bn * BSIZE < off + src.length → ∀ y : Node, y.Above (leaf bn) → y ∈ T)
    (hE : room U < T.card → E (.panic "balloc: out of blocks")) :
    wp (writeContent ip src off) s (fun r s' => r = true ∧ Kept U ip s s' ∧
      ((s'.icache ip).din.type = (s.icache ip).din.type ∧
        (s'.icache ip).din.nlink = (s.icache ip).din.nlink) ∧
      ∃ m', HasBytes U s' ip m' (splice c off src) ∧ ∀ y, m' y ≠ 0 → y ∈ T) E := by
  have hsize := h.bytes.size
  unfold Refused at href
  unfold writeContent
  simp only [wp_bind, wp_get, hsize]
  rw [if_neg (by omega), if_neg (by omega)]
  have hoff : off ≤ c.length := by omega
  have hfit' : (splice c off src).length ≤ MAXFILE * BSIZE := by
    have := h.bytes.fits
    rw [length_splice hoff]
    omega
  rw [wp_bind]
  refine wp.mono (writeFrom_wp h.mapped h.bytes.stores hoff (by omega) (Nat.le_refl _) hm hT
    hE) ?_ fun _ he => he
  rintro _ s1 ⟨rfl, m1, h1⟩
  have hsize1 : (s1.icache ip).din.size = c.length := h1.head.size.trans hsize
  simp only [wp_bind, wp_get, hsize1]
  refine wp_ite (fun hgrow => ?_) fun hno => ?_
  -- the file has grown: the size is set and the inode written
  · have hlen : off + src.length = (splice c off src).length := by
      rw [length_splice hoff]
      omega
    simp only [wp_bind, setDin_wp]
    refine iupdate_wp h1.mapped.sb ?_ ((wp_pure ..).2 ?_)
    · rw [setInode_self]
      exact h1.frame.inum ▸ h.inum
    · rw [hlen]
      rcases h1.resized h hfit' with ⟨hbytes, hkept⟩
      refine ⟨rfl, hkept, ⟨?_, ?_⟩, m1, hbytes, h1.sub⟩
      · exact (congrArg (fun x => x.din.type) (@resized_self ip s1 _)).trans
          ((Dinode.type_setSize ..).trans h1.head.type)
      · exact (congrArg (fun x => x.din.nlink) (@resized_self ip s1 _)).trans
          ((Dinode.nlink_setSize ..).trans h1.head.nlink)
  -- the write ended within the file, so the size stays
  · have hlen : (splice c off src).length = c.length := by
      by_cases hnil : src = []
      · rw [hnil, splice_nil]
      · have hle : ¬ c.length < off + src.length := fun hlt => hno ⟨hnil, hlt⟩
        rw [length_splice hoff]
        omega
    rcases h1.same h hlen with ⟨hbytes, hkept⟩
    exact (wp_pure ..).2 ⟨rfl, hkept, ⟨h1.head.type, h1.head.nlink⟩, m1, hbytes, h1.sub⟩

/-- `writei` overwrites the bytes from `off` on. -/
theorem writeContent_wp {T : Finset Node} (h : IsFile U s ip m c) (hm : ∀ y, m y ≠ 0 → y ∈ T)
    (href : ¬ Refused c off src.length)
    (hT : ∀ bn, bn * BSIZE < off + src.length → ∀ y : Node, y.Above (leaf bn) → y ∈ T)
    (hroom : T.card ≤ room U) :
    wp (writeContent ip src off) s (fun r s' => r = true ∧ Kept U ip s s' ∧
      ∃ m', IsFile U s' ip m' (splice c off src) ∧ ∀ y, m' y ≠ 0 → y ∈ T) E := by
  refine wp.mono (writeBytes_wp h.hasBytes hm href hT fun hlt => ?_) ?_ fun _ he => he
  · exact absurd hlt (Nat.not_lt.2 hroom)
  rintro _ s1 ⟨rfl, hkept, ⟨htype, -⟩, m1, hbytes, hsub⟩
  exact ⟨rfl, hkept, m1, hbytes.isFile (htype.trans h.file.type), hsub⟩

variable {p : Fin NPROC} {con : Option (List UInt8)}

/-- A file that is no link is not followed. -/
theorem follow_wp {turns : Nat} {Q : Option Entry → Kernel → Prop}
    (ht : (s.icache ip).din.type ≠ T_SYMLINK) (h : Q (some ip) s) :
    wp (follow p ip (turns + 1) ip) s Q E := by
  unfold follow
  simp only [wp_bind, wp_get]
  rw [if_pos ht, wp_pure]
  exact h

theorem unfollow_wp {Q : Unit → Kernel → Prop} (h : Q () s) : wp (unfollow ip ip) s Q E := by
  unfold unfollow
  rw [if_neg (fun hne => hne rfl), wp_pure]
  exact h

theorem FileOf.not_symlink (h : FileOf d din m c) : din.type ≠ T_SYMLINK := by
  rw [h.type]
  decide

theorem FileOf.not_dev (h : FileOf d din m c) : din.type ≠ T_DEV := by
  rw [h.type]
  decide

/-- `readi` on an inode that is no device reads its content. -/
theorem readi_wp (h : Mapped U s ip m) (hf : FileOf s.disk (s.icache ip).din m c) :
    wp (readi p con ip off n) s (fun r s' => s' = s ∧ r = readSpec c off n) E := by
  unfold readi
  rw [wp_bind]
  refine follow_wp hf.not_symlink ?_
  simp only [wp_bind, wp_get]
  rw [if_neg hf.not_dev, wp_bind]
  refine wp.mono (readContent_wp h hf) ?_ fun _ he => he
  rintro _ s1 ⟨rfl, rfl⟩
  rw [wp_bind]
  exact unfollow_wp ((wp_pure ..).2 ⟨rfl, rfl⟩)

/-- `writei` on an inode that is no device writes its content. -/
theorem writei_wp {Q : Bool → Kernel → Prop} (h : IsFile U s ip m c)
    (hw : wp (writeContent ip src off) s Q E) : wp (writei p ip src off) s Q E := by
  unfold writei
  rw [wp_bind]
  refine follow_wp h.file.not_symlink ?_
  simp only [wp_bind, wp_get]
  rw [if_neg h.file.not_dev, wp_bind]
  refine wp.mono hw ?_ fun _ he => he
  intro r s1 hQ
  rw [wp_bind]
  exact unfollow_wp ((wp_pure ..).2 hQ)

/-! ### Any calls -/

/-- A call by a process, and what it returns. -/
inductive Op
  | read (p : Fin NPROC) (off n : Nat)
  | write (p : Fin NPROC) (src : List UInt8) (off : Nat)

inductive Res
  | bytes (r : Option (List UInt8))
  | done (ok : Bool)
  deriving DecidableEq

def Op.call (con : Option (List UInt8)) (ip : Entry) : Op → FM Res
  | .read p off n => do return .bytes (← readi p con ip off n)
  | .write p src off => do return .done (← writei p ip src off)

/-- The call on an array of bytes. -/
def Op.spec (c : List UInt8) : Op → Res × List UInt8
  | .read _ off n => (.bytes (readSpec c off n), c)
  | .write _ src off =>
      if Refused c off src.length then (.done false, c) else (.done true, splice c off src)

def calls (con : Option (List UInt8)) (ip : Entry) : List Op → FM (List Res)
  | [] => return []
  | op :: ops => do
      let r ← op.call con ip
      return r :: (← calls con ip ops)

def specs (c : List UInt8) : List Op → List Res × List UInt8
  | [] => ([], c)
  | op :: ops =>
      let (r, c) := op.spec c
      let (rs, c) := specs c ops
      (r :: rs, c)

theorem spec_refused (h : Refused c off src.length) :
    (Op.write p src off).spec c = (.done false, c) := if_pos h

theorem spec_write (h : ¬ Refused c off src.length) :
    (Op.write p src off).spec c = (.done true, splice c off src) := if_neg h

/-- A file never gets shorter. -/
theorem length_spec (c : List UInt8) (op : Op) : c.length ≤ (op.spec c).2.length := by
  cases op with
  | read p off n => exact Nat.le_refl _
  | write p src off =>
      by_cases href : Refused c off src.length
      · rw [spec_refused href]
      · have hoff : off ≤ c.length := Nat.not_lt.1 fun hlt => href (.inl hlt)
        rw [spec_write href, length_splice hoff]
        exact Nat.le_max_left _ _

theorem length_specs (c : List UInt8) (ops : List Op) : c.length ≤ (specs c ops).2.length := by
  induction ops generalizing c with
  | nil => exact Nat.le_refl _
  | cons op ops ih => exact (length_spec c op).trans (ih _)

/-- One call. -/
theorem call_wp {T : Finset Node} (op : Op) (h : IsFile U s ip m c) (hm : ∀ y, m y ≠ 0 → y ∈ T)
    (hT : ∀ bn, bn * BSIZE < (op.spec c).2.length → ∀ y : Node, y.Above (leaf bn) → y ∈ T)
    (hroom : T.card ≤ room U) :
    wp (op.call con ip) s (fun r s' => r = (op.spec c).1 ∧ Kept U ip s s' ∧
      ∃ m', IsFile U s' ip m' (op.spec c).2 ∧ ∀ y, m' y ≠ 0 → y ∈ T) E := by
  cases op with
  | read p off n =>
      unfold Op.call
      rw [wp_bind]
      refine wp.mono (readi_wp h.mapped h.file) ?_ fun _ he => he
      rintro _ s1 ⟨rfl, rfl⟩
      exact (wp_pure ..).2 ⟨rfl, .refl _, m, h, hm⟩
  | write p src off =>
      unfold Op.call
      rw [wp_bind]
      by_cases href : Refused c off src.length
      -- refused, and nothing is changed
      · rw [spec_refused href]
        refine wp.mono (writei_wp h (writeContent_refused h href)) ?_ fun _ he => he
        rintro _ s1 ⟨rfl, rfl⟩
        exact (wp_pure ..).2 ⟨rfl, .refl _, m, h, hm⟩
      · rw [spec_write href] at hT ⊢
        -- the written file is the spliced one
        have hoff : off ≤ c.length := Nat.not_lt.1 fun hlt => href (.inl hlt)
        have hlen : off + src.length ≤ (splice c off src).length := by
          rw [length_splice hoff]
          exact Nat.le_max_right _ _
        refine wp.mono (writei_wp h (writeContent_wp h hm href
          (fun bn hbn => hT bn (Nat.lt_of_lt_of_le hbn hlen)) hroom)) ?_ fun _ he => he
        rintro _ s1 ⟨rfl, hk, hfile⟩
        exact (wp_pure ..).2 ⟨rfl, hk, hfile⟩

/-- A run of calls. -/
theorem calls_wp {T : Finset Node} {ops : List Op} (h : IsFile U s ip m c)
    (hm : ∀ y, m y ≠ 0 → y ∈ T)
    (hT : ∀ bn, bn * BSIZE < (specs c ops).2.length → ∀ y : Node, y.Above (leaf bn) → y ∈ T)
    (hroom : T.card ≤ room U) :
    wp (calls con ip ops) s (fun rs s' => rs = (specs c ops).1 ∧ Kept U ip s s' ∧
      ∃ m', IsFile U s' ip m' (specs c ops).2) E := by
  induction ops generalizing s m c with
  | nil => exact (wp_pure ..).2 ⟨rfl, .refl s, m, h⟩
  | cons op ops ih =>
      unfold calls
      rw [wp_bind]
      refine wp.mono (call_wp op h hm (fun bn hbn => hT bn ?_) hroom) ?_ fun _ he => he
      · exact Nat.lt_of_lt_of_le hbn (length_specs _ ops)
      rintro _ s1 ⟨rfl, hk1, m1, h1, hm1⟩
      rw [wp_bind]
      refine wp.mono (ih h1 hm1 hT) ?_ fun _ he => he
      rintro _ s2 ⟨rfl, hk2, m2, h2⟩
      exact (wp_pure ..).2 ⟨rfl, hk1.trans hk2, m2, h2⟩

theorem div_lt_blocks {bn k : Nat} (h : bn * BSIZE < k) : bn < blocks k := by
  unfold blocks BSIZE at *
  omega

/-- A regular file that starts empty is an array of bytes: every call returns what it
returns on the array, reading and refused writing change nothing, and every other file
is as it was. -/
theorem file_is_array {ops : List Op} (hsb : s.sb = sb)
    (hmeta : ∀ b, b < nmeta → s.disk.used sb b = true) (hi : (s.icache ip).inum < sb.ninodes)
    (htype : (s.icache ip).din.type = T_FILE) (hsize : (s.icache ip).din.size = 0)
    (hzero : ∀ k, k < NDIRECT + 3 → (s.icache ip).din.addr k = 0)
    (hroom : (places (List.range (blocks (specs [] ops).2.length))).card ≤ s.disk.nfree) :
    Ends (calls con ip ops) s fun rs s1 => rs = (specs [] ops).1 ∧
      (∃ m, FileOf s1.disk (s1.icache ip).din m (specs [] ops).2) ∧
      (∀ p off n, Ends (readi p con ip off n) s1 fun r s2 =>
        r = readSpec (specs [] ops).2 off n ∧ s2 = s1) ∧
      (∀ p src off, Refused (specs [] ops).2 off src.length →
        Ends (writei p ip src off) s1 fun r s2 => r = false ∧ s2 = s1) ∧
      (∀ j, j ≠ ip → s1.icache j = s.icache j) ∧
      (∀ i, i < sb.ninodes → i ≠ (s.icache ip).inum →
        s1.disk.dinode sb i = s.disk.dinode sb i) ∧
      ∀ din m c, FileOf s.disk din m c → (∀ x, m x ≠ 0 → s.disk.used sb (m x) = true) →
        FileOf s1.disk din m c := by
  have hmapped := @mapped_empty ip _ hsb hmeta hzero
  -- an empty file is the empty array
  have hfile : IsFile (fun b => s.disk.used sb b = true) s ip (fun _ => 0) [] := by
    refine ⟨hmapped, ⟨hmapped.tree, htype, hsize, Nat.zero_le _, ?_⟩, hi⟩
    intro o ho
    cases ho
  -- the room that is asked for is that of the final length
  have hT : ∀ bn, bn * BSIZE < (specs [] ops).2.length → ∀ y : Node, y.Above (leaf bn) →
      y ∈ places (List.range (blocks (specs [] ops).2.length)) := fun bn hbn y hy =>
    mem_places.2 ⟨bn, List.mem_range.2 (div_lt_blocks hbn), hy⟩
  refine wp.mono (calls_wp hfile (fun _ h => absurd rfl h) hT ?_) ?_ fun _ he => he
  · rw [room_used]
    exact hroom
  rintro _ s1 ⟨rfl, hk, m, h⟩
  refine ⟨rfl, ⟨m, h.file⟩, ?_, ?_, hk.frame.others, hk.dinodes, ?_⟩
  · intro p off n
    refine wp.mono (readi_wp h.mapped h.file) ?_ fun _ he => he
    rintro r s2 ⟨rfl, rfl⟩
    exact ⟨rfl, rfl⟩
  · intro p src off href
    refine writei_wp h ?_
    refine wp.mono (writeContent_refused h href) ?_ fun _ he => he
    rintro r s2 ⟨rfl, rfl⟩
    exact ⟨rfl, rfl⟩
  · intro din m' c' hf hu
    exact hk.other hi hf hu

/-- Three bytes are written, one of them is overwritten, and two are read. -/
theorem file_is_array_fresh :
    Ends (calls none 0 [.write 1 [1, 2, 3] 0, .write 2 [7] 1, .read 1 1 5]) fresh fun rs s1 =>
      rs = [.done true, .done true, .bytes (some [7, 3])] ∧
      ∃ m, FileOf s1.disk (s1.icache 0).din m [1, 7, 3] := by
  have hmeta : ∀ b, b < nmeta → fresh.disk.used sb b = true := by
    intro b hb
    rw [used_fresh _]
    exact decide_eq_true hb
  refine wp.mono (@file_is_array 0 fresh none
    [.write 1 [1, 2, 3] 0, .write 2 [7] 1, .read 1 1 5] rfl hmeta (by decide) ?_ ?_ ?_ ?_)
    ?_ fun _ he => he
  · exact Dinode.type_setType _ _ (by decide)
  · exact (Dinode.size_setType _ _).trans Dinode.zero_size
  · intro k _
    show (Dinode.zero.setType T_FILE).addr k = 0
    rw [Dinode.addr_setType, Dinode.zero_addr]
  · rw [nfree_fresh]
    decide
  · rintro rs s1 ⟨hrs, hfile, -⟩
    exact ⟨hrs, hfile⟩

end Xv6.Fs
