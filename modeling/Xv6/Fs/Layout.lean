import Xv6.Fs.Mkfs

/-!
# What mkfs builds

Every file has its bytes in a list of data blocks, the first `NDIRECT` of which
are in the inode and the others in one indirect block. The blocks from `nmeta` to
`freeblock` are those of the files, each at one place of one file.

`Inv` is the invariant of the image under construction. `iappend` adds bytes to
one file and keeps the others (`iappend_wp`, by induction on its turns), and so do
the loops over the reads of one input and over the inputs (`appendAll_wp`,
`addFiles_wp`); `main_wp` says what the finished image holds. A file beyond the
reach of the indirect block makes `iappend` stop; that is the one stop which is
left open here, and `Fs.Agree` deals with it.
-/

namespace Xv6.Fs.Mkfs

open Xv6.Lib Prog

/-! ## Files and their blocks -/

/-- A place for a block number. -/
inductive Site
  | data (k : Nat)
  | ind
  deriving DecidableEq

/-- A file, with its data blocks and its indirect block. -/
structure Placed where
  type : Nat
  content : List UInt8
  blks : List Nat
  ind : Option Nat

/-- The block at a place. -/
def Placed.block (f : Placed) : Site → Option Nat
  | .data k => f.blks[k]?
  | .ind => f.ind

/-- The number of blocks of `n` bytes. -/
def blocks (n : Nat) : Nat := (n + BSIZE - 1) / BSIZE

/-- Inode `din` leads to the blocks of the file. -/
structure Shape (d : Disk) (din : Dinode) (f : Placed) : Prop where
  type : din.type = f.type
  direct : ∀ k, k < NDIRECT → din.addr k = (f.blks[k]?).getD 0
  single : din.addr NDIRECT = f.ind.getD 0
  double : din.addr (NDIRECT + 1) = 0
  triple : din.addr (NDIRECT + 1 + 1) = 0
  indirect : ∀ b, f.ind = some b →
    ∀ k, k < NINDIRECT → word (d b) k = (f.blks[NDIRECT + k]?).getD 0
  single_iff : f.ind = none ↔ f.blks.length ≤ NDIRECT
  small : f.blks.length ≤ NDIRECT + NINDIRECT

/-- The blocks hold the bytes of the file. -/
def Holds (d : Disk) (f : Placed) : Prop :=
  ∀ o, o < f.content.length → ∃ b, f.blks[o / BSIZE]? = some b ∧
    byteAt (d b) (o % BSIZE) = f.content.getD o 0

/-- The block at a place of the `i`-th file. -/
def blockAt (fs : List Placed) (i : Nat) (t : Site) : Option Nat := fs[i]?.bind fun f => f.block t

/-- The blocks from `nmeta` to `free` are those of the files, one for each place. -/
structure Alloc (free : Nat) (fs : List Placed) : Prop where
  ge : nmeta ≤ free
  held : ∀ i t b, blockAt fs i t = some b → nmeta ≤ b ∧ b < free
  apart : ∀ i t j u b, blockAt fs i t = some b → blockAt fs j u = some b → i = j ∧ t = u
  onto : ∀ b, nmeta ≤ b → b < free → ∃ i t, blockAt fs i t = some b

variable {fs : List Placed} {f g : Placed} {i j free : Nat} {d d' : Disk} {din : Dinode}

theorem blockAt_of (h : fs[i]? = some f) (t : Site) : blockAt fs i t = f.block t := by
  rw [blockAt, h]
  rfl

theorem getElem?_set_of {α : Type} {l : List α} {a b : α} (h : l[i]? = some b) :
    (l.set i a)[i]? = some a :=
  List.getElem?_set_self (List.getElem?_eq_some_iff.1 h).1

theorem blockAt_set_ne (h : j ≠ i) (t : Site) : blockAt (fs.set i g) j t = blockAt fs j t := by
  rw [blockAt, List.getElem?_set_ne (Ne.symm h)]
  rfl

/-- A file in other words, with the same blocks. -/
theorem blockAt_set_same (h : fs[i]? = some f) (hg : ∀ t, g.block t = f.block t) :
    blockAt (fs.set i g) = blockAt fs := by
  funext j t
  by_cases hj : j = i
  · subst hj
    rw [blockAt_of (getElem?_set_of h), blockAt_of h, hg]
  · exact blockAt_set_ne hj t

/-- A file without blocks. -/
theorem blockAt_append (hg : ∀ t, g.block t = none) : blockAt (fs ++ [g]) = blockAt fs := by
  funext j t
  unfold blockAt
  rcases Nat.lt_or_ge j fs.length with hj | hj
  · rw [List.getElem?_append_left hj]
  · rw [List.getElem?_append_right hj, List.getElem?_eq_none hj]
    cases hs : [g][j - fs.length]? with
    | none => rfl
    | some f =>
        obtain rfl : f = g := by
          have := List.mem_of_getElem? hs
          simpa using this
        exact hg t

/-- The bound on the blocks depends only on which blocks are placed. -/
theorem Alloc.congr {gs : List Placed} (h : Alloc free fs) (heq : blockAt gs = blockAt fs) :
    Alloc free gs := by
  refine ⟨h.ge, ?_, ?_, ?_⟩
  · rw [heq]
    exact h.held
  · rw [heq]
    exact h.apart
  · rw [heq]
    exact h.onto

/-- The next block goes to a place that is empty. -/
theorem Alloc.take {t : Site} (h : Alloc free fs) (hf : fs[i]? = some f) (ht : f.block t = none)
    (hg : g.block t = some free) (hrest : ∀ u, u ≠ t → g.block u = f.block u) :
    Alloc (free + 1) (fs.set i g) := by
  have hnew : blockAt (fs.set i g) i t = some free := by
    rw [blockAt_of (getElem?_set_of hf), hg]
  have hempty : blockAt fs i t = none := by
    rw [blockAt_of hf, ht]
  -- every other place is as before
  have hold : ∀ j u, j ≠ i ∨ u ≠ t → blockAt (fs.set i g) j u = blockAt fs j u := by
    intro j u hne
    by_cases hj : j = i
    · subst hj
      rcases hne with hne | hne
      · exact absurd rfl hne
      · rw [blockAt_of (getElem?_set_of hf), blockAt_of hf, hrest u hne]
    · exact blockAt_set_ne hj u
  have hcases : ∀ j u b, blockAt (fs.set i g) j u = some b →
      j = i ∧ u = t ∧ b = free ∨ blockAt fs j u = some b := by
    intro j u b hb
    by_cases hju : j = i ∧ u = t
    · rcases hju with ⟨rfl, rfl⟩
      rw [hnew] at hb
      cases hb
      exact .inl ⟨rfl, rfl, rfl⟩
    · refine .inr ((hold j u ?_).symm.trans hb)
      by_cases hj : j = i
      · exact .inr fun hu => hju ⟨hj, hu⟩
      · exact .inl hj
  refine ⟨Nat.le_succ_of_le h.ge, ?_, ?_, ?_⟩
  · intro j u b hb
    rcases hcases j u b hb with ⟨-, -, rfl⟩ | hb
    · exact ⟨h.ge, Nat.lt_succ_self _⟩
    · have := h.held j u b hb
      omega
  · intro j u k v b h1 h2
    rcases hcases j u b h1 with ⟨rfl, rfl, rfl⟩ | h1
    · rcases hcases k v _ h2 with ⟨rfl, rfl, -⟩ | h2
      · exact ⟨rfl, rfl⟩
      · exact absurd (h.held k v _ h2).2 (Nat.lt_irrefl _)
    · rcases hcases k v _ h2 with ⟨-, -, rfl⟩ | h2
      · exact absurd (h.held j u _ h1).2 (Nat.lt_irrefl _)
      · exact h.apart j u k v b h1 h2
  · intro b hge hlt
    by_cases hb : b = free
    · exact ⟨i, t, hb ▸ hnew⟩
    · rcases h.onto b hge (by omega) with ⟨j, u, hu⟩
      refine ⟨j, u, (hold j u ?_).trans hu⟩
      by_cases hj : j = i
      · refine .inr ?_
        rintro rfl
        rw [hj, hempty] at hu
        cases hu
      · exact .inl hj

/-! ## The image -/

/-- The image while `mkfs` works on it; `din` is what the inodes are, or will be
when the one at work has been written. -/
structure Good (s : Img) (din : Nat → Dinode) (fs : List Placed) : Prop where
  super : s.disk 1 = writesb sb
  shape : ∀ (i : Nat) (f : Placed), fs[i]? = some f → Shape s.disk (din i) f
  holds : ∀ (i : Nat) (f : Placed), fs[i]? = some f → Holds s.disk f
  alloc : Alloc s.freeblock fs
  fresh : ∀ b, s.freeblock ≤ b → s.disk b = zeroes
  bound : s.freeblock ≤ FSSIZE

/-- The blocks before `nmeta` are as they were. -/
structure Meta (s s' : Img) : Prop where
  disk : ∀ b, b < nmeta → s'.disk b = s.disk b
  freeinode : s'.freeinode = s.freeinode
  grows : s.freeblock ≤ s'.freeblock

theorem Meta.refl (s : Img) : Meta s s := ⟨fun _ _ => rfl, rfl, Nat.le_refl _⟩

theorem Meta.trans {s s1 s2 : Img} (h : Meta s s1) (h' : Meta s1 s2) : Meta s s2 :=
  ⟨fun b hb => (h'.disk b hb).trans (h.disk b hb), h'.freeinode.trans h.freeinode,
    Nat.le_trans h.grows h'.grows⟩

/-! ### Rules -/

variable {s : Img} {α : Type} {E : Stop → Prop}

/-- `rsect` reads a sector of the image, or stops behind its end. -/
theorem rsect_wp {sec : Nat} {Q : Block → Img → Prop} (h : sec < FSSIZE → Q (s.disk sec) s)
    (hE : FSSIZE ≤ sec → E .exit) : wp (rsect sec) s Q E := by
  unfold rsect
  simp only [wp_bind, wp_get]
  refine wp_ite (fun hlt => (wp_pure ..).2 (h hlt)) fun hge => ?_
  exact (wp_throw ..).2 (hE (Nat.not_lt.1 hge))

@[simp] theorem wsect_wp {sec : Nat} {buf : Block} {Q : Unit → Img → Prop} :
    wp (wsect sec buf) s Q E ↔ Q () { s with disk := s.disk.put sec buf } := by
  simp [wsect]

theorem assert_wp {c : Bool} {Q : Unit → Img → Prop} (h : c = true → Q () s)
    (hE : c = false → E .assertion) : wp (assert c) s Q E := by
  unfold assert
  refine wp_ite (fun hc => (wp_pure ..).2 (h hc)) fun hc => (wp_throw ..).2 (hE ?_)
  simpa using hc

/-- The next free block. -/
theorem takeBlock_wp {Q : Nat → Img → Prop} (hb : s.freeblock ≤ FSSIZE + 1)
    (h : Q s.freeblock { s with freeblock := s.freeblock + 1 }) : wp takeBlock s Q E := by
  unfold takeBlock
  simp only [wp_bind, wp_get, wp_set, wp_pure]
  have hlt : s.freeblock + 1 < 2 ^ 32 := by
    unfold FSSIZE at hb
    omega
  rwa [Nat.mod_eq_of_lt hlt]

/-- A file keeps its shape when its indirect block stays. -/
theorem Shape.frame (h : Shape d din f) (hd : ∀ b, f.block .ind = some b → d' b = d b) :
    Shape d' din f := by
  refine ⟨h.type, h.direct, h.single, h.double, h.triple, ?_, h.single_iff, h.small⟩
  intro b hb k hk
  rw [hd b hb]
  exact h.indirect b hb k hk

theorem Holds.frame (h : Holds d f) (hd : ∀ k b, f.block (.data k) = some b → d' b = d b) :
    Holds d' f := by
  intro o ho
  rcases h o ho with ⟨b, hb, hbyte⟩
  exact ⟨b, hb, (hd _ b hb).symm ▸ hbyte⟩

/-- One file is worked on; the blocks of the others are as they were. -/
theorem Good.update {s' : Img} {dins : Nat → Dinode} (h : Good s dins fs)
    (hother : ∀ j t b, j ≠ i → blockAt fs j t = some b → s'.disk b = s.disk b)
    (hsb : s'.disk 1 = s.disk 1) (hi : i < fs.length) (hshape : Shape s'.disk din g)
    (hholds : Holds s'.disk g) (halloc : Alloc s'.freeblock (fs.set i g))
    (hfresh : ∀ b, s'.freeblock ≤ b → s'.disk b = zeroes) (hbound : s'.freeblock ≤ FSSIZE) :
    Good s' (Function.update dins i din) (fs.set i g) := by
  -- file `i` is the new one, and the others are those of before
  have hcases : ∀ (j : Nat) (f : Placed), (fs.set i g)[j]? = some f →
      j = i ∧ f = g ∨ j ≠ i ∧ fs[j]? = some f := by
    intro j f hj
    by_cases hji : j = i
    · subst hji
      rw [List.getElem?_set_self hi] at hj
      cases hj
      exact .inl ⟨rfl, rfl⟩
    · rw [List.getElem?_set_ne (Ne.symm hji)] at hj
      exact .inr ⟨hji, hj⟩
  refine ⟨hsb.trans h.super, ?_, ?_, halloc, hfresh, hbound⟩
  · intro j f hj
    rcases hcases j f hj with ⟨rfl, rfl⟩ | ⟨hji, hj⟩
    · rw [Function.update_self]
      exact hshape
    · rw [Function.update_of_ne hji]
      exact (h.shape j f hj).frame fun b hb => hother j .ind b hji ((blockAt_of hj _).trans hb)
  · intro j f hj
    rcases hcases j f hj with ⟨rfl, rfl⟩ | ⟨hji, hj⟩
    · exact hholds
    · exact (h.holds j f hj).frame fun k b hb =>
        hother j (.data k) b hji ((blockAt_of hj _).trans hb)

/-- A block of a file. -/
theorem Good.block {dins : Nat → Dinode} {t : Site} {b : Nat} (h : Good s dins fs)
    (hf : fs[i]? = some f) (hb : f.block t = some b) : nmeta ≤ b ∧ b < s.freeblock ∧ b ≠ 0 := by
  rcases h.alloc.held i t b ((blockAt_of hf t).trans hb) with ⟨h1, h2⟩
  refine ⟨h1, h2, ?_⟩
  rintro rfl
  exact absurd h1 (by decide)

/-! ### One block -/

/-- The block is there already. -/
theorem place_old {dins : Nat → Dinode} {fbn b : Nat} {Q : Dinode × Nat → Img → Prop}
    (h : Good s dins fs) (hf : fs[i]? = some f) (hb : f.blks[fbn]? = some b)
    (hQ : Q (dins i, b) s) : wp (place (dins i) fbn) s Q E := by
  have hshape := h.shape i f hf
  have hlen : fbn < f.blks.length := (List.getElem?_eq_some_iff.1 hb).1
  rcases h.block (t := .data fbn) hf hb with ⟨-, hlt, hb0⟩
  unfold place
  refine wp_ite (fun hd => ?_) fun hd => ?_
  -- a direct block
  · have haddr : (dins i).addr fbn = b := by
      rw [hshape.direct fbn hd, hb]
      rfl
    unfold slot
    rw [wp_bind, if_neg (by rw [haddr]; exact hb0)]
    refine (wp_pure ..).2 ((wp_pure ..).2 ?_)
    rwa [haddr]
  -- a block behind the indirect one, which is there since the file is long enough
  · obtain ⟨b1, hb1⟩ : ∃ b1, f.ind = some b1 := by
      refine Option.ne_none_iff_exists'.1 fun hnone => ?_
      have := hshape.single_iff.1 hnone
      omega
    rcases h.block (t := .ind) hf hb1 with ⟨-, hlt1, hb10⟩
    have haddr : (dins i).addr NDIRECT = b1 := by
      rw [hshape.single, hb1]
      rfl
    have hsmall := hshape.small
    have hword : word (s.disk b1) (fbn - NDIRECT) = b := by
      rw [hshape.indirect b1 hb1 _ (by omega), show NDIRECT + (fbn - NDIRECT) = fbn by omega, hb]
      rfl
    unfold slot
    rw [wp_bind, if_neg (by rw [haddr]; exact hb10), wp_pure, wp_bind, haddr]
    refine rsect_wp (fun _ => ?_) fun hge => ?_
    · refine wp_ite (fun hov => absurd hov (by omega)) fun _ => ?_
      rw [if_neg (by rw [hword]; exact hb0), hword]
      exact (wp_pure ..).2 hQ
    · have := h.bound
      omega

/-- Looking up in a list with one more element at the end. -/
theorem getElem?_snoc {l : List Nat} {b : Nat} (k : Nat) :
    (l ++ [b])[k]? = if k = l.length then some b else l[k]? := by
  split
  · next hk => simp [hk]
  · next hk =>
    rcases Nat.lt_or_ge k l.length with hlt | hge
    · rw [List.getElem?_append_left hlt]
    · rw [List.getElem?_eq_none hge, List.getElem?_eq_none]
      simp
      omega

/-- One more direct block. -/
theorem Shape.addDirect {b : Nat} (h : Shape d din f) (hlen : f.blks.length < NDIRECT)
    (hb : b < 2 ^ 32) :
    Shape d (din.setAddr f.blks.length b) { f with blks := f.blks ++ [b] } where
  type := by
    rw [Dinode.type_setAddr]
    exact h.type
  direct := by
    intro k hk
    rw [getElem?_snoc]
    -- the new slot, and the ones before it
    by_cases hkl : k = f.blks.length
    · rw [if_pos hkl, hkl]
      exact Dinode.addr_setAddr din b (by omega) hb
    · rw [if_neg hkl, Dinode.addr_setAddr_ne din b hkl]
      exact h.direct k hk
  single := by
    rw [Dinode.addr_setAddr_ne din b (by omega)]
    exact h.single
  double := by
    rw [Dinode.addr_setAddr_ne din b (by omega)]
    exact h.double
  triple := by
    rw [Dinode.addr_setAddr_ne din b (by omega)]
    exact h.triple
  indirect := by
    intro b1 hb1
    have := h.single_iff.2 (Nat.le_of_lt hlen)
    rw [show f.ind = some b1 from hb1] at this
    cases this
  single_iff := by
    rw [List.length_append]
    refine ⟨fun _ => ?_, fun _ => h.single_iff.2 (Nat.le_of_lt hlen)⟩
    simp
    omega
  small := by
    rw [List.length_append]
    simp
    omega

/-- The first block behind the direct ones brings the indirect block with it. -/
theorem Shape.addFirst {b1 b2 : Nat} (h : Shape d din f) (hlen : f.blks.length = NDIRECT)
    (hb1 : b1 < 2 ^ 32) (hb2 : b2 < 2 ^ 32) (hd : d' b1 = setWord zeroes 0 b2) :
    Shape d' (din.setAddr NDIRECT b1) { f with blks := f.blks ++ [b2], ind := some b1 } where
  type := by
    rw [Dinode.type_setAddr]
    exact h.type
  direct := by
    intro k hk
    rw [getElem?_snoc, if_neg (by omega), Dinode.addr_setAddr_ne din b1 (by omega)]
    exact h.direct k hk
  single := Dinode.addr_setAddr din b1 (by omega) hb1
  double := by
    rw [Dinode.addr_setAddr_ne din b1 (by omega)]
    exact h.double
  triple := by
    rw [Dinode.addr_setAddr_ne din b1 (by omega)]
    exact h.triple
  indirect := by
    intro b hb k hk
    cases hb
    rw [hd, getElem?_snoc]
    -- the indirect block was zeroed, and its first word is the new block
    by_cases hk0 : k = 0
    · rw [if_pos (by omega), hk0, word_setWord _ (by decide) hb2]
      rfl
    · rw [if_neg (by omega), word_setWord_ne _ hk0, word_zeroes,
        List.getElem?_eq_none (by omega)]
      rfl
  single_iff := by
    simp [hlen]
  small := by
    rw [List.length_append, hlen]
    show NDIRECT + 1 ≤ NDIRECT + NINDIRECT
    decide

/-- One more block in the indirect block. -/
theorem Shape.addNext {b1 b2 : Nat} (h : Shape d din f) (hgt : NDIRECT < f.blks.length)
    (hlt : f.blks.length < NDIRECT + NINDIRECT) (hind : f.ind = some b1) (hb2 : b2 < 2 ^ 32)
    (hd : d' b1 = setWord (d b1) (f.blks.length - NDIRECT) b2) :
    Shape d' din { f with blks := f.blks ++ [b2] } where
  type := h.type
  direct := by
    intro k hk
    rw [getElem?_snoc, if_neg (by omega)]
    exact h.direct k hk
  single := h.single
  double := h.double
  triple := h.triple
  indirect := by
    intro b hb k hk
    cases hind.symm.trans hb
    rw [hd, getElem?_snoc]
    -- one word more in the indirect block
    by_cases hkl : k = f.blks.length - NDIRECT
    · rw [if_pos (by omega), hkl, word_setWord _ (by omega) hb2]
      rfl
    · rw [if_neg (by omega), word_setWord_ne _ hkl]
      exact h.indirect b1 hind k hk
  single_iff := by
    rw [List.length_append]
    simp [hind]
    omega
  small := by
    rw [List.length_append]
    simp
    omega

/-- What `place` leaves when the block is a new one. -/
structure NewBlock (s : Img) (dins : Nat → Dinode) (fs : List Placed) (i : Nat) (f : Placed)
    (r : Dinode × Nat) (s' : Img) : Prop where
  steps : Meta s s'
  lt : r.2 < s'.freeblock
  grown : s'.freeblock ≤ s.freeblock + 2
  good : r.2 < FSSIZE → ∃ ind, Good s' (Function.update dins i r.1)
    (fs.set i { f with blks := f.blks ++ [r.2], ind := ind })

/-- The body of `iappend` for a block the file has not yet: direct, first indirect, or one
more indirect, in the order of the source. -/
theorem place_new {dins : Nat → Dinode} {Q : Dinode × Nat → Img → Prop} (h : Good s dins fs)
    (hf : fs[i]? = some f) (hQ : ∀ r s', NewBlock s dins fs i f r s' → Q r s')
    (hover : NDIRECT + NINDIRECT ≤ f.blks.length → E .overrun)
    (hexit : FSSIZE ≤ s.freeblock + 1 → E .exit) :
    wp (place (dins i) f.blks.length) s Q E := by
  have hshape := h.shape i f hf
  have hholds := h.holds i f hf
  have hlen : i < fs.length := (List.getElem?_eq_some_iff.1 hf).1
  have hbound := h.bound
  have hge := h.alloc.ge
  have hnone : f.blks[f.blks.length]? = none := List.getElem?_eq_none (Nat.le_refl _)
  -- the bytes are where they were
  have hkeep : ∀ (s' : Img) (ind : Option Nat) (x : Nat),
      (∀ k b, f.block (.data k) = some b → s'.disk b = s.disk b) →
      Holds s'.disk { f with blks := f.blks ++ [x], ind := ind } := by
    intro s' ind x hd o ho
    rcases hholds o ho with ⟨b, hb, hbyte⟩
    refine ⟨b, ?_, (hd _ b hb).symm ▸ hbyte⟩
    rw [List.getElem?_append_left (List.getElem?_eq_some_iff.1 hb).1]
    exact hb
  unfold place
  refine wp_ite (fun hd => ?_) fun hd => ?_
  · -- a direct block
    have haddr : (dins i).addr f.blks.length = 0 := by
      rw [hshape.direct _ hd, hnone]
      rfl
    unfold slot
    rw [wp_bind, if_pos haddr, wp_bind]
    refine takeBlock_wp (by omega) ((wp_pure ..).2 ((wp_pure ..).2 (hQ _ _ ?_)))
    have hx : ((dins i).setAddr f.blks.length s.freeblock).addr f.blks.length = s.freeblock := by
      refine Dinode.addr_setAddr _ _ (by omega) ?_
      unfold FSSIZE at hbound
      omega
    rw [hx]
    refine ⟨⟨fun _ _ => rfl, rfl, Nat.le_succ _⟩, Nat.lt_succ_self _, Nat.le_succ _, fun hlt => ?_⟩
    refine ⟨f.ind, h.update (fun _ _ _ _ _ => rfl) rfl hlen ?_ ?_ ?_ ?_ hlt⟩
    · refine hshape.addDirect hd ?_
      unfold FSSIZE at hlt
      dsimp only at hlt
      omega
    · exact hkeep { s with freeblock := s.freeblock + 1 } f.ind _ fun _ _ _ => rfl
    · refine h.alloc.take (t := .data f.blks.length) hf hnone ?_ ?_
      · show (f.blks ++ [s.freeblock])[f.blks.length]? = some s.freeblock
        rw [getElem?_snoc, if_pos rfl]
      · intro u hu
        cases u with
        | ind => rfl
        | data k =>
            show (f.blks ++ [s.freeblock])[k]? = f.blks[k]?
            rw [getElem?_snoc, if_neg fun hk => hu (congrArg Site.data hk)]
    · exact fun b hb => h.fresh b (Nat.le_of_succ_le hb)
  · have hlt32 : s.freeblock + 2 < 2 ^ 32 := by
      unfold FSSIZE at hbound
      omega
    -- a block that is put in an indirect block is none of the others
    have hother : ∀ b1, s.freeblock ≤ b1 ∨ f.ind = some b1 → ∀ j t b, j ≠ i ∨ t ≠ .ind →
        blockAt fs j t = some b → b ≠ b1 := by
      rintro b1 (hb1 | hb1) j t b hne hb rfl
      · exact absurd (h.alloc.held j t b hb).2 (by omega)
      · rcases h.alloc.apart j t i .ind b hb ((blockAt_of hf _).trans hb1) with ⟨h1, h2⟩
        rcases hne with hne | hne
        · exact hne h1
        · exact hne h2
    have hnot1 : ∀ b1, nmeta ≤ b1 → (1 : Nat) ≠ b1 := by
      rintro _ hb1 rfl
      exact absurd hb1 (by decide)
    cases hind : f.ind with
    | none =>
        -- the first block behind the indirect block
        have hten : f.blks.length = NDIRECT :=
          Nat.le_antisymm (hshape.single_iff.1 hind) (Nat.not_lt.1 hd)
        have haddr : (dins i).addr NDIRECT = 0 := by
          rw [hshape.single, hind]
          rfl
        unfold slot
        rw [wp_bind, if_pos haddr, wp_bind]
        refine takeBlock_wp (by omega) ((wp_pure ..).2 ?_)
        have hx : ((dins i).setAddr NDIRECT s.freeblock).addr NDIRECT = s.freeblock :=
          Dinode.addr_setAddr _ _ (by omega) (by omega)
        rw [wp_bind, hx]
        refine rsect_wp (fun hsec => ?_) fun hge => hexit (by omega)
        refine wp_ite (fun hov => absurd hov ?_) fun _ => ?_
        · rw [hten]
          decide
        have hzero : s.disk s.freeblock = zeroes := h.fresh _ (Nat.le_refl _)
        dsimp only
        rw [hten, Nat.sub_self, hzero, if_pos (word_zeroes 0), wp_bind]
        refine takeBlock_wp (by show s.freeblock + 1 ≤ _; omega) ?_
        simp only [wp_bind, wsect_wp, wp_pure]
        refine hQ _ _ ⟨⟨fun b hb => ?_, rfl, ?_⟩, ?_, ?_, fun hlt => ?_⟩
        · exact Disk.put_of_ne _ _ _ (by omega)
        · show s.freeblock ≤ s.freeblock + 1 + 1
          omega
        · exact Nat.lt_succ_self _
        · exact Nat.le_refl _
        refine ⟨some s.freeblock, h.update ?_ ?_ hlen ?_ ?_ ?_ ?_ hlt⟩
        · intro j t b hji hb
          exact Disk.put_of_ne _ _ _ (hother _ (.inl (Nat.le_refl _)) j t b (.inl hji) hb)
        · exact Disk.put_of_ne _ _ _ (hnot1 _ hge)
        · exact hshape.addFirst hten (by omega) (by omega) (Disk.put_self _ _ _)
        · refine hkeep _ _ _ fun k b hb => Disk.put_of_ne _ _ _ ?_
          refine hother _ (.inl (Nat.le_refl _)) i (.data k) b (.inr (by simp)) ?_
          exact (blockAt_of hf _).trans hb
        · have hfirst : Alloc (s.freeblock + 1) (fs.set i { f with ind := some s.freeblock }) := by
            refine h.alloc.take (t := .ind) hf hind rfl fun u hu => ?_
            cases u with
            | ind => exact absurd rfl hu
            | data k => rfl
          have hboth := hfirst.take (t := .data f.blks.length)
            (g := { f with blks := f.blks ++ [s.freeblock + 1], ind := some s.freeblock })
            (getElem?_set_of hf) hnone ?_ ?_
          · rwa [List.set_set] at hboth
          · show (f.blks ++ [s.freeblock + 1])[f.blks.length]? = _
            rw [getElem?_snoc, if_pos rfl]
          · intro u hu
            cases u with
            | ind => rfl
            | data k =>
                show (f.blks ++ [s.freeblock + 1])[k]? = f.blks[k]?
                rw [getElem?_snoc, if_neg fun hk => hu (congrArg Site.data hk)]
        · intro b hb
          have hb' : s.freeblock + 2 ≤ b := hb
          exact (Disk.put_of_ne _ _ _ (by omega)).trans (h.fresh b (by omega))
    | some b1 =>
        rcases h.block (t := .ind) hf hind with ⟨hge1, hlt1, hb10⟩
        have hgt : NDIRECT < f.blks.length := by
          by_contra hle
          have := hshape.single_iff.2 (Nat.not_lt.1 hle)
          rw [hind] at this
          cases this
        have haddr : (dins i).addr NDIRECT = b1 := by
          rw [hshape.single, hind]
          rfl
        unfold slot
        rw [wp_bind, if_neg (by rw [haddr]; exact hb10), wp_pure, wp_bind, haddr]
        refine rsect_wp (fun hsec => ?_) fun hge => absurd hge (by omega)
        refine wp_ite (fun hov => (wp_throw ..).2 (hover (by omega))) fun hov => ?_
        have hword : word (s.disk b1) (f.blks.length - NDIRECT) = 0 := by
          rw [hshape.indirect b1 hind _ (by omega),
            show NDIRECT + (f.blks.length - NDIRECT) = f.blks.length by omega, hnone]
          rfl
        dsimp only
        rw [if_pos hword, wp_bind]
        refine takeBlock_wp (by omega) ?_
        simp only [wp_bind, wsect_wp, wp_pure]
        refine hQ _ _ ⟨⟨fun b hb => ?_, rfl, Nat.le_succ _⟩, Nat.lt_succ_self _, Nat.le_succ _,
          fun hlt => ?_⟩
        · exact Disk.put_of_ne _ _ _ (by omega)
        refine ⟨f.ind, h.update ?_ ?_ hlen ?_ ?_ ?_ ?_ hlt⟩
        · intro j t b hji hb
          exact Disk.put_of_ne _ _ _ (hother _ (.inr hind) j t b (.inl hji) hb)
        · exact Disk.put_of_ne _ _ _ (hnot1 _ hge1)
        · exact hshape.addNext hgt (by omega) hind (by omega) (Disk.put_self _ _ _)
        · refine hkeep _ _ _ fun k b hb => Disk.put_of_ne _ _ _ ?_
          refine hother _ (.inr hind) i (.data k) b (.inr (by simp)) ?_
          exact (blockAt_of hf _).trans hb
        · refine h.alloc.take (t := .data f.blks.length) hf hnone ?_ ?_
          · show (f.blks ++ [s.freeblock])[f.blks.length]? = some s.freeblock
            rw [getElem?_snoc, if_pos rfl]
          · intro u hu
            cases u with
            | ind => rfl
            | data k =>
                show (f.blks ++ [s.freeblock])[k]? = f.blks[k]?
                rw [getElem?_snoc, if_neg fun hk => hu (congrArg Site.data hk)]
        · intro b hb
          have hb' : s.freeblock + 1 ≤ b := hb
          exact (Disk.put_of_ne _ _ _ (by omega)).trans (h.fresh b (by omega))

/-! ### Appending -/

/-- Storing a piece in the last block lengthens the content by that piece. -/
theorem Good.write {dins : Nat → Dinode} {b n : Nat} {p : List UInt8} {v : Block}
    (h : Good s dins fs) (hf : fs[i]? = some f)
    (hb : f.blks[f.content.length / BSIZE]? = some b) (hn : n ≤ p.length)
    (hfit : f.content.length % BSIZE + n ≤ BSIZE)
    (hv : v = patch (s.disk b) (f.content.length % BSIZE) n fun i => p.getD i 0) :
    Good { s with disk := s.disk.put b v } dins
      (fs.set i { f with content := f.content ++ p.take n }) := by
  have hlen : i < fs.length := (List.getElem?_eq_some_iff.1 hf).1
  rcases h.block (t := .data _) hf hb with ⟨hge, hlt, -⟩
  -- the block that is written is this file's last one, and no other file's
  have hother : ∀ j t b', j ≠ i ∨ t ≠ .data (f.content.length / BSIZE) →
      blockAt fs j t = some b' → b' ≠ b := by
    rintro j t b' hne hb' rfl
    have hsite : f.block (.data (f.content.length / BSIZE)) = some b' := hb
    rcases h.alloc.apart j t i _ _ hb' ((blockAt_of hf _).trans hsite) with ⟨h1, h2⟩
    rcases hne with hne | hne
    · exact hne h1
    · exact hne h2
  have hnot1 : (1 : Nat) ≠ b := by
    rintro rfl
    exact absurd hge (by decide)
  have hself : Function.update dins i (dins i) = dins := Function.update_eq_self i dins
  rw [← hself]
  refine h.update ?_ ?_ hlen ?_ ?_ ?_ ?_ h.bound
  · intro j t b' hji hb'
    exact Disk.put_of_ne _ _ _ (hother j t b' (.inl hji) hb')
  · exact Disk.put_of_ne _ _ _ hnot1
  · have hshape : Shape (s.disk.put b v) (dins i) f := (h.shape i f hf).frame fun b' hb' =>
      Disk.put_of_ne _ _ _ (hother i .ind b' (.inr (by simp)) ((blockAt_of hf _).trans hb'))
    exact ⟨hshape.type, hshape.direct, hshape.single, hshape.double, hshape.triple,
      hshape.indirect, hshape.single_iff, hshape.small⟩
  · intro o ho
    have htake : (p.take n).length = n := by
      rw [List.length_take]
      omega
    have ho' : o < f.content.length + n := by
      rwa [List.length_append, htake] at ho
    have hdiv := Nat.div_add_mod f.content.length BSIZE
    by_cases hold : o < f.content.length
    · -- a byte that was there
      rcases h.holds i f hf o hold with ⟨b', hb', hbyte⟩
      refine ⟨b', hb', ?_⟩
      rw [List.getD_eq_getElem?_getD, List.getElem?_append_left hold, ← List.getD_eq_getElem?_getD,
        ← hbyte]
      by_cases hk : o / BSIZE = f.content.length / BSIZE
      · rw [hk] at hb'
        cases hb.symm.trans hb'
        dsimp only
        rw [Disk.put_self, hv]
        apply byteAt_patch_of_notMem
        left
        have := Nat.div_add_mod o BSIZE
        rw [hk] at this
        omega
      · refine congrArg (fun v : Block => byteAt v (o % BSIZE)) (Disk.put_of_ne _ _ _ ?_)
        refine hother i (.data (o / BSIZE)) b' (.inr ?_) ((blockAt_of hf _).trans hb')
        exact fun heq => hk (Site.data.inj heq)
    -- a byte that is new lies in the block that was written
    · have hk : o / BSIZE = f.content.length / BSIZE := by
        unfold BSIZE at *
        omega
      have hmod : o % BSIZE = f.content.length % BSIZE + (o - f.content.length) := by
        unfold BSIZE at *
        omega
      refine ⟨b, hk ▸ hb, ?_⟩
      have hlast : (f.content ++ p.take n).getD o 0 = p.getD (o - f.content.length) 0 := by
        rw [List.getD_eq_getElem?_getD, List.getElem?_append_right (Nat.not_lt.1 hold),
          List.getElem?_take_of_lt (by omega), ← List.getD_eq_getElem?_getD]
      dsimp only
      rw [hlast, Disk.put_self, hv, hmod, byteAt_patch_of_mem _ _ hfit (by omega)]
  · exact h.alloc.congr (blockAt_set_same hf fun _ => rfl)
  · intro b' hb'
    exact (Disk.put_of_ne _ _ _ (Nat.ne_of_gt (Nat.lt_of_lt_of_le hlt hb'))).trans (h.fresh b' hb')

/-- What the loop of `iappend` leaves. -/
structure Appended (s : Img) (dins : Nat → Dinode) (fs : List Placed) (i : Nat) (f : Placed)
    (p : List UInt8) (r : Dinode × Nat) (s' : Img) : Prop where
  steps : Meta s s'
  grown : s'.freeblock ≤ s.freeblock + 2 * p.length
  off : r.2 = f.content.length + p.length
  good : ∃ g, g.type = f.type ∧ g.content = f.content ++ p ∧
    g.blks.length = blocks g.content.length ∧
      Good s' (Function.update dins i r.1) (fs.set i g)

theorem blocks_add {n m : Nat} (h : n % BSIZE + m ≤ BSIZE) (hm : 0 < m) :
    blocks (n + m) = n / BSIZE + 1 := by
  unfold blocks BSIZE at *
  omega

/-- One turn: the block `x` is there, and bytes are put in it. -/
theorem Good.turn {dins : Nat → Dinode} {x fuel : Nat} {p : List UInt8} (h : Good s dins fs)
    (hf : fs[i]? = some f) (hx : f.blks[f.content.length / BSIZE]? = some x)
    (hlen : f.blks.length = f.content.length / BSIZE + 1) (hp : p ≠ [])
    {Q : Dinode × Nat → Img → Prop}
    (hnext : ∀ (s' : Img) (n : Nat) (g : Placed), 0 < n → n ≤ p.length → Good s' dins (fs.set i g) →
      g.type = f.type → g.content = f.content ++ p.take n →
        g.blks.length = blocks g.content.length →
      Meta s s' → s'.freeblock = s.freeblock →
      wp (iappendFrom fuel (dins i) g.content.length (p.drop n)) s' Q E) :
    wp (do
      let n1 := min p.length ((f.content.length / BSIZE + 1) * BSIZE - f.content.length)
      let buf ← rsect x
      wsect x (patch buf (f.content.length - f.content.length / BSIZE * BSIZE) n1 fun i =>
        p.getD i 0)
      iappendFrom fuel (dins i) (f.content.length + n1) (p.drop n1) : MM (Dinode × Nat)) s Q E := by
  have hdiv := Nat.div_add_mod f.content.length BSIZE
  have hmod : f.content.length % BSIZE < BSIZE := Nat.mod_lt _ (by decide)
  have hplen : 0 < p.length := List.length_pos_of_ne_nil hp
  rcases h.block (t := .data _) hf hx with ⟨hge, hlt, -⟩
  have hbound := h.bound
  generalize hn : min p.length ((f.content.length / BSIZE + 1) * BSIZE - f.content.length) = n
  -- the piece of this turn ends with the block or with the bytes
  have hn1 : 0 < n ∧ n ≤ p.length ∧ f.content.length % BSIZE + n ≤ BSIZE := by
    have hsub : (f.content.length / BSIZE + 1) * BSIZE - f.content.length =
        BSIZE - f.content.length % BSIZE := by
      rw [Nat.add_mul, Nat.one_mul, Nat.mul_comm]
      omega
    omega
  rcases hn1 with ⟨hn0, hnp, hfit⟩
  dsimp only
  rw [wp_bind]
  refine rsect_wp (fun _ => ?_) fun hge => absurd hge (by omega)
  rw [wp_bind, wsect_wp]
  have hoff : f.content.length - f.content.length / BSIZE * BSIZE = f.content.length % BSIZE := by
    rw [Nat.mul_comm]
    omega
  have hwritten := h.write hf hx hnp hfit (v := patch (s.disk x)
    (f.content.length - f.content.length / BSIZE * BSIZE) n fun i => p.getD i 0) (by rw [hoff])
  have hcontent : (f.content ++ p.take n).length = f.content.length + n := by
    rw [List.length_append, List.length_take]
    omega
  -- the turns to come go on behind it
  have hnext' := hnext _ n _ hn0 hnp hwritten rfl rfl ?_ ⟨fun b hb => ?_, rfl, Nat.le_refl _⟩ rfl
  · rwa [hcontent] at hnext'
  · dsimp only
    rw [hcontent, blocks_add hfit hn0, hlen]
  · exact Disk.put_of_ne _ _ _ (by omega)

/-- The loop of `iappend`. By induction on the fuel: every turn stores one piece, in a new
block where the last one is full. -/
theorem iappendFrom_wp {dins : Nat → Dinode} {fuel : Nat} {p : List UInt8} (h : Good s dins fs)
    (hf : fs[i]? = some f) (hlen : f.blks.length = blocks f.content.length)
    (hfuel : p.length ≤ fuel)
    (hover : (NDIRECT + NINDIRECT) * BSIZE < f.content.length + p.length → E .overrun)
    (hexit : FSSIZE ≤ s.freeblock + 2 * p.length → E .exit) :
    wp (iappendFrom fuel (dins i) f.content.length p) s
      (fun r s' => Appended s dins fs i f p r s') E := by
  -- one turn, and by induction the turns that are left
  induction fuel generalizing s dins fs f p with
  | zero =>
      obtain rfl : p = [] := List.eq_nil_of_length_eq_zero (Nat.le_zero.1 hfuel)
      refine (wp_pure ..).2 ⟨.refl s, Nat.le_refl _, rfl, f, rfl, (List.append_nil _).symm,
        hlen, ?_⟩
      rcases List.getElem?_eq_some_iff.1 hf with ⟨hi, rfl⟩
      rw [Function.update_eq_self, List.set_getElem_self hi]
      exact h
  | succ fuel ih =>
      have hsmall := (h.shape i f hf).small
      have hmod : f.content.length % BSIZE < BSIZE := Nat.mod_lt _ (by decide)
      unfold iappendFrom
      refine wp_ite (fun hp => ?_) fun hp => ?_
      · subst hp
        refine (wp_pure ..).2 ⟨.refl s, Nat.le_refl _, rfl, f, rfl, (List.append_nil _).symm,
          hlen, ?_⟩
        rcases List.getElem?_eq_some_iff.1 hf with ⟨hi, rfl⟩
        rw [Function.update_eq_self, List.set_getElem_self hi]
        exact h
      have hplen : 0 < p.length := List.length_pos_of_ne_nil hp
      -- what is left after a turn from a state in which the block is there
      have hturn : ∀ (s1 : Img) (g : Placed) (dins1 : Nat → Dinode) (x : Nat),
          Good s1 dins1 (fs.set i g) → g.content = f.content → g.type = f.type →
          g.blks[f.content.length / BSIZE]? = some x →
          g.blks.length = f.content.length / BSIZE + 1 → Meta s s1 →
          s1.freeblock ≤ s.freeblock + 2 → (∀ j, j ≠ i → dins1 j = dins j) →
          wp (do
            let n1 := min p.length ((f.content.length / BSIZE + 1) * BSIZE - f.content.length)
            let buf ← rsect x
            wsect x (patch buf (f.content.length - f.content.length / BSIZE * BSIZE) n1
              fun i => p.getD i 0)
            iappendFrom fuel (dins1 i) (f.content.length + n1) (p.drop n1) : MM (Dinode × Nat)) s1
            (fun r s' => Appended s dins fs i f p r s') E := by
        intro s1 g dins1 x h1 hc ht hx hl hmeta hgrown hdins
        have hg := getElem?_set_of (a := g) hf
        have hres := @Good.turn _ _ _ _ E _ x fuel p h1 hg (by rw [hc]; exact hx)
          (by rw [hc]; exact hl) hp (fun r s' => Appended s dins fs i f p r s') ?_
        · rwa [hc] at hres
        intro s2 n g2 hn0 hnp h2 ht2 hc2 hl2 hmeta2 hfb
        have hset : ∀ k : Placed, ((fs.set i g).set i k) = fs.set i k := fun k => List.set_set ..
        rw [hset] at h2
        have hlen2 : g2.content.length + (p.drop n).length = f.content.length + p.length := by
          rw [hc2, hc, List.length_append, List.length_take, List.length_drop]
          omega
        have hdrop : (p.drop n).length = p.length - n := List.length_drop
        refine wp.mono (ih h2 (getElem?_set_of hf) hl2 (by omega) (fun hov => hover (by omega))
          fun hex => hexit (by omega)) (fun r s3 h3 => ?_) fun _ he => he
        rcases h3.good with ⟨g3, ht3, hc3, hl3, h3g⟩
        have h3grown := h3.grown
        refine ⟨(hmeta.trans hmeta2).trans h3.steps, by omega, h3.off.trans hlen2, g3,
          ht3.trans (ht2.trans ht), ?_, hl3, ?_⟩
        · rw [hc3, hc2, hc, List.append_assoc, List.take_append_drop]
        · rw [List.set_set] at h3g
          have hupd : Function.update dins1 i r.1 = Function.update dins i r.1 := by
            funext j
            by_cases hj : j = i
            · rw [hj, Function.update_self, Function.update_self]
            · rw [Function.update_of_ne hj, Function.update_of_ne hj, hdins j hj]
          rwa [hupd] at h3g
      dsimp only
      rw [wp_bind]
      refine assert_wp (fun _ => ?_) fun hno => absurd hno ?_
      · rw [wp_bind]
        by_cases hnew : f.content.length % BSIZE = 0
        · -- the last block is full
          have hfbn : f.content.length / BSIZE = f.blks.length := by
            rw [hlen]
            unfold blocks BSIZE at *
            omega
          rw [hfbn]
          refine place_new h hf (fun r s1 h1 => ?_) (fun hov => hover ?_) fun hex =>
            hexit (by omega)
          · have hlt := h1.lt
            have hgrown := h1.grown
            by_cases hsec : r.2 < FSSIZE
            · rcases h1.good hsec with ⟨ind, hgood⟩
              have hres := hturn s1 _ _ r.2 hgood rfl rfl (by rw [hfbn, getElem?_snoc, if_pos rfl])
                (by rw [hfbn]; simp) h1.steps hgrown fun j hj => Function.update_of_ne hj _ _
              rw [Function.update_self, hfbn] at hres
              exact hres
            · rw [wp_bind]
              exact rsect_wp (fun hlt => absurd hlt hsec) fun _ => hexit (by omega)
          · have hdiv := Nat.div_add_mod f.content.length BSIZE
            have hmul := Nat.mul_le_mul_right BSIZE hov
            rw [← hfbn, Nat.mul_comm (_ / _)] at hmul
            omega
        · have hfbn : f.blks.length = f.content.length / BSIZE + 1 := by
            rw [hlen]
            unfold blocks BSIZE at *
            omega
          obtain ⟨x, hx⟩ : ∃ x, f.blks[f.content.length / BSIZE]? = some x :=
            ⟨_, List.getElem?_eq_getElem (by omega)⟩
          refine place_old h hf hx ?_
          rcases List.getElem?_eq_some_iff.1 hf with ⟨hi, hfi⟩
          have hself : fs.set i f = fs := by
            rw [← hfi]
            exact List.set_getElem_self hi
          exact hturn s f dins x (hself.symm ▸ h) rfl rfl hx hfbn (.refl s)
            (by omega) fun _ _ => rfl
      · have hle : f.content.length / BSIZE ≤ NDIRECT + NINDIRECT := by
          have : f.content.length / BSIZE ≤ f.blks.length := by
            rw [hlen]
            unfold blocks BSIZE
            omega
          omega
        have hmax : NDIRECT + NINDIRECT < MAXFILE := by decide
        simp
        omega

/-! ### Inodes -/

theorem two_le_IBLOCK (a : Nat) : 2 ≤ IBLOCK a sb :=
  Nat.le_trans (by decide) (Nat.le_add_left sb.inodestart _)

/-- The image between two calls of `iappend`: all inodes have been written. The
`i`-th file has inode `i + 1`. -/
structure Inv (s : Img) (fs : List Placed) : Prop where
  good : Good s (fun i => s.disk.dinode sb (i + 1)) fs
  size : ∀ (i : Nat) (f : Placed), fs[i]? = some f →
    (s.disk.dinode sb (i + 1)).size = f.content.length
  len : ∀ (i : Nat) (f : Placed), fs[i]? = some f → f.blks.length = blocks f.content.length
  spare : ∀ b, IBLOCK fs.length sb < b → b < nmeta → s.disk b = zeroes
  room : IBLOCK fs.length sb < nmeta
  freeinode : s.freeinode = fs.length + 1

/-- Only blocks before `nmeta` have been written. -/
theorem Good.frame {s' : Img} {dins dins' : Nat → Dinode} (h : Good s dins fs)
    (hd : ∀ b, nmeta ≤ b → s'.disk b = s.disk b) (hsb : s'.disk 1 = s.disk 1)
    (hfree : s'.freeblock = s.freeblock)
    (hdins : ∀ (i : Nat) (f : Placed), fs[i]? = some f → Shape s.disk (dins i) f →
      Shape s.disk (dins' i) f) : Good s' dins' fs where
  super := hsb.trans h.super
  shape := fun i f hf => (hdins i f hf (h.shape i f hf)).frame
    fun b hb => hd b (h.alloc.held i .ind b ((blockAt_of hf _).trans hb)).1
  holds := fun i f hf => (h.holds i f hf).frame
    fun k b hb => hd b (h.alloc.held i (.data k) b ((blockAt_of hf _).trans hb)).1
  alloc := hfree ▸ h.alloc
  fresh := by
    intro b hb
    rw [hfree] at hb
    exact (hd b (Nat.le_trans h.alloc.ge hb)).trans (h.fresh b hb)
  bound := hfree ▸ h.bound

/-- The size is no part of the shape. -/
theorem Shape.setSize (h : Shape d din f) (n : Nat) : Shape d (din.setSize n) f where
  type := by
    rw [Dinode.type_setSize]
    exact h.type
  direct := by
    intro k hk
    rw [Dinode.addr_setSize]
    exact h.direct k hk
  single := by
    rw [Dinode.addr_setSize]
    exact h.single
  double := by
    rw [Dinode.addr_setSize]
    exact h.double
  triple := by
    rw [Dinode.addr_setSize]
    exact h.triple
  indirect := h.indirect
  single_iff := h.single_iff
  small := h.small

/-- `winode` puts a dinode in its place. -/
theorem winode_wp {a : Nat} {x : Dinode} {Q : Unit → Img → Prop} (ha : IBLOCK a sb < nmeta)
    (h : Q () { s with
      disk := s.disk.put (IBLOCK a sb) (putDinode (s.disk (IBLOCK a sb)) (a % IPB) x) }) :
    wp (winode a x) s Q E := by
  have hmeta : nmeta < FSSIZE := by decide
  unfold winode
  rw [wp_bind]
  refine rsect_wp (fun _ => ?_) fun hge => absurd hge (by omega)
  rw [wsect_wp]
  exact h

/-- `iappend` lengthens one file and keeps the others, overruns the indirect array, or runs
out of blocks. -/
theorem iappend_wp {p : List UInt8} (h : Inv s fs) (hf : fs[i]? = some f)
    (hover : (NDIRECT + NINDIRECT) * BSIZE < f.content.length + p.length → E .overrun)
    (hexit : FSSIZE ≤ s.freeblock + 2 * p.length → E .exit) :
    wp (iappend (i + 1) p) s (fun _ s' => s'.freeblock ≤ s.freeblock + 2 * p.length ∧
      ∃ g, g.type = f.type ∧ g.content = f.content ++ p ∧ Inv s' (fs.set i g)) E := by
  have hi : i < fs.length := (List.getElem?_eq_some_iff.1 hf).1
  have hroom : IBLOCK (i + 1) sb < nmeta := by
    refine Nat.lt_of_le_of_lt ?_ h.room
    exact Nat.add_le_add_right (Nat.div_le_div_right hi) _
  have hmeta : nmeta < FSSIZE := by decide
  unfold iappend rinode
  rw [wp_bind, wp_bind]
  refine rsect_wp (fun _ => (wp_pure ..).2 ?_) fun hge => absurd hge (by omega)
  -- the loop, with the dinode as it was read
  have hloop := iappendFrom_wp (p := p) h.good hf (h.len i f hf) (Nat.le_refl _) hover hexit
  rw [← h.size i f hf] at hloop
  rw [wp_bind]
  refine wp.mono hloop (fun r s1 h1 => ?_) fun _ he => he
  rcases h1.good with ⟨g, ht, hc, hl, hgood⟩
  refine winode_wp hroom ⟨h1.grown, g, ht, hc, ?_⟩
  -- the data blocks are behind the inodes, so the other dinodes stay
  have hold : ∀ j, j < fs.length → s1.disk.dinode sb (j + 1) = s.disk.dinode sb (j + 1) := by
    intro j hj
    unfold Disk.dinode
    rw [h1.steps.disk]
    refine Nat.lt_of_le_of_lt ?_ h.room
    exact Nat.add_le_add_right (Nat.div_le_div_right hj) _
  have hother : ∀ j, j < fs.length → j ≠ i → (s1.disk.put (IBLOCK (i + 1) sb)
      (putDinode (s1.disk (IBLOCK (i + 1) sb)) ((i + 1) % IPB) (r.1.setSize r.2))).dinode sb
        (j + 1) =
        s.disk.dinode sb (j + 1) := by
    intro j hj hji
    rw [Disk.dinode_put_ne (by omega), hold j hj]
  have hlt : ∀ (j : Nat) (k : Placed), (fs.set i g)[j]? = some k → j < fs.length := by
    intro j k hk
    simpa using (List.getElem?_eq_some_iff.1 hk).1
  have hset : (fs.set i g)[i]? = some g := getElem?_set_of hf
  have hne : ∀ (j : Nat), j ≠ i → (fs.set i g)[j]? = fs[j]? := fun j hj =>
    List.getElem?_set_ne (Ne.symm hj)
  -- the dinode is written back: each field of the invariant for this file and for the others
  refine ⟨hgood.frame ?_ ?_ rfl ?_, ?_, ?_, ?_, ?_, ?_⟩
  · intro b hb
    exact Disk.put_of_ne _ _ _ (by omega)
  · have hne : 1 ≠ IBLOCK (i + 1) sb := by
      have := two_le_IBLOCK (i + 1)
      omega
    dsimp only
    rw [Disk.put_of_ne _ _ _ hne]
  · intro j k hk hshape
    by_cases hji : j = i
    · subst hji
      rw [Function.update_self] at hshape
      dsimp only
      rw [Disk.dinode_put_self]
      exact hshape.setSize _
    · rw [Function.update_of_ne hji] at hshape
      dsimp only
      rw [hother j (hlt j k hk) hji]
      exact hshape
  · intro j k hk
    by_cases hji : j = i
    · subst hji
      cases hset.symm.trans hk
      dsimp only
      rw [Disk.dinode_put_self, Dinode.size_setSize, h1.off, hc, List.length_append]
      have hsmall := (hgood.shape j g hset).small
      rw [h1.off, ← List.length_append, ← hc]
      rw [hl] at hsmall
      unfold blocks NDIRECT NINDIRECT BSIZE at hsmall
      omega
    · dsimp only
      rw [hother j (hlt j k hk) hji]
      exact h.size j k ((hne j hji).symm.trans hk)
  · intro j k hk
    by_cases hji : j = i
    · subst hji
      cases hset.symm.trans hk
      exact hl
    · exact h.len j k ((hne j hji).symm.trans hk)
  · intro b hgt hlt
    rw [List.length_set] at hgt
    have hle : IBLOCK (i + 1) sb ≤ IBLOCK fs.length sb :=
      Nat.add_le_add_right (Nat.div_le_div_right hi) _
    dsimp only
    rw [Disk.put_of_ne _ _ _ (by omega), h1.steps.disk b hlt]
    exact h.spare b hgt hlt
  · rw [List.length_set]
    exact h.room
  · rw [List.length_set]
    exact h1.steps.freeinode.trans h.freeinode

/-- A new dinode has no blocks. -/
theorem shape_new {type : Nat} (ht : type < 2 ^ 16) :
    Shape d (((Dinode.zero.setType type).setNlink 1).setSize 0) ⟨type, [], [], none⟩ where
  type := by
    rw [Dinode.type_setSize, Dinode.type_setNlink, Dinode.type_setType _ _ ht]
  direct := by simp
  single := by simp
  double := by simp
  triple := by simp
  indirect := by
    intro b hb
    cases hb
  single_iff := by simp
  small := by simp

/-- `ialloc` of `mkfs` gives the next inode number, and its file is empty. -/
theorem ialloc_wp {type : Nat} (h : Inv s fs) (ht : type < 2 ^ 16)
    (hroom : IBLOCK (fs.length + 1) sb < nmeta) :
    wp (ialloc type) s (fun inum s' => inum = fs.length + 1 ∧ s'.freeblock = s.freeblock ∧
      Inv s' (fs ++ [⟨type, [], [], none⟩])) E := by
  have hfew : fs.length + 1 + 1 < 2 ^ 32 := by
    have hnmeta : nmeta = 739 := by decide
    unfold IBLOCK IPB BSIZE SIZEOF_DINODE at hroom
    rw [hnmeta] at hroom
    omega
  unfold ialloc
  simp only [wp_bind, wp_get, wp_set]
  rw [h.freeinode]
  refine winode_wp hroom ((wp_pure ..).2 ⟨rfl, rfl, ?_⟩)
  have hold : ∀ j, j < fs.length → ((s.disk.put (IBLOCK (fs.length + 1) sb)
      (putDinode (s.disk (IBLOCK (fs.length + 1) sb)) ((fs.length + 1) % IPB)
        (((Dinode.zero.setType type).setNlink 1).setSize 0))).dinode sb (j + 1)) =
          s.disk.dinode sb (j + 1) := by
    intro j hj
    exact Disk.dinode_put_ne (by omega) _
  -- an old file, or the new one
  have hcases : ∀ (j : Nat) (k : Placed), (fs ++ [⟨type, [], [], none⟩])[j]? = some k →
      j < fs.length ∧ fs[j]? = some k ∨ j = fs.length ∧ k = ⟨type, [], [], none⟩ := by
    intro j k hk
    rcases Nat.lt_or_ge j fs.length with hj | hj
    · exact .inl ⟨hj, (List.getElem?_append_left hj).symm.trans hk⟩
    · have hlen : j < (fs ++ [(⟨type, [], [], none⟩ : Placed)]).length :=
        (List.getElem?_eq_some_iff.1 hk).1
      rw [List.length_append, List.length_singleton] at hlen
      obtain rfl : j = fs.length := by omega
      rw [List.getElem?_append_right (Nat.le_refl _), Nat.sub_self] at hk
      exact .inr ⟨rfl, (Option.some.inj hk).symm⟩
  have hnone : ∀ t, (⟨type, [], [], none⟩ : Placed).block t = none := by
    intro t
    cases t <;> rfl
  have hsb : 1 ≠ IBLOCK (fs.length + 1) sb := by
    have := two_le_IBLOCK (fs.length + 1)
    omega
  have hge : ∀ b, nmeta ≤ b → b ≠ IBLOCK (fs.length + 1) sb := fun b hb => by omega
  refine ⟨⟨?_, ?_, ?_, ?_, ?_, h.good.bound⟩, ?_, ?_, ?_, ?_, ?_⟩
  · dsimp only
    rw [Disk.put_of_ne _ _ _ hsb]
    exact h.good.super
  · intro j k hk
    rcases hcases j k hk with ⟨hj, hk⟩ | ⟨rfl, rfl⟩
    · dsimp only
      rw [hold j hj]
      refine (h.good.shape j k hk).frame fun b hb => Disk.put_of_ne _ _ _ (hge b ?_)
      exact (h.good.alloc.held j .ind b ((blockAt_of hk _).trans hb)).1
    · dsimp only
      rw [Disk.dinode_put_self]
      exact shape_new ht
  · intro j k hk
    rcases hcases j k hk with ⟨hj, hk⟩ | ⟨rfl, rfl⟩
    · refine (h.good.holds j k hk).frame fun n b hb => Disk.put_of_ne _ _ _ (hge b ?_)
      exact (h.good.alloc.held j (.data n) b ((blockAt_of hk _).trans hb)).1
    · intro o ho
      exact absurd ho (Nat.not_lt_zero o)
  · exact h.good.alloc.congr (blockAt_append hnone)
  · intro b hb
    have hb' : s.freeblock ≤ b := hb
    exact (Disk.put_of_ne _ _ _ (hge b (Nat.le_trans h.good.alloc.ge hb'))).trans
      (h.good.fresh b hb)
  · intro j k hk
    rcases hcases j k hk with ⟨hj, hk⟩ | ⟨rfl, rfl⟩
    · dsimp only
      rw [hold j hj]
      exact h.size j k hk
    · dsimp only
      rw [Disk.dinode_put_self, Dinode.size_setSize _ _ (by decide)]
      rfl
  · intro j k hk
    rcases hcases j k hk with ⟨hj, hk⟩ | ⟨rfl, rfl⟩
    · exact h.len j k hk
    · show 0 = blocks 0
      decide
  · intro b hgt hlt
    rw [List.length_append, List.length_singleton] at hgt
    have hle : IBLOCK fs.length sb ≤ IBLOCK (fs.length + 1) sb :=
      Nat.add_le_add_right (Nat.div_le_div_right (Nat.le_succ _)) _
    exact (Disk.put_of_ne _ _ _ (by omega)).trans (h.spare b (by omega) hlt)
  · rw [List.length_append, List.length_singleton]
    exact hroom
  · rw [List.length_append, List.length_singleton]
    exact Nat.mod_eq_of_lt hfew

/-! ### The program -/

/-- Appending the pieces read from a host file, one after the other. -/
theorem appendAll_wp {cs : List (List UInt8)} (h : Inv s fs) (hf : fs[i]? = some f)
    (hover : (NDIRECT + NINDIRECT) * BSIZE < f.content.length + cs.flatten.length → E .overrun)
    (hexit : FSSIZE ≤ s.freeblock + 2 * cs.flatten.length → E .exit) :
    wp (appendAll (i + 1) cs) s (fun _ s' => s'.freeblock ≤ s.freeblock + 2 * cs.flatten.length ∧
      ∃ g, g.type = f.type ∧ g.content = f.content ++ cs.flatten ∧ Inv s' (fs.set i g)) E := by
  induction cs generalizing s fs f with
  | nil =>
      rcases List.getElem?_eq_some_iff.1 hf with ⟨hi, hfi⟩
      have hself : fs.set i f = fs := by
        rw [← hfi]
        exact List.set_getElem_self hi
      exact (wp_pure ..).2 ⟨Nat.le_add_right _ _, f, rfl, (List.append_nil _).symm, hself.symm ▸ h⟩
  | cons c cs ih =>
      have hlen : (c :: cs).flatten.length = c.length + cs.flatten.length := by simp
      unfold appendAll
      rw [wp_bind]
      refine wp.mono (iappend_wp h hf (fun hov => hover (by omega)) fun hex => hexit (by omega))
        (fun _ s1 h1 => ?_) fun _ he => he
      rcases h1 with ⟨hgrown, g, ht, hc, hinv⟩
      have hgl : g.content.length = f.content.length + c.length := by rw [hc, List.length_append]
      refine wp.mono (ih hinv (getElem?_set_of hf) (fun hov => hover (by omega))
        fun hex => hexit (by omega)) (fun _ s2 h2 => ?_) fun _ he => he
      rcases h2 with ⟨hgrown2, g2, ht2, hc2, hinv2⟩
      refine ⟨by omega, g2, ht2.trans ht, ?_, ?_⟩
      · rw [hc2, hc, List.append_assoc]
        rfl
      · rwa [List.set_set] at hinv2

/-- The image when the first `files` have been added: the root directory, with an
entry for each, and then they. -/
structure Tree (s : Img) (fs : List Placed) (files : List InFile) : Prop where
  inv : Inv s fs
  length : fs.length = files.length + 1
  root : ∃ r, fs[0]? = some r ∧ r.type = T_DIR ∧ r.content.length = 16 * (files.length + 2)
  file : ∀ (j : Nat) (f : InFile), files[j]? = some f →
    ∃ g, fs[j + 1]? = some g ∧ g.type = T_FILE ∧ g.content = f.content

theorem length_dirent (inum : Nat) (name : List UInt8) : (dirent inum name).length = 16 := by
  simp [dirent, DIRSIZ]

/-- The root directory fits in its blocks. -/
theorem Tree.few {files : List InFile} (h : Tree s fs files) : files.length + 2 ≤ 4416 := by
  rcases h.root with ⟨r, hr, -, hlen⟩
  have hsmall := (h.inv.good.shape 0 r hr).small
  rw [h.inv.len 0 r hr, hlen] at hsmall
  unfold blocks NDIRECT NINDIRECT BSIZE at hsmall
  omega

/-- The bytes that a file takes, with its entry. -/
def weight (f : InFile) : Nat := 16 + f.content.length

/-- Adding one file: its entry in the root directory, its inode and its content. -/
theorem addFile_wp {files : List InFile} {x : InFile} (h : Tree s fs files)
    (hslash : SLASH ∈ x.name → E .assertion)
    (hroot : (NDIRECT + NINDIRECT) * BSIZE < 16 * (files.length + 3) → E .overrun)
    (hover : (NDIRECT + NINDIRECT) * BSIZE < x.content.length → E .overrun)
    (hexit : FSSIZE ≤ s.freeblock + 2 * weight x → E .exit) :
    wp (addFile ROOTINO x) s (fun _ s' => s'.freeblock ≤ s.freeblock + 2 * weight x ∧
      ∃ fs', Tree s' fs' (files ++ [x])) E := by
  have hfew := h.few
  have hlen := h.length
  rcases h.root with ⟨r, hr, hrt, hrl⟩
  unfold weight at *
  unfold addFile
  rw [wp_bind]
  refine assert_wp (fun _ => ?_) fun hno => hslash (by simpa using hno)
  have hroom : IBLOCK (fs.length + 1) sb < nmeta := by
    have hdiv : (fs.length + 1) / IPB ≤ 4416 / IPB := Nat.div_le_div_right (by omega)
    have hmax : 4416 / IPB + sb.inodestart < nmeta := by decide
    unfold IBLOCK
    omega
  rw [wp_bind]
  -- a new inode
  refine wp.mono (ialloc_wp h.inv (by decide) hroom) ?_ fun _ he => he
  rintro _ s1 ⟨rfl, hfree1, h1⟩
  have hr1 : (fs ++ [(⟨T_FILE, [], [], none⟩ : Placed)])[0]? = some r := by
    rw [List.getElem?_append_left (by omega)]
    exact hr
  rw [wp_bind]
  have hdl := length_dirent (fs.length + 1) (skipUnderscore x.name)
  -- its entry in the root directory
  refine wp.mono (iappend_wp (i := 0) h1 hr1 (fun hov => hroot (by omega))
    fun hex => hexit (by omega)) ?_ fun _ he => he
  rintro _ s2 ⟨hfree2, r', hrt', hrc', h2⟩
  have hnew : ((fs ++ [(⟨T_FILE, [], [], none⟩ : Placed)]).set 0 r')[fs.length]? =
      some ⟨T_FILE, [], [], none⟩ := by
    rw [List.getElem?_set_ne (by omega), List.getElem?_append_right (Nat.le_refl _), Nat.sub_self]
    rfl
  have hflat : (x.reads.map Subtype.val).flatten = x.content := rfl
  -- its content
  refine wp.mono (appendAll_wp h2 hnew (fun hov => hover ?_) fun hex => hexit ?_) ?_
    fun _ he => he
  · rw [hflat] at hov
    simpa using hov
  · rw [hflat] at hex
    omega
  rintro _ s3 ⟨hfree3, g, hgt, hgc, h3⟩
  rw [hflat] at hfree3 hgc
  refine ⟨by omega, _, h3, ?_, ?_, ?_⟩
  · simp [hlen]
  · refine ⟨r', ?_, hrt'.trans hrt, ?_⟩
    · rw [List.getElem?_set_ne (by omega)]
      exact getElem?_set_of hr1
    · rw [hrc', List.length_append, hrl, hdl, List.length_append, List.length_singleton]
      omega
  -- the files added before, and this one
  · intro j y hy
    rcases Nat.lt_or_ge j files.length with hj | hj
    · rw [List.getElem?_append_left hj] at hy
      rcases h.file j y hy with ⟨k, hk, hkt, hkc⟩
      refine ⟨k, ?_, hkt, hkc⟩
      rw [List.getElem?_set_ne (by omega), List.getElem?_set_ne (by omega),
        List.getElem?_append_left (by omega)]
      exact hk
    · have hjl : j < (files ++ [x]).length := (List.getElem?_eq_some_iff.1 hy).1
      rw [List.length_append, List.length_singleton] at hjl
      obtain rfl : j = files.length := by omega
      rw [List.getElem?_append_right (Nat.le_refl _), Nat.sub_self] at hy
      cases hy
      refine ⟨g, ?_, hgt, hgc⟩
      rw [← hlen]
      exact getElem?_set_of hnew

/-- Adding the files of the command line. By induction on them. -/
theorem addFiles_wp {files rest : List InFile} (h : Tree s fs files)
    (hslash : ∀ x ∈ rest, SLASH ∈ x.name → E .assertion)
    (hroot : (NDIRECT + NINDIRECT) * BSIZE < 16 * (files.length + rest.length + 2) → E .overrun)
    (hover : ∀ x ∈ rest, (NDIRECT + NINDIRECT) * BSIZE < x.content.length → E .overrun)
    (hexit : FSSIZE ≤ s.freeblock + 2 * (rest.map weight).sum → E .exit) :
    wp (addFiles ROOTINO rest) s (fun _ s' =>
      s'.freeblock ≤ s.freeblock + 2 * (rest.map weight).sum ∧
        ∃ fs', Tree s' fs' (files ++ rest)) E := by
  induction rest generalizing s fs files with
  | nil =>
      refine (wp_pure ..).2 ⟨Nat.le_add_right _ _, fs, ?_⟩
      rw [List.append_nil]
      exact h
  | cons x rest ih =>
      have hmem : x ∈ x :: rest := List.mem_cons_self
      rw [List.length_cons] at hroot
      rw [List.map_cons, List.sum_cons] at hexit
      unfold addFiles
      rw [wp_bind]
      refine wp.mono (addFile_wp h (hslash x hmem) (fun hov => hroot (by omega)) (hover x hmem)
        fun hex => hexit (by omega)) ?_ fun _ he => he
      rintro _ s1 ⟨hfree, fs1, h1⟩
      -- the first file is the last one of those added so far
      have hsnoc : files ++ x :: rest = files ++ [x] ++ rest := by simp
      rw [hsnoc]
      refine wp.mono (ih h1 (fun y hy => hslash y (List.mem_cons_of_mem _ hy))
        (fun hov => hroot ?_) (fun y hy => hover y (List.mem_cons_of_mem _ hy))
        fun hex => hexit (by omega)) ?_ fun _ he => he
      · rw [List.length_append, List.length_singleton] at hov
        omega
      · rintro _ s2 ⟨hfree2, h2⟩
        rw [List.map_cons, List.sum_cons]
        exact ⟨by omega, h2⟩

/-- The image before the first inode. -/
theorem blank_inv : Inv { blank with disk := blank.disk.put 1 (writesb sb) } [] where
  good := by
    -- there is no file yet, so every clause about files is empty
    refine ⟨?_, ?_, ?_, ⟨Nat.le_refl _, ?_, ?_, ?_⟩, ?_, by decide⟩
    · exact Disk.put_self (fun _ => zeroes) 1 _
    · intro i f hf
      cases hf
    · intro i f hf
      cases hf
    · intro i t b hb
      cases hb
    · intro i t j u b hb
      cases hb
    · intro b hge hlt
      exact absurd hlt (Nat.not_lt.2 hge)
    · intro b hb
      refine Disk.put_of_ne _ _ _ ?_
      rintro rfl
      exact absurd hb (by decide)
  size := by
    intro i f hf
    cases hf
  len := by
    intro i f hf
    cases hf
  spare := by
    intro b hgt hlt
    refine Disk.put_of_ne _ _ _ ?_
    rintro rfl
    exact absurd hgt (by decide)
  room := by decide
  freeinode := rfl

/-- The image that `mkfs` leaves: the root directory has a new size, and the free
map has been written. -/
def finished (s : Img) : Disk :=
  let d := s.disk.dinode sb ROOTINO
  (s.disk.put (IBLOCK ROOTINO sb) (putDinode (s.disk (IBLOCK ROOTINO sb)) (ROOTINO % IPB)
    (d.setSize ((d.size / BSIZE + 1) * BSIZE)))).put sb.bmapstart (marked s.freeblock)

/-- A file that is there fits in its blocks. -/
theorem Tree.small {files : List InFile} {x : InFile} (h : Tree s fs files) (hx : x ∈ files) :
    x.content.length ≤ (NDIRECT + NINDIRECT) * BSIZE := by
  rcases List.mem_iff_getElem?.1 hx with ⟨j, hj⟩
  rcases h.file j x hj with ⟨g, hg, -, hc⟩
  have hsmall := (h.inv.good.shape _ g hg).small
  rw [h.inv.len _ g hg, hc] at hsmall
  unfold blocks NDIRECT NINDIRECT BSIZE at *
  omega

/-- The whole of `mkfs`: superblock, root directory, files, the root's size rounded up, bitmap. -/
theorem main_wp {files : List InFile} (hslash : ∀ x ∈ files, SLASH ∈ x.name → E .assertion)
    (hused : (∀ x ∈ files, x.content.length ≤ (NDIRECT + NINDIRECT) * BSIZE) →
      BSIZE * 8 ≤ nmeta + 2 * (32 + (files.map weight).sum) → E .assertion)
    (hroot : (NDIRECT + NINDIRECT) * BSIZE < 16 * (files.length + 2) → E .overrun)
    (hover : ∀ x ∈ files, (NDIRECT + NINDIRECT) * BSIZE < x.content.length → E .overrun)
    (hexit : FSSIZE ≤ nmeta + 2 * (32 + (files.map weight).sum) → E .exit) :
    wp (main files) blank (fun _ s' => ∃ s fs, Tree s fs files ∧ s.freeblock < BSIZE * 8 ∧
      s'.disk = finished s) E := by
  have hblank : blank.freeblock = nmeta := rfl
  have hmeta : nmeta < FSSIZE := by decide
  unfold main
  simp only [wp_bind, wsect_wp]
  refine wp.mono (ialloc_wp blank_inv (by decide) (by decide)) ?_ fun _ he => he
  rintro _ s1 ⟨rfl, hfree1, h1⟩
  replace hfree1 : s1.freeblock = nmeta := hfree1
  refine assert_wp (fun _ => ?_) fun hno => absurd hno (by decide)
  -- the entries of the root directory for itself and its parent
  have hr1 : ([] ++ [(⟨T_DIR, [], [], none⟩ : Placed)])[0]? = some ⟨T_DIR, [], [], none⟩ := rfl
  have hd1 : (dirent (([] : List Placed).length + 1) [DOT]).length = 16 := length_dirent _ _
  have hd2 : (dirent (([] : List Placed).length + 1) [DOT, DOT]).length = 16 := length_dirent _ _
  have hsmall : ¬ (NDIRECT + NINDIRECT) * BSIZE < 32 := by decide
  have hc0 : (⟨T_DIR, [], [], none⟩ : Placed).content.length = 0 := rfl
  refine wp.mono (iappend_wp (i := 0) h1 hr1 (fun hov => absurd hov (by omega))
    fun hex => hexit (by omega)) ?_ fun _ he => he
  rintro _ s2 ⟨hfree2, g2, ht2, hc2, h2⟩
  have hl2 : g2.content.length = 16 := by rw [hc2, List.length_append, hd1, hc0]
  have hr2 : (([] ++ [(⟨T_DIR, [], [], none⟩ : Placed)]).set 0 g2)[0]? = some g2 := rfl
  refine wp.mono (iappend_wp (i := 0) h2 hr2 (fun hov => absurd hov (by omega))
    fun hex => hexit (by omega)) ?_ fun _ he => he
  rintro _ s3 ⟨hfree3, g3, ht3, hc3, h3⟩
  have hl3 : g3.content.length = 32 := by rw [hc3, List.length_append, hd2, hl2]
  have htree : Tree s3 [g3] [] := by
    refine ⟨h3, rfl, ⟨g3, rfl, ht3.trans ht2, hl3⟩, ?_⟩
    intro j f hj
    cases hj
  refine wp.mono (addFiles_wp htree hslash (fun hov => hroot ?_) hover fun hex => hexit (by omega))
    ?_ fun _ he => he
  · rwa [List.length_nil, Nat.zero_add] at hov
  rintro _ s4 ⟨hfree4, fs, h4⟩
  rw [List.nil_append] at h4
  have hroom : IBLOCK ROOTINO sb < nmeta := by decide
  unfold fixRoot rinode
  simp only [wp_bind]
  refine rsect_wp (fun _ => (wp_pure ..).2 ?_) fun hge =>
    absurd (Nat.lt_of_lt_of_le hmeta hge) (Nat.lt_asymm hroom)
  refine winode_wp hroom ?_
  simp only [wp_get]
  unfold balloc
  rw [wp_bind]
  refine assert_wp (fun hlt => ?_) fun hge => hused (fun x hx => h4.small hx) ?_
  · rw [wsect_wp]
    exact ⟨s4, fs, h4, by simpa using hlt, rfl⟩
  · have hge' : ¬ s4.freeblock < BSIZE * 8 := of_decide_eq_false hge
    omega

end Xv6.Fs.Mkfs
