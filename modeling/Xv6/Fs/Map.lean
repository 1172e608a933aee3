import Xv6.Fs.Bitmap

/-!
# The block tree of an inode

`addrs[]` holds the roots of trees of depth 0, 1, 2 and 3. A place in a tree is
the number of its root and the indices that lead to it (`Node`), and a map gives
the block at every place, or zero where there is none. `bmap` puts blocks at the
places on the way to one leaf, and changes nothing else.

* `Mapped`: the invariant of an inode and its map, with no block at two places
  and every block marked in the free map;
* `bmap_wp`: `bmap` keeps it, returns the block at the leaf, and takes a block for
  each place on the way that had none (`Grown`).

The four branches of `bmap` are one descent with a depth as parameter
(`addrSlot_wp`, `indirectSlot_wp`), so each has the same proof. Files and their
contents come later, in `Fs.Content`.
-/

namespace Xv6.Fs

open Xv6.Lib Prog
open Mkfs (sb nmeta)

/-! ## Places -/

/-- A place in the trees of an inode; the path has the last index first. -/
structure Node where
  slot : Nat
  path : List Nat
  deriving DecidableEq

/-- The depth of the tree below `addrs[k]`. -/
def depth (k : Nat) : Nat := k + 1 - NDIRECT

namespace Node

def child (x : Node) (i : Nat) : Node := ⟨x.slot, i :: x.path⟩

structure Valid (x : Node) : Prop where
  slot : x.slot < NDIRECT + 3
  length : x.path.length ≤ depth x.slot
  index : ∀ i ∈ x.path, i < NINDIRECT

/-- A place for data. -/
def Leaf (x : Node) : Prop := x.path.length = depth x.slot

/-- The place above has a block. -/
def Live (m : Node → Nat) : Node → Prop
  | ⟨_, []⟩ => True
  | ⟨k, _ :: p⟩ => m ⟨k, p⟩ ≠ 0

/-- `y` is on the way to `x`. -/
def Above (y x : Node) : Prop := y.slot = x.slot ∧ y.path <:+ x.path

theorem Above.refl (x : Node) : Above x x := ⟨rfl, List.suffix_refl _⟩

theorem Above.child {x y : Node} (h : Above y x) (i : Nat) : Above y (x.child i) :=
  ⟨h.1, h.2.trans (List.suffix_cons _ _)⟩

theorem child_ne (x : Node) (i : Nat) : x.child i ≠ x := by
  intro h
  have hp := congrArg (fun y => y.path.length) h
  exact absurd hp (by simp [child])

end Node

/-- The place of data block `bn`. -/
def leaf (bn : Nat) : Node :=
  if bn < NDIRECT then ⟨bn, []⟩
  else
    let bn := bn - NDIRECT
    if bn < NINDIRECT then ⟨NDIRECT, [bn]⟩
    else
      let bn := bn - NINDIRECT
      if bn < NDINDIRECT then ⟨NDIRECT + 1, [bn % NINDIRECT, bn / NINDIRECT]⟩
      else
        let bn := bn - NDINDIRECT
        ⟨NDIRECT + 1 + 1, [bn % (NINDIRECT * NINDIRECT) % NINDIRECT,
          bn % (NINDIRECT * NINDIRECT) / NINDIRECT, bn / (NINDIRECT * NINDIRECT)]⟩

/-- The first number of the leaves below `addrs[k]`, for the indices read as the
digits of a number. -/
def Node.number (x : Node) : Nat :=
  match x.path with
  | [] => x.slot
  | [i] => NDIRECT + i
  | [i, j] => NDIRECT + NINDIRECT + (NINDIRECT * j + i)
  | i :: j :: k :: _ =>
      NDIRECT + NINDIRECT + NDINDIRECT + (NINDIRECT * NINDIRECT * k + (NINDIRECT * j + i))

/-- The leaf found for a block number has that number. -/
theorem number_leaf (bn : Nat) : (leaf bn).number = bn := by
  unfold leaf
  dsimp only
  split
  · rfl
  · split
    · show NDIRECT + (bn - NDIRECT) = bn
      omega
    · split
      · show NDIRECT + NINDIRECT + (NINDIRECT * ((bn - NDIRECT - NINDIRECT) / NINDIRECT) +
          (bn - NDIRECT - NINDIRECT) % NINDIRECT) = bn
        rw [Nat.div_add_mod]
        omega
      · unfold Node.number
        dsimp only
        rw [Nat.div_add_mod, Nat.div_add_mod]
        omega

/-- Two data blocks have two places. -/
theorem leaf_inj {bn bn' : Nat} (h : leaf bn = leaf bn') : bn = bn' := by
  rw [← number_leaf bn, ← number_leaf bn', h]

/-- `bmap` ends at a leaf in each of its four ranges. -/
theorem leaf_isLeaf (bn : Nat) : (leaf bn).Leaf := by
  unfold leaf
  dsimp only
  split
  · next h =>
    show 0 = depth bn
    unfold depth
    omega
  · split
    · rfl
    · split <;> rfl

/-- Below `MAXFILE` every block number has a slot and a path of the right length. -/
theorem leaf_valid {bn : Nat} (h : bn < MAXFILE) : (leaf bn).Valid := by
  refine ⟨?_, Nat.le_of_eq (leaf_isLeaf bn), ?_⟩
  -- the slot
  · unfold leaf
    dsimp only
    split
    · exact Nat.lt_of_lt_of_le ‹_› (Nat.le_add_right _ _)
    · split
      · show NDIRECT < NDIRECT + 3
        decide
      · split
        · show NDIRECT + 1 < NDIRECT + 3
          decide
        · show NDIRECT + 1 + 1 < NDIRECT + 3
          decide
  -- the indices on the path, range by range
  · have hpos : 0 < NINDIRECT := by decide
    have hpos2 : 0 < NINDIRECT * NINDIRECT := by decide
    unfold MAXFILE at h
    unfold leaf
    dsimp only
    intro i hi
    split at hi
    · cases hi
    · split at hi
      · rw [List.mem_singleton.1 hi]
        assumption
      · split at hi
        · next hlt =>
          simp only [List.mem_cons, List.not_mem_nil, or_false] at hi
          rcases hi with hi | hi
          · rw [hi]
            exact Nat.mod_lt _ hpos
          · rw [hi]
            exact Nat.div_lt_of_lt_mul hlt
        · simp only [List.mem_cons, List.not_mem_nil, or_false] at hi
          rcases hi with hi | hi | hi
          · rw [hi]
            exact Nat.mod_lt _ hpos
          · rw [hi]
            exact Nat.div_lt_of_lt_mul (Nat.mod_lt _ hpos2)
          · rw [hi]
            apply Nat.div_lt_of_lt_mul
            show _ < NTINDIRECT
            omega

/-! ## Trees -/

/-- The number that leads to a place. -/
def ptr (d : Disk) (din : Dinode) (m : Node → Nat) : Node → Nat
  | ⟨k, []⟩ => din.addr k
  | ⟨k, i :: p⟩ => word (d (m ⟨k, p⟩)) i

/-- Inode `din` leads to the blocks that the map gives. -/
structure Tree (d : Disk) (din : Dinode) (m : Node → Nat) : Prop where
  ptr : ∀ x, x.Valid → x.Live m → ptr d din m x = m x
  valid : ∀ x, m x ≠ 0 → x.Valid
  closed : ∀ x, m x ≠ 0 → x.Live m
  inj : ∀ x y, m x ≠ 0 → m x = m y → x = y
  range : ∀ x, m x ≠ 0 → nmeta ≤ m x ∧ m x < FSSIZE

variable {d d' : Disk} {din din' : Dinode} {m m' : Node → Nat} {x y : Node} {b i k : Nat}
  {p : List Nat}

theorem Tree.notInMap (h : Tree d din m) (hx : m x ≠ 0) : ¬ InMap (m x) := by
  intro hm
  have := (h.range x hx).1
  have := hm.2
  omega

/-- Nothing is below a place without a block. -/
theorem Tree.child_zero (h : Tree d din m) (h0 : m x = 0) (i : Nat) : m (x.child i) = 0 := by
  by_contra hne
  exact h.closed _ hne h0

/-- The same pointers, read from another disk. -/
theorem Tree.congr (h : Tree d din m) (haddr : ∀ k, k < NDIRECT + 3 → din'.addr k = din.addr k)
    (hd : ∀ x, m x ≠ 0 → ¬ x.Leaf → d' (m x) = d (m x)) : Tree d' din' m := by
  refine ⟨?_, h.valid, h.closed, h.inj, h.range⟩
  intro x hv hl
  refine Eq.trans ?_ (h.ptr x hv hl)
  rcases x with ⟨k, _ | ⟨i, p⟩⟩
  · exact haddr k hv.slot
  · show word (d' (m ⟨k, p⟩)) i = word (d (m ⟨k, p⟩)) i
    rw [hd ⟨k, p⟩ hl]
    intro hleaf
    have hlen : p.length + 1 ≤ depth k := hv.length
    have hleaf' : p.length = depth k := hleaf
    omega

/-- A block is put at an empty place whose pointer leads to it. -/
theorem Tree.add (h : Tree d din m) (hv : x.Valid) (hl : x.Live m) (h0 : m x = 0)
    (hb : nmeta ≤ b ∧ b < FSSIZE) (hnew : ∀ y, m y ≠ b) (hzero : d' b = zeroes)
    (hptr : ∀ y, y ≠ x → y.Valid → y.Live m → Fs.ptr d' din' m y = Fs.ptr d din m y)
    (hself : Fs.ptr d' din' m x = b) : Tree d' din' (Function.update m x b) := by
  have hb0 : b ≠ 0 := by
    rintro rfl
    exact absurd hb.1 (by decide)
  have hother : ∀ y, y ≠ x → Function.update m x b y = m y := fun y hy =>
    Function.update_of_ne hy _ _
  have hmono : ∀ y, m y ≠ 0 → Function.update m x b y ≠ 0 := by
    intro y hy
    rw [hother]
    · exact hy
    · rintro rfl
      exact hy h0
  have hlive : ∀ y : Node, y.Live m → y.Live (Function.update m x b) := by
    rintro ⟨k, _ | ⟨i, p⟩⟩ hy
    · trivial
    · exact hmono _ hy
  refine ⟨?_, ?_, ?_, ?_, ?_⟩
  · intro y hyv hyl
    -- the place above `y` is the new one, or the pointer was there before
    by_cases hup : ∃ i, y = x.child i
    · rcases hup with ⟨i, rfl⟩
      rw [hother _ (Node.child_ne x i), h.child_zero h0]
      show word (d' (Function.update m x b x)) i = 0
      rw [Function.update_self, hzero, word_zeroes]
    · have hyl' : y.Live m ∧ Fs.ptr d' din' (Function.update m x b) y = Fs.ptr d' din' m y := by
        rcases y with ⟨k, _ | ⟨i, p⟩⟩
        · exact ⟨trivial, rfl⟩
        · have hne : (⟨k, p⟩ : Node) ≠ x := by
            rintro rfl
            exact hup ⟨i, rfl⟩
          have hyl'' : Function.update m x b ⟨k, p⟩ ≠ 0 := hyl
          rw [hother _ hne] at hyl''
          refine ⟨hyl'', ?_⟩
          show word (d' (Function.update m x b ⟨k, p⟩)) i = word (d' (m ⟨k, p⟩)) i
          rw [hother _ hne]
      rw [hyl'.2]
      by_cases hyx : y = x
      · rw [hyx, hself, Function.update_self]
      · rw [hptr y hyx hyv hyl'.1, hother y hyx]
        exact h.ptr y hyv hyl'.1
  · intro y hy
    by_cases hyx : y = x
    · exact hyx ▸ hv
    · rw [hother y hyx] at hy
      exact h.valid y hy
  · intro y hy
    by_cases hyx : y = x
    · exact hyx ▸ hlive x hl
    · rw [hother y hyx] at hy
      exact hlive y (h.closed y hy)
  · intro y z hy hyz
    by_cases hyx : y = x
    · subst hyx
      rw [Function.update_self] at hyz
      by_contra hzx
      rw [hother z (Ne.symm hzx)] at hyz
      exact hnew z hyz.symm
    · rw [hother y hyx] at hy hyz
      by_cases hzx : z = x
      · subst hzx
        rw [Function.update_self] at hyz
        exact absurd hyz (hnew y)
      · rw [hother z hzx] at hyz
        exact h.inj y z hy hyz
  · intro y hy
    by_cases hyx : y = x
    · subst hyx
      rwa [Function.update_self]
    · rw [hother y hyx] at hy ⊢
      exact h.range y hy

/-! ## The kernel -/

/-- Block `b` is one of the tree. -/
def Holds (m : Node → Nat) (b : Nat) : Prop := ∃ x, m x ≠ 0 ∧ m x = b

/-- The inode at `ip` has the tree of `m`; the other blocks in use are `U`, and the
metadata is in use. -/
structure Mapped (U : Nat → Prop) (s : Kernel) (ip : Entry) (m : Node → Nat) : Prop where
  sb : s.sb = Mkfs.sb
  tree : Tree s.disk (s.icache ip).din m
  super : ∀ b, b < nmeta → U b
  apart : ∀ x, m x ≠ 0 → ¬ U (m x)
  used : ∀ b, b < FSSIZE → (s.disk.used Mkfs.sb b = true ↔ U b ∨ Holds m b)

/-- A tree whose blocks are marked; all other marked blocks are in use, too. -/
theorem Tree.mapped {s : Kernel} {ip : Entry} (h : Tree s.disk (s.icache ip).din m)
    (hsb : s.sb = Mkfs.sb) (hmeta : ∀ b, b < nmeta → s.disk.used Mkfs.sb b = true)
    (hused : ∀ x, m x ≠ 0 → s.disk.used Mkfs.sb (m x) = true) :
    Mapped (fun b => s.disk.used Mkfs.sb b = true ∧ ¬ Holds m b) s ip m where
  sb := hsb
  tree := h
  super := by
    intro b hb
    refine ⟨hmeta b hb, ?_⟩
    rintro ⟨x, hx, rfl⟩
    exact absurd (h.range x hx).1 (Nat.not_le.2 hb)
  apart := fun x hx hU => hU.2 ⟨x, hx, rfl⟩
  used := by
    intro b _
    by_cases hb : Holds m b
    · refine ⟨fun _ => .inr hb, fun _ => ?_⟩
      rcases hb with ⟨x, hx, rfl⟩
      exact hused x hx
    · exact ⟨fun hu => .inl ⟨hu, hb⟩, fun hu => (hu.resolve_right hb).1⟩

/-- Only the tree at `ip`, the free map and free blocks may have changed. -/
structure Frame (U : Nat → Prop) (ip : Entry) (s s' : Kernel) : Prop where
  sb : s'.sb = s.sb
  ftable : s'.ftable = s.ftable
  task : s'.task = s.task
  others : ∀ j, j ≠ ip → s'.icache j = s.icache j
  entry : s'.icache ip = { s.icache ip with din := (s'.icache ip).din }
  disk : ∀ c, U c → ¬ InMap c → s'.disk c = s.disk c
  beyond : ∀ c, FSSIZE ≤ c → InMap (BBLOCK c Mkfs.sb) →
    s'.disk.used Mkfs.sb c = s.disk.used Mkfs.sb c

/-- All but `addrs[]`. -/
structure SameHead (din din' : Dinode) : Prop where
  type : din'.type = din.type
  major : din'.major = din.major
  minor : din'.minor = din.minor
  nlink : din'.nlink = din.nlink
  size : din'.size = din.size

/-- The tree has a block at `x`: it had one and nothing has changed, or the blocks
that were missing on the way to `x` have been added. -/
structure Grown (U : Nat → Prop) (ip : Entry) (s : Kernel) (m : Node → Nat) (x : Node) (s' : Kernel)
    (m' : Node → Nat) : Prop where
  mapped : Mapped U s' ip m'
  frame : Frame U ip s s'
  head : SameHead (s.icache ip).din (s'.icache ip).din
  same : m x ≠ 0 → s' = s ∧ m' = m
  here : m' x ≠ 0
  keep : ∀ y, m y ≠ 0 → m' y = m y
  new : ∀ y, m y = 0 → m' y ≠ 0 → y.Above x
  data : ∀ y, y.Leaf → m y ≠ 0 → s'.disk (m y) = s.disk (m y)
  zero : ∀ y, y.Leaf → m y = 0 → m' y ≠ 0 → s'.disk (m' y) = zeroes

variable {U : Nat → Prop} {ip : Entry} {s s' s1 : Kernel} {m1 : Node → Nat} {E : Stop → Prop}

theorem Frame.refl (s : Kernel) : Frame U ip s s :=
  ⟨rfl, rfl, rfl, fun _ _ => rfl, rfl, fun _ _ _ => rfl, fun _ _ _ => rfl⟩

/-- What two calls in a row leave alone. -/
theorem Frame.trans (h : Frame U ip s s1) (h' : Frame U ip s1 s') : Frame U ip s s' where
  sb := h'.sb.trans h.sb
  ftable := h'.ftable.trans h.ftable
  task := h'.task.trans h.task
  others := fun j hj => (h'.others j hj).trans (h.others j hj)
  entry := by
    rw [h'.entry, h.entry]
  disk := fun c hc hm => (h'.disk c hc hm).trans (h.disk c hc hm)
  beyond := fun c hc hm => (h'.beyond c hc hm).trans (h.beyond c hc hm)

theorem SameHead.refl (din : Dinode) : SameHead din din := ⟨rfl, rfl, rfl, rfl, rfl⟩

theorem SameHead.trans {din1 : Dinode} (h : SameHead din din1) (h' : SameHead din1 din') :
    SameHead din din' :=
  ⟨h'.type.trans h.type, h'.major.trans h.major, h'.minor.trans h.minor, h'.nlink.trans h.nlink,
    h'.size.trans h.size⟩

theorem Grown.old (h : Mapped U s ip m) (hx : m x ≠ 0) : Grown U ip s m x s m :=
  ⟨h, .refl s, .refl _, fun _ => ⟨rfl, rfl⟩, hx, fun _ _ => rfl, fun _ h0 hn => absurd h0 hn,
    fun _ _ _ => rfl, fun _ _ h0 hn => absurd h0 hn⟩

/-- One step further down. -/
theorem Grown.trans (h : Grown U ip s m x s1 m1) (h' : Grown U ip s1 m1 (x.child i) s' m')
    (hclosed : m (x.child i) ≠ 0 → m x ≠ 0) : Grown U ip s m (x.child i) s' m' where
  mapped := h'.mapped
  frame := h.frame.trans h'.frame
  head := h.head.trans h'.head
  same := by
    intro hx
    rcases h.same (hclosed hx) with ⟨rfl, rfl⟩
    exact h'.same hx
  here := h'.here
  keep := by
    intro y hy
    rw [h'.keep y, h.keep y hy]
    rwa [h.keep y hy]
  -- what is new is above the child, or above `x` and then above the child
  new := by
    intro y h0 hn
    by_cases h1 : m1 y = 0
    · exact h'.new y h1 hn
    · exact (h.new y h0 h1).child i
  data := by
    intro y hl hy
    have h1 := h.keep y hy
    rw [← h.data y hl hy, ← h1]
    exact h'.data y hl (h1.symm ▸ hy)
  zero := by
    intro y hl h0 hn
    by_cases h1 : m1 y = 0
    · exact h'.zero y hl h1 hn
    · rw [h'.keep y h1, h'.data y hl h1]
      exact h.zero y hl h0 h1

/-- A free block has been put at the empty place `x`. -/
theorem Mapped.grow (h : Mapped U s ip m) (hv : x.Valid) (hl : x.Live m) (h0 : m x = 0)
    (hb : b < FSSIZE) (hfree : s.disk.used Mkfs.sb b = false) (hsb : s'.sb = s.sb)
    (hftable : s'.ftable = s.ftable) (htask : s'.task = s.task)
    (hothers : ∀ j, j ≠ ip → s'.icache j = s.icache j)
    (hentry : s'.icache ip = { s.icache ip with din := (s'.icache ip).din })
    (hhead : SameHead (s.icache ip).din (s'.icache ip).din)
    (hdisk : ∀ c, ¬ InMap c → c ≠ b → (∀ y, m y ≠ 0 → m y = c → y.Leaf) → s'.disk c = s.disk c)
    (hused : ∀ c, InMap (BBLOCK c Mkfs.sb) →
      s'.disk.used Mkfs.sb c = (s.disk.used Mkfs.sb c || decide (c = b)))
    (hzero : s'.disk b = zeroes)
    (hptr : ∀ y, y ≠ x → y.Valid → y.Live m →
      ptr s'.disk (s'.icache ip).din m y = ptr s.disk (s.icache ip).din m y)
    (hself : ptr s'.disk (s'.icache ip).din m x = b) :
    Grown U ip s m x s' (Function.update m x b) := by
  -- the block was free, so no node has it and nobody else owns it
  have hU : ¬ U b := by
    intro hU
    rw [(h.used b hb).2 (.inl hU)] at hfree
    cases hfree
  have hge : nmeta ≤ b := by
    by_contra hlt
    exact hU (h.super b (Nat.not_le.1 hlt))
  have hb0 : b ≠ 0 := by
    rintro rfl
    exact absurd hge (by decide)
  have hnew : ∀ y, m y ≠ b := by
    intro y hy
    rw [(h.used b hb).2 (.inr ⟨y, hy ▸ hb0, hy⟩)] at hfree
    cases hfree
  have hself' : Function.update m x b x = b := Function.update_self _ _ _
  have hother : ∀ y, y ≠ x → Function.update m x b y = m y := fun y hy =>
    Function.update_of_ne hy _ _
  have hne : ∀ y, m y ≠ 0 → y ≠ x := by
    rintro y hy rfl
    exact hy h0
  refine ⟨⟨hsb.trans h.sb, h.tree.add hv hl h0 ⟨hge, hb⟩ hnew hzero hptr hself, h.super, ?_, ?_⟩,
    ⟨hsb, hftable, htask, hothers, hentry, ?_, ?_⟩, hhead, fun hx => absurd h0 hx, ?_, ?_,
      ?_, ?_, ?_⟩
  · intro y hy
    by_cases hyx : y = x
    · rw [hyx, hself']
      exact hU
    · rw [hother y hyx] at hy ⊢
      exact h.apart y hy
  -- the blocks in use are those of before and the new one
  · intro c hc
    rw [hused c (BBLOCK_inMap hc), Bool.or_eq_true, decide_eq_true_eq, h.used c hc, or_assoc]
    refine or_congr_right ⟨?_, ?_⟩
    · rintro (⟨y, hy, rfl⟩ | rfl)
      · exact ⟨y, by rwa [hother y (hne y hy)], hother y (hne y hy)⟩
      · exact ⟨x, by rwa [hself'], hself'⟩
    · rintro ⟨y, hy, rfl⟩
      by_cases hyx : y = x
      · rw [hyx, hself']
        exact .inr rfl
      · rw [hother y hyx] at hy ⊢
        exact .inl ⟨y, hy, rfl⟩
  · intro c hc hm
    refine hdisk c hm ?_ ?_
    · rintro rfl
      exact hU hc
    · rintro y hy rfl
      exact absurd hc (h.apart y hy)
  · intro c hc hm
    have hcb : c ≠ b := by omega
    rw [hused c hm]
    simp [hcb]
  · rwa [hself']
  -- only nodes that were mapped, and `x`, are mapped now
  · intro y hy
    exact hother y (hne y hy)
  · intro y hy0 hy
    by_cases hyx : y = x
    · exact hyx ▸ .refl y
    · rw [hother y hyx] at hy
      exact absurd hy0 hy
  · intro y hyl hy
    refine hdisk _ (h.tree.notInMap hy) (hnew y) ?_
    intro z hz hzy
    rwa [h.tree.inj z y hz hzy]
  · intro y hyl hy0 hy
    by_cases hyx : y = x
    · rw [hyx, hself']
      exact hzero
    · rw [hother y hyx] at hy
      exact absurd hy0 hy

/-! ## `bmap` -/

/-- No block is free. -/
def Full (d : Disk) : Prop := ∀ c, c < FSSIZE → d.used Mkfs.sb c = true

/-- The blocks ran out while some were added on the way to `x`. -/
def Stuck (U : Nat → Prop) (ip : Entry) (m : Node → Nat) (x : Node) : Prop :=
  ∃ s1 m1, Mapped U s1 ip m1 ∧ Full s1.disk ∧ (∀ y, m y ≠ 0 → m1 y ≠ 0) ∧
    (∀ y, m1 y ≠ 0 → m y ≠ 0 ∨ y.Above x) ∧ ∃ y, y.Above x ∧ m1 y = 0

theorem Stuck.child (h : Stuck U ip m x) (i : Nat) : Stuck U ip m (x.child i) := by
  rcases h with ⟨s1, m1, h1, hfull, hkeep, hnew, y, hy, h0⟩
  exact ⟨s1, m1, h1, hfull, hkeep, fun z hz => (hnew z hz).imp_right fun h => h.child i, y,
    hy.child i, h0⟩

/-- The root of a tree. -/
theorem addrSlot_wp (h : Mapped U s ip m) (hk : k < NDIRECT + 3)
    (hE : Stuck U ip m ⟨k, []⟩ → E (.panic "balloc: out of blocks")) :
    wp (addrSlot ip k) s
      (fun r s' => ∃ m', Grown U ip s m ⟨k, []⟩ s' m' ∧ r = m' ⟨k, []⟩) E := by
  have hv : (⟨k, []⟩ : Node).Valid :=
    ⟨hk, Nat.zero_le _, fun i hi => absurd hi List.not_mem_nil⟩
  have haddr : (s.icache ip).din.addr k = m ⟨k, []⟩ := h.tree.ptr _ hv trivial
  unfold addrSlot
  simp only [wp_bind, wp_get]
  refine wp_ite (fun h0 => ?_) fun h0 => ?_
  -- the slot is empty: it gets a zeroed block
  · rw [wp_bind]
    refine balloc_wp h.sb (fun b hb hfree => ?_) fun hfull =>
      hE ⟨s, m, h, hfull, fun _ hy => hy, fun _ hy => .inl hy, _, .refl _, haddr.symm.trans h0⟩
    rw [wp_bind, setDin_wp, wp_pure]
    have hge : nmeta ≤ b := by
      by_contra hlt
      rw [(h.used b hb).2 (.inl (h.super b (Nat.not_le.1 hlt)))] at hfree
      cases hfree
    have hb32 : b < 2 ^ 32 := Nat.lt_trans hb (by decide)
    refine ⟨Function.update m ⟨k, []⟩ b, ?_, (Function.update_self (⟨k, []⟩ : Node) b m).symm⟩
    refine h.grow hv trivial (haddr.symm.trans h0) hb hfree rfl rfl rfl ?_ ?_ ?_ ?_ ?_ ?_ ?_ ?_
    · intro j hj
      exact setInode_of_ne hj
    · rw [setInode_self]
    · rw [setInode_self]
      exact ⟨Dinode.type_setAddr .., getLE_setLE_disjoint _ _ (by omega),
        getLE_setLE_disjoint _ _ (by omega), Dinode.nlink_setAddr .., Dinode.size_setAddr ..⟩
    · intro c hc hcb _
      exact take_of_ne hcb hc hb
    · intro c hc
      exact used_take hge hc
    · exact take_self
    -- the other slots and the words of the other blocks stay
    · rintro ⟨k', _ | ⟨i, p⟩⟩ hne hyv hyl
      · rw [setInode_self]
        refine Dinode.addr_setAddr_ne _ _ ?_
        rintro rfl
        exact hne rfl
      · show word (s.disk.take b (m ⟨k', p⟩)) i = word (s.disk (m ⟨k', p⟩)) i
        rw [take_of_ne _ (h.tree.notInMap hyl) hb]
        intro hmb
        rw [(h.used b hb).2 (.inr ⟨_, hyl, hmb⟩)] at hfree
        cases hfree
    · rw [setInode_self]
      exact Dinode.addr_setAddr _ _ hk hb32
  -- the slot has its block
  · rw [wp_pure, haddr]
    refine ⟨m, .old h ?_, rfl⟩
    rwa [← haddr]

/-- One index further. -/
theorem indirectSlot_wp (h : Mapped U s ip m) (hx : m x ≠ 0) (hv : (x.child i).Valid)
    (hE : Stuck U ip m (x.child i) → E (.panic "balloc: out of blocks")) :
    wp (indirectSlot (m x) i) s
      (fun r s' => ∃ m', Grown U ip s m (x.child i) s' m' ∧ r = m' (x.child i)) E := by
  have hi : i < NINDIRECT := hv.index i List.mem_cons_self
  have hword : word (s.disk (m x)) i = m (x.child i) := h.tree.ptr _ hv hx
  rcases h.tree.range x hx with ⟨hxge, hxlt⟩
  unfold indirectSlot
  rw [wp_bind]
  refine bread_wp hxlt ?_
  refine wp_ite (fun h0 => ?_) fun h0 => ?_
  · rw [wp_bind]
    refine balloc_wp h.sb (fun b hb hfree => ?_) fun hfull =>
      hE ⟨s, m, h, hfull, fun _ hy => hy, fun _ hy => .inl hy, _, .refl _, hword.symm.trans h0⟩
    simp only [wp_bind, wp_get, bwrite_wp, wp_pure]
    have hge : nmeta ≤ b := by
      by_contra hlt
      rw [(h.used b hb).2 (.inl (h.super b (Nat.not_le.1 hlt)))] at hfree
      cases hfree
    have hb32 : b < 2 ^ 32 := Nat.lt_trans hb (by decide)
    have hmb : ∀ y, m y ≠ 0 → m y ≠ b := by
      intro y hy hyb
      rw [(h.used b hb).2 (.inr ⟨y, hy, hyb⟩)] at hfree
      cases hfree
    have hbx : b ≠ m x := Ne.symm (hmb x hx)
    have hold : s.disk.take b (m x) = s.disk (m x) :=
      take_of_ne (hmb x hx) (h.tree.notInMap hx) hb
    refine ⟨Function.update m (x.child i) b, ?_, (Function.update_self (x.child i) b m).symm⟩
    refine h.grow hv hx (hword.symm.trans h0) hb hfree rfl rfl rfl (fun _ _ => rfl) rfl
      (.refl _) ?_ ?_ ?_ ?_ ?_
    · intro c hc hcb hleaf
      refine (Disk.put_of_ne _ _ _ ?_).trans (take_of_ne hcb hc hb)
      rintro rfl
      -- the block above is not a leaf
      have h1 : x.path.length = depth x.slot := hleaf x hx rfl
      have h2 : x.path.length + 1 ≤ depth x.slot := hv.length
      omega
    · intro c hc
      exact (used_put_of_ge _ hc hxge).trans (used_take hge hc)
    · exact (Disk.put_of_ne _ _ _ hbx).trans take_self
    · rintro ⟨k', _ | ⟨i', p⟩⟩ hne hyv hyl
      · rfl
      · show word ((s.disk.take b).put (m x) (setWord (s.disk.take b (m x)) i b) (m ⟨k', p⟩)) i' =
          word (s.disk (m ⟨k', p⟩)) i'
        by_cases hpx : m ⟨k', p⟩ = m x
        · have hnode : (⟨k', p⟩ : Node) = x := h.tree.inj _ _ hyl hpx
          have hii : i' ≠ i := by
            rintro rfl
            exact hne (by rw [← hnode]; rfl)
          rw [hpx, Disk.put_self, word_setWord_ne _ hii, hold]
        · rw [Disk.put_of_ne _ _ _ hpx, take_of_ne (hmb _ hyl) (h.tree.notInMap hyl) hb]
    · show word ((s.disk.take b).put (m x) (setWord (s.disk.take b (m x)) i b) (m x)) i = b
      rw [Disk.put_self, word_setWord _ hi hb32]
  · rw [wp_pure, hword]
    refine ⟨m, .old h ?_, rfl⟩
    rwa [← hword]

/-- What a search that ends at `x` leaves. -/
abbrev Reach (U : Nat → Prop) (ip : Entry) (s : Kernel) (m : Node → Nat) (x : Node) (r : Nat)
    (s' : Kernel) : Prop :=
  ∃ m', Grown U ip s m x s' m' ∧ r = m' x

/-- One more level down: where the block above is mapped, `indirectSlot` maps the child or
finds no block for it. -/
theorem descend {f : FM Nat} (h : Mapped U s ip m) (hv : (x.child i).Valid)
    (hE : Stuck U ip m (x.child i) → E (.panic "balloc: out of blocks"))
    (hf : wp f s (Reach U ip s m x) E) :
    wp (f >>= fun a => indirectSlot a i) s (Reach U ip s m (x.child i)) E := by
  rw [wp_bind]
  refine wp.mono hf ?_ fun _ he => he
  rintro _ s1 ⟨m1, h1, rfl⟩
  refine wp.mono (indirectSlot_wp h1.mapped h1.here hv fun hs => hE ?_) ?_ fun _ he => he
  · -- the blocks added before are on the way, too
    rcases hs with ⟨s2, m2, h2, hfull, hkeep, hnew, y, hy, h0⟩
    refine ⟨s2, m2, h2, hfull, fun z hz => hkeep z (by rwa [h1.keep z hz]), ?_, y, hy, h0⟩
    intro z hz
    rcases hnew z hz with hz1 | hz1
    · by_cases hz0 : m z = 0
      · exact .inr ((h1.new z hz0 hz1).child i)
      · exact .inl hz0
    · exact .inr hz1
  · rintro _ s2 ⟨m2, h2, rfl⟩
    exact ⟨m2, h1.trans h2 fun hc => h.tree.closed _ hc, rfl⟩

theorem Node.Valid.up (h : Node.Valid ⟨k, i :: p⟩) : Node.Valid ⟨k, p⟩ :=
  ⟨h.slot, Nat.le_of_succ_le h.length, fun j hj => h.index j (List.mem_cons_of_mem _ hj)⟩

/-- `bmap` finds the block of a leaf, or adds what is missing. -/
theorem bmap_wp {bn : Nat} (h : Mapped U s ip m) (hbn : bn < MAXFILE)
    (hE : Stuck U ip m (leaf bn) → E (.panic "balloc: out of blocks")) :
    wp (bmap ip bn) s (Reach U ip s m (leaf bn)) E := by
  have hv := leaf_valid hbn
  unfold leaf at hE hv ⊢
  unfold bmap
  dsimp only at hE hv ⊢
  refine wp_ite (fun h1 => ?_) fun h1 => ?_
  -- a direct block
  · rw [if_pos h1] at hE hv ⊢
    exact addrSlot_wp h hv.slot hE
  rw [if_neg h1] at hE hv ⊢
  refine wp_ite (fun h2 => ?_) fun h2 => ?_
  -- one level of indirection
  · rw [if_pos h2] at hE hv ⊢
    refine descend (x := ⟨_, []⟩) h hv hE ?_
    exact addrSlot_wp h hv.slot fun hs => hE (hs.child _)
  rw [if_neg h2] at hE hv ⊢
  refine wp_ite (fun h3 => ?_) fun h3 => ?_
  -- two levels
  · rw [if_pos h3] at hE hv ⊢
    rw [← bind_assoc]
    refine descend (x := ⟨_, [_]⟩) h hv hE ?_
    refine descend (x := ⟨_, []⟩) h hv.up (fun hs => hE (hs.child _)) ?_
    exact addrSlot_wp h hv.slot fun hs => hE ((hs.child _).child _)
  rw [if_neg h3] at hE hv ⊢
  refine wp_ite (fun h4 => ?_) fun h4 => ?_
  -- three levels
  · rw [← bind_assoc, ← bind_assoc]
    refine descend (x := ⟨_, [_, _]⟩) h hv hE ?_
    refine descend (x := ⟨_, [_]⟩) h hv.up (fun hs => hE (hs.child _)) ?_
    refine descend (x := ⟨_, []⟩) h hv.up.up (fun hs => hE ((hs.child _).child _)) ?_
    exact addrSlot_wp h hv.slot fun hs => hE (((hs.child _).child _).child _)
  · unfold MAXFILE at hbn
    omega

/-- The number of blocks that are not in `U`. -/
noncomputable def room (U : Nat → Prop) : Nat := by
  classical exact ((Finset.range FSSIZE).filter fun b => ¬ U b).card

/-- When the blocks run out, there were fewer than the places need. -/
theorem Mapped.room_lt {T : Finset Node} (h : Mapped U s ip m) (hfull : Full s.disk)
    (hsub : ∀ y, m y ≠ 0 → y ∈ T) (hx : x ∈ T) (h0 : m x = 0) : room U < T.card := by
  classical
  have hcard : room U ≤ (T.erase x).card := by
    have hblock : ∀ b ∈ (Finset.range FSSIZE).filter fun b => ¬ U b, ∃ y ∈ T.erase x, m y = b := by
      intro b hb
      rw [Finset.mem_filter, Finset.mem_range] at hb
      rcases (h.used b hb.1).1 (hfull b hb.1) with hU | ⟨y, hy, hyb⟩
      · exact absurd hU hb.2
      · refine ⟨y, Finset.mem_erase.2 ⟨?_, hsub y hy⟩, hyb⟩
        rintro rfl
        exact hy h0
    have hsubset : ((Finset.range FSSIZE).filter fun b => ¬ U b) ⊆ (T.erase x).image m := by
      intro b hb
      rcases hblock b hb with ⟨y, hy, hyb⟩
      exact Finset.mem_image.2 ⟨y, hy, hyb⟩
    unfold room
    exact (Finset.card_le_card hsubset).trans Finset.card_image_le
  exact Nat.lt_of_le_of_lt hcard (Finset.card_erase_lt_of_mem hx)

end Xv6.Fs
