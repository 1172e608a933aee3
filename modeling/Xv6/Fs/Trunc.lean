import Xv6.Fs.Map
import Mathlib.Data.Finset.Union
import Mathlib.Order.Interval.Finset.Nat
import Mathlib.Data.List.Basic

/-!
# Truncation

`itrunc` goes over the trees that `bmap` has built. It frees the blocks at all
places, each of them once, and that puts the free map back to what it was before
the first `bmap`.

* `itrunc_wp`: `itrunc` on a mapped inode does what `freeAll` does on the list of
  its blocks, and clears `addrs[]` and the size;
* `itrunc_undoes_bmap`: after any calls of `bmap` on an empty inode this list has
  no repetitions and holds just the blocks that the calls took.

The trees of the three depths are freed by one recursion over the entries of an
indirect block (`freeTree`), in the order of the source. `addrs[]` is cleared slot
by slot between the frees; that these updates commute with them is proved on the
way.
-/

namespace Xv6.Fs

open Xv6.Lib Prog
open Mkfs (sb nmeta)

variable {d d' : Disk} {din : Dinode} {m : Node → Nat} {x y : Node} {U : Nat → Prop} {ip : Entry}
  {s s' : Kernel} {E : Stop → Prop} {i k : Nat}

/-! ## The places of a tree -/

/-- The places with a block from `x` on, in the order in which `itrunc` comes to them. -/
def below (m : Node → Nat) : Nat → Node → List Node
  | 0, x => if m x = 0 then [] else [x]
  | k + 1, x =>
      if m x = 0 then []
      else ((List.range NINDIRECT).flatMap fun i => below m k (x.child i)) ++ [x]

/-- The blocks of an inode. -/
def blocksOf (m : Node → Nat) : List Nat :=
  ((List.range (NDIRECT + 3)).flatMap fun k => below m (depth k) ⟨k, []⟩).map m

theorem Node.Above.up (h : (x.child i).Above y) : x.Above y :=
  ⟨h.1, (List.suffix_cons _ _).trans h.2⟩

/-- A child at the next level is within the tree. -/
theorem child_valid (hv : x.Valid) (hk : x.path.length + (k + 1) = depth x.slot)
    (hi : i < NINDIRECT) : (x.child i).Valid := by
  refine ⟨hv.slot, ?_, ?_⟩
  · show x.path.length + 1 ≤ depth x.slot
    omega
  · intro j hj
    rcases List.mem_cons.1 hj with hj | hj
    · rw [hj]
      exact hi
    · exact hv.index j hj

/-- A place below `x` is `x`, or below one of its children. -/
theorem Node.Above.cases (h : x.Above y) : y = x ∨ ∃ i, (x.child i).Above y := by
  rcases h with ⟨hslot, t, ht⟩
  rcases List.eq_nil_or_concat t with rfl | ⟨t', i, rfl⟩
  · refine .inl ?_
    rcases x with ⟨k, p⟩
    rcases y with ⟨k', p'⟩
    cases hslot
    cases ht
    rfl
  · refine .inr ⟨i, hslot, t', ?_⟩
    rw [← ht]
    simp [Node.child]

/-- What is above a place with a block has a block. -/
theorem Tree.up (h : Tree d din m) (hy : m y ≠ 0) (hx : x.Above y) : m x ≠ 0 := by
  rcases y with ⟨k, p⟩
  induction p with
  | nil =>
      rcases hx with ⟨hslot, hp⟩
      rcases x with ⟨k', p'⟩
      cases hslot
      cases List.suffix_nil.1 hp
      exact hy
  | cons i p ih =>
      rcases hx with ⟨hslot, hp⟩
      rcases List.suffix_cons_iff.1 hp with hp | hp
      · rcases x with ⟨k', p'⟩
        cases hslot
        cases hp
        exact hy
      · exact ih (h.closed _ hy) ⟨hslot, hp⟩

/-- The blocks counted below a node are the mapped nodes above which it stands. By induction
on the levels that are left. -/
theorem mem_below (h : Tree d din m) (hv : x.Valid) (hk : x.path.length + k = depth x.slot) :
    y ∈ below m k x ↔ m y ≠ 0 ∧ x.Above y := by
  induction k generalizing x with
  | zero =>
      unfold below
      constructor
      · intro hy
        split at hy
        · cases hy
        · next h0 =>
          rw [List.mem_singleton.1 hy]
          exact ⟨h0, .refl x⟩
      · rintro ⟨hy, hxy⟩
        rw [if_neg (h.up hy hxy)]
        -- nothing is below a leaf
        rcases hxy.cases with rfl | ⟨i, hi⟩
        · exact List.mem_singleton.2 rfl
        · have h1 := (h.valid _ (h.up hy hi)).length
          have h2 : x.path.length + 1 ≤ depth x.slot := h1
          omega
  | succ k ih =>
      have hchild : ∀ i, i < NINDIRECT →
          (y ∈ below m k (x.child i) ↔ m y ≠ 0 ∧ (x.child i).Above y) := by
        intro i hi
        apply ih (child_valid hv hk hi)
        show x.path.length + 1 + k = depth x.slot
        omega
      unfold below
      constructor
      · intro hy
        split at hy
        · cases hy
        · next h0 =>
          rcases List.mem_append.1 hy with hy | hy
          · rcases List.mem_flatMap.1 hy with ⟨i, hi, hy⟩
            have hy' := (hchild i (List.mem_range.1 hi)).1 hy
            exact ⟨hy'.1, hy'.2.up⟩
          · rw [List.mem_singleton.1 hy]
            exact ⟨h0, .refl x⟩
      · rintro ⟨hy, hxy⟩
        rw [if_neg (h.up hy hxy)]
        rcases hxy.cases with rfl | ⟨i, hi⟩
        · exact List.mem_append_right _ (List.mem_singleton.2 rfl)
        · have hlt : i < NINDIRECT := (h.valid _ (h.up hy hi)).index i List.mem_cons_self
          refine List.mem_append_left _ (List.mem_flatMap.2 ⟨i, List.mem_range.2 hlt, ?_⟩)
          exact (hchild i hlt).2 ⟨hy, hi⟩

/-- A place is below one child only. -/
theorem child_disjoint {i j : Nat} (hi : (x.child i).Above y) (hj : (x.child j).Above y) :
    i = j := by
  have hlen : (x.child i).path.length = (x.child j).path.length := rfl
  have hp := List.suffix_of_suffix_length_le hi.2 hj.2 (Nat.le_of_eq hlen)
  have heq : i :: x.path = j :: x.path := hp.eq_of_length hlen
  exact (List.cons.inj heq).1

/-- No block is counted twice below a node: two children have no node in common. -/
theorem nodup_below (h : Tree d din m) (hv : x.Valid) (hk : x.path.length + k = depth x.slot) :
    (below m k x).Nodup := by
  induction k generalizing x with
  | zero =>
      unfold below
      split
      · exact List.nodup_nil
      · exact List.nodup_singleton x
  | succ k ih =>
      have hlen : ∀ i, (x.child i).path.length + k = depth (x.child i).slot := by
        intro i
        show x.path.length + 1 + k = depth x.slot
        omega
      unfold below
      split
      · exact List.nodup_nil
      · rw [List.nodup_append]
        refine ⟨?_, List.nodup_singleton x, ?_⟩
        -- two children of one node have no node below in common, since their paths differ
        · rw [List.nodup_flatMap]
          constructor
          · intro i hi
            exact ih (child_valid hv hk (List.mem_range.1 hi)) (hlen i)
          · refine List.Pairwise.imp_of_mem ?_ (List.nodup_range (n := NINDIRECT))
            intro i j hi hj hij y hyi hyj
            have h1 := (mem_below h (child_valid hv hk (List.mem_range.1 hi)) (hlen i)).1 hyi
            have h2 := (mem_below h (child_valid hv hk (List.mem_range.1 hj)) (hlen j)).1 hyj
            exact hij (child_disjoint h1.2 h2.2)
        -- and the node itself is not below a child
        · intro y hy z hz
          rw [List.mem_singleton.1 hz]
          rintro rfl
          rcases List.mem_flatMap.1 hy with ⟨i, hi, hy⟩
          have h1 := (mem_below h (child_valid hv hk (List.mem_range.1 hi)) (hlen i)).1 hy
          have h2 : y.path.length + 1 ≤ y.path.length := h1.2.2.length_le
          omega

theorem root_valid (hk : k < NDIRECT + 3) : (⟨k, []⟩ : Node).Valid :=
  ⟨hk, Nat.zero_le _, fun _ hi => absurd hi List.not_mem_nil⟩

/-- The blocks of a file are those that some node holds. -/
theorem mem_blocksOf (h : Tree d din m) {b : Nat} : b ∈ blocksOf m ↔ Holds m b := by
  unfold blocksOf
  rw [List.mem_map]
  constructor
  · rintro ⟨y, hy, rfl⟩
    rcases List.mem_flatMap.1 hy with ⟨k, hk, hy⟩
    have hy' := (mem_below h (root_valid (List.mem_range.1 hk)) (Nat.zero_add _)).1 hy
    exact ⟨y, hy'.1, rfl⟩
  · rintro ⟨y, hy, rfl⟩
    refine ⟨y, List.mem_flatMap.2 ⟨y.slot, List.mem_range.2 (h.valid y hy).slot, ?_⟩, rfl⟩
    refine (mem_below h (root_valid (h.valid y hy).slot) (Nat.zero_add _)).2 ⟨hy, rfl, ?_⟩
    exact List.nil_suffix

/-- The blocks of a file are different. -/
theorem nodup_blocksOf (h : Tree d din m) : (blocksOf m).Nodup := by
  have hmem : ∀ k, k ∈ List.range (NDIRECT + 3) → ∀ y, y ∈ below m (depth k) ⟨k, []⟩ →
      m y ≠ 0 ∧ k = y.slot := by
    intro k hk y hy
    have hy' := (mem_below h (root_valid (List.mem_range.1 hk)) (Nat.zero_add _)).1 hy
    exact ⟨hy'.1, hy'.2.1⟩
  unfold blocksOf
  refine List.Nodup.map_on ?_ ?_
  · intro y hy z _ hyz
    rcases List.mem_flatMap.1 hy with ⟨k, hk, hy⟩
    exact h.inj y z (hmem k hk y hy).1 hyz
  · rw [List.nodup_flatMap]
    constructor
    · intro k hk
      exact nodup_below h (root_valid (List.mem_range.1 hk)) (Nat.zero_add _)
    · refine List.Pairwise.imp_of_mem ?_ (List.nodup_range (n := NDIRECT + 3))
      intro k k' hk hk' hne y hy hy'
      exact hne ((hmem k hk y hy).2.trans (hmem k' hk' y hy').2.symm)

/-! ## The loops of `itrunc` -/

/-- The indirect blocks of the tree as they lie on the disk. -/
def Sees (d : Disk) (m : Node → Nat) : Prop :=
  ∀ (x : Node) (i : Nat), m x ≠ 0 → (x.child i).Valid → word (d (m x)) i = m (x.child i)

theorem Tree.sees (h : Tree d din m) : Sees d m := fun x i hx hv => h.ptr (x.child i) hv hx

/-- Freeing blocks leaves everything but the free map. -/
theorem freeAll_frame {bs : List Nat} {Q : Unit → Kernel → Prop} (hsb : s.sb = sb)
    (hlt : ∀ b ∈ bs, b < FSSIZE) (h : wp (freeAll bs) s Q E) :
    wp (freeAll bs) s (fun u s' => Q u s' ∧ s' = { s with disk := s'.disk } ∧
      ∀ c, nmeta ≤ c → s'.disk c = s.disk c) E := by
  induction bs generalizing s with
  | nil => exact (wp_pure ..).2 ⟨(wp_pure ..).1 h, rfl, fun _ _ => rfl⟩
  | cons b bs ih =>
      have hb : b < FSSIZE := hlt b List.mem_cons_self
      have hmap := (BBLOCK_inMap hb).2
      have hmeta := nmeta_lt_FSSIZE
      unfold freeAll at h ⊢
      unfold bfree bread halt at h ⊢
      simp only [wp_bind, wp_get, hsb] at h ⊢
      rw [if_pos (by omega)] at h ⊢
      simp only [wp_pure] at h ⊢
      -- a block that is free panics, else one bitmap block is written
      by_cases hbit : getBit (s.disk (BBLOCK b sb)) (b % BPB) = false
      · rw [if_pos hbit] at h ⊢
        simpa only [wp_bind, wp_throw] using h
      · rw [if_neg hbit] at h ⊢
        simp only [bwrite_wp] at h ⊢
        refine wp.mono (ih hsb (fun c hc => hlt c (List.mem_cons_of_mem _ hc)) h) ?_ fun _ he => he
        rintro u s' ⟨hQ, hsb', hkeep⟩
        refine ⟨hQ, ?_, fun c hc => (hkeep c hc).trans (Disk.put_of_ne _ _ _ ?_)⟩
        · rw [← hsb]
          exact hsb'
        · omega

variable {Q : Unit → Kernel → Prop}

theorem Sees.frame (h : Sees d m) (hm : ∀ x, m x ≠ 0 → nmeta ≤ m x)
    (hd : ∀ c, nmeta ≤ c → d' c = d c) : Sees d' m := by
  intro x i hx hv
  rw [hd _ (hm x hx)]
  exact h x i hx hv

/-- The numbers in the map are those of blocks for data. -/
def InRange (m : Node → Nat) : Prop := ∀ x, m x ≠ 0 → nmeta ≤ m x ∧ m x < FSSIZE

/-- The loop of `freeTree` over the words of an indirect block. By induction on the words,
each of which frees its own subtree. -/
theorem eachWord_wp {is : List Nat} (hm : InRange m) (hsb : s.sb = sb) (hs : Sees s.disk m)
    (hfree : ∀ (i : Nat) (s : Kernel) (Q : Unit → Kernel → Prop), i ∈ is → m (x.child i) ≠ 0 →
      s.sb = sb → Sees s.disk m → wp (freeAll ((below m k (x.child i)).map m)) s Q E →
      wp (freeTree k (m (x.child i))) s Q E)
    (hlt : ∀ i ∈ is, ∀ y ∈ below m k (x.child i), m y ≠ 0)
    (h : wp (freeAll ((is.flatMap fun i => below m k (x.child i)).map m)) s Q E) :
    wp (eachWord (freeTree k) (is.map fun i => m (x.child i))) s Q E := by
  induction is generalizing s with
  | nil => exact h
  | cons i is ih =>
      rw [List.flatMap_cons, List.map_append, freeAll_append, wp_bind] at h
      have hrest : ∀ (s : Kernel), s.sb = sb → Sees s.disk m →
          wp (freeAll ((is.flatMap fun i => below m k (x.child i)).map m)) s Q E →
          wp (eachWord (freeTree k) (is.map fun i => m (x.child i))) s Q E := fun s hsb hs h =>
        ih hsb hs (fun j s Q hj => hfree j s Q (List.mem_cons_of_mem _ hj))
          (fun j hj => hlt j (List.mem_cons_of_mem _ hj)) h
      rw [List.map_cons]
      unfold eachWord
      refine wp_ite (fun h0 => ?_) fun h0 => ?_
      -- the subtree of this word is freed, and what is left is seen as before
      · have hbs : ∀ b ∈ (below m k (x.child i)).map m, b < FSSIZE := by
          intro b hb
          rcases List.mem_map.1 hb with ⟨y, hy, rfl⟩
          exact (hm y (hlt i List.mem_cons_self y hy)).2
        rw [wp_bind]
        refine hfree i s _ List.mem_cons_self h0 hsb hs ?_
        refine wp.mono (freeAll_frame hsb hbs h) ?_ fun _ he => he
        rintro _ s1 ⟨h1, hs1, hkeep⟩
        exact hrest s1 (hs1 ▸ hsb) (hs.frame (fun y hy => (hm y hy).1) hkeep) h1
      · -- there is nothing below an empty place
        have hnil : below m k (x.child i) = [] := by
          cases k <;> exact if_pos (Decidable.not_not.1 h0)
        rw [hnil] at h
        exact hrest s hsb hs ((wp_pure () s _ E).1 h)

/-- The nested loops free the blocks of the places below, in order. -/
theorem freeTree_wp (ht : Tree d din m) (hsb : s.sb = sb) (hs : Sees s.disk m) (hx : m x ≠ 0)
    (hk : x.path.length + k = depth x.slot) (h : wp (freeAll ((below m k x).map m)) s Q E) :
    wp (freeTree k (m x)) s Q E := by
  have hv := ht.valid x hx
  induction k generalizing x s Q with
  | zero =>
      unfold below at h
      rw [if_neg hx] at h
      unfold freeTree
      simpa [freeAll, wp_bind] using h
  | succ k ih =>
      have hlen : ∀ i, (x.child i).path.length + k = depth (x.child i).slot := by
        intro i
        show x.path.length + 1 + k = depth x.slot
        omega
      unfold below at h
      rw [if_neg hx, List.map_append, freeAll_append, wp_bind] at h
      unfold freeTree
      rw [wp_bind]
      refine bread_wp (ht.range x hx).2 ?_
      -- the words that are read are the children in the map
      have hwords : (List.range NINDIRECT).map (word (s.disk (m x))) =
          (List.range NINDIRECT).map fun i => m (x.child i) := by
        apply List.map_congr_left
        intro i hi
        exact hs x i hx (child_valid hv hk (List.mem_range.1 hi))
      rw [wp_bind, hwords]
      refine wp.mono (eachWord_wp ht.range hsb hs ?_ ?_ h) ?_ fun _ he => he
      -- below: the levels that are left; behind: the other words; last: the block itself
      · intro i s Q hi h0 hsb hs h
        exact ih hsb hs h0 (hlen i) h (ht.valid _ h0)
      · intro i hi y hy
        exact ((mem_below ht (child_valid hv hk (List.mem_range.1 hi)) (hlen i)).1 hy).1
      · intro _ s1 h1
        simpa [freeAll, wp_bind] using h1

/-! ### Commuting with the inode -/

/-- Freeing blocks does not look at the inodes. -/
theorem freeAll_setInode {bs : List Nat} {f : Inode → Inode} :
    wp (freeAll bs) (s.setInode ip f) Q E ↔
      wp (freeAll bs) s (fun u s' => Q u (s'.setInode ip f)) E := by
  induction bs generalizing s with
  | nil => simp only [freeAll, wp_pure]
  | cons b bs ih =>
      unfold freeAll bfree bread halt
      simp only [wp_bind, wp_get]
      have hsb : (s.setInode ip f).sb = s.sb := rfl
      have hdisk : (s.setInode ip f).disk = s.disk := rfl
      rw [hsb, hdisk]
      split
      · simp only [wp_pure]
        split
        · simp only [wp_bind, wp_throw]
        · simp only [bwrite_wp]
          exact ih (s := s.setBlock _ _)
      · simp only [wp_throw]

/-- `addrs[k]` is empty from now on, for the numbers of a list. -/
def clearAddrs (ks : List Nat) (din : Dinode) : Dinode := ks.foldl (fun d k => d.setAddr k 0) din

/-- `truncSlot` for each of the numbers. -/
def truncSlots (ip : Entry) : List Nat → FM Unit
  | [] => return ()
  | k :: ks => do
      truncSlot ip (depth k) k
      truncSlots ip ks

/-- The loop over the direct slots is the one over slots in general. -/
theorem truncDirect_eq {ks : List Nat} (h : ∀ k ∈ ks, k < NDIRECT) :
    truncDirect ip ks = truncSlots ip ks := by
  induction ks with
  | nil => rfl
  | cons k ks ih =>
      have hk : depth k = 0 := by
        have := h k List.mem_cons_self
        unfold depth
        omega
      unfold truncDirect truncSlots
      rw [hk, ih fun j hj => h j (List.mem_cons_of_mem _ hj)]

/-- Emptying two lists of slots one behind the other. -/
theorem truncSlots_append (ks ls : List Nat) :
    truncSlots ip (ks ++ ls) = (do truncSlots ip ks; truncSlots ip ls : FM Unit) := by
  induction ks with
  | nil => rfl
  | cons k ks ih =>
      show (do truncSlot ip (depth k) k; truncSlots ip (ks ++ ls) : FM Unit) =
        (do (do truncSlot ip (depth k) k; truncSlots ip ks : FM Unit); truncSlots ip ls)
      rw [ih, bind_assoc]

theorem Dinode.setAddr_self {k v : Nat} (h : din.addr k = v) : din.setAddr k v = din := by
  subst h
  exact setLE_getLE ..

/-- The roots one after the other: first all blocks, and then `addrs[]`. -/
theorem truncSlots_wp {ks : List Nat} (ht : Tree d din m) (hsb : s.sb = sb)
    (hs : Sees s.disk m) (hnodup : ks.Nodup) (hks : ∀ k ∈ ks, k < NDIRECT + 3)
    (haddr : ∀ k ∈ ks, (s.icache ip).din.addr k = m ⟨k, []⟩)
    (h : wp (freeAll ((ks.flatMap fun k => below m (depth k) ⟨k, []⟩).map m)) s
      (fun u s' => Q u (s'.setInode ip fun x => { x with din := clearAddrs ks x.din })) E) :
    wp (truncSlots ip ks) s Q E := by
  induction ks generalizing s with
  | nil =>
      refine (wp_pure ..).2 ?_
      have hQ := (wp_pure () s _ E).1 h
      rwa [setInode_id (s := s) (by rfl)] at hQ
  | cons k ks ih =>
      rw [List.nodup_cons] at hnodup
      have hk : k < NDIRECT + 3 := hks k List.mem_cons_self
      have hk0 := haddr k List.mem_cons_self
      rw [List.flatMap_cons, List.map_append, freeAll_append, wp_bind] at h
      -- the rest, after the slot has been cleared in `s1`
      have hrest : ∀ s1 : Kernel, s1 = { s with disk := s1.disk } → Sees s1.disk m →
          wp (freeAll ((ks.flatMap fun k => below m (depth k) ⟨k, []⟩).map m)) s1
            (fun u s' => Q u (s'.setInode ip fun x => { x with din := clearAddrs (k :: ks) x.din }))
              E →
          wp (truncSlots ip ks) (s1.setInode ip fun x => { x with din := x.din.setAddr k 0 })
            Q E := by
        intro s1 hs1 hsees h1
        have hicache : s1.icache = s.icache := by rw [hs1]
        refine ih (by rw [hs1]; exact hsb) hsees hnodup.2
          (fun j hj => hks j (List.mem_cons_of_mem _ hj)) ?_ ?_
        · intro j hj
          rw [setInode_self, hicache, ← haddr j (List.mem_cons_of_mem _ hj)]
          refine Dinode.addr_setAddr_ne _ _ ?_
          rintro rfl
          exact hnodup.1 hj
        · rw [freeAll_setInode]
          refine wp.mono h1 ?_ fun _ he => he
          intro u s' hQ
          rwa [setInode_setInode]
      unfold truncSlots truncSlot
      simp only [wp_bind, wp_get]
      refine wp_ite (fun h0 => ?_) fun h0 => ?_
      · rw [wp_bind, hk0]
        rw [hk0] at h0
        refine freeTree_wp ht hsb hs h0 (Nat.zero_add _) ?_
        have hbs : ∀ b ∈ (below m (depth k) ⟨k, []⟩).map m, b < FSSIZE := by
          intro b hb
          rcases List.mem_map.1 hb with ⟨y, hy, rfl⟩
          exact (ht.range y ((mem_below ht (root_valid hk) (Nat.zero_add _)).1 hy).1).2
        refine wp.mono (freeAll_frame hsb hbs h) ?_ fun _ he => he
        rintro _ s1 ⟨h1, hs1, hkeep⟩
        rw [setDin_wp]
        exact hrest s1 hs1 (hs.frame (fun y hy => (ht.range y hy).1) hkeep) h1
      · have hnil : below m (depth k) ⟨k, []⟩ = [] := by
          have h0' : m ⟨k, []⟩ = 0 := hk0 ▸ Decidable.not_not.1 h0
          cases depth k <;> exact if_pos h0'
        have hself : (s.setInode ip fun x => { x with din := x.din.setAddr k 0 }) = s := by
          apply setInode_id
          rw [Dinode.setAddr_self (Decidable.not_not.1 h0)]
        rw [hnil] at h
        have h1 := hrest s rfl hs ((wp_pure () s _ E).1 h)
        rw [hself] at h1
        exact (wp_pure ..).2 h1

/-- What `itrunc` leaves of an inode. -/
def Dinode.truncated (din : Dinode) : Dinode :=
  (clearAddrs (List.range (NDIRECT + 3)) din).setSize 0

/-- `itrunc` frees the blocks of the tree one after the other, and then empties and
writes the inode. -/
theorem itrunc_run (h : Mapped U s ip m) :
    (itrunc ip).run s = (do
      freeAll (blocksOf m)
      setDin ip Dinode.truncated
      iupdate ip : FM Unit).run s := by
  apply run_eq_of_wp
  intro Q E hQ
  -- the direct slots and the three trees are the slots of the inode
  have hrange : List.range (NDIRECT + 3) = List.range NDIRECT ++
    [NDIRECT, NDIRECT + 1, NDIRECT + 1 + 1] := by
    decide
  have hall : itrunc ip = (do
      truncSlots ip (List.range (NDIRECT + 3))
      setDin ip fun d => d.setSize 0
      iupdate ip : FM Unit) := by
    unfold itrunc
    rw [truncDirect_eq fun k hk => List.mem_range.1 hk, hrange, truncSlots_append, bind_assoc]
    simp only [truncSlots, bind_assoc, pure_bind]
    rfl
  rw [hall, wp_bind]
  rw [wp_bind] at hQ
  refine truncSlots_wp h.tree h.sb h.tree.sees List.nodup_range
    (fun k hk => List.mem_range.1 hk) ?_ ?_
  · intro k hk
    exact h.tree.ptr ⟨k, []⟩ (root_valid (List.mem_range.1 hk)) trivial
  · refine wp.mono hQ ?_ fun _ he => he
    intro _ s1 h1
    rw [wp_bind, setDin_wp] at h1 ⊢
    rwa [setInode_setInode]

/-! ## `bmap` and then `itrunc` -/

/-- The places on the way to `x`. -/
def Node.ups (x : Node) : Finset Node := x.path.tails.toFinset.image fun p => ⟨x.slot, p⟩

/-- The nodes listed above a node are those on its path. -/
theorem Node.mem_ups : y ∈ x.ups ↔ y.Above x := by
  unfold Node.ups
  simp only [Finset.mem_image, List.mem_toFinset, List.mem_tails]
  constructor
  · rintro ⟨p, hp, rfl⟩
    exact ⟨rfl, hp⟩
  · rintro ⟨hslot, hp⟩
    exact ⟨y.path, hp, by rw [← hslot]⟩

/-- The places on the ways to data blocks. -/
def places (bns : List Nat) : Finset Node := bns.toFinset.biUnion fun bn => (leaf bn).ups

theorem mem_places {bns : List Nat} : y ∈ places bns ↔ ∃ bn ∈ bns, y.Above (leaf bn) := by
  unfold places
  simp only [Finset.mem_biUnion, List.mem_toFinset, Node.mem_ups]

/-- A block that is in the tree is found, and nothing changes. -/
theorem bmap_old {bn : Nat} (h : Mapped U s ip m) (hbn : bn < MAXFILE) (hx : m (leaf bn) ≠ 0) :
    wp (bmap ip bn) s (fun r s' => r = m (leaf bn) ∧ s' = s) E := by
  refine wp.mono (bmap_wp h hbn fun hs => ?_) ?_ fun _ he => he
  · rcases hs with ⟨s1, m1, h1, hfull, hkeep, hnew, y, hy, h0⟩
    exact absurd h0 (hkeep y (h.tree.up hx hy))
  · rintro _ s1 ⟨m1, h1, rfl⟩
    rcases h1.same hx with ⟨rfl, rfl⟩
    exact ⟨rfl, rfl⟩

/-- Where `bmap` is stuck for want of blocks, fewer are free than the file may still need. -/
theorem Stuck.room_lt {T : Finset Node} (h : Stuck U ip m x) (hm : ∀ y, m y ≠ 0 → y ∈ T)
    (hx : ∀ y : Node, y.Above x → y ∈ T) : room U < T.card := by
  rcases h with ⟨s1, m1, h1, hfull, -, hnew, y, hy, h0⟩
  refine h1.room_lt hfull ?_ (hx y hy) h0
  intro z hz
  rcases hnew z hz with hz | hz
  · exact hm z hz
  · exact hx z hz

theorem room_used (d : Disk) : room (fun b => d.used sb b = true) = d.nfree := by
  unfold room Disk.nfree
  simp only [Bool.not_eq_true]

def bmapAll (ip : Entry) : List Nat → FM Unit
  | [] => return ()
  | bn :: bns => do
      let _ ← bmap ip bn
      bmapAll ip bns

/-- A sequence of calls puts blocks at the places on the ways to their leaves. -/
theorem bmapAll_wp {bns : List Nat} {T : Finset Node} (h : Mapped U s ip m)
    (hbn : ∀ bn ∈ bns, bn < MAXFILE) (hm : ∀ y, m y ≠ 0 → y ∈ T) (hT : ∀ y ∈ places bns, y ∈ T)
    (hroom : T.card ≤ room U) :
    Ends (bmapAll ip bns) s fun _ s' => ∃ m', Mapped U s' ip m' ∧ Frame U ip s s' ∧
      ∀ y, m' y ≠ 0 ↔ m y ≠ 0 ∨ y ∈ places bns := by
  induction bns generalizing s m with
  | nil =>
      refine (wp_pure ..).2 ⟨m, h, .refl s, ?_⟩
      intro y
      simp [places]
  | cons bn bns ih =>
      have hway : ∀ y : Node, y.Above (leaf bn) → y ∈ T := by
        intro y hy
        exact hT y (mem_places.2 ⟨bn, List.mem_cons_self, hy⟩)
      unfold bmapAll Ends
      rw [wp_bind]
      refine wp.mono (bmap_wp h (hbn bn List.mem_cons_self) fun hs => ?_) ?_ fun _ he => he
      · exact absurd (hs.room_lt hm hway) (Nat.not_lt.2 hroom)
      rintro _ s1 ⟨m1, h1, -⟩
      -- after one call the mapped nodes are those of before and the way to this leaf
      have hm1 : ∀ y, m1 y ≠ 0 ↔ m y ≠ 0 ∨ y.Above (leaf bn) := by
        intro y
        constructor
        · intro hy
          by_cases h0 : m y = 0
          · exact .inr (h1.new y h0 hy)
          · exact .inl h0
        · rintro (hy | hy)
          · rwa [h1.keep y hy]
          · exact h1.mapped.tree.up h1.here hy
      refine wp.mono (ih h1.mapped (fun c hc => hbn c (List.mem_cons_of_mem _ hc)) ?_ ?_) ?_
        fun _ he => he
      · intro y hy
        rcases (hm1 y).1 hy with hy | hy
        · exact hm y hy
        · exact hway y hy
      · intro y hy
        rcases mem_places.1 hy with ⟨c, hc, hy⟩
        exact hT y (mem_places.2 ⟨c, List.mem_cons_of_mem _ hc, hy⟩)
      · rintro _ s2 ⟨m2, h2, hf, hm2⟩
        refine ⟨m2, h2, h1.frame.trans hf, ?_⟩
        intro y
        rw [hm2, hm1, or_assoc, mem_places, mem_places]
        simp only [List.mem_cons, exists_eq_or_imp]

/-- The inodes lie before the bitmap. -/
theorem IBLOCK_lt {i : Nat} (h : i < sb.ninodes) : IBLOCK i sb < sb.bmapstart := by
  have hn : sb.ninodes = 200 := by decide
  have hstart : sb.inodestart = 102 := by decide
  have hmap : sb.bmapstart = 128 := by decide
  unfold IBLOCK IPB BSIZE SIZEOF_DINODE
  omega

theorem bmapstart_lt : sb.bmapstart < nmeta := by decide

/-- The disk after the inode in the cache has been written. -/
def written (s : Kernel) (ip : Entry) : Disk :=
  let x := s.icache ip
  s.disk.put (IBLOCK x.inum sb) (putDinode (s.disk (IBLOCK x.inum sb)) (x.inum % IPB) x.din)

/-- `iupdate` writes the inode in the cache to its place on disk. -/
theorem iupdate_wp (hsb : s.sb = sb) (hi : (s.icache ip).inum < sb.ninodes)
    (hQ : Q () { s with disk := written s ip }) : wp (iupdate ip) s Q E := by
  have hlt := IBLOCK_lt hi
  have hmap := bmapstart_lt
  have hmeta := nmeta_lt_FSSIZE
  unfold iupdate
  simp only [wp_bind, wp_get, hsb]
  refine bread_wp (by omega) ?_
  rw [bwrite_wp]
  exact hQ

theorem written_of_ne {c : Nat} (hc : c ≠ IBLOCK (s.icache ip).inum sb) :
    written s ip c = s.disk c := Disk.put_of_ne _ _ _ hc

/-- A slot that was cleared, or was zero before, is zero. -/
theorem addr_clearAddrs {ks : List Nat} (hks : ∀ k ∈ ks, k < NDIRECT + 3)
    (h : k ∈ ks ∨ din.addr k = 0) : (clearAddrs ks din).addr k = 0 := by
  induction ks generalizing din with
  | nil =>
      rcases h with h | h
      · cases h
      · exact h
  | cons j ks ih =>
      refine ih (fun i hi => hks i (List.mem_cons_of_mem _ hi)) ?_
      by_cases hkj : k = j
      · subst hkj
        exact .inr (Dinode.addr_setAddr _ _ (hks k List.mem_cons_self) (by decide))
      · rw [Dinode.addr_setAddr_ne _ _ hkj]
        rcases h with h | h
        · rcases List.mem_cons.1 h with h | h
          · exact absurd h hkj
          · exact .inl h
        · exact .inr h

theorem Dinode.addr_truncated (hk : k < NDIRECT + 3) : din.truncated.addr k = 0 := by
  unfold Dinode.truncated
  rw [Dinode.addr_setSize]
  exact addr_clearAddrs (fun _ hi => List.mem_range.1 hi) (.inl (List.mem_range.2 hk))

theorem Dinode.size_truncated : din.truncated.size = 0 := Dinode.size_setSize _ _ (by decide)

/-- `itrunc` has freed the blocks `bs`, and emptied and written the inode. -/
structure Emptied (ip : Entry) (s : Kernel) (bs : List Nat) (s' : Kernel) : Prop where
  sb : s'.sb = s.sb
  ftable : s'.ftable = s.ftable
  task : s'.task = s.task
  others : ∀ j, j ≠ ip → s'.icache j = s.icache j
  entry : s'.icache ip = { s.icache ip with din := (s.icache ip).din.truncated }
  disk : ∀ c, ¬ InMap c → c ≠ IBLOCK (s.icache ip).inum Mkfs.sb → s'.disk c = s.disk c
  used : ∀ c, InMap (BBLOCK c Mkfs.sb) →
    s'.disk.used Mkfs.sb c = (s.disk.used Mkfs.sb c && decide (c ∉ bs))
  dinode : s'.disk.dinode Mkfs.sb (s.icache ip).inum = (s.icache ip).din.truncated
  dinodes : ∀ i, i < Mkfs.sb.ninodes → i ≠ (s.icache ip).inum →
    s'.disk.dinode Mkfs.sb i = s.disk.dinode Mkfs.sb i

theorem IBLOCK_notInMap {i : Nat} (h : i < sb.ninodes) : ¬ InMap (IBLOCK i sb) := by
  intro hm
  have := IBLOCK_lt h
  have := hm.1
  omega

theorem blocksOf_lt (h : Tree d din m) : ∀ b ∈ blocksOf m, b < FSSIZE := by
  intro b hb
  rcases (mem_blocksOf h).1 hb with ⟨y, hy, rfl⟩
  exact (h.range y hy).2

/-- `itrunc` of a mapped file frees exactly its blocks and zeroes its addresses: the direct
slots first, then the three trees. -/
theorem itrunc_wp (h : Mapped U s ip m) (hi : (s.icache ip).inum < sb.ninodes) :
    wp (itrunc ip) s (fun _ s' => Emptied ip s (blocksOf m) s') E := by
  have hused : ∀ b ∈ blocksOf m, s.disk.used sb b = true := fun b hb =>
    (h.used b (blocksOf_lt h.tree b hb)).2 (.inr ((mem_blocksOf h.tree).1 hb))
  refine (wp_congr (itrunc_run h)).2 ?_
  rw [wp_bind]
  -- the blocks of the file are freed
  refine wp.mono (freeAll_wp h.sb (nodup_blocksOf h.tree) (blocksOf_lt h.tree) hused) ?_
    fun _ he => he
  rintro _ s2 ⟨hs2, hkeep, hbits⟩
  have hicache : s2.icache = s.icache := by rw [hs2]
  have hentry : (s2.setInode ip fun x => { x with din := Dinode.truncated x.din }).icache ip =
      { s.icache ip with din := (s.icache ip).din.truncated } := by
    rw [setInode_self, hicache]
  rw [wp_bind, setDin_wp]
  -- and the emptied inode is written back
  refine iupdate_wp (by rw [hs2]; exact h.sb) ?_
    ⟨by rw [hs2]; rfl, by rw [hs2]; rfl, by rw [hs2]; rfl, ?_, hentry, ?_, ?_, ?_, ?_⟩
  · rw [hentry]
    exact hi
  · intro j hj
    dsimp only
    rw [setInode_of_ne hj, hicache]
  · intro c hc hne
    refine (written_of_ne ?_).trans (hkeep c hc)
    rw [hentry]
    exact hne
  · intro c hc
    refine Eq.trans ?_ (hbits c)
    apply used_congr (d := s2.disk) _ hc
    intro b hb
    refine written_of_ne ?_
    rw [hentry]
    rintro rfl
    exact IBLOCK_notInMap hi hb
  -- its own place on disk, and those of the other inodes
  · have hself := @Disk.dinode_put_self s2.disk sb (s.icache ip).inum
      (s.icache ip).din.truncated
    unfold written
    dsimp only
    rw [hentry]
    exact hself
  · intro i hlt hne
    have hother := @Disk.dinode_put_ne s2.disk sb _ _ hne (s.icache ip).din.truncated
    unfold written
    dsimp only
    rw [hentry]
    refine hother.trans ?_
    unfold Disk.dinode
    rw [hkeep _ (IBLOCK_notInMap hlt)]

/-- An inode without blocks has the empty tree. -/
theorem mapped_empty (hsb : s.sb = sb) (hmeta : ∀ b, b < nmeta → s.disk.used sb b = true)
    (hzero : ∀ k, k < NDIRECT + 3 → (s.icache ip).din.addr k = 0) :
    Mapped (fun b => s.disk.used sb b = true) s ip fun _ => 0 where
  sb := hsb
  tree := by
    refine ⟨?_, fun _ h => absurd rfl h, fun _ h => absurd rfl h, fun _ _ h => absurd rfl h,
      fun _ h => absurd rfl h⟩
    rintro ⟨k, _ | ⟨i, p⟩⟩ hv hl
    · exact hzero k hv.slot
    · exact absurd rfl hl
  super := hmeta
  apart := fun _ h => absurd rfl h
  used := by
    intro b _
    refine ⟨.inl, ?_⟩
    rintro (h | ⟨y, hy, -⟩)
    · exact h
    · exact absurd rfl hy

/-- After any calls of `bmap` on an empty inode, `itrunc` frees the blocks that
they have taken, each of them once, and the free map and the inode are as before. -/
theorem itrunc_undoes_bmap {bns : List Nat} (hsb : s.sb = sb)
    (hmeta : ∀ b, b < nmeta → s.disk.used sb b = true) (hi : (s.icache ip).inum < sb.ninodes)
    (hzero : ∀ k, k < NDIRECT + 3 → (s.icache ip).din.addr k = 0)
    (hbn : ∀ bn ∈ bns, bn < MAXFILE) (hroom : (places bns).card ≤ s.disk.nfree) :
    Ends (bmapAll ip bns) s fun _ s1 => ∃ bs : List Nat, bs.Nodup ∧
      bs.length = (places bns).card ∧
      (∀ b, b < FSSIZE → (b ∈ bs ↔ s1.disk.used sb b = true ∧ s.disk.used sb b = false)) ∧
      (itrunc ip).run s1 = (do
        freeAll bs
        setDin ip Dinode.truncated
        iupdate ip : FM Unit).run s1 ∧
      Ends (itrunc ip) s1 fun _ s2 => (∀ c, InMap c → s2.disk c = s.disk c) ∧
        (∀ k, k < NDIRECT + 3 → (s2.icache ip).din.addr k = 0) ∧ (s2.icache ip).din.size = 0 ∧
        s2.disk.dinode sb (s.icache ip).inum = (s2.icache ip).din := by
  -- the inode has nothing mapped at first
  have h0 := @mapped_empty ip _ hsb hmeta hzero
  refine wp.mono (bmapAll_wp h0 hbn (fun _ h => absurd rfl h) (fun _ h => h) ?_) ?_ fun _ he => he
  · rw [room_used]
    exact hroom
  rintro _ s1 ⟨m, h, hframe, hm⟩
  have hm' : ∀ y, m y ≠ 0 ↔ y ∈ places bns := by
    intro y
    rw [hm]
    exact ⟨fun h => h.resolve_left fun h => h rfl, .inr⟩
  -- the blocks taken are those in use now and free before
  have hmem : ∀ b, b < FSSIZE →
      (b ∈ blocksOf m ↔ s1.disk.used sb b = true ∧ s.disk.used sb b = false) := by
    intro b hb
    rw [h.used b hb, mem_blocksOf h.tree]
    constructor
    · rintro ⟨y, hy, rfl⟩
      exact ⟨.inr ⟨y, hy, rfl⟩, Bool.not_eq_true _ ▸ h.apart y hy⟩
    · rintro ⟨h1 | h1, h2⟩
      · rw [h1] at h2
        cases h2
      · exact h1
  refine ⟨blocksOf m, nodup_blocksOf h.tree, ?_, hmem, itrunc_run h, ?_⟩
  · -- the blocks are the images of the places
    have himage : (blocksOf m).toFinset = (places bns).image m := by
      ext b
      rw [List.mem_toFinset, mem_blocksOf h.tree, Finset.mem_image]
      constructor
      · rintro ⟨y, hy, rfl⟩
        exact ⟨y, (hm' y).1 hy, rfl⟩
      · rintro ⟨y, hy, rfl⟩
        exact ⟨y, (hm' y).2 hy, rfl⟩
    rw [← List.toFinset_card_of_nodup (nodup_blocksOf h.tree), himage]
    apply Finset.card_image_of_injOn
    intro y hy z _ hyz
    exact h.tree.inj y z ((hm' y).2 hy) hyz
  · have hinum : (s1.icache ip).inum = (s.icache ip).inum := by rw [hframe.entry]
    rw [← hinum] at hi
    refine wp.mono (itrunc_wp h hi) ?_ fun _ he => he
    intro _ s2 h2
    have hdin : (s2.icache ip).din = (s1.icache ip).din.truncated := by rw [h2.entry]
    refine ⟨?_, ?_, ?_, ?_⟩
    -- the bitmap is the one from before: a block was taken and freed, or neither
    · intro c hc
      refine map_ext (fun b hb => ?_) hc
      rw [h2.used b hb]
      by_cases hbF : b < FSSIZE
      · by_cases hbm : b ∈ blocksOf m
        · rw [((hmem b hbF).1 hbm).2]
          simp [hbm]
        · have hiff := h.used b hbF
          rw [← mem_blocksOf h.tree] at hiff
          rw [Bool.eq_iff_iff, Bool.and_eq_true, hiff]
          simp [hbm]
      · have hbm : b ∉ blocksOf m := fun hb => hbF (blocksOf_lt h.tree b hb)
        rw [hframe.beyond b (Nat.not_lt.1 hbF) hb]
        simp [hbm]
    · intro k hk
      rw [hdin]
      exact Dinode.addr_truncated hk
    · rw [hdin]
      exact Dinode.size_truncated
    · rw [← hinum, hdin]
      exact h2.dinode

/-- A file system without files, and an inode without blocks in the cache. -/
def fresh : Kernel where
  disk := fun b => if b = sb.bmapstart then Mkfs.marked nmeta else zeroes
  sb := sb
  icache := fun _ => ⟨2, 1, true, true, Dinode.zero.setType T_FILE⟩
  ftable := fun _ => ⟨.FD_NONE, 0, false, false, none, 0⟩
  task := fun _ => ⟨none, fun _ => none⟩

/-- On a fresh disk the blocks of the file system itself are in use and no other. -/
theorem used_fresh (b : Nat) : fresh.disk.used sb b = decide (b < nmeta) := by
  have hmeta : nmeta = 739 := by decide
  have hbpb : BPB = 4096 := by decide
  unfold Disk.used fresh
  dsimp only
  by_cases hlt : b < BPB
  · have hblock : BBLOCK b sb = sb.bmapstart := by
      unfold BBLOCK
      rw [Nat.div_eq_of_lt hlt, Nat.zero_add]
    rw [if_pos hblock, Mkfs.getBit_marked (by omega), Nat.mod_eq_of_lt hlt]
  · have hblock : BBLOCK b sb ≠ sb.bmapstart := by
      have hdiv : 0 < b / BPB := Nat.div_pos (Nat.not_lt.1 hlt) (by decide)
      unfold BBLOCK
      omega
    have hzero : ∀ j, getBit zeroes j = false := by
      intro j
      unfold getBit byteAt
      split <;> exact Nat.zero_testBit _
    rw [if_neg hblock, hzero]
    simp
    omega

/-- How many blocks a fresh disk has free. -/
theorem nfree_fresh : fresh.disk.nfree = FSSIZE - nmeta := by
  have hfilter : ((Finset.range FSSIZE).filter fun b => fresh.disk.used sb b = false) =
      Finset.Ico nmeta FSSIZE := by
    ext b
    rw [Finset.mem_filter, Finset.mem_range, Finset.mem_Ico]
    constructor
    · rintro ⟨hb, hfree⟩
      rw [used_fresh _] at hfree
      exact ⟨Nat.not_lt.1 (of_decide_eq_false hfree), hb⟩
    · rintro ⟨hge, hb⟩
      rw [used_fresh _]
      exact ⟨hb, decide_eq_false (Nat.not_lt.2 hge)⟩
  unfold Disk.nfree
  rw [hfilter, Nat.card_Ico]

/-- One block of each tree. -/
theorem itrunc_undoes_bmap_fresh :
    Ends (bmapAll 0 [3, 16522, 10, 138]) fresh fun _ s1 => ∃ bs : List Nat, bs.Nodup ∧
      bs.length = (places [3, 16522, 10, 138]).card ∧
      (∀ b, b < FSSIZE → (b ∈ bs ↔ s1.disk.used sb b = true ∧ fresh.disk.used sb b = false)) ∧
      (itrunc 0).run s1 = (do
        freeAll bs
        setDin 0 Dinode.truncated
        iupdate 0 : FM Unit).run s1 ∧
      Ends (itrunc 0) s1 fun _ s2 => (∀ c, InMap c → s2.disk c = fresh.disk c) ∧
        (∀ k, k < NDIRECT + 3 → (s2.icache 0).din.addr k = 0) ∧ (s2.icache 0).din.size = 0 ∧
        s2.disk.dinode sb 2 = (s2.icache 0).din := by
  refine @itrunc_undoes_bmap 0 fresh _ rfl ?_ (by decide) ?_ (by decide) ?_
  · intro b hb
    rw [used_fresh _]
    exact decide_eq_true hb
  · intro k hk
    show (Dinode.zero.setType T_FILE).addr k = 0
    rw [Dinode.addr_setType, Dinode.zero_addr]
  · rw [nfree_fresh]
    decide

end Xv6.Fs
