import Xv6.Fs.Trunc
import Xv6.Lib.Transition

/-!
# bmap is a stable injection

The calls of `bmap` on one inode as a transition system, from an inode without
blocks. What a call returns is read off the pointers themselves, by `blockAt`, which
follows them from `addrs[]` down; that the calls may come in any order is the
invariant `Mapped`, kept by every one of them.

`bmap_stable_injection` says of every reachable state that a block number that has
been asked for keeps its block, that two of them have different blocks, and that
the entries of the four trees and the block numbers below `MAXFILE` belong to each
other one to one. Running out of blocks ends a run, by the panic of `balloc`.
-/

namespace Xv6.Fs

open Xv6.Lib Prog
open Mkfs (sb nmeta)

variable {d : Disk} {din : Dinode} {m : Node → Nat} {x y : Node} {U : Nat → Prop} {ip : Entry}
  {s s' : Kernel} {bn : Nat}

/-! ## Pointers -/

/-- Follow the indices of a path, the last one first, from `addrs[k]`; 0 where a
pointer on the way is missing. -/
def blockOn (d : Disk) (din : Dinode) (k : Nat) : List Nat → Nat
  | [] => din.addr k
  | i :: p => if blockOn d din k p = 0 then 0 else word (d (blockOn d din k p)) i

/-- The block at a place of the inode in `ip`. -/
def blockAt (s : Kernel) (ip : Entry) (x : Node) : Nat :=
  blockOn s.disk (s.icache ip).din x.slot x.path

/-- Walking the disk from an address gives what the map says of the node. -/
theorem Tree.blockOn_eq (h : Tree d din m) (k : Nat) (p : List Nat) (hv : (⟨k, p⟩ : Node).Valid) :
    blockOn d din k p = m ⟨k, p⟩ := by
  induction p with
  | nil => exact h.ptr _ hv trivial
  | cons i p ih =>
      unfold blockOn
      rw [ih hv.up]
      by_cases h0 : m ⟨k, p⟩ = 0
      · rw [if_pos h0]
        exact (h.child_zero h0 i).symm
      · rw [if_neg h0]
        exact h.ptr ⟨k, i :: p⟩ hv h0

theorem Mapped.blockAt_eq (h : Mapped U s ip m) (hv : x.Valid) : blockAt s ip x = m x :=
  h.tree.blockOn_eq x.slot x.path hv

/-- A place on the way to a valid one is valid. -/
theorem Node.Valid.above (hv : x.Valid) (h : y.Above x) : y.Valid where
  slot := h.1 ▸ hv.slot
  length := by
    rw [h.1]
    exact Nat.le_trans h.2.length_le hv.length
  index := fun i hi => hv.index i (h.2.mem hi)

/-! ## Data blocks and places -/

/-- Every entry of the four trees is that of one block number. -/
theorem leaf_number (hv : x.Valid) (hl : x.Leaf) : x.number < MAXFILE ∧ leaf x.number = x := by
  rcases x with ⟨k, p⟩
  have hk : k < NDIRECT + 3 := hv.slot
  have hlen : p.length = k + 1 - NDIRECT := hl
  have hidx : ∀ i ∈ p, i < NINDIRECT := hv.index
  have hn : NINDIRECT = 128 := by decide
  have h2 : NDINDIRECT = 128 * 128 := by decide
  have h3 : NTINDIRECT = 128 * 128 * 128 := by decide
  unfold MAXFILE leaf Node.number
  rcases p with _ | ⟨i, _ | ⟨j, _ | ⟨l, p⟩⟩⟩
  -- a direct block
  · have hlt : k < NDIRECT := by
      rw [List.length_nil] at hlen
      omega
    dsimp only
    rw [if_pos hlt]
    exact ⟨by omega, rfl⟩
  -- one index
  · have hi := hidx i (by simp)
    have hkk : k = NDIRECT := by
      rw [List.length_singleton] at hlen
      omega
    subst hkk
    dsimp only
    rw [if_neg (by omega), if_pos (by omega), Nat.add_sub_cancel_left]
    exact ⟨by omega, rfl⟩
  -- two indices: the number in base 128
  · have hi := hidx i (by simp)
    have hj := hidx j (by simp)
    have hkk : k = NDIRECT + 1 := by
      simp only [List.length_cons, List.length_nil] at hlen
      omega
    subst hkk
    dsimp only
    rw [hn] at hi hj ⊢
    have hdiv : (128 * j + i) / 128 = j := by omega
    have hmod : (128 * j + i) % 128 = i := by omega
    rw [if_neg (by omega), if_neg (by omega), if_pos (by omega),
      show NDIRECT + 128 + (128 * j + i) - NDIRECT - 128 = 128 * j + i by omega, hdiv, hmod]
    exact ⟨by omega, rfl⟩
  -- three indices
  · have hi := hidx i (by simp)
    have hj := hidx j (by simp)
    have hlast := hidx l (by simp)
    simp only [List.length_cons] at hlen
    have hp : p = [] := by
      rw [← List.length_eq_zero_iff]
      omega
    subst hp
    have hkk : k = NDIRECT + 1 + 1 := by
      rw [List.length_nil] at hlen
      omega
    subst hkk
    dsimp only
    rw [hn] at hi hj hlast ⊢
    have hhigh : (128 * 128 * l + (128 * j + i)) / (128 * 128) = l := by omega
    have hlow : (128 * 128 * l + (128 * j + i)) % (128 * 128) = 128 * j + i := by omega
    have hdiv : (128 * j + i) / 128 = j := by omega
    have hmod : (128 * j + i) % 128 = i := by omega
    rw [if_neg (by omega), if_neg (by omega), if_neg (by omega),
      show NDIRECT + 128 + NDINDIRECT + (128 * 128 * l + (128 * j + i)) - NDIRECT - 128 -
        NDINDIRECT = 128 * 128 * l + (128 * j + i) by omega, hhigh, hlow, hdiv, hmod]
    exact ⟨by omega, rfl⟩

/-! ## Calls -/

/-- An inode without blocks, in a file system whose free map marks the metadata. -/
structure NoBlocks (ip : Entry) (s : Kernel) : Prop where
  sb : s.sb = Mkfs.sb
  super : ∀ b, b < nmeta → s.disk.used Mkfs.sb b = true
  zero : ∀ k, k < NDIRECT + 3 → (s.icache ip).din.addr k = 0

/-- One call of `bmap(ip, bn)`. -/
def bmapNext (ip : Entry) (s : Kernel) (bn : Nat) : Option Kernel :=
  if bn < MAXFILE then
    match (bmap ip bn).run s with
    | .ok (_, s') => some s'
    | .error _ => none
  else none

/-- `bmap(ip, bn)` has returned `b`: a block that was there, or a new one; the blocks
that were missing on the way have been allocated, and nothing else. -/
structure Found (ip : Entry) (s : Kernel) (bn b : Nat) (s' : Kernel) : Prop where
  ne_zero : b ≠ 0
  here : blockAt s' ip (leaf bn) = b
  keep : ∀ y : Node, y.Valid → blockAt s ip y ≠ 0 → blockAt s' ip y = blockAt s ip y
  fresh : ∀ y : Node, y.Above (leaf bn) → blockAt s ip y = 0 →
    blockAt s' ip y ≠ 0 ∧ s.disk.used sb (blockAt s' ip y) = false
  used : ∀ c, c < FSSIZE → (s'.disk.used sb c = true ↔ s.disk.used sb c = true ∨
    ∃ y : Node, y.Above (leaf bn) ∧ blockAt s ip y = 0 ∧ blockAt s' ip y = c)

/-- What holds of the calls of `bmap` in state `s`, and of those that come later. -/
structure StableInjection (ip : Entry) (s : Kernel) : Prop where
  call : ∀ bn b s1, bn < MAXFILE → (bmap ip bn).run s = .ok (b, s1) → Found ip s bn b s1
  stable : ∀ bn b s1, bn < MAXFILE → (bmap ip bn).run s = .ok (b, s1) →
    ∀ s2, Reachable (fun t => t = s1) (bmapNext ip) s2 → (bmap ip bn).run s2 = .ok (b, s2)
  injective : ∀ bn b s1, bn < MAXFILE → (bmap ip bn).run s = .ok (b, s1) →
    ∀ s2, Reachable (fun t => t = s1) (bmapNext ip) s2 → ∀ bn' b' s3, bn' < MAXFILE →
      bn' ≠ bn → (bmap ip bn').run s2 = .ok (b', s3) → b' ≠ b
  apart : ∀ x y : Node, x.Valid → y.Valid → blockAt s ip x ≠ 0 →
    blockAt s ip x = blockAt s ip y → x = y
  stops : ∀ bn e, bn < MAXFILE → (bmap ip bn).run s = .error e →
    e = .panic "balloc: out of blocks"

theorem Mapped.call (h : Mapped U s ip m) (hbn : bn < MAXFILE) :
    wp (bmap ip bn) s (fun b s1 => ∃ m1, Grown U ip s m (leaf bn) s1 m1 ∧ b = m1 (leaf bn))
      fun e => e = .panic "balloc: out of blocks" :=
  bmap_wp h hbn fun _ => rfl

/-- A tree is there, and has every block that the tree `m0` has. -/
def Extends (U : Nat → Prop) (ip : Entry) (m0 : Node → Nat) (s : Kernel) : Prop :=
  ∃ m, Mapped U s ip m ∧ ∀ y, m0 y ≠ 0 → m y = m0 y

/-- A `bmap` call extends the map and changes nothing that was mapped. -/
theorem Extends.step {m0 : Node → Nat} (h : Extends U ip m0 s) (hs : bmapNext ip s bn = some s') :
    Extends U ip m0 s' := by
  rcases h with ⟨m, hm, hkeep⟩
  unfold bmapNext at hs
  split at hs
  · next hbn =>
    split at hs
    · next b s1 hrun =>
      cases hs
      rcases wp.of_ok (hm.call hbn) hrun with ⟨m1, h1, -⟩
      refine ⟨m1, h1.mapped, ?_⟩
      intro y hy
      rw [← hkeep y hy]
      apply h1.keep
      rwa [hkeep y hy]
    · cases hs
  · cases hs

/-- A run of `bmap` calls extends the map it starts with. -/
theorem Extends.run {m0 : Node → Nat} {s1 s2 : Kernel} (h : Extends U ip m0 s1)
    (hr : Reachable (fun t => t = s1) (bmapNext ip) s2) : Extends U ip m0 s2 := by
  refine hr.invariant (Extends U ip m0) ?_ ?_
  · rintro _ rfl
    exact h
  · intro t bn t' ht _ hs
    exact ht.step hs

/-- Every reachable state extends the empty map. -/
theorem reachable_extends (hr : Reachable (NoBlocks ip) (bmapNext ip) s) :
    ∃ U, Extends U ip (fun _ => 0) s := by
  refine hr.invariant (fun s => ∃ U, Extends U ip (fun _ => 0) s) ?_ ?_
  · intro t ht
    exact ⟨_, _, mapped_empty ht.sb ht.super ht.zero, fun _ h => absurd rfl h⟩
  · rintro t bn t' ⟨U, ht⟩ _ hs
    exact ⟨U, ht.step hs⟩

/-- After `bmap` grew the map, the block of its leaf is found on disk, and asking again
gives it again. -/
theorem Grown.found {s1 : Kernel} {m1 : Node → Nat} (h : Mapped U s ip m)
    (h1 : Grown U ip s m (leaf bn) s1 m1) (hbn : bn < MAXFILE) :
    Found ip s bn (m1 (leaf bn)) s1 := by
  have hv := leaf_valid hbn
  have hway : ∀ y : Node, y.Above (leaf bn) → blockAt s ip y = m y ∧ blockAt s1 ip y = m1 y :=
    fun y hy => ⟨h.blockAt_eq (hv.above hy), h1.mapped.blockAt_eq (hv.above hy)⟩
  constructor
  · exact h1.here
  · exact h1.mapped.blockAt_eq hv
  · intro y hy hne
    rw [h.blockAt_eq hy] at hne ⊢
    rw [h1.mapped.blockAt_eq hy]
    exact h1.keep y hne
  -- a new node has a block that was not in use
  · intro y hy h0
    rw [(hway y hy).1] at h0
    rw [(hway y hy).2]
    have hne : m1 y ≠ 0 := h1.mapped.tree.up h1.here hy
    refine ⟨hne, ?_⟩
    by_contra hused
    rw [Bool.not_eq_false, h.used _ (h1.mapped.tree.range y hne).2] at hused
    rcases hused with hU | ⟨z, hz, hzy⟩
    · exact h1.mapped.apart y hne hU
    · -- the block of an old place is not that of a new one
      obtain rfl : z = y := by
        apply h1.mapped.tree.inj
        · rwa [h1.keep z hz]
        · rw [h1.keep z hz, hzy]
      exact hz h0
  -- the blocks in use: those of before and those on the way to the leaf
  · intro c hc
    rw [h1.mapped.used c hc, h.used c hc, or_assoc]
    refine or_congr_right ⟨?_, ?_⟩
    · rintro ⟨y, hy, rfl⟩
      by_cases h0 : m y = 0
      · have hab := h1.new y h0 hy
        refine .inr ⟨y, hab, ?_, (hway y hab).2⟩
        rw [(hway y hab).1, h0]
      · exact .inl ⟨y, h0, (h1.keep y h0).symm⟩
    · rintro (⟨y, hy, rfl⟩ | ⟨y, hab, -, rfl⟩)
      · exact ⟨y, by rwa [h1.keep y hy], h1.keep y hy⟩
      · rw [(hway y hab).2]
        exact ⟨y, h1.mapped.tree.up h1.here hab, rfl⟩

/-- In every reachable state `bmap` gives different blocks for different numbers, and each
one again when asked again. -/
theorem stableInjection (hr : Reachable (NoBlocks ip) (bmapNext ip) s) : StableInjection ip s := by
  rcases reachable_extends hr with ⟨U, m, h, -⟩
  constructor
  -- the block is found on disk
  · intro bn b s1 hbn hrun
    rcases wp.of_ok (h.call hbn) hrun with ⟨m1, h1, rfl⟩
    exact h1.found h hbn
  -- it is given again, and nothing changes then
  · intro bn b s1 hbn hrun s2 hr2
    rcases wp.of_ok (h.call hbn) hrun with ⟨m1, h1, rfl⟩
    rcases Extends.run ⟨m1, h1.mapped, fun _ _ => rfl⟩ hr2 with ⟨m2, h2, hkeep⟩
    have hhere := hkeep _ h1.here
    have hold : Ends (bmap ip bn) s2 fun r s3 => r = m2 (leaf bn) ∧ s3 = s2 := by
      refine bmap_old h2 hbn ?_
      rw [hhere]
      exact h1.here
    rcases hold.exists with ⟨r, s3, hrun2, rfl, rfl⟩
    rw [hrun2, hhere]
  -- another number has another leaf, and so another block
  · intro bn b s1 hbn hrun s2 hr2 bn' b' s3 hbn' hne hrun2 heq
    rcases wp.of_ok (h.call hbn) hrun with ⟨m1, h1, rfl⟩
    rcases Extends.run ⟨m1, h1.mapped, fun _ _ => rfl⟩ hr2 with ⟨m2, h2, hkeep⟩
    rcases wp.of_ok (h2.call hbn') hrun2 with ⟨m3, h3, rfl⟩
    have hhere : m3 (leaf bn) = m1 (leaf bn) := by
      have h12 := hkeep _ h1.here
      rw [← h12]
      apply h3.keep
      rw [h12]
      exact h1.here
    apply hne
    apply leaf_inj
    exact h3.mapped.tree.inj _ _ h3.here (heq.trans hhere.symm)
  · intro x y hx hy hne heq
    rw [h.blockAt_eq hx] at hne heq
    rw [h.blockAt_eq hy] at heq
    exact h.tree.inj x y hne heq
  · intro bn e hbn hrun
    have hstop := wp.of_error (h.call hbn) hrun
    exact hstop

/-- **bmap is a stable injection**, in every state that calls of it reach from an inode
without blocks; and each entry of the four trees is reached by one block number, with
indices inside the blocks. -/
theorem bmap_stable_injection (hr : Reachable (NoBlocks ip) (bmapNext ip) s) :
    StableInjection ip s ∧ (∀ bn, bn < MAXFILE → (leaf bn).Valid ∧ (leaf bn).Leaf) ∧
      ∀ x : Node, x.Valid → x.Leaf → ∃! bn, bn < MAXFILE ∧ leaf bn = x := by
  refine ⟨stableInjection hr, fun bn hbn => ⟨leaf_valid hbn, leaf_isLeaf bn⟩, fun x hv hl => ?_⟩
  rcases leaf_number hv hl with ⟨hlt, hx⟩
  refine ⟨x.number, ⟨hlt, hx⟩, ?_⟩
  rintro bn ⟨-, hbn⟩
  exact leaf_inj (hbn.trans hx.symm)

/-- The first call finds a block, and the same call again. -/
theorem bmap_stable_injection_first : ∃ b s1, (bmap 0 16522).run fresh = .ok (b, s1) ∧ b ≠ 0 ∧
    (bmap 0 16522).run s1 = .ok (b, s1) := by
  have h0 : NoBlocks 0 fresh := by
    refine ⟨rfl, ?_, ?_⟩
    · intro b hb
      rw [used_fresh _]
      exact decide_eq_true hb
    · intro k hk
      show (Dinode.zero.setType T_FILE).addr k = 0
      rw [Dinode.addr_setType, Dinode.zero_addr]
  have hends : Ends (bmapAll 0 [16522]) fresh fun _ _ => True := by
    refine Ends.mono (bmapAll_wp (mapped_empty h0.sb h0.super h0.zero) (by decide)
      (fun _ h => absurd rfl h) (fun _ h => h) ?_) fun _ _ _ => trivial
    rw [room_used, nfree_fresh]
    decide
  have hone : Ends (bmap 0 16522) fresh fun _ _ => True := by
    unfold bmapAll Ends at hends
    rw [wp_bind] at hends
    exact wp.mono hends (fun _ _ _ => trivial) fun _ he => he
  rcases hone.exists with ⟨b, s1, hrun, -⟩
  have h := (bmap_stable_injection (.init h0)).1
  exact ⟨b, s1, hrun, (h.call _ b s1 (by decide) hrun).ne_zero,
    h.stable _ b s1 (by decide) hrun s1 (.init rfl)⟩

end Xv6.Fs
