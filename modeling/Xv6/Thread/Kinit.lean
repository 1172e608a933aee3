import Mathlib.Data.List.Perm.Subperm
import Xv6.Thread.Boot

/-!
# The pages of the machine

`kinit1`, `kinit2` and `freerange` of `kalloc.c`, as `main` calls them. Between the
two, the kernel page table and the stacks of the other processors are taken from
what the first has freed. The memory that `userinit` starts from is what comes of this.

`kinit_boots` says for every kernel that ends below 4 MB that the pages taken and
the free pages are just the frames between its end and `PHYSTOP`, each of them
once, and that the memory is one to boot from (`Booted`). How many pages are taken
in between is a parameter, since it depends on the machine.
-/

namespace Xv6.Thread

open Xv6.Lib Prog

/-! ## The code -/

/-- The loop of `freerange` from page `p` on, for `n` pages at most. -/
def freeFrom (vend : Nat) : Nat → Nat → KM Unit
  | 0, _ => return ()
  | n + 1, p => do
      if p + PGSIZE ≤ vend then
        kfree p
        freeFrom vend n (p + PGSIZE)

def freerange (vstart vend : Nat) : KM Unit :=
  freeFrom vend (vend / PGSIZE) (PGROUNDUP vstart)

def kinit1 (vstart vend : Nat) : KM Unit := freerange vstart vend

def kinit2 (vstart vend : Nat) : KM Unit := freerange vstart vend

/-- `n` calls of `kalloc`, and the pages that they get. -/
def takePages : Nat → KM (List Nat)
  | 0 => return []
  | n + 1 => do
      match ← kalloc with
      | none => takePages n
      | some r => return r :: (← takePages n)

/-- The start of `main`; `n` pages are taken before `kinit2`. -/
def mainMemory (n : Nat) : KM (List Nat) := do
  let m ← get
  kinit1 m.kend (P2V (4 * 1024 * 1024))
  let taken ← takePages n
  kinit2 (P2V (4 * 1024 * 1024)) (P2V PHYSTOP)
  return taken

/-! ## What it frees -/

variable {m : Kmem} {vend n p : Nat}

/-- `kfree` of a page above the kernel puts it on the list. -/
theorem kfree_free {v : Nat} (hv : v % PGSIZE = 0) (hend : m.kend ≤ v) (hlt : V2P v < PHYSTOP) :
    Ends (kfree v) m fun _ m' => m'.kend = m.kend ∧ m'.pages = v :: m.pages := by
  unfold kfree
  rw [Ends, wp_bind, wp_get]
  have hok : ¬(v % PGSIZE ≠ 0 ∨ v < m.kend ∨ PHYSTOP ≤ V2P v) := by omega
  rw [dif_neg hok, wp_set]
  exact ⟨rfl, rfl⟩

/-- The frames of `[p, vend)` that the loop reaches. -/
def frames (p vend a : Nat) : Prop := a % PGSIZE = 0 ∧ p ≤ a ∧ a + PGSIZE ≤ vend

/-- Each whole page of the range is freed once. -/
theorem freeFrom_frees (hp : p % PGSIZE = 0) (hend : m.kend ≤ p) (hbase : KERNBASE ≤ p)
    (hvend : vend ≤ P2V PHYSTOP) (hn : vend < p + (n + 1) * PGSIZE) :
    Ends (freeFrom vend n p) m fun _ m' => m'.kend = m.kend ∧
      ∃ l : List Nat, m'.pages = l ++ m.pages ∧ l.Nodup ∧ ∀ a, a ∈ l ↔ frames p vend a := by
  induction n generalizing m p with
  | zero =>
      refine (wp_pure ..).2 ⟨rfl, [], rfl, List.nodup_nil, fun a => ?_⟩
      simp only [frames, List.not_mem_nil, false_iff]
      simp only [PGSIZE] at *
      omega
  | succ n ih =>
      unfold freeFrom
      by_cases hmore : p + PGSIZE ≤ vend
      -- one page more fits: it goes on the list, behind it those above
      · rw [if_pos hmore, Ends, wp_bind]
        have hlt : V2P p < PHYSTOP := by
          simp only [V2P, P2V, PGSIZE, PHYSTOP, KERNBASE] at *
          omega
        refine (kfree_free hp hend hlt).mono ?_
        rintro - m1 ⟨hk, hpages⟩
        have hp' : (p + PGSIZE) % PGSIZE = 0 := by
          simp only [PGSIZE] at *
          omega
        refine (ih hp' (hk ▸ le_trans hend (Nat.le_add_right ..))
          (le_trans hbase (Nat.le_add_right ..)) ?_).mono ?_
        · simp only [PGSIZE] at *
          omega
        rintro - m2 ⟨hk2, l, hl, hnd, hmem⟩
        refine ⟨hk2.trans hk, l ++ [p], ?_, ?_, ?_⟩
        · rw [hl, hpages, List.append_assoc]
          rfl
        · refine List.nodup_append'.2 ⟨hnd, List.nodup_singleton p, ?_⟩
          intro a ha hap
          rw [List.mem_singleton.1 hap, hmem] at ha
          have := ha.2.1
          simp only [PGSIZE] at this
          omega
        · intro a
          rw [List.mem_append, hmem, List.mem_singleton]
          simp only [frames, PGSIZE] at *
          omega
      -- no whole page is left
      · rw [if_neg hmore]
        refine (wp_pure ..).2 ⟨rfl, [], rfl, List.nodup_nil, fun a => ?_⟩
        simp only [frames, List.not_mem_nil, false_iff]
        omega

/-- The first whole page. -/
theorem PGROUNDUP_spec {v : Nat} (hv : v ≤ P2V PHYSTOP) :
    PGROUNDUP v % PGSIZE = 0 ∧ v ≤ PGROUNDUP v ∧
      ∀ a, a % PGSIZE = 0 → (PGROUNDUP v ≤ a ↔ v ≤ a) := by
  unfold PGROUNDUP pgUp
  simp only [P2V, PGSIZE, PHYSTOP, KERNBASE] at *
  refine ⟨by omega, by omega, ?_⟩
  intro a ha
  omega

/-- `freerange` puts its pages on the list, one by one. -/
theorem freerange_frees {vstart : Nat} (hend : m.kend ≤ vstart) (hbase : KERNBASE ≤ vstart)
    (hstart : vstart ≤ P2V PHYSTOP) (hvend : vend ≤ P2V PHYSTOP) :
    Ends (freerange vstart vend) m fun _ m' => m'.kend = m.kend ∧
      ∃ l : List Nat, m'.pages = l ++ m.pages ∧ l.Nodup ∧ ∀ a, a ∈ l ↔ frames vstart vend a := by
  rcases PGROUNDUP_spec hstart with ⟨hmod, hle, hfirst⟩
  refine (freeFrom_frees hmod (le_trans hend hle) (le_trans hbase hle) hvend ?_).mono ?_
  · have := Nat.div_add_mod vend PGSIZE
    simp only [PGSIZE] at *
    omega
  rintro - m' ⟨hk, l, hl, hnd, hmem⟩
  refine ⟨hk, l, hl, hnd, fun a => ?_⟩
  rw [hmem]
  constructor
  · rintro ⟨h0, h1, h2⟩
    exact ⟨h0, (hfirst a h0).1 h1, h2⟩
  · rintro ⟨h0, h1, h2⟩
    exact ⟨h0, (hfirst a h0).2 h1, h2⟩

/-- The pages taken are the first of the free list. -/
theorem takePages_takes (n : Nat) : Ends (takePages n) m fun taken m' => m'.kend = m.kend ∧
    m.pages = taken ++ m'.pages := by
  induction n generalizing m with
  | zero => exact (wp_pure ..).2 ⟨rfl, rfl⟩
  | succ n ih =>
      unfold takePages
      rw [Ends, wp_bind]
      refine kalloc_took (fun _ => ih) fun r m1 h => ?_
      rw [wp_bind]
      refine ih.mono ?_
      rintro taken m' ⟨hk, hpages⟩
      refine (wp_pure ..).2 ⟨hk.trans h.kend, ?_⟩
      rw [h.pages, hpages]
      rfl

/-- `main` makes the memory that everything starts from: the pages taken and the free pages
together are the frames between the end of the kernel and `PHYSTOP`, each of them once. -/
theorem kinit_boots (m : Kmem) (n : Nat) (hm : m.freelist = []) (hbase : KERNBASE ≤ m.kend)
    (hend : m.kend ≤ P2V (4 * 1024 * 1024)) :
    Ends (mainMemory n) m fun taken m' => Booted m' ∧ (taken ++ m'.pages).Nodup ∧
      ∀ a, a ∈ taken ++ m'.pages ↔ a % PGSIZE = 0 ∧ m.kend ≤ a ∧ V2P a < PHYSTOP ∧
        KERNBASE ≤ a := by
  have hmid : P2V (4 * 1024 * 1024) ≤ P2V PHYSTOP := by decide
  have hnil : m.pages = [] := by
    unfold Kmem.pages
    rw [hm]
    rfl
  unfold mainMemory
  rw [Ends, wp_bind, wp_get, wp_bind]
  refine (freerange_frees (le_refl _) hbase (le_trans hend hmid) hmid).mono ?_
  rintro - m1 ⟨hk1, l1, hl1, hnd1, hmem1⟩
  rw [wp_bind]
  refine (takePages_takes n).mono ?_
  rintro taken m2 ⟨hk2, hl2⟩
  rw [wp_bind]
  have hend2 : m2.kend ≤ P2V (4 * 1024 * 1024) := by
    rw [hk2, hk1]
    exact hend
  have hbase2 : KERNBASE ≤ P2V (4 * 1024 * 1024) := by decide
  refine (freerange_frees hend2 hbase2 hmid (le_refl _)).mono ?_
  rintro - m3 ⟨hk3, l2, hl3, hnd2, hmem2⟩
  refine (wp_pure ..).2 ?_
  rw [hnil, List.append_nil] at hl1
  rw [hl2] at hl1
  -- what `kinit1` has freed lies below 4 MB, what `kinit2` has freed above
  have hperm : (taken ++ m3.pages).Perm (l2 ++ l1) := by
    rw [hl3, ← hl1, ← List.append_assoc, ← List.append_assoc]
    exact List.perm_append_comm.append_right _
  have hnd : (l2 ++ l1).Nodup := by
    refine List.nodup_append'.2 ⟨hnd2, hnd1, ?_⟩
    intro a ha2 ha1
    have h2 := (hmem2 a).1 ha2
    have h1 := (hmem1 a).1 ha1
    simp only [frames, PGSIZE] at h1 h2
    omega
  have hmem : ∀ a, a ∈ taken ++ m3.pages ↔
      a % PGSIZE = 0 ∧ m.kend ≤ a ∧ V2P a < PHYSTOP ∧ KERNBASE ≤ a := by
    intro a
    rw [hperm.mem_iff, List.mem_append, hmem1, hmem2]
    simp only [frames, V2P, P2V, PGSIZE, PHYSTOP, KERNBASE] at *
    omega
  have hnd3 : (taken ++ m3.pages).Nodup := hperm.nodup_iff.2 hnd
  refine ⟨⟨?_, ?_, ?_⟩, hnd3, hmem⟩
  · intro v hv
    have hin := (hmem v.1).1 (List.mem_append_right _ (List.mem_map_of_mem hv))
    exact ⟨hin.1, hin.2.2.1⟩
  · exact List.Nodup.of_map _ (List.nodup_append'.1 hnd3).2.1
  · -- the pages above 4 MB are as many as their numbers
    have hsub : (List.range ((PHYSTOP - 4 * 1024 * 1024) / PGSIZE)).map
        (fun k => P2V (4 * 1024 * 1024) + k * PGSIZE) ⊆ l2 := by
      intro a ha
      rcases List.mem_map.1 ha with ⟨k, hk, rfl⟩
      rw [hmem2]
      have hk := List.mem_range.1 hk
      simp only [frames, P2V, PGSIZE, PHYSTOP, KERNBASE] at *
      omega
    have hnodup : ((List.range ((PHYSTOP - 4 * 1024 * 1024) / PGSIZE)).map
        (fun k => P2V (4 * 1024 * 1024) + k * PGSIZE)).Nodup := by
      refine List.Nodup.map ?_ List.nodup_range
      intro j k hjk
      simp only [PGSIZE] at hjk
      omega
    have hlen := (List.subperm_of_subset hnodup hsub).length_le
    rw [List.length_map, List.length_range] at hlen
    have hpages : m3.pages.length = m3.freelist.length := List.length_map _
    rw [← hpages, hl3, List.length_append]
    omega

/-- A kernel that ends at 1 MB, and three processors. -/
theorem kinit_boots_three : ∃ m : Kmem, m.kend = KERNBASE + 1024 * 1024 ∧
    Ends (mainMemory 200) m fun taken m' => Booted m' ∧ (taken ++ m'.pages).Nodup := by
  have hpos : 0 < KERNBASE + 1024 * 1024 := by decide
  refine ⟨⟨KERNBASE + 1024 * 1024, hpos, []⟩, rfl, ?_⟩
  have hbase : KERNBASE ≤ KERNBASE + 1024 * 1024 := by decide
  have hend : KERNBASE + 1024 * 1024 ≤ P2V (4 * 1024 * 1024) := by decide
  refine (kinit_boots ⟨KERNBASE + 1024 * 1024, hpos, []⟩ 200 rfl hbase hend).mono ?_
  exact fun _ _ h => ⟨h.1, h.2.1⟩

end Xv6.Thread
