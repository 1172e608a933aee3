import Xv6.Thread.Spec

/-!
# The image that exec builds

Page by page: whatever the program headers say, exactly the pages below the
size are mapped, and the stack with its guard page comes last.

`loadProgram_image` is the loop over the program headers, `pushStack_wp` the new
stack, and `buildImage_image` and `newImage_image` the two together. They assume
nothing of the file: what the checks of `exec.c` let through may overlap, leave
pages out or wrap around, and still `allocuvm` maps from one size to the next.
-/

namespace Xv6.Thread

open Xv6.Lib Prog

/-- Exactly the pages of `[0, sz)` are mapped. -/
structure Image (pd : PageDir) (sz : Nat) : Prop where
  sz_lt : sz < KERNBASE
  has : ∀ v, pd.Has v ↔ v < pages sz

/-- An image that grows by whole pages is an image. -/
theorem Image.grown {pd pd' : PageDir} {a sz newsz : Nat} (h : Image pd sz)
    (hg : Grown pd pd' a newsz) (ha : pgUp a = pages sz) (hle : pages sz ≤ pages newsz)
    (hlt : newsz < KERNBASE) : Image pd' newsz where
  sz_lt := hlt
  has := fun v => by
    refine ⟨fun hv => ?_, hg.full ha (fun v hv => (h.has v).2 hv) v⟩
    by_cases hr : InRange a newsz v
    · exact lt_pages.2 hr.2
    · unfold PageDir.Has at hv
      rw [hg.same v hr] at hv
      have := (h.has v).1 hv
      omega

theorem Image.congr {pd pd' : PageDir} {sz : Nat} (h : Image pd sz)
    (hpd : ∀ v, pd'.Has v ↔ pd.Has v) : Image pd' sz where
  sz_lt := h.sz_lt
  has := fun v => (hpd v).trans (h.has v)

/-- `loaduvm` fills pages and maps none. -/
theorem loaduvm_wp {pd : PageDir} {ph : ProgHdr} {m : Kmem} {Q : Bool → Kmem → Prop}
    (h : ∀ b, Q b m) : wp (loaduvm pd ph) m Q fun _ => True := by
  have hfrom : ∀ n i, wp (loadFrom pd ph n i) m Q fun _ => True := by
    intro n
    induction n with
    | zero => exact fun i => (wp_pure ..).2 (h _)
    | succ n ih =>
        intro i
        unfold loadFrom
        rw [wp_bind]
        refine walkpgdir_look fun found _ => ?_
        refine wp_ite (fun _ => (wp_throw ..).2 trivial) fun _ => ?_
        exact wp_ite (fun _ => (wp_pure ..).2 (h _)) fun _ => ih _
  unfold loaduvm
  exact wp_ite (fun _ => (wp_throw ..).2 trivial) fun _ => hfrom _ _

/-- Loading the segments one after the other. By induction on the headers. -/
theorem loadProgram_image {phs : List (Option ProgHdr)} {pd : PageDir} {sz : Nat} {m : Kmem}
    (h : Image pd sz) :
    wp (loadProgram phs pd sz) m (fun r _ => ∀ sz', r.2 = some sz' → Image r.1 sz')
      fun _ => True := by
  induction phs generalizing pd sz m with
  | nil =>
      refine (wp_pure ..).2 fun sz' hs => ?_
      cases hs
      exact h
  | cons ph phs ih =>
      cases ph with
      -- a header that cannot be read
      | none => exact (wp_pure ..).2 (by simp)
      -- a segment: the image grows up to its end, page-aligned or not at all
      | some ph =>
          unfold loadProgram
          refine wp_ite (fun _ => ih h) fun _ => ?_
          refine wp_ite (fun _ => (wp_pure ..).2 (by simp)) fun _ => ?_
          refine wp_ite (fun _ => (wp_pure ..).2 (by simp)) fun _ => ?_
          rw [wp_bind]
          refine wp.mono allocuvm_any (fun r m1 hr => ?_) fun _ _ => trivial
          rcases r with ⟨pd1, sz1⟩
          refine wp_ite (fun _ => (wp_pure ..).2 (by simp)) fun hsz1 => ?_
          refine wp_ite (fun _ => (wp_pure ..).2 (by simp)) fun _ => ?_
          rw [wp_bind]
          refine loaduvm_wp fun b => ?_
          refine wp_ite (fun _ => (wp_pure ..).2 (by simp)) fun _ => ih ?_
          rcases hr with ⟨hle, hlt, h2, hg⟩ | ⟨-, heq⟩ | ⟨h0, -⟩
          · dsimp only at h2 hg
            subst h2
            have hsz := h.sz_lt
            refine h.grown hg (pgUp_eq (by omega)) ?_ hlt
            unfold pages
            exact Nat.div_le_div_right (by omega)
          · cases heq
            exact h
          · exact absurd h0 hsz1

/-- The strings go to pages that are there. -/
theorem pushArgs_wp {pd : PageDir} {argv : List Nat} {n sp : Nat} {m : Kmem}
    {Q : Option Nat → Kmem → Prop} (h : ∀ r, Q r m) :
    wp (pushArgs pd argv n sp) m Q fun _ => True := by
  induction argv generalizing n sp with
  | nil => exact (wp_pure ..).2 (h _)
  | cons len lens ih =>
      unfold pushArgs
      refine wp_ite (fun _ => (wp_pure ..).2 (h _)) fun _ => ?_
      rw [wp_bind]
      refine copyout_wp (fun b => ?_) trivial
      exact wp_ite (fun _ => (wp_pure ..).2 (h _)) fun _ => ih

/-- So do the pointers. -/
theorem pushStack_wp {pd : PageDir} {argv : List Nat} {sz : Nat} {m : Kmem}
    {Q : Bool → Kmem → Prop} (h : ∀ b, Q b m) :
    wp (pushStack pd argv sz) m Q fun _ => True := by
  unfold pushStack
  rw [wp_bind]
  refine pushArgs_wp fun r => ?_
  cases r with
  | none => exact (wp_pure ..).2 (h _)
  | some sp => exact copyout_wp h trivial

/-- The image of a program ends with its stack. -/
structure ExecImage (pd : PageDir) (sz stacksize : Nat) : Prop extends Image pd sz where
  stack : ∃ n, sz = (n + (stacksize + 1)) * PGSIZE

/-- The image of a program: the segments, one page for the guard, the stack above it. -/
theorem buildImage_image {pd : PageDir} {elf : Elf} {argv : List Nat} {stacksize : Nat} {m : Kmem}
    (hpd : ∀ v, pd.entry v = none) (hst : stacksize ≤ 100) :
    wp (buildImage pd elf argv stacksize) m
      (fun r _ => ∀ sz, r.2 = some sz → ExecImage r.1 sz stacksize) fun _ => True := by
  have h0 : Image pd 0 := ⟨by decide, fun v => by simp [PageDir.Has, hpd, pages, PGSIZE]⟩
  unfold buildImage
  rw [wp_bind]
  refine wp.mono (loadProgram_image h0) (fun r m1 hr => ?_) fun _ he => he
  rcases r with ⟨pd1, sz1⟩
  cases sz1 with
  | none => exact (wp_pure ..).2 (by simp)
  | some sz1 =>
      have h1 : Image pd1 sz1 := hr sz1 rfl
      have hlt1 := h1.sz_lt
      dsimp only
      rw [wp_bind]
      refine wp.mono allocuvm_any (fun r m2 hr => ?_) fun _ _ => trivial
      rcases r with ⟨pd2, sz2⟩
      refine wp_ite (fun _ => (wp_pure ..).2 (by simp)) fun hsz2 => ?_
      rw [wp_bind]
      refine wp.mono (clearpteu_wp (E := fun _ => True) fun _ => trivial) (fun pd3 m3 hr3 => ?_)
        fun _ _ => trivial
      rw [wp_bind]
      refine pushStack_wp fun b => ?_
      refine wp_ite (fun _ => (wp_pure ..).2 (by simp)) fun _ => (wp_pure ..).2 fun sz hs => ?_
      cases hs
      have hup : pgUp (PGROUNDUP sz1) = pages sz1 := by rw [pgUp_PGROUNDUP, pgUp_eq (by omega)]
      -- the sum does not wrap around, since the stack has a hundred pages at most
      have hend : toUint (PGROUNDUP sz1 + (stacksize + 1) * PGSIZE : Nat) =
          (pages sz1 + (stacksize + 1)) * PGSIZE := by
        unfold PGROUNDUP
        rw [pgUp_eq (by omega)]
        unfold toUint pages PGSIZE KERNBASE at *
        omega
      rcases hr with ⟨hle, hlt, h2, hg⟩ | ⟨hlt, -⟩ | ⟨h0, -⟩
      · have h2' := h2
        push_cast at hend
        rw [hend] at h2'
        dsimp only at h2 hg h2'
        subst h2
        -- below the guard everything is mapped, and the stack above it
        have him : Image pd2 (toUint (PGROUNDUP sz1 + (stacksize + 1) * PGSIZE)) := by
          refine h1.grown hg hup ?_ hlt
          rw [hend]
          unfold pages PGSIZE
          omega
        exact ⟨him.congr (has_of_cleared hr3.2), pages sz1, h2'⟩
      · exfalso
        push_cast at hend
        rw [hend] at hlt
        unfold PGROUNDUP at hlt
        rw [pgUp_eq (by omega)] at hlt
        unfold PGSIZE at hlt
        omega
      · exact absurd h0 hsz2

/-- And the page table it is built in. -/
theorem newImage_image {elf : Option Elf} {argv : List Nat} {stacksize : Nat} {m : Kmem}
    (hst : stacksize ≤ 100) :
    wp (newImage elf argv stacksize) m
      (fun r _ => ∀ pd sz, r = some (pd, sz) → ExecImage pd sz stacksize) fun _ => True := by
  unfold newImage
  cases elf with
  | none => exact (wp_pure ..).2 (by simp)
  | some elf =>
      dsimp only
      rw [wp_bind]
      refine wp.mono setupkvm_wp (fun r m1 hr => ?_) fun _ _ => trivial
      cases r with
      | none => exact (wp_pure ..).2 (by simp)
      | some pd =>
          dsimp only
          rw [wp_bind]
          refine wp.mono (buildImage_image (hr pd rfl) hst) (fun r m2 hr => ?_) fun _ he => he
          rcases r with ⟨pd1, sz1⟩
          cases sz1 with
          | none =>
              dsimp only
              rw [wp_bind]
              refine wp.mono (freevm_wp fun _ => (wp_pure ..).2 (by simp)) (fun _ _ h => h)
                fun _ _ => trivial
          | some sz1 =>
              refine (wp_pure ..).2 fun pd sz heq => ?_
              cases heq
              exact hr _ rfl

end Xv6.Thread
