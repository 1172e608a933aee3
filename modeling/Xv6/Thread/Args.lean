import Xv6.Thread.Boot
import Xv6.Thread.Covers
import Xv6.Thread.Own

/-!
# The argument block

What the user finds on the stack of a new program. `exec` never compares the
stack pointer with the guard page: each `copyout` ends where the one before
began, but for the rounding, so a pointer that has moved past the stack makes
`copyout` come across the guard page, which it may not write.

* `Stacked` follows the strings as they are pushed, `ArgBlock` is what `main`
  expects: `argc`, `argv` and the strings, terminated, apart from one another;
* `exec2_arguments`: for all arguments and stack sizes, a call that succeeds leaves
  such a block above the guard page, and below it the program as it was loaded.

The free pages are taken to be apart (`FreeSound`), which is what `kalloc` rests
on. What a call that fails leaves is in `Thread.Replace`.
-/

namespace Xv6.Thread.Program

open Xv6.Lib Prog

/-! ## What the user sees -/

/-- The byte at user address `va`. -/
def userByte (pd : PageDir) (mem : Memory) (va : Nat) : Option UInt8 :=
  (pd.entry (va / PGSIZE)).map fun e => mem (P2V e.pa) (va % PGSIZE)

/-- `bs` stands at user address `va`. -/
def StandsAt (pd : PageDir) (mem : Memory) (va : Nat) (bs : List UInt8) : Prop :=
  ∀ i, i < bs.length → userByte pd mem (va + i) = bs[i]?

/-- The user may write page `v`. -/
def Writable (pd : PageDir) (v : Nat) : Prop :=
  kmapped v = false ∧ ∃ e, pd.entry v = some e ∧ e.user = true

/-- No two user pages are the same page of memory. -/
def Frames (pd : PageDir) : Prop :=
  ∀ v w e e', pd.entry v = some e → pd.entry w = some e' → P2V e.pa = P2V e'.pa → v = w

theorem Owned.frames {F : Nat → Prop} {pd : PageDir} {m : Kmem} (h : Owned F pd m) : Frames pd := by
  intro v w e e' hv hw heq
  have hpv : pd.pageAt (.page v) = some (P2V e.pa) := by simp [PageDir.pageAt, hv]
  have hpw : pd.pageAt (.page w) = some (P2V e.pa) := by simp [PageDir.pageAt, hw, heq]
  exact Site.page.inj (Option.some.inj (h.ledger.apart (some (.page v)) (some (.page w)) _ hpv hpw))

variable {pd : PageDir} {r : Ram} {va : Nat} {F : Nat → Prop}

/-! ## allocuvm -/

/-- `mappages` takes pages and gives none back. -/
theorem mappages_shrinks {v : Nat} {e : Pte} {m : Kmem} :
    wp (mappages pd v e) m (fun _ m' => ∀ a ∈ m'.pages, a ∈ m.pages) fun _ => True := by
  unfold mappages walkpgdir
  rw [wp_bind]
  refine wp_ite (fun _ => (wp_pure ..).2 ?_) fun _ => ?_
  · simp only [Bool.true_eq_false, if_false]
    refine wp_ite (fun _ => (wp_throw ..).2 trivial) fun _ => ?_
    rw [wp_pure]
    exact fun _ ha => ha
  simp only [Bool.true_eq_false, if_false, wp_bind]
  refine kalloc_took (fun _ => ?_) fun page m' ht => ?_
  · simp only [if_true, wp_pure]
    exact fun _ ha => ha
  · have hsub : ∀ a ∈ m'.pages, a ∈ m.pages := by
      intro a ha
      rw [ht.pages]
      exact List.mem_cons_of_mem _ ha
    simp only [wp_pure, Bool.true_eq_false, if_false]
    refine wp_ite (fun _ => (wp_throw ..).2 trivial) fun _ => ?_
    rw [wp_pure]
    exact hsub

theorem onList_mem {α : Type} {x : KM α} {Q : α → Ram → Prop}
    (h : wp x r.kmem (fun a m => Q a ⟨m, r.mem⟩) fun _ => True) :
    wp (onList x) r Q fun _ => True := by
  rw [onList, wp_zoom]
  exact h

/-- `allocuvm` writes to pages only that were free. -/
theorem allocFrom_spares {oldsz newsz n v : Nat} :
    wp (allocFrom oldsz newsz n v pd) r
      (fun _ r' => ∀ a, a ∉ r.kmem.pages → r'.mem a = r.mem a) fun _ => True := by
  induction n generalizing v pd r with
  | zero => exact (wp_pure ..).2 fun _ _ => rfl
  | succ n ih =>
      unfold allocFrom
      refine wp_ite (fun _ => (wp_pure ..).2 fun _ _ => rfl) fun _ => ?_
      rw [wp_bind]
      apply onList_mem
      refine kalloc_took (fun _ => ?_) fun mem m1 ht => ?_
      · dsimp only
        rw [wp_bind]
        apply onList_mem
        exact wp_any fun _ _ => (wp_pure ..).2 fun _ _ => rfl
      -- the new page was the first of the list
      have hkeep : ∀ a, a ∉ r.kmem.pages → a ≠ mem ∧ a ∉ m1.pages := by
        intro a ha
        rw [ht.pages, List.mem_cons, not_or] at ha
        exact ha
      dsimp only
      rw [wp_bind, memset, wp_modify, wp_bind]
      apply onList_mem
      refine mappages_shrinks.mono ?_ fun _ he => he
      rintro ⟨pd', ok⟩ m2 hsub
      refine wp_ite (fun _ => ?_) fun _ => ?_
      · rw [wp_bind]
        apply onList_mem
        refine wp_any fun _ m3 => ?_
        rw [wp_bind]
        apply onList_mem
        refine wp_any fun _ m4 => (wp_pure ..).2 fun a ha => ?_
        funext o
        exact if_neg (hkeep a ha).1
      · refine ih.mono (fun _ r' h => ?_) fun _ he => he
        intro a ha
        rw [h a fun hm => (hkeep a ha).2 (hsub a hm)]
        funext o
        exact if_neg (hkeep a ha).1

/-- `allocuvm` writes fresh pages alone. -/
theorem allocuvm_spares {oldsz newsz : Nat} :
    wp (allocuvm pd oldsz newsz) r
      (fun _ r' => ∀ a, a ∉ r.kmem.pages → r'.mem a = r.mem a) fun _ => True := by
  unfold allocuvm
  refine wp_ite (fun _ => (wp_pure ..).2 fun _ _ => rfl) fun _ => ?_
  exact wp_ite (fun _ => (wp_pure ..).2 fun _ _ => rfl) fun _ => allocFrom_spares

/-! ## copyout -/

/-- A user's byte after a piece was written to one page. -/
theorem userByte_put {mem : Memory} {e : Pte} {bs : List UInt8} (hf : Frames pd)
    (he : pd.entry (va / PGSIZE) = some e) (hlen : va % PGSIZE + bs.length ≤ PGSIZE) (w : Nat) :
    userByte pd (mem.put (P2V e.pa) (va % PGSIZE) bs) w =
      if va ≤ w ∧ w < va + bs.length then bs[w - va]? else userByte pd mem w := by
  unfold userByte
  by_cases hp : w / PGSIZE = va / PGSIZE
  -- a byte of the page that is written: inside the piece, or not
  · have h1 := Nat.div_add_mod w PGSIZE
    have h2 := Nat.div_add_mod va PGSIZE
    rw [hp, he, Option.map_some, Memory.put]
    rw [hp] at h1
    by_cases hin : va ≤ w ∧ w < va + bs.length
    · have hsub : w % PGSIZE - va % PGSIZE = w - va := by omega
      rw [if_pos ⟨rfl, by omega⟩, if_pos hin, hsub, List.getElem?_eq_getElem (by omega)]
      rfl
    · rw [if_neg hin]
      by_cases hle : va % PGSIZE ≤ w % PGSIZE
      · rw [if_pos ⟨rfl, hle⟩, List.getElem?_eq_none (by omega)]
        rfl
      · rw [if_neg (by omega)]
        rfl
  -- a byte of another page, which has another frame
  · rw [if_neg]
    · cases hw : pd.entry (w / PGSIZE) with
      | none => rw [Option.map_none, Option.map_none]
      | some e' =>
          rw [Option.map_some, Option.map_some, Memory.put, if_neg]
          rintro ⟨heq, -⟩
          exact hp (hf _ _ _ _ hw he heq)
    · rintro ⟨h1, h2⟩
      apply hp
      unfold PGSIZE at *
      omega

/-- What `copyout` of `buf` has done to the memory. -/
structure Copied (pd : PageDir) (va : Nat) (buf : List UInt8) (ok : Bool) (r r' : Ram) : Prop where
  kmem : r'.kmem = r.kmem
  others : ∀ a, (∀ v e, pd.entry v = some e → P2V e.pa ≠ a) → r'.mem a = r.mem a
  writable : ok = true → ∀ i, i < buf.length → Writable pd ((va + i) % 2 ^ 32 / PGSIZE)
  bytes : ok = true → va + buf.length ≤ 2 ^ 32 → Frames pd → ∀ w, userByte pd r'.mem w =
    if va ≤ w ∧ w < va + buf.length then buf[w - va]? else userByte pd r.mem w

/-- `uva2ka` gives the frame of a page that the user may write. -/
theorem uva2ka_wp {v : Nat} {m : Kmem} :
    wp (uva2ka pd v) m
      (fun x m' => m' = m ∧ ∀ a ∈ x, ∃ e, pd.entry v = some e ∧ a = P2V e.pa ∧ Writable pd v)
      fun _ => True := by
  unfold uva2ka
  refine wp_ite (fun _ => (wp_pure ..).2 ⟨rfl, by simp⟩) fun hk => ?_
  rw [wp_bind]
  refine walkpgdir_look fun found _ => ?_
  dsimp only
  refine wp_ite (fun _ => (wp_throw ..).2 trivial) fun _ => (wp_pure ..).2 ⟨rfl, ?_⟩
  intro a ha
  cases he : pd.entry v with
  | none => simp [he] at ha
  | some e =>
      rw [he] at ha
      cases hu : e.user with
      | false => simp [hu] at ha
      | true =>
          rw [Option.filter_some, if_pos hu] at ha
          exact ⟨e, rfl, by simpa using ha.symm, by simpa using hk, e, he, hu⟩

/-- Nothing to copy. -/
theorem Copied.nil {ok : Bool} : Copied pd va [] ok r r where
  kmem := rfl
  others := fun _ _ => rfl
  writable := fun _ i hi => absurd hi (Nat.not_lt_zero i)
  bytes := by
    intro _ _ _ w
    rw [if_neg]
    simp only [List.length_nil]
    omega

/-- The part of `buf` on the first page, and then the rest. -/
theorem Copied.step {buf : List UInt8} {e : Pte} {ok : Bool} {r1 r' : Ram} {k : Nat}
    (hva : va < 2 ^ 32) (hk : k = PGSIZE - va % PGSIZE) (he : pd.entry (va / PGSIZE) = some e)
    (hwr : Writable pd (va / PGSIZE)) (hkm : r1.kmem = r.kmem)
    (hmem : r1.mem = r.mem.put (P2V e.pa) (va % PGSIZE) (buf.take k))
    (h : Copied pd ((va / PGSIZE + 1) % 2 ^ 20 * PGSIZE) (buf.drop k) ok r1 r') :
    Copied pd va buf ok r r' where
  kmem := h.kmem.trans hkm
  others := by
    intro a ha
    rw [h.others a ha, hmem]
    funext o
    rw [Memory.put, if_neg]
    rintro ⟨rfl, -⟩
    exact ha _ e he rfl
  -- the pages that are written: this one and those of the rest
  writable := by
    intro hok i hi
    by_cases hik : i < k
    · have hv : (va + i) % 2 ^ 32 / PGSIZE = va / PGSIZE := by
        unfold PGSIZE at *
        omega
      rwa [hv]
    · have hw := h.writable hok (i - k) (by rw [List.length_drop]; omega)
      have hv : ((va / PGSIZE + 1) % 2 ^ 20 * PGSIZE + (i - k)) % 2 ^ 32 = (va + i) % 2 ^ 32 := by
        unfold PGSIZE at *
        omega
      rwa [hv] at hw
  bytes := by
    intro hok hle hf w
    have hm : va % PGSIZE < PGSIZE := Nat.mod_lt _ (by decide)
    have hfit : va % PGSIZE + (buf.take k).length ≤ PGSIZE := by
      rw [List.length_take]
      omega
    have hput := @userByte_put _ _ r.mem _ _ hf he hfit w
    rw [← hmem, List.length_take] at hput
    by_cases hlast : buf.length ≤ k
    · -- nothing is left for another page
      have hb := h.bytes hok (by
        rw [List.length_drop]
        unfold PGSIZE at *
        omega) hf w
      rw [hb, if_neg (by rw [List.length_drop]; omega), hput, Nat.min_eq_right hlast,
        List.take_of_length_le hlast]
    -- the rest begins where this page ends
    · have hnext : (va / PGSIZE + 1) % 2 ^ 20 * PGSIZE = va + k := by
        unfold PGSIZE at *
        omega
      have hb := h.bytes hok (by rw [hnext, List.length_drop]; omega) hf w
      rw [hnext, List.length_drop] at hb
      rw [hb, hput]
      by_cases h1 : va + k ≤ w ∧ w < va + k + (buf.length - k)
      · rw [if_pos h1, if_pos (by omega), List.getElem?_drop]
        congr 1
        omega
      · rw [if_neg h1]
        by_cases h2 : va ≤ w ∧ w < va + min k buf.length
        · rw [if_pos h2, if_pos (by omega), List.getElem?_take, if_pos (by omega)]
        · rw [if_neg h2, if_neg (by omega)]

/-- The loop of `copyout` stores its bytes, piece by piece. -/
theorem copyoutFrom_wp {n : Nat} {buf : List UInt8} (hn : buf.length ≤ n) (hva : va < 2 ^ 32) :
    wp (copyoutFrom pd n va buf) r (fun ok r' => Copied pd va buf ok r r') fun _ => True := by
  induction n generalizing va buf r with
  | zero =>
      obtain rfl : buf = [] := List.length_eq_zero_iff.1 (by omega)
      exact (wp_pure ..).2 .nil
  | succ n ih =>
      unfold copyoutFrom
      refine wp_ite (fun h0 => ?_) fun h0 => ?_
      -- nothing is left
      · subst h0
        exact (wp_pure ..).2 .nil
      have hpos : 0 < buf.length := List.length_pos_iff.2 h0
      have hm : va % PGSIZE < PGSIZE := Nat.mod_lt _ (by decide)
      rw [wp_bind, onList, wp_zoom]
      refine uva2ka_wp.mono ?_ fun _ he => he
      rintro x m1 ⟨rfl, hx⟩
      cases x with
      -- the page is not the user's, so the call fails
      | none => exact (wp_pure ..).2 ⟨rfl, fun _ _ => rfl, by simp, by simp⟩
      | some pa0 =>
          rcases hx pa0 rfl with ⟨e, he, rfl, hwr⟩
          dsimp only
          rw [wp_bind, memmove, wp_modify]
          have hva' : (va / PGSIZE + 1) % 2 ^ 20 * PGSIZE < 2 ^ 32 := by
            unfold PGSIZE
            omega
          have hlen : (buf.drop (PGSIZE - va % PGSIZE)).length ≤ n := by
            rw [List.length_drop]
            omega
          refine (ih hlen hva').mono (fun ok r' h => ?_) fun _ he => he
          refine Copied.step hva rfl he hwr ?_ ?_ h <;> rfl

theorem copyout_spec {buf : List UInt8} (hva : va < 2 ^ 32) :
    wp (copyout pd va buf) r (fun ok r' => Copied pd va buf ok r r') fun _ => True :=
  copyoutFrom_wp le_rfl hva

/-! ## Staying above the guard page -/

variable {g top sp : Nat} {mem : Memory}

/-- Pages `g + 1` to `top` are the stack, and no page from guard page `g` up can
be written but these. -/
structure Guarded (pd : PageDir) (g top : Nat) : Prop where
  guard : ¬ Writable pd g
  above : ∀ v, Writable pd v → v < top
  room : g < top
  low : top * PGSIZE < KERNBASE

/-- What is pushed right below `sp` and can be written is above the guard page:
otherwise it would cross it. -/
theorem Guarded.inside (h : Guarded pd g top) {a len : Nat} (hlo : (g + 1) * PGSIZE ≤ sp)
    (hhi : sp ≤ top * PGSIZE) (hlen : len < KERNBASE) (h0 : 0 < len)
    (ha : a = toUint (sp - len) / 4 * 4)
    (hw : ∀ i, i < len → Writable pd ((a + i) % 2 ^ 32 / PGSIZE)) :
    (g + 1) * PGSIZE ≤ a ∧ a + len ≤ sp := by
  have hlow := h.low
  have hroom := h.room
  by_cases hle : len ≤ sp
  · have hsub : toUint (sp - len) = sp - len := by
      unfold toUint KERNBASE PGSIZE at *
      omega
    rw [hsub] at ha
    refine ⟨?_, by omega⟩
    by_contra hout
    -- a byte of it lies in the guard page
    by_cases hg : g * PGSIZE ≤ a
    · have h1 := hw 0 h0
      have hpage : (a + 0) % 2 ^ 32 / PGSIZE = g := by
        unfold KERNBASE PGSIZE at *
        omega
      rw [hpage] at h1
      exact h.guard h1
    · have h1 := hw (g * PGSIZE - a) (by unfold PGSIZE at *; omega)
      have hpage : (a + (g * PGSIZE - a)) % 2 ^ 32 / PGSIZE = g := by
        unfold KERNBASE PGSIZE at *
        omega
      rw [hpage] at h1
      exact h.guard h1
  · -- the pointer has wrapped around to the half of the kernel
    exfalso
    have h1 := h.above _ (hw 0 h0)
    have hpage : top ≤ (a + 0) % 2 ^ 32 / PGSIZE := by
      unfold toUint KERNBASE PGSIZE at *
      omega
    omega

/-! ## The strings -/

/-- The strings stand at the pointers, each below the one before, from `sp` down
to `lo`. -/
inductive Stacked (pd : PageDir) (mem : Memory) : List Nat → List CString → Nat → Nat → Prop
  | nil {sp : Nat} : Stacked pd mem [] [] sp sp
  | cons {a : Nat} {s : CString} {ptrs : List Nat} {argv : List CString} {sp lo : Nat} :
      a % 4 = 0 → a + s.bytes.length ≤ sp → StandsAt pd mem a s.bytes →
      Stacked pd mem ptrs argv a lo → Stacked pd mem (a :: ptrs) (s :: argv) sp lo

variable {ptrs : List Nat} {argv : List CString} {lo : Nat}

namespace Stacked

theorem le (h : Stacked pd mem ptrs argv sp lo) : lo ≤ sp := by
  induction h with
  | nil => exact le_rfl
  | cons _ hle _ _ ih => omega

theorem length_eq (h : Stacked pd mem ptrs argv sp lo) : ptrs.length = argv.length := by
  induction h with
  | nil => rfl
  | cons _ _ _ _ ih => rw [List.length_cons, List.length_cons, ih]

/-- Nothing that is written below the strings changes them. -/
theorem congr {mem' : Memory} (h : Stacked pd mem ptrs argv sp lo)
    (hsame : ∀ w, lo ≤ w → userByte pd mem' w = userByte pd mem w) :
    Stacked pd mem' ptrs argv sp lo := by
  induction h with
  | nil => exact .nil
  | cons hal hle hat hrest ih =>
      have hlo := hrest.le
      refine .cons hal hle ?_ (ih hsame)
      intro i hi
      rw [hsame _ (by omega), hat i hi]

/-- Every string that was pushed stands at its pointer. -/
theorem stands (h : Stacked pd mem ptrs argv sp lo) {i a : Nat} {s : CString}
    (ha : ptrs[i]? = some a) (hs : argv[i]? = some s) : StandsAt pd mem a s.bytes := by
  induction h generalizing i with
  | nil => simp at ha
  | cons _ _ hat _ ih =>
      cases i with
      | zero =>
          cases ha
          cases hs
          exact hat
      | succ i => exact ih ha hs

end Stacked

/-- Pushing the strings: each below the last, and none over another. By induction on them. -/
theorem pushArgs_spec {ustack : List Nat} (hg : Guarded pd g top) (hf : Frames pd)
    (hlo : (g + 1) * PGSIZE ≤ sp) (hhi : sp ≤ top * PGSIZE) (hal : sp % 4 = 0)
    (hmax : ustack.length ≤ MAXARG) :
    wp (pushArgs pd argv sp ustack) r
      (fun res r' => r'.kmem = r.kmem ∧
        (∀ a, (∀ v e, pd.entry v = some e → P2V e.pa ≠ a) → r'.mem a = r.mem a) ∧
        ∀ x ∈ res, ∃ ptrs, x.2 = ustack ++ ptrs ∧ x.2.length ≤ MAXARG ∧
          Stacked pd r'.mem ptrs argv sp x.1 ∧ (g + 1) * PGSIZE ≤ x.1 ∧ x.1 % 4 = 0 ∧
          ∀ w, (w < x.1 ∨ sp ≤ w) → userByte pd r'.mem w = userByte pd r.mem w)
      fun _ => True := by
  induction argv generalizing sp ustack r with
  | nil =>
      refine (wp_pure ..).2 ⟨rfl, fun _ _ => rfl, ?_⟩
      intro x hx
      cases hx
      exact ⟨[], (List.append_nil _).symm, hmax, .nil, hlo, hal, fun _ _ => rfl⟩
  | cons s argv ih =>
      unfold pushArgs
      -- too many strings: the call fails
      refine wp_ite (fun _ => (wp_pure ..).2 ⟨rfl, fun _ _ => rfl, by simp⟩) fun hroom => ?_
      generalize ha : toUint (sp - (s.strlen + 1)) / 4 * 4 = a
      have ha' : a = toUint (sp - (s.bytes.length : Nat)) / 4 * 4 := by
        rw [s.length_bytes, ← ha]
        rfl
      have hlt : a < 2 ^ 32 := by
        unfold toUint at ha
        omega
      dsimp only
      rw [wp_bind]
      refine (copyout_spec hlt).mono ?_ fun _ he => he
      rintro ok r1 ⟨hkm, hoth, hwr, hby⟩
      refine wp_ite (fun _ => (wp_pure ..).2 ⟨hkm, hoth, by simp⟩) fun hok => ?_
      have hok : ok = true := by simpa using hok
      have hfits := s.fits
      have hlen : s.bytes.length < KERNBASE := by
        rw [s.length_bytes]
        exact hfits
      have h0 : 0 < s.bytes.length := by
        rw [s.length_bytes]
        omega
      -- a copy that succeeds went to pages the user may write, so it did not reach the guard
      rcases hg.inside hlo hhi hlen h0 ha' (hwr hok) with ⟨hin, hend⟩
      have hlow := hg.low
      have hby := hby hok (by unfold KERNBASE at *; omega) hf
      -- the strings that follow go below this one
      refine (ih hin (by omega) (by omega) ?_).mono ?_ fun _ he => he
      · rw [List.length_append]
        simp only [ge_iff_le, not_le] at hroom
        exact hroom
      rintro res r2 ⟨hkm2, hoth2, hres⟩
      refine ⟨hkm2.trans hkm, fun b hb => (hoth2 b hb).trans (hoth b hb), ?_⟩
      intro x hx
      rcases hres x hx with ⟨ptrs, heq, hle, hst, hxlo, hxal, hsame⟩
      refine ⟨a :: ptrs, ?_, hle, .cons (by omega) hend ?_ hst, hxlo, hxal, ?_⟩
      · rw [heq, List.append_assoc]
        rfl
      · intro i hi
        rw [hsame _ (.inr (by omega)), hby, if_pos (by omega), Nat.add_sub_cancel_left]
      · intro w hw
        have hxa := hst.le
        rw [hsame w (by omega), hby, if_neg (by omega)]

/-! ## Words -/

/-- The `uint` at user address `va`. -/
def userWord (pd : PageDir) (mem : Memory) (va : Nat) : Option Nat := do
  let b0 ← userByte pd mem va
  let b1 ← userByte pd mem (va + 1)
  let b2 ← userByte pd mem (va + 2)
  let b3 ← userByte pd mem (va + 3)
  return b0.toNat + 256 * b1.toNat + 65536 * b2.toNat + 16777216 * b3.toNat

/-- Four bytes in memory are the word that they encode. -/
theorem userWord_le32 {n : Nat} (h : StandsAt pd mem va (le32 n)) (hn : n < 2 ^ 32) :
    userWord pd mem va = some n := by
  have h0 := h 0 (by decide : 0 < 4)
  have h1 := h 1 (by decide : 1 < 4)
  have h2 := h 2 (by decide : 2 < 4)
  have h3 := h 3 (by decide : 3 < 4)
  rw [Nat.add_zero] at h0
  simp only [userWord, h0, h1, h2, h3, le32, List.getElem?_cons_zero, List.getElem?_cons_succ,
    Option.bind_eq_bind, Option.bind_some, UInt8.toNat_ofNat']
  show some _ = some n
  congr 1
  omega

theorem StandsAt.left {bs cs : List UInt8} (h : StandsAt pd mem va (bs ++ cs)) :
    StandsAt pd mem va bs := by
  intro i hi
  rw [h i (by rw [List.length_append]; omega), List.getElem?_append_left hi]

theorem StandsAt.right {bs cs : List UInt8} (h : StandsAt pd mem va (bs ++ cs)) :
    StandsAt pd mem (va + bs.length) cs := by
  intro i hi
  rw [Nat.add_assoc, h (bs.length + i) (by rw [List.length_append]; omega),
    List.getElem?_append_right (by omega), Nat.add_sub_cancel_left]

/-- So are those of a whole array of words. -/
theorem userWord_wordBytes {ws : List Nat} (h : StandsAt pd mem va (wordBytes ws))
    (hlt : ∀ w ∈ ws, w < 2 ^ 32) {i w : Nat} (hw : ws[i]? = some w) :
    userWord pd mem (va + 4 * i) = some w := by
  induction ws generalizing va i with
  | nil => simp at hw
  | cons x ws ih =>
      rw [wordBytes, List.flatMap_cons] at h
      cases i with
      | zero =>
          cases hw
          exact userWord_le32 h.left (hlt _ List.mem_cons_self)
      | succ i =>
          have hrest := ih h.right (fun y hy => hlt y (List.mem_cons_of_mem _ hy)) hw
          rwa [show (le32 x).length = 4 from rfl, Nat.add_assoc, Nat.add_comm 4, ← Nat.mul_succ]
            at hrest

/-! ## The block -/

/-- The addresses of a string with its NUL: where they start, and how many. -/
def region (x : Nat × CString) : Nat × Nat := (x.1, x.2.strlen + 1)

/-- The words at `esp` and the strings. -/
def regions (esp : Nat) (ptrs : List Nat) (argv : List CString) : List (Nat × Nat) :=
  (esp, 16 + 4 * argv.length) :: (ptrs.zip argv).map region

def Clear (a b : Nat × Nat) : Prop := a.1 + a.2 ≤ b.1 ∨ b.1 + b.2 ≤ a.1

/-- What `main(argc, argv)` finds at `esp`, all of it in `[lo, hi)`. -/
structure ArgBlock (pd : PageDir) (mem : Memory) (esp lo hi : Nat) (argv : List CString)
    (ptrs : List Nat) : Prop where
  argc_le : argv.length ≤ MAXARG
  retWord : userWord pd mem esp = some 0xffffffff
  argcWord : userWord pd mem (esp + 4) = some argv.length
  argvWord : userWord pd mem (esp + 8) = some (esp + 12)
  length : ptrs.length = argv.length
  ptr : ∀ i a, ptrs[i]? = some a → userWord pd mem (esp + 12 + 4 * i) = some a
  nullWord : userWord pd mem (esp + 12 + 4 * argv.length) = some 0
  string : ∀ (i a : Nat) (s : CString), ptrs[i]? = some a → argv[i]? = some s →
    StandsAt pd mem a s.bytes
  aligned : esp % 4 = 0
  clear : (regions esp ptrs argv).Pairwise Clear
  inside : ∀ x ∈ regions esp ptrs argv, lo ≤ x.1 ∧ x.1 + x.2 ≤ hi

namespace Stacked

/-- The strings lie between the two ends of the stack. -/
theorem within (h : Stacked pd mem ptrs argv sp lo) :
    ∀ x ∈ (ptrs.zip argv).map region, lo ≤ x.1 ∧ x.1 + x.2 ≤ sp := by
  induction h with
  | nil => simp
  | @cons a s ptrs argv sp lo _ hle _ hrest ih =>
      rw [List.zip_cons_cons, List.map_cons]
      intro x hx
      rcases List.mem_cons.1 hx with rfl | hx
      · rw [s.length_bytes] at hle
        exact ⟨hrest.le, hle⟩
      · rw [s.length_bytes] at hle
        have := ih x hx
        omega

/-- No two of them overlap. -/
theorem clear (h : Stacked pd mem ptrs argv sp lo) :
    ((ptrs.zip argv).map region).Pairwise Clear := by
  induction h with
  | nil => exact .nil
  | cons _ _ _ hrest ih =>
      rw [List.zip_cons_cons, List.map_cons, List.pairwise_cons]
      exact ⟨fun x hx => .inr (hrest.within x hx).2, ih⟩

/-- Their pointers are below the top. -/
theorem ptr_lt (h : Stacked pd mem ptrs argv sp lo) : ∀ a ∈ ptrs, a ≤ sp := by
  induction h with
  | nil => simp
  | cons _ hle _ _ ih =>
      intro b hb
      rcases List.mem_cons.1 hb with rfl | hb
      · omega
      · have := ih b hb
        omega

end Stacked

/-- `ustack` below the strings is the block. -/
theorem ArgBlock.of {mem' : Memory} {esp hi : Nat} (h : Stacked pd mem ptrs argv hi sp)
    (hmax : argv.length ≤ MAXARG) (hlow : hi < 2 ^ 32) (hesp : esp + (16 + 4 * argv.length) = sp)
    (hal : sp % 4 = 0) (hlo : lo ≤ esp)
    (hby : ∀ w, userByte pd mem' w =
      if esp ≤ w ∧ w < esp + (wordBytes (ustackOf argv.length sp ptrs)).length then
        (wordBytes (ustackOf argv.length sp ptrs))[w - esp]? else userByte pd mem w) :
    ArgBlock pd mem' esp lo hi argv ptrs := by
  have hlen := h.length_eq
  have hle := h.le
  have hbuf : (wordBytes (ustackOf argv.length sp ptrs)).length = 16 + 4 * argv.length := by
    rw [length_wordBytes, length_ustackOf, hlen]
    omega
  -- the words stand at the new stack pointer
  have hst : StandsAt pd mem' esp (wordBytes (ustackOf argv.length sp ptrs)) := by
    intro i hi
    rw [hby, if_pos (by omega), Nat.add_sub_cancel_left]
  have hargv : toUint (sp - (argv.length + 1) * 4) = esp + 12 := by
    unfold toUint
    omega
  have hwords : ∀ w ∈ ustackOf argv.length sp ptrs, w < 2 ^ 32 := by
    intro w hw
    simp only [ustackOf, hargv, List.mem_append, List.mem_cons, List.not_mem_nil, or_false] at hw
    unfold MAXARG at hmax
    rcases hw with (hw | hw) | hw
    · omega
    · have := h.ptr_lt w hw
      omega
    · omega
  have hword : ∀ {i w : Nat}, (ustackOf argv.length sp ptrs)[i]? = some w →
      userWord pd mem' (esp + 4 * i) = some w := fun hw => userWord_wordBytes hst hwords hw
  -- and below the strings, which they do not touch
  have h' : Stacked pd mem' ptrs argv hi sp := by
    refine h.congr fun w hw => ?_
    rw [hby, if_neg (by omega)]
  refine ⟨hmax, hword (i := 0) rfl, hword (i := 1) rfl, ?_, hlen, ?_, ?_,
    fun i a s => h'.stands, by omega, ?_, ?_⟩
  · have hw := hword (i := 2) (w := esp + 12) (by rw [← hargv]; rfl)
    exact hw
  -- the pointers, and the zero behind them
  · intro i a ha
    have hi := (List.getElem?_eq_some_iff.1 ha).1
    have hw := hword (i := 3 + i) (w := a) (by
      rw [ustackOf, List.getElem?_append_left (by simp; omega),
        List.getElem?_append_right (by simp)]
      simpa using ha)
    rw [← hw]
    congr 1
    omega
  · have hw := hword (i := 3 + ptrs.length) (w := 0) (by
      have hfront : ([0xffffffff, argv.length, toUint (sp - (argv.length + 1) * 4)] ++
        ptrs).length =
          3 + ptrs.length := by
        simp
        omega
      rw [ustackOf, List.getElem?_append_right hfront.le, hfront, Nat.sub_self]
      rfl)
    rw [← hw, hlen]
    congr 1
    omega
  · refine List.pairwise_cons.2 ⟨fun x hx => .inl ?_, h.clear⟩
    have := (h.within x hx).1
    dsimp only
    omega
  · intro x hx
    rcases List.mem_cons.1 hx with rfl | hx
    · exact ⟨hlo, by dsimp only; omega⟩
    · have := h.within x hx
      omega

/-! ## The new stack -/

/-- The stack of a new program: on top of an image that ends at `guard`, a guard
page and `n` pages. -/
structure NewStack (pd0 : PageDir) (mem0 : Memory) (pd : PageDir) (mem : Memory)
    (guard n sz esp : Nat) (argv : List CString) : Prop where
  size : sz = guard + (n + 1) * PGSIZE
  closed : ¬ Writable pd (guard / PGSIZE)
  opened : ∀ v, guard / PGSIZE < v → v < sz / PGSIZE → Writable pd v
  block : ∃ ptrs, ArgBlock pd mem esp (guard + PGSIZE) sz argv ptrs
  program : ∀ a, a < guard → userByte pd mem a = userByte pd0 mem0 a

/-- The kernel maps nothing below its base. -/
theorem kmapped_low {v : Nat} (h : v * PGSIZE < KERNBASE) : kmapped v = false := by
  have h1 : ¬ KERNBASE / PGSIZE ≤ v := by
    unfold KERNBASE PGSIZE at *
    omega
  have h2 : ¬ 0xFE000000 / PGSIZE ≤ v := by
    unfold KERNBASE PGSIZE at *
    omega
  simp [kmapped, h1, h2]

/-- The directory of the stack with its guard page: what was mapped before still
is, and the new pages are the ones the user may write. -/
structure StackDir (pd0 pd : PageDir) (g top : Nat) : Prop where
  old : ∀ v, v < g → pd.entry v = pd0.entry v
  guard : ∀ e, pd.entry g = some e → e.user = false
  new : ∀ v, g < v → v < top → ∃ e, pd.entry v = some e ∧ e.user = true
  above : ∀ v, top ≤ v → pd.entry v = none

/-- A stack with its guard below it. -/
theorem StackDir.guarded {pd0 : PageDir} (h : StackDir pd0 pd g top) (hroom : g < top)
    (hlow : top * PGSIZE < KERNBASE) : Guarded pd g top where
  guard := by
    rintro ⟨-, e, he, hu⟩
    rw [h.guard e he] at hu
    cases hu
  above := by
    rintro v ⟨-, e, he, -⟩
    by_contra hv
    rw [h.above v (by omega)] at he
    cases he
  room := hroom
  low := hlow

/-- Growing by the stack and its guard, and taking the guard from the user, makes one. -/
theorem stackDir {pd2 pd3 : PageDir} {n sz : Nat} (hi : Image pd sz)
    (hg : Grown pd pd2 (PGROUNDUP sz) ((pages sz + (n + 1)) * PGSIZE))
    (hcl : ∀ w, pd3.entry w = if w = pages sz then
      (pd2.entry (pages sz)).map fun e => { e with user := false } else pd2.entry w) :
    StackDir pd pd3 (pages sz) (pages sz + (n + 1)) := by
  have hlt := hi.sz_lt
  have hup : pgUp (PGROUNDUP sz) = pages sz := by rw [pgUp_PGROUNDUP, pgUp_eq (by omega)]
  have hrange : ∀ v, InRange (PGROUNDUP sz) ((pages sz + (n + 1)) * PGSIZE) v ↔
      pages sz ≤ v ∧ v < pages sz + (n + 1) := by
    intro v
    rw [InRange, hup, Nat.mul_lt_mul_right (by decide)]
  refine ⟨fun v hv => ?_, fun e he => ?_, fun v hv hv' => ?_, fun v hv => ?_⟩
  · rw [hcl, if_neg (by omega), hg.same]
    rw [hrange]
    omega
  · rw [hcl, if_pos rfl] at he
    rcases Option.map_eq_some_iff.1 he with ⟨e', -, rfl⟩
    rfl
  · rw [hcl, if_neg (by omega)]
    exact hg.mapped v ((hrange v).2 ⟨by omega, hv'⟩)
  · rw [hcl, if_neg (by omega), hg.same]
    · rw [← Option.not_isSome_iff_eq_none]
      intro hhas
      have := (hi.has v).1 hhas
      omega
    · rw [hrange]
      omega

/-- The stack of the new image: strings, pointers, and the three words above. -/
theorem buildStack_spec {n sz : Nat} (h : Owned F pd r.kmem) (hi : Image pd sz) (hn : n ≤ 100) :
    wp (buildStack pd argv (PGROUNDUP sz) ((n + 1) * PGSIZE)) r
      (fun res r' => ∀ x ∈ res.2, NewStack pd r.mem res.1 r'.mem (PGROUNDUP sz) n x.1 x.2 argv)
      fun _ => True := by
  have hlt := hi.sz_lt
  have hup : pgUp (PGROUNDUP sz) = pages sz := by rw [pgUp_PGROUNDUP, pgUp_eq (by omega)]
  have hround : PGROUNDUP sz = pages sz * PGSIZE := by rw [PGROUNDUP, pgUp_eq (by omega)]
  have hend : toUint (PGROUNDUP sz + ((n + 1) * PGSIZE : Nat)) = (pages sz + (n + 1)) * PGSIZE := by
    rw [hround]
    unfold toUint pages PGSIZE KERNBASE at *
    omega
  unfold buildStack
  rw [hend, wp_bind]
  refine (wp.and (allocuvm_covers r _ (wp.and (allocuvm_own h)
    (allocuvm_any.mono (fun _ _ hr => hr) fun _ _ => trivial))) allocuvm_spares).mono ?_ fun _ he =>
    he
  rintro ⟨pd2, sz2⟩ r2 ⟨⟨_, rfl, h2, hr⟩, hmem2⟩
  refine wp_ite (fun _ => (wp_pure ..).2 (by simp)) fun hsz2 => ?_
  rcases hr with ⟨-, hlt2, hsz, hg⟩ | ⟨hbad, -⟩ | ⟨h0, -⟩
  swap
  · exfalso
    rw [hround] at hbad
    unfold PGSIZE at hbad
    omega
  swap
  · exact absurd h0 hsz2
  dsimp only at hsz hg
  subst hsz
  have hpage : toUint (((pages sz + (n + 1)) * PGSIZE : Nat) - ((n + 1) * PGSIZE : Nat)) / PGSIZE =
      pages sz := by
    unfold toUint PGSIZE KERNBASE at *
    omega
  rw [hpage, wp_bind]
  apply onList_mem
  refine (wp.and (clearpteu_own h2) (clearpteu_wp fun _ => trivial)).mono ?_ fun _ he => he
  rintro pd3 m3 ⟨h3, rfl, hcl⟩
  have hdir := stackDir hi hg hcl
  have hgd : Guarded pd3 (pages sz) (pages sz + (n + 1)) := hdir.guarded (by omega) hlt2
  have hf := Owned.frames h3
  rw [wp_bind]
  refine (pushArgs_spec hgd hf ?_ le_rfl ?_ (Nat.zero_le _)).mono ?_ fun _ he => he
  · exact Nat.mul_le_mul_right _ (by omega)
  · unfold PGSIZE
    omega
  rintro res r4 ⟨hkm4, hoth4, hres⟩
  cases res with
  | none => exact (wp_pure ..).2 (by simp)
  | some x =>
      rcases x with ⟨sp, all⟩
      rcases hres _ rfl with ⟨ptrs, hall, hmax, hst, hsplo, hspal, hsame⟩
      dsimp only at hall hmax hst hsplo hspal hsame
      rw [List.nil_append] at hall
      subst hall
      have hlen := hst.length_eq
      dsimp only
      rw [hlen]
      have hbuf : (wordBytes (ustackOf argv.length sp all)).length = (3 + argv.length + 1) * 4 := by
        rw [length_wordBytes, length_ustackOf, hlen]
      rw [hlen] at hmax
      generalize hesp : toUint (sp - ((3 + argv.length + 1) * 4 : Nat)) = esp
      have hesplt : esp < 2 ^ 32 := by
        unfold toUint at hesp
        omega
      rw [wp_bind]
      refine (copyout_spec hesplt).mono ?_ fun _ he => he
      rintro ok r5 ⟨-, -, hwr, hby⟩
      refine wp_ite (fun _ => (wp_pure ..).2 (by simp)) fun hok => (wp_pure ..).2 ?_
      have hok : ok = true := by simpa using hok
      have hsphi := hst.le
      have hin := @Guarded.inside _ _ _ sp hgd esp (wordBytes (ustackOf argv.length sp all)).length
        hsplo hsphi (by rw [hbuf]; unfold MAXARG KERNBASE at *; omega) (by omega) (by
          rw [hbuf]
          unfold toUint at *
          omega) (hwr hok)
      rw [hbuf] at hin
      have heq : esp + (16 + 4 * argv.length) = sp := by
        unfold toUint KERNBASE at *
        omega
      have hby := hby hok (by unfold KERNBASE at *; omega) hf
      intro x hx
      cases hx
      refine ⟨by rw [hround, Nat.add_mul], ?_, ?_, ⟨all, ?_⟩, fun a ha => ?_⟩
      · rw [hround, Nat.mul_div_cancel _ (by decide : 0 < PGSIZE)]
        exact hgd.guard
      · rw [hround, Nat.mul_div_cancel _ (by decide : 0 < PGSIZE),
          Nat.mul_div_cancel _ (by decide : 0 < PGSIZE)]
        intro v hv hv'
        refine ⟨kmapped_low ?_, hdir.new v hv hv'⟩
        exact lt_trans (Nat.mul_lt_mul_of_pos_right hv' (by decide)) hlt2
      · rw [hround, ← Nat.succ_mul]
        refine .of hst hmax ?_ heq hspal hin.1 hby
        unfold KERNBASE at hlt2
        omega
      · have hpage : a / PGSIZE < pages sz := by
          rw [hround] at ha
          exact (Nat.div_lt_iff_lt_mul (by decide)).2 ha
        have hasp : a < esp := by
          rw [hround] at ha
          unfold PGSIZE at *
          omega
        rw [hby, if_neg (by omega), hsame a (.inl (by omega))]
        unfold userByte
        rw [hdir.old _ hpage]
        cases he : pd.entry (a / PGSIZE) with
        | none => rfl
        | some e =>
            -- the page was held, so the new ones are others
            have hheld : pd.pageAt (.page (a / PGSIZE)) = some (P2V e.pa) := by
              simp [PageDir.pageAt, he]
            rw [Option.map_some, Option.map_some]
            show some (r2.mem _ _) = _
            rw [hmem2 _ fun hfree => h.ledger.idle _ hfree (some (.page (a / PGSIZE))) hheld]

/-! ## The whole call -/

/-- Loading the program of the file leaves directory `pd` of size `sz`. -/
def Loads (ip : Inode) (r : Ram) (pd : PageDir) (sz : Nat) (r' : Ram) : Prop :=
  ∃ elf pgdir r1, (readStruct ip 0 SIZEOF_ELFHDR).map ElfHdr.ofBytes = some elf ∧
    (onList setupkvm).run r = .ok (some pgdir, r1) ∧
    (loadProgram ip elf.phnum elf.phoff pgdir 0).run r1 = .ok ((pd, some sz), r')

/-- The new image: the segments, and the stack on top of them. -/
theorem newImage_spec {ip : Inode} {n : Nat} (h : Apart F r.kmem) (hn : n ≤ 100) :
    wp (newImage ip argv n) r
      (fun res r' => ∀ x ∈ res, ∃ pd0 sz0 r0, Loads ip r pd0 sz0 r0 ∧
        NewStack pd0 r0.mem x.pgdir r'.mem (PGROUNDUP sz0) n x.sz x.sp argv) fun _ => True := by
  unfold newImage
  cases helf : (readStruct ip 0 SIZEOF_ELFHDR).map ElfHdr.ofBytes with
  -- no program
  | none => exact (wp_pure ..).2 (by simp)
  | some elf =>
      dsimp only
      refine wp_ite (fun _ => (wp_pure ..).2 (by simp)) fun _ => ?_
      rw [wp_bind]
      refine (wp.and (onList_covers _ r _ (wp.and (setupkvm_own h)
        (setupkvm_wp.mono (fun _ _ hpd => hpd) fun _ _ => trivial)))
        (wp_run fun _ _ hrun => hrun)).mono ?_ fun _ he => he
      rintro pgdir r1 ⟨⟨_, rfl, hown, hnil⟩, hrun1⟩
      cases pgdir with
      -- no memory for the page table
      | none => exact (wp_pure ..).2 (by simp)
      | some pgdir =>
          have h0 : Image pgdir 0 :=
            ⟨by decide, fun v => by simp [PageDir.Has, hnil pgdir rfl v, pages, PGSIZE]⟩
          dsimp only
          rw [wp_bind]
          refine (wp.and (loadProgram_covers r1 _
            (wp.and (loadProgram_own hown) (loadProgram_image h0)))
            (wp_run fun _ _ hrun => hrun)).mono ?_ fun _ he => he
          rintro ⟨pd, sz⟩ r2 ⟨⟨_, rfl, hown2, him⟩, hrun2⟩
          cases sz with
          | none =>
              dsimp only
              rw [wp_bind]
              exact wp_any fun _ _ => (wp_pure ..).2 (by simp)
          | some sz =>
              dsimp only
              rw [wp_bind]
              refine (buildStack_spec hown2 (him sz rfl) hn).mono ?_ fun _ he => he
              rintro ⟨pd3, x⟩ r3 hx
              cases x with
              | none =>
                  dsimp only
                  rw [wp_bind]
                  exact wp_any fun _ _ => (wp_pure ..).2 (by simp)
              | some x =>
                  refine (wp_pure ..).2 ?_
                  intro y hy
                  cases hy
                  exact ⟨pd, sz, r2, ⟨elf, pgdir, r1, helf, hrun1, hrun2⟩, hx x rfl⟩

theorem switchuvm_keeps {p : Pidx} {s : Kernel} :
    wp (switchuvm p) s (fun _ s' => s' = s) fun _ => True := switchuvm_wp rfl trivial trivial

/-- The old page table is freed, and nothing else is done. -/
theorem freeOld_spec {old : Option PageDir} {w : World} :
    wp (freeOld old) w (fun _ w' => ∃ pd m, old = some pd ∧
      (freevm pd).run w.kernel.kmem = .ok ((), m) ∧
      w' = { w with kernel := w.kernel.setKmem m }) fun _ => True := by
  cases old with
  | none => exact (wp_throw ..).2 trivial
  | some pd =>
      rw [freeOld, onRam, wp_zoom, onList, wp_zoom]
      refine wp_run fun _ m hrun => ?_
      exact ⟨pd, m, rfl, hrun, rfl⟩

/-- What the commit leaves of the image. -/
theorem install_spec {p : Pidx} {path : CString} {n : Nat} {img : Built} {w : World} :
    wp (install p path n img) w
      (fun _ w' => w'.mem = w.mem ∧ (w'.kernel.proc p).pgdir = some img.pgdir ∧
        (w'.kernel.proc p).sz = img.sz ∧ (w'.trapframe (w'.kernel.proc p).tf).esp = img.sp)
      fun _ => True := by
  unfold install
  rw [wp_bind, safestrcpy, wp_modify, wp_bind, onKernel, wp_zoom]
  refine wp_any fun _ s1 => ?_
  simp only [wp_bind, wp_get, wp_assign, wp_setTf, onKernel, wp_zoom]
  refine switchuvm_keeps.mono ?_ fun _ he => he
  rintro _ s2 rfl
  refine freeOld_spec.mono ?_ fun _ he => he
  rintro _ w2 ⟨_, m, -, -, rfl⟩
  refine (wp_pure ..).2 ⟨rfl, ?_⟩
  simp [World.part]

/-- The pages on the free list lie above `KERNBASE`, and none is there twice. -/
structure FreeSound (m : Kmem) : Prop where
  nodup : m.pages.Nodup
  high : KERNBASE ≤ m.kend
  aligned : ∀ a ∈ m.pages, a % PGSIZE = 0

theorem FreeSound.apart {m : Kmem} (h : FreeSound m) : Apart (fun a => a ∉ m.pages) m where
  ledger := ⟨h.nodup, fun _ ha _ hn => hn ha, fun _ _ _ _ _ => rfl⟩
  high := h.high
  aligned := h.aligned

/-- The arguments of a successful `exec2` are where `main` looks for them, above
the guard page, and the program is as it was loaded. -/
theorem exec2_arguments {fs : FileSystem} {p : Pidx} {path : CString} {argv : List CString}
    {stacksize : Int} {w w' : World} (hfree : FreeSound w.kernel.kmem)
    (hrun : (exec2 fs p path argv stacksize).run w = .ok (0, w')) :
    ∃ ip pd0 sz0 r0 pd, fs.namei path.chars = some ip ∧
      Loads ip ⟨w.kernel.kmem, w.mem⟩ pd0 sz0 r0 ∧ (w'.kernel.proc p).pgdir = some pd ∧
      NewStack pd0 r0.mem pd w'.mem (PGROUNDUP sz0) stacksize.toNat (w'.kernel.proc p).sz
        (w'.trapframe (w'.kernel.proc p).tf).esp argv := by
  -- such a stack size is refused with -1
  by_cases hn : stacksize < 1 ∨ stacksize > 100
  · rw [exec2, if_pos hn] at hrun
    cases hrun
  obtain ⟨n, rfl⟩ : ∃ n : Nat, stacksize = n := ⟨stacksize.toNat, by omega⟩
  rw [exec2_eq (by omega)] at hrun
  -- a call that returns 0 has built an image and installed it
  have hspec : wp (execWith fs p path argv n) w (fun res w' => res = 0 → ∃ ip pd0 sz0 r0 pd,
      fs.namei path.chars = some ip ∧ Loads ip ⟨w.kernel.kmem, w.mem⟩ pd0 sz0 r0 ∧
      (w'.kernel.proc p).pgdir = some pd ∧
      NewStack pd0 r0.mem pd w'.mem (PGROUNDUP sz0) n (w'.kernel.proc p).sz
        (w'.trapframe (w'.kernel.proc p).tf).esp argv) fun _ => True := by
    unfold execWith
    cases hip : fs.namei path.chars with
    | none => exact (wp_pure ..).2 (by simp)
    | some ip =>
        dsimp only
        rw [wp_bind, wp_assign, wp_bind, onRam, wp_zoom]
        refine (newImage_spec hfree.apart (by omega)).mono ?_ fun _ he => he
        intro res r hres
        cases res with
        | none => exact (wp_pure ..).2 (by simp)
        | some img =>
            rcases hres img rfl with ⟨pd0, sz0, r0, hload, hstack⟩
            refine install_spec.mono ?_ fun _ he => he
            rintro _ w2 ⟨hmem, hpd, hsz, hesp⟩ -
            refine ⟨ip, pd0, sz0, r0, img.pgdir, rfl, hload, hpd, ?_⟩
            rw [hmem, hsz, hesp]
            exact hstack
  exact hspec.of_ok hrun rfl

/-! ## A small machine -/

/-- The ELF header, with one program header after it. -/
def elfHeader : List UInt8 :=
  [0x7F, 0x45, 0x4C, 0x46] ++ List.replicate 20 0 ++ le32 0 ++ le32 SIZEOF_ELFHDR ++
    List.replicate 12 0 ++ [1, 0] ++ List.replicate 6 0

/-- A segment of four bytes in the file and a page in memory, at address 0. -/
def progHeader : List UInt8 :=
  le32 ELF_PROG_LOAD ++ le32 (SIZEOF_ELFHDR + SIZEOF_PROGHDR) ++ le32 0 ++ le32 0 ++ le32 4 ++
    le32 PGSIZE ++ le32 5 ++ le32 PGSIZE

/-- A program that stays where it is: `nop`, `nop`, `jmp .`. -/
def smallProgram : Inode := ⟨elfHeader ++ progHeader ++ [0x90, 0x90, 0xEB, 0xFE]⟩

theorem ls_noNul : (0 : UInt8) ∉ [(108 : UInt8), 115] := by decide

theorem ls_fits : [(108 : UInt8), 115].length + 1 < KERNBASE := by decide

theorem minusL_noNul : (0 : UInt8) ∉ [(45 : UInt8), 108] := by decide

theorem minusL_fits : [(45 : UInt8), 108].length + 1 < KERNBASE := by decide

/-- The string `ls`. -/
def ls : CString := ⟨[108, 115], ls_noNul, ls_fits⟩

/-- The string `-l`. -/
def minusL : CString := ⟨[45, 108], minusL_noNul, minusL_fits⟩

def smallKmem : Kmem := ⟨machine.kend, machine.kend_pos, framesFrom 100⟩

/-- The first process runs, with a directory above the free pages. -/
def firstWorld : World where
  kernel :=
    ((boot smallKmem).setProc 0 fun x =>
      { x with
        pgdir := some ⟨KERNBASE + 0x500000, [], fun _ => none⟩, state := .RUNNING, pid := 1
        thread_id := MAINTH, kstack := KERNBASE + 0x501000 }).setTh 0 fun t =>
      { t with pid := 1, thread_id := MAINTH, kstack := KERNBASE + 0x501000, state := .RUNNING }
  mem := fun _ _ => 0
  name := fun _ _ => 0
  trapframe := fun _ => ⟨0, 0⟩

/-- The free list of the first world is sound. -/
theorem firstWorld_free : FreeSound firstWorld.kernel.kmem where
  nodup := (framesFrom_nodup 100).map Subtype.val_injective
  high := by decide
  aligned := by
    intro a ha
    rcases List.mem_map.1 ha with ⟨v, hv, rfl⟩
    rcases mem_framesFrom hv with ⟨k, -, hk⟩
    rw [hk]
    unfold KERNBASE PGSIZE
    omega

def oneFile : FileSystem := ⟨fun _ => some smallProgram⟩

/-- What `exec2` with two arguments leaves. -/
theorem exec2_arguments_ls : ∃ w' pd0 sz0 r0 pd,
    (exec2 oneFile 0 ls [ls, minusL] 3).run firstWorld = .ok (0, w') ∧
      Loads smallProgram ⟨smallKmem, fun _ _ => 0⟩ pd0 sz0 r0 ∧
      NewStack pd0 r0.mem pd w'.mem (PGROUNDUP sz0) 3 (w'.kernel.proc 0).sz
        (w'.trapframe (w'.kernel.proc 0).tf).esp [ls, minusL] ∧
      (w'.kernel.proc 0).sz = 5 * PGSIZE := by
  have hends : ((exec2 oneFile 0 ls [ls, minusL] 3).run firstWorld).toOption.map (fun r =>
      (r.1, (r.2.kernel.proc 0).sz)) = some (0, 5 * PGSIZE) := by decide +kernel
  cases hrun : (exec2 oneFile 0 ls [ls, minusL] 3).run firstWorld with
  | error e =>
      rw [hrun] at hends
      cases hends
  | ok res =>
      rcases res with ⟨v, w'⟩
      rw [hrun] at hends
      have hends : (v, (w'.kernel.proc 0).sz) = (0, 5 * PGSIZE) := Option.some.inj hends
      rcases Prod.mk.inj hends with ⟨rfl, hsz⟩
      rcases exec2_arguments firstWorld_free hrun with ⟨ip, pd0, sz0, r0, pd, hip, hload, -, hstack⟩
      obtain rfl : smallProgram = ip := Option.some.inj hip
      exact ⟨w', pd0, sz0, r0, pd, rfl, hload, hstack, hsz⟩

end Xv6.Thread.Program
