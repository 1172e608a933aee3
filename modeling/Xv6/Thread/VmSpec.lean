import Mathlib.Logic.Function.Basic
import Xv6.Thread.Vm

/-!
# What the page-table operations do to the set of mapped pages

Each operation is described by the entries it leaves. The only way any of them
stops is `kfree` refusing a page, unless a page to be mapped is mapped already
or a page to be copied is missing.

The descriptions are of sets of pages: a size rounded up and what is mapped below
it. They do not say which frame is at which place, nor that frames are apart; that
needs the ledger of `Thread.Own`. The rules of the last section (`mappages_tame`
and the others) hold in every state, for the results that ask for no invariant of
memory at all.
-/

namespace Xv6.Thread

open Xv6.Lib Prog

/-- `kfree` refuses the page. -/
def BadFree (e : Stop) : Prop := e = .panic "kfree"

/-! ## Entries -/

namespace PageDir

/-- Page `v` is present. -/
def Has (pd : PageDir) (v : Nat) : Prop := (pd.entry v).isSome = true

/-- The page table of page `v` exists. -/
def Tab (pd : PageDir) (v : Nat) : Prop := (pd.pde (v / NPTENTRIES)).isSome = true

instance (pd : PageDir) (v : Nat) : Decidable (pd.Has v) := inferInstanceAs (Decidable (_ = true))

instance (pd : PageDir) (v : Nat) : Decidable (pd.Tab v) := inferInstanceAs (Decidable (_ = true))

/-- A page that is mapped has its table. -/
theorem Has.tab {pd : PageDir} {v : Nat} (h : pd.Has v) : pd.Tab v := by
  unfold Has entry at h
  unfold Tab
  cases hp : pd.pde (v / NPTENTRIES) with
  | none => rw [hp] at h; cases h
  | some t => rfl

theorem entry_of_not_tab {pd : PageDir} {v : Nat} (h : ¬ pd.Tab v) : pd.entry v = none := by
  cases he : pd.entry v with
  | none => rfl
  | some e => exact absurd (Has.tab (by simp [Has, he])) h

/-- All pages of one page table share it. -/
theorem tab_congr {pd : PageDir} {v w : Nat} (h : v / NPTENTRIES = w / NPTENTRIES) :
    pd.Tab v ↔ pd.Tab w := by
  unfold Tab
  rw [h]

/-- An entry is set and the others stay. -/
theorem entry_setEntry {pd : PageDir} {v : Nat} (h : pd.Tab v) (e : Option Pte) (w : Nat) :
    (pd.setEntry v e).entry w = if w = v then e else pd.entry w := by
  unfold Tab at h
  rcases Option.isSome_iff_exists.1 h with ⟨t, ht⟩
  unfold setEntry entry
  rw [ht]
  dsimp only
  by_cases hd : w / NPTENTRIES = v / NPTENTRIES
  · rw [hd, Function.update_self, ht]
    by_cases hm : w % NPTENTRIES = v % NPTENTRIES
    · have hw : w = v := by
        rw [← Nat.div_add_mod w NPTENTRIES, ← Nat.div_add_mod v NPTENTRIES, hd, hm]
      simp [hw]
    · have hw : w ≠ v := fun h => hm (by rw [h])
      simp [hw, hm]
  · have hw : w ≠ v := fun h => hd (by rw [h])
    rw [Function.update_of_ne hd, if_neg hw]

/-- Setting an entry adds no table. -/
theorem tab_setEntry {pd : PageDir} {v w : Nat} {e : Option Pte} :
    (pd.setEntry v e).Tab w ↔ pd.Tab w := by
  unfold setEntry Tab
  cases hp : pd.pde (v / NPTENTRIES) with
  | none => rfl
  | some t =>
      dsimp only
      by_cases hd : w / NPTENTRIES = v / NPTENTRIES
      · rw [hd, Function.update_self, hp]
        simp
      · rw [Function.update_of_ne hd]

/-- A new table maps nothing. -/
theorem entry_setTable {pd : PageDir} {v : Nat} (h : ¬ pd.Tab v) (page w : Nat) :
    (pd.setTable v page).entry w = pd.entry w := by
  by_cases hd : w / NPTENTRIES = v / NPTENTRIES
  · have hw : ¬ pd.Tab w := fun hw => h ((tab_congr hd).1 hw)
    rw [entry_of_not_tab hw]
    unfold setTable entry
    simp [hd]
  · unfold setTable entry
    simp [hd]

theorem tab_setTable {pd : PageDir} {v page : Nat} : (pd.setTable v page).Tab v := by
  simp [setTable, Tab]

end PageDir

/-! ## The allocator -/

namespace Kmem

/-- The number of free pages. -/
def free (m : Kmem) : Nat := m.freelist.length

end Kmem

/-- The free pages by their addresses. -/
def Kmem.pages (m : Kmem) : List Nat := m.freelist.map Subtype.val

theorem Kmem.length_pages (m : Kmem) : m.pages.length = m.free := List.length_map _

/-- `kalloc` has taken page `r`. -/
structure Took (m m' : Kmem) (r : Nat) : Prop where
  pages : m.pages = r :: m'.pages
  kend : m'.kend = m.kend
  ge : m.kend ≤ r

/-- `kfree` has put page `r` back. -/
structure Gave (m m' : Kmem) (r : Nat) : Prop where
  pages : m'.pages = r :: m.pages
  kend : m'.kend = m.kend
  ge : m.kend ≤ r
  aligned : r % PGSIZE = 0

theorem Took.free {m m' : Kmem} {r : Nat} (h : Took m m' r) : m.free = m'.free + 1 := by
  rw [← m.length_pages, ← m'.length_pages, h.pages, List.length_cons]

theorem Took.pos {m m' : Kmem} {r : Nat} (h : Took m m' r) : 0 < r :=
  Nat.lt_of_lt_of_le m.kend_pos h.ge

theorem Gave.pos {m m' : Kmem} {r : Nat} (h : Gave m m' r) : 0 < r :=
  Nat.lt_of_lt_of_le m.kend_pos h.ge

/-- `kalloc` takes one page, or there is none. -/
theorem kalloc_took {m : Kmem} {Q : Option Nat → Kmem → Prop} {E : Stop → Prop}
    (hnone : m.free = 0 → Q none m) (hsome : ∀ r m', Took m m' r → Q (some r) m') :
    wp kalloc m Q E := by
  unfold kalloc
  simp only [wp_bind, wp_get]
  cases hm : m.freelist with
  | nil => exact (wp_pure ..).2 (hnone (by rw [Kmem.free, hm]; rfl))
  | cons r l =>
      simp only [wp_bind, wp_set, wp_pure]
      exact hsome r.1 _ ⟨by rw [Kmem.pages, hm]; rfl, rfl, r.2⟩

theorem kalloc_wp {m : Kmem} {Q : Option Nat → Kmem → Prop} {E : Stop → Prop}
    (hnone : m.free = 0 → Q none m)
    (hsome : ∀ r m', 0 < r → m.free = m'.free + 1 → Q (some r) m') :
    wp kalloc m Q E :=
  kalloc_took hnone fun r m' h => hsome r m' h.pos h.free

/-- `kfree` gives one page back, or panics on an address it does not like. -/
theorem kfree_gave {m : Kmem} {v : Nat} {Q : Unit → Kmem → Prop} {E : Stop → Prop}
    (h : ∀ m', Gave m m' v → Q () m') (hE : ∀ e, BadFree e → E e) : wp (kfree v) m Q E := by
  unfold kfree
  simp only [wp_bind, wp_get]
  split
  · exact (wp_throw ..).2 (hE _ rfl)
  · next hok =>
    refine (wp_set ..).2 (h _ ⟨rfl, rfl, ?_, ?_⟩)
    · by_contra hne
      exact hok (.inr (.inl (by omega)))
    · by_contra hne
      exact hok (.inl hne)

theorem kfree_wp {m : Kmem} {v : Nat} {Q : Unit → Kmem → Prop} {E : Stop → Prop}
    (h : ∀ m', Q () m') (hE : ∀ e, BadFree e → E e) : wp (kfree v) m Q E :=
  kfree_gave (fun m' _ => h m') hE

/-- Giving several pages back. -/
theorem kfreeAll_wp {vs : List Nat} {m : Kmem} {Q : Unit → Kmem → Prop} (h : ∀ m', Q () m') :
    wp (kfreeAll vs) m Q BadFree := by
  induction vs generalizing m with
  | nil => exact (wp_pure ..).2 (h m)
  | cons v vs ih =>
      unfold kfreeAll
      rw [wp_bind]
      exact kfree_wp (fun _ => ih) fun _ he => he

/-! ## walkpgdir and mappages -/

/-- `walkpgdir` that only looks. -/
theorem walkpgdir_look {pd : PageDir} {v : Nat} {m : Kmem} {Q : PageDir × Bool → Kmem → Prop}
    {E : Stop → Prop} (h : ∀ b, (b = true ↔ pd.Tab v) → Q (pd, b) m) :
    wp (walkpgdir pd v false) m Q E := by
  unfold walkpgdir
  split
  · next ht => simpa using h true (by simpa [PageDir.Tab] using ht)
  · next ht => simpa using h false (by simpa [PageDir.Tab] using ht)

/-- What `walkpgdir` with `alloc` set leaves. -/
structure Walked (pd pd' : PageDir) (v : Nat) (found : Bool) : Prop where
  entry : ∀ w, pd'.entry w = pd.entry w
  tab : found = true → pd'.Tab v

/-- `walkpgdir` that makes the table it misses takes one page at most. -/
theorem walkpgdir_wp {pd : PageDir} {v : Nat} {m : Kmem} {E : Stop → Prop} :
    wp (walkpgdir pd v true) m
      (fun r m' => Walked pd r.1 v r.2 ∧ m.free ≤ m'.free + 1 ∧ (m.free ≠ 0 → r.2 = true)) E := by
  unfold walkpgdir
  split
  · next ht => simpa using Walked.mk (fun _ => rfl) fun _ => ht
  · next ht =>
      simp only [Bool.true_eq_false, if_false, wp_bind]
      refine kalloc_wp ?_ ?_
      · intro hm
        have hw : Walked pd pd v false := ⟨fun _ => rfl, by simp⟩
        simpa [hm] using hw
      · intro r m' _ hm
        have hw : Walked pd (pd.setTable v r) v true :=
          ⟨PageDir.entry_setTable ht r, fun _ => PageDir.tab_setTable⟩
        simpa [hm] using hw

/-- What `mappages` leaves; it stops where the page is mapped already. -/
theorem mappages_wp {pd : PageDir} {v : Nat} {e : Pte} {m : Kmem} {E : Stop → Prop}
    (hE : pd.Has v → E (.panic "remap")) :
    wp (mappages pd v e) m
      (fun r m' => (∀ w, r.1.entry w = if w = v ∧ r.2 = true then some e else pd.entry w) ∧
        m.free ≤ m'.free + 1 ∧ (m.free ≠ 0 → r.2 = true)) E := by
  unfold mappages
  rw [wp_bind]
  refine wp.mono walkpgdir_wp ?_ fun _ he => he
  rintro ⟨pd', found⟩ m' ⟨hw, hm, hf⟩
  cases found with
  | false =>
      simp only [if_true, wp_pure]
      refine ⟨fun w => ?_, hm, hf⟩
      rw [if_neg (by simp), hw.entry]
  | true =>
      simp only [Bool.true_eq_false, if_false]
      refine wp_ite (fun hn => ?_) fun hn => (wp_pure ..).2 ?_
      · refine (wp_throw ..).2 (hE ?_)
        rw [hw.entry] at hn
        exact hn
      refine ⟨fun w => ?_, hm, fun _ => rfl⟩
      rw [PageDir.entry_setEntry (hw.tab rfl), hw.entry]
      simp

/-! ## deallocuvm -/

/-- The loop of `deallocuvm`: every page from here to the old size is unmapped. By induction
on the pages. -/
theorem deallocFrom_wp {oldsz n v : Nat} {pd : PageDir} {m : Kmem}
    (hn : oldsz ≤ (v + n) * PGSIZE) :
    wp (deallocFrom oldsz n v pd) m
      (fun pd' _ => ∀ w, pd'.entry w = if v ≤ w ∧ w * PGSIZE < oldsz then none else pd.entry w)
      BadFree := by
  induction n generalizing v pd m with
  | zero =>
      refine (wp_pure ..).2 fun w => ?_
      rw [if_neg]
      rintro ⟨hv, hw⟩
      have : v * PGSIZE ≤ w * PGSIZE := Nat.mul_le_mul_right _ hv
      rw [Nat.add_zero] at hn
      omega
  | succ n ih =>
      unfold deallocFrom
      refine wp_ite (fun hv => ?_) fun hv => ?_
      · -- the loop is past `oldsz`
        refine (wp_pure ..).2 fun w => ?_
        rw [if_neg]
        rintro ⟨hw, hw'⟩
        have : v * PGSIZE ≤ w * PGSIZE := Nat.mul_le_mul_right _ hw
        omega
      rw [wp_bind]
      refine walkpgdir_look fun found hfound => ?_
      dsimp only
      refine wp_ite (fun hf => ?_) fun hf => ?_
      · -- no page table: every page it would hold is absent
        have htab : ¬ pd.Tab v := fun ht => by rw [hfound.2 ht] at hf; cases hf
        have hle : v + 1 ≤ (v / NPTENTRIES + 1) * NPTENTRIES := by
          have := Nat.lt_div_mul_add (a := v) (b := NPTENTRIES) (by decide)
          rw [Nat.add_mul]
          omega
        refine wp.mono (ih ?_) (fun pd' _ h w => ?_) fun _ he => he
        · refine Nat.le_trans hn (Nat.mul_le_mul_right _ ?_)
          omega
        · rw [h]
          by_cases hw : v ≤ w ∧ w < (v / NPTENTRIES + 1) * NPTENTRIES
          · have hd : w / NPTENTRIES = v / NPTENTRIES := by
              have h1 : v / NPTENTRIES ≤ w / NPTENTRIES := Nat.div_le_div_right hw.1
              have h2 : w / NPTENTRIES < v / NPTENTRIES + 1 :=
                (Nat.div_lt_iff_lt_mul (by decide)).2 hw.2
              omega
            have hnone : pd.entry w = none :=
              PageDir.entry_of_not_tab fun ht => htab ((PageDir.tab_congr hd).1 ht)
            simp [hnone]
          · by_cases hw' : (v / NPTENTRIES + 1) * NPTENTRIES ≤ w
            · have : v ≤ w := by omega
              simp [hw', this]
            · have : ¬ v ≤ w := by omega
              simp [hw', this]
      -- the table is there: this page is unmapped, or was not mapped
      · have htab : pd.Tab v := hfound.1 (by simpa using hf)
        have hn' : oldsz ≤ (v + 1 + n) * PGSIZE := by
          have : v + 1 + n = v + (n + 1) := by omega
          rwa [this]
        have hstep : ∀ w, (if v ≤ w ∧ w * PGSIZE < oldsz then none else pd.entry w) =
            if v + 1 ≤ w ∧ w * PGSIZE < oldsz then none
            else if w = v then none else pd.entry w := by
          intro w
          by_cases hw : w = v
          · subst hw
            simp [not_not.1 hv]
          · have : v ≤ w ↔ v + 1 ≤ w := by omega
            simp [hw, this]
        cases he : pd.entry v with
        | none =>
            dsimp only
            refine wp.mono (ih hn') (fun pd' _ h w => ?_) fun _ he => he
            rw [h, hstep]
            by_cases hw : w = v
            · simp [hw, he]
            · simp [hw]
        | some e =>
            dsimp only
            refine wp_ite (fun _ => (wp_throw ..).2 rfl) fun _ => ?_
            rw [wp_bind]
            refine kfree_wp (fun m' => ?_) fun _ he => he
            refine wp.mono (ih hn') (fun pd' _ h w => ?_) fun _ he => he
            rw [h, hstep, PageDir.entry_setEntry htab]

/-- The pages `[newsz, oldsz)` that `deallocuvm` and `allocuvm` loop over. -/
def InRange (newsz oldsz v : Nat) : Prop := pgUp newsz ≤ v ∧ v * PGSIZE < oldsz

instance (a b v : Nat) : Decidable (InRange a b v) := inferInstanceAs (Decidable (_ ∧ _))

/-- `deallocuvm` unmaps the pages above the new size and no other. -/
theorem deallocuvm_wp {pd : PageDir} {oldsz newsz : Nat} {m : Kmem} :
    wp (deallocuvm pd oldsz newsz) m
      (fun r _ => (r.2 = if newsz ≥ oldsz then oldsz else newsz) ∧
        ∀ w, r.1.entry w = if newsz < oldsz ∧ InRange newsz oldsz w then none else pd.entry w)
      BadFree := by
  unfold deallocuvm
  refine wp_ite (fun h => ?_) fun h => ?_
  · have h' : ¬ newsz < oldsz := by omega
    simp [h, h']
  · have h' : newsz < oldsz := by omega
    rw [wp_bind]
    refine wp.mono (deallocFrom_wp ?_) (fun pd' m' hpd => ?_) fun _ he => he
    · have := Nat.lt_div_mul_add (a := oldsz) (b := PGSIZE) (by decide)
      have h1 : oldsz ≤ (oldsz / PGSIZE + 1) * PGSIZE := by
        rw [Nat.add_mul]
        omega
      exact Nat.le_trans h1 (Nat.mul_le_mul_right _ (by omega))
    · simp only [wp_pure, h, if_false, true_and, h']
      exact hpd

/-! ## allocuvm -/

theorem pgUp_eq {sz : Nat} (h : sz ≤ KERNBASE) : pgUp sz = pages sz := by
  unfold pgUp pages
  rw [Nat.mod_eq_of_lt]
  unfold KERNBASE PGSIZE at *
  omega

theorem lt_pages {sz v : Nat} : v < pages sz ↔ v * PGSIZE < sz := by
  unfold pages PGSIZE
  omega

/-- The pages `[oldsz, newsz)` have been mapped and no other changed. -/
structure Grown (pd pd' : PageDir) (oldsz newsz : Nat) : Prop where
  mapped : ∀ w, InRange oldsz newsz w → ∃ e, pd'.entry w = some e ∧ e.user = true
  same : ∀ w, ¬ InRange oldsz newsz w → pd'.entry w = pd.entry w

/-- The only other way to stop: a page of the range is mapped already. -/
def Remaps (pd : PageDir) (oldsz newsz : Nat) (e : Stop) : Prop :=
  e = .panic "remap" ∧ ∃ w, InRange oldsz newsz w ∧ pd.Has w

/-- The loop of `allocuvm`: every page up to the new size is mapped, or what was mapped is
taken back. By induction on the pages. -/
theorem allocFrom_wp {oldsz newsz n v : Nat} {pd0 pd : PageDir} {m : Kmem}
    (hnew : newsz < KERNBASE) (hold : oldsz ≤ newsz) (hv : pgUp oldsz ≤ v)
    (hn : newsz ≤ (v + n) * PGSIZE)
    (hdone : ∀ w, w < v → InRange oldsz newsz w → ∃ e, pd.entry w = some e ∧ e.user = true)
    (hsame : ∀ w, v ≤ w ∨ ¬ InRange oldsz newsz w → pd.entry w = pd0.entry w) :
    wp (allocFrom oldsz newsz n v pd) m
      (fun r _ => (r.2 = newsz ∧ Grown pd0 r.1 oldsz newsz) ∨
        (r.2 = 0 ∧ ∀ w, r.1.entry w = if InRange oldsz newsz w then none else pd0.entry w))
      (fun e => BadFree e ∨ Remaps pd0 oldsz newsz e) := by
  have hret : ∀ {v pd}, (∀ w, w < v → InRange oldsz newsz w →
      ∃ e, pd.entry w = some e ∧ e.user = true) →
      (∀ w, v ≤ w ∨ ¬ InRange oldsz newsz w → pd.entry w = pd0.entry w) →
      newsz ≤ v * PGSIZE → Grown pd0 pd oldsz newsz := by
    intro v pd hdone hsame hle
    refine ⟨fun w hw => hdone w ?_ hw, fun w hw => hsame w (.inr hw)⟩
    have hlt : w * PGSIZE < v * PGSIZE := Nat.lt_of_lt_of_le hw.2 hle
    exact Nat.lt_of_mul_lt_mul_right hlt
  induction n generalizing v pd m with
  | zero => exact (wp_pure ..).2 (.inl ⟨rfl, hret hdone hsame hn⟩)
  | succ n ih =>
      unfold allocFrom
      refine wp_ite (fun hlt => ?_) fun hlt => ?_
      · exact (wp_pure ..).2 (.inl ⟨rfl, hret hdone hsame (by omega)⟩)
      have hlt : v * PGSIZE < newsz := not_not.1 hlt
      have hrange : InRange oldsz newsz v := ⟨hv, hlt⟩
      have hne : oldsz < newsz := by
        rw [pgUp_eq (by omega)] at hv
        unfold pages PGSIZE at *
        omega
      -- giving up takes back the whole range
      have hback : ∀ (pd' pd'' : PageDir), (∀ w, w ≠ v → pd'.entry w = pd.entry w) →
          (∀ w, pd''.entry w = if oldsz < newsz ∧ InRange oldsz newsz w then none
            else pd'.entry w) →
          ∀ w, pd''.entry w = if InRange oldsz newsz w then none else pd0.entry w := by
        intro pd' pd'' h' h'' w
        rw [h'']
        by_cases hw : InRange oldsz newsz w
        · rw [if_pos ⟨hne, hw⟩, if_pos hw]
        · have hwv : w ≠ v := by
            rintro rfl
            exact hw hrange
          rw [if_neg fun h => hw h.2, if_neg hw, h' w hwv, hsame w (.inr hw)]
      rw [wp_bind]
      refine kalloc_wp (fun _ => ?_) fun mem m1 _ _ => ?_
      · dsimp only
        rw [wp_bind]
        refine wp.mono deallocuvm_wp (fun r _ hr => ?_) fun _ he => .inl he
        exact (wp_pure ..).2 (.inr ⟨rfl, hback pd r.1 (fun _ _ => rfl) hr.2⟩)
      · dsimp only
        rw [wp_bind]
        have hre : pd.Has v → pd0.Has v := by
          unfold PageDir.Has
          rw [hsame v (.inl (Nat.le_refl v))]
          exact id
        refine wp.mono (mappages_wp fun h => .inr ⟨rfl, v, hrange, hre h⟩) (fun r _ hr => ?_)
          fun _ he => he
        rcases r with ⟨pd', ok⟩
        rcases hr with ⟨hentry, -, -⟩
        dsimp only at hentry ⊢
        have hv' : ∀ w, w ≠ v → pd'.entry w = pd.entry w := by
          intro w hw
          rw [hentry, if_neg (by simp [hw])]
        refine wp_ite (fun hok => ?_) fun hok => ?_
        · rw [wp_bind]
          refine wp.mono deallocuvm_wp (fun r _ hr => ?_) fun _ he => .inl he
          rw [wp_bind]
          exact kfree_wp (fun _ => (wp_pure ..).2 (.inr ⟨rfl, hback pd' r.1 hv' hr.2⟩))
            fun _ he => .inl he
        · have hok : ok = true := by simpa using hok
          have hself : pd'.entry v = some ⟨V2P mem, true⟩ := by
            rw [hentry, if_pos ⟨rfl, hok⟩]
          refine ih (by omega) ?_ (fun w hw hr => ?_) fun w hw => ?_
          · have : v + 1 + n = v + (n + 1) := by omega
            rwa [this]
          · by_cases hwv : w = v
            · subst hwv
              exact ⟨_, hself, rfl⟩
            · rw [hv' w hwv]
              exact hdone w (by omega) hr
          · have hwv : w ≠ v := by
              rintro rfl
              rcases hw with hw | hw
              · omega
              · exact hw hrange
            rw [hv' w hwv]
            exact hsame w (hw.imp (fun h => by omega) id)

/-- `allocuvm` maps the whole range; or, the new size being smaller, nothing; or
it fails, and then nothing of the range is mapped if it was begun at all. -/
theorem allocuvm_any {pd : PageDir} {oldsz newsz : Nat} {m : Kmem} :
    wp (allocuvm pd oldsz newsz) m
      (fun r _ => (oldsz ≤ newsz ∧ newsz < KERNBASE ∧ r.2 = newsz ∧ Grown pd r.1 oldsz newsz) ∨
        (newsz < oldsz ∧ r = (pd, oldsz)) ∨ (r.2 = 0 ∧ ((∀ w, r.1.entry w = pd.entry w) ∨
          ∀ w, r.1.entry w = if InRange oldsz newsz w then none else pd.entry w)))
      (fun e => BadFree e ∨ Remaps pd oldsz newsz e) := by
  unfold allocuvm
  refine wp_ite (fun _ => (wp_pure ..).2 (.inr (.inr ⟨rfl, .inl fun _ => rfl⟩))) fun hk => ?_
  refine wp_ite (fun h => (wp_pure ..).2 (.inr (.inl ⟨h, rfl⟩))) fun h => ?_
  have hold : oldsz ≤ newsz := by omega
  have hnew : newsz < KERNBASE := by omega
  refine wp.mono (allocFrom_wp hnew hold (Nat.le_refl _) ?_ ?_ ?_)
    (fun r _ hr => ?_) fun _ he => he
  · have h1 := Nat.lt_div_mul_add (a := newsz) (b := PGSIZE) (by decide)
    have h2 : newsz ≤ (newsz / PGSIZE + 1) * PGSIZE := by
      rw [Nat.add_mul]
      omega
    exact Nat.le_trans h2 (Nat.mul_le_mul_right _ (by omega))
  · intro w hw hr
    exact absurd hr.1 (by omega)
  · exact fun _ _ => rfl
  · rcases hr with ⟨h1, h2⟩ | ⟨h1, h2⟩
    · exact .inl ⟨hold, hnew, h1, h2⟩
    · exact .inr (.inr ⟨h1, .inr h2⟩)

/-- `clearpteu` takes one page from the user. -/
theorem clearpteu_wp {pd : PageDir} {v : Nat} {m : Kmem} {E : Stop → Prop}
    (hE : ¬ pd.Tab v → E (.panic "clearpteu")) :
    wp (clearpteu pd v) m
      (fun pd' m' => m' = m ∧ ∀ w, pd'.entry w =
        if w = v then (pd.entry v).map fun e => { e with user := false } else pd.entry w) E := by
  unfold clearpteu
  rw [wp_bind]
  refine walkpgdir_look fun found hf => ?_
  refine wp_ite (fun h => (wp_throw ..).2 (hE fun ht => ?_)) fun h => (wp_pure ..).2 ⟨rfl, ?_⟩
  · rw [hf.2 ht] at h
    cases h
  · exact fun w => PageDir.entry_setEntry (hf.1 (by simpa using h)) _ w

/-- `clearpteu` unmaps nothing. -/
theorem has_of_cleared {pd pd' : PageDir} {v : Nat}
    (h : ∀ w, pd'.entry w =
      if w = v then (pd.entry v).map fun e => { e with user := false } else pd.entry w)
    (w : Nat) : pd'.Has w ↔ pd.Has w := by
  unfold PageDir.Has
  rw [h]
  split
  · next hw => simp [hw]
  · rfl

/-! ## Whole page directories -/

/-- `freevm` panics on a bad address or returns. -/
theorem freevm_wp {pd : PageDir} {m : Kmem} {Q : Unit → Kmem → Prop} (h : ∀ m', Q () m') :
    wp (freevm pd) m Q BadFree := by
  unfold freevm
  rw [wp_bind]
  refine wp.mono deallocuvm_wp (fun r _ _ => ?_) fun _ he => he
  simp only [wp_bind]
  exact kfreeAll_wp fun m1 => kfreeAll_wp fun m2 => kfree_wp h fun _ he => he

/-- Mapping the kernel leaves the user's half alone, and succeeds where the pages are there. -/
theorem mapKernel_wp {n : Nat} {pd : PageDir} {m : Kmem} {E : Stop → Prop} :
    wp (mapKernel n pd) m
      (fun r m' => r.1.pde = pd.pde ∧
        (n ≤ m.free → r.2 = true ∧ m'.free + n = m.free)) E := by
  induction n generalizing pd m with
  | zero => exact (wp_pure ..).2 ⟨rfl, fun _ => ⟨rfl, rfl⟩⟩
  | succ n ih =>
      unfold mapKernel
      rw [wp_bind]
      refine kalloc_wp (fun hm => ?_) fun page m1 _ hm => ?_
      · refine (wp_pure ..).2 ⟨rfl, fun hle => ?_⟩
        omega
      · refine wp.mono ih (fun r m' hr => ⟨hr.1, fun hle => ?_⟩) fun _ he => he
        have := hr.2 (by omega)
        exact ⟨this.1, by have := this.2; omega⟩

/-- An empty user half. -/
theorem entry_of_pde {pd : PageDir} (h : pd.pde = fun _ => none) (v : Nat) :
    pd.entry v = none := by
  simp [PageDir.entry, h]

/-- A new page table maps nothing of the user. -/
theorem setupkvm_wp {m : Kmem} :
    wp setupkvm m (fun r _ => ∀ pd, r = some pd → ∀ v, pd.entry v = none) BadFree := by
  unfold setupkvm
  rw [wp_bind]
  refine kalloc_wp (fun _ => (wp_pure ..).2 (by simp)) fun page m1 _ _ => ?_
  dsimp only
  rw [wp_bind]
  refine wp.mono mapKernel_wp (fun r m' hr => ?_) fun _ he => he
  refine wp_ite (fun _ => ?_) fun _ => (wp_pure ..).2 ?_
  · rw [wp_bind]
    exact freevm_wp fun _ => (wp_pure ..).2 (by simp)
  · intro pd hpd v
    cases hpd
    exact entry_of_pde hr.1 v

/-- With enough pages, `setupkvm` succeeds and takes no more than it needs. -/
theorem setupkvm_ends {m : Kmem} (h : NKTABS + 1 ≤ m.free) :
    Ends setupkvm m (fun r m' => (∃ pd, r = some pd ∧ pd.pde = fun _ => none) ∧
      m'.free + (NKTABS + 1) = m.free) := by
  unfold setupkvm
  rw [Ends, wp_bind]
  refine kalloc_wp (fun hm => ?_) fun page m1 _ hm => ?_
  · omega
  · dsimp only
    rw [wp_bind]
    refine wp.mono mapKernel_wp (fun r m' hr => ?_) fun _ he => he
    have hr2 := hr.2 (by omega)
    rw [if_neg (by simp [hr2.1])]
    refine (wp_pure ..).2 ⟨⟨r.1, rfl, hr.1⟩, ?_⟩
    have := hr2.2
    omega

/-- `d` holds the first `n` pages of `pd`, with their flags. -/
def CopyOf (pd d : PageDir) (n : Nat) : Prop :=
  ∀ w, (d.entry w).map Pte.user = if w < n then (pd.entry w).map Pte.user else none

/-- One page more is copied. -/
theorem CopyOf.step {pd d d' : PageDir} {v : Nat} {e : Pte} {k : Nat} (h : CopyOf pd d v)
    (he : pd.entry v = some e)
    (hd : ∀ w, d'.entry w = if w = v then some ⟨k, e.user⟩ else d.entry w) :
    CopyOf pd d' (v + 1) := by
  intro w
  rw [hd]
  by_cases hw : w = v
  · subst hw
    simp [he]
  · have : w < v + 1 ↔ w < v := by omega
    simp only [hw, if_false, this]
    exact h w

theorem CopyOf.not_has {pd d : PageDir} {v : Nat} (h : CopyOf pd d v) : ¬ d.Has v := by
  have := h v
  rw [if_neg (by omega), Option.map_eq_none_iff] at this
  simp [PageDir.Has, this]

/-- The loop of `copyuvm`. By induction on the pages. -/
theorem copyFrom_wp {pd d : PageDir} {n v : Nat} {m : Kmem}
    (hpd : ∀ w, w < v + n → pd.Has w) (hd : CopyOf pd d v) :
    wp (copyFrom pd n v d) m (fun r _ => ∀ d', r = some d' → CopyOf pd d' (v + n)) BadFree := by
  induction n generalizing v d m with
  | zero =>
      refine (wp_pure ..).2 fun d' h => ?_
      cases h
      exact hd
  | succ n ih =>
      have hv : pd.Has v := hpd v (by omega)
      unfold copyFrom
      rw [wp_bind]
      refine walkpgdir_look fun found hf => ?_
      rw [hf.2 hv.tab]
      -- the page is mapped, so the panic is not taken
      rcases Option.isSome_iff_exists.1 hv with ⟨e, he⟩
      simp only [Bool.true_eq_false, if_false, he, wp_bind]
      refine kalloc_wp (fun _ => ?_) fun mem m1 _ _ => ?_
      · rw [wp_bind]
        exact freevm_wp fun _ => (wp_pure ..).2 (by simp)
      -- the copy is mapped at the same place, or there is no page for its table
      · dsimp only
        rw [wp_bind]
        refine wp.mono (mappages_wp fun h => absurd h hd.not_has) (fun r m' hr => ?_) fun _ he => he
        rcases r with ⟨d', ok⟩
        cases ok with
        | false =>
            simp only [if_true, wp_bind]
            exact kfree_wp (fun _ => freevm_wp fun _ => (wp_pure ..).2 (by simp)) fun _ he => he
        | true =>
            simp only [Bool.true_eq_false, if_false]
            have heq : v + (n + 1) = v + 1 + n := by omega
            rw [heq] at hpd ⊢
            refine ih hpd (hd.step he (k := V2P mem) fun w => ?_)
            simpa using hr.1 w

/-- Where no page below `sz` is missing, `copyuvm` copies them all or gives up. -/
theorem copyuvm_wp {pd : PageDir} {sz : Nat} {m : Kmem} (hpd : ∀ w, w < pages sz → pd.Has w) :
    wp (copyuvm pd sz) m (fun r _ => ∀ d, r = some d → CopyOf pd d (pages sz)) BadFree := by
  unfold copyuvm
  rw [wp_bind]
  refine wp.mono setupkvm_wp (fun r m' hr => ?_) fun _ he => he
  cases r with
  | none => exact (wp_pure ..).2 (by simp)
  | some d =>
      have hd : CopyOf pd d 0 := fun w => by simp [hr d rfl]
      have hw : ∀ w, w < 0 + pages sz → pd.Has w := fun w hw => hpd w (by omega)
      simpa using copyFrom_wp (m := m') hw hd

/-- And it ends where two pages are free for each that is copied. -/
theorem copyFrom_ends {pd d : PageDir} {n v : Nat} {m : Kmem}
    (hpd : ∀ w, w < v + n → pd.Has w) (hd : CopyOf pd d v) (hm : 2 * n ≤ m.free) :
    Ends (copyFrom pd n v d) m (fun r m' => (∃ d', r = some d' ∧ CopyOf pd d' (v + n)) ∧
      m.free ≤ m'.free + 2 * n) := by
  induction n generalizing v d m with
  | zero => exact (wp_pure ..).2 ⟨⟨d, rfl, hd⟩, Nat.le_refl _⟩
  | succ n ih =>
      have hv : pd.Has v := hpd v (by omega)
      unfold copyFrom
      rw [Ends, wp_bind]
      refine walkpgdir_look fun found hf => ?_
      rw [hf.2 hv.tab]
      rcases Option.isSome_iff_exists.1 hv with ⟨e, he⟩
      simp only [Bool.true_eq_false, if_false, he, wp_bind]
      refine kalloc_wp (fun h => ?_) fun mem m1 _ hl => ?_
      -- there is a page, for two are counted for each
      · omega
      · dsimp only
        rw [wp_bind]
        refine wp.mono (mappages_wp fun h => absurd h hd.not_has) (fun r m' hr => ?_)
          fun _ he => he
        rcases r with ⟨d', ok⟩
        rcases hr with ⟨hentry, hm', hok⟩
        have hok : ok = true := hok (by omega)
        subst hok
        simp only [Bool.true_eq_false, if_false]
        have heq : v + (n + 1) = v + 1 + n := by omega
        rw [heq] at hpd ⊢
        refine wp.mono (ih hpd (hd.step he (k := V2P mem) fun w => ?_) (by omega))
          (fun r m'' hr => ⟨hr.1, ?_⟩) fun _ he => he
        · simpa using hentry w
        · have := hr.2
          omega

/-- The pages `copyuvm` may need for `sz` bytes. -/
def copyNeed (sz : Nat) : Nat := NKTABS + 1 + 2 * pages sz

/-- With enough free pages, `copyuvm` copies them all. -/
theorem copyuvm_ends {pd : PageDir} {sz : Nat} {m : Kmem} (hpd : ∀ w, w < pages sz → pd.Has w)
    (hm : copyNeed sz ≤ m.free) :
    Ends (copyuvm pd sz) m (fun r m' => (∃ d, r = some d ∧ CopyOf pd d (pages sz)) ∧
      m.free ≤ m'.free + copyNeed sz) := by
  unfold copyNeed at *
  unfold copyuvm
  rw [Ends, wp_bind]
  refine wp.mono (setupkvm_ends (by omega)) (fun r m' hr => ?_) fun _ he => he
  rcases hr with ⟨⟨d, rfl, hempty⟩, hlen⟩
  have hd : CopyOf pd d 0 := fun w => by simp [entry_of_pde hempty]
  have hw : ∀ w, w < 0 + pages sz → pd.Has w := fun w hw => hpd w (by omega)
  refine wp.mono (copyFrom_ends hw hd (by omega)) (fun r m'' hr => ?_) fun _ he => he
  rw [Nat.zero_add] at hr
  exact ⟨hr.1, by have := hr.2; omega⟩

/-! ## Ranges above a size -/

theorem pages_le_pgUp {sz n : Nat} (h : sz ≤ PGROUNDUP n) : pages sz ≤ pgUp n := by
  unfold PGROUNDUP at h
  unfold pages PGSIZE at *
  omega

theorem pgUp_PGROUNDUP (n : Nat) : pgUp (PGROUNDUP n) = pgUp n := by
  unfold PGROUNDUP pgUp PGSIZE
  omega

/-- A range that starts at or above `sz` holds no page below it. -/
theorem not_inRange {sz a b v : Nat} (h : pages sz ≤ pgUp a) (hv : v < pages sz) :
    ¬ InRange a b v := fun hr => by
  have := hr.1
  omega

/-- Growing from `a` on leaves no hole where there was none below `sz`. -/
theorem Grown.full {pd pd' : PageDir} {a sz newsz : Nat} (h : Grown pd pd' a newsz)
    (ha : pgUp a = pages sz) (hpd : ∀ v, v < pages sz → pd.Has v) (v : Nat)
    (hv : v < pages newsz) : pd'.Has v := by
  by_cases hr : InRange a newsz v
  · rcases h.mapped v hr with ⟨e, he, -⟩
    simp [PageDir.Has, he]
  · have hlt : v < pages sz := by
      by_contra hge
      exact hr ⟨by omega, lt_pages.1 hv⟩
    unfold PageDir.Has
    rw [h.same v hr]
    exact hpd v hlt

/-- Whatever `allocuvm` does from `sz` on, no page below `sz` goes. -/
theorem alloc_has {pd pd' : PageDir} {a sz newsz r : Nat}
    (h : (a ≤ newsz ∧ newsz < KERNBASE ∧ r = newsz ∧ Grown pd pd' a newsz) ∨
      (newsz < a ∧ (pd', r) = (pd, a)) ∨ (r = 0 ∧ ((∀ w, pd'.entry w = pd.entry w) ∨
        ∀ w, pd'.entry w = if InRange a newsz w then none else pd.entry w)))
    (ha : pages sz ≤ pgUp a) (v : Nat) (hv : v < pages sz) (hpd : pd.Has v) : pd'.Has v := by
  have hr : ¬ InRange a newsz v := not_inRange ha hv
  unfold PageDir.Has at *
  rcases h with ⟨-, -, -, h⟩ | ⟨-, h⟩ | ⟨-, h | h⟩
  · rwa [h.same v hr]
  · cases h
    exact hpd
  · rwa [h]
  · rwa [h, if_neg hr]

/-! ## Reads -/

/-- `uva2ka` faults on a missing table or says whether the user may use the page. -/
theorem uva2ka_wp {pd : PageDir} {v : Nat} {m : Kmem} {Q : Bool → Kmem → Prop} {E : Stop → Prop}
    (h : ∀ b, Q b m) (hE : E .fault) : wp (uva2ka pd v) m Q E := by
  unfold uva2ka
  refine wp_ite (fun _ => (wp_pure ..).2 (h _)) fun _ => ?_
  rw [wp_bind]
  refine walkpgdir_look fun found _ => ?_
  exact wp_ite (fun _ => (wp_throw ..).2 hE) fun _ => (wp_pure ..).2 (h _)

/-- `copyout` takes no page. -/
theorem copyout_wp {pd : PageDir} {va len : Nat} {m : Kmem} {Q : Bool → Kmem → Prop}
    {E : Stop → Prop} (h : ∀ b, Q b m) (hE : E .fault) : wp (copyout pd va len) m Q E := by
  have hfrom : ∀ n v, wp (copyoutFrom pd n v) m Q E := by
    intro n
    induction n with
    | zero => exact fun v => (wp_pure ..).2 (h _)
    | succ n ih =>
        intro v
        unfold copyoutFrom
        rw [wp_bind]
        refine uva2ka_wp (fun b => ?_) hE
        exact wp_ite (fun _ => (wp_pure ..).2 (h _)) fun _ => ih _
  unfold copyout
  exact wp_ite (fun _ => (wp_pure ..).2 (h _)) fun _ => hfrom _ _

/-! ## What stops code on page tables -/

/-- The code does not free the kernel stack it runs on. -/
def OffStack {σ α : Type} (x : Prog Stop σ α) :
    Prop := Within (fun _ _ => True) (fun e => e ≠ .stack) x

namespace OffStack

variable {σ α β : Type}

theorem bind {x : Prog Stop σ α} {f : α → Prog Stop σ β} (hx : OffStack x)
    (hf : ∀ a, OffStack (f a)) : OffStack (x >>= f) :=
  Within.bind (fun _ _ _ _ _ => trivial) hx hf

theorem pure (a : α) : OffStack (pure a : Prog Stop σ α) := Within.pure (fun _ => trivial) a

theorem modify (f : σ → σ) : OffStack (modify f : Prog Stop σ PUnit) :=
    Within.modify fun _ => trivial

theorem ite {c : Prop} [Decidable c] {x y : Prog Stop σ α} (hx : OffStack x) (hy : OffStack y) :
    OffStack (if c then x else y) := Within.ite (fun _ => hx) fun _ => hy

theorem panic (msg : String) : OffStack (throw (.panic msg) : Prog Stop σ α) :=
    Within.throw (by simp)

end OffStack

/-- The code leaves the end of the kernel where it is, and does not free the kernel
stack it runs on. -/
def Tame {α : Type} (x : KM α) : Prop :=
  Within (fun m m' => m'.kend = m.kend) (fun e => e ≠ .stack) x

namespace Tame

variable {α β : Type}

theorem bind {x : KM α} {f : α → KM β} (hx : Tame x) (hf : ∀ a, Tame (f a)) : Tame (x >>= f) :=
  Within.bind (fun _ _ _ h h' => h'.trans h) hx hf

theorem pure (a : α) : Tame (pure a : KM α) :=
  Within.pure (R := fun m m' : Kmem => m'.kend = m.kend) (fun _ => rfl) a

theorem ite {c : Prop} [Decidable c] {x y : KM α} (hx : Tame x) (hy : Tame y) :
    Tame (if c then x else y) := Within.ite (fun _ => hx) fun _ => hy

theorem panic (msg : String) : Tame (throw (.panic msg) : KM α) := Within.throw (by simp)

theorem fault : Tame (throw .fault : KM α) := Within.throw (by simp)

theorem kend {x : KM α} (h : Tame x) (m : Kmem) : wp x m (fun _ m' => m'.kend = m.kend)
    fun _ => True :=
  (h m).mono (fun _ _ hk => hk) fun _ _ => trivial

end Tame

theorem kalloc_tame : Tame kalloc := by
  intro m
  exact kalloc_took (fun _ => rfl) fun _ _ h => h.kend

theorem kfree_tame {v : Nat} : Tame (kfree v) := by
  intro m
  refine kfree_gave (fun _ h => h.kend) fun e he => ?_
  rw [he]
  simp

theorem kfreeAll_tame {vs : List Nat} : Tame (kfreeAll vs) := by
  induction vs with
  | nil => exact .pure _
  | cons v vs ih => exact kfree_tame.bind fun _ => ih

theorem walkpgdir_tame {pd : PageDir} {v : Nat} {alloc : Bool} :
    Tame (walkpgdir pd v alloc) := by
  unfold walkpgdir
  refine .ite (.pure _) (.ite (.pure _) (kalloc_tame.bind fun r => ?_))
  cases r <;> exact .pure _

theorem mappages_tame {pd : PageDir} {v : Nat} {e : Pte} : Tame (mappages pd v e) := by
  unfold mappages
  exact walkpgdir_tame.bind fun r => .ite (.pure _) (.ite (.panic _) (.pure _))

/-- The loop of `deallocuvm` stops only on a bad free. -/
theorem deallocFrom_tame {oldsz n v : Nat} {pd : PageDir} :
    Tame (deallocFrom oldsz n v pd) := by
  induction n generalizing v pd with
  | zero => exact .pure _
  | succ n ih =>
      unfold deallocFrom
      refine .ite (.pure _) (walkpgdir_tame.bind fun r => .ite ih ?_)
      cases pd.entry v with
      | none => exact ih
      | some e => exact .ite (.panic _) (kfree_tame.bind fun _ => ih)

theorem deallocuvm_tame {pd : PageDir} {oldsz newsz : Nat} :
    Tame (deallocuvm pd oldsz newsz) := by
  unfold deallocuvm
  exact .ite (.pure _) (deallocFrom_tame.bind fun _ => .pure _)

theorem freevm_tame {pd : PageDir} : Tame (freevm pd) := by
  unfold freevm
  exact deallocuvm_tame.bind fun r => kfreeAll_tame.bind fun _ =>
    kfreeAll_tame.bind fun _ => kfree_tame

/-- So does mapping the kernel. -/
theorem mapKernel_tame {n : Nat} {pd : PageDir} : Tame (mapKernel n pd) := by
  induction n generalizing pd with
  | zero => exact .pure _
  | succ n ih =>
      unfold mapKernel
      refine kalloc_tame.bind fun r => ?_
      cases r with
      | none => exact .pure _
      | some page => exact ih

/-- So does `setupkvm`. -/
theorem setupkvm_tame : Tame setupkvm := by
  unfold setupkvm
  refine kalloc_tame.bind fun r => ?_
  cases r with
  | none => exact .pure _
  | some page =>
      exact mapKernel_tame.bind fun x =>
        .ite (freevm_tame.bind fun _ => .pure _) (.pure _)

theorem clearpteu_tame {pd : PageDir} {v : Nat} : Tame (clearpteu pd v) := by
  unfold clearpteu
  exact walkpgdir_tame.bind fun r => .ite (.panic _) (.pure _)

end Xv6.Thread
