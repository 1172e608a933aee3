import Xv6.Lib.Ledger
import Xv6.Thread.Image

/-!
# Who holds the pages

Every page of memory is free, or held by one owner at one place: the pages of a
directory, its page tables and the pages it maps are held by that directory.
Each operation on a directory is described by who holds what afterwards, with
the pages that others hold as a frame `F` it leaves alone.

* `Apart`: the free pages and the frame, as a ledger (`Lib.Ledger`), with every
  page one that `kfree` takes;
* the rules of `walkpgdir`, `allocuvm`, `deallocuvm`, `copyuvm`, `freevm`, and of
  the image that `exec` builds, each with what the directory holds then;
* `copyuvm_count` and its companions: how many pages a copy of a directory takes.

The frame is any set of pages. `Thread.Pages` puts the rest of the kernel into it.
-/

namespace Xv6.Thread

open Xv6.Lib Prog

/-! ## Directories -/

/-- The places in a page directory that hold a page. -/
inductive Site
  | dir
  | ktab (n : Nat)
  | utab (d : Nat)
  | page (v : Nat)

namespace PageDir

variable {pd : PageDir} {v : Nat}

def pageAt (pd : PageDir) : Site → Option Nat
  | .dir => some pd.page
  | .ktab n => pd.ktabs[n]?
  | .utab d => (pd.pde d).map PageTable.page
  | .page v => (pd.entry v).map fun e => P2V e.pa

/-- What the others hold, and what is held at each place of the directory. -/
def held (pd : PageDir) (F : Nat → Prop) : Option Site → Nat → Prop
  | none => F
  | some r => fun a => pd.pageAt r = some a

/-- What a new table adds is its own page. -/
theorem pageAt_setTable (h : ¬ pd.Tab v) (page : Nat) (r : Site) {a : Nat}
    (ha : (pd.setTable v page).pageAt r = some a) :
    pd.pageAt r = some a ∨ r = .utab (v / NPTENTRIES) ∧ a = page := by
  cases r with
  | dir => exact .inl ha
  | ktab n => exact .inl ha
  | utab d =>
      by_cases hd : d = v / NPTENTRIES
      · subst hd
        have heq : page = a := by simpa [setTable, PageDir.pageAt] using ha
        exact .inr ⟨rfl, heq.symm⟩
      · exact .inl (by simpa [setTable, PageDir.pageAt, hd] using ha)
  | page w =>
      unfold PageDir.pageAt at ha ⊢
      dsimp only at ha ⊢
      rw [entry_setTable h] at ha
      exact .inl ha

/-- Setting an entry changes the page at that place alone. -/
theorem pageAt_setEntry (h : pd.Tab v) (e : Option Pte) (r : Site) {a : Nat}
    (ha : (pd.setEntry v e).pageAt r = some a) :
    pd.pageAt r = some a ∧ r ≠ .page v ∨ r = .page v ∧ (e.map fun e => P2V e.pa) = some a := by
  rcases Option.isSome_iff_exists.1 h with ⟨t, ht⟩
  cases r with
  | dir =>
      refine .inl ⟨?_, by simp⟩
      simpa [setEntry, ht, PageDir.pageAt] using ha
  | ktab n =>
      refine .inl ⟨?_, by simp⟩
      simpa [setEntry, ht, PageDir.pageAt] using ha
  | utab d =>
      refine .inl ⟨?_, by simp⟩
      by_cases hd : d = v / NPTENTRIES
      · subst hd
        simpa [setEntry, ht, PageDir.pageAt] using ha
      · simpa [setEntry, ht, PageDir.pageAt, hd] using ha
  | page w =>
      unfold PageDir.pageAt at ha ⊢
      dsimp only at ha ⊢
      rw [entry_setEntry h] at ha
      by_cases hw : w = v
      · subst hw
        exact .inr ⟨rfl, by simpa using ha⟩
      · rw [if_neg hw] at ha
        exact .inl ⟨ha, by simp [hw]⟩

end PageDir

/-! ## The pool -/

variable {ι : Type} {m m' : Kmem} {holds holds' : ι → Nat → Prop} {F : Nat → Prop} {r : Nat}

/-- The free pages are those nobody holds. The kernel is linked above `KERNBASE`. -/
structure Stock (m : Kmem) (holds : ι → Nat → Prop) : Prop where
  ledger : Ledger m.pages holds
  high : KERNBASE ≤ m.kend
  aligned : ∀ a ∈ m.pages, a % PGSIZE = 0

namespace Stock

theorem mono (h : Stock m holds) (hle : ∀ i a, holds' i a → holds i a) : Stock m holds' :=
  ⟨h.ledger.mono hle, h.high, h.aligned⟩

/-- A page that `kalloc` gives is a frame that nobody holds. -/
theorem took_spec (h : Stock m holds) (ht : Took m m' r) :
    KERNBASE ≤ r ∧ r % PGSIZE = 0 ∧ (∀ i, ¬ holds i r) := by
  have hr : r ∈ m.pages := by
    rw [ht.pages]
    exact List.mem_cons_self
  exact ⟨Nat.le_trans h.high ht.ge, h.aligned r hr, h.ledger.idle r hr⟩

theorem aligned_tail (h : Stock m holds) (ht : Took m m' r) : ∀ a ∈ m'.pages, a % PGSIZE = 0 := by
  intro a ha
  apply h.aligned
  rw [ht.pages]
  exact List.mem_cons_of_mem _ ha

theorem take (h : Stock m holds) (ht : Took m m' r) (i : ι)
    (hle : ∀ j b, holds' j b → holds j b ∨ j = i ∧ b = r) : Stock m' holds' where
  ledger := (ht.pages ▸ h.ledger).take i hle
  high := ht.kend ▸ h.high
  aligned := h.aligned_tail ht

theorem pass (h : Stock m holds) {i : ι} (hr : holds i r) (j : ι)
    (hle : ∀ k b, holds' k b → holds k b ∧ b ≠ r ∨ k = j ∧ b = r) : Stock m holds' :=
  ⟨h.ledger.pass hr j hle, h.high, h.aligned⟩

/-- A page that goes back to the allocator is held by nobody any more. -/
theorem back (h : Stock m holds) (hg : Gave m m' r) {i : ι} (hr : holds i r)
    (hle : ∀ j b, holds' j b → holds j b ∧ b ≠ r) : Stock m' holds' where
  ledger := hg.pages ▸ h.ledger.back hr hle
  high := hg.kend ▸ h.high
  aligned := by
    intro a ha
    rw [hg.pages] at ha
    rcases List.mem_cons.1 ha with rfl | ha
    · exact hg.aligned
    · exact h.aligned a ha

end Stock

/-- Directory `pd` and the others, who hold `F`. -/
abbrev Owned (F : Nat → Prop) (pd : PageDir) (m : Kmem) : Prop := Stock m (pd.held F)

/-- The others alone. -/
abbrev Apart (F : Nat → Prop) (m : Kmem) : Prop := Stock m fun (_ : Unit) => F

/-- A page in hand, held by nobody else. -/
abbrev With (F : Nat → Prop) (r : Nat) : Nat → Prop := fun a => F a ∨ a = r

/-- A page in hand, besides those of the table. -/
theorem Owned.hand {pd : PageDir} (h : Owned F pd m) (ht : Took m m' r) :
    Owned (With F r) pd m' := by
  refine h.take ht none ?_
  intro j b hb
  cases j with
  | none => exact hb.imp id fun he => ⟨rfl, he⟩
  | some s => exact .inl hb

/-- The page in hand is free again. -/
theorem Owned.unhand {pd : PageDir} (h : Owned (With F r) pd m) (hF : ¬ F r)
    (hg : Gave m m' r) : Owned F pd m' := by
  refine h.back hg (i := none) (.inr rfl) ?_
  intro j b hb
  cases j with
  | none =>
      refine ⟨.inl hb, ?_⟩
      rintro rfl
      exact hF hb
  | some s =>
      refine ⟨hb, ?_⟩
      rintro rfl
      cases h.ledger.apart none (some s) b (.inr rfl) hb

/-- The page in hand is lost. -/
theorem Owned.lose {pd : PageDir} (h : Owned (With F r) pd m) : Owned F pd m := by
  refine h.mono ?_
  intro j b hb
  cases j with
  | none => exact .inl hb
  | some s => exact hb

/-! ## walkpgdir and mappages -/

theorem P2V_V2P {a : Nat} (h : KERNBASE ≤ a) : P2V (V2P a) = a := by
  unfold P2V V2P
  omega

/-- `walkpgdir` keeps what is owned apart. -/
theorem walkpgdir_own {pd : PageDir} {v : Nat} (h : Owned F pd m) :
    wp (walkpgdir pd v true) m (fun r m' => Owned F r.1 m') fun _ => True := by
  unfold walkpgdir
  refine wp_ite (fun _ => (wp_pure ..).2 h) fun hn => ?_
  simp only [Bool.true_eq_false, if_false, wp_bind]
  refine kalloc_took (fun _ => (wp_pure ..).2 h) fun r m' ht => (wp_pure ..).2 ?_
  refine h.take ht (some (.utab (v / NPTENTRIES))) ?_
  intro j b hb
  cases j with
  | none => exact .inl hb
  | some s =>
      rcases PageDir.pageAt_setTable hn r s hb with h1 | ⟨rfl, rfl⟩
      · exact .inl h1
      · exact .inr ⟨rfl, rfl⟩

/-- The page in hand goes into the directory, if its entry can be made. -/
theorem mappages_own {pd : PageDir} {v mem : Nat} {u : Bool} (h : Owned (With F mem) pd m)
    (hF : ¬ F mem) (hmem : KERNBASE ≤ mem) :
    wp (mappages pd v ⟨V2P mem, u⟩) m
      (fun r m' => if r.2 = true then Owned F r.1 m' else Owned (With F mem) r.1 m')
      fun _ => True := by
  unfold mappages
  rw [wp_bind]
  refine wp.mono (wp.and (walkpgdir_own h) walkpgdir_wp) ?_ fun _ he => he
  rintro ⟨pd', found⟩ m' ⟨h', hw, -, -⟩
  refine wp_ite (fun _ => ?_) fun hfound => ?_
  · exact (wp_pure ..).2 (by simpa using h')
  have htab : pd'.Tab v := hw.tab (by simpa using hfound)
  refine wp_ite (fun _ => (wp_throw ..).2 trivial) fun _ => ?_
  · refine (wp_pure ..).2 ?_
    dsimp only
    rw [if_pos rfl]
    -- the page passes from the hand to its entry
    refine h'.pass (i := none) (.inr rfl) (some (.page v)) ?_
    intro j a ha
    cases j with
    | none =>
        refine .inl ⟨.inl ha, ?_⟩
        rintro rfl
        exact hF ha
    | some s =>
        rcases PageDir.pageAt_setEntry htab _ s ha with ⟨h1, -⟩ | ⟨rfl, h1⟩
        · refine .inl ⟨h1, ?_⟩
          rintro rfl
          cases h'.ledger.apart none (some s) a (.inr rfl) h1
        · refine .inr ⟨rfl, ?_⟩
          have heq : P2V (V2P mem) = a := by simpa using h1
          rw [← heq, P2V_V2P hmem]

/-! ## Sizing the user part -/

/-- The loop of `deallocuvm` gives back pages of the table. -/
theorem deallocFrom_own {oldsz n v : Nat} {pd : PageDir} (h : Owned F pd m) :
    wp (deallocFrom oldsz n v pd) m (fun pd' m' => Owned F pd' m') fun _ => True := by
  induction n generalizing v pd m with
  | zero => exact (wp_pure ..).2 h
  | succ n ih =>
      unfold deallocFrom
      refine wp_ite (fun _ => (wp_pure ..).2 h) fun _ => ?_
      rw [wp_bind]
      refine walkpgdir_look fun found _ => ?_
      refine wp_ite (fun _ => ih h) fun _ => ?_
      cases he : pd.entry v with
      -- a page that is not mapped is passed over; a mapped one leaves the table and is given
      -- back
      | none => exact ih h
      | some e =>
          dsimp only
          refine wp_ite (fun _ => (wp_throw ..).2 trivial) fun _ => ?_
          rw [wp_bind]
          refine kfree_gave (fun m' hg => ih ?_) fun _ _ => trivial
          have htab : pd.Tab v := PageDir.Has.tab (by simp [PageDir.Has, he])
          have hat : pd.pageAt (.page v) = some (P2V e.pa) := by simp [PageDir.pageAt, he]
          refine Stock.back h hg (i := some (.page v)) hat ?_
          intro j b hb
          cases j with
          | none =>
              refine ⟨hb, ?_⟩
              rintro rfl
              cases h.ledger.apart none (some (.page v)) _ hb hat
          | some s =>
              rcases PageDir.pageAt_setEntry htab _ s hb with ⟨h1, hne⟩ | ⟨-, h1⟩
              · refine ⟨h1, ?_⟩
                rintro rfl
                exact hne (Option.some.inj (h.ledger.apart (some s) (some (.page v)) _ h1 hat))
              · cases h1

/-- `deallocuvm` keeps what is owned apart. -/
theorem deallocuvm_own {pd : PageDir} {oldsz newsz : Nat} (h : Owned F pd m) :
    wp (deallocuvm pd oldsz newsz) m (fun r m' => Owned F r.1 m') fun _ => True := by
  unfold deallocuvm
  refine wp_ite (fun _ => (wp_pure ..).2 h) fun _ => ?_
  rw [wp_bind]
  exact wp.mono (deallocFrom_own h) (fun pd' m' h' => (wp_pure ..).2 h') fun _ he => he

/-- The loop of `allocuvm` takes fresh pages. -/
theorem allocFrom_own {oldsz newsz n v : Nat} {pd : PageDir} (h : Owned F pd m) :
    wp (allocFrom oldsz newsz n v pd) m (fun r m' => Owned F r.1 m') fun _ => True := by
  induction n generalizing v pd m with
  | zero => exact (wp_pure ..).2 h
  | succ n ih =>
      unfold allocFrom
      refine wp_ite (fun _ => (wp_pure ..).2 h) fun _ => ?_
      rw [wp_bind]
      refine kalloc_took (fun _ => ?_) fun mem m1 ht => ?_
      · dsimp only
        rw [wp_bind]
        exact wp.mono (deallocuvm_own h) (fun r m' h' => (wp_pure ..).2 h') fun _ he => he
      · rcases h.took_spec ht with ⟨hmem, -, hnot⟩
        dsimp only
        rw [wp_bind]
        refine wp.mono (mappages_own (h.hand ht) (hnot none) hmem) ?_ fun _ he => he
        rintro ⟨pd', ok⟩ m2 h2
        refine wp_ite (fun hok => ?_) fun hok => ih ?_
        · rw [hok] at h2
          rw [wp_bind]
          refine wp.mono (deallocuvm_own h2) (fun r m3 h3 => ?_) fun _ he => he
          rw [wp_bind]
          exact kfree_gave (fun m4 hg => (wp_pure ..).2 (Owned.unhand h3 (hnot none) hg))
            fun _ _ => trivial
        · rwa [if_pos (by simpa using hok)] at h2

theorem allocuvm_own {pd : PageDir} {oldsz newsz : Nat} (h : Owned F pd m) :
    wp (allocuvm pd oldsz newsz) m (fun r m' => Owned F r.1 m') fun _ => True := by
  unfold allocuvm
  refine wp_ite (fun _ => (wp_pure ..).2 h) fun _ => ?_
  exact wp_ite (fun _ => (wp_pure ..).2 h) fun _ => allocFrom_own h

/-- `clearpteu` moves no page. -/
theorem clearpteu_own {pd : PageDir} {v : Nat} (h : Owned F pd m) :
    wp (clearpteu pd v) m (fun pd' m' => Owned F pd' m') fun _ => True := by
  unfold clearpteu
  rw [wp_bind]
  refine walkpgdir_look fun found hf => ?_
  refine wp_ite (fun _ => (wp_throw ..).2 trivial) fun hfound => (wp_pure ..).2 ?_
  have htab : pd.Tab v := hf.1 (by simpa using hfound)
  refine h.mono ?_
  intro j b hb
  cases j with
  | none => exact hb
  | some s =>
      rcases PageDir.pageAt_setEntry htab _ s hb with ⟨h1, -⟩ | ⟨rfl, h1⟩
      · exact h1
      · -- the entry still maps the same page
        show (pd.entry v).map _ = some b
        rw [← h1, Option.map_map]
        rfl

/-! ## Whole directories -/

/-- Different pages, given back one after the other. -/
theorem kfreeAll_apart {vs : List Nat} (hnd : vs.Nodup) (hF : ∀ a ∈ vs, ¬ F a)
    (h : Apart (fun a => F a ∨ a ∈ vs) m) :
    wp (kfreeAll vs) m (fun _ m' => Apart F m') fun _ => True := by
  induction vs generalizing m with
  | nil => exact (wp_pure ..).2 (h.mono fun _ _ ha => .inl ha)
  | cons v vs ih =>
      rcases List.nodup_cons.1 hnd with ⟨hv, hnd⟩
      unfold kfreeAll
      rw [wp_bind]
      refine kfree_gave (fun m' hg => ih hnd (fun a ha => hF a (List.mem_cons_of_mem _ ha)) ?_)
        fun _ _ => trivial
      refine h.back hg (i := ()) (.inr List.mem_cons_self) ?_
      rintro - b (hb | hb)
      · refine ⟨.inl hb, ?_⟩
        rintro rfl
        exact hF b List.mem_cons_self hb
      · refine ⟨.inr (List.mem_cons_of_mem _ hb), ?_⟩
        rintro rfl
        exact hv hb

theorem PageDir.mem_utabs {pd : PageDir} {a : Nat} (h : a ∈ pd.utabs) :
    ∃ d, pd.pageAt (.utab d) = some a := by
  unfold utabs at h
  rcases List.mem_filterMap.1 h with ⟨d, -, hd⟩
  exact ⟨d, hd⟩

/-- `freevm` gives back all that the directory held. -/
theorem freevm_own {pd : PageDir} (h : Owned F pd m) :
    wp (freevm pd) m (fun _ m' => Apart F m') fun _ => True := by
  unfold freevm
  rw [wp_bind]
  refine wp.mono (deallocuvm_own h) ?_ fun _ he => he
  rintro ⟨pd, sz⟩ m1 h1
  simp only [wp_bind]
  -- one page has one place in the table
  have hsites : ∀ {s s' : Site} {a : Nat}, pd.pageAt s = some a → pd.pageAt s' = some a →
      s = s' := by
    intro s s' a hs hs'
    exact Option.some.inj (h1.ledger.apart (some s) (some s') a hs hs')
  have hF : ∀ {s : Site} {a : Nat}, pd.pageAt s = some a → ¬ F a := by
    intro s a hs ha
    cases h1.ledger.apart none (some s) a ha hs
  have hktab : ∀ {a : Nat}, a ∈ pd.ktabs → ∃ n, pd.pageAt (.ktab n) = some a :=
    fun ha => List.mem_iff_getElem?.1 ha
  have hunodup : pd.utabs.Nodup := by
    refine List.Nodup.filterMap ?_ List.nodup_range
    intro d d' a hd hd'
    exact Site.utab.inj (hsites (s := .utab d) hd (show pd.pageAt (.utab d') = some a from hd'))
  have hknodup : pd.ktabs.Nodup := by
    rw [List.nodup_iff_getElem?_ne_getElem?]
    intro n n' hlt hlen heq
    have hsome : pd.ktabs[n']? = some (pd.ktabs[n']) := List.getElem?_eq_getElem hlen
    have hn := Site.ktab.inj (hsites (s := .ktab n) (heq.trans hsome)
      (show pd.pageAt (.ktab n') = _ from hsome))
    omega
  -- what is still owned: the pages outside, the directory, the tables of the kernel and those
  -- of the user
  have hall : Apart (fun a => ((F a ∨ a = pd.page) ∨ a ∈ pd.ktabs) ∨ a ∈ pd.utabs) m1 := by
    refine (⟨h1.ledger.merge fun _ => (), h1.high, h1.aligned⟩ : Stock m1 _).mono ?_
    rintro - a (((ha | ha) | ha) | ha)
    · exact ⟨none, rfl, ha⟩
    · exact ⟨some .dir, rfl, congrArg some ha.symm⟩
    · rcases hktab ha with ⟨n, hn⟩
      exact ⟨some (.ktab n), rfl, hn⟩
    · rcases PageDir.mem_utabs ha with ⟨d, hd⟩
      exact ⟨some (.utab d), rfl, hd⟩
  -- they are given back in this order: user tables, kernel tables, directory
  refine wp.mono (kfreeAll_apart hunodup ?_ hall) (fun _ m2 h2 => ?_) fun _ he => he
  · intro a ha
    rcases PageDir.mem_utabs ha with ⟨d, hd⟩
    rintro ((hf | rfl) | hk)
    · exact hF hd hf
    · cases hsites (s := .dir) rfl hd
    · rcases hktab hk with ⟨n, hn⟩
      cases hsites hn hd
  refine wp.mono (kfreeAll_apart hknodup ?_ h2) (fun _ m3 h3 => ?_) fun _ he => he
  · intro a ha
    rcases hktab ha with ⟨n, hn⟩
    rintro (hf | rfl)
    · exact hF hn hf
    · cases hsites (s := .dir) rfl hn
  · refine kfree_gave (fun m4 hg => h3.back hg (i := ()) (.inr rfl) ?_) fun _ _ => trivial
    intro _ b hb
    refine ⟨.inl hb, ?_⟩
    rintro rfl
    exact hF (s := .dir) rfl hb

/-- The tables for the kernel are fresh. -/
theorem mapKernel_own {n : Nat} {pd : PageDir} (h : Owned F pd m) :
    wp (mapKernel n pd) m (fun r m' => Owned F r.1 m') fun _ => True := by
  induction n generalizing pd m with
  | zero => exact (wp_pure ..).2 h
  | succ n ih =>
      unfold mapKernel
      rw [wp_bind]
      refine kalloc_took (fun _ => (wp_pure ..).2 h) fun page m1 ht => ih ?_
      refine h.take ht (some (.ktab pd.ktabs.length)) ?_
      intro j b hb
      cases j with
      | none => exact .inl hb
      | some s =>
          cases s with
          | ktab k =>
              have hk : (pd.ktabs ++ [page])[k]? = some b := hb
              by_cases hlt : k < pd.ktabs.length
              · rw [List.getElem?_append_left hlt] at hk
                exact .inl hk
              · rw [List.getElem?_append_right (by omega)] at hk
                rcases List.getElem?_eq_some_iff.1 hk with ⟨h0, h1⟩
                have hk0 : k = pd.ktabs.length := by simp at h0; omega
                subst hk0
                simp at h1
                exact .inr ⟨rfl, h1.symm⟩
          | dir => exact .inl hb
          | utab d => exact .inl hb
          | page v => exact .inl hb

/-- What a function that may give up leaves of the directory it makes. -/
def Made (F : Nat → Prop) (m : Kmem) : Option PageDir → Prop
  | none => Apart F m
  | some pd => Owned F pd m

/-- A new page table owns its pages. -/
theorem setupkvm_own (h : Apart F m) :
    wp setupkvm m (fun r m' => Made F m' r) fun _ => True := by
  unfold setupkvm
  rw [wp_bind]
  refine kalloc_took (fun _ => (wp_pure ..).2 h) fun page m1 ht => ?_
  dsimp only
  rw [wp_bind]
  have h0 : Stock m fun (j : Option Site) a => j = none ∧ F a := by
    refine ⟨h.ledger.comap (fun _ => ()) (fun _ _ ha => ha.2) ?_, h.high, h.aligned⟩
    intro i j _ _ hi hj
    rw [hi.1, hj.1]
  have h1 : Owned F ⟨page, [], fun _ => none⟩ m1 := by
    refine h0.take ht (some .dir) ?_
    intro j b hb
    cases j with
    | none => exact .inl ⟨rfl, hb⟩
    | some s =>
        cases s with
        | dir => exact .inr ⟨rfl, (Option.some.inj hb).symm⟩
        | ktab n => simp [PageDir.held, PageDir.pageAt] at hb
        | utab d => simp [PageDir.held, PageDir.pageAt] at hb
        | page v => simp [PageDir.held, PageDir.pageAt, PageDir.entry] at hb
  refine wp.mono (mapKernel_own h1) ?_ fun _ he => he
  rintro ⟨pd, ok⟩ m2 h2
  refine wp_ite (fun _ => ?_) fun _ => (wp_pure ..).2 h2
  rw [wp_bind]
  exact wp.mono (freevm_own h2) (fun _ _ h3 => (wp_pure ..).2 h3) fun _ he => he

/-- The loop of `copyuvm` takes fresh pages for the copy. -/
theorem copyFrom_own {pd d : PageDir} {n v : Nat} (h : Owned F d m) :
    wp (copyFrom pd n v d) m (fun r m' => Made F m' r) fun _ => True := by
  induction n generalizing v d m with
  | zero => exact (wp_pure ..).2 h
  | succ n ih =>
      unfold copyFrom
      rw [wp_bind]
      refine walkpgdir_look fun found _ => ?_
      refine wp_ite (fun _ => (wp_throw ..).2 trivial) fun _ => ?_
      cases pd.entry v with
      -- the page must be there; its copy is a fresh page, mapped at the same place
      | none => exact (wp_throw ..).2 trivial
      | some e =>
          dsimp only
          rw [wp_bind]
          refine kalloc_took (fun _ => ?_) fun mem m1 ht => ?_
          · dsimp only
            rw [wp_bind]
            exact wp.mono (freevm_own h) (fun _ _ h' => (wp_pure ..).2 h') fun _ he => he
          · rcases h.took_spec ht with ⟨hmem, -, hnot⟩
            dsimp only
            rw [wp_bind]
            refine wp.mono (mappages_own (h.hand ht) (hnot none) hmem) ?_ fun _ he => he
            rintro ⟨d', ok⟩ m2 h2
            refine wp_ite (fun hok => ?_) fun hok => ih ?_
            · rw [hok] at h2
              rw [wp_bind]
              refine kfree_gave (fun m3 hg => ?_) fun _ _ => trivial
              rw [wp_bind]
              exact wp.mono (freevm_own (Owned.unhand h2 (hnot none) hg))
                (fun _ _ h' => (wp_pure ..).2 h') fun _ he => he
            · rwa [if_pos (by simpa using hok)] at h2

/-- A copy owns its pages. -/
theorem copyuvm_own {pd : PageDir} {sz : Nat} (h : Apart F m) :
    wp (copyuvm pd sz) m (fun r m' => Made F m' r) fun _ => True := by
  unfold copyuvm
  rw [wp_bind]
  refine wp.mono (setupkvm_own h) (fun r m1 h1 => ?_) fun _ he => he
  cases r with
  | none => exact (wp_pure ..).2 h1
  | some d => exact copyFrom_own h1

/-- `inituvm` takes one fresh page. -/
theorem inituvm_own {pd : PageDir} (h : Owned F pd m) :
    wp (inituvm pd) m (fun pd' m' => Owned F pd' m') fun _ => True := by
  unfold inituvm
  rw [wp_bind]
  refine kalloc_took (fun _ => (wp_throw ..).2 trivial) fun mem m1 ht => ?_
  rcases h.took_spec ht with ⟨hmem, -, hnot⟩
  dsimp only
  rw [wp_bind]
  refine wp.mono (mappages_own (h.hand ht) (hnot none) hmem) ?_ fun _ he => he
  rintro ⟨pd', ok⟩ m2 h2
  refine (wp_pure ..).2 ?_
  cases ok with
  | true => exact h2
  | false => exact Owned.lose h2

/-! ## exec -/

/-- Loading the segments keeps what is owned apart. -/
theorem loadProgram_own {phs : List (Option ProgHdr)} {pd : PageDir} {sz : Nat}
    (h : Owned F pd m) :
    wp (loadProgram phs pd sz) m (fun r m' => Owned F r.1 m') fun _ => True := by
  induction phs generalizing pd sz m with
  | nil => exact (wp_pure ..).2 h
  | cons ph phs ih =>
      cases ph with
      | none => exact (wp_pure ..).2 h
      | some ph =>
          unfold loadProgram
          refine wp_ite (fun _ => ih h) fun _ => ?_
          refine wp_ite (fun _ => (wp_pure ..).2 h) fun _ => ?_
          refine wp_ite (fun _ => (wp_pure ..).2 h) fun _ => ?_
          rw [wp_bind]
          refine wp.mono (allocuvm_own h) ?_ fun _ he => he
          rintro ⟨pd1, sz1⟩ m1 h1
          refine wp_ite (fun _ => (wp_pure ..).2 h1) fun _ => ?_
          refine wp_ite (fun _ => (wp_pure ..).2 h1) fun _ => ?_
          rw [wp_bind]
          refine loaduvm_wp fun b => ?_
          exact wp_ite (fun _ => (wp_pure ..).2 h1) fun _ => ih h1

/-- So does building the image. -/
theorem buildImage_own {pd : PageDir} {elf : Elf} {argv : List Nat} {stacksize : Nat}
    (h : Owned F pd m) :
    wp (buildImage pd elf argv stacksize) m (fun r m' => Owned F r.1 m') fun _ => True := by
  unfold buildImage
  rw [wp_bind]
  refine wp.mono (loadProgram_own h) ?_ fun _ he => he
  rintro ⟨pd1, sz1⟩ m1 h1
  cases sz1 with
  | none => exact (wp_pure ..).2 h1
  | some sz1 =>
      dsimp only
      rw [wp_bind]
      refine wp.mono (allocuvm_own h1) ?_ fun _ he => he
      rintro ⟨pd2, sz2⟩ m2 h2
      refine wp_ite (fun _ => (wp_pure ..).2 h2) fun _ => ?_
      rw [wp_bind]
      refine wp.mono (clearpteu_own h2) (fun pd3 m3 h3 => ?_) fun _ he => he
      rw [wp_bind]
      refine pushStack_wp fun b => ?_
      exact wp_ite (fun _ => (wp_pure ..).2 h3) fun _ => (wp_pure ..).2 h3

/-- A new image owns its pages. -/
theorem newImage_own {elf : Option Elf} {argv : List Nat} {stacksize : Nat} (h : Apart F m) :
    wp (newImage elf argv stacksize) m (fun r m' => Made F m' (r.map Prod.fst)) fun _ => True := by
  unfold newImage
  cases elf with
  | none => exact (wp_pure ..).2 h
  | some elf =>
      dsimp only
      rw [wp_bind]
      refine wp.mono (setupkvm_own h) (fun r m1 h1 => ?_) fun _ he => he
      cases r with
      | none => exact (wp_pure ..).2 h1
      | some pd =>
          dsimp only
          rw [wp_bind]
          refine wp.mono (buildImage_own h1) ?_ fun _ he => he
          rintro ⟨pd1, sz1⟩ m2 h2
          cases sz1 with
          | none =>
              dsimp only
              rw [wp_bind]
              exact wp.mono (freevm_own h2) (fun _ _ h3 => (wp_pure ..).2 h3) fun _ he => he
          | some sz1 => exact (wp_pure ..).2 h2

/-! ## Code that leaves the end of the kernel alone -/

/-- The loop of `allocuvm` stops only on a bad free. -/
theorem allocFrom_tame {oldsz newsz n v : Nat} {pd : PageDir} :
    Tame (allocFrom oldsz newsz n v pd) := by
  induction n generalizing v pd with
  | zero => exact .pure _
  | succ n ih =>
      unfold allocFrom
      refine .ite (.pure _) (kalloc_tame.bind fun mem => ?_)
      cases mem with
      | none => exact deallocuvm_tame.bind fun _ => .pure _
      | some mem =>
          refine mappages_tame.bind fun x => .ite ?_ ih
          exact deallocuvm_tame.bind fun _ => kfree_tame.bind fun _ => .pure _

theorem allocuvm_tame {pd : PageDir} {oldsz newsz : Nat} : Tame (allocuvm pd oldsz newsz) := by
  unfold allocuvm
  exact .ite (.pure _) (.ite (.pure _) allocFrom_tame)

/-- So does the loop of `copyuvm`, or on a page that is missing. -/
theorem copyFrom_tame {pd d : PageDir} {n v : Nat} : Tame (copyFrom pd n v d) := by
  induction n generalizing v d with
  | zero => exact .pure _
  | succ n ih =>
      unfold copyFrom
      refine walkpgdir_tame.bind fun x => .ite (.panic _) ?_
      cases pd.entry v with
      | none => exact .panic _
      | some e =>
          refine kalloc_tame.bind fun mem => ?_
          cases mem with
          | none => exact freevm_tame.bind fun _ => .pure _
          | some mem =>
              refine mappages_tame.bind fun x => .ite ?_ ih
              exact kfree_tame.bind fun _ => freevm_tame.bind fun _ => .pure _

/-- So does `copyuvm`. -/
theorem copyuvm_tame {pd : PageDir} {sz : Nat} : Tame (copyuvm pd sz) := by
  unfold copyuvm
  refine setupkvm_tame.bind fun r => ?_
  cases r with
  | none => exact .pure _
  | some d => exact copyFrom_tame

/-- `inituvm` stops only without a page. -/
theorem inituvm_tame {pd : PageDir} : Tame (inituvm pd) := by
  unfold inituvm
  refine kalloc_tame.bind fun r => ?_
  cases r with
  | none => exact .fault
  | some mem => exact mappages_tame.bind fun _ => .pure _

/-- `loaduvm` stops only on a page that is missing. -/
theorem loaduvm_tame {pd : PageDir} {ph : ProgHdr} : Tame (loaduvm pd ph) := by
  have hfrom : ∀ n i, Tame (loadFrom pd ph n i) := by
    intro n
    induction n with
    | zero => exact fun i => .pure _
    | succ n ih =>
        intro i
        unfold loadFrom
        exact walkpgdir_tame.bind fun x => .ite (.panic _) (.ite (.pure _) (ih _))
  unfold loaduvm
  exact .ite (.panic _) (hfrom _ _)

/-- So does loading the segments. -/
theorem loadProgram_tame {phs : List (Option ProgHdr)} {pd : PageDir} {sz : Nat} :
    Tame (loadProgram phs pd sz) := by
  induction phs generalizing pd sz with
  | nil => exact .pure _
  | cons ph phs ih =>
      cases ph with
      | none => exact .pure _
      | some ph =>
          unfold loadProgram
          refine .ite ih (.ite (.pure _) (.ite (.pure _) (allocuvm_tame.bind fun x => ?_)))
          refine .ite (.pure _) (.ite (.pure _) (loaduvm_tame.bind fun b => ?_))
          exact .ite (.pure _) ih

/-- `copyout` stops only on a missing table. -/
theorem copyout_tame {pd : PageDir} {va len : Nat} : Tame (copyout pd va len) := by
  have hfrom : ∀ n v, Tame (copyoutFrom pd n v) := by
    intro n
    induction n with
    | zero => exact fun v => .pure _
    | succ n ih =>
        intro v
        unfold copyoutFrom uva2ka
        refine Tame.bind ?_ fun b => .ite (.pure _) (ih _)
        exact .ite (.pure _) (walkpgdir_tame.bind fun x => .ite .fault (.pure _))
  unfold copyout
  exact .ite (.pure _) (hfrom _ _)

/-- So does building the stack. -/
theorem pushStack_tame {pd : PageDir} {argv : List Nat} {sz : Nat} :
    Tame (pushStack pd argv sz) := by
  have hargs : ∀ lens argc sp, Tame (pushArgs pd lens argc sp) := by
    intro lens
    induction lens with
    | nil => exact fun argc sp => .pure _
    | cons len lens ih =>
        intro argc sp
        unfold pushArgs
        exact .ite (.pure _) (copyout_tame.bind fun b => .ite (.pure _) (ih _ _))
  unfold pushStack
  refine (hargs _ _ _).bind fun r => ?_
  cases r with
  | none => exact .pure _
  | some sp => exact copyout_tame

/-- So does building an image. -/
theorem newImage_tame {elf : Option Elf} {argv : List Nat} {stacksize : Nat} :
    Tame (newImage elf argv stacksize) := by
  have hbuild : ∀ elf pd, Tame (buildImage pd elf argv stacksize) := by
    intro elf pd
    unfold buildImage
    refine loadProgram_tame.bind fun x => ?_
    rcases x with ⟨pd, sz⟩
    cases sz with
    | none => exact .pure _
    | some sz =>
        refine allocuvm_tame.bind fun y => .ite (.pure _) (clearpteu_tame.bind fun pd => ?_)
        exact pushStack_tame.bind fun b => .ite (.pure _) (.pure _)
  unfold newImage
  cases elf with
  | none => exact .pure _
  | some elf =>
      refine setupkvm_tame.bind fun r => ?_
      cases r with
      | none => exact .pure _
      | some pd =>
          refine (hbuild elf pd).bind fun x => ?_
          rcases x with ⟨pd, sz⟩
          cases sz with
          | none => exact freevm_tame.bind fun _ => .pure _
          | some sz => exact .pure _

/-! ## What can be freed -/

/-- `kfree` takes the page, in a kernel that ends at `K`. -/
structure Frame (K a : Nat) : Prop where
  aligned : a % PGSIZE = 0
  ge : K ≤ a
  lt : V2P a < PHYSTOP

/-- `kfree` of a frame does not panic. -/
theorem kfree_frame {K a : Nat} {Q : Unit → Kmem → Prop} {E : Stop → Prop} (hk : m.kend = K)
    (ha : Frame K a) (h : ∀ m', Gave m m' a → Q () m') : wp (kfree a) m Q E := by
  have hge := ha.ge
  have hal := ha.aligned
  have hlt := ha.lt
  unfold kfree
  rw [wp_bind, wp_get, dif_neg (by omega)]
  exact (wp_set ..).2 (h _ ⟨rfl, rfl, by omega, hal⟩)

/-- A directory of frames. -/
def Framed (K : Nat) (pd : PageDir) : Prop := ∀ r a, pd.pageAt r = some a → Frame K a

variable {K : Nat}

/-- The loop of `deallocuvm` does not panic where every page is a frame. -/
theorem deallocFrom_framed {oldsz n v : Nat} {pd : PageDir} {E : Stop → Prop}
    (hK : KERNBASE < K) (hk : m.kend = K) (h : Framed K pd) :
    wp (deallocFrom oldsz n v pd) m (fun pd' m' => Framed K pd' ∧ m'.kend = K) E := by
  induction n generalizing v pd m with
  | zero => exact (wp_pure ..).2 ⟨h, hk⟩
  | succ n ih =>
      unfold deallocFrom
      refine wp_ite (fun _ => (wp_pure ..).2 ⟨h, hk⟩) fun _ => ?_
      rw [wp_bind]
      refine walkpgdir_look fun found _ => ?_
      refine wp_ite (fun _ => ih hk h) fun _ => ?_
      cases he : pd.entry v with
      | none => exact ih hk h
      | some e =>
          have hat : pd.pageAt (.page v) = some (P2V e.pa) := by simp [PageDir.pageAt, he]
          have hframe := h _ _ hat
          have hne : ¬ e.pa = 0 := by
            have hge := hframe.ge
            unfold P2V at hge
            omega
          have htab : pd.Tab v := PageDir.Has.tab (by simp [PageDir.Has, he])
          dsimp only
          rw [if_neg hne, wp_bind]
          refine kfree_frame hk hframe fun m' hg => ih (hg.kend.trans hk) ?_
          intro r a ha
          rcases PageDir.pageAt_setEntry htab _ r ha with ⟨h1, -⟩ | ⟨-, h1⟩
          · exact h r a h1
          · cases h1

/-- Frames are given back without a panic. -/
theorem kfreeAll_framed {vs : List Nat} {Q : Unit → Kmem → Prop} {E : Stop → Prop}
    (hk : m.kend = K) (h : ∀ v ∈ vs, Frame K v) (hQ : ∀ m', m'.kend = K → Q () m') :
    wp (kfreeAll vs) m Q E := by
  induction vs generalizing m with
  | nil => exact (wp_pure ..).2 (hQ m hk)
  | cons v vs ih =>
      rcases List.forall_mem_cons.1 h with ⟨hv, hvs⟩
      unfold kfreeAll
      rw [wp_bind]
      exact kfree_frame hk hv fun m' hg => ih (hg.kend.trans hk) hvs

/-- A directory of frames can be freed. -/
theorem freevm_framed {pd : PageDir} {E : Stop → Prop} (hK : KERNBASE < K) (hk : m.kend = K)
    (h : Framed K pd) : wp (freevm pd) m (fun _ _ => True) E := by
  unfold freevm deallocuvm
  rw [wp_bind, if_neg (by decide), wp_bind]
  refine wp.mono (deallocFrom_framed hK hk h) ?_ fun _ he => he
  rintro pd m1 ⟨h1, hk1⟩
  simp only [wp_bind, wp_pure]
  refine kfreeAll_framed hk1 (fun v hv => ?_) fun m2 hk2 => ?_
  · rcases PageDir.mem_utabs hv with ⟨d, hd⟩
    exact h1 _ _ hd
  refine kfreeAll_framed hk2 (fun v hv => ?_) fun m3 hk3 => ?_
  · rcases List.mem_iff_getElem?.1 hv with ⟨n, hn⟩
    exact h1 (.ktab n) v hn
  exact kfree_frame hk3 (h1 .dir _ rfl) fun _ _ => trivial

/-! ## How many pages a copy takes -/

/-- The page tables for `n` pages. -/
def tabs (n : Nat) : Nat := (n + (NPTENTRIES - 1)) / NPTENTRIES

/-- The pages `copyuvm` takes for `sz` bytes. -/
def copyPages (sz : Nat) : Nat := NKTABS + 1 + pages sz + tabs (pages sz)

theorem tabs_succ (v : Nat) :
    tabs (v + 1) = tabs v + (if v / NPTENTRIES < tabs v then 0 else 1) := by
  unfold tabs NPTENTRIES
  split <;> omega

theorem tabs_mono {v w : Nat} (h : v ≤ w) : tabs v ≤ tabs w :=
  Nat.div_le_div_right (by omega)

/-- `mappages` that succeeds takes a page if the page table is missing, and it
succeeds if it need not take one or finds one. -/
theorem mappages_count {pd : PageDir} {v : Nat} {e : Pte} :
    wp (mappages pd v e) m (fun r m' =>
      (r.2 = true → m.free = m'.free + (if pd.Tab v then 0 else 1) ∧
        ∀ w, r.1.Tab w ↔ pd.Tab w ∨ w / NPTENTRIES = v / NPTENTRIES) ∧
      (pd.Tab v ∨ m.free ≠ 0 → r.2 = true)) fun _ => True := by
  -- what is left once the page table is there
  have hrest : ∀ (pd' : PageDir) (m' : Kmem) (n : Nat), m.free = m'.free + n →
      (∀ w, pd'.Tab w ↔ pd.Tab w ∨ w / NPTENTRIES = v / NPTENTRIES) →
      wp (do
        if (pd'.entry v).isSome then throw (Stop.panic "remap")
        return (pd'.setEntry v (some e), true) : KM (PageDir × Bool)) m'
        (fun r m' => r.2 = true ∧ m.free = m'.free + n ∧
          ∀ w, r.1.Tab w ↔ pd.Tab w ∨ w / NPTENTRIES = v / NPTENTRIES) fun _ => True := by
    intro pd' m' n hn htab
    refine wp_ite (fun _ => (wp_throw ..).2 trivial) fun _ => (wp_pure ..).2 ⟨rfl, hn, ?_⟩
    intro w
    rw [PageDir.tab_setEntry, htab]
  unfold mappages walkpgdir
  rw [wp_bind]
  refine wp_ite (fun ht => ?_) fun ht => ?_
  · have htv : pd.Tab v := ht
    rw [if_pos htv]
    refine (wp_pure ..).2 (wp.mono (hrest pd m 0 rfl fun w => ?_) ?_ fun _ he => he)
    · refine ⟨.inl, ?_⟩
      rintro (hw | hw)
      · exact hw
      · exact (PageDir.tab_congr hw).2 htv
    · exact fun r m' h => ⟨fun _ => h.2, fun _ => h.1⟩
  · have htv : ¬ pd.Tab v := ht
    rw [if_neg htv]
    simp only [Bool.true_eq_false, if_false, wp_bind]
    refine kalloc_took (fun h0 => ?_) fun page m1 h1 => ?_
    · refine (wp_pure ..).2 ?_
      rw [if_pos rfl]
      exact (wp_pure ..).2 ⟨by simp, fun hor => absurd h0 (hor.resolve_left htv)⟩
    · refine (wp_pure ..).2 (wp.mono (hrest (pd.setTable v page) m1 1 h1.free fun w => ?_) ?_
        fun _ he => he)
      · unfold PageDir.Tab PageDir.setTable
        by_cases hw : w / NPTENTRIES = v / NPTENTRIES
        · simp [hw]
        · simp [hw]
      · exact fun r m' h => ⟨fun _ => h.2, fun _ => h.1⟩

/-- What mapping the kernel costs. -/
theorem mapKernel_count {n : Nat} {pd : PageDir} :
    wp (mapKernel n pd) m (fun r m' => r.1.pde = pd.pde ∧ (r.2 = true → m.free = m'.free + n) ∧
      (n ≤ m.free → r.2 = true)) fun _ => True := by
  induction n generalizing pd m with
  | zero => exact (wp_pure ..).2 ⟨rfl, fun _ => rfl, fun _ => rfl⟩
  | succ n ih =>
      unfold mapKernel
      rw [wp_bind]
      refine kalloc_took (fun h0 => (wp_pure ..).2 ⟨rfl, by simp, fun hle => by omega⟩)
        fun page m1 h1 => ?_
      have hfree := h1.free
      refine wp.mono ih ?_ fun _ he => he
      rintro r m2 ⟨hpde, hcount, hroom⟩
      refine ⟨hpde, fun hr => ?_, fun hle => hroom (by omega)⟩
      have := hcount hr
      omega

/-- What a new page table costs. -/
theorem setupkvm_count :
    wp setupkvm m (fun r m' =>
      (∀ d, r = some d → (d.pde = fun _ => none) ∧ m.free = m'.free + (NKTABS + 1)) ∧
      (NKTABS + 1 ≤ m.free → r ≠ none)) fun _ => True := by
  unfold setupkvm
  rw [wp_bind]
  refine kalloc_took (fun h0 => (wp_pure ..).2 ⟨by simp, fun hle => by omega⟩) fun page m1 h1 => ?_
  have hfree := h1.free
  dsimp only
  rw [wp_bind]
  refine wp.mono mapKernel_count ?_ fun _ he => he
  rintro ⟨pd, ok⟩ m2 ⟨hpde, hcount, hroom⟩
  dsimp only at hpde hcount hroom
  refine wp_ite (fun hok => ?_) fun hok => (wp_pure ..).2 ⟨?_, by simp⟩
  · rw [wp_bind]
    refine wp_any fun _ m3 => (wp_pure ..).2 ⟨by simp, fun hle => ?_⟩
    rw [hroom (by omega)] at hok
    cases hok
  · rintro d hd
    cases hd
    have := hcount (by simpa using hok)
    exact ⟨hpde, by omega⟩

/-- What the loop of `copyuvm` costs: the pages, and a table for each that is missing. -/
theorem copyFrom_count {pd d : PageDir} {n v : Nat}
    (hd : ∀ w, d.Tab w ↔ w / NPTENTRIES < tabs v) :
    wp (copyFrom pd n v d) m (fun r m' =>
      (r ≠ none → m.free + tabs v = m'.free + n + tabs (v + n)) ∧
      (n + tabs (v + n) ≤ m.free + tabs v → r ≠ none)) fun _ => True := by
  induction n generalizing v d m with
  | zero => exact (wp_pure ..).2 ⟨fun _ => rfl, by simp⟩
  | succ n ih =>
      -- one page for this entry, and one for its table if it is the first entry in it
      have hle : tabs (v + 1) ≤ tabs (v + (n + 1)) := tabs_mono (by omega)
      have hle0 : tabs v ≤ tabs (v + (n + 1)) := tabs_mono (Nat.le_add_right v (n + 1))
      have hsucc := tabs_succ v
      have heq : v + 1 + n = v + (n + 1) := by omega
      unfold copyFrom
      rw [wp_bind]
      refine walkpgdir_look fun found _ => ?_
      refine wp_ite (fun _ => (wp_throw ..).2 trivial) fun _ => ?_
      cases pd.entry v with
      | none => exact (wp_throw ..).2 trivial
      | some e =>
          dsimp only
          rw [wp_bind]
          refine kalloc_took (fun h0 => ?_) fun mem m1 h1 => ?_
          · dsimp only
            rw [wp_bind]
            refine wp_any fun _ m2 => (wp_pure ..).2 ⟨by simp, fun hroom => ?_⟩
            omega
          · have hfree := h1.free
            dsimp only
            rw [wp_bind]
            refine wp.mono mappages_count ?_ fun _ he => he
            rintro ⟨d', ok⟩ m2 ⟨hcount, hok⟩
            dsimp only at hcount hok
            have hcount' : ok = true → m1.free + tabs v = m2.free + tabs (v + 1) := by
              intro hk
              have h2 := (hcount hk).1
              by_cases hlt : v / NPTENTRIES < tabs v
              · rw [if_pos ((hd v).2 hlt)] at h2
                rw [if_pos hlt] at hsucc
                omega
              · rw [if_neg fun ht => hlt ((hd v).1 ht)] at h2
                rw [if_neg hlt] at hsucc
                omega
            refine wp_ite (fun hk => ?_) fun hk => ?_
            · simp only [wp_bind]
              refine wp_any fun _ m3 => wp_any fun _ m4 => (wp_pure ..).2 ⟨by simp, fun hroom => ?_⟩
              rw [hok ?_] at hk
              · cases hk
              · rw [hd v]
                by_cases hlt : v / NPTENTRIES < tabs v
                · exact .inl hlt
                · rw [if_neg hlt] at hsucc
                  exact .inr (by omega)
            · have hk' : ok = true := by simpa using hk
              have h2 := hcount' hk'
              refine wp.mono (ih (v := v + 1) fun w => ?_) ?_ fun _ he => he
              · rw [(hcount hk').2, hd, hsucc]
                unfold tabs NPTENTRIES at *
                split <;> omega
              rintro r m3 ⟨h3, hroom⟩
              rw [heq] at h3 hroom
              refine ⟨fun hr => ?_, fun hle => hroom (by omega)⟩
              have := h3 hr
              omega

/-- `copyuvm` takes that many pages, and gives up only if there are not as many. -/
theorem copyuvm_count {pd : PageDir} {sz : Nat} :
    wp (copyuvm pd sz) m (fun r m' => (r ≠ none → m.free = m'.free + copyPages sz) ∧
      (copyPages sz ≤ m.free → r ≠ none)) fun _ => True := by
  have h0 : tabs 0 = 0 := rfl
  unfold copyPages copyuvm
  rw [wp_bind]
  refine wp.mono setupkvm_count ?_ fun _ he => he
  rintro r m1 ⟨hcount, hroom⟩
  cases r with
  | none => exact (wp_pure ..).2 ⟨by simp, fun hle => absurd rfl (hroom (by omega))⟩
  | some d =>
      rcases hcount d rfl with ⟨hempty, hfree⟩
      refine wp.mono (copyFrom_count (v := 0) fun w => ?_) ?_ fun _ he => he
      · simp [PageDir.Tab, hempty, h0]
      · rintro r m2 ⟨h1, h2⟩
        rw [Nat.zero_add] at h1 h2
        refine ⟨fun hr => ?_, fun hle => h2 (by omega)⟩
        have := h1 hr
        omega

end Xv6.Thread
