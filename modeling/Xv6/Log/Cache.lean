import Mathlib.Data.Finset.Card
import Mathlib.Data.Fintype.Card
import Xv6.Log.Log

/-!
# What the buffer cache holds

`Cached s H D C` describes the cache by blocks: `H` are the blocks whose buffer
is held, `D` those whose buffer is dirty, and `C` is what a block contains to
whoever reads it through the cache. Every operation of `bio.c` has one
specification in these terms; nothing after this file looks at single buffers.

* `bread_cached`: `bread` returns a held buffer with the contents `C`, whatever
  was recycled for it;
* `bgetFind_asleep`, `bgetFind_held`, `bgetFind_full`: the ways it stops, on a
  buffer that is held and without a free one;
* `brelse_cached`, `bwrite_cached`, `logWrite_cached`: the other three.
-/

namespace Xv6.Log

open Xv6.Lib Xv6.Lib.Prog

/-! ## The description -/

/-- Buffer `i` is the one for block `b`. -/
def Holds (s : St) (i : Bidx) (b : Nat) : Prop := (s.buf i).caches b = true

theorem caches_iff {x : Buf} {b : Nat} : x.caches b = true ↔ x.dev = ROOTDEV ∧ x.blockno = b := by
  simp [Buf.caches]

theorem Holds.blockno {s : St} {i : Bidx} {b : Nat} (h : Holds s i b) : (s.buf i).blockno = b :=
  (caches_iff.1 h).2

theorem Holds.inj {s : St} {i : Bidx} {b c : Nat} (h : Holds s i b) (h' : Holds s i c) : b = c :=
  h.blockno.symm.trans h'.blockno

structure Cached (s : St) (H D : Finset Nat) (C : Nat → Block) : Prop where
  nodup : s.order.Nodup
  mem : ∀ i, i ∈ s.order
  uniq : ∀ i j b, Holds s i b → Holds s j b → i = j
  locked : ∀ i, (s.buf i).locked = true ↔ ∃ b ∈ H, Holds s i b
  refcnt : ∀ i, (s.buf i).refcnt = if (s.buf i).locked = true then 1 else 0
  dirty : ∀ i, (s.buf i).dirty = true ↔ ∃ b ∈ D, Holds s i b
  valid : ∀ b, b ∈ H ∪ D → ∃ i, Holds s i b ∧ (s.buf i).valid = true
  data : ∀ i b, Holds s i b → (s.buf i).valid = true → (s.buf i).data = C b
  clean : ∀ b, b ∉ D → C b = s.disk b
  range : ∀ b, b ∈ H ∪ D → b < FSSIZE

/-- The fields that the buffer cache does not touch. -/
structure Same (s s' : St) : Prop where
  is_flush : s'.is_flush = s.is_flush
  log : s'.log = s.log
  outstanding : s'.outstanding = s.outstanding
  committing : s'.committing = s.committing
  lh : s'.lh = s.lh
  commits : s'.commits = s.commits

theorem Same.refl (s : St) : Same s s := ⟨rfl, rfl, rfl, rfl, rfl, rfl⟩

/-- Two such changes in a row are one. -/
theorem Same.trans {s s' s'' : St} (h : Same s s') (h' : Same s' s'') : Same s s'' where
  is_flush := h'.is_flush.trans h.is_flush
  log := h'.log.trans h.log
  outstanding := h'.outstanding.trans h.outstanding
  committing := h'.committing.trans h.committing
  lh := h'.lh.trans h.lh
  commits := h'.commits.trans h.commits

/-- Nor is anything written. -/
structure Quiet (s s' : St) : Prop extends Same s s' where
  disk : s'.disk = s.disk
  writes : s'.writes = s.writes

theorem Quiet.trans {s s' s'' : St} (h : Quiet s s') (h' : Quiet s' s'') : Quiet s s'' where
  toSame := h.toSame.trans h'.toSame
  disk := h'.disk.trans h.disk
  writes := h'.writes.trans h.writes

/-- The cache is the same in two states that differ only in other fields. -/
theorem Cached.congr {s s' : St} {H D : Finset Nat} {C : Nat → Block} (h : Cached s H D C)
    (horder : s'.order = s.order) (hbuf : s'.buf = s.buf) (hdisk : s'.disk = s.disk) :
    Cached s' H D C := by
  rcases h with ⟨h1, h2, h3, h4, h5, h6, h7, h8, h9, h10⟩
  constructor <;> simp only [Holds, horder, hbuf, hdisk] at * <;> assumption

/-- A buffer is unused exactly if it caches no block that is held or dirty. -/
theorem Cached.unused_iff {s : St} {H D : Finset Nat} {C : Nat → Block} (h : Cached s H D C)
    (i : Bidx) : (s.buf i).unused = true ↔ ¬ ∃ b ∈ H ∪ D, Holds s i b := by
  have hl := h.locked i
  have hd := h.dirty i
  have hr := h.refcnt i
  have hor : (∃ b ∈ H ∪ D, Holds s i b) ↔ (∃ b ∈ H, Holds s i b) ∨ ∃ b ∈ D, Holds s i b := by
    simp only [Finset.mem_union, or_and_right, exists_or]
  rw [hor, ← hl, ← hd]
  unfold Buf.unused
  by_cases hlk : (s.buf i).locked = true
  · simp [hr, hlk]
  · simp [hr, hlk]

/-- The counter counts the unused buffers. -/
theorem Cached.num_unused {s : St} {H D : Finset Nat} {C : Nat → Block} (h : Cached s H D C) :
    s.num_unused_buf = (Finset.univ.filter fun i => (s.buf i).unused = true).card := by
  have hfin : (s.order.filter fun i => (s.buf i).unused).toFinset =
      Finset.univ.filter fun i => (s.buf i).unused = true := by
    ext i
    simp [h.mem i]
  rw [← hfin, List.toFinset_card_of_nodup (h.nodup.filter _), St.num_unused_buf,
    List.countP_eq_length_filter]

/-- Every held or dirty block takes one buffer. -/
theorem Cached.card {s : St} {H D : Finset Nat} {C : Nat → Block} (h : Cached s H D C) :
    s.num_unused_buf + (H ∪ D).card = NBUF := by
  have hbusy : (Finset.univ.filter fun i => ¬ (s.buf i).unused = true).card = (H ∪ D).card := by
    refine Finset.card_bij (fun i _ => (s.buf i).blockno) ?_ ?_ ?_
    · intro i hi
      rw [Finset.mem_filter, h.unused_iff, not_not] at hi
      rcases hi with ⟨-, b, hb, hib⟩
      rwa [hib.blockno]
    · intro i hi j hj hij
      rw [Finset.mem_filter, h.unused_iff, not_not] at hi hj
      rcases hi with ⟨-, b, _, hib⟩
      rcases hj with ⟨-, c, _, hjc⟩
      rw [hib.blockno, hjc.blockno] at hij
      subst hij
      exact h.uniq i j b hib hjc
    · intro b hb
      rcases h.valid b hb with ⟨i, hib, _⟩
      refine ⟨i, ?_, hib.blockno⟩
      rw [Finset.mem_filter, h.unused_iff, not_not]
      exact ⟨Finset.mem_univ i, b, hb, hib⟩
  rw [h.num_unused, ← hbusy, Finset.card_filter_add_card_filter_not, Finset.card_univ,
    Fintype.card_fin]

/-! ## Changing one buffer -/

/-- Buffer `i` becomes `x`, a buffer for block `b`; it was the one for `b` before,
or `b` had none and `i` was unused. -/
theorem Cached.set {s s' : St} {H D H' D' : Finset Nat} {C C' : Nat → Block} {i : Bidx} {b : Nat}
    {x : Buf} (h : Cached s H D C) (hbuf : s'.buf = Function.update s.buf i x)
    (horder : s'.order.Perm s.order) (hother : ∀ j, Holds s j b → j = i)
    (hold : ∀ c, c ≠ b → Holds s i c → c ∉ H ∪ D)
    (hx : x.caches b = true) (hv : x.valid = true) (hdata : x.data = C' b)
    (hlock : x.locked = true ↔ b ∈ H') (href : x.refcnt = if x.locked = true then 1 else 0)
    (hdirty : x.dirty = true ↔ b ∈ D') (hH : ∀ c, c ≠ b → (c ∈ H' ↔ c ∈ H))
    (hD : ∀ c, c ≠ b → (c ∈ D' ↔ c ∈ D)) (hC : ∀ c, c ≠ b → C' c = C c)
    (hdisk : ∀ c, c ≠ b → s'.disk c = s.disk c) (hclean : b ∉ D' → C' b = s'.disk b)
    (hlt : b < FSSIZE) : Cached s' H' D' C' := by
  have hself : s'.buf i = x := by rw [hbuf, Function.update_self]
  have hne : ∀ j, j ≠ i → s'.buf j = s.buf j := fun j hj => by
    rw [hbuf, Function.update_of_ne hj]
  have hhx : ∀ c, Holds s' i c ↔ c = b := by
    intro c
    unfold Holds
    rw [hself]
    constructor
    · intro hc
      exact (caches_iff.1 hc).2.symm.trans (caches_iff.1 hx).2
    · rintro rfl
      exact hx
  have hhne : ∀ j c, j ≠ i → (Holds s' j c ↔ Holds s j c) := fun j c hj => by
    rw [Holds, Holds, hne j hj]
  -- the sets differ at `b` only, and no buffer but `i` is for `b`
  have hset : ∀ (S S' : Finset Nat), (∀ c, c ≠ b → (c ∈ S' ↔ c ∈ S)) → ∀ j, j ≠ i →
      ((∃ c ∈ S', Holds s' j c) ↔ ∃ c ∈ S, Holds s j c) := by
    intro S S' hS j hj
    refine exists_congr fun c => ?_
    rw [hhne j c hj]
    constructor
    · rintro ⟨hc, hjc⟩
      exact ⟨(hS c fun hcb => hj (hother j (hcb ▸ hjc))).1 hc, hjc⟩
    · rintro ⟨hc, hjc⟩
      exact ⟨(hS c fun hcb => hj (hother j (hcb ▸ hjc))).2 hc, hjc⟩
  have hsetx : ∀ S' : Finset Nat, (∃ c ∈ S', Holds s' i c) ↔ b ∈ S' := by
    intro S'
    simp [hhx]
  constructor
  case nodup => exact horder.symm.nodup h.nodup
  case mem => exact fun j => horder.symm.subset (h.mem j)
  case uniq =>
    intro j k c hj hk
    by_cases hji : j = i
    · subst hji
      by_cases hkj : k = j
      · exact hkj.symm
      · rw [(hhx c).1 hj, hhne k b hkj] at hk
        exact absurd (hother k hk) hkj
    · rw [hhne j c hji] at hj
      by_cases hki : k = i
      · subst hki
        rw [(hhx c).1 hk] at hj
        exact hother j hj
      · rw [hhne k c hki] at hk
        exact h.uniq j k c hj hk
  case locked =>
    intro j
    by_cases hji : j = i
    · subst hji
      rw [hself, hlock, hsetx]
    · rw [hne j hji, hset H H' hH j hji]
      exact h.locked j
  case refcnt =>
    intro j
    by_cases hji : j = i
    · subst hji
      rw [hself]
      exact href
    · rw [hne j hji]
      exact h.refcnt j
  case dirty =>
    intro j
    by_cases hji : j = i
    · subst hji
      rw [hself, hdirty, hsetx]
    · rw [hne j hji, hset D D' hD j hji]
      exact h.dirty j
  case valid =>
    intro c hc
    by_cases hcb : c = b
    · subst hcb
      exact ⟨i, (hhx c).2 rfl, by rw [hself]; exact hv⟩
    · rw [Finset.mem_union, hH c hcb, hD c hcb, ← Finset.mem_union] at hc
      rcases h.valid c hc with ⟨j, hj, hjv⟩
      have hji : j ≠ i := by
        rintro rfl
        exact hold c hcb hj hc
      exact ⟨j, (hhne j c hji).2 hj, by rw [hne j hji]; exact hjv⟩
  case data =>
    intro j c hj hjv
    by_cases hji : j = i
    · subst hji
      rw [(hhx c).1 hj, hself]
      exact hdata
    · rw [hhne j c hji] at hj
      have hcb : c ≠ b := fun hcb => hji (hother j (hcb ▸ hj))
      rw [hne j hji] at hjv ⊢
      rw [hC c hcb]
      exact h.data j c hj hjv
  case clean =>
    intro c hc
    by_cases hcb : c = b
    · subst hcb
      exact hclean hc
    · rw [hC c hcb, hdisk c hcb]
      exact h.clean c ((hD c hcb).not.1 hc)
  case range =>
    intro c hc
    by_cases hcb : c = b
    · subst hcb
      exact hlt
    · rw [Finset.mem_union, hH c hcb, hD c hcb, ← Finset.mem_union] at hc
      exact h.range c hc

/-! ## One buffer at a time -/

@[simp] theorem wp_setBuf (i : Bidx) (f : Buf → Buf) (s : St) (Q : Unit → St → Prop)
    (E : Stop → Prop) : wp (setBuf i f) s Q E ↔ Q () (s.setBuf i f) :=
  wp_modify ..

@[simp] theorem setBuf_self (s : St) (i : Bidx) (f : Buf → Buf) :
    (s.setBuf i f).buf i = f (s.buf i) := Function.update_self ..

theorem setBuf_ne (s : St) {i j : Bidx} (f : Buf → Buf) (h : j ≠ i) :
    (s.setBuf i f).buf j = s.buf j := Function.update_of_ne h _ _

@[simp] theorem setBuf_setBuf (s : St) (i : Bidx) (f g : Buf → Buf) :
    (s.setBuf i f).setBuf i g = s.setBuf i fun b => g (f b) := by
  simp [St.setBuf]

theorem setBuf_quiet (s : St) (i : Bidx) (f : Buf → Buf) : Quiet s (s.setBuf i f) :=
  ⟨⟨rfl, rfl, rfl, rfl, rfl, rfl⟩, rfl, rfl⟩

theorem wp_acquiresleep {i : Bidx} {s : St} (hl : (s.buf i).locked = false)
    (Q : Unit → St → Prop) (E : Stop → Prop) :
    wp (acquiresleep i) s Q E ↔ Q () (s.setBuf i fun b => { b with locked := true }) := by
  simp [acquiresleep, hl]

/-- Reading into a locked buffer that is not valid. -/
theorem wp_iderw_read {i : Bidx} {s : St} (hl : (s.buf i).locked = true)
    (hv : (s.buf i).valid = false) (hd : (s.buf i).dirty = false)
    (hb : (s.buf i).blockno < FSSIZE) (Q : Unit → St → Prop) (E : Stop → Prop) :
    wp (iderw i) s Q E ↔
      Q () (s.setBuf i fun b =>
        { b with data := s.disk b.blockno, valid := true, dirty := false }) := by
  simp [iderw, hl, hv, hd, Nat.not_le.2 hb]

/-- Writing a locked dirty buffer to the disk. -/
theorem wp_iderw_write {i : Bidx} {s : St} (hl : (s.buf i).locked = true)
    (hd : (s.buf i).dirty = true) (hb : (s.buf i).blockno < FSSIZE) (Q : Unit → St → Prop)
    (E : Stop → Prop) :
    wp (iderw i) s Q E ↔
      Q () ({ s with
        disk := Function.update s.disk (s.buf i).blockno (s.buf i).data,
        writes := s.writes ++ [((s.buf i).blockno, (s.buf i).data)] }.setBuf i
          fun b => { b with valid := true, dirty := false }) := by
  simp [iderw, hl, hd, Nat.not_le.2 hb]

/-- `bwrite` marks the buffer dirty and has it written. -/
theorem wp_bwrite {i : Bidx} {s : St} (hl : (s.buf i).locked = true)
    (hb : (s.buf i).blockno < FSSIZE) (Q : Unit → St → Prop) (E : Stop → Prop) :
    wp (bwrite i) s Q E ↔
      Q () ({ s with
        disk := Function.update s.disk (s.buf i).blockno (s.buf i).data,
        writes := s.writes ++ [((s.buf i).blockno, (s.buf i).data)] }.setBuf i
          fun b => { b with valid := true, dirty := false }) := by
  have hd : ((s.setBuf i fun b => { b with dirty := true }).buf i).dirty = true := by simp
  unfold bwrite
  simp only [wp_bind, wp_get, hl, Bool.true_eq_false, if_false, wp_setBuf]
  rw [wp_iderw_write (by simpa using hl) hd (by simpa using hb)]
  simp [St.setBuf]

/-- Giving back a buffer that nobody else waits for. -/
theorem wp_brelse {i : Bidx} {s : St} (hl : (s.buf i).locked = true)
    (hr : (s.buf i).refcnt = 1) (Q : Unit → St → Prop) (E : Stop → Prop) :
    wp (brelse i) s Q E ↔
      Q () { s.setBuf i (fun b => { b with locked := false, refcnt := b.refcnt - 1 }) with
        order := i :: s.order.erase i } := by
  simp only [brelse, wp_bind, wp_get, hl, Bool.true_eq_false, if_false, wp_setBuf, setBuf_self,
    hr, Nat.sub_self, if_true, wp_modify]
  rfl

/-! ## The operations on blocks -/

/-- The buffers that are locked are those of the held blocks. -/
theorem Cached.locked_of_holds {s : St} {H D : Finset Nat} {C : Nat → Block}
    (h : Cached s H D C) {i : Bidx} {b : Nat} (hi : Holds s i b) :
    (s.buf i).locked = true ↔ b ∈ H := by
  rw [h.locked]
  constructor
  · rintro ⟨c, hc, hic⟩
    exact hi.inj hic ▸ hc
  · exact fun hb => ⟨b, hb, hi⟩

/-- The buffers that are dirty are those of the dirty blocks. -/
theorem Cached.dirty_of_holds {s : St} {H D : Finset Nat} {C : Nat → Block}
    (h : Cached s H D C) {i : Bidx} {b : Nat} (hi : Holds s i b) :
    (s.buf i).dirty = true ↔ b ∈ D := by
  rw [h.dirty]
  constructor
  · rintro ⟨c, hc, hic⟩
    exact hi.inj hic ▸ hc
  · exact fun hb => ⟨b, hb, hi⟩

theorem Cached.valid_of_holds {s : St} {H D : Finset Nat} {C : Nat → Block}
    (h : Cached s H D C) {i : Bidx} {b : Nat} (hi : Holds s i b) (hb : b ∈ H ∪ D) :
    (s.buf i).valid = true := by
  rcases h.valid b hb with ⟨j, hj, hv⟩
  rwa [h.uniq i j b hi hj]

/-- The search of `bread` for a block that is not held, and the read it may need. -/
theorem fetch_cached {s : St} {H D : Finset Nat} {C : Nat → Block} (h : Cached s H D C) {b : Nat}
    (hb : b ∉ H) (hlt : b < FSSIZE) (hroom : b ∈ D ∨ (H ∪ D).card < NBUF) {E : Stop → Prop} :
    wp (bgetFind b) s (fun i s1 =>
      wp (if (s1.buf i).valid = false then do iderw i; pure i else pure i) s1 (fun i s' =>
        Cached s' (insert b H) D C ∧ Holds s' i b ∧ Quiet s s' ∧
          ∀ j, (s.buf j).locked = true → s'.buf j = s.buf j) E) E := by
  -- the buffer `x` that ends up in place of buffer `i`
  have hdone : ∀ (i : Bidx) (x : Buf), (∀ j, Holds s j b → j = i) →
      (∀ c, c ≠ b → Holds s i c → c ∉ H ∪ D) → (s.buf i).locked = false →
      x.caches b = true → x.valid = true → x.data = C b → x.locked = true → x.refcnt = 1 →
      (x.dirty = true ↔ b ∈ D) →
      Cached (s.setBuf i fun _ => x) (insert b H) D C ∧ Holds (s.setBuf i fun _ => x) i b ∧
        Quiet s (s.setBuf i fun _ => x) ∧
        ∀ j, (s.buf j).locked = true → (s.setBuf i fun _ => x).buf j = s.buf j := by
    intro i x hother hold hnl hx hv hdata hl hr hd
    refine ⟨?_, ?_, setBuf_quiet _ _ _, ?_⟩
    · exact h.set (i := i) (b := b) (x := x) rfl (List.Perm.refl _) hother hold hx hv hdata
        (by simp [hl]) (by simp [hl, hr]) hd (fun c hc => by simp [hc]) (fun _ _ => Iff.rfl)
        (fun _ _ => rfl) (fun _ _ => rfl) (h.clean b) hlt
    · simpa [Holds] using hx
    · intro j hj
      apply setBuf_ne
      rintro rfl
      rw [hnl] at hj
      cases hj
  unfold bgetFind
  simp only [wp_bind, wp_get]
  split
  · -- some buffer has the block
    next i hfind =>
    have hi : Holds s i b := by simpa [Holds] using List.find?_some hfind
    have hnl : (s.buf i).locked = false := by
      rw [← Bool.not_eq_true, h.locked_of_holds hi]
      exact hb
    have hr : (s.buf i).refcnt = 0 := by
      rw [h.refcnt, hnl]
      rfl
    have hother : ∀ j, Holds s j b → j = i := fun j hj => h.uniq j i b hj hi
    have hold : ∀ c, c ≠ b → Holds s i c → c ∉ H ∪ D := fun c hc hic =>
      absurd (hic.inj hi) hc
    simp only [wp_bind, wp_setBuf]
    rw [wp_acquiresleep (by simpa using hnl)]
    simp only [wp_pure, setBuf_setBuf, setBuf_self]
    cases hv : (s.buf i).valid with
    | true =>
        have hres := hdone i { s.buf i with locked := true, refcnt := 1 } hother hold hnl hi hv
          (h.data i b hi hv) rfl rfl (h.dirty_of_holds hi)
        simpa [hr, St.setBuf] using hres
    | false =>
        have hnd : b ∉ D := by
          intro hbD
          have := h.valid_of_holds hi (Finset.mem_union_right _ hbD)
          rw [hv] at this
          cases this
        have hd : (s.buf i).dirty = false := by
          rw [← Bool.not_eq_true, h.dirty_of_holds hi]
          exact hnd
        have hres := hdone i
          { s.buf i with locked := true, refcnt := 1, valid := true, dirty := false,
                         data := s.disk b } hother hold hnl hi rfl (h.clean b hnd).symm
          rfl rfl (by simp [hnd])
        simp only [if_true, wp_bind]
        rw [wp_iderw_read (by simp) (by simpa using hv) (by simpa using hd)
          (by simpa [hi.blockno] using hlt)]
        simpa [hr, St.setBuf, hi.blockno] using hres
  · -- a buffer is recycled
    next hfind =>
    have hnone : ∀ j, ¬ Holds s j b := by
      intro j hj
      exact List.find?_eq_none.1 hfind j (h.mem j) hj
    have hnd : b ∉ D := by
      intro hbD
      rcases h.valid b (Finset.mem_union_right _ hbD) with ⟨j, hj, _⟩
      exact hnone j hj
    have hcard := h.card
    have hpos : 0 < s.num_unused_buf := by
      rcases hroom with hr | hr
      · exact absurd hr hnd
      · omega
    rcases List.countP_pos_iff.1 hpos with ⟨k, hk, hku⟩
    split
    · next i hrec =>
      have hu : (s.buf i).unused = true := by simpa using List.find?_some hrec
      have hfree := (h.unused_iff i).1 hu
      have hnl : (s.buf i).locked = false := by
        rw [← Bool.not_eq_true, h.locked]
        rintro ⟨c, hc, hic⟩
        exact hfree ⟨c, Finset.mem_union_left _ hc, hic⟩
      have hres := hdone i
        { s.buf i with dev := ROOTDEV, blockno := b, locked := true, refcnt := 1, valid := true,
                       dirty := false, data := s.disk b }
        (fun j hj => absurd hj (hnone j)) (fun c _ hic hc => hfree ⟨c, hc, hic⟩) hnl
        (by simp [Buf.caches]) rfl (h.clean b hnd).symm rfl rfl (by simp [hnd])
      simp only [wp_bind, wp_setBuf]
      rw [wp_acquiresleep (by simpa using hnl)]
      simp only [wp_pure, setBuf_setBuf, setBuf_self, if_true, wp_bind]
      rw [wp_iderw_read (by simp) (by simp) (by simp) (by simpa using hlt)]
      simpa [St.setBuf] using hres
    · next hrec =>
      exact absurd hku (List.find?_eq_none.1 hrec k (List.mem_reverse.2 hk))

/-- `bread` of a block that is not held, when it does not flush. -/
theorem bread_cached {s : St} {H D : Finset Nat} {C : Nat → Block} (h : Cached s H D C)
    {flush : M Unit} {b : Nat} (hflush : s.is_flush = true ∨ 2 < s.num_unused_buf) (hb : b ∉ H)
    (hlt : b < FSSIZE) (hroom : b ∈ D ∨ (H ∪ D).card < NBUF) :
    Ends (breadWith flush b) s fun i s' =>
      Cached s' (insert b H) D C ∧ Holds s' i b ∧ Quiet s s' ∧
        ∀ j, (s.buf j).locked = true → s'.buf j = s.buf j := by
  have hno : ¬ (s.is_flush = false ∧ s.num_unused_buf ≤ 2) := by
    rintro ⟨h1, h2⟩
    rcases hflush with h3 | h3
    · rw [h1] at h3
      cases h3
    · omega
  unfold breadWith bgetWith
  simp only [Ends, wp_bind, wp_get]
  rw [if_neg hno]
  exact fetch_cached h hb hlt hroom

/-- A process that asks for a block it holds waits for itself. -/
theorem bgetFind_asleep {s : St} {H D : Finset Nat} {C : Nat → Block} (h : Cached s H D C)
    {b : Nat} (hb : b ∈ H) : wp (bgetFind b) s (fun _ _ => False) (· = .asleep) := by
  rcases h.valid b (Finset.mem_union_left _ hb) with ⟨j, hj, _⟩
  unfold bgetFind
  simp only [wp_bind, wp_get]
  split
  · next i hfind =>
    have hi : Holds s i b := by simpa [Holds] using List.find?_some hfind
    have hl := (h.locked_of_holds hi).2 hb
    simp [acquiresleep, hl]
  · next hfind => exact absurd hj (List.find?_eq_none.1 hfind j (h.mem j))

theorem bgetFind_held {s : St} {H D : Finset Nat} {C : Nat → Block} (h : Cached s H D C) {b : Nat}
    (hb : b ∈ H) : Stops (bgetFind b) s :=
  (bgetFind_asleep h hb).mono (fun _ _ hf => hf) fun _ _ => trivial

/-- When every buffer is held or dirty no other block can be read. -/
theorem bgetFind_full {s : St} {H D : Finset Nat} {C : Nat → Block} (h : Cached s H D C) {b : Nat}
    (hfull : s.num_unused_buf = 0) (hb : b ∉ H ∪ D) : Stops (bgetFind b) s := by
  have hused : ∀ i, (s.buf i).unused ≠ true := by
    intro i hi
    have hpos : 0 < s.num_unused_buf := List.countP_pos_iff.2 ⟨i, h.mem i, hi⟩
    omega
  unfold bgetFind
  simp only [Stops, wp_bind, wp_get]
  split
  · next i hfind =>
    have hi : Holds s i b := by simpa [Holds] using List.find?_some hfind
    have hbusy := (h.unused_iff i).not.1 (hused i)
    rw [not_not] at hbusy
    rcases hbusy with ⟨c, hc, hic⟩
    exact absurd (hic.inj hi ▸ hc) hb
  · split
    · next i hrec => exact absurd (by simpa using List.find?_some hrec) (hused i)
    · simp [halt]

/-- A held block leaves the cache's hands. -/
theorem brelse_cached {s : St} {H D : Finset Nat} {C : Nat → Block} (h : Cached s H D C)
    {i : Bidx} {b : Nat} (hi : Holds s i b) (hb : b ∈ H) :
    Ends (brelse i) s fun _ s' =>
      Cached s' (H.erase b) D C ∧ Quiet s s' ∧ ∀ j, j ≠ i → s'.buf j = s.buf j := by
  have hl := (h.locked_of_holds hi).2 hb
  have hr : (s.buf i).refcnt = 1 := by
    rw [h.refcnt, if_pos hl]
  have hv := h.valid_of_holds hi (Finset.mem_union_left _ hb)
  unfold Ends
  rw [wp_brelse hl hr]
  refine ⟨?_, ⟨⟨rfl, rfl, rfl, rfl, rfl, rfl⟩, rfl, rfl⟩, ?_⟩
  · refine h.set (i := i) (b := b)
      (x := { s.buf i with locked := false, refcnt := (s.buf i).refcnt - 1 }) rfl
      (List.perm_cons_erase (h.mem i)).symm (fun j hj => h.uniq j i b hj hi)
      (fun c hc hic => absurd (hic.inj hi) hc) hi hv (h.data i b hi hv) (by simp) (by simp [hr])
      (h.dirty_of_holds hi) (fun c hc => by simp [hc]) (fun _ _ => Iff.rfl) (fun _ _ => rfl)
      (fun _ _ => rfl) (h.clean b) (h.range b (Finset.mem_union_left _ hb))
  · intro j hj
    simp [St.setBuf, hj]

/-- New contents put into a held buffer and written to the disk. -/
theorem bwrite_cached {s : St} {H D : Finset Nat} {C : Nat → Block} (h : Cached s H D C)
    {i : Bidx} {b : Nat} (hi : Holds s i b) (hb : b ∈ H) (v : Block) :
    Ends (bwrite i) (s.setBuf i fun x => { x with data := v }) fun _ s' =>
      Cached s' H (D.erase b) (Function.update C b v) ∧ Same s s' ∧
        s'.disk = Function.update s.disk b v ∧ s'.writes = s.writes ++ [(b, v)] ∧
        ∀ j, j ≠ i → s'.buf j = s.buf j := by
  have hl := (h.locked_of_holds hi).2 hb
  have hlt := h.range b (Finset.mem_union_left _ hb)
  unfold Ends
  rw [wp_bwrite (by simpa using hl) (by simpa [hi.blockno] using hlt)]
  simp only [setBuf_self, hi.blockno]
  refine ⟨?_, ⟨rfl, rfl, rfl, rfl, rfl, rfl⟩, rfl, rfl, ?_⟩
  · refine h.set (i := i) (b := b)
      (x := { s.buf i with data := v, valid := true, dirty := false }) (by simp [St.setBuf])
      (List.Perm.refl _) (fun j hj => h.uniq j i b hj hi)
      (fun c hc hic => absurd (hic.inj hi) hc) hi rfl (by simp) (by simp [hl, hb])
      (h.refcnt i) (by simp) (fun _ _ => Iff.rfl) (fun c hc => by simp [hc])
      (fun c hc => by simp [hc]) (fun c hc => ?_) (fun _ => ?_) hlt
    · simp [St.setBuf, hc]
    · simp [St.setBuf]
  · intro j hj
    simp [St.setBuf, hj]

/-- New contents put into a held buffer and logged. -/
theorem logWrite_cached {s : St} {H D : Finset Nat} {C : Nat → Block} (h : Cached s H D C)
    {i : Bidx} {b : Nat} (hi : Holds s i b) (hb : b ∈ H) (v : Block)
    (hroom : s.lh.length < LOGSIZE ∧ s.lh.length < s.log.size - 1) (hout : 1 ≤ s.outstanding) :
    Ends (logWrite i) (s.setBuf i fun x => { x with data := v }) fun _ s' =>
      Cached s' H (insert b D) (Function.update C b v) ∧
        s' = { s.setBuf i (fun x => { x with data := v, dirty := true }) with
          lh := if b ∈ s.lh then s.lh else s.lh ++ [b] } := by
  have hl := (h.locked_of_holds hi).2 hb
  have hlt := h.range b (Finset.mem_union_left _ hb)
  have hv := h.valid_of_holds hi (Finset.mem_union_left _ hb)
  -- neither panic: there is room, and the caller is inside an operation
  have h1 : ¬ (s.lh.length ≥ LOGSIZE ∨ s.lh.length ≥ s.log.size - 1) := by omega
  have h2 : ¬ s.outstanding < 1 := by omega
  have hlh : (s.setBuf i fun x => { x with data := v }).lh = s.lh := rfl
  have hlog : (s.setBuf i fun x => { x with data := v }).log = s.log := rfl
  have hos : (s.setBuf i fun x => { x with data := v }).outstanding = s.outstanding := rfl
  unfold Ends logWrite
  simp only [wp_bind, wp_get, hlh, hlog, hos, if_neg h1, if_neg h2, wp_modify, wp_setBuf,
    setBuf_self, hi.blockno]
  constructor
  · refine h.set (i := i) (b := b) (x := { s.buf i with data := v, dirty := true })
      (by simp [St.setBuf]) (List.Perm.refl _) (fun j hj => h.uniq j i b hj hi)
      (fun c hc hic => absurd (hic.inj hi) hc) hi hv (by simp) (by simp [hl, hb])
      (h.refcnt i) (by simp) (fun _ _ => Iff.rfl) (fun c hc => by simp [hc])
      (fun c hc => by simp [hc]) (fun c hc => rfl)
        (fun hn => absurd (Finset.mem_insert_self _ _) hn)
      hlt
  · simp [St.setBuf]

end Xv6.Log
