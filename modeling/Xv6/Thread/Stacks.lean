import Xv6.Thread.Holes
import Xv6.Thread.Pages

/-!
# Kernel stacks

Every thread slot has a page for its kernel stack, and the pointers saved for
the thread lead into it. No call takes a stack page away from a slot in use, or
gives out a page twice, but for one loop: where `fork` copies the siblings of a
main thread, it copies the saved `ebp` of each by value, and with it a pointer
into the stack of the thread that is copied.

The model is that of whole time slices (`sliceNext`), so a `fork` may follow an
`exec` by the same thread, which its slot does not know of yet.

* `call_runs`, `calls_runs`, `step_stacks`: what a call, the calls of a slice and a
  slice preserve;
* `stacks_private`: in every run of slices that keep the stacks apart no two slots
  in use share a page, and each thread is resumed on its own;
* `fork_shares_stack`: a copied sibling is resumed on the stack of another.

The pages of slots and directories are one ledger (`Thread.Pages`), here for the
slots that are in use.
-/

namespace Xv6.Thread

open Xv6.Lib Prog

/-! ## Stacks -/

/-- The slot has a kernel stack, and what is saved for the thread lies in it. -/
structure Seat (t : Pthread) : Prop where
  kstack : t.kstack ≠ 0
  aligned : t.kstack % PGSIZE = 0
  tf : t.tf / PGSIZE = t.kstack / PGSIZE
  context : t.context.ptr / PGSIZE = t.kstack / PGSIZE
  ebp : t.context.ebp = 0 ∨ t.context.ebp / PGSIZE = t.kstack / PGSIZE

/-- No page is held twice, and a slot that is in use, or has a page, is in order. -/
structure Stacks (c : Option PageDir) (s : Kernel) : Prop where
  pages : Pages (fun _ => True) (fun _ => False) c s
  seat : ∀ i, (s.pthread i).state ≠ .UNUSED ∨ (s.pthread i).kstack ≠ 0 → Seat (s.pthread i)

variable {s s' : Kernel} {c c' : Option PageDir} {p q : Pidx} {i j : Tidx} {m : Kmem}

/-! ## What the code does with pages -/

/-- Slots keep their stacks, processes their directories. -/
structure Alike (s s' : Kernel) : Prop where
  kstack : ∀ j, (s'.pthread j).kstack = (s.pthread j).kstack
  tf : ∀ j, (s'.pthread j).tf = (s.pthread j).tf
  context : ∀ j, (s'.pthread j).context = (s.pthread j).context
  used : ∀ j, (s'.pthread j).state ≠ .UNUSED →
    (s.pthread j).state ≠ .UNUSED ∨ (s.pthread j).kstack ≠ 0
  dir : ∀ q, Active (s'.proc q) → Active (s.proc q) ∧ (s'.proc q).pgdir = (s.proc q).pgdir
  kmem : s'.kmem = s.kmem

/-- The stacks of alike states are alike. -/
theorem Stacks.alike (h : Stacks c s) (ha : Alike s s') : Stacks c s' where
  pages := by
    refine h.pages.mono ha.kmem ?_
    intro o a ho
    cases o with
    | slot i => exact ⟨trivial, (ha.kstack i).symm.trans ho.2.1, ho.2.2⟩
    | dir q r =>
        rcases ho with ⟨hact, pd, hpd, hr⟩
        rcases ha.dir q hact with ⟨hact, heq⟩
        exact ⟨hact, pd, heq ▸ hpd, hr⟩
    | code r => exact ho
    | wild => exact ho
  seat := by
    intro i hi
    have hseat := h.seat i ?_
    · refine ⟨?_, ?_, ?_, ?_, ?_⟩ <;> rw [ha.kstack i]
      · exact hseat.kstack
      · exact hseat.aligned
      · rw [ha.tf i]
        exact hseat.tf
      · rw [ha.context i]
        exact hseat.context
      · rw [ha.context i]
        exact hseat.ebp
    · rcases hi with hi | hi
      · exact ha.used i hi
      · exact .inr (ha.kstack i ▸ hi)

/-- Two calls in a row that keep the stacks. -/
theorem Alike.trans {s1 s2 s3 : Kernel} (h : Alike s1 s2) (h' : Alike s2 s3) : Alike s1 s3 where
  kstack := fun j => (h'.kstack j).trans (h.kstack j)
  tf := fun j => (h'.tf j).trans (h.tf j)
  context := fun j => (h'.context j).trans (h.context j)
  used := by
    intro j hj
    rcases h'.used j hj with h1 | h1
    · exact h.used j h1
    · exact .inr (h.kstack j ▸ h1)
  dir := by
    intro q hq
    rcases h'.dir q hq with ⟨h1, h2⟩
    rcases h.dir q h1 with ⟨h3, h4⟩
    exact ⟨h3, h2.trans h4⟩
  kmem := h'.kmem.trans h.kmem

/-- Assigning to other fields of a process. -/
theorem Alike.setProc {f : Proc → Proc} (hpd : (f (s.proc q)).pgdir = (s.proc q).pgdir)
    (hact : Active (f (s.proc q)) → Active (s.proc q)) : Alike s (s.setProc q f) := by
  refine ⟨fun _ => rfl, fun _ => rfl, fun _ => rfl, fun _ h => .inl h, fun r hr => ?_, rfl⟩
  by_cases hrq : r = q
  · subst hrq
    rw [Kernel.setProc_self] at hr ⊢
    exact ⟨hact hr, hpd⟩
  · rw [Kernel.setProc_ne hrq] at hr ⊢
    exact ⟨hr, rfl⟩

/-- Assigning to other fields of a slot. -/
theorem Alike.setTh {g : Pthread → Pthread} (hk : (g (s.pthread i)).kstack = (s.pthread i).kstack)
    (htf : (g (s.pthread i)).tf = (s.pthread i).tf)
    (hctx : (g (s.pthread i)).context = (s.pthread i).context)
    (hu : (g (s.pthread i)).state ≠ .UNUSED →
      (s.pthread i).state ≠ .UNUSED ∨ (s.pthread i).kstack ≠ 0) : Alike s (s.setTh i g) := by
  refine ⟨fun j => ?_, fun j => ?_, fun j => ?_, fun j hj => ?_, fun _ h => ⟨h, rfl⟩, rfl⟩
  all_goals by_cases hji : j = i
  · subst hji
    rw [Kernel.setTh_self, hk]
  · rw [Kernel.setTh_ne hji]
  · subst hji
    rw [Kernel.setTh_self, htf]
  · rw [Kernel.setTh_ne hji]
  · subst hji
    rw [Kernel.setTh_self, hctx]
  · rw [Kernel.setTh_ne hji]
  · subst hji
    rw [Kernel.setTh_self] at hj
    exact hu hj
  · rw [Kernel.setTh_ne hji] at hj
    exact .inl hj

theorem Alike.setCont (s : Kernel) (i : Tidx) (k : Cont) : Alike s (s.setCont i k) :=
  ⟨fun _ => rfl, fun _ => rfl, fun _ => rfl, fun _ h => .inl h, fun _ h => ⟨h, rfl⟩, rfl⟩

/-- A wakeup keeps the stacks. -/
theorem Alike.woken (s : Kernel) (ch : Chan) : Alike s (s.woken ch) := by
  refine ⟨fun j => (wake_kept ch _).kstack, fun j => (wake_kept ch _).tf,
    fun j => (wake_kept ch _).context, fun j hj => .inl ?_, fun _ h => ⟨h, rfl⟩, rfl⟩
  intro hu
  refine hj ?_
  show (wake ch (s.pthread j)).state = .UNUSED
  unfold wake
  rw [if_neg (by simp [hu]), hu]

/-! ### Directories -/

/-- All that is held, and `code` works on a directory. -/
abbrev Kernel.held (s : Kernel) (a : Nat) : Prop :=
  ∃ o, s.holds (fun _ => True) (fun _ => False) none o a

/-- The code has made a directory, or has failed to. -/
theorem Stacks.made {r : Option PageDir} (h : Stacks none s) (hm : Made s.held m r) :
    Stacks r (s.setKmem m) :=
  ⟨h.pages.made hm, h.seat⟩

theorem Stacks.commit {pd : PageDir} {f : Proc → Proc} (h : Stacks (some pd) s)
    (hf : (f (s.proc q)).pgdir = some pd)
    (hc : c' = none ∨ Active (s.proc q) ∧ c' = (s.proc q).pgdir) : Stacks c' (s.setProc q f) :=
  ⟨h.pages.commit hf hc, h.seat⟩

theorem Stacks.discard {pd : PageDir} (h : Stacks (some pd) s) (hap : Apart s.held m) :
    Stacks none (s.setKmem m) :=
  ⟨h.pages.discard hap, h.seat⟩

/-! ### Slots -/

/-- A new kernel stack is in order. -/
theorem Seat.fresh {k : Nat} (hk : k ≠ 0) (hal : k % PGSIZE = 0) {t : Pthread}
    (h1 : t.kstack = k) (h2 : t.tf = tfAt k) (h3 : t.context = contextAt k) : Seat t := by
  have htf : tfAt k / PGSIZE = k / PGSIZE := by
    unfold tfAt KSTACKSIZE SIZEOF_TRAPFRAME PGSIZE at *
    omega
  have hctx : (contextAt k).ptr / PGSIZE = k / PGSIZE := by
    unfold contextAt tfAt KSTACKSIZE SIZEOF_TRAPFRAME SIZEOF_CONTEXT PGSIZE at *
    dsimp only
    omega
  refine ⟨by rw [h1]; exact hk, by rw [h1]; exact hal, ?_, ?_, ?_⟩
  · rw [h1, h2, htf]
  · rw [h1, h3, hctx]
  · rw [h3]
    exact .inl rfl

/-- A slot that is taken gets a page that nobody holds. -/
theorem Stacks.newTh {k : Nat} (h : Stacks c s) (ht : Took s.kmem m k) :
    Stacks c ((s.setTh i (freshTh k)).setKmem m) where
  pages := h.pages.newTh ht rfl fun _ _ _ => trivial
  seat := by
    intro j hj
    by_cases hji : j = i
    · subst hji
      rcases Stock.took_spec h.pages ht with ⟨-, hal, -⟩
      have hpos := ht.pos
      exact .fresh (k := k) (by omega) hal (by simp [freshTh]) (by simp [freshTh])
        (by simp [freshTh])
    · simp only [Kernel.setKmem_pthread, Kernel.setTh_ne hji] at hj ⊢
      exact h.seat j hj

/-- A slot that is not in use loses its stack. -/
theorem Stacks.clearTh {g : Pthread → Pthread} (h : Stacks c s)
    (hk : (g (s.pthread i)).kstack = 0) (hu : (g (s.pthread i)).state = .UNUSED) :
    Stacks c (s.setTh i g) where
  pages := h.pages.clearTh (fun _ => hk) fun _ _ _ => trivial
  seat := by
    intro j hj
    by_cases hji : j = i
    · subst hji
      rw [Kernel.setTh_self, hk, hu] at hj
      simp at hj
    · rw [Kernel.setTh_ne hji] at hj ⊢
      exact h.seat j hj

/-- The stack of a slot is freed, and the slot given back. -/
theorem Stacks.freeTh {g : Pthread → Pthread} (h : Stacks c s)
    (hg : Gave s.kmem m (s.pthread i).kstack) (hk : (g (s.pthread i)).kstack = 0)
    (hu : (g (s.pthread i)).state = .UNUSED) : Stacks c ((s.setKmem m).setTh i g) where
  pages := h.pages.freeTh hg trivial (fun _ => hk) fun _ _ _ => trivial
  seat := by
    intro j hj
    by_cases hji : j = i
    · subst hji
      rw [Kernel.setTh_self] at hj
      rw [show (s.setKmem m).pthread j = s.pthread j from rfl, hk, hu] at hj
      simp at hj
    · rw [Kernel.setTh_ne hji] at hj ⊢
      exact h.seat j hj

/-! ## Calls -/

/-- While thread `o` runs: all is in order, process `p` still has the stack `K` and the
trap frame `T` it was dressed with, and so has the slot of the thread. -/
structure Runs (p : Pidx) (o : Tidx) (K T : Nat) (c : Option PageDir) (s : Kernel) : Prop
    extends Stacks c s where
  active : Active (s.proc p)
  own_kstack : (s.proc p).kstack = K
  own_tf : (s.proc p).tf = T
  slot_used : (s.pthread o).state ≠ .UNUSED
  slot_kstack : (s.pthread o).kstack = K

variable {o : Tidx} {K T : Nat}

theorem Runs.alike (h : Runs p o K T c s) (ha : Alike s s') (hact : Active (s'.proc p))
    (hk : (s'.proc p).kstack = (s.proc p).kstack) (htf : (s'.proc p).tf = (s.proc p).tf)
    (hu : (s'.pthread o).state ≠ .UNUSED) : Runs p o K T c s' :=
  ⟨h.toStacks.alike ha, hact, hk.trans h.own_kstack, htf.trans h.own_tf, hu,
    (ha.kstack o).trans h.slot_kstack⟩

/-- The process is as before, and so is the slot of the thread. -/
theorem Runs.of_eq (h : Runs p o K T c s) (hst : Stacks c' s') (hproc : s'.proc p = s.proc p)
    (hth : s'.pthread o = s.pthread o) : Runs p o K T c' s' :=
  ⟨hst, hproc ▸ h.active, hproc ▸ h.own_kstack, hproc ▸ h.own_tf, hth ▸ h.slot_used,
    hth ▸ h.slot_kstack⟩

theorem Runs.of_proc (h : Runs p o K T c s) (hst : Stacks c s') (hproc : s'.proc = s.proc)
    (hth : s'.pthread o = s.pthread o) : Runs p o K T c s' :=
  h.of_eq hst (congrFun hproc p) hth

/-- A slot that is not in use is not that of the thread. -/
theorem Runs.ne_free (h : Runs p o K T c s) (hi : (s.pthread i).state = .UNUSED) : o ≠ i := by
  rintro rfl
  exact h.slot_used hi

/-- A slot with another stack is not that of the thread. -/
theorem Runs.ne_freed (h : Runs p o K T c s) (hi : (s.proc p).kstack ≠ (s.pthread i).kstack) :
    o ≠ i := by
  rintro rfl
  exact hi (h.own_kstack.trans h.slot_kstack.symm)

/-- Changing one process while a thread runs. -/
theorem Runs.setProc {f : Proc → Proc} (h : Runs p o K T c s)
    (hpd : (f (s.proc q)).pgdir = (s.proc q).pgdir)
    (hact : Active (f (s.proc q)) ↔ Active (s.proc q))
    (hk : (f (s.proc q)).kstack = (s.proc q).kstack) (htf : (f (s.proc q)).tf = (s.proc q).tf) :
    Runs p o K T c (s.setProc q f) := by
  refine h.alike (.setProc hpd hact.1) ?_ ?_ ?_ h.slot_used <;> by_cases hq : p = q
  · subst hq
    rw [Kernel.setProc_self]
    exact hact.2 h.active
  · rw [Kernel.setProc_ne hq]
    exact h.active
  · subst hq
    rw [Kernel.setProc_self, hk]
  · rw [Kernel.setProc_ne hq]
  · subst hq
    rw [Kernel.setProc_self, htf]
  · rw [Kernel.setProc_ne hq]

/-- The running process goes on in another state. -/
theorem Runs.setState {f : Proc → Proc} (h : Runs p o K T c s)
    (hpd : (f (s.proc p)).pgdir = (s.proc p).pgdir) (hact : Active (f (s.proc p)))
    (hk : (f (s.proc p)).kstack = (s.proc p).kstack) (htf : (f (s.proc p)).tf = (s.proc p).tf) :
    Runs p o K T c (s.setProc p f) :=
  h.setProc hpd ⟨fun _ => h.active, fun _ => hact⟩ hk htf

/-- Changing one slot while a thread runs. -/
theorem Runs.setTh {g : Pthread → Pthread} (h : Runs p o K T c s)
    (hk : (g (s.pthread i)).kstack = (s.pthread i).kstack)
    (htf : (g (s.pthread i)).tf = (s.pthread i).tf)
    (hctx : (g (s.pthread i)).context = (s.pthread i).context)
    (hu : (g (s.pthread i)).state ≠ .UNUSED →
      (s.pthread i).state ≠ .UNUSED ∨ (s.pthread i).kstack ≠ 0)
    (hown : o = i → (g (s.pthread i)).state ≠ .UNUSED) : Runs p o K T c (s.setTh i g) := by
  refine h.alike (.setTh hk htf hctx hu) h.active rfl rfl ?_
  by_cases hi : o = i
  · subst hi
    rw [Kernel.setTh_self]
    exact hown rfl
  · rw [Kernel.setTh_ne hi]
    exact h.slot_used

/-- Assigning to a field of a slot that says nothing about its stack. -/
theorem Runs.setField {g : Pthread → Pthread} (h : Runs p o K T c s)
    (hk : (g (s.pthread i)).kstack = (s.pthread i).kstack)
    (htf : (g (s.pthread i)).tf = (s.pthread i).tf)
    (hctx : (g (s.pthread i)).context = (s.pthread i).context)
    (hst : (g (s.pthread i)).state = (s.pthread i).state) : Runs p o K T c (s.setTh i g) := by
  refine h.setTh hk htf hctx (fun hu => .inl fun h0 => hu (hst.trans h0)) ?_
  rintro rfl h0
  exact h.slot_used (hst.symm.trans h0)

/-- A wakeup frees no slot. -/
theorem wake_unused {ch : Chan} {t : Pthread} (h : (wake ch t).state = .UNUSED) :
    t.state = .UNUSED := by
  unfold wake at h
  split at h
  · cases h
  · exact h

theorem Runs.woken (h : Runs p o K T c s) (ch : Chan) : Runs p o K T c (s.woken ch) :=
  h.alike (.woken s ch) h.active rfl rfl fun hu => h.slot_used (wake_unused hu)

/-- Work on the directory of the running process, which then is put in place. -/
theorem Runs.work {α : Type} {x : KM α} {g : α → PageDir} {pd : PageDir} (h : Runs p o K T c s)
    (hpd : (s.proc p).pgdir = some pd)
    (hx : ∀ F m, Owned F pd m → wp x m (fun r m' => Owned F (g r) m') fun _ => True) :
    wp x s.kmem (fun r m => Runs p o K T c
      ((s.setKmem m).setProc p fun y => { y with pgdir := some (g r) })) fun _ => True := by
  refine wp.mono (hx _ _ (h.pages.dir h.active hpd)) (fun r m hr => ?_) fun _ he => he
  refine ⟨⟨h.pages.setDir (q := p) hr rfl (fun q hq => ?_) (by simp), h.seat⟩, ?_, ?_, ?_,
    h.slot_used, h.slot_kstack⟩
  · rw [Kernel.setProc_ne hq]
    rfl
  · rw [Kernel.setProc_self]
    exact h.active
  · rw [Kernel.setProc_self]
    exact h.own_kstack
  · rw [Kernel.setProc_self]
    exact h.own_tf

theorem sleep_runs {ch : Chan} {k : Cont} (h : Runs p o K T c s) :
    wp (sleep p ch k) s (fun _ s' => Runs p o K T c s') fun _ => True :=
  sleep_wp (h.setState rfl ⟨by simp, by simp⟩ rfl rfl)

/-- A call into the rest of the kernel keeps the stacks apart. -/
theorem inside_runs {k : Cont} {w z : Option Chan} (h : Runs p o K T c s) :
    wp (inside p k w z) s (fun _ s' => Runs p o K T c s') fun _ => True := by
  refine inside_wp (Runs p o K T c) (Runs p o K T c) h (h.setState rfl h.active rfl rfl)
    (fun _ h1 => ⟨h1, fun ch _ => h1.woken ch⟩) (fun _ _ h1 _ => sleep_runs h1) fun s1 h1 _ => ?_
  unfold yieldInside
  simp only [wp_bind, wp_setProc]
  refine sched_wp (fun _ => trivial) fun _ => (wp_pure ..).2 ?_
  exact h1.setState rfl ⟨by simp, by simp⟩ rfl rfl

/-! ### Memory -/

/-- `growproc` keeps the stacks apart. -/
theorem growproc_runs {n : Int} (h : Runs p o K T c s) :
    wp (growproc p n) s (fun _ s' => Runs p o K T c s') fun _ => True := by
  unfold growproc
  simp only [wp_bind, wp_get]
  refine wp_ite (fun _ => (wp_pure ..).2 h) fun _ => ?_
  rw [wp_bind]
  refine getPgdir_wp (fun pd hpd => ?_) fun _ => trivial
  rw [wp_bind, wp_onKmem]
  refine wp.mono (h.work (g := Prod.fst) hpd fun F m hown => ?_) (fun r m h1 => ?_) fun _ he => he
  · refine wp_ite (fun _ => allocuvm_own hown) fun _ => ?_
    exact wp_ite (fun _ => deallocuvm_own hown) fun _ => (wp_pure ..).2 hown
  rcases r with ⟨pd', sz⟩
  simp only [wp_bind, wp_setPgdir]
  refine wp_ite (fun _ => (wp_pure ..).2 h1) fun _ => ?_
  simp only [wp_bind, wp_setProc]
  refine switchuvm_wp ((wp_pure ..).2 ?_) trivial trivial
  exact h1.setState rfl h1.active rfl rfl

/-- `setmemorylimit` keeps the stacks apart. -/
theorem setmemorylimit_runs {pid limit : Int} (h : Runs p o K T c s) :
    wp (setmemorylimit pid limit) s (fun _ s' => Runs p o K T c s') fun _ => True := by
  unfold setmemorylimit
  refine wp_ite (fun _ => (wp_pure ..).2 h) fun _ => ?_
  simp only [wp_bind, wp_get]
  cases findProc _ with
  | none => exact (wp_pure ..).2 h
  | some q =>
      refine wp_ite (fun _ => (wp_pure ..).2 h) fun _ => ?_
      simp only [wp_bind, wp_setProc, wp_pure]
      exact h.setProc rfl Iff.rfl rfl rfl

/-! ### Threads -/

/-- `allocthread` keeps the stacks apart. -/
theorem allocthread_runs {Q : Option Tidx → Kernel → Prop} {E : Stop → Prop}
    (h : Runs p o K T c s) (hnone : ∀ s', Runs p o K T c s' → Q none s')
    (hsome : ∀ i k m, (s.pthread i).state = .UNUSED → Took s.kmem m k →
      Runs p o K T c ((s.setTh i (freshTh k)).setKmem m) →
      Q (some i) ((s.setTh i (freshTh k)).setKmem m)) : wp allocthread s Q E := by
  refine allocthread_took (fun _ => hnone s h) (fun i hi _ => hnone _ ?_) fun i k m hi hk => ?_
  · exact h.of_proc (h.toStacks.clearTh rfl hi) rfl (Kernel.setTh_ne (h.ne_free hi) _)
  · exact hsome i k m hi hk
      (h.of_proc (h.toStacks.newTh hk) rfl (Kernel.setTh_ne (h.ne_free hi) _))

/-- `pthread_exec` keeps the stacks apart, and where they are. -/
theorem pthread_exec_runs {th : Tidx} (h : Runs p o K T c s) :
    wp (pthread_exec p th) s (fun _ s' => Runs p o K T c s' ∧ ∀ j,
      (s'.pthread j).kstack = (s.pthread j).kstack) fun _ => True := by
  unfold pthread_exec
  simp only [wp_bind, wp_get]
  refine wp_ite (fun _ => (wp_pure ..).2 ⟨h, fun _ => rfl⟩) fun _ => ?_
  rw [wp_bind]
  refine getPgdir_wp (fun pd hpd => ?_) fun _ => trivial
  rw [wp_bind, wp_onKmem]
  refine wp.mono (h.work (g := Prod.fst) hpd fun F m hown => allocuvm_own hown) (fun r m h1 => ?_)
    fun _ he => he
  rcases r with ⟨pd1, sz⟩
  simp only [wp_bind, wp_setPgdir]
  refine wp_ite (fun _ => (wp_pure ..).2 ⟨h1, fun _ => rfl⟩) fun _ => ?_
  rw [wp_bind, wp_onKmem]
  refine wp.mono (h1.work (g := id) (show _ = some pd1 by simp) fun F m hown => clearpteu_own hown)
    (fun pd2 m2 h2 => ?_) fun _ he => he
  simp only [wp_bind, wp_setPgdir, wp_onKmem]
  refine copyout_wp (fun b => ?_) trivial
  refine wp_ite (fun _ => (wp_pure ..).2 ⟨h2, fun _ => rfl⟩) fun _ => ?_
  -- the last assignments are to sizes
  have hdone : ∀ s0 : Kernel, Runs p o K T c s0 →
      (∀ j, (s0.pthread j).kstack = (s.pthread j).kstack) →
      ∀ f : Proc → Proc, (∀ x, (f x).pgdir = x.pgdir ∧ (f x).state = x.state ∧
        (f x).kstack = x.kstack ∧ (f x).tf = x.tf) →
      Runs p o K T c ((s0.setProc p f).setTh th fun t => { t with th_sz := sz }) ∧
        ∀ j, (((s0.setProc p f).setTh th fun t => { t with th_sz := sz }).pthread j).kstack =
          (s.pthread j).kstack := by
    intro s0 h0 hk0 f hf
    rcases hf (s0.proc p) with ⟨hf1, hf2, hf3, hf4⟩
    have hact : Active (f (s0.proc p)) := by
      unfold Active
      rw [hf2]
      exact h0.active
    refine ⟨(h0.setState hf1 hact hf3 hf4).setField rfl rfl rfl rfl, fun j => ?_⟩
    by_cases hj : j = th
    · subst hj
      simpa using hk0 j
    · simpa [hj] using hk0 j
  have hclean : Runs p o K T c ((((s.setKmem m).setProc p fun x =>
    { x with pgdir := some pd1 }).setKmem
      m2).setProc p fun x => { x with pgdir := some pd2 }) := h2
  cases (s.proc p).freed_sz.pop with
  | some r =>
      simp only [wp_bind, wp_setProc, wp_setTh, wp_pure]
      exact hdone _ hclean (fun _ => rfl) _ fun x => ⟨rfl, rfl, rfl, rfl⟩
  | none =>
      simp only [wp_bind, wp_setProc, wp_setTh, wp_pure]
      exact hdone _ hclean (fun _ => rfl) _ fun x => ⟨rfl, rfl, rfl, rfl⟩

/-- `thread_create` keeps the stacks apart. -/
theorem thread_create_runs (h : Runs p o K T c s) :
    wp (thread_create p) s (fun _ s' => Runs p o K T c s') fun _ => True := by
  unfold thread_create pthread_fork
  simp only [wp_bind]
  refine allocthread_runs h (fun s1 h1 => (wp_pure ..).2 ((wp_pure ..).2 h1))
    fun n k m hn hk h1 => ?_
  simp only [wp_bind, wp_setProc, wp_get, wp_setTh, wp_pure]
  have hpos := hk.pos
  have hne : o ≠ n := h.ne_free hn
  refine wp.mono (pthread_exec_runs ((h1.setState rfl h1.active rfl rfl).setField rfl rfl rfl rfl))
    (fun ok s1 h2 => ?_) fun _ he => he
  rcases h2 with ⟨h2, hk2⟩
  have hkn : (s1.pthread n).kstack ≠ 0 := by
    rw [hk2]
    simp [freshTh]
    omega
  refine wp_ite (fun _ => ?_) fun _ => ?_
  · simp only [wp_bind, wp_setTh, wp_pure]
    exact h2.setTh rfl rfl rfl (fun hu => absurd rfl hu) fun he => absurd he hne
  · simp only [wp_bind, wp_get, wp_setTh, wp_setCont, wp_pure]
    have h3 := h2.setTh (i := n) (g := fun t => { t with
      pid := (s1.proc p).pid, state := .RUNNABLE, ptable_idx := p
      joiner_pthread := some (s1.proc p).thread_idx }) rfl rfl rfl (fun _ => .inr hkn)
      fun _ => by simp
    exact h3.alike (.setCont _ _ _) h3.active rfl rfl h3.slot_used

/-- The slots that a call marks have stacks. -/
def MarksSafely (s : Kernel) (f : Pthread → Prop) : Prop :=
  ∀ j, f (s.pthread j) → (s.pthread j).state = .UNUSED → (s.pthread j).kstack ≠ 0

/-- `kill` keeps the stacks apart where it marks no slot without a stack. -/
theorem kill_runs {pid : Int} (h : Runs p o K T c s)
    (hm : (∃ q, ((s.proc q).pid : Int) = pid) → MarksSafely s fun t => (t.pid : Int) = pid) :
    wp (kill pid) s (fun _ s' => Runs p o K T c s') fun _ => True := by
  refine kill_wp h fun q hq => ?_
  have h1 : Runs p o K T c (s.setProc q fun x => { x with
      killed := true, state := if x.state = .SLEEPING then .RUNNABLE else x.state }) := by
    refine h.setProc rfl ?_ rfl rfl
    unfold Active
    dsimp only
    -- a process that sleeps may run now; it had its stack before
    by_cases hs : (s.proc q).state = .SLEEPING
    · simp [hs]
    · simp [hs]
  refine h1.alike ?_ h1.active rfl rfl ?_
  swap
  · dsimp only
    split
    · dsimp only
      split <;> simp
    · exact h.slot_used
  refine ⟨fun j => ?_, fun j => ?_, fun j => ?_, fun j _ => ?_, fun _ h => ⟨h, rfl⟩, rfl⟩
  · dsimp only
    split <;> rfl
  · dsimp only
    split <;> rfl
  · dsimp only
    split <;> rfl
  · next hj =>
    dsimp only at hj
    -- a slot without a stack is not marked, by the condition
    by_cases hu : (s.pthread j).state = .UNUSED
    · refine .inr ?_
      split at hj
      · next hpid => exact hm ⟨q, hq⟩ j hpid hu
      · exact absurd hu hj
    · exact .inl hu

/-- `thread_exit` likewise, which kills the process when it is called by the main thread. -/
theorem thread_exit_runs {retval : Nat} (h : Runs p o K T c s)
    (hm : (s.proc p).thread_id = MAINTH → MarksSafely s fun t => t.pid = (s.proc p).pid) :
    wp (thread_exit p retval) s (fun _ s' => Runs p o K T c s') fun _ => True := by
  unfold thread_exit
  simp only [wp_bind, wp_get]
  refine wp_ite (fun hmain => ?_) fun _ => ?_
  · simp only [wp_bind, wakeup1_wp]
    refine wp.mono (kill_runs h fun _ => ?_) (fun v s1 h1 => ?_) fun _ he => he
    · intro j hj
      exact hm hmain j (Int.ofNat.inj hj)
    · exact sched_wp (fun _ => trivial) fun _ => (wp_pure ..).2 (h1.woken _)
  · simp only [wp_bind, wp_setTh, wp_setProc, wakeup1_wp]
    refine sched_wp (fun _ => trivial) fun _ => (wp_pure ..).2 (Runs.woken ?_ _)
    exact (h.setField rfl rfl rfl rfl).setState rfl ⟨by simp, by simp⟩ rfl rfl

/-- Freeing the stack of a zombie thread keeps the others apart. -/
theorem reapThread_runs {d : Tidx} (h : Runs p o K T c s) :
    wp (reapThread p d) s (fun _ s' => Runs p o K T c s') fun _ => True := by
  unfold reapThread
  simp only [wp_bind, wp_get]
  refine kfreeStack_wp (fun m hg hne => ?_) fun _ _ => trivial
  simp only [wp_onKmem, wp_setTh, wp_setProc]
  have h1 : Runs p o K T c ((s.setKmem m).setTh d fun t => { t with
      pid := 0, kstack := 0, state := .UNUSED, chan := .null, ptable_idx := 0, thread_id := 0
      joiner_pthread := none }) :=
    h.of_proc (h.toStacks.freeTh hg rfl rfl) rfl (Kernel.setTh_ne (h.ne_freed hne) _)
  have h2 := h1.setState (f := fun y => { y with
    freed_sz := y.freed_sz.push (baseOf (s.proc p) (s.pthread d).th_sz) }) rfl h1.active rfl rfl
  refine getPgdir_wp (fun pd hpd => ?_) fun _ => trivial
  refine wp.mono (h2.work (g := Prod.fst) hpd fun F m hown => deallocuvm_own hown)
    (fun r m2 h3 => ?_) fun _ he => he
  simp only [wp_setPgdir, wp_pure]
  exact h3.setField rfl rfl rfl rfl

/-- `thread_join` keeps the stacks apart. -/
theorem joinScan_runs {t w : Nat} (h : Runs p o K T c s) :
    wp (joinScan p t w) s (fun _ s' => Runs p o K T c s') fun _ => True := by
  unfold joinScan
  simp only [wp_bind, wp_get]
  cases findTh _ with
  | some d =>
      simp only [wp_bind]
      exact wp.mono (reapThread_runs h) (fun _ s1 h1 => (wp_pure ..).2 h1) fun _ he => he
  | none => exact wp_ite (fun _ => (wp_pure ..).2 h) fun _ => sleep_runs h

/-! ### Processes -/

/-- `fork` finds slots and a page for the new process. -/
def ForkStarts (s : Kernel) : Prop :=
  (∃ q, (s.proc q).state = .UNUSED) ∧ (∃ i, (s.pthread i).state = .UNUSED) ∧ s.kmem.free ≠ 0

/-- The siblings that `fork` copies have never been switched out. -/
def CopiesFresh (s : Kernel) (p : Pidx) : Prop :=
  ∀ j, (s.pthread j).pid = (s.proc p).pid → (s.pthread j).thread_id ≠ MAINTH →
    (s.pthread j).context.ebp = 0

/-- Copying a thread gives the copy a stack and a frame of its own. -/
theorem forkThread_runs {np : Pidx} {th : Tidx} (h : Runs p o K T c s) (hfresh : CopiesFresh s p) :
    wp (forkThread p np th) s (fun _ s' => Runs p o K T c s' ∧ CopiesFresh s' p) fun _ => True := by
  unfold forkThread
  simp only [wp_bind, wp_get]
  refine wp_ite (fun _ => (wp_pure ..).2 ⟨h, hfresh⟩) fun hsib => ?_
  have hth : (s.pthread th).context.ebp = 0 := by
    refine hfresh th ?_ ?_
    · by_contra hne
      exact hsib (.inl hne)
    · intro hmain
      exact hsib (.inr hmain)
  rw [wp_bind]
  refine allocthread_took (fun _ => ?_) (fun n hn _ => ?_) fun n k m hn hk => ?_
  · simp only [wp_bind, wp_setProc, wp_pure]
    refine ⟨h.setProc rfl Iff.rfl rfl rfl, fun j hj hm => hfresh j ?_ hm⟩
    by_cases hp : p = np
    · subst hp
      simpa using hj
    · simpa [hp] using hj
  · simp only [wp_bind, wp_setProc, wp_pure]
    have h1 : Runs p o K T c (s.setTh n fun t => { t with kstack := 0 }) :=
      h.of_proc (h.toStacks.clearTh rfl hn) rfl (Kernel.setTh_ne (h.ne_free hn) _)
    refine ⟨h1.setProc rfl Iff.rfl rfl rfl, fun j hj hm => ?_⟩
    have hpid : (s.pthread j).pid = (s.proc p).pid := by
      by_cases hjn : j = n <;> by_cases hp : p = np <;> simpa [hjn, hp] using hj
    by_cases hjn : j = n
    · subst hjn
      simpa using hfresh j hpid (by simpa using hm)
    · simpa [hjn] using hfresh j hpid (by simpa [hjn] using hm)
  · have h1 : Runs p o K T c ((s.setTh n (freshTh k)).setKmem m) :=
      h.of_proc (h.toStacks.newTh hk) rfl (Kernel.setTh_ne (h.ne_free hn) _)
    simp only [wp_bind, wp_get, wp_setTh, wp_setCont, wp_pure]
    -- the `ebp` that is copied is zero, and so is that of a new stack
    have hebp : (((s.setTh n (freshTh k)).setKmem m).pthread th).context.ebp = 0 := by
      by_cases hthn : th = n
      · simp [hthn, freshTh, contextAt]
      · simpa [hthn] using hth
    have hnew : (((s.setTh n (freshTh k)).setKmem m).pthread n).kstack ≠ 0 := by
      have := hk.pos
      simp [freshTh]
      omega
    have h2 := h1.setTh (i := n) (g := fun u => { u with
      th_sz := (((s.setTh n (freshTh k)).setKmem m).pthread th).th_sz
      pid := (((s.setTh n (freshTh k)).setKmem m).proc np).pid
      state := (((s.setTh n (freshTh k)).setKmem m).pthread th).state
      chan := (((s.setTh n (freshTh k)).setKmem m).pthread th).chan
      context := { u.context with
        ebp := (((s.setTh n (freshTh k)).setKmem m).pthread th).context.ebp }
      ptable_idx := np, thread_id := (((s.setTh n (freshTh k)).setKmem m).pthread th).thread_id
      joiner_pthread := some (((s.setTh n (freshTh k)).setKmem m).proc np).main_thread_idx
      retval := (((s.setTh n (freshTh k)).setKmem m).pthread th).retval }) rfl rfl
      (by dsimp only; rw [hebp]; simp [freshTh, contextAt]) (fun _ => .inr hnew)
      fun he => absurd he (h.ne_free hn)
    refine ⟨h2.alike (.setCont _ _ _) h2.active rfl rfl h2.slot_used, ?_⟩
    · intro j hj hm
      by_cases hjn : j = n
      · subst hjn
        simpa using hebp
      · simpa [hjn] using hfresh j (by simpa [hjn] using hj) (by simpa [hjn] using hm)

/-- Copying the threads keeps the stacks apart. By induction on the table. -/
theorem forkThreads_runs {np : Pidx} {ths : List Tidx} (h : Runs p o K T c s)
    (hfresh : CopiesFresh s p) :
    wp (forkThreads p np ths) s (fun _ s' => Runs p o K T c s') fun _ => True := by
  induction ths generalizing s with
  | nil => exact (wp_pure ..).2 h
  | cons th ths ih =>
      unfold forkThreads
      simp only [wp_bind]
      refine wp.mono (forkThread_runs h hfresh) (fun ok s1 h1 => ?_) fun _ he => he
      exact wp_ite (fun _ => (wp_pure ..).2 h1.1) fun _ => ih h1.1 h1.2

/-- A new process with its first thread. -/
theorem Stacks.newProc {np : Pidx} {th : Tidx} {k : Nat} (h : Stacks c s)
    (hk : Took s.kmem m k) : Stacks c (s.newProc np th k m) := by
  refine (h.newTh hk).alike (?_ : Alike ((s.setTh th (freshTh k)).setKmem m) (s.newProc np th k m))
  have hpid : Alike ((s.setTh th (freshTh k)).setKmem m)
      (((s.setTh th (freshTh k)).setKmem m).setTh th fun t => { t with pid := s.nextpid }) :=
    .setTh rfl rfl rfl .inl
  refine hpid.trans ((Alike.setProc (q := np) (f := freshProc s.nextpid k th) rfl ?_).trans ?_)
  · exact fun hact => absurd rfl hact.2
  · have heq : s.newProc np th k m = { ((((s.setTh th (freshTh k)).setKmem m).setTh th
        fun t => { t with pid := s.nextpid }).setProc np (freshProc s.nextpid k th)) with
          nextpid := s.nextpid + 1 } := by
      simp [Kernel.newProc, Kernel.setProc, Kernel.setTh, Kernel.setKmem]
    rw [heq]
    exact ⟨fun _ => rfl, fun _ => rfl, fun _ => rfl, fun _ => .inl, fun _ hq => ⟨hq, rfl⟩, rfl⟩

/-- `fork` keeps the stacks apart where the copies are fresh. -/
theorem fork_runs (h : Runs p o K T none s)
    (hok : ForkStarts s → copyPages (s.proc p).sz < s.kmem.free ∧
      ((s.proc p).thread_id = MAINTH → CopiesFresh s p)) :
    wp (fork p) s (fun _ s' => Runs p o K T none s') fun _ => True := by
  unfold fork
  rw [wp_bind]
  refine allocproc_took (fun _ => (wp_pure ..).2 h) (fun th hth _ => (wp_pure ..).2 ?_)
    fun np th k m _ hnp hth hk => ?_
  · exact h.of_proc (h.toStacks.clearTh rfl hth) rfl (Kernel.setTh_ne (h.ne_free hth) _)
  obtain ⟨hroom, hcopies⟩ := hok ⟨⟨np, hnp⟩, ⟨th, hth⟩, by have := hk.free; omega⟩
  have hne : p ≠ np := fun heq => h.active.1 (heq ▸ hnp)
  have hot : o ≠ th := h.ne_free hth
  have hproc : (s.newProc np th k m).proc p = s.proc p := by
    simp [Kernel.newProc, Kernel.setProc, Kernel.setTh, Kernel.setKmem, hne]
  have h1 : Runs p o K T none (s.newProc np th k m) :=
    h.of_eq (h.toStacks.newProc hk) hproc (by simp [Kernel.newProc, hot])
  have hnew : (s.newProc np th k m).proc np = freshProc s.nextpid k th (s.proc np) := by
    simp [Kernel.newProc, Kernel.setProc, Kernel.setTh, Kernel.setKmem]
  have hslot : ∀ j, (s.newProc np th k m).pthread j =
      if j = th then { freshTh k (s.pthread th) with pid := s.nextpid } else s.pthread j := by
    intro j
    by_cases hj : j = th
    · subst hj
      simp [Kernel.newProc, Kernel.setProc, Kernel.setTh, Kernel.setKmem]
    · simp [Kernel.newProc, Kernel.setProc, Kernel.setTh, Kernel.setKmem, hj]
  generalize hs1 : s.newProc np th k m = s1 at *
  have hkm : s1.kmem = m := by rw [← hs1]; rfl
  dsimp only
  simp only [wp_bind, wp_get]
  refine getPgdir_wp (fun pd hpd => ?_) fun _ => trivial
  simp only [wp_onKmem]
  have hfits : copyPages (s1.proc p).sz ≤ s1.kmem.free := by
    have := hk.free
    rw [hproc, hkm]
    omega
  refine wp.mono (wp.and (copyuvm_own h1.pages.all) copyuvm_count) ?_ fun _ he => he
  rintro r m2 ⟨hmade, -, hr⟩
  cases r with
  | none => exact absurd rfl (hr hfits)
  | some d =>
  have hidx : (s1.proc np).thread_idx = th := by
    rw [hnew]
    rfl
  simp only [wp_bind, wp_setProc, wp_setCont, hidx]
  -- the new process takes over the copy
  let f : Proc → Proc := forkedProc p d (s1.proc p)
  change wp _ (((s1.setKmem m2).setProc np f).setCont th .user) _ _
  have h2 : Runs p o K T none (((s1.setKmem m2).setProc np f).setCont th .user) := by
    have hst : Stacks none ((s1.setKmem m2).setProc np f) :=
      (h1.toStacks.made hmade).commit rfl (.inl rfl)
    have hp : (((s1.setKmem m2).setProc np f).setCont th .user).proc p = s1.proc p := by
      simp [hne]
    exact h1.of_eq (hst.alike (.setCont _ _ _)) hp rfl
  -- its first thread has the stack it was made with
  have hdress : ∀ s3 : Kernel, Runs p o K T none s3 → s3.pthread = s1.pthread →
      (s3.proc np).kstack = (s1.proc np).kstack → (s3.proc np).tf = (s1.proc np).tf →
      (s3.proc np).context = (s1.proc np).context →
      Runs p o K T none (s3.setTh th (undress np (s3.proc np))) := by
    intro s3 h3 hth3 hk3 htf3 hctx3
    refine h3.setTh ?_ ?_ ?_ (fun _ => .inl ?_) fun he => absurd he hot
    · rw [undress, hk3, hnew, hth3, hslot th, if_pos rfl]
      rfl
    · rw [undress, htf3, hnew, hth3, hslot th, if_pos rfl]
      rfl
    · rw [undress, hctx3, hnew, hth3, hslot th, if_pos rfl]
      rfl
    · rw [hth3, hslot th, if_pos rfl]
      simp [freshTh]
  refine wp_ite (fun _ => ?_) fun hmain => ?_
  · simp only [wp_bind, wp_setProc, mvProcToThread_wp, clearProc_wp, wp_pure]
    have h3 := h2.setProc (q := np) (f := fun y =>
      { y with
        thread_assign := 1, thread_id := MAINTH
        joiner_pthread := some (s1.proc p).thread_idx }) rfl Iff.rfl rfl rfl
    have h4 := hdress _ h3 rfl (by simp [f, forkedProc]) (by simp [f, forkedProc])
      (by simp [f, forkedProc])
    refine h4.setProc rfl ?_ rfl rfl
    simp [cleared, Active, f, forkedProc]
  · simp only [wp_bind, mvProcToThread_wp]
    have h3 := hdress _ h2 rfl (by simp [f, forkedProc]) (by simp [f, forkedProc])
      (by simp [f, forkedProc])
    refine wp.mono (forkThreads_runs h3 ?_) (fun ok s4 h4 => ?_) fun _ he => he
    · have hid : (s.proc p).thread_id = MAINTH := by
        rw [hproc] at hmain
        exact not_not.1 hmain
      intro j hj hm
      by_cases hjt : j = th
      · subst hjt
        simp [undress, f, forkedProc, hnew, freshProc, contextAt]
      · have hold : ((((s1.setKmem m2).setProc np f).setCont th .user).setTh th
            (undress np ((((s1.setKmem m2).setProc np f).setCont th .user).proc np))).pthread j =
            s.pthread j := by
          simp [hjt, hslot]
        rw [hold] at hj hm ⊢
        refine hcopies hid j (hj.trans ?_) hm
        simp [hne, hproc]
    · exact wp_ite (fun _ => (wp_pure ..).2 h4) fun _ => (wp_pure ..).2 h4

/-- A wakeup before the marking changes nothing of it. -/
theorem MarksSafely.woken {pid : Nat} (h : MarksSafely s fun t => t.pid = pid) (ch : Chan) :
    MarksSafely (s.woken ch) fun t => t.pid = pid := by
  intro j hj hu
  have hkept := wake_kept ch (s.pthread j)
  have hk := h j (hkept.pid.symm.trans hj) (wake_unused hu)
  exact fun h0 => hk (hkept.kstack.symm.trans h0)

/-- `exit` marks the threads of the process. -/
theorem Runs.exited {ch : Option Tidx} (h : Runs p o K T c s)
    (hm : MarksSafely s fun t => t.pid = (s.proc p).pid) : Runs p o K T c (s.exited p ch) := by
  have hadopt : ∀ x, (adopt p s.initproc ch x).pgdir = x.pgdir ∧
      (adopt p s.initproc ch x).state = x.state ∧ (adopt p s.initproc ch x).pid = x.pid ∧
      (adopt p s.initproc ch x).kstack = x.kstack ∧ (adopt p s.initproc ch x).tf = x.tf := by
    intro x
    unfold adopt
    split <;> exact ⟨rfl, rfl, rfl, rfl, rfl⟩
  let s1 : Kernel := { s with proc := fun q => adopt p s.initproc ch (s.proc q) }
  have h1 : Runs p o K T c s1 := by
    rcases hadopt (s.proc p) with ⟨-, hst, -, hk, htf⟩
    refine h.alike ⟨fun _ => rfl, fun _ => rfl, fun _ => rfl, fun _ => .inl, fun q hq => ?_, rfl⟩
      ?_ hk htf h.slot_used
    -- handing the children to `init` moves no stack
    · rcases hadopt (s.proc q) with ⟨hpd, hst', -⟩
      unfold Active at hq ⊢
      rw [show (s1.proc q).state = (s.proc q).state from hst'] at hq
      exact ⟨hq, hpd⟩
    · unfold Active
      rw [show (s1.proc p).state = (s.proc p).state from hst]
      exact h.active
  have h2 : Runs p o K T c (s1.setProc p fun x => { x with state := .ZOMBIE }) :=
    h1.setState rfl ⟨by simp, by simp⟩ rfl rfl
  have hpid : ((s1.setProc p fun x => { x with state := .ZOMBIE }).proc p).pid =
    (s.proc p).pid := by
    rw [Kernel.setProc_self]
    exact (hadopt (s.proc p)).2.2.1
  refine h2.alike ⟨fun j => ?_, fun j => ?_, fun j => ?_, fun j hj => ?_, fun _ h => ⟨h, rfl⟩, rfl⟩
    h2.active rfl rfl ?_
  rotate_right
  · simp only [Kernel.exited]
    split
    · simp
    · exact h.slot_used
  · simp only [Kernel.exited]
    split <;> rfl
  · simp only [Kernel.exited]
    split <;> rfl
  · simp only [Kernel.exited]
    split <;> rfl
  -- the marking spares the slots that are not in use, by the condition
  · by_cases hu : (s.pthread j).state = .UNUSED
    · refine .inr (hm j ?_ hu)
      by_contra hne
      refine hj ?_
      simp only [Kernel.exited]
      rw [if_neg fun heq => hne (heq.trans hpid)]
      exact hu
    · exact .inl hu

theorem exit_runs (h : Runs p o K T c s) (hm : MarksSafely s fun t => t.pid = (s.proc p).pid) :
    wp (exit p) s (fun _ s' => Runs p o K T c s') fun _ => True := by
  refine exit_wp fun ch c' => ⟨(h.woken ch).exited (hm.woken ch), fun c2 => ?_⟩
  exact ((h.woken ch).woken c2).exited ((hm.woken ch).woken c2)

/-- Deleting a sibling keeps the stacks apart. -/
theorem deleteThread_runs {th : Tidx} (h : Runs p o K T c s) :
    wp (deleteThread p th) s (fun _ s' => Runs p o K T c s') fun _ => True := by
  unfold deleteThread
  simp only [wp_bind, wp_get]
  refine kfreeStack_wp (fun m hg hne => (wp_setTh ..).2 ?_) fun _ _ => trivial
  exact h.of_proc (h.toStacks.freeTh hg rfl rfl) rfl (Kernel.setTh_ne (h.ne_freed hne) _)

/-- Clearing the slots of a child keeps the stacks apart. -/
theorem reapThreads_runs {pid : Nat} {ths : List Tidx} (h : Runs p o K T c s) :
    wp (reapThreads p pid ths) s (fun _ s' => Runs p o K T c s') fun _ => True := by
  induction ths generalizing s with
  | nil => exact (wp_pure ..).2 h
  | cons th ths ih =>
      unfold reapThreads
      simp only [wp_bind, wp_get]
      refine wp_ite (fun _ => ?_) fun _ => ?_
      · rw [wp_bind]
        exact wp.mono (deleteThread_runs h) (fun _ s1 h1 => ih h1) fun _ he => he
      · exact ih h

/-- Freeing a child keeps the stacks apart. -/
theorem reapProc_runs {q : Pidx} (h : Runs p o K T c s) (hne : p ≠ q)
    (hz : (s.proc q).state = .ZOMBIE) :
    wp (reapProc p q) s (fun _ s' => Runs p o K T c s') fun _ => True := by
  unfold reapProc
  simp only [wp_bind, wp_get]
  refine wp.mono (wp.and (reapThreads_runs h) reapThreads_same) ?_ fun _ he => he
  rintro _ s1 ⟨h1, hproc⟩
  cases hpd : (s.proc q).pgdir with
  | none => exact wp_halt.2 trivial
  | some pd =>
      dsimp only
      have hact : Active (s1.proc q) := by
        rw [hproc]
        unfold Active
        rw [hz]
        exact ⟨by simp, by simp⟩
      have hown := h1.pages.dir hact (hproc ▸ hpd)
      rw [wp_bind, wp_onKmem]
      refine wp.mono (freevm_own hown) (fun _ m hm => ?_) fun _ he => he
      rw [wp_setProc]
      have hst := h1.pages.reapDir (f := fun x =>
        { x with
          parent_pthread := none, parent_proc := none, joiner_pthread := none, memlimit := 0
          thread_assign := 0, stacksz := 0, pid := 0, thread_idx := 0, sz := 0, state := .UNUSED
          chan := .null, killed := false, thread_id := 0, freed_sz := noFreed }) hm
        fun hact => hact.1 rfl
      exact h1.of_eq ⟨hst, h1.seat⟩ (Kernel.setProc_ne hne _) rfl

/-- `wait` keeps the stacks apart. -/
theorem waitScan_runs (h : Runs p o K T c s) (hz : (s.proc p).state ≠ .ZOMBIE) :
    wp (waitScan p) s (fun _ s' => Runs p o K T c s') fun _ => True := by
  unfold waitScan
  simp only [wp_bind, wp_get]
  cases hf : findProc _ with
  | some q =>
      have hq := findProc_some hf
      simp only [decide_eq_true_eq] at hq
      simp only [wp_bind]
      refine wp.mono (reapProc_runs h ?_ hq.2) (fun _ s1 h1 => (wp_pure ..).2 h1) fun _ he => he
      rintro rfl
      exact hz hq.2
  | none => exact wp_ite (fun _ => (wp_pure ..).2 h) fun _ => sleep_runs h

/-! ### exec -/

/-- Deleting the siblings keeps the stacks apart. By induction on the table. -/
theorem deleteOthers_runs {ths : List Tidx} (h : Runs p o K T c s) :
    wp (deleteOthers p ths) s (fun _ s' => Runs p o K T c s') fun _ => True := by
  induction ths generalizing s with
  | nil => exact (wp_pure ..).2 h
  | cons th ths ih =>
      unfold deleteOthers deleteOther
      simp only [wp_bind, wp_get]
      refine wp_ite (fun _ => ?_) fun _ => (wp_pure ..).2 (ih h)
      simp only [wp_bind, wp_modify]
      refine wp.mono (deleteThread_runs ?_) (fun _ s1 h1 => ih h1) fun _ he => he
      have hkeep : ∀ x, (reparent th (s.proc p).thread_idx x).pgdir = x.pgdir ∧
          (reparent th (s.proc p).thread_idx x).state = x.state ∧
          (reparent th (s.proc p).thread_idx x).kstack = x.kstack ∧
          (reparent th (s.proc p).thread_idx x).tf = x.tf := by
        intro x
        unfold reparent
        split <;> exact ⟨rfl, rfl, rfl, rfl⟩
      rcases hkeep (s.proc p) with ⟨-, hst, hk, htf⟩
      refine h.alike ⟨fun _ => rfl, fun _ => rfl, fun _ => rfl, fun _ => .inl,
        fun q hq => ?_, rfl⟩ ?_ hk htf h.slot_used
      · rcases hkeep (s.proc q) with ⟨hpd, hst', -⟩
        unfold Active at hq ⊢
        dsimp only at hq
        rw [hst'] at hq
        exact ⟨hq, hpd⟩
      · unfold Active
        dsimp only
        rw [hst]
        exact h.active

/-- `exec` keeps the stacks apart. -/
theorem execWith_runs {elf : Option Elf} {argv : List Nat} {stacksize : Nat}
    (h : Runs p o K T none s) :
    wp (execWith p elf argv stacksize) s (fun _ s' => Runs p o K T none s') fun _ => True := by
  unfold execWith
  simp only [wp_bind, wp_onKmem]
  refine wp.mono (newImage_own h.pages.all) (fun r m hmade => ?_) fun _ he => he
  have hst := h.toStacks.made hmade
  have h1 : Runs p o K T (r.map Prod.fst) (s.setKmem m) :=
    h.of_eq hst rfl rfl
  cases r with
  | none => exact (wp_pure ..).2 h1
  | some r =>
      rcases r with ⟨pd, sz⟩
      unfold deleteThreads
      simp only [wp_bind]
      refine wp.mono (deleteOthers_runs h1) (fun _ s2 h2 => ?_) fun _ he => he
      simp only [wp_setProc]
      have h3 := h2.setState (f := fun x => { x with joiner_pthread := some x.thread_idx })
        rfl h2.active rfl rfl
      generalize s2.setProc p (fun x => { x with joiner_pthread := some x.thread_idx }) = s3 at *
      refine getPgdir_wp (fun old hold => ?_) fun _ => trivial
      -- the old directory is in the hands of `exec` until it has been freed
      have h4 := h3.toStacks.commit (q := p) (f := fun x =>
        { x with
          freed_sz := noFreed, pgdir := some pd, sz := sz, th_sz := sz, memlimit := 0
          thread_assign := 1, stacksz := stacksize, thread_id := MAINTH
          main_thread_idx := x.thread_idx }) rfl (.inr ⟨h3.active, hold.symm⟩)
      refine switchuvm_wp ?_ trivial trivial
      simp only [wp_onKmem]
      refine wp.mono (freevm_own h4.pages.work) (fun _ m2 h5 => (wp_pure ..).2 ?_) fun _ he => he
      refine ⟨h4.discard h5, ?_, ?_, ?_, h3.slot_used, h3.slot_kstack⟩ <;>
        rw [Kernel.setKmem_proc, Kernel.setProc_self]
      · exact h3.active
      · exact h3.own_kstack
      · exact h3.own_tf

/-! ## Steps -/

/-- What a call must not do for the stacks to stay apart: `fork` must not run out
of pages in the middle of a copy, a main thread must not `fork` with siblings that
have run, and no slot may be marked that is not in use and has no stack. Where the
caller has become the main thread by an `exec` of this slice, its slot does not say so
yet, and `fork` would copy it like a sibling's, from the stack that is in use. -/
def KeepsStacks (p : Pidx) (s : Kernel) : Call → Prop
  | .fork => ForkStarts s → copyPages (s.proc p).sz < s.kmem.free ∧
      ((s.proc p).thread_id = MAINTH →
        (s.pthread (s.proc p).thread_idx).thread_id = MAINTH ∧ CopiesFresh s p)
  | .kill pid => (∃ q, ((s.proc q).pid : Int) = pid) → MarksSafely s fun t => (t.pid : Int) = pid
  | .exit => MarksSafely s fun t => t.pid = (s.proc p).pid
  | .thread_exit _ =>
      (s.proc p).thread_id = MAINTH → MarksSafely s fun t => t.pid = (s.proc p).pid
  | _ => True

/-- Every call keeps the stacks apart under its condition, one case each. -/
theorem call_runs {k : Cont} {b : Call} (h : Runs p i K T none s) (hw : Wears p i s)
    (hok : KeepsStacks p s b) :
    wp (call p k b) s (fun _ s' => Runs p i K T none s') fun _ => True := by
  have hz : (s.proc p).state ≠ .ZOMBIE := by
    rw [hw.running]
    decide
  have hret : ∀ {x : M Int}, wp x s (fun _ s' => Runs p i K T none s') (fun _ => True) →
      wp (do return .ret (← x) : M Outcome) s (fun _ s' => Runs p i K T none s')
        fun _ => True := by
    intro x hx
    rw [wp_bind]
    exact wp.mono hx (fun _ _ h1 => (wp_pure ..).2 h1) fun _ he => he
  -- one lemma for each call, above
  cases b with
  | yield => exact (wp_pure ..).2 h
  | sleep ch => exact sleep_runs h
  | wakeup ch =>
      simp only [call, wp_bind, wakeup1_wp]
      exact (wp_pure ..).2 (h.woken ch)
  | inside w z => exact inside_runs h
  | thread_create =>
      unfold call
      rw [wp_bind]
      refine wp.mono (thread_create_runs h) (fun r s1 h1 => ?_) fun _ he => he
      cases r with
      | none => exact (wp_pure ..).2 h1
      | some n => exact (wp_pure ..).2 h1
  | thread_exit retval => exact thread_exit_runs h hok
  | thread_join t w =>
      unfold call thread_join
      exact wp_ite (fun _ => (wp_pure ..).2 h) fun _ => joinScan_runs h
  | sbrk n => exact hret (growproc_runs h)
  | fork => exact hret (fork_runs h fun hs => ⟨(hok hs).1, fun hm => ((hok hs).2 hm).2⟩)
  | exit => exact exit_runs h hok
  | wait => exact waitScan_runs h hz
  | exec elf argv => exact hret (execWith_runs h)
  | exec2 elf argv n =>
      refine hret ?_
      unfold exec2
      exact wp_ite (fun _ => (wp_pure ..).2 h) fun _ => execWith_runs h
  | kill pid => exact hret (kill_runs h hok)
  | setmemorylimit pid limit => exact hret (setmemorylimit_runs h)
  | resume w =>
      unfold call resume
      rw [wp_bind, wp_setProc]
      have h1 := h.setState (f := fun x => { x with chan := .null }) rfl h.active rfl rfl
      cases k with
      | user => exact (wp_pure ..).2 h1
      | sleep => exact (wp_pure ..).2 h1
      | join t => exact joinScan_runs h1
      | wait =>
          refine waitScan_runs h1 ?_
          simpa using hz

/-- Every call of a slice keeps the stacks apart. -/
def SliceKeepsStacks (s : Kernel) (a : Slice) : Prop :=
  Each (fun s _ c => KeepsStacks a.p s c) a.p (s.dressed a.p a.i) (s.cont a.i) a.c a.rest

/-- So do the calls of one time slice. By induction on them. -/
theorem calls_runs {k : Cont} {b : Call} {ds : List Call} (h : Runs p i K T none s)
    (hw : Wears p i s) (hok : Each (fun s _ c => KeepsStacks p s c) p s k b ds)
    (hfit : b.fits k = true) (hrest : ∀ d ∈ ds, d.fits .user = true) :
    wp (calls p k b ds) s (fun _ s' => Runs p i K T none s') fun _ => True := by
  refine calls_wp (fun s => Runs p i K T none s ∧ Wears p i s)
    (fun _ _ s' => Runs p i K T none s') ?_ ⟨h, hw⟩ hok hfit hrest
  rintro s1 k1 c1 ⟨h1, hw1⟩ hok1 -
  refine wp.mono (wp.and (call_runs h1 hw1 hok1) (call_effect hw1)) ?_ fun _ he => he
  rintro r s2 ⟨h2, he⟩
  refine ⟨h2, fun v hv => ⟨h2, ?_⟩⟩
  subst hv
  exact hw1.ret he

/-- The thread goes back into its slot with the stack that it was dressed with. -/
theorem Runs.left {a : Label} {k : Cont} {s1 : Kernel} {r : Outcome}
    (h : Runs a.p a.i (s.pthread a.i).kstack (s.pthread a.i).tf none s1)
    (hseat : Seat (s.pthread a.i)) : Stacks none (a.left s k s1 r) := by
  have hkstack : ((a.left s k s1 r).pthread a.i).kstack = (s.pthread a.i).kstack := by
    rw [← h.own_kstack]
    cases r <;> simp [Label.left, Outcome.parked, Kernel.undressed, undress]
  have htf : ((a.left s k s1 r).pthread a.i).tf = (s.pthread a.i).tf := by
    rw [← h.own_tf]
    cases r <;> simp [Label.left, Outcome.parked, Kernel.undressed, undress]
  have hctx : ((a.left s k s1 r).pthread a.i).context = a.saved k (s.pthread a.i) r := by
    cases r <;> simp [Label.left, Outcome.parked, Kernel.undressed, undress]
  have hpd : ((a.left s k s1 r).proc a.p).pgdir = (s1.proc a.p).pgdir := by
    cases r <;> simp [Label.left, Outcome.parked, Kernel.undressed, cleared]
  have hkmem : (a.left s k s1 r).kmem = s1.kmem := by
    cases r <;> rfl
  constructor
  · refine h.pages.mono hkmem ?_
    intro o b ho
    cases o with
    | slot j =>
        by_cases hj : j = a.i
        · subst hj
          exact ⟨trivial, (h.slot_kstack.trans hkstack.symm).trans ho.2.1, ho.2.2⟩
        · rwa [Kernel.holds, (after_th hj).1] at ho
    | wild => exact ho
    | dir q e =>
        by_cases hq : q = a.p
        · subst hq
          rcases ho with ⟨-, pd, hpd', he⟩
          exact ⟨h.active, pd, hpd.symm.trans hpd', he⟩
        · rwa [Kernel.holds, after_proc hq] at ho
    | code e => exact ho
  · intro j hj
    by_cases hji : j = a.i
    · subst hji
      -- what is saved lies in the page that the thread was on
      have hpage : stackPage k (s.pthread a.i) r = (s.pthread a.i).kstack / PGSIZE :=
        stackPage_own hseat.ebp _ _
      have hdiv : ∀ n : Nat, ((s.pthread a.i).kstack / PGSIZE * PGSIZE + n % PGSIZE) / PGSIZE =
          (s.pthread a.i).kstack / PGSIZE := by
        intro n
        unfold PGSIZE
        omega
      refine ⟨?_, ?_, ?_, ?_, ?_⟩
      · rw [hkstack]
        exact hseat.kstack
      · rw [hkstack]
        exact hseat.aligned
      · rw [hkstack, htf]
        exact hseat.tf
      · rw [hkstack, hctx, Label.saved, hpage]
        exact hdiv a.sp
      · rw [hkstack, hctx, Label.saved, hpage]
        exact .inr (hdiv a.bp)
    · rw [(after_th hji).1] at hj ⊢
      exact h.seat j hj

/-- The thread is dressed, makes its calls, and goes back into its slot. -/
theorem step_stacks : ∀ (s : Kernel) (a : Slice) (s' : Kernel), Stacks none s →
    SliceKeepsStacks s a → sliceNext s a = some s' → Stacks none s' := by
  intro s a s' h hok hs
  rcases (sliceNext_some hs).1 with ⟨⟨hp, hfit⟩, hrest⟩
  have hu : (s.pthread a.i).state ≠ .UNUSED := by
    rw [hp.2.2]
    decide
  have hseat := h.seat a.i (.inl hu)
  have hin : Runs a.p a.i (s.pthread a.i).kstack (s.pthread a.i).tf none (s.dressed a.p a.i) := by
    refine ⟨h.alike (.setProc (by simp) fun _ => ?_), ?_, by simp [Kernel.dressed],
      by simp [Kernel.dressed], hu, rfl⟩
    · unfold Active
      rw [hp.1]
      exact ⟨by simp, by simp⟩
    · simp [Kernel.dressed, Active]
  obtain ⟨k, r, s1, hrun, rfl⟩ := sliceNext_wp (Q := fun _ _ s1 => Runs a.p a.i _ _ none s1)
    (calls_runs hin hp.wears hok hfit hrest) hs
  exact hrun.left hseat

/-! ## The first process -/

/-- At boot there is no stack. -/
theorem boot_stacks (hm : Booted m) (hk : KERNLINK ≤ m.kend) : Stacks none (boot m) where
  pages := boot_pages hm (le_trans (Nat.le_add_right _ _) hk) fun _ _ => not_false
  seat := by
    intro i hi
    rcases hi with hi | hi
    · exact absurd rfl hi
    · exact absurd rfl hi

/-- The first process has one. -/
theorem userinit_stacks (hm : Booted m) (hk : KERNLINK ≤ m.kend) :
    wp userinit (boot m) (fun _ s => Stacks none s) fun _ => True := by
  have h0 := boot_stacks hm hk
  unfold userinit
  rw [wp_bind]
  refine allocproc_took (fun _ => (wp_throw ..).2 trivial) (fun _ _ _ => (wp_throw ..).2 trivial)
    fun p th k m1 _ _ _ hk => ?_
  have h1 : Stacks none ((boot m).newProc p th k m1) := h0.newProc hk
  have hnew : ((boot m).newProc p th k m1).proc p = freshProc 1 k th Proc.zero := by
    simp [Kernel.newProc, boot]
  have hslot : ((boot m).newProc p th k m1).pthread th =
      { freshTh k Pthread.zero with pid := 1 } := by
    simp [Kernel.newProc, boot]
  generalize (boot m).newProc p th k m1 = s1 at *
  have h2 : Stacks none { s1 with initproc := p } :=
    h1.alike ⟨fun _ => rfl, fun _ => rfl, fun _ => rfl, fun _ => .inl, fun _ hq => ⟨hq, rfl⟩, rfl⟩
  simp only [wp_bind, wp_modify, wp_onKmem]
  refine wp.mono (setupkvm_own h2.pages.all) (fun r m2 hm2 => ?_) fun _ he => he
  cases r with
  | none => exact wp_halt.2 trivial
  | some pd =>
  simp only [wp_bind, wp_onKmem]
  refine wp.mono (inituvm_own hm2) (fun pd' m3 hm3 => ?_) fun _ he => he
  have hidx : (s1.proc p).thread_idx = th := by
    rw [hnew]
    rfl
  simp only [wp_setPgdir, wp_get, wp_setProc, mvProcToThread_wp, clearProc_wp,
    Kernel.setKmem_setKmem, Kernel.setProc_self, Kernel.setKmem_proc, hidx]
  -- the process gets the directory and starts
  rw [Kernel.setProc_setProc]
  have h3 : Stacks none ((Kernel.setKmem { s1 with initproc := p } m3).setProc p
      (firstProc p th pd')) := (h2.made (r := some pd') hm3).commit rfl (.inl rfl)
  refine (h3.alike (.setTh (i := th) (g := undress p _) ?_ ?_ ?_ fun _ => .inr ?_)).alike
    (.setProc rfl ?_)
  · simp [undress, hnew, hslot, freshProc, freshTh]
  · simp [undress, hnew, hslot, freshProc, freshTh]
  · simp [undress, hnew, hslot, freshProc, freshTh]
  · have := hk.pos
    simp [hslot, freshTh]
    omega
  · intro _
    simp [Active, firstProc]

/-! ## Every run -/

/-- Kernel stacks are private: no two slots in use have the same page, what is
saved for a thread lies in its own page or is zero, and a thread that is resumed
goes on in its own stack. -/
structure Private (s : Kernel) : Prop where
  apart : ∀ i j, (s.pthread i).state ≠ .UNUSED → (s.pthread j).state ≠ .UNUSED → i ≠ j →
    (s.pthread i).kstack / PGSIZE ≠ (s.pthread j).kstack / PGSIZE
  own : ∀ i, (s.pthread i).state ≠ .UNUSED →
    ∀ v ∈ [(s.pthread i).tf, (s.pthread i).context.ptr, (s.pthread i).context.ebp],
      v = 0 ∨ v / PGSIZE = (s.pthread i).kstack / PGSIZE
  resumes : ∀ i, (s.pthread i).state ≠ .UNUSED →
    ∀ k r, stackPage k (s.pthread i) r = (s.pthread i).kstack / PGSIZE

/-- Stacks that are apart are private. -/
theorem Stacks.isPrivate (h : Stacks c s) : Private s where
  apart := by
    intro i j hi hj hij heq
    have hsi := h.seat i (.inl hi)
    have hsj := h.seat j (.inl hj)
    have hk : (s.pthread i).kstack = (s.pthread j).kstack := by
      have h1 := hsi.aligned
      have h2 := hsj.aligned
      unfold PGSIZE at h1 h2 heq
      omega
    have howner := h.pages.ledger.apart (.slot i) (.slot j) _ ⟨trivial, rfl, hsi.kstack⟩
      ⟨trivial, hk.symm, hsi.kstack⟩
    cases howner
    exact hij rfl
  own := by
    intro i hi v hv
    have hs := h.seat i (.inl hi)
    simp only [List.mem_cons, List.not_mem_nil, or_false] at hv
    rcases hv with rfl | rfl | rfl
    · exact .inr hs.tf
    · exact .inr hs.context
    · exact hs.ebp
  resumes := fun i hi k r => stackPage_own (h.seat i (.inl hi)).ebp k r

/-- In every run of slices that keep the stacks apart, they are private. -/
theorem stacks_private (hr : ReachOk Loaded sliceNext SliceKeepsStacks s) : Private s := by
  have hinv : Stacks none s := by
    refine hr.invariant (Stacks none) ?_ fun s0 a s1 h hok hs => step_stacks s0 a s1 h hok hs
    rintro s0 ⟨m, hm, hk, hrun⟩
    have hst := wp.of_ok (userinit_stacks hm hk) hrun
    exact hst
  exact hinv.isPrivate

instance (s : Kernel) (f : Pthread → Prop) [DecidablePred f] : Decidable (MarksSafely s f) :=
  inferInstanceAs (Decidable (∀ _, _))

instance (s : Kernel) (p : Pidx) : Decidable (CopiesFresh s p) :=
  inferInstanceAs (Decidable (∀ _, _))

instance (p : Pidx) (s : Kernel) (c : Call) : Decidable (KeepsStacks p s c) := by
  unfold KeepsStacks ForkStarts
  split <;> infer_instance

instance (s : Kernel) (a : Slice) : Decidable (SliceKeepsStacks s a) :=
  inferInstanceAs (Decidable (Each _ _ _ _ _ _))

/-- The main thread creates a thread and forks before it has run; then all run. The
second thread is preempted twice, and makes two calls the second time. -/
def forkBeforeRun : List Slice :=
  [⟨⟨0, 0, .thread_create, 0, 0⟩, [.fork]⟩, ⟨⟨0, 1, .yield, 3796, 3816⟩, []⟩,
    ⟨⟨1, 3, .yield, 3796, 3816⟩, []⟩, ⟨⟨0, 1, .sbrk 4096, 3796, 3816⟩, [.fork]⟩,
    ⟨⟨1, 2, .exit, 0, 0⟩, []⟩, ⟨⟨0, 0, .wait, 0, 0⟩, []⟩]

/-- A process with two threads forks, and the stacks of the copies are private. -/
theorem stacks_private_fork : ∃ s, (s.pthread 1).context.ebp % PGSIZE = 3816 ∧
    (s.pthread 3).state = .UNUSED ∧ Private s := by
  have hrun : (start.bind fun s =>
      Lib.exec (only sliceNext SliceKeepsStacks) s forkBeforeRun).map (fun s =>
        ((s.pthread 1).context.ebp % PGSIZE, (s.pthread 3).state)) = some (3816, .UNUSED) := by
    decide +kernel
  rcases Option.map_eq_some_iff.1 hrun with ⟨s, hs, hv⟩
  rcases Option.bind_eq_some_iff.1 hs with ⟨s0, h0, hs⟩
  simp only [Prod.mk.injEq] at hv
  exact ⟨s, hv.1, hv.2,
    stacks_private ((ReachOk.init (start_loaded h0)).exec_only hs)⟩

/-- A thread that has run, then a `fork` of the main thread. -/
def forkAfterRun : List Slice :=
  [⟨⟨0, 0, .thread_create, 0, 0⟩, []⟩, ⟨⟨0, 1, .yield, 3796, 3816⟩, []⟩, ⟨⟨0, 0, .fork, 0, 0⟩, []⟩]

/-- The copy of the thread has the `ebp` of the thread. -/
theorem fork_shares_stack : ∃ s, Reachable Loaded sliceNext s ∧ ¬ Private s := by
  have hrun : (start.bind fun s => Lib.exec sliceNext s forkAfterRun).map (fun s =>
      decide ((s.pthread 3).state ≠ .UNUSED ∧ (s.pthread 3).context.ebp ≠ 0 ∧
        (s.pthread 3).context.ebp / PGSIZE = (s.pthread 1).kstack / PGSIZE ∧
          (s.pthread 3).kstack / PGSIZE ≠ (s.pthread 1).kstack / PGSIZE)) = some true := by
    decide +kernel
  rcases Option.map_eq_some_iff.1 hrun with ⟨s, hs, hv⟩
  rcases Option.bind_eq_some_iff.1 hs with ⟨s0, h0, hs⟩
  rcases of_decide_eq_true hv with ⟨hu, hebp, hshare, hown⟩
  refine ⟨s, reachable_exec (.init (start_loaded h0)) hs, fun hp => ?_⟩
  rcases hp.own 3 hu (s.pthread 3).context.ebp (by simp) with h | h
  · exact hebp h
  · exact hown (h.symm.trans hshare)

end Xv6.Thread
