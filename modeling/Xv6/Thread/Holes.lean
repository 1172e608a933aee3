import Xv6.Thread.Effect
import Xv6.Thread.Image

/-!
# Holes in an address space

`copyuvm` takes every page below `sz` for present. `thread_join` unmaps the
stack of the joined thread wherever it lies, and leaves `sz` alone. As long as
no call gives pages below `sz` back, no process has a hole, and `fork` copies it.

* `full_slices`: in a run of slices whose calls keep the pages (`KeepsPages`) every
  process is full, between the slices and between the calls of each;
* `fork_safe`: in every such run no process has a hole, no `fork` comes upon one,
  and one that finds the memory it needs succeeds;
* `fork_meets_hole`: a thread in the middle is joined, and `fork` panics.

The three ways to give pages back are a join below the size, an `sbrk` of the
whole address space, and a `thread_create` on a recorded base below the size.
-/

namespace Xv6.Thread

open Xv6.Lib Prog

/-! ## The invariant -/

/-- Every page of `[0, sz)` is present. -/
def NoHole (x : Proc) : Prop :=
  ∃ pd, x.pgdir = some pd ∧ ∀ v, v < pages x.sz → pd.Has v

/-- A process without a hole, with sizes as the calls keep them. -/
structure Full (x : Proc) : Prop where
  noHole : NoHole x
  sz_lt : x.sz < KERNBASE
  stacksz_le : x.stacksz ≤ 100

/-- Every process in use is full, and so is `p`, which runs. -/
def AllFull (p : Pidx) (s : Kernel) : Prop :=
  ∀ q, q = p ∨ (s.proc q).state ≠ .UNUSED → Full (s.proc q)

variable {s s' : Kernel} {p q : Pidx} {i : Tidx}

/-- Whether the pages are all there depends on the table, the size and the stack size. -/
theorem Full.congr {x y : Proc} (h : Full x) (hpd : y.pgdir = x.pgdir) (hsz : y.sz = x.sz)
    (hst : y.stacksz = x.stacksz) : Full y where
  noHole := by
    rcases h.noHole with ⟨pd, h1, h2⟩
    exact ⟨pd, by rw [hpd, h1], by rwa [hsz]⟩
  sz_lt := hsz ▸ h.sz_lt
  stacksz_le := hst ▸ h.stacksz_le

/-- The memory of every process is as before, and no more processes are in use. -/
structure SameMem (s s' : Kernel) : Prop where
  pgdir : ∀ q, (s'.proc q).pgdir = (s.proc q).pgdir
  sz : ∀ q, (s'.proc q).sz = (s.proc q).sz
  stacksz : ∀ q, (s'.proc q).stacksz = (s.proc q).stacksz
  used : ∀ q, (s'.proc q).state ≠ .UNUSED → (s.proc q).state ≠ .UNUSED

theorem SameMem.of_proc (h : s'.proc = s.proc) : SameMem s s' := by
  constructor <;> intro q <;> simp [h]

/-- Only other fields of `q` have changed. -/
theorem SameMem.of_ne (q : Pidx) (hne : ∀ r, r ≠ q → s'.proc r = s.proc r)
    (hpd : (s'.proc q).pgdir = (s.proc q).pgdir) (hsz : (s'.proc q).sz = (s.proc q).sz)
    (hst : (s'.proc q).stacksz = (s.proc q).stacksz)
    (hu : (s'.proc q).state ≠ .UNUSED → (s.proc q).state ≠ .UNUSED) : SameMem s s' := by
  constructor <;> intro r <;> by_cases hr : r = q
  · rw [hr, hpd]
  · rw [hne r hr]
  · rw [hr, hsz]
  · rw [hne r hr]
  · rw [hr, hst]
  · rw [hne r hr]
  · rw [hr]
    exact hu
  · rw [hne r hr]
    exact id

/-- Two calls in a row that keep the memory. -/
theorem SameMem.trans {s1 s2 s3 : Kernel} (h : SameMem s1 s2) (h' : SameMem s2 s3) :
    SameMem s1 s3 where
  pgdir := fun q => (h'.pgdir q).trans (h.pgdir q)
  sz := fun q => (h'.sz q).trans (h.sz q)
  stacksz := fun q => (h'.stacksz q).trans (h.stacksz q)
  used := fun q hq => h.used q (h'.used q hq)

theorem AllFull.congr (h : AllFull p s) (hs : SameMem s s') : AllFull p s' := by
  intro q hq
  exact (h q (hq.imp_right (hs.used q))).congr (hs.pgdir q) (hs.sz q) (hs.stacksz q)

theorem AllFull.of_proc (h : AllFull p s) (hs : s'.proc = s.proc) : AllFull p s' :=
  h.congr (.of_proc hs)

/-- Changing one process. -/
theorem AllFull.setProc (h : AllFull p s) {f : Proc → Proc}
    (hf : q = p ∨ (f (s.proc q)).state ≠ .UNUSED → Full (f (s.proc q))) :
    AllFull p (s.setProc q f) := by
  intro r hr
  by_cases hrq : r = q
  · subst hrq
    rw [Kernel.setProc_self] at hr ⊢
    exact hf hr
  · rw [Kernel.setProc_ne hrq] at hr ⊢
    exact h r hr

/-- Only the running process has changed. -/
theorem AllFull.of_ne (h : AllFull p s) (hne : ∀ q, q ≠ p → s'.proc q = s.proc q)
    (hp : Full (s'.proc p)) : AllFull p s' := by
  intro q hq
  by_cases hqp : q = p
  · exact hqp ▸ hp
  · rw [hne q hqp] at hq ⊢
    exact h q hq

/-- An assignment to the fields of the running process. -/
theorem AllFull.setRunning (h : AllFull p s) {f : Proc → Proc} (hf : Full (f (s.proc p))) :
    AllFull p (s.setProc p f) :=
  h.setProc fun _ => hf

/-! ## Memory of the running process -/

/-- `growproc` makes no hole unless it shrinks the memory to nothing. -/
theorem growproc_full {n : Int} (h : AllFull p s) (hn : -2 ^ 31 ≤ n ∧ n < 2 ^ 31)
    (hok : n = 0 ∨ ((s.proc p).sz : Int) + n ≠ 0) :
    wp (growproc p n) s (fun _ s' => AllFull p s') fun _ => True := by
  rcases h p (.inl rfl) with ⟨⟨pd, hpd, hhas⟩, hsz, hst⟩
  unfold growproc
  simp only [wp_bind, wp_get]
  refine wp_ite (fun _ => (wp_pure ..).2 h) fun _ => ?_
  rw [wp_bind]
  refine getPgdir_wp (fun pd' hpd' => ?_) fun hnone => by rw [hpd] at hnone; cases hnone
  cases hpd.symm.trans hpd'
  rw [wp_bind, wp_onKmem]
  -- what is left to do once the pages have been sized
  have hrest : ∀ (pd' : PageDir) (r : Nat) (m : Kmem),
      (∀ v, v < pages (s.proc p).sz → n ≠ 0 ∧ r = 0 → pd'.Has v) →
      (¬ (n ≠ 0 ∧ r = 0) → r < KERNBASE ∧ ∀ v, v < pages r → pd'.Has v) →
      wp (do
        setPgdir p pd'
        if n ≠ 0 ∧ r = 0 then return -1
        setProc p fun x => { x with sz := r }
        switchuvm p
        return ((s.proc p).sz : Int)) (s.setKmem m) (fun _ s' => AllFull p s') fun _ => True := by
    intro pd' r m h1 h2
    have hm : AllFull p (s.setKmem m) := h.of_proc rfl
    simp only [wp_bind, wp_setPgdir]
    refine wp_ite (fun hr => ?_) fun hr => ?_
    · refine (wp_pure ..).2 (hm.setRunning ?_)
      exact ⟨⟨pd', rfl, fun v hv => h1 v hv hr⟩, hsz, hst⟩
    · simp only [wp_bind, wp_setProc]
      refine switchuvm_wp ?_ trivial trivial
      rw [wp_pure, Kernel.setProc_setProc]
      rcases h2 hr with ⟨hlt, hhas'⟩
      exact hm.setRunning ⟨⟨pd', rfl, hhas'⟩, hlt, hst⟩
  by_cases hpos : n > 0
  · -- the heap grows
    rw [if_pos hpos]
    have hnew : toUint ((s.proc p).sz + n) = (s.proc p).sz + n.toNat := by
      unfold toUint KERNBASE at *
      omega
    refine wp.mono allocuvm_any (fun r m hr => hrest r.1 r.2 m ?_ ?_) fun _ _ => trivial
    · exact fun v hv _ => alloc_has hr (by rw [pgUp_eq (by omega)]) v hv (hhas v hv)
    · intro hne
      rcases hr with ⟨-, hlt, h2, hg⟩ | ⟨hlt, -⟩ | ⟨h0, -⟩
      · rw [h2]
        exact ⟨hlt, hg.full (pgUp_eq (by omega)) hhas⟩
      · omega
      · exact absurd ⟨by omega, h0⟩ hne
  · rw [if_neg hpos]
    by_cases hneg : n < 0
    · rw [if_pos hneg]
      refine wp.mono deallocuvm_wp (fun r m hr => hrest r.1 r.2 m ?_ ?_) fun _ _ => trivial
      · -- the size cannot become 0 unless nothing was unmapped
        intro v hv h0
        have hge : ¬ toUint ((s.proc p).sz + n) < (s.proc p).sz := by
          have h2 := hr.1
          rw [h0.2] at h2
          unfold toUint KERNBASE at *
          split at h2 <;> omega
        unfold PageDir.Has
        rw [hr.2, if_neg fun hc => hge hc.1]
        exact hhas v hv
      · intro _
        have hlt : r.2 ≤ (s.proc p).sz := by
          rw [hr.1]
          split <;> omega
        refine ⟨by omega, fun v hv => ?_⟩
        unfold PageDir.Has
        rw [hr.2, if_neg]
        · have hle : pages r.2 ≤ pages (s.proc p).sz := by
            unfold pages
            exact Nat.div_le_div_right (by omega)
          exact hhas v (by omega)
        · rintro ⟨hlt', hr'⟩
          rw [hr.1, if_neg (by omega)] at hv
          exact not_inRange (by rw [pgUp_eq (by omega)]) hv hr'
    · rw [if_neg hneg]
      refine (wp_pure ..).2 (hrest pd _ _ ?_ fun _ => ⟨hsz, hhas⟩)
      exact fun v hv _ => hhas v hv

/-! ## Threads -/

theorem stackBase_spec (x : Proc) : ∃ n, stackBase x = PGROUNDUP n ∧ pgUp (stackBase x) = pgUp n :=
  ⟨_, rfl, pgUp_PGROUNDUP _⟩

theorem stackBase_of_empty {x : Proc} (h : x.freed_sz.size = 0) :
    stackBase x = PGROUNDUP x.sz := by
  simp [stackBase, h]

theorem allocthread_full {Q : Option Tidx → Kernel → Prop} {E : Stop → Prop}
    (hQ : ∀ r s', AllFull p s' → s'.proc = s.proc → Q r s') (h : AllFull p s) :
    wp allocthread s Q E :=
  allocthread_wp (fun _ => hQ _ _ h rfl) (fun _ _ _ => hQ _ _ (h.of_proc rfl) rfl)
    fun _ _ _ _ _ _ => hQ _ _ (h.of_proc rfl) rfl

/-- `pthread_exec` makes no hole where the new stack is not below the size. -/
theorem pthread_exec_full (h : AllFull p s) (hbase : (s.proc p).sz ≤ stackBase (s.proc p)) :
    wp (pthread_exec p i) s (fun _ s' => AllFull p s') fun _ => True := by
  rcases h p (.inl rfl) with ⟨⟨pd, hpd, hhas⟩, hsz, hst⟩
  -- the stack goes above the pages there are, so nothing of them is moved
  have hle : pages (s.proc p).sz ≤ pgUp (stackBase (s.proc p)) := by
    rcases stackBase_spec (s.proc p) with ⟨n, h1, h2⟩
    rw [h2]
    exact pages_le_pgUp (h1 ▸ hbase)
  unfold pthread_exec
  simp only [wp_bind, wp_get]
  refine wp_ite (fun _ => (wp_pure ..).2 h) fun _ => ?_
  rw [wp_bind]
  refine getPgdir_wp (fun pd' hpd' => ?_) fun hnone => by rw [hpd] at hnone; cases hnone
  cases hpd.symm.trans hpd'
  rw [wp_bind, wp_onKmem]
  refine wp.mono allocuvm_any (fun r m hr => ?_) fun _ _ => trivial
  rcases r with ⟨pd1, sz1⟩
  have hhas1 : ∀ v, v < pages (s.proc p).sz → pd1.Has v :=
    fun v hv => alloc_has hr hle v hv (hhas v hv)
  have hfull1 : ∀ pd', (∀ v, pd'.Has v ↔ pd1.Has v) →
      Full { s.proc p with pgdir := some pd' } := fun pd' hpd' =>
    ⟨⟨pd', rfl, fun v hv => (hpd' v).2 (hhas1 v hv)⟩, hsz, hst⟩
  simp only [wp_bind, wp_setPgdir]
  refine wp_ite (fun _ => (wp_pure ..).2 (h.of_ne (fun q hq => by simp [hq]) ?_)) fun hsz1 => ?_
  · simpa using hfull1 pd1 fun _ => Iff.rfl
  rw [wp_bind, wp_onKmem]
  refine wp.mono (clearpteu_wp (E := fun _ => True) fun _ => trivial) (fun pd2 m2 hr2 => ?_)
    fun _ _ => trivial
  have hpd2 : ∀ v, pd2.Has v ↔ pd1.Has v := has_of_cleared hr2.2
  simp only [wp_bind, wp_setPgdir, wp_onKmem]
  refine copyout_wp (fun b => ?_) trivial
  refine wp_ite (fun _ => (wp_pure ..).2 (h.of_ne (fun q hq => by simp [hq]) ?_)) fun _ => ?_
  · simpa using hfull1 pd2 hpd2
  -- a freed place: the size stays; one on top: it grows up to the end of the stack
  cases hpop : (s.proc p).freed_sz.pop with
  | some q =>
      simp only [wp_bind, wp_setProc, wp_setTh, wp_pure]
      refine h.of_ne (fun q hq => by simp [hq]) ?_
      exact (hfull1 pd2 hpd2).congr (by simp) (by simp) (by simp)
  | none =>
      simp only [wp_bind, wp_setProc, wp_setTh, wp_pure]
      have hempty : (s.proc p).freed_sz.size = 0 := by
        unfold Ring.pop at hpop
        split at hpop
        · assumption
        · cases hpop
      have hb : stackBase (s.proc p) = PGROUNDUP (s.proc p).sz := stackBase_of_empty hempty
      have hup : pgUp (stackBase (s.proc p)) = pages (s.proc p).sz := by
        rw [hb, pgUp_PGROUNDUP, pgUp_eq (by omega)]
      refine h.of_ne (fun q hq => by simp [hq]) ?_
      have hnew : Full { s.proc p with pgdir := some pd2, sz := sz1 } := by
        rcases hr with ⟨-, hlt, h2, hg⟩ | ⟨hlt, -⟩ | ⟨h0, -⟩
        · dsimp only at h2 hg
          subst h2
          exact ⟨⟨pd2, rfl, fun v hv => (hpd2 v).2 (hg.full hup hhas v hv)⟩, hlt, hst⟩
        · -- the size of a stack is too small for its end to wrap around
          exfalso
          rw [hb] at hlt
          unfold PGROUNDUP stackBytes toUint pgUp KERNBASE PGSIZE at *
          omega
        · exact absurd h0 hsz1
      simpa using hnew

/-- `thread_create` likewise. -/
theorem thread_create_full (h : AllFull p s) (hbase : (s.proc p).sz ≤ stackBase (s.proc p)) :
    wp (thread_create p) s (fun _ s' => AllFull p s') fun _ => True := by
  unfold thread_create pthread_fork
  simp only [wp_bind]
  refine allocthread_full (fun r s1 h1 hs1 => ?_) h
  cases r with
  | none => simpa using h1
  | some nth =>
      simp only [wp_bind, wp_setProc, wp_get, wp_setTh, wp_pure]
      have hbase1 : (s1.proc p).sz ≤ stackBase (s1.proc p) := by rwa [hs1]
      refine wp.mono (pthread_exec_full (p := p) ?_ ?_) (fun ok s2 h2 => ?_) fun _ he => he
      · refine h1.of_ne (fun q hq => by simp [hq]) ?_
        exact (h1 p (.inl rfl)).congr (by simp) (by simp) (by simp)
      · simpa [stackBase] using hbase1
      · refine wp_ite (fun _ => ?_) fun _ => ?_
        · simp only [wp_bind, wp_setTh, wp_pure]
          exact h2.of_proc rfl
        · simp only [wp_bind, wp_get, wp_setTh, wp_setCont, wp_pure]
          exact h2.of_proc rfl

/-- `sleep` makes no hole. -/
theorem sleep_full {c : Chan} {k : Cont} (h : AllFull p s) :
    wp (sleep p c k) s (fun _ s' => AllFull p s') fun _ => True := by
  unfold sleep
  simp only [wp_bind, wp_setProc]
  refine sched_wp (fun _ => trivial) fun _ => (wp_pure ..).2 (h.setRunning ?_)
  exact (h p (.inl rfl)).congr rfl rfl rfl

/-- Freeing the stack of a thread makes no hole where it is above the size. -/
theorem reapThread_full (h : AllFull p s)
    (habove : (s.proc p).sz ≤ PGROUNDUP (baseOf (s.proc p) (s.pthread i).th_sz)) :
    wp (reapThread p i) s (fun _ s' => AllFull p s') fun _ => True := by
  rcases h p (.inl rfl) with ⟨⟨pd, hpd, hhas⟩, hsz, hst⟩
  unfold reapThread
  simp only [wp_bind, wp_get]
  refine kfreeStack_wp (fun m _ _ => ?_) fun _ _ => trivial
  simp only [wp_setTh, wp_setProc]
  refine getPgdir_wp (fun pd' hpd' => ?_) fun hnone => by simp [hpd] at hnone
  obtain rfl : pd = pd' := by simpa [hpd] using hpd'
  simp only [wp_onKmem, wp_setPgdir, wp_pure]
  refine wp.mono deallocuvm_wp (fun r m2 hr => ?_) fun _ _ => trivial
  refine h.of_ne (fun q hq => by simp [hq]) ?_
  -- the pages given back lie above `sz`
  have hfull : Full { s.proc p with pgdir := some r.1 } := by
    refine ⟨⟨r.1, rfl, fun v hv => ?_⟩, hsz, hst⟩
    unfold PageDir.Has
    rw [hr.2, if_neg]
    · exact hhas v hv
    · exact fun hc => not_inRange (by simpa using pages_le_pgUp habove) hv hc.2
  exact hfull.congr (by simp) (by simp) (by simp)

/-- Joining `t` takes apart no stack that reaches below `sz`. -/
def JoinsAbove (s : Kernel) (x : Proc) (pid id t w : Nat) : Prop :=
  ∀ j, mayJoin s pid id t w j = true → (s.pthread j).state = .THZOMBIE →
    x.sz ≤ PGROUNDUP (baseOf x (s.pthread j).th_sz)

/-- `thread_join` makes no hole where the stacks it may free are above the size. -/
theorem joinScan_full {t w : Nat} (h : AllFull p s)
    (hok : JoinsAbove s (s.proc p) (s.proc p).pid (s.proc p).thread_id t w) :
    wp (joinScan p t w) s (fun _ s' => AllFull p s') fun _ => True := by
  unfold joinScan
  simp only [wp_bind, wp_get]
  cases hf : findTh _ with
  | some j =>
      have hj := findTh_some hf
      rw [decide_eq_true_iff] at hj
      simp only [wp_bind]
      refine wp.mono (reapThread_full h (hok j hj.1 hj.2)) (fun _ s1 h1 => ?_) fun _ he => he
      simpa using h1
  | none => exact wp_ite (fun _ => (wp_pure ..).2 h) fun _ => sleep_full h

/-- `kill` makes no hole. -/
theorem kill_full {pid : Int} {Q : Kernel → Prop} {E : Stop → Prop}
    (hQ : ∀ s', AllFull p s' → Q s') (h : AllFull p s) :
    wp (kill pid) s (fun _ s' => Q s') E := by
  unfold kill
  simp only [wp_bind, wp_get]
  cases findProc fun q => decide ((s.proc q).pid = pid) with
  | none => exact (wp_pure ..).2 (hQ _ h)
  | some q =>
      simp only [wp_bind, wp_setProc, wp_modify, wp_pure]
      refine hQ _ (h.congr (.of_ne q (fun r hr => by simp [hr]) ?_ ?_ ?_ fun hu hq => hu ?_))
      · simp
      · simp
      · simp
      · simp [hq]

/-- `thread_exit` makes no hole. -/
theorem thread_exit_full {retval : Nat} (h : AllFull p s) :
    wp (thread_exit p retval) s (fun _ s' => AllFull p s') fun _ => True := by
  unfold thread_exit
  simp only [wp_bind, wp_get]
  refine wp_ite (fun _ => ?_) fun _ => ?_
  · simp only [wp_bind, wakeup1_wp]
    refine kill_full (fun s1 h1 => ?_) h
    exact sched_wp (fun _ => trivial) fun _ => (wp_pure ..).2 (h1.of_proc rfl)
  · simp only [wp_bind, wp_setTh, wp_setProc, wakeup1_wp]
    refine sched_wp (fun _ => trivial) fun _ => (wp_pure ..).2 (h.of_ne (fun q hq => ?_) ?_)
    · simp [hq]
    · exact (h p (.inl rfl)).congr (by simp) (by simp) (by simp)

/-! ## fork -/

theorem SameMem.rfl' : SameMem s s := .of_proc rfl

/-- Copying a thread keeps the memory. -/
theorem forkThread_same {np : Pidx} {th : Tidx} {E : Stop → Prop} :
    wp (forkThread p np th) s (fun _ s' => SameMem s s') E := by
  unfold forkThread
  simp only [wp_bind, wp_get]
  refine wp_ite (fun _ => (wp_pure ..).2 .rfl') fun _ => ?_
  rw [wp_bind]
  have hkilled : ∀ s1 : Kernel, s1.proc = s.proc →
      SameMem s (s1.setProc np fun x => { x with killed := true }) := by
    intro s1 h1
    refine .of_ne np (fun r hr => ?_) ?_ ?_ ?_ fun hu => ?_
    · rw [Kernel.setProc_ne hr, h1]
    · simp [h1]
    · simp [h1]
    · simp [h1]
    · simpa [h1] using hu
  refine allocthread_wp (fun _ => ?_) (fun i _ _ => ?_) fun i k m _ _ _ => ?_
  · simp only [wp_bind, wp_setProc, wp_pure]
    exact hkilled s rfl
  · simp only [wp_bind, wp_setProc, wp_pure]
    exact hkilled _ rfl
  · simp only [wp_bind, wp_get, wp_setTh, wp_setCont, wp_pure]
    exact .of_proc rfl

/-- Copying the threads keeps the memory. -/
theorem forkThreads_same {np : Pidx} {ths : List Tidx} {E : Stop → Prop} :
    wp (forkThreads p np ths) s (fun _ s' => SameMem s s') E := by
  induction ths generalizing s with
  | nil => exact (wp_pure ..).2 .rfl'
  | cons th ths ih =>
      unfold forkThreads
      rw [wp_bind]
      refine wp.mono forkThread_same (fun ok s1 h1 => ?_) fun _ he => he
      refine wp_ite (fun _ => (wp_pure ..).2 h1) fun _ => ?_
      exact wp.mono ih (fun _ s2 h2 => h1.trans h2) fun _ he => he

/-- A copy of a full process is full. -/
theorem CopyOf.full {pd d : PageDir} {x y : Proc} (h : CopyOf pd d (pages x.sz)) (hx : Full x)
    (hpd : x.pgdir = some pd) (hd : y.pgdir = some d) (hsz : y.sz = x.sz)
    (hst : y.stacksz = x.stacksz) : Full y := by
  rcases hx.noHole with ⟨pd', hpd', hhas⟩
  cases hpd.symm.trans hpd'
  refine ⟨⟨d, hd, fun v hv => ?_⟩, hsz ▸ hx.sz_lt, hst ▸ hx.stacksz_le⟩
  rw [hsz] at hv
  have hw := h v
  rw [if_pos hv] at hw
  have hv := hhas v hv
  unfold PageDir.Has at *
  rw [← Option.isSome_map (f := Pte.user), hw, Option.isSome_map]
  exact hv

/-- `fork` of a process without a hole stops only where `kfree` refuses a page. -/
theorem fork_full (h : AllFull p s) (hrun : (s.proc p).state ≠ .UNUSED) :
    wp (fork p) s (fun _ s' => AllFull p s') BadFree := by
  have hfull := h p (.inl rfl)
  rcases id hfull with ⟨⟨pd, hpd, hhas⟩, -, -⟩
  unfold fork
  rw [wp_bind]
  refine allocproc_wp (fun _ => (wp_pure ..).2 h) (fun _ _ _ => (wp_pure ..).2 (h.of_proc rfl)) ?_
  intro np th k m _ hnp hth hk hm
  have hne : p ≠ np := fun he => hrun (he ▸ hnp)
  have hproc : ∀ q, q ≠ np → (s.newProc np th k m).proc q = s.proc q := by
    intro q hq
    simp [Kernel.newProc, Kernel.setKmem, hq]
  -- what is left to do once the state of `np` has been settled
  have hdone : ∀ s1 : Kernel, (∀ q, q ≠ np → s1.proc q = s.proc q) →
      ((s1.proc np).state ≠ .UNUSED → Full (s1.proc np)) → AllFull p s1 := by
    intro s1 h1 hnp1 q hq
    by_cases hqn : q = np
    · subst hqn
      exact hnp1 (hq.resolve_left fun hqp => hne hqp.symm)
    · rw [h1 q hqn] at hq ⊢
      exact h q hq
  simp only [wp_bind, wp_get]
  refine getPgdir_wp (fun pd' hpd' => ?_) fun hnone => ?_
  swap
  · rw [hproc p hne, hpd] at hnone
    cases hnone
  rw [hproc p hne] at hpd' ⊢
  cases hpd.symm.trans hpd'
  rw [wp_onKmem]
  refine wp.mono (copyuvm_wp hhas) (fun r m2 hr => ?_) fun _ he => he
  cases r with
  | none =>
      simp only [wp_bind, wp_onKmem]
      refine kfree_wp (fun m3 => ?_) fun _ he => he
      simp only [wp_setProc, wp_pure]
      refine hdone _ (fun q hq => by simp [hq, hproc q hq]) fun hu => ?_
      simp at hu
  | some d =>
      simp only [wp_bind, wp_setProc, wp_setCont]
      have hcopy := hr d rfl
      refine wp_ite (fun _ => ?_) fun _ => ?_
      · simp only [wp_bind, wp_setProc, mvProcToThread_wp, clearProc_wp, wp_pure]
        refine hdone _ (fun q hq => by simp [hq, hproc q hq]) fun _ => ?_
        exact hcopy.full hfull hpd (by simp [cleared]) (by simp [cleared]) (by simp [cleared])
      · simp only [wp_bind, mvProcToThread_wp]
        refine wp.mono forkThreads_same (fun ok s2 hs2 => ?_) fun _ he => he
        have hs2 : AllFull p s2 := by
          refine AllFull.congr (hdone _ (fun q hq => by simp [hq, hproc q hq]) fun _ => ?_) hs2
          exact hcopy.full hfull hpd (by simp) (by simp) (by simp)
        exact wp_ite (fun _ => (wp_pure ..).2 hs2) fun _ => (wp_pure ..).2 hs2

/-! ## exec -/

/-- Deleting the siblings keeps the memory. -/
theorem deleteOthers_same {ths : List Tidx} :
    wp (deleteOthers p ths) s (fun _ s' => SameMem s s') fun _ => True := by
  induction ths generalizing s with
  | nil => exact (wp_pure ..).2 .rfl'
  | cons th ths ih =>
      unfold deleteOthers deleteOther
      simp only [wp_bind, wp_get]
      have hstep : ∀ s1, SameMem s s1 →
          wp (deleteOthers p ths) s1 (fun _ s' => SameMem s s') fun _ => True := fun s1 h1 =>
        wp.mono ih (fun _ _ h2 => h1.trans h2) fun _ he => he
      refine wp_ite (fun _ => ?_) fun _ => (wp_pure ..).2 (hstep s .rfl')
      unfold deleteThread
      simp only [wp_bind, wp_modify, wp_get]
      refine kfreeStack_wp (fun m _ _ => (wp_setTh ..).2 (hstep _ ?_)) fun _ _ => trivial
      constructor <;> intro q <;> simp only [Kernel.setTh_proc, Kernel.setKmem_proc, reparent] <;>
        split <;> simp

/-- `exec` gives the process an image without holes. -/
theorem execWith_full {elf : Option Elf} {argv : List Nat} {stacksize : Nat} (h : AllFull p s)
    (hst : stacksize ≤ 100) :
    wp (execWith p elf argv stacksize) s (fun _ s' => AllFull p s') fun _ => True := by
  unfold execWith
  rw [wp_bind, wp_onKmem]
  refine wp.mono (newImage_image hst) (fun r m hr => ?_) fun _ he => he
  cases r with
  | none => exact (wp_pure ..).2 (h.of_proc rfl)
  | some r =>
      rcases r with ⟨pd, sz⟩
      have him := hr pd sz rfl
      unfold deleteThreads
      simp only [wp_bind, wp_setProc]
      refine wp.mono deleteOthers_same (fun _ s1 h1 => ?_) fun _ he => he
      have hm : AllFull p (s.setKmem m) := h.of_proc rfl
      have hall : AllFull p s1 := hm.congr h1
      refine getPgdir_wp (fun pd0 _ => ?_) fun _ => trivial
      refine switchuvm_wp ?_ trivial trivial
      rw [wp_onKmem]
      refine wp.mono (freevm_wp (Q := fun _ _ => True) fun _ => trivial) (fun _ m2 _ => ?_)
        fun _ _ => trivial
      refine (wp_pure ..).2 (hall.of_ne (fun q hq => by simp [hq]) ?_)
      refine ⟨⟨pd, by simp, fun v hv => (him.has v).2 (by simpa using hv)⟩, ?_, ?_⟩
      · simpa using him.sz_lt
      · simpa using hst

/-! ## Processes -/

/-- `exit` makes no hole. -/
theorem exit_full (h : AllFull p s) : wp (exit p) s (fun _ s' => AllFull p s') fun _ => True := by
  have hgo : ∀ s1 c, AllFull p s1 → AllFull p (s1.exited p c) := by
    intro s1 c h1
    have ha : AllFull p { s1 with proc := fun q => adopt p s1.initproc c (s1.proc q) } := by
      refine h1.congr ?_
      constructor <;> intro q <;> simp only [adopt] <;> split <;> simp
    have hz := ha.setRunning (f := fun x => { x with state := .ZOMBIE })
      ((ha p (.inl rfl)).congr rfl rfl rfl)
    exact hz.of_proc rfl
  exact exit_wp fun c c' => ⟨hgo _ c' (h.of_proc rfl), fun c2 => hgo _ c' (h.of_proc rfl)⟩

/-- Clearing the slots of a child keeps the memory. -/
theorem reapThreads_same {pid : Nat} {ths : List Tidx} :
    wp (reapThreads p pid ths) s (fun _ s' => s'.proc = s.proc) fun _ => True := by
  induction ths generalizing s with
  | nil => exact (wp_pure ..).2 rfl
  | cons th ths ih =>
      unfold reapThreads
      simp only [wp_bind, wp_get]
      refine wp_ite (fun _ => ?_) fun _ => ih
      unfold deleteThread
      simp only [wp_bind, wp_get]
      refine kfreeStack_wp (fun m _ _ => ?_) fun _ _ => trivial
      rw [wp_setTh]
      exact wp.mono ih (fun _ _ h2 => h2) fun _ he => he

/-- `wait` takes the memory of a process that it frees, and makes no hole in another. -/
theorem waitScan_full (h : AllFull p s) :
    wp (waitScan p) s (fun _ s' => AllFull p s') fun _ => True := by
  unfold waitScan
  simp only [wp_bind, wp_get]
  cases findProc _ with
  | none => exact wp_ite (fun _ => (wp_pure ..).2 h) fun _ => sleep_full h
  | some c =>
      unfold reapProc
      simp only [wp_bind, wp_get]
      refine wp.mono reapThreads_same (fun _ s1 h1 => ?_) fun _ he => he
      cases hpd : (s.proc c).pgdir with
      | none => exact wp_halt.2 trivial
      | some pd =>
          simp only [wp_bind, wp_onKmem]
          refine wp.mono (freevm_wp (Q := fun _ _ => True) fun _ => trivial) (fun _ m2 _ => ?_)
            fun _ _ => trivial
          simp only [wp_setProc, wp_pure]
          have h2 : AllFull p (s1.setKmem m2) := h.of_proc h1
          refine h2.setProc fun _ => ?_
          -- a process of size 0 has no page to miss
          refine ⟨⟨pd, ?_, fun v hv => ?_⟩, Nat.two_pow_pos 31, Nat.zero_le _⟩
          · simpa [h1] using hpd
          · simp [pages, PGSIZE] at hv

/-- `setmemorylimit` makes no hole. -/
theorem setmemorylimit_full {pid limit : Int} (h : AllFull p s) :
    wp (setmemorylimit pid limit) s (fun _ s' => AllFull p s') fun _ => True := by
  unfold setmemorylimit
  refine wp_ite (fun _ => (wp_pure ..).2 h) fun _ => ?_
  simp only [wp_bind, wp_get]
  cases findProc _ with
  | none => exact (wp_pure ..).2 h
  | some q =>
      refine wp_ite (fun _ => (wp_pure ..).2 h) fun _ => ?_
      simp only [wp_bind, wp_setProc, wp_pure]
      refine h.congr (.of_ne q (fun r hr => by simp [hr]) ?_ ?_ ?_ ?_) <;> simp

/-- A call into the rest of the kernel makes no hole. -/
theorem inside_full {k : Cont} {w z : Option Chan} (h : AllFull p s) :
    wp (inside p k w z) s (fun _ s' => AllFull p s') fun _ => True := by
  refine inside_wp (AllFull p) (AllFull p) h
    (h.setRunning ((h p (.inl rfl)).congr rfl rfl rfl))
    (fun _ h1 => ⟨h1, fun _ _ => h1.of_proc rfl⟩) (fun _ _ h1 _ => sleep_full h1) fun s1 h1 _ => ?_
  unfold yieldInside
  simp only [wp_bind, wp_setProc]
  refine sched_wp (fun _ => trivial) fun _ => (wp_pure ..).2 ?_
  exact h1.setRunning ((h1 p (.inl rfl)).congr rfl rfl rfl)

/-! ## Every call -/

/-- The call gives no page below `sz` back: no `sbrk` gives back the whole address space,
no `thread_create` takes a recorded base below `sz`, and no `thread_join` takes apart a
stack that reaches below `sz`. -/
def KeepsPages (p : Pidx) (s : Kernel) (k : Cont) (c : Call) : Prop :=
  let x := s.proc p
  (∀ n ∈ c.sbrks, n = 0 ∨ (x.sz : Int) + n ≠ 0) ∧
    (c.creates = true → x.sz ≤ stackBase x) ∧
    ∀ r ∈ joining k c, JoinsAbove s x x.pid x.thread_id r.1 r.2

/-- Which stacks a join may free depends on the slots, the size and the ids. -/
theorem JoinsAbove.congr {x y : Proc} {pid pid' id id' t w : Nat} (h : JoinsAbove s x pid id t w)
    (hth : s'.pthread = s.pthread) (hsz : y.sz = x.sz) (hst : y.stacksz = x.stacksz)
    (hpid : pid' = pid) (hid : id' = id) : JoinsAbove s' y pid' id' t w := by
  subst hpid hid
  intro j hj hz
  unfold mayJoin joinerId at hj
  rw [hth] at hj hz ⊢
  have := h j hj hz
  unfold baseOf stackBytes at *
  rwa [hsz, hst]

/-- Every call makes no hole under its condition, one case each. -/
theorem call_full {k : Cont} {c : Call} (h : AllFull p s) (hu : (s.proc p).state ≠ .UNUSED)
    (hfit : c.fits k = true) (hok : KeepsPages p s k c) :
    wp (call p k c) s (fun _ s' => AllFull p s') fun _ => True := by
  have hret : ∀ {α : Type} {x : M α} {f : α → Outcome} {E : Stop → Prop},
      wp x s (fun _ s' => AllFull p s') E →
      wp (do let r ← x; return f r) s (fun _ s' => AllFull p s') fun _ => True := by
    intro α x f E hx
    rw [wp_bind]
    exact wp.mono hx (fun r s1 h1 => (wp_pure ..).2 h1) fun _ _ => trivial
  cases c with
  | yield => exact (wp_pure ..).2 h
  | sleep c => exact sleep_full h
  | wakeup c =>
      simp only [call, wp_bind, wakeup1_wp, wp_pure]
      exact h.of_proc rfl
  | inside w z => exact inside_full h
  | thread_create =>
      simp only [call, wp_bind]
      -- the three calls that the condition speaks of: `thread_create`, `thread_join` and `sbrk`
      refine wp.mono (thread_create_full h (hok.2.1 rfl)) (fun r s1 h1 => ?_) fun _ he => he
      cases r <;> exact (wp_pure ..).2 h1
  | thread_exit v => exact thread_exit_full h
  | thread_join t w =>
      unfold call thread_join
      refine wp_ite (fun _ => (wp_pure ..).2 h) fun ht => joinScan_full h ?_
      exact hok.2.2 (t, w) (by simp [joining, ht])
  | sbrk n =>
      have hn : -2 ^ 31 ≤ n ∧ n < 2 ^ 31 := by
        simp only [Call.fits, decide_eq_true_iff] at hfit
        exact hfit.2
      exact hret (growproc_full h hn (hok.1 n rfl))
  | fork => exact hret (fork_full h hu)
  | exit => exact exit_full h
  | wait => exact waitScan_full h
  | exec elf argv => exact hret (execWith_full h (by decide))
  | exec2 elf argv n =>
      refine hret (E := fun _ => True) ?_
      unfold exec2
      exact wp_ite (fun _ => (wp_pure ..).2 h) fun hn => execWith_full h (by omega)
  | kill pid => exact hret (E := fun _ => True) (kill_full (fun _ h => h) h)
  | setmemorylimit pid limit => exact hret (setmemorylimit_full h)
  | resume w =>
      unfold call resume
      simp only [wp_bind, wp_setProc]
      have h1 : AllFull p (s.setProc p fun x => { x with chan := .null }) :=
        h.setRunning ((h p (.inl rfl)).congr rfl rfl rfl)
      -- a join that goes on is still the one that the condition speaks of
      cases k with
      | user => exact (wp_pure ..).2 h1
      | sleep => exact (wp_pure ..).2 h1
      | wait => exact waitScan_full h1
      | join t =>
          refine joinScan_full h1 ?_
          have hok : JoinsAbove s (s.proc p) (s.proc p).pid (s.proc p).thread_id t w :=
            hok.2.2 (t, w) (by simp [joining])
          refine hok.congr rfl ?_ ?_ ?_ ?_ <;> simp

/-! ## Runs -/

/-- Every process in use is full. -/
def Inv (s : Kernel) : Prop := ∀ q, (s.proc q).state ≠ .UNUSED → Full (s.proc q)

/-- A process that is picked has no hole. -/
theorem Inv.dressed (h : Inv s) (hp : (s.proc p).state ≠ .UNUSED) :
    AllFull p (s.dressed p i) := by
  have hs : AllFull p s := fun q hq => by
    rcases hq with rfl | hq
    · exact h q hp
    · exact h q hq
  exact hs.setRunning ((h p hp).congr rfl rfl rfl)

/-- Nor has one that is switched out. -/
theorem AllFull.left {a : Label} {s1 : Kernel} {k : Cont} {r : Outcome} (h : AllFull a.p s1) :
    Inv (a.left s k s1 r) := by
  have hfull : AllFull a.p (a.left s k s1 r) := by
    cases r with
    | ret v =>
        refine h.of_ne (fun q hq => by simp [Label.left, Outcome.parked, Kernel.undressed, hq]) ?_
        refine (h a.p (.inl rfl)).congr ?_ ?_ ?_ <;>
          simp [Label.left, Outcome.parked, Kernel.undressed, cleared]
    | switch k =>
        refine h.of_ne (fun q hq => by simp [Label.left, Outcome.parked, Kernel.undressed, hq]) ?_
        refine (h a.p (.inl rfl)).congr ?_ ?_ ?_ <;>
          simp [Label.left, Outcome.parked, Kernel.undressed, cleared]
  exact fun q hq => hfull q (.inr hq)

/-- The first process has no hole. -/
theorem Started.full (h : Started p i s) : Inv s := by
  rcases h.proc with ⟨pd, k, -, h0, hp⟩
  intro q hq
  rw [h.inUse hq, hp]
  refine ⟨⟨pd, rfl, fun v hv => ?_⟩, ?_, ?_⟩
  · rw [lt_pages] at hv
    have hv0 : v = 0 := by
      dsimp only at hv
      unfold PGSIZE at hv
      omega
    exact hv0 ▸ h0
  · show PGSIZE < KERNBASE
    decide
  · show 1 ≤ 100
    decide

/-- Runs of slices whose calls meet the condition keep the invariant. -/
theorem full_slices : SliceInv KeepsPages Inv (fun p i s => Wears p i s ∧ AllFull p s)
    fun p _ s => AllFull p s where
  init := fun s h => by
    rcases h.started with ⟨p, i, h⟩
    exact h.full
  dress := fun s p i h hp => ⟨hp.wears, h.dressed (by rw [hp.1]; decide)⟩
  call := by
    intro s p i k c h hok hfit
    refine ((call_effect h.1).and (call_full h.2 h.1.inUse hfit hok)).mono ?_ fun _ he => he
    rintro r s1 ⟨he, h1⟩
    refine ⟨h1, fun v hv => ?_⟩
    subst hv
    exact ⟨h.1.ret he, h1⟩
  left := fun s a k s1 r h => h.left

/-! ## Memory permitting -/

/-- The number of free thread slots. -/
def freeSlots (s : Kernel) : Nat := (List.finRange NTHRD).countP fun j =>
    (s.pthread j).state = .UNUSED

/-- The number of slots of a list that hold process id `pid`. -/
def slotsOf (s : Kernel) (pid : Nat) (ths : List Tidx) : Nat :=
  ths.countP fun j => (s.pthread j).pid = pid

/-- Enough is free for `fork` of process `p`. -/
structure Room (s : Kernel) (p : Pidx) : Prop where
  proc : ∃ q, (s.proc q).state = .UNUSED
  slots : 1 + slotsOf s (s.proc p).pid (List.finRange NTHRD) ≤ freeSlots s
  pages : 1 + copyNeed (s.proc p).sz + slotsOf s (s.proc p).pid (List.finRange NTHRD) ≤ s.kmem.free

/-- One member of a list without repeats changes a count by one at most. -/
theorem countP_le_succ {l : List Tidx} {f g : Tidx → Bool} {n : Tidx} (hnd : l.Nodup)
    (h : ∀ j, j ≠ n → f j = true → g j = true) : l.countP f ≤ l.countP g + 1 := by
  induction l with
  | nil => exact Nat.zero_le _
  | cons a l ih =>
      rw [List.nodup_cons] at hnd
      rw [List.countP_cons, List.countP_cons]
      by_cases ha : a = n
      · subst ha
        have hl : l.countP f ≤ l.countP g :=
          List.countP_mono_left fun j hj hf => h j (fun he => hnd.1 (he ▸ hj)) hf
        split <;> omega
      · have hl := ih hnd.2
        have hfg := h a ha
        split
        · next hf =>
            rw [if_pos (hfg hf)]
            omega
        · omega

/-- Taking slot `n` takes one slot. -/
theorem freeSlots_le {n : Tidx} (h : ∀ j, j ≠ n → s'.pthread j = s.pthread j) :
    freeSlots s ≤ freeSlots s' + 1 :=
  countP_le_succ (n := n) (List.nodup_finRange _) fun j hj hf => by rwa [h j hj]

/-- A slot with another id adds nothing to a process. -/
theorem slotsOf_le {n : Tidx} {pid : Nat} {ths : List Tidx}
    (h : ∀ j, j ≠ n → s'.pthread j = s.pthread j) (hn : (s'.pthread n).pid ≠ pid) :
    slotsOf s' pid ths ≤ slotsOf s pid ths := by
  refine List.countP_mono_left fun j _ hf => ?_
  have hj : j ≠ n := by
    rintro rfl
    exact hn (by simpa using hf)
  rwa [h j hj] at hf

theorem exists_free (h : 0 < freeSlots s) : ∃ j, (s.pthread j).state = .UNUSED := by
  rcases List.countP_pos_iff.1 h with ⟨j, -, hj⟩
  exact ⟨j, by simpa using hj⟩

/-- With a slot and a page for every thread to go, the loop of `fork` copies all. -/
theorem forkThreads_ends {np : Pidx} {ths : List Tidx}
    (hne : (s.proc np).pid ≠ (s.proc p).pid)
    (hslots : slotsOf s (s.proc p).pid ths ≤ freeSlots s)
    (hpages : slotsOf s (s.proc p).pid ths ≤ s.kmem.free) :
    Ends (forkThreads p np ths) s fun ok _ => ok = true := by
  induction ths generalizing s with
  | nil => exact (wp_pure ..).2 rfl
  | cons th ths ih =>
      have hcons : slotsOf s (s.proc p).pid ths ≤ slotsOf s (s.proc p).pid (th :: ths) := by
        unfold slotsOf
        rw [List.countP_cons]
        exact Nat.le_add_right _ _
      unfold forkThreads forkThread
      simp only [Ends, wp_bind, wp_get]
      refine wp_ite (fun _ => ?_) fun hc => ?_
      -- no thread of the process, or the caller: nothing to copy
      · rw [wp_pure, if_neg (by simp)]
        exact ih hne (hcons.trans hslots) (hcons.trans hpages)
      rw [not_or, not_not] at hc
      -- a copy takes one slot and one page of those counted
      have hone : slotsOf s (s.proc p).pid (th :: ths) = slotsOf s (s.proc p).pid ths + 1 := by
        unfold slotsOf
        rw [List.countP_cons, if_pos (by simpa using hc.1)]
      rcases exists_free (s := s) (by omega) with ⟨j, hj⟩
      rw [wp_bind]
      refine allocthread_wp (fun hfull => absurd hj (hfull j)) (fun _ _ hm => ?_) ?_
      · omega
      intro n k m hn _ hm
      simp only [wp_bind, wp_get, wp_setTh, wp_setCont, wp_pure]
      rw [if_neg (by simp)]
      generalize hs1 : Kernel.setCont _ n _ = s1
      have hrest : ∀ j, j ≠ n → s1.pthread j = s.pthread j := by
        intro j hj
        subst hs1
        simp [hj]
      have hproc : s1.proc = s.proc := by
        subst hs1
        rfl
      have hpid : (s1.pthread n).pid ≠ (s.proc p).pid := by
        subst hs1
        simpa using hne
      have hfree := freeSlots_le hrest
      have hle := @slotsOf_le s s1 n (s.proc p).pid ths hrest hpid
      have hmem : s1.kmem = m := by
        subst hs1
        rfl
      -- what is left suffices for the other copies
      refine ih ?_ ?_ ?_
      · rwa [hproc]
      · rw [hproc]
        omega
      · rw [hproc, hmem]
        omega

/-- With enough free, `fork` of a process without a hole succeeds. -/
theorem fork_ends (h : AllFull p s) (hids : Ids s) (hu : InUse s p) (hroom : Room s p) :
    Ends (fork p) s fun r _ => r ≠ -1 := by
  rcases h p (.inl rfl) with ⟨⟨pd, hpd, hhas⟩, -, -⟩
  rcases hroom with ⟨⟨q0, hq0⟩, hslots, hpages⟩
  rcases exists_free (s := s) (by omega) with ⟨j0, hj0⟩
  unfold fork
  rw [Ends, wp_bind]
  refine allocproc_wp (fun hfull => ?_) (fun _ _ hm => ?_) fun np th k m _ hnp hth hk hm => ?_
  -- a process, a slot and a page are free
  · rcases hfull with hfull | hfull
    · exact absurd hq0 (hfull q0)
    · exact absurd hj0 (hfull j0)
  · omega
  have hne : p ≠ np := fun he => hu (he ▸ hnp)
  have hpp : (s.newProc np th k m).proc p = s.proc p := by simp [Kernel.newProc, hne]
  simp only [wp_bind, wp_get]
  refine getPgdir_wp (fun pd' hpd' => ?_) fun hnone => ?_
  swap
  · rw [hpp, hpd] at hnone
    cases hnone
  rw [hpp] at hpd' ⊢
  cases hpd.symm.trans hpd'
  rw [wp_onKmem]
  have hm' : ((s.newProc np th k m).kmem).free = m.free := rfl
  -- every page below the size is there, so the copy of the address space ends
  refine wp.mono (copyuvm_ends hhas (by omega)) (fun r m2 hr => ?_) fun _ he => he
  rcases hr with ⟨⟨d, rfl, -⟩, hm2⟩
  simp only [wp_bind, wp_setProc, wp_setCont]
  refine wp_ite (fun _ => ?_) fun _ => ?_
  -- another thread than the main thread: no siblings are copied
  · simp only [wp_bind, wp_setProc, mvProcToThread_wp, clearProc_wp, wp_pure]
    omega
  · simp only [wp_bind, mvProcToThread_wp]
    have hidx : ((s.newProc np th k m).proc np).thread_idx = th := by
      simp [Kernel.newProc, freshProc]
    rw [hidx]
    generalize hs1 : Kernel.setTh _ th _ = s1
    have hrest : ∀ j, j ≠ th → s1.pthread j = s.pthread j := by
      intro j hj
      subst hs1
      simp [Kernel.newProc, hj]
    have hp1 : s1.proc p = s.proc p := by
      subst hs1
      simp [Kernel.newProc, hne]
    have hnp1 : (s1.proc np).pid = s.nextpid := by
      subst hs1
      simp [Kernel.newProc, freshProc]
    have hth1 : (s1.pthread th).pid = s.nextpid := by
      subst hs1
      simp [Kernel.newProc, undress, freshProc]
    -- the child's own slot is none of those to copy
    have hlt := hids.proc_lt p
    have hle := @slotsOf_le s s1 th (s.proc p).pid (List.finRange NTHRD) hrest
      (by rw [hth1]; omega)
    have hfree := freeSlots_le hrest
    have hmem : s1.kmem = m2 := by
      subst hs1
      rfl
    refine wp.mono (forkThreads_ends (s := s1) ?_ ?_ ?_) (fun ok s2 hok => ?_) fun _ he => he
    · rw [hp1, hnp1]
      omega
    · rw [hp1]
      omega
    · rw [hp1, hmem]
      omega
    · rw [if_neg (by simp [hok]), wp_pure]
      omega

/-! ## Every run -/

/-- `fork` stops at a page that is not there. -/
def HoleFound (e : Stop) : Prop :=
  e = .panic "copyuvm: pte should exist" ∨ e = .panic "copyuvm: page not present"

/-- `fork`, called by a thread of `p` on the CPU, meets no hole, and succeeds if enough is
free. -/
structure ForkSafe (p : Pidx) (s : Kernel) : Prop where
  copies : wp (fork p) s (fun _ _ => True) fun e => ¬ HoleFound e
  succeeds : Room s p → Ends (fork p) s fun r _ => r ≠ -1

/-- In a run that gives no page below a size back no process has a hole, between the slices
and between the calls of each, and every `fork` is safe. -/
theorem fork_safe (hv : Visited KeepsPages s) : (∀ q, InUse s q → NoHole (s.proc q)) ∧
    ∀ p i k, OnCpu KeepsPages p i k s → ForkSafe p s := by
  constructor
  · intro q hq
    rcases hv with hr | ⟨p, i, k, h⟩
    · exact (full_slices.rests hr q hq).noHole
    · exact ((full_slices.runs h).2 q (.inr hq)).noHole
  · intro p i k h
    rcases full_slices.runs h with ⟨hw, hfull⟩
    refine ⟨?_, fun hroom => fork_ends hfull (ids_slices.runs h).2 hw.inUse hroom⟩
    refine wp.mono (fork_full hfull hw.inUse) (fun _ _ _ => trivial) fun e he hh => ?_
    unfold BadFree at he
    rcases hh with rfl | rfl <;> exact absurd he (by decide)

instance (s : Kernel) (x : Proc) (pid id t w : Nat) : Decidable (JoinsAbove s x pid id t w) :=
  inferInstanceAs (Decidable (∀ _, _ → _ → _))

instance (p : Pidx) (s : Kernel) (k : Cont) (c : Call) : Decidable (KeepsPages p s k c) :=
  inferInstanceAs (Decidable (_ ∧ _))

/-- The main thread creates threads 2 and 3, thread 2 exits, and is joined. -/
def joinBelow : List Label :=
  [⟨0, 0, .thread_create, 0, 0⟩, ⟨0, 0, .thread_create, 0, 0⟩, ⟨0, 1, .thread_exit 0, 0, 0⟩,
    ⟨0, 0, .thread_join 2 0, 0, 0⟩]

/-- Why code stopped, if it did. -/
def stopOf {α : Type} : Except Stop α → Option Stop
  | .ok _ => none
  | .error e => some e

/-- Its stack was below that of thread 3, and is a hole. -/
theorem fork_meets_hole : ∃ s, OnCpu anyCall 0 0 .user s ∧ ¬ ForkSafe 0 s := by
  have hrun : (run joinBelow).map (fun s => (stopOf ((fork 0).run (s.dressed 0 0)),
      decide (Pickable s 0 0), s.cont 0)) =
      some (some (.panic "copyuvm: page not present"), true, .user) := by decide +kernel
  rcases Option.map_eq_some_iff.1 hrun with ⟨s, hs, hv⟩
  simp only [Prod.mk.injEq, decide_eq_true_eq] at hv
  rcases hv with ⟨hstop, hpick, hk⟩
  refine ⟨s.dressed 0 0, hk ▸ run_onCpu hs hpick, fun hsafe => ?_⟩
  have hwp := hsafe.copies
  unfold stopOf at hstop
  unfold wp at hwp
  split at hstop
  · cases hstop
  · next e he =>
      rw [he] at hwp
      cases hstop
      exact hwp (.inr rfl)

/-- The main thread creates two threads, and goes on. -/
def createTwo : List Slice := [⟨⟨0, 0, .thread_create, 0, 0⟩, [.thread_create]⟩]

/-- It creates a third one, and may fork in the same slice. -/
theorem fork_safe_main : ∃ s, (s.proc 0).sz = PGSIZE * 7 ∧
    (∀ q, InUse s q → NoHole (s.proc q)) ∧ ForkSafe 0 s := by
  have hrun : ((start.bind fun s => Lib.exec (only sliceNext fun s a =>
        Each (KeepsPages a.p) a.p (s.dressed a.p a.i) (s.cont a.i) a.c a.rest) s createTwo).map
      fun s => (decide (Pickable s 0 0), s.cont 0,
        decide (KeepsPages 0 (s.dressed 0 0) .user .thread_create),
        (returned 0 .user .thread_create (s.dressed 0 0)).map fun s1 => (s1.proc 0).sz)) =
      some (true, .user, true, some (PGSIZE * 7)) := by decide +kernel
  rcases Option.map_eq_some_iff.1 hrun with ⟨s, hs, hv⟩
  rcases Option.bind_eq_some_iff.1 hs with ⟨s0, h0, hs⟩
  simp only [Prod.mk.injEq, decide_eq_true_eq] at hv
  rcases hv with ⟨hpick, hk, hok, hret⟩
  rcases Option.map_eq_some_iff.1 hret with ⟨s1, hs1, hsz⟩
  have hcpu := OnCpu.picked ((ReachOk.init (start_init h0)).exec_only hs) hpick
  rw [hk] at hcpu
  have hcpu1 := hcpu.returned hok rfl hs1
  have hsafe := fork_safe (.inr ⟨0, 0, _, hcpu1⟩)
  exact ⟨s1, hsz, hsafe.1, hsafe.2 0 0 _ hcpu1⟩

end Xv6.Thread
