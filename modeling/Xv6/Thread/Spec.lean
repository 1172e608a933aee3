import Mathlib.Logic.Function.Basic
import Xv6.Thread.System
import Xv6.Thread.VmSpec

/-!
# Rules for the code of Project02

The assignments reduce to updates of the state; the functions that every call
goes through have one rule each, with the state they leave written out.

* Updates: what a slot or a process is after an assignment to this one or to
  another, as simp lemmas;
* Searches: the first slot in a state, and the ways a search ends;
* Turns: a step of `next` from what its call does (`turn_wp`), and what makes it
  one (`next_some`);
* Time slices: the same for `sliceNext`, by induction on the calls of a slice
  (`calls_wp`). A slice of one call is a step of `next` (`sliceNext_one`);
* Runs of slices: what holds between the slices and between the calls of each
  (`SliceInv`), from what a call keeps.
-/

namespace Xv6.Thread

open Xv6.Lib Prog

variable {s : Kernel} {α : Type} {E : Stop → Prop}

/-! ## Updates -/

namespace Kernel

@[simp] theorem setProc_self (p : Pidx) (f : Proc → Proc) :
    (s.setProc p f).proc p = f (s.proc p) := by simp [setProc]

@[simp] theorem setProc_ne {p q : Pidx} (h : q ≠ p) (f : Proc → Proc) :
    (s.setProc p f).proc q = s.proc q := by simp [setProc, h]

@[simp] theorem setTh_self (i : Tidx) (f : Pthread → Pthread) :
    (s.setTh i f).pthread i = f (s.pthread i) := by simp [setTh]

@[simp] theorem setTh_ne {i j : Tidx} (h : j ≠ i) (f : Pthread → Pthread) :
    (s.setTh i f).pthread j = s.pthread j := by simp [setTh, h]

@[simp] theorem setCont_self (i : Tidx) (k : Cont) : (s.setCont i k).cont i = k := by
  simp [setCont]

@[simp] theorem setCont_ne {i j : Tidx} (h : j ≠ i) (k : Cont) :
    (s.setCont i k).cont j = s.cont j := by simp [setCont, h]

variable (p : Pidx) (i : Tidx) (f : Proc → Proc) (g : Pthread → Pthread) (k : Cont) (m : Kmem)

@[simp] theorem setProc_pthread : (s.setProc p f).pthread = s.pthread := rfl
@[simp] theorem setProc_cont : (s.setProc p f).cont = s.cont := rfl
@[simp] theorem setProc_nextpid : (s.setProc p f).nextpid = s.nextpid := rfl
@[simp] theorem setProc_initproc : (s.setProc p f).initproc = s.initproc := rfl
@[simp] theorem setProc_kmem : (s.setProc p f).kmem = s.kmem := rfl
@[simp] theorem setTh_proc : (s.setTh i g).proc = s.proc := rfl
@[simp] theorem setTh_cont : (s.setTh i g).cont = s.cont := rfl
@[simp] theorem setTh_nextpid : (s.setTh i g).nextpid = s.nextpid := rfl
@[simp] theorem setTh_initproc : (s.setTh i g).initproc = s.initproc := rfl
@[simp] theorem setTh_kmem : (s.setTh i g).kmem = s.kmem := rfl
@[simp] theorem setCont_proc : (s.setCont i k).proc = s.proc := rfl
@[simp] theorem setCont_pthread : (s.setCont i k).pthread = s.pthread := rfl
@[simp] theorem setCont_nextpid : (s.setCont i k).nextpid = s.nextpid := rfl
@[simp] theorem setCont_initproc : (s.setCont i k).initproc = s.initproc := rfl
@[simp] theorem setCont_kmem : (s.setCont i k).kmem = s.kmem := rfl
@[simp] theorem setKmem_proc : (s.setKmem m).proc = s.proc := rfl
@[simp] theorem setKmem_pthread : (s.setKmem m).pthread = s.pthread := rfl
@[simp] theorem setKmem_cont : (s.setKmem m).cont = s.cont := rfl
@[simp] theorem setKmem_nextpid : (s.setKmem m).nextpid = s.nextpid := rfl
@[simp] theorem setKmem_initproc : (s.setKmem m).initproc = s.initproc := rfl
@[simp] theorem setKmem_kmem : (s.setKmem m).kmem = m := rfl

theorem setKmem_setProc : (s.setProc p f).setKmem m = (s.setKmem m).setProc p f := rfl

theorem setKmem_setKmem (m' : Kmem) : (s.setKmem m).setKmem m' = s.setKmem m' := rfl

theorem setProc_setProc (f' : Proc → Proc) :
    (s.setProc p f).setProc p f' = s.setProc p (f' ∘ f) := by
  simp [setProc]

end Kernel

/-! ## Assignments -/

@[simp] theorem wp_setProc {p : Pidx} {f : Proc → Proc} {Q : Unit → Kernel → Prop} :
    wp (setProc p f) s Q E ↔ Q () (s.setProc p f) := by simp [setProc]

@[simp] theorem wp_setTh {i : Tidx} {f : Pthread → Pthread} {Q : Unit → Kernel → Prop} :
    wp (setTh i f) s Q E ↔ Q () (s.setTh i f) := by simp [setTh]

@[simp] theorem wp_setCont {i : Tidx} {k : Cont} {Q : Unit → Kernel → Prop} :
    wp (setCont i k) s Q E ↔ Q () (s.setCont i k) := by simp [setCont]

@[simp] theorem wp_setPgdir {p : Pidx} {pd : PageDir} {Q : Unit → Kernel → Prop} :
    wp (setPgdir p pd) s Q E ↔ Q () (s.setProc p fun x => { x with pgdir := some pd }) := by
  simp [setPgdir]

@[simp] theorem wp_halt {msg : String} {Q : α → Kernel → Prop} :
    wp (halt msg) s Q E ↔ E (.panic msg) := by simp [halt]

/-- A call on the page allocator, within the kernel. -/
@[simp] theorem wp_onKmem {x : KM α} {Q : α → Kernel → Prop} :
    wp (onKmem x) s Q E ↔ wp x s.kmem (fun a m => Q a (s.setKmem m)) E := by
  unfold onKmem wp StateT.run
  dsimp only
  cases x s.kmem with
  | ok r => rfl
  | error e => rfl

/-- The stack that is freed is not the caller's own, or the code stops. -/
theorem kfreeStack_wp {p : Pidx} {v : Nat} {Q : Unit → Kernel → Prop}
    (h : ∀ m, Gave s.kmem m v → (s.proc p).kstack ≠ v → Q () (s.setKmem m))
    (hE : ∀ e, BadFree e ∨ e = .stack → E e) : wp (kfreeStack p v) s Q E := by
  unfold kfreeStack
  rw [wp_bind, wp_onKmem]
  refine kfree_gave (fun m hg => ?_) fun e he => hE e (.inl he)
  rw [wp_bind, wp_get]
  exact wp_ite (fun _ => (wp_throw ..).2 (hE _ (.inr rfl))) fun hne => (wp_pure ..).2 (h m hg hne)

/-- A process without a page table faults. -/
theorem getPgdir_wp {p : Pidx} {Q : PageDir → Kernel → Prop}
    (hsome : ∀ pd, (s.proc p).pgdir = some pd → Q pd s)
    (hnone : (s.proc p).pgdir = none → E .fault) : wp (getPgdir p) s Q E := by
  unfold getPgdir
  simp only [wp_bind, wp_get]
  cases h : (s.proc p).pgdir with
  | none => exact (wp_throw ..).2 (hnone h)
  | some pd => exact (wp_pure ..).2 (hsome pd h)

/-- The state after `wakeup1`. -/
def Kernel.woken (s : Kernel) (c : Chan) : Kernel :=
  { s with pthread := fun i => wake c (s.pthread i) }

@[simp] theorem Kernel.woken_proc (c : Chan) : (s.woken c).proc = s.proc := rfl

@[simp] theorem wakeup1_wp {c : Chan} {Q : Unit → Kernel → Prop} :
    wp (wakeup1 c) s Q E ↔ Q () (s.woken c) := by
  simp [wakeup1, Kernel.woken]

/-- `sched` panics on a process that is `RUNNING`. -/
theorem sched_wp {p : Pidx} {Q : Unit → Kernel → Prop}
    (hE : (s.proc p).state = .RUNNING → E (.panic "sched running"))
    (h : (s.proc p).state ≠ .RUNNING → Q () s) : wp (sched p) s Q E := by
  unfold sched
  simp only [wp_bind, wp_get]
  refine wp_ite (fun hr => wp_halt.2 (hE hr)) fun hr => (wp_pure ..).2 (h hr)

/-- `J` holds where a call that goes on sleeps or gives up the CPU, and the sleepers of a
channel may have been woken before. -/
theorem inside_wp {p : Pidx} {k : Cont} {w z : Option Chan} {Q : Outcome → Kernel → Prop}
    (I J : Kernel → Prop) (hI : I s) (hchan : I (s.setProc p fun x => { x with chan := .null }))
    (hwake : ∀ s1, I s1 → J s1 ∧ ∀ c, w = some c → J (s1.woken c))
    (hsleep : ∀ s1 c, J s1 → z = some c → wp (sleep p c .sleep) s1 Q E)
    (hyield : ∀ s1, J s1 → z = none → wp (yieldInside p) s1 Q E) : wp (inside p k w z) s Q E := by
  have hrest : ∀ s1, I s1 → wp (inside p .user w z) s1 Q E := by
    intro s1 h1
    unfold inside
    rw [if_neg (not_not.2 rfl)]
    cases w with
    | some c =>
        simp only [wp_bind, wakeup1_wp]
        cases z with
        | some d => exact hsleep _ d ((hwake s1 h1).2 c rfl) rfl
        | none => exact hyield _ ((hwake s1 h1).2 c rfl) rfl
    | none =>
        cases z with
        | some d => exact hsleep s1 d (hwake s1 h1).1 rfl
        | none => exact hyield s1 (hwake s1 h1).1 rfl
  by_cases hk : k = .user
  · rw [hk]
    exact hrest s hI
  · have h := hrest _ hchan
    unfold inside at h ⊢
    rw [if_neg (not_not.2 rfl)] at h
    rw [if_pos hk, wp_bind, wp_setProc]
    exact h

/-! ## Searches -/

theorem findTh_some {f : Tidx → Bool} {i : Tidx} (h : findTh f = some i) : f i = true :=
  List.find?_some h

theorem findTh_none {f : Tidx → Bool} : findTh f = none ↔ ∀ i, f i = false := by
  simp [findTh]

theorem findTh_isNone {f : Tidx → Bool} : (findTh f).isNone = true ↔ ∀ i, f i = false := by
  rw [Option.isNone_iff_eq_none, findTh_none]

theorem findProc_some {f : Pidx → Bool} {p : Pidx} (h : findProc f = some p) : f p = true :=
  List.find?_some h

theorem findProc_none {f : Pidx → Bool} : findProc f = none ↔ ∀ p, f p = false := by
  simp [findProc]

/-! ## Slots -/

/-- A slot that `allocthread` has taken. -/
def freshTh (k : Nat) (t : Pthread) : Pthread :=
  { t with state := .EMBRYO, kstack := k, tf := tfAt k, context := contextAt k, retval := 0 }

/-- The first slot that `allocthread` finds free. -/
def freeTh (s : Kernel) : Option Tidx := findTh fun i => (s.pthread i).state = .UNUSED

theorem freeTh_some {i : Tidx} (h : freeTh s = some i) : (s.pthread i).state = .UNUSED := by
  simpa using findTh_some h

theorem freeTh_none (h : freeTh s = none) (i : Tidx) : (s.pthread i).state ≠ .UNUSED := by
  simpa using findTh_none.1 h i

/-- `allocthread` takes the first free slot, and frees it again where no page is left for
the kernel stack. -/
theorem allocthread_first {Q : Option Tidx → Kernel → Prop} (hfull : freeTh s = none → Q none s)
    (hmem : ∀ i, freeTh s = some i → s.kmem.free = 0 →
      Q none (s.setTh i fun t => { t with kstack := 0 }))
    (hsome : ∀ i k m, freeTh s = some i → Took s.kmem m k →
      Q (some i) ((s.setTh i (freshTh k)).setKmem m)) :
    wp allocthread s Q E := by
  unfold allocthread
  simp only [wp_bind, wp_get]
  cases hf : findTh fun i => (s.pthread i).state = .UNUSED with
  | none => exact (wp_pure ..).2 (hfull hf)
  | some i =>
      have hi : (s.pthread i).state = .UNUSED := freeTh_some hf
      simp only [wp_bind, wp_setTh, wp_onKmem, Kernel.setTh_kmem]
      refine kalloc_took (fun hm => ?_) fun k m hk => ?_
      · simp only [wp_bind, wp_setTh, wp_pure]
        have := hmem i hf hm
        convert this using 1
        simp only [Kernel.setTh, Kernel.setKmem, Function.update_self, Function.update_idem]
        rw [← hi]
      · simp only [wp_bind, wp_setTh, wp_pure]
        have := hsome i k m hf hk
        convert this using 1
        simp [Kernel.setTh, Kernel.setKmem, freshTh]

/-- The same with the slot that is taken, whichever it is. -/
theorem allocthread_took {Q : Option Tidx → Kernel → Prop}
    (hfull : (∀ i, (s.pthread i).state ≠ .UNUSED) → Q none s)
    (hmem : ∀ i, (s.pthread i).state = .UNUSED → s.kmem.free = 0 →
      Q none (s.setTh i fun t => { t with kstack := 0 }))
    (hsome : ∀ i k m, (s.pthread i).state = .UNUSED → Took s.kmem m k →
      Q (some i) ((s.setTh i (freshTh k)).setKmem m)) :
    wp allocthread s Q E :=
  allocthread_first (fun h => hfull (freeTh_none h)) (fun i h => hmem i (freeTh_some h))
    fun i k m h => hsome i k m (freeTh_some h)

/-- The slot that is taken gets a new id and a kernel stack. -/
theorem allocthread_wp {Q : Option Tidx → Kernel → Prop}
    (hfull : (∀ i, (s.pthread i).state ≠ .UNUSED) → Q none s)
    (hmem : ∀ i, (s.pthread i).state = .UNUSED → s.kmem.free = 0 →
      Q none (s.setTh i fun t => { t with kstack := 0 }))
    (hsome : ∀ i k m, (s.pthread i).state = .UNUSED → 0 < k → s.kmem.free = m.free + 1 →
      Q (some i) ((s.setTh i (freshTh k)).setKmem m)) :
    wp allocthread s Q E :=
  allocthread_took hfull hmem fun i k m hi hk => hsome i k m hi hk.pos hk.free

/-- A process that `allocproc` has set up. -/
def freshProc (pid k : Nat) (th : Tidx) (x : Proc) : Proc :=
  { x with
    state := .EMBRYO, pid := pid, kstack := k, tf := tfAt k, context := contextAt k, sz := 0
    memlimit := 0, thread_assign := 1, thread_idx := th, thread_id := MAINTH
    main_thread_idx := th, stacksz := 1, freed_sz := noFreed, parent_proc := none
    parent_pthread := none, joiner_pthread := some th }

/-- What `allocproc` leaves: process `p` with its first thread `th`. -/
def Kernel.newProc (s : Kernel) (p : Pidx) (th : Tidx) (k : Nat) (m : Kmem) : Kernel :=
  { ((s.setTh th fun t => { freshTh k t with pid := s.nextpid }).setProc p
      (freshProc s.nextpid k th)).setKmem m with nextpid := s.nextpid + 1 }

/-- `allocproc` takes the first free process and the first free slot. -/
theorem allocproc_found {Q : Option Pidx → Kernel → Prop}
    (hfull : (∀ p, (s.proc p).state ≠ .UNUSED) ∨ (∀ i, (s.pthread i).state ≠ .UNUSED) → Q none s)
    (hmem : ∀ p i, (s.proc p).state = .UNUSED → (s.pthread i).state = .UNUSED → s.kmem.free = 0 →
      Q none (s.setTh i fun t => { t with kstack := 0 }))
    (hsome : ∀ p th k m, (findProc fun q => (s.proc q).state = .UNUSED) = some p →
      (s.proc p).state = .UNUSED → (s.pthread th).state = .UNUSED → Took s.kmem m k →
        Q (some p) (s.newProc p th k m)) :
    wp allocproc s Q E := by
  unfold allocproc
  simp only [wp_bind, wp_get]
  cases hf : findProc fun p => (s.proc p).state = .UNUSED with
  | none => exact (wp_pure ..).2 (hfull (.inl fun p => by simpa using findProc_none.1 hf p))
  | some p =>
      have hp : (s.proc p).state = .UNUSED := by simpa using findProc_some hf
      dsimp only
      rw [wp_bind]
      refine allocthread_took (fun h => ?_) (fun i hi hm => ?_) fun th k m hth hk => ?_
      · exact (wp_pure ..).2 (hfull (.inr h))
      · exact (wp_pure ..).2 (hmem p i hp hi hm)
      · have hk0 : ¬ (((s.setTh th (freshTh k)).setKmem m).pthread th).kstack = 0 := by
          have := hk.pos
          simp [freshTh]
          omega
        simp only [wp_bind, wp_get, wp_set, wp_setProc, wp_setTh, hk0, if_false, wp_pure]
        have := hsome p th k m hf hp hth hk
        convert this using 1
        simp [Kernel.newProc, Kernel.setTh, Kernel.setProc, Kernel.setKmem, freshTh, freshProc]

/-- The same with the pair that is taken, whichever it is. -/
theorem allocproc_took {Q : Option Pidx → Kernel → Prop}
    (hfull : (∀ p, (s.proc p).state ≠ .UNUSED) ∨ (∀ i, (s.pthread i).state ≠ .UNUSED) → Q none s)
    (hmem : ∀ i, (s.pthread i).state = .UNUSED → s.kmem.free = 0 →
      Q none (s.setTh i fun t => { t with kstack := 0 }))
    (hsome : ∀ p th k m, (findProc fun q => (s.proc q).state = .UNUSED) = some p →
      (s.proc p).state = .UNUSED → (s.pthread th).state = .UNUSED → Took s.kmem m k →
        Q (some p) (s.newProc p th k m)) :
    wp allocproc s Q E :=
  allocproc_found hfull (fun _ i _ hi hm => hmem i hi hm) hsome

/-- The process that is taken gets a new pid and the slot as its main thread. -/
theorem allocproc_wp {Q : Option Pidx → Kernel → Prop}
    (hfull : (∀ p, (s.proc p).state ≠ .UNUSED) ∨ (∀ i, (s.pthread i).state ≠ .UNUSED) → Q none s)
    (hmem : ∀ i, (s.pthread i).state = .UNUSED → s.kmem.free = 0 →
      Q none (s.setTh i fun t => { t with kstack := 0 }))
    (hsome : ∀ p th k m, (findProc fun q => (s.proc q).state = .UNUSED) = some p →
      (s.proc p).state = .UNUSED → (s.pthread th).state = .UNUSED → 0 < k →
        s.kmem.free = m.free + 1 → Q (some p) (s.newProc p th k m)) :
    wp allocproc s Q E :=
  allocproc_took hfull hmem fun p th k m hf hp hth hk => hsome p th k m hf hp hth hk.pos hk.free

/-- What `exit` of process `p` leaves once the parents have been woken; `c` is
the `parent_pthread` of `initproc`. -/
def Kernel.exited (s : Kernel) (p : Pidx) (c : Option Tidx) : Kernel :=
  let s1 := Kernel.setProc { s with proc := fun q => adopt p s.initproc c (s.proc q) } p
    fun x => { x with state := .ZOMBIE }
  { s1 with pthread := fun i =>
      let t := s1.pthread i
      if t.pid = (s1.proc p).pid then { t with state := .THZOMBIE } else t }

/-- `exit` wakes the parent, and `init` where it leaves zombies to it, and switches out. -/
theorem exit_wp {p : Pidx} {Q : Outcome → Kernel → Prop}
    (h : ∀ c c', Q (.switch .user) ((s.woken c).exited p c') ∧
      ∀ c2, Q (.switch .user) (((s.woken c).woken c2).exited p c')) :
    wp (exit p) s Q fun _ => True := by
  unfold exit
  simp only [wp_bind, wp_get]
  refine wp_ite (fun _ => wp_halt.2 trivial) fun _ => ?_
  simp only [wp_bind, wakeup1_wp]
  refine wp_ite (fun _ => ?_) fun _ => ?_
  · simp only [wp_bind, wakeup1_wp, wp_modify, wp_setProc]
    exact sched_wp (fun _ => trivial) fun _ => (wp_pure ..).2 ((h _ _).2 _)
  · simp only [wp_bind, wp_modify, wp_setProc]
    exact sched_wp (fun _ => trivial) fun _ => (wp_pure ..).2 (h _ _).1

/-! ## Turns -/

/-- Thread `i` dressed as process `p`, about to run. -/
def Kernel.dressed (s : Kernel) (p : Pidx) (i : Tidx) : Kernel :=
  s.setProc p fun x =>
    { x with
      th_sz := (s.pthread i).th_sz, pid := (s.pthread i).pid, kstack := (s.pthread i).kstack
      state := .RUNNING, chan := (s.pthread i).chan, tf := (s.pthread i).tf
      context := (s.pthread i).context, thread_id := (s.pthread i).thread_id
      joiner_pthread := (s.pthread i).joiner_pthread, thread_idx := i }

/-- The variables of the thread that wears `x`, put into its slot. -/
def undress (p : Pidx) (x : Proc) (t : Pthread) : Pthread :=
  { t with
    th_sz := x.th_sz, pid := x.pid, kstack := x.kstack, state := x.state, chan := x.chan
    tf := x.tf, context := x.context, thread_id := x.thread_id
    joiner_pthread := x.joiner_pthread, ptable_idx := p }

/-- A process no thread wears. -/
def cleared (x : Proc) : Proc :=
  { x with state := if x.state ≠ .ZOMBIE then .RUNNABLE else x.state, chan := .null }

theorem mvProcToThread_wp {p : Pidx} {i : Tidx} {Q : Unit → Kernel → Prop} :
    wp (mvProcToThread p i) s Q E ↔ Q () (s.setTh i (undress p (s.proc p))) := by
  unfold mvProcToThread
  simp only [wp_bind, wp_get, wp_setTh]
  rfl

theorem clearProc_wp {p : Pidx} {Q : Unit → Kernel → Prop} :
    wp (clearProc p) s Q E ↔ Q () (s.setProc p cleared) := by
  unfold clearProc
  simp only [wp_setProc]
  rfl

/-- `switchuvm` panics without a kernel stack or a page table. -/
theorem switchuvm_wp {p : Pidx} {Q : Unit → Kernel → Prop} (h : Q () s)
    (hE1 : E (.panic "switchuvm: no kstack")) (hE2 : E (.panic "switchuvm: no pgdir")) :
    wp (switchuvm p) s Q E := by
  unfold switchuvm
  simp only [wp_bind, wp_get]
  refine wp_ite (fun _ => by simpa using hE1) fun _ => ?_
  exact wp_ite (fun _ => by simpa using hE2) fun _ => by simpa using h

/-- `switchTo` dresses the process in the thread that it picks. -/
theorem switchTo_wp {p : Pidx} {i : Tidx} {Q : Unit → Kernel → Prop} (h : Q () (s.dressed p i))
    (hE1 : E (.panic "switchuvm: no kstack")) (hE2 : E (.panic "switchuvm: no pgdir")) :
    wp (switchTo p i) s Q E := by
  unfold switchTo mvThreadToProc
  simp only [wp_bind, wp_get, wp_setProc]
  refine switchuvm_wp ?_ hE1 hE2
  rw [Kernel.setProc_setProc]
  exact h

/-- The thread goes back into its slot, to go on at `k`. -/
def Kernel.undressed (s : Kernel) (p : Pidx) (i : Tidx) (k : Cont) : Kernel :=
  ((s.setCont i k).setTh i (undress p (s.proc p))).setProc p cleared

/-- The state in which control goes back to the scheduler. -/
def Outcome.parked (s : Kernel) (p : Pidx) (ctx : Context) : Outcome → Kernel
  | .ret _ => s.setProc p fun x => { x with state := .RUNNABLE, context := ctx }
  | .switch _ => s.setProc p fun x => { x with context := ctx }

/-- Where the thread goes on. -/
def Outcome.cont : Outcome → Cont
  | .ret _ => .user
  | .switch k => k

/-- What a turn leaves that ended in state `s1`, with the outcome `r` of a call that
had begun at `k`. -/
def Label.left (a : Label) (s : Kernel) (k : Cont) (s1 : Kernel) (r : Outcome) : Kernel :=
  (r.parked s1 a.p (a.saved k (s.pthread a.i) r)).undressed a.p a.i r.cont

/-- The same where the turn was one call. -/
abbrev Label.after (a : Label) (s s1 : Kernel) (r : Outcome) : Kernel :=
  a.left s (s.cont a.i) s1 r

/-- `switchFrom` parks the thread and undresses the process. -/
theorem switchFrom_wp {p : Pidx} {i : Tidx} {ctx : Context} {r : Outcome}
    {Q : Unit → Kernel → Prop} :
    wp (switchFrom p i ctx r) s Q E ↔ Q () ((r.parked s p ctx).undressed p i r.cont) := by
  cases r with
  | ret r =>
      simp only [switchFrom, wp_bind, wp_setProc, wp_setCont, mvProcToThread_wp, clearProc_wp]
      rfl
  | switch k =>
      simp only [switchFrom, wp_bind, wp_setProc, wp_setCont, mvProcToThread_wp, clearProc_wp]
      rfl

/-- A turn is a call on the dressed process; its failures are those of the call
unless the process cannot be switched to. -/
theorem turn_wp {a : Label} {Q : Outcome → Kernel → Prop}
    (h : wp (call a.p (s.cont a.i) a.c) (s.dressed a.p a.i)
      (fun r s1 => Q r (a.after s s1 r)) E)
    (hE1 : E (.panic "switchuvm: no kstack")) (hE2 : E (.panic "switchuvm: no pgdir")) :
    wp (turn a) s Q E := by
  unfold turn
  simp only [wp_bind, wp_get]
  refine switchTo_wp ?_ hE1 hE2
  refine wp.mono h (fun r s' hr => ?_) fun _ he => he
  rw [switchFrom_wp]
  exact (wp_pure ..).2 hr

/-- A step is one turn of a thread that may be picked. -/
theorem next_some {s' : Kernel} {a : Label} (h : next s a = some s') :
    Enabled s a ∧ ∃ r, (turn a).run s = .ok (r, s') := by
  unfold next at h
  split at h
  · next he =>
      split at h
      · next r s1 hr =>
          cases h
          exact ⟨he, r, hr⟩
      · cases h
  · cases h

/-- What holds after the call of a step, and after going back to the scheduler. -/
theorem next_wp {s' : Kernel} {a : Label} {Q : Outcome → Kernel → Prop}
    (h : wp (call a.p (s.cont a.i) a.c) (s.dressed a.p a.i) Q fun _ => True)
    (hs : next s a = some s') : ∃ r s1, Q r s1 ∧ s' = a.after s s1 r := by
  rcases next_some hs with ⟨-, r, hrun⟩
  have hturn : wp (turn a) s (fun r s' => ∃ s1, Q r s1 ∧ s' = a.after s s1 r) fun _ => True :=
    turn_wp (wp.mono h (fun r s1 hr => ⟨s1, hr, rfl⟩) fun _ he => he) trivial trivial
  have hret := wp.of_ok hturn hrun
  rcases hret with ⟨s1, h1, h2⟩
  exact ⟨r, s1, h1, h2⟩

/-! ## Time slices -/

theorem returned_some {p : Pidx} {k : Cont} {c : Call} {s' : Kernel} {v : Int}
    (h : (call p k c).run s = .ok (.ret v, s')) : returned p k c s = some s' := by
  unfold returned
  rw [h]

/-- A call that has returned is one that the kernel made. -/
theorem of_returned {p : Pidx} {k : Cont} {c : Call} {s' : Kernel}
    (h : returned p k c s = some s') : ∃ v, (call p k c).run s = .ok (.ret v, s') := by
  unfold returned at h
  split at h
  · next v s1 hrun =>
      cases h
      exact ⟨v, hrun⟩
  · cases h

/-- `I` holds of the thread between its calls, and `J` when it gives up the CPU. -/
theorem calls_wp {p : Pidx} {k : Cont} {c : Call} {ds : List Call}
    {ok : Kernel → Cont → Call → Prop}
    (I : Kernel → Prop) (J : Cont → Outcome → Kernel → Prop)
    (hcall : ∀ s k c, I s → ok s k c → c.fits k = true →
      wp (call p k c) s (fun r s' => J k r s' ∧ ∀ v, r = .ret v → I s') E)
    (h : I s) (hok : Each ok p s k c ds) (hfit : c.fits k = true)
    (hrest : ∀ d ∈ ds, d.fits .user = true) :
    wp (calls p k c ds) s (fun x s' => J x.1 x.2 s') E := by
  induction ds generalizing s k c with
  | nil =>
      unfold calls
      rw [wp_bind]
      exact wp.mono (hcall s k c h hok hfit) (fun _ _ h1 => (wp_pure ..).2 h1.1) fun _ he => he
  | cons d ds ih =>
      rcases List.forall_mem_cons.1 hrest with ⟨hd, hds⟩
      unfold calls
      rw [wp_bind]
      refine (hcall s k c h hok.1 hfit).and_run.mono ?_ fun _ he => he
      rintro r s1 ⟨h1, hrun⟩
      cases r with
      | ret v => exact ih (h1.2 v rfl) (hok.2 s1 (returned_some hrun)) hd hds
      | switch k' => exact (wp_pure ..).2 h1.1

/-- What a call meets in every state. -/
theorem Each.of_calls {p : Pidx} {k : Cont} {c : Call} {ds : List Call}
    {ok : Kernel → Cont → Call → Prop} (hc : ∀ s k, ok s k c) (hds : ∀ d ∈ ds, ∀ s k, ok s k d) :
    Each ok p s k c ds := by
  induction ds generalizing s k c with
  | nil => exact hc s k
  | cons d ds ih =>
      rcases List.forall_mem_cons.1 hds with ⟨hd, hds⟩
      exact ⟨hc s k, fun _ _ => ih hd hds⟩

/-- What holds of every call of a slice, where `I` holds between the calls. -/
theorem Each.of_inv {p : Pidx} {k : Cont} {c : Call} {ds : List Call}
    {ok ok' : Kernel → Cont → Call → Prop} (I : Kernel → Prop)
    (hcall : ∀ s k c, I s → ok s k c → c.fits k = true →
      wp (call p k c) s (fun r s' => ∀ v, r = .ret v → I s') fun _ => True)
    (himp : ∀ s k c, I s → ok s k c → ok' s k c) (h : I s) (hok : Each ok p s k c ds)
    (hfit : c.fits k = true) (hrest : ∀ d ∈ ds, d.fits .user = true) :
    Each ok' p s k c ds := by
  induction ds generalizing s k c with
  | nil => exact himp s k c h hok
  | cons d ds ih =>
      rcases List.forall_mem_cons.1 hrest with ⟨hd, hds⟩
      refine ⟨himp s k c h hok.1, fun s1 hs1 => ?_⟩
      rcases of_returned hs1 with ⟨v, hrun⟩
      exact ih ((hcall s k c h hok.1 hfit).of_ok hrun v rfl) (hok.2 s1 hs1) hd hds

/-- A slice is calls on the dressed process. -/
theorem slice_wp {a : Slice} {Q : Outcome → Kernel → Prop}
    (h : wp (calls a.p (s.cont a.i) a.c a.rest) (s.dressed a.p a.i)
      (fun x s1 => Q x.2 (a.left s x.1 s1 x.2)) E)
    (hE1 : E (.panic "switchuvm: no kstack")) (hE2 : E (.panic "switchuvm: no pgdir")) :
    wp (slice a) s Q E := by
  unfold slice
  simp only [wp_bind, wp_get]
  refine switchTo_wp ?_ hE1 hE2
  refine wp.mono h (fun x s' hr => ?_) fun _ he => he
  rcases x with ⟨k, r⟩
  rw [switchFrom_wp]
  exact (wp_pure ..).2 hr

/-- A step of slices is one time slice of a thread that may be picked. -/
theorem sliceNext_some {s' : Kernel} {a : Slice} (h : sliceNext s a = some s') :
    a.Enabled s ∧ ∃ r, (slice a).run s = .ok (r, s') := by
  unfold sliceNext at h
  split at h
  · next he =>
      split at h
      · next r s1 hr =>
          cases h
          exact ⟨he, r, hr⟩
      · cases h
  · cases h

/-- What holds after the calls of a slice, and after going back to the scheduler. -/
theorem sliceNext_wp {s' : Kernel} {a : Slice} {Q : Cont → Outcome → Kernel → Prop}
    (h : wp (calls a.p (s.cont a.i) a.c a.rest) (s.dressed a.p a.i) (fun x s1 => Q x.1 x.2 s1)
      fun _ => True)
    (hs : sliceNext s a = some s') : ∃ k r s1, Q k r s1 ∧ s' = a.left s k s1 r := by
  rcases sliceNext_some hs with ⟨-, r, hrun⟩
  have hslice : wp (slice a) s (fun r s' => ∃ k s1, Q k r s1 ∧ s' = a.left s k s1 r)
      fun _ => True :=
    slice_wp (wp.mono h (fun x s1 hr => ⟨x.1, s1, hr, rfl⟩) fun _ he => he) trivial trivial
  rcases hslice.of_ok hrun with ⟨k, s1, h1, h2⟩
  exact ⟨k, r, s1, h1, h2⟩

/-- A slice of one call is a turn. -/
theorem slice_one (a : Label) : slice ⟨a, []⟩ = turn a := by
  unfold slice turn calls
  simp only [bind_assoc, pure_bind]

theorem sliceNext_one (a : Label) : sliceNext s ⟨a, []⟩ = next s a := by
  have hen : Slice.Enabled s ⟨a, []⟩ ↔ Enabled s a := by simp [Slice.Enabled]
  unfold sliceNext next
  rw [slice_one]
  simp only [hen]

/-- A run of single calls is one of slices. -/
theorem Reachable.slices {init : Kernel → Prop} (hr : Reachable init next s) :
    Reachable init sliceNext s := by
  induction hr with
  | init h => exact .init h
  | @step _ _ a _ _ hs ih => exact .step (a := ⟨a, []⟩) ih trivial ((sliceNext_one a).trans hs)

/-! ## Runs of slices -/

/-- The states between two slices, in the runs whose calls all meet `ok`. -/
abbrev CallsOk (ok : Pidx → Kernel → Cont → Call → Prop) : Kernel → Prop :=
  ReachOk Init sliceNext fun s a =>
    Each (ok a.p) a.p (s.dressed a.p a.i) (s.cont a.i) a.c a.rest

/-- Thread `i` of process `p` is on the CPU in such a run, and stands at `k`: the scheduler
has picked it, and the calls that it has made since have returned. -/
inductive OnCpu (ok : Pidx → Kernel → Cont → Call → Prop) (p : Pidx) (i : Tidx) :
    Cont → Kernel → Prop
  | picked {s : Kernel} (hr : CallsOk ok s) (hp : Pickable s p i) :
      OnCpu ok p i (s.cont i) (s.dressed p i)
  | returned {s s' : Kernel} {k : Cont} {c : Call} (h : OnCpu ok p i k s) (hok : ok p s k c)
      (hc : c.fits k = true) (hs : returned p k c s = some s') : OnCpu ok p i .user s'

/-- Any call. -/
abbrev anyCall (_ : Pidx) (_ : Kernel) (_ : Cont) (_ : Call) : Prop := True

/-- A state between two slices, or between two calls of a slice. -/
def Visited (ok : Pidx → Kernel → Cont → Call → Prop) (s : Kernel) : Prop :=
  CallsOk ok s ∨ ∃ p i k, OnCpu ok p i k s

/-- The calls of a run meet no condition. -/
theorem Reachable.anyCall (hr : Reachable Init sliceNext s) : CallsOk anyCall s :=
  hr.mono fun _ _ _ => Each.of_calls (fun _ _ => trivial) fun _ _ _ _ => trivial

/-- So it is for a run of single calls. -/
theorem Reachable.callsOk (hr : Reachable Init next s) : CallsOk Thread.anyCall s :=
  Reachable.anyCall (Reachable.slices hr)

/-- What such runs keep: `Rest` holds between the slices, `Run` of the thread on the CPU
between its calls, and `Back` when it gives up the CPU. -/
structure SliceInv (ok : Pidx → Kernel → Cont → Call → Prop) (Rest : Kernel → Prop)
    (Run Back : Pidx → Tidx → Kernel → Prop) : Prop where
  init : ∀ s, Init s → Rest s
  dress : ∀ s p i, Rest s → Pickable s p i → Run p i (s.dressed p i)
  call : ∀ s p i k c, Run p i s → ok p s k c → c.fits k = true →
    wp (call p k c) s (fun r s' => Back p i s' ∧ ∀ v, r = .ret v → Run p i s') fun _ => True
  left : ∀ s (a : Label) k s1 r, Back a.p a.i s1 → Rest (a.left s k s1 r)

namespace SliceInv

variable {ok : Pidx → Kernel → Cont → Call → Prop} {Rest : Kernel → Prop}
  {Run Back : Pidx → Tidx → Kernel → Prop}

/-- A slice keeps what its calls keep. -/
theorem step (h : SliceInv ok Rest Run Back) {a : Slice} {s' : Kernel} (hs0 : Rest s)
    (hok : Each (ok a.p) a.p (s.dressed a.p a.i) (s.cont a.i) a.c a.rest)
    (hs : sliceNext s a = some s') : Rest s' := by
  rcases (sliceNext_some hs).1 with ⟨⟨hp, hfit⟩, hrest⟩
  obtain ⟨k, r, s1, hback, rfl⟩ := sliceNext_wp (Q := fun _ _ s1 => Back a.p a.i s1)
    (calls_wp (Run a.p a.i) (fun _ _ s1 => Back a.p a.i s1)
      (fun s k c h1 hok1 hf => h.call s a.p a.i k c h1 hok1 hf) (h.dress s a.p a.i hs0 hp) hok hfit
      hrest) hs
  exact h.left s a.toLabel k s1 r hback

theorem rests (h : SliceInv ok Rest Run Back) (hr : CallsOk ok s) : Rest s :=
  hr.invariant Rest h.init fun _ _ _ hs0 hok hs => h.step hs0 hok hs

theorem runs (h : SliceInv ok Rest Run Back) {p : Pidx} {i : Tidx} {k : Cont}
    (hc : OnCpu ok p i k s) : Run p i s := by
  induction hc with
  | picked hr hp => exact h.dress _ p i (h.rests hr) hp
  | returned _ hok hc hs ih =>
      rcases of_returned hs with ⟨v, hrun⟩
      exact ((h.call _ p i _ _ ih hok hc).of_ok hrun).2 v rfl

/-- What holds between the slices and in them. -/
theorem visited {P : Kernel → Prop} (h : SliceInv ok P (fun _ _ => P) fun _ _ => P)
    (hv : Visited ok s) : P s := by
  rcases hv with hr | ⟨p, i, k, hc⟩
  · exact h.rests hr
  · exact h.runs hc

end SliceInv

/-- The `t` and `w` of the `thread_join` whose loop a call runs, if it does. -/
def joining (k : Cont) : Call → Option (Nat × Nat)
  | .thread_join t w => if t = MAINTH then none else some (t, w)
  | .resume w =>
      match k with
      | .join t => some (t, w)
      | _ => none
  | _ => none

/-- Whether a call is `thread_create`. -/
def Call.creates : Call → Bool
  | .thread_create => true
  | _ => false

/-- The argument of `sbrk`. -/
def Call.sbrks : Call → Option Int
  | .sbrk n => some n
  | _ => none

end Xv6.Thread
