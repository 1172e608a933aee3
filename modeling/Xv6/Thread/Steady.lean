import Xv6.Thread.Limit

/-!
# Sizes and free stacks

The size of a process and its queue of free stacks belong to the process: the
calls of other processes leave them alone, and of its own only `sbrk`, `exec`,
`exit`, `thread_create` and `thread_join` touch them. The counters of the queue
agree in every reachable state.

The results are lemmas for `Thread.Recycle`: `aligned_slices` for the counters,
and `reachable_joins` for where a thread that is not the main one can stand in the
kernel. Each is an induction over runs with one lemma for each call, most of which
leave all that is looked at alone.
-/

namespace Xv6.Thread.Steady

open Xv6.Lib Prog

variable {s s' : Kernel} {p q : Pidx} {X : Pidx → Prop} {α β : Type}

/-- A process that has been made and not yet taken apart. -/
def Alive (x : Proc) : Prop := x.state ≠ .UNUSED ∧ x.state ≠ .ZOMBIE

/-- The process lives on with its size and its stacks. -/
structure Stays (x y : Proc) : Prop where
  alive : Alive y
  sz : y.sz = x.sz
  stacksz : y.stacksz = x.stacksz
  freed_sz : y.freed_sz = x.freed_sz
  main : y.main_thread_idx = x.main_thread_idx
  th_sz : y.th_sz = x.th_sz
  thread_id : y.thread_id = x.thread_id

theorem Stays.refl {x : Proc} (h : Alive x) : Stays x x := ⟨h, rfl, rfl, rfl, rfl, rfl, rfl⟩

theorem Stays.trans {x y z : Proc} (h : Stays x y) (h' : Stays y z) : Stays x z :=
  ⟨h'.alive, h'.sz.trans h.sz, h'.stacksz.trans h.stacksz, h'.freed_sz.trans h.freed_sz,
    h'.main.trans h.main, h'.th_sz.trans h.th_sz, h'.thread_id.trans h.thread_id⟩

def Aligned (s : Kernel) : Prop := ∀ q, (s.proc q).freed_sz.Aligned

/-- No thread sleeps in a `thread_join` of a main thread. -/
def JoinsNoMain (s : Kernel) : Prop := ∀ j, s.cont j ≠ .join MAINTH

/-- Every live process outside of `X` stays, and the counters of all queues agree. -/
structure Leaves (X : Pidx → Prop) (s s' : Kernel) : Prop where
  stays : ∀ q, ¬ X q → Alive (s.proc q) → Stays (s.proc q) (s'.proc q)
  aligned : Aligned s → Aligned s'
  joins : JoinsNoMain s → JoinsNoMain s'

theorem Leaves.rfl' : Leaves X s s := ⟨fun _ _ h => .refl h, id, id⟩

theorem Leaves.trans {s1 s2 s3 : Kernel} (h : Leaves X s1 s2) (h' : Leaves X s2 s3) :
    Leaves X s1 s3 where
  stays := fun q hq ha => (h.stays q hq ha).trans (h'.stays q hq (h.stays q hq ha).alive)
  aligned := fun ha => h'.aligned (h.aligned ha)
  joins := fun hj => h'.joins (h.joins hj)

/-- In two steps, by way of `s2`. -/
theorem Leaves.via {s1 s3 : Kernel} (s2 : Kernel) (h : Leaves X s1 s2) (h' : Leaves X s2 s3) :
    Leaves X s1 s3 := h.trans h'

/-- A call that changes no process. -/
theorem Leaves.of_proc (h : s'.proc = s.proc) (hc : s'.cont = s.cont) : Leaves X s s' where
  stays := fun q _ ha => by
    rw [h]
    exact .refl ha
  aligned := fun ha q => by
    rw [h]
    exact ha q
  joins := fun hj j => by
    rw [hc]
    exact hj j

/-- A call that changes one process. -/
theorem Leaves.setProc {f : Proc → Proc} (hf :
      ¬ X p → Alive (s.proc p) → Stays (s.proc p) (f (s.proc p)))
    (ha : (s.proc p).freed_sz.Aligned → (f (s.proc p)).freed_sz.Aligned) :
    Leaves X s (s.setProc p f) where
  stays := fun q hq hal => by
    by_cases hqp : q = p
    · subst hqp
      rw [Kernel.setProc_self]
      exact hf hq hal
    · rw [Kernel.setProc_ne hqp]
      exact .refl hal
  aligned := fun hs q => by
    by_cases hqp : q = p
    · subst hqp
      rw [Kernel.setProc_self]
      exact ha (hs q)
    · rw [Kernel.setProc_ne hqp]
      exact hs q
  joins := id

theorem Leaves.wp_from {x : M α} {s1 : Kernel} (h : Leaves X s s1)
    (hx : Within (Leaves X) (fun _ => True) x) :
    wp x s1 (fun _ s' => Leaves X s s') fun _ => True :=
  wp.mono (hx s1) (fun _ _ h' => h.trans h') fun _ he => he

/-- The exempted process may be one that was not alive before. -/
theorem Leaves.narrow {np : Pidx} {s1 : Kernel} (h : Leaves X s s1) (hnp : ¬ Alive (s.proc np))
    (h' : Leaves (fun q => q = np ∨ X q) s1 s') : Leaves X s s' where
  stays := fun q hq ha => by
    have h1 := h.stays q hq ha
    have hne : q ≠ np := fun he => hnp (he ▸ ha)
    refine h1.trans (h'.stays q ?_ h1.alive)
    rintro (he | hX)
    · exact hne he
    · exact hq hX
  aligned := fun ha => h'.aligned (h.aligned ha)
  joins := fun hj => h'.joins (h.joins hj)

/-! ## Code -/

/-- Code that leaves the processes outside of `X` as they are. -/
def Spares (X : Pidx → Prop) (x : M α) : Prop := Within (Leaves X) (fun _ => True) x

section rules

variable {x : M α} {g : α → M β}

theorem Spares.bind (hx : Spares X x) (hg : ∀ a, Spares X (g a)) : Spares X (x >>= g) :=
  Within.bind (fun _ _ _ h h' => h.trans h') hx hg

theorem Spares.pure (a : α) : Spares X (pure a : M α) := Within.pure (fun _ => .rfl') a

theorem Spares.get : Spares X (get : M Kernel) := Within.get fun _ => .rfl'

theorem Spares.throw (e : Stop) : Spares X (throw e : M α) := Within.throw trivial

theorem Spares.ite {c : Prop} [Decidable c] {y : M α} (hx : c → Spares X x)
    (hy : ¬ c → Spares X y) :
    Spares X (if c then x else y) :=
  Within.ite hx hy

theorem Spares.onKmem (x : KM α) : Spares X (onKmem x) := by
  intro s
  rw [wp_onKmem]
  exact wp_any fun _ _ => .of_proc rfl rfl

theorem Spares.modify {f : Kernel → Kernel} (hf : ∀ s, (f s).proc = s.proc)
    (hc : ∀ s, (f s).cont = s.cont) : Spares X (modify f : M PUnit) :=
  Within.modify fun s => .of_proc (hf s) (hc s)

theorem Spares.setTh (i : Tidx) (f : Pthread → Pthread) : Spares X (setTh i f) :=
  Spares.modify (fun _ => rfl) fun _ => rfl

/-- A thread is set to go on anywhere but in a join of a main thread. -/
theorem Leaves.setCont {i : Tidx} {k : Cont} (hk : JoinsNoMain s → k ≠ .join MAINTH) :
    Leaves X s (s.setCont i k) where
  stays := fun _ _ ha => .refl ha
  aligned := id
  joins := fun hj j => by
    by_cases hji : j = i
    · subst hji
      simpa using hk hj
    · simpa [hji] using hj j

theorem Spares.setUser (i : Tidx) : Spares X (setCont i .user) :=
  Within.modify fun _ => .setCont fun _ => by decide

/-- Assigning to fields that play no part. -/
theorem Spares.setProc {f : Proc → Proc} (hf : ∀ x, Alive x → Stays x (f x))
    (ha : ∀ x, (f x).freed_sz = x.freed_sz) : Spares X (setProc p f) :=
  Within.modify fun s => .setProc (fun _ => hf _) fun h => by
    rw [ha]
    exact h

/-- Assigning to the fields of an exempted process. -/
theorem Spares.setOwn {f : Proc → Proc} (hX : X p)
    (ha : ∀ x, x.freed_sz.Aligned → (f x).freed_sz.Aligned) : Spares X (Thread.setProc p f) :=
  Within.modify fun _ => .setProc (fun h => absurd hX h) (ha _)

theorem Spares.setPgdir (pd : PageDir) : Spares X (setPgdir p pd) :=
  Spares.setProc (fun _ h => ⟨h, rfl, rfl, rfl, rfl, rfl, rfl⟩) fun _ => rfl

theorem Spares.getPgdir : Spares X (getPgdir p) := by
  refine Spares.bind Spares.get fun s => ?_
  cases (s.proc p).pgdir with
  | none => exact .throw _
  | some pd => exact .pure _

end rules

/-! ## Sleeping and waking -/

theorem wakeup1_spares (c : Chan) : Spares X (wakeup1 c) :=
    Spares.modify (fun _ => rfl) fun _ => rfl

theorem sched_spares : Spares X (sched p) :=
  Spares.bind Spares.get fun _ => Spares.ite (fun _ => .throw _) fun _ => .pure _

theorem sleep_spares (c : Chan) (k : Cont) : Spares X (sleep p c k) :=
  Spares.bind (Spares.setProc (fun _ _ => ⟨⟨by simp, by simp⟩, rfl, rfl, rfl, rfl, rfl, rfl⟩)
    fun _ => rfl)
    fun _ => Spares.bind sched_spares fun _ => .pure _

/-- A call into the rest of the kernel spares every process. -/
theorem inside_spares (k : Cont) (wakes sleeps : Option Chan) :
    Spares X (inside p k wakes sleeps) := by
  have hyield : Spares X (yieldInside p) :=
    Spares.bind (Spares.setProc (fun _ _ => ⟨⟨by simp, by simp⟩, rfl, rfl, rfl, rfl, rfl, rfl⟩)
      fun _ => rfl)
      fun _ => Spares.bind sched_spares fun _ => .pure _
  have hsleep : ∀ c, Spares X (sleep p c .sleep) := fun c => sleep_spares c _
  refine Spares.ite (fun _ => Spares.bind ?_ fun _ => ?_) fun _ => ?_
  · exact Spares.setProc (fun _ h => ⟨h, rfl, rfl, rfl, rfl, rfl, rfl⟩) fun _ => rfl
  · cases wakes <;> cases sleeps
    · exact hyield
    · exact hsleep _
    · exact (wakeup1_spares _).bind fun _ => hyield
    · exact (wakeup1_spares _).bind fun _ => hsleep _
  · cases wakes <;> cases sleeps
    · exact hyield
    · exact hsleep _
    · exact (wakeup1_spares _).bind fun _ => hyield
    · exact (wakeup1_spares _).bind fun _ => hsleep _

/-! ## Threads -/

theorem switchuvm_spares : Spares X (switchuvm p) := by
  refine Spares.bind Spares.get fun s => Spares.ite (fun _ => ?_) fun _ => ?_
  · exact (Spares.throw _).bind fun _ => Spares.ite (fun _ => .throw _) fun _ => .pure _
  · exact Spares.ite (fun _ => .throw _) fun _ => .pure _

/-- `growproc` changes its caller alone. -/
theorem growproc_spares {n : Int} (hX : X p) : Spares X (growproc p n) := by
  refine Spares.bind Spares.get fun s => Spares.ite (fun _ => .pure _) fun _ => ?_
  refine Spares.bind Spares.getPgdir fun pd => (Spares.onKmem _).bind fun r => ?_
  refine (Spares.setPgdir _).bind fun _ => Spares.ite (fun _ => .pure _) fun _ => ?_
  refine Spares.bind (Spares.setOwn hX ?_) fun _ => switchuvm_spares.bind fun _ => .pure _
  exact fun _ h => h

theorem allocthread_spares : Spares X allocthread := by
  intro s
  refine allocthread_wp (fun _ => .rfl') (fun _ _ _ => .of_proc rfl rfl) ?_
  intros
  exact .of_proc rfl rfl

/-- The queue that is popped is the one that was read. -/
theorem pthread_exec_spares {th : Tidx} (hX : X p) : Spares X (pthread_exec p th) := by
  intro s
  unfold pthread_exec
  simp only [wp_bind, wp_get]
  refine wp_ite (fun _ => (wp_pure ..).2 .rfl') fun _ => ?_
  rw [wp_bind]
  refine getPgdir_wp (E := fun _ => True) (fun pd _ => ?_) fun _ => trivial
  -- changing the caller is allowed, if its freed stacks stay page-aligned
  have hown : ∀ (m : Kmem) (f : Proc → Proc), ((s.proc p).freed_sz.Aligned →
      (f (s.proc p)).freed_sz.Aligned) → Leaves X s ((s.setKmem m).setProc p f) := fun m f hf =>
    Leaves.via (s.setKmem m) (.of_proc rfl rfl) (.setProc (fun h => absurd hX h) hf)
  rw [wp_bind, wp_onKmem]
  refine wp_any fun r m1 => ?_
  simp only [wp_bind, wp_setPgdir]
  refine wp_ite (fun _ => (wp_pure ..).2 (hown _ _ id)) fun _ => ?_
  rw [wp_bind, wp_onKmem]
  refine wp_any fun pd2 m2 => ?_
  simp only [wp_bind, wp_setPgdir, wp_onKmem]
  refine wp_any fun ok m3 => ?_
  simp only [Kernel.setKmem_setProc, Kernel.setKmem_setKmem, Kernel.setProc_setProc]
  refine wp_ite (fun _ => (wp_pure ..).2 (hown _ _ id)) fun _ => ?_
  -- a freed place is taken from the queue, or the stack goes on top
  cases hpop : (s.proc p).freed_sz.pop with
  | some x =>
      rcases x with ⟨v, r'⟩
      simp only [wp_bind, wp_setProc, wp_setTh, Kernel.setProc_setProc]
      refine (wp_pure ..).2 ((hown m3 _ fun h => ?_).trans (.of_proc rfl rfl))
      exact h.pop hpop
  | none =>
      simp only [wp_bind, wp_setProc, wp_setTh, Kernel.setProc_setProc]
      refine (wp_pure ..).2 ((hown m3 _ fun h => ?_).trans (.of_proc rfl rfl))
      exact h

/-- So does `thread_create`. -/
theorem thread_create_spares (hX : X p) : Spares X (thread_create p) := by
  have hfork : Spares X (pthread_fork p) := by
    refine Spares.bind allocthread_spares fun r => ?_
    cases r with
    | none => exact .pure _
    | some nth =>
        refine Spares.bind (Spares.setOwn hX fun _ h => h) fun _ => ?_
        exact Spares.bind Spares.get fun s => (Spares.setTh _ _).bind fun _ => .pure _
  refine hfork.bind fun r => ?_
  cases r with
  | none => exact .pure _
  | some th =>
      refine Spares.bind (pthread_exec_spares hX) fun ok => Spares.ite (fun _ => ?_) fun _ => ?_
      · exact (Spares.setTh _ _).bind fun _ => .pure _
      · exact Spares.bind Spares.get fun s => (Spares.setTh _ _).bind fun _ =>
          (Spares.setUser _).bind fun _ => .pure _

/-- `kill` changes no memory. -/
theorem kill_spares (pid : Int) : Spares X (kill pid) := by
  refine Spares.bind Spares.get fun s => ?_
  cases findProc fun p => (s.proc p).pid = pid with
  | none => exact .pure _
  | some q =>
      refine Spares.bind (Spares.setProc (fun x h => ?_) fun _ => rfl) fun _ => ?_
      · refine ⟨?_, rfl, rfl, rfl, rfl, rfl, rfl⟩
        by_cases hs : x.state = .SLEEPING
        · simp [Alive, hs]
        · simpa [Alive, hs] using h
      · exact Spares.bind (Spares.modify (fun _ => rfl) fun _ => rfl) fun _ => .pure _

/-- `thread_exit` changes no memory. -/
theorem thread_exit_spares (retval : Nat) : Spares X (thread_exit p retval) := by
  refine Spares.bind Spares.get fun s => Spares.ite (fun _ => ?_) fun _ => ?_
  · exact (kill_spares _).bind fun _ => (wakeup1_spares _).bind fun _ =>
      Spares.bind sched_spares fun _ => .pure _
  · refine (Spares.setTh _ _).bind fun _ => ?_
    refine Spares.bind (Spares.setProc (fun _ _ => ?_) fun _ => rfl) fun _ => ?_
    · exact ⟨⟨by simp, by simp⟩, rfl, rfl, rfl, rfl, rfl, rfl⟩
    · exact (wakeup1_spares _).bind fun _ => Spares.bind sched_spares fun _ => .pure _

theorem kfreeStack_spares (v : Nat) : Spares X (kfreeStack p v) :=
  (Spares.onKmem _).bind fun _ => Spares.bind Spares.get fun _ =>
    Spares.ite (fun _ => .throw _) fun _ => .pure _

/-- Freeing a zombie thread changes the process that joins it alone. -/
theorem reapThread_spares (hX : X p) (i : Tidx) : Spares X (reapThread p i) := by
  refine Spares.bind Spares.get fun s => ?_
  refine (kfreeStack_spares _).bind fun _ => (Spares.setTh _ _).bind fun _ => ?_
  refine Spares.bind (Spares.setOwn hX fun x h => h.push _) fun _ => ?_
  refine Spares.bind Spares.getPgdir fun pd => (Spares.onKmem _).bind fun r => ?_
  exact (Spares.setPgdir _).bind fun _ => (Spares.setTh _ _).bind fun _ => .pure _

/-- So does `thread_join`. -/
theorem joinScan_spares (hX : X p) (t w : Nat) : Spares X (joinScan p t w) := by
  refine Spares.bind Spares.get fun s => ?_
  dsimp only
  split
  · exact (reapThread_spares hX _).bind fun _ => .pure _
  · exact Spares.ite (fun _ => .pure _) fun _ => sleep_spares _ _

/-! ## Processes -/

theorem deleteThread_spares (th : Tidx) : Spares X (deleteThread p th) :=
  Spares.bind Spares.get fun _ => (kfreeStack_spares _).bind fun _ => Spares.setTh _ _

/-- Clearing slots changes no process. -/
theorem reapThreads_spares (pid : Nat) (ths : List Tidx) : Spares X (reapThreads p pid ths) := by
  induction ths with
  | nil => exact .pure _
  | cons th ths ih =>
      refine Spares.bind Spares.get fun s => Spares.ite (fun _ => ?_) fun _ => ih
      exact (deleteThread_spares th).bind fun _ => ih

theorem aligned_noFreed : noFreed.Aligned := ⟨by decide, rfl⟩

/-- `wait` takes nothing apart but a zombie. -/
theorem reapProc_spares {c : Pidx} (hz : (s.proc c).state = .ZOMBIE) :
    wp (reapProc p c) s (fun _ s' => Leaves X s s') fun _ => True := by
  have hclear : ∀ s1 : Kernel, Leaves (fun q => q = c ∨ X q) s1 (s1.setProc c fun x =>
      { x with
        parent_pthread := none, parent_proc := none, joiner_pthread := none, memlimit := 0
        thread_assign := 0, stacksz := 0, pid := 0, thread_idx := 0, sz := 0, state := .UNUSED
        chan := .null, killed := false, thread_id := 0, freed_sz := noFreed }) := by
    intro s1
    exact .setProc (fun h => absurd (.inl rfl) h) fun _ => aligned_noFreed
  have hdead : ¬ Alive (s.proc c) := fun h => h.2 hz
  unfold reapProc
  simp only [wp_bind, wp_get]
  refine (reapThreads_spares (X := X) _ _ s).mono (fun _ s1 h1 => ?_) fun _ _ => trivial
  cases (s.proc c).pgdir with
  | none => exact wp_halt.2 trivial
  | some pd =>
      rw [wp_bind, wp_onKmem]
      refine wp_any fun _ m => ?_
      rw [wp_setProc]
      refine Leaves.narrow h1 hdead (Leaves.via (s1.setKmem m) (.of_proc rfl rfl) (hclear _))

/-- `wait` changes a zombie alone. -/
theorem waitScan_spares : Spares X (waitScan p) := by
  intro s
  unfold waitScan
  simp only [wp_bind, wp_get]
  cases hf : findProc _ with
  | some c =>
      have hz := findProc_some hf
      simp only [Bool.decide_and, Bool.and_eq_true, decide_eq_true_eq] at hz
      simp only [wp_bind]
      exact (reapProc_spares hz.2).mono (fun _ _ h => (wp_pure ..).2 h) fun _ _ => trivial
  | none =>
      refine wp_ite (fun _ => (wp_pure ..).2 .rfl') fun _ => ?_
      exact sleep_spares _ _ s

/-- `exit` changes no memory. -/
theorem exit_spares (hX : X p) : Spares X (exit p) := by
  have hexited : ∀ (s : Kernel) (c : Option Tidx), Leaves X s (s.exited p c) := by
    intro s c
    have hadopt : Leaves X s { s with proc := fun q => adopt p s.initproc c (s.proc q) } := by
      refine ⟨fun q _ hal => ?_, fun ha q => ?_, id⟩
      · dsimp only
        unfold adopt
        split
        · exact ⟨hal, rfl, rfl, rfl, rfl, rfl, rfl⟩
        · exact .refl hal
      · dsimp only
        unfold adopt
        split
        · exact ha q
        · exact ha q
    refine hadopt.trans ?_
    refine Leaves.via (Kernel.setProc { s with proc := fun q => adopt p s.initproc c (s.proc q) } p
      fun x => { x with state := .ZOMBIE }) ?_ (.of_proc rfl rfl)
    refine .setProc (fun h => absurd hX h) fun h => h
  intro s
  refine exit_wp fun c c' => ⟨?_, fun c2 => ?_⟩
  · exact Leaves.via (s.woken c) (.of_proc rfl rfl) (hexited _ _)
  · exact Leaves.via ((s.woken c).woken c2) (.of_proc rfl rfl) (hexited _ _)

/-- `setmemorylimit` changes a limit alone. -/
theorem setmemorylimit_spares (pid limit : Int) : Spares X (setmemorylimit pid limit) := by
  refine Spares.ite (fun _ => .pure _) fun _ => Spares.bind Spares.get fun s => ?_
  cases findProc fun p => (s.proc p).pid = pid with
  | none => exact .pure _
  | some q =>
      refine Spares.ite (fun _ => .pure _) fun _ => Spares.bind ?_ fun _ => .pure _
      exact Spares.setProc (fun _ h => ⟨h, rfl, rfl, rfl, rfl, rfl, rfl⟩) fun _ => rfl

/-- Deleting the siblings changes no memory. -/
theorem deleteThreads_spares : Spares X (deleteThreads p) := by
  have hreparent : ∀ (th to' : Tidx), Spares X
      (modify (fun s => { s with proc := fun c => reparent th to' (s.proc c) }) : M PUnit) := by
    intro th to'
    refine Within.modify fun s => ⟨fun q _ hal => ?_, fun ha q => ?_, id⟩
    · dsimp only
      unfold reparent
      split
      · exact ⟨hal, rfl, rfl, rfl, rfl, rfl, rfl⟩
      · exact .refl hal
    · dsimp only
      unfold reparent
      split
      · exact ha q
      · exact ha q
  have hother : ∀ th, Spares X (deleteOther p th) := by
    intro th
    refine Spares.bind Spares.get fun s => Spares.ite (fun _ => ?_) fun _ => .pure _
    exact (hreparent _ _).bind fun _ => deleteThread_spares th
  have hothers : ∀ ths, Spares X (deleteOthers p ths) := by
    intro ths
    induction ths with
    | nil => exact .pure _
    | cons th ths ih => exact (hother th).bind fun _ => ih
  exact (hothers _).bind fun _ => Spares.setProc
    (fun _ h => ⟨h, rfl, rfl, rfl, rfl, rfl, rfl⟩) fun _ => rfl

/-- `exec` changes its caller alone. -/
theorem execWith_spares {elf : Option Elf} {argv : List Nat} {n : Nat} (hX : X p) :
    Spares X (execWith p elf argv n) := by
  refine (Spares.onKmem _).bind fun r => ?_
  cases r with
  | none => exact .pure _
  | some img =>
      refine Spares.bind deleteThreads_spares fun _ => Spares.bind Spares.getPgdir fun old => ?_
      refine Spares.bind (Spares.setOwn hX fun _ _ => aligned_noFreed) fun _ => ?_
      exact Spares.bind switchuvm_spares fun _ => (Spares.onKmem _).bind fun _ => .pure _

theorem exec2_spares {elf : Option Elf} {argv : List Nat} {n : Int} (hX : X p) :
    Spares X (exec2 p elf argv n) :=
  Spares.ite (fun _ => .pure _) fun _ => execWith_spares hX

/-! ## Fork -/

theorem mvProcToThread_spares (th : Tidx) : Spares X (mvProcToThread p th) :=
  Spares.bind Spares.get fun _ => Spares.setTh _ _

theorem clearProc_spares : Spares X (clearProc p) := by
  refine Spares.setProc (fun x h => ⟨?_, rfl, rfl, rfl, rfl, rfl, rfl⟩) fun _ => rfl
  by_cases hz : x.state = .ZOMBIE
  · simp [Alive, hz, h.2 hz]
  · simp [Alive, hz]

/-- Copying threads changes no process. -/
theorem forkThreads_spares {np : Pidx} (ths : List Tidx) : Spares X (forkThreads p np ths) := by
  have hone : ∀ th, Spares X (forkThread p np th) := by
    intro th
    refine Spares.bind Spares.get fun s => Spares.ite (fun _ => .pure _) fun _ => ?_
    refine Spares.bind allocthread_spares fun r => ?_
    cases r with
    | none =>
        refine Spares.bind (Spares.setProc ?_ fun _ => rfl) fun _ => .pure _
        exact fun _ h => ⟨h, rfl, rfl, rfl, rfl, rfl, rfl⟩
    | some nth =>
        -- the copy goes on where the copied thread stands
        intro s1
        simp only [wp_bind, wp_get, wp_setTh, wp_setCont, wp_pure]
        refine Leaves.via (s1.setTh nth _) (.of_proc rfl rfl) (.setCont fun hj => ?_)
        exact hj th
  induction ths with
  | nil => exact .pure _
  | cons th ths ih => exact (hone th).bind fun _ => Spares.ite (fun _ => .pure _) fun _ => ih

/-- The child has the sizes and the queue of its parent; it was not alive before. -/
theorem fork_spares : Spares X (fork p) := by
  intro s
  unfold fork
  rw [wp_bind]
  refine allocproc_wp (fun _ => (wp_pure ..).2 .rfl')
    (fun _ _ _ => (wp_pure ..).2 (.of_proc rfl rfl)) ?_
  intro np th k m _ hnp _ _ _
  have hdead : ¬ Alive (s.proc np) := fun h => h.1 hnp
  -- a process that is set up was not alive before
  have hnew : Leaves X s (s.newProc np th k m) := by
    refine Leaves.narrow (.rfl' (X := X)) hdead ?_
    refine Leaves.via ((s.setTh th fun t => { freshTh k t with pid := s.nextpid }).setProc np
      (freshProc s.nextpid k th)) ?_ (.of_proc rfl rfl)
    refine Leaves.via (s.setTh th fun t => { freshTh k t with pid := s.nextpid })
      (.of_proc rfl rfl) ?_
    exact .setProc (fun h => absurd (.inl rfl) h) fun _ => aligned_noFreed
  generalize s.newProc np th k m = s1 at hnew
  -- so whatever is done to it afterwards is allowed
  have hrest : ∀ s', Leaves (fun q => q = np ∨ X q) s1 s' → Leaves X s s' := fun s' h =>
    hnew.narrow hdead h
  dsimp only
  simp only [wp_bind, wp_get]
  refine getPgdir_wp (fun pd _ => ?_) fun _ => trivial
  rw [wp_onKmem]
  refine wp_any fun r m1 => ?_
  have hown : ∀ (s2 : Kernel) (f : Proc → Proc), ((s2.proc np).freed_sz.Aligned →
      (f (s2.proc np)).freed_sz.Aligned) →
      Leaves (fun q => q = np ∨ X q) s2 (s2.setProc np f) := fun s2 f hf =>
    .setProc (fun h => absurd (.inl rfl) h) hf
  cases r with
  | none =>
      simp only [wp_bind, wp_onKmem]
      -- no memory for the copy
      refine wp_any fun _ m2 => ?_
      rw [wp_setProc]
      refine (wp_pure ..).2 (hrest _ (Leaves.via ((s1.setKmem m1).setKmem m2)
        (.of_proc rfl rfl) ?_))
      exact hown _ _ id
  | some d =>
      have hchild : ∀ f : Proc → Proc, (∀ y, (f y).freed_sz = (s1.proc p).freed_sz) →
          Leaves (fun q => q = np ∨ X q) s1 ((s1.setKmem m1).setProc np f) := by
        intro f hf
        refine ⟨fun q hq hal => ?_, fun ha q => ?_, id⟩
        · have hne : q ≠ np := fun he => hq (.inl he)
          rw [Kernel.setProc_ne hne]
          exact .refl hal
        · by_cases hq : q = np
          · subst hq
            rw [Kernel.setProc_self, hf]
            exact ha p
          · rw [Kernel.setProc_ne hq]
            exact ha q
      rw [wp_bind, wp_setProc]
      refine wp.mono (Leaves.wp_from ?_ (Spares.bind (Spares.setUser _) fun _ => ?_))
        (fun _ s' h => hrest s' h) fun _ he => he
      · exact hchild _ fun _ => rfl
      refine Spares.ite (fun _ => ?_) fun _ => ?_
      · refine Spares.bind (Spares.setOwn (.inl rfl) fun _ h => h) fun _ => ?_
        exact (mvProcToThread_spares _).bind fun _ => Spares.bind clearProc_spares fun _ => .pure _
      · refine (mvProcToThread_spares _).bind fun _ => (forkThreads_spares _).bind fun _ => ?_
        exact Spares.ite (fun _ => .pure _) fun _ => .pure _

/-! ## Runs -/

/-- Whether a call of a thread that stands at `k` touches the sizes of its process. -/
def touches (k : Cont) : Call → Bool
  | .thread_create | .thread_join _ _ | .sbrk _ | .exit | .exec _ _ | .exec2 _ _ _ => true
  | .resume _ => (joining k (.resume 0)).isSome
  | _ => false

/-- Every call spares the processes that it does not touch, one case each. -/
theorem call_spares {k : Cont} {c : Call} (h : touches k c = true → X p) :
    Spares X (call p k c) := by
  cases c with
  | yield => exact .pure _
  | sleep c => exact sleep_spares c _
  | wakeup c => exact (wakeup1_spares c).bind fun _ => .pure _
  | inside wakes sleeps => exact inside_spares k wakes sleeps
  | thread_create =>
      refine Spares.bind (thread_create_spares (h rfl)) fun r => ?_
      cases r <;> exact .pure _
  | thread_exit retval => exact thread_exit_spares retval
  | thread_join t w => exact Spares.ite (fun _ => .pure _) fun _ => joinScan_spares (h rfl) t w
  | sbrk n => exact Spares.bind (growproc_spares (h rfl)) fun _ => .pure _
  | fork => exact Spares.bind fork_spares fun _ => .pure _
  | exit => exact exit_spares (h rfl)
  | wait => exact waitScan_spares
  | exec elf argv => exact (execWith_spares (h rfl)).bind fun _ => .pure _
  | exec2 elf argv n => exact Spares.bind (exec2_spares (h rfl)) fun _ => .pure _
  | kill pid => exact (kill_spares pid).bind fun _ => .pure _
  | setmemorylimit pid limit => exact (setmemorylimit_spares pid limit).bind fun _ => .pure _
  | resume w =>
      refine Spares.bind (Spares.setProc (fun _ h => ⟨h, rfl, rfl, rfl, rfl, rfl, rfl⟩) fun _ =>
        rfl) fun _ => ?_
      cases k with
      | user => exact .pure _
      | sleep => exact .pure _
      | join t => exact joinScan_spares (h rfl) t w
      | wait => exact waitScan_spares

/-- The scheduler leaves the freed stacks alone. -/
theorem Aligned.dressed {i : Tidx} (h : Aligned s) : Aligned (s.dressed p i) := by
  intro q
  by_cases hq : q = p
  · subst hq
    simpa [Kernel.dressed] using h q
  · simpa [Kernel.dressed, hq] using h q

theorem Aligned.left {a : Label} {s1 : Kernel} {k : Cont} {r : Outcome} (h : Aligned s1) :
    Aligned (a.left s k s1 r) := by
  intro q
  by_cases hq : q = a.p
  · subst hq
    cases r <;> simpa [Label.left, Outcome.parked, Kernel.undressed, cleared] using h a.p
  · cases r <;> simpa [Label.left, Outcome.parked, Kernel.undressed, hq] using h q

/-! ## Where a thread goes on -/

/-- The call does not end in a join of a main thread. -/
def NotMain (r : Outcome) (_ : Kernel) : Prop := r.cont ≠ .join MAINTH

theorem sleep_notMain {c : Chan} {k : Cont} (hk : k ≠ .join MAINTH) :
    wp (sleep p c k) s NotMain fun _ => True := by
  unfold sleep
  simp only [wp_bind, wp_setProc]
  exact sched_wp (fun _ => trivial) fun _ => (wp_pure ..).2 hk

/-- A join of another thread does not begin to wait for the main thread. -/
theorem joinScan_notMain {t w : Nat} (ht : t ≠ MAINTH) :
    wp (joinScan p t w) s NotMain fun _ => True := by
  unfold joinScan
  simp only [wp_bind, wp_get]
  cases findTh _ with
  | some i =>
      rw [wp_bind]
      exact wp_any fun _ _ => (wp_pure ..).2 (by simp [NotMain, Outcome.cont])
  | none =>
      refine wp_ite (fun _ => (wp_pure ..).2 (by simp [NotMain, Outcome.cont])) fun _ => ?_
      exact sleep_notMain (by simpa using ht)

/-- Nor does `wait`. -/
theorem waitScan_notMain : wp (waitScan p) s NotMain fun _ => True := by
  unfold waitScan
  simp only [wp_bind, wp_get]
  cases findProc _ with
  | some i =>
      rw [wp_bind]
      exact wp_any fun _ _ => (wp_pure ..).2 (by simp [NotMain, Outcome.cont])
  | none =>
      refine wp_ite (fun _ => (wp_pure ..).2 (by simp [NotMain, Outcome.cont])) fun _ => ?_
      exact sleep_notMain (by simp)

/-- No call begins to wait for a main thread. -/
theorem call_notMain {k : Cont} {c : Call} (hk : k ≠ .join MAINTH) :
    wp (call p k c) s NotMain fun _ => True := by
  have hret : ∀ {α : Type} (x : M α) (f : α → Int),
      wp (do return Outcome.ret (f (← x))) s NotMain fun _ => True := by
    intro α x f
    rw [wp_bind]
    exact wp_any fun _ _ => (wp_pure ..).2 (by simp [NotMain, Outcome.cont])
  -- only a join goes to sleep in a join
  cases c with
  | yield => exact (wp_pure ..).2 (by simp [NotMain, Outcome.cont])
  | sleep c => exact sleep_notMain (by simp)
  | wakeup c => exact hret (wakeup1 c) fun _ => 0
  | inside w z =>
      refine inside_wp (fun _ => True) (fun _ => True) trivial trivial
        (fun _ _ => ⟨trivial, fun _ _ => trivial⟩)
        (fun s1 c _ _ => sleep_notMain (by simp)) fun s1 _ _ => ?_
      unfold yieldInside
      simp only [wp_bind, wp_setProc]
      exact sched_wp (fun _ => trivial) fun _ => (wp_pure ..).2 (by simp [NotMain, Outcome.cont])
  | thread_create =>
      unfold call
      rw [wp_bind]
      refine wp_any fun r _ => ?_
      cases r <;> exact (wp_pure ..).2 (by simp [NotMain, Outcome.cont])
  | thread_exit retval =>
      unfold call thread_exit
      simp only [wp_bind, wp_get]
      refine wp_ite (fun _ => ?_) fun _ => ?_
      · rw [wp_bind]
        refine wp_any fun _ _ => ?_
        simp only [wp_bind, wakeup1_wp]
        exact sched_wp (fun _ => trivial) fun _ => (wp_pure ..).2 (by simp [NotMain, Outcome.cont])
      · simp only [wp_bind, wp_setTh, wp_setProc, wakeup1_wp]
        exact sched_wp (fun _ => trivial) fun _ => (wp_pure ..).2 (by simp [NotMain, Outcome.cont])
  | thread_join t w =>
      unfold call thread_join
      exact wp_ite (fun _ => (wp_pure ..).2 (by simp [NotMain, Outcome.cont])) fun ht =>
        joinScan_notMain ht
  | sbrk n => exact hret (growproc p n) id
  | fork => exact hret (fork p) id
  | exit => exact exit_wp fun _ _ => ⟨by simp [NotMain, Outcome.cont], fun _ =>
    by simp [NotMain, Outcome.cont]⟩
  | wait => exact waitScan_notMain
  | exec elf argv => exact hret (exec p elf argv) id
  | exec2 elf argv n => exact hret (exec2 p elf argv n) id
  | kill pid => exact hret (kill pid) id
  | setmemorylimit pid limit => exact hret (setmemorylimit pid limit) id
  | resume w =>
      unfold call resume
      rw [wp_bind, wp_setProc]
      cases k with
      | user => exact (wp_pure ..).2 (by simp [NotMain, Outcome.cont])
      | sleep => exact (wp_pure ..).2 (by simp [NotMain, Outcome.cont])
      | join t => exact joinScan_notMain (by simpa using hk)
      | wait => exact waitScan_notMain

/-- So nobody ever waits for one. -/
theorem slice_joins {a : Slice} (h : JoinsNoMain s) (hs : sliceNext s a = some s') :
    JoinsNoMain s' := by
  rcases (sliceNext_some hs).1 with ⟨⟨-, hfit⟩, hrest⟩
  -- the first call goes on where the thread stood, and the others come from user code
  have hok : ∀ (ds : List Call) (s : Kernel) (k : Cont) (c : Call), k ≠ .join MAINTH →
      Each (fun _ k _ => k ≠ .join MAINTH) a.p s k c ds := by
    intro ds
    induction ds with
    | nil => exact fun _ _ _ hk => hk
    | cons d ds ih => exact fun _ _ _ hk => ⟨hk, fun s1 _ => ih s1 .user d (by simp)⟩
  have hcalls := calls_wp (p := a.p) JoinsNoMain (fun _ r s1 => JoinsNoMain s1 ∧ NotMain r s1)
    (E := fun _ => True) (fun s1 k c h1 hk _ =>
      ((call_spares (X := fun _ => True) (fun _ => trivial) s1).and (call_notMain hk)).mono
        (fun r s2 h2 => ⟨⟨h2.1.joins h1, h2.2⟩, fun _ _ => h2.1.joins h1⟩) fun _ he => he)
    (show JoinsNoMain (s.dressed a.p a.i) from h) (hok a.rest _ _ a.c (h a.i)) hfit hrest
  obtain ⟨k, r, s1, ⟨hjoins, hr⟩, rfl⟩ :=
    sliceNext_wp (Q := fun _ r s1 => JoinsNoMain s1 ∧ NotMain r s1) hcalls hs
  intro j
  by_cases hj : j = a.i
  · rw [hj]
    cases r <;> simpa [Label.left, Outcome.parked, Kernel.undressed, NotMain] using hr
  · cases r <;> simpa [Label.left, Outcome.parked, Kernel.undressed, hj] using hjoins j

/-- The first process has freed no stack. -/
theorem Started.aligned {th : Tidx} (h : Started p th s) : Aligned s := by
  intro q
  by_cases hq : q = p
  · subst hq
    rcases h.proc with ⟨pd, k, -, -, hproc⟩
    rw [hproc]
    exact aligned_noFreed
  · rw [h.other q hq]
    exact aligned_noFreed

/-- Every run keeps the freed stacks page-aligned. -/
theorem aligned_slices : SliceInv anyCall Aligned (fun _ _ => Aligned) fun _ _ => Aligned where
  init := fun s h0 => by
    rcases h0.started with ⟨p, th, h⟩
    exact Started.aligned h
  dress := fun s p i h _ => h.dressed
  call := fun s p i k c h _ _ => by
    have hcall : Spares (fun _ => True) (call p k c) := call_spares fun _ => trivial
    exact (hcall s).mono (fun r s1 h1 => ⟨h1.aligned h, fun _ _ => h1.aligned h⟩) fun _ he => he
  left := fun s a k s1 r h => h.left

/-- In every reachable state nobody waits for a main thread. -/
theorem reachable_joins (hr : Reachable Init sliceNext s) : JoinsNoMain s := by
  refine ReachOk.invariant JoinsNoMain (fun s0 h0 j => ?_)
    (fun s0 a s1 h _ hs => slice_joins h hs) hr
  rcases h0.started with ⟨p, th, h⟩
  rw [h.cont]
  decide

end Xv6.Thread.Steady
