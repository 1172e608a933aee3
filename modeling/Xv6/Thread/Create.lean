import Mathlib.Data.Multiset.AddSub
import Xv6.Thread.Effect

/-!
# A failed thread_create

Three functions share the work of `thread_create`, and only the first of them
cleans up behind itself. What fails in `allocthread` leaves nothing; whatever
fails in `pthread_exec` leaves a thread id used up, and in the slot that is given
back the pid of the caller and a kernel stack that nobody will free.

* `failed_create_iff`: for every state and every call that fails, it leaves no
  trace if and only if it fails in `allocthread`, with nothing to clear;
* `stack_lost`: a call beyond the memory limit loses a page.

A trace (`NoTrace`) is anything in the tables, or a page that is neither free nor
a page table of the process: `allocuvm` may keep those.
-/

namespace Xv6.Thread.Create

open Xv6.Lib Prog

variable {s s' : Kernel} {p : Pidx} {th : Tidx}

/-! ## What a call must not leave -/

/-- Page `v` is mapped in process `x`. -/
def Mapped (x : Proc) (v : Nat) : Prop := ∃ pd, x.pgdir = some pd ∧ pd.Has v

/-- The free pages and those that process `p` has for page tables. -/
def freeOrTables (s : Kernel) (p : Pidx) : Multiset Nat :=
  (s.kmem.pages : Multiset Nat) + ((s.proc p).pgdir.elim [] PageDir.utabs : List Nat)

/-- A call of a thread of process `p` has left no trace. -/
structure NoTrace (s s' : Kernel) (p : Pidx) : Prop where
  table : s'.pthread = s.pthread
  sz : (s'.proc p).sz = (s.proc p).sz
  freed_sz : (s'.proc p).freed_sz.toList = (s.proc p).freed_sz.toList
  thread_assign : (s'.proc p).thread_assign = (s.proc p).thread_assign
  mapped : ∀ v, Mapped (s'.proc p) v ↔ Mapped (s.proc p) v
  free : freeOrTables s' p = freeOrTables s p

theorem NoTrace.refl (s : Kernel) (p : Pidx) : NoTrace s s p :=
  ⟨rfl, rfl, rfl, rfl, fun _ => Iff.rfl, rfl⟩

/-- `allocthread` fails and has nothing to clear: there is no UNUSED thread slot, or
no free page, and the slot that is tried holds no old stack pointer. -/
def FailsFirst (s : Kernel) : Prop :=
  ∀ i, freeTh s = some i → s.kmem.freelist = [] ∧ (s.pthread i).kstack = 0

/-! ## A late failure -/

/-- What `pthread_exec` leaves when it fails: the process has lost nothing but memory. -/
structure Unstacked (p : Pidx) (s s' : Kernel) : Prop where
  table : s'.pthread = s.pthread
  proc : ∃ pd, s'.proc p = { s.proc p with pgdir := pd }

/-- Where `pthread_exec` fails, the memory may have grown, and nothing else has changed. -/
theorem pthread_exec_unstacked : wp (pthread_exec p th) s
    (fun ok s' => ok = false → Unstacked p s s') fun _ => True := by
  have hset : ∀ (pd : PageDir) (m : Kmem) (s1 : Kernel), Unstacked p s s1 →
      Unstacked p s ((s1.setKmem m).setProc p fun x => { x with pgdir := some pd }) := by
    rintro pd m s1 ⟨htable, pd1, hproc⟩
    refine ⟨htable, some pd, ?_⟩
    simp [hproc]
  have h0 : Unstacked p s s := ⟨rfl, (s.proc p).pgdir, rfl⟩
  unfold pthread_exec
  simp only [wp_bind, wp_get]
  refine wp_ite (fun _ => (wp_pure ..).2 fun _ => h0) fun _ => ?_
  rw [wp_bind]
  refine getPgdir_wp (fun pd _ => ?_) fun _ => trivial
  rw [wp_bind, wp_onKmem]
  refine wp_any fun r m => ?_
  simp only [wp_bind, wp_setPgdir]
  have h1 := hset r.1 m s h0
  -- the memory may have grown before the call fails
  refine wp_ite (fun _ => (wp_pure ..).2 fun _ => h1) fun _ => ?_
  rw [wp_bind, wp_onKmem]
  refine wp_any fun pd2 m2 => ?_
  simp only [wp_bind, wp_setPgdir, wp_onKmem]
  have h2 := hset pd2 m2 _ h1
  refine wp_any fun b m3 => ?_
  refine wp_ite (fun _ => (wp_pure ..).2 fun _ => ?_) fun _ => ?_
  · exact ⟨h2.table, h2.proc⟩
  · -- from here on the call succeeds
    cases (s.proc p).freed_sz.pop with
    | some q =>
        simp only [wp_bind, wp_setProc, wp_setTh, wp_pure]
        simp
    | none =>
        simp only [wp_bind, wp_setProc, wp_setTh, wp_pure]
        simp

/-- What is left when the stack cannot be made: slot `i` is UNUSED again, with the pid
of the caller and the kernel stack `k`, which is no longer free. -/
structure Leaves (s s' : Kernel) (p : Pidx) (i : Tidx) (k : Nat) : Prop where
  unused : (s'.pthread i).state = .UNUSED
  pid : (s'.pthread i).pid = (s.proc p).pid
  kstack : (s'.pthread i).kstack = k
  thread_assign : (s'.proc p).thread_assign = ((s.proc p).thread_assign + 1) % 2 ^ 32

/-- What a failing `thread_create` leaves: nothing, a slot without a stack, or a slot that
is free with its new fields. -/
theorem thread_create_failed : wp (thread_create p) s (fun r s' => r = none →
    FailsFirst s ∧ s' = s ∨
    (∃ i, freeTh s = some i ∧ s.kmem.freelist = [] ∧ (s.pthread i).kstack ≠ 0 ∧
      (s'.pthread i).kstack = 0) ∨
    ∃ i k, freeTh s = some i ∧ k ∈ s.kmem.pages ∧ Leaves s s' p i k) fun _ => True := by
  unfold thread_create pthread_fork
  simp only [wp_bind]
  refine allocthread_first (fun hfull => ?_) (fun i hi hm => ?_) fun i k m hi hk => ?_
  -- no free slot
  · refine (wp_pure ..).2 ((wp_pure ..).2 fun _ => Or.inl ⟨?_, rfl⟩)
    intro i hi
    cases hfull.symm.trans hi
  · -- no page: the slot keeps its fields but for the stack pointer
    refine (wp_pure ..).2 ((wp_pure ..).2 fun _ => ?_)
    have hnil : s.kmem.freelist = [] := List.length_eq_zero_iff.1 hm
    by_cases hz : (s.pthread i).kstack = 0
    · refine Or.inl ⟨?_, ?_⟩
      · intro j hj
        cases hi.symm.trans hj
        exact ⟨hnil, hz⟩
      · simp [Kernel.setTh, ← hz]
    · exact Or.inr (Or.inl ⟨i, hi, hnil, hz, by simp⟩)
  · simp only [wp_bind, wp_setProc, wp_get, wp_setTh, wp_pure]
    refine wp.mono pthread_exec_unstacked (fun ok s1 h1 => ?_) fun _ he => he
    -- no user stack: only the state of the slot is taken back
    refine wp_ite (fun hok => ?_) fun _ => ?_
    · simp only [wp_bind, wp_setTh, wp_pure]
      rcases h1 hok with ⟨htable, pd, hproc⟩
      refine fun _ => Or.inr (Or.inr ⟨i, k, hi, ?_, ?_⟩)
      · rw [hk.pages]
        simp
      · constructor
        · simp
        · simp [htable]
        · simp [htable, freshTh]
        · simp [hproc]
    -- the call succeeds
    · simp only [wp_bind, wp_get, wp_setTh, wp_setCont, wp_pure]
      simp

/-! ## The result -/

/-- **A failed thread_create leaves no trace if and only if it fails in `allocthread`**,
on a slot that holds no old stack pointer. -/
theorem failed_create_iff (s s' : Kernel) (p : Pidx)
    (h : (thread_create p).run s = .ok (none, s')) : NoTrace s s' p ↔ FailsFirst s := by
  rcases wp.of_ok thread_create_failed h rfl with
    ⟨hfirst, rfl⟩ | ⟨i, hi, hnil, hne, hz⟩ | ⟨i, k, hi, hk, hl⟩
  · constructor
    · intro _
      exact hfirst
    · intro _
      exact NoTrace.refl _ p
  · constructor
    · intro ht
      rw [ht.table] at hz
      exact absurd hz hne
    · intro hf
      exact absurd (hf i hi).2 hne
  · constructor
    · intro ht
      -- the thread id is used up
      have hassign := hl.thread_assign
      rw [ht.thread_assign] at hassign
      omega
    · intro hf
      rw [Kmem.pages, (hf i hi).1] at hk
      cases hk

/-- The state that a failed call leaves. -/
def failed (r : Except Stop (Option Nat × Kernel)) : Option Kernel :=
  match r with
  | .ok (none, s) => some s
  | _ => none

/-- A call that has failed returned no thread. -/
theorem failed_some {r : Except Stop (Option Nat × Kernel)} {s : Kernel} (h : failed r = some s) :
    r = .ok (none, s) := by
  unfold failed at h
  split at h
  · cases h
    rfl
  · cases h

/-- The state `s` when all pages have been handed out. -/
def exhausted (s : Kernel) : Kernel := s.setKmem { s.kmem with freelist := [] }

/-- The main thread creates a thread and forks; later, when others have taken the rest of
the memory, `thread_create` fails at once. -/
theorem failed_create_exhausted : ∃ s, Reachable Init next s ∧ Pickable s 0 0 ∧
    (s.pthread 1).state = .RUNNABLE ∧ (s.proc 1).state = .RUNNABLE ∧
      ∃ s', (thread_create 0).run (exhausted (s.dressed 0 0)) = .ok (none, s') ∧
        NoTrace (exhausted (s.dressed 0 0)) s' 0 := by
  have hrun : (run [⟨0, 0, .thread_create, 0, 0⟩, ⟨0, 0, .fork, 0, 0⟩]).map (fun s =>
      decide (Pickable s 0 0 ∧ (s.pthread 1).state = .RUNNABLE ∧ (s.proc 1).state = .RUNNABLE ∧
        (failed ((thread_create 0).run (exhausted (s.dressed 0 0)))).isSome = true ∧
          ∀ i ∈ freeTh (exhausted (s.dressed 0 0)), (s.pthread i).kstack = 0)) = some true := by
    decide +kernel
  rcases Option.map_eq_some_iff.1 hrun with ⟨s, hs, hv⟩
  rcases of_decide_eq_true hv with ⟨hpick, hth, hproc, hfail, hfree⟩
  rcases Option.isSome_iff_exists.1 hfail with ⟨s', hs'⟩
  refine ⟨s, run_reachable hs, hpick, hth, hproc, s', failed_some hs', ?_⟩
  exact (failed_create_iff _ _ _ (failed_some hs')).2 fun i hi => ⟨rfl, hfree i hi⟩

/-- The first process limits its memory to what it has and creates a thread: a kernel
stack is lost. -/
theorem stack_lost : ¬ ∀ s, Reachable Init next s → ∀ p i, Pickable s p i → ∀ s',
    (thread_create p).run (s.dressed p i) = .ok (none, s') → NoTrace (s.dressed p i) s' p := by
  intro hall
  have hrun : (run [⟨0, 0, .setmemorylimit 1 4096, 0, 0⟩]).map (fun s => (decide (Pickable s 0 0),
      (failed ((thread_create 0).run (s.dressed 0 0))).map fun s' => (s'.pthread 1).pid,
      (s.pthread 1).pid)) = some (true, some 1, 0) := by decide +kernel
  rcases Option.map_eq_some_iff.1 hrun with ⟨s, hs, hv⟩
  simp only [Prod.mk.injEq, decide_eq_true_eq, Option.map_eq_some_iff] at hv
  rcases hv with ⟨hpick, ⟨s', hf, hpid'⟩, hpid⟩
  have ht := hall s (run_reachable hs) 0 0 hpick s' (failed_some hf)
  have htable : (s'.pthread 1).pid = (s.pthread 1).pid := by
    rw [ht.table]
    rfl
  omega

end Xv6.Thread.Create
