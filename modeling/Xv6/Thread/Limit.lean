import Xv6.Thread.Boot

/-!
# The memory limit

`growproc` and `pthread_exec` compare a sum of unsigned numbers with the limit. The
sum of `pthread_exec` never wraps, since no process is larger than the user half of
the address space and no stack has more than a hundred pages; where the sum of
`growproc` wraps, the size does not grow.

`memlimit_never_exceeded` says of every reachable state that no process with a
limit is larger than it. The invariant (`AllBounded`) bounds the sizes and the stack
sizes of all processes as well, which `Thread.Recycle` and `Thread.Syscall` use.
`exec` makes a new size without a look at the limit, and resets it.
-/

namespace Xv6.Thread

open Xv6.Lib Prog

variable {s : Kernel} {p : Pidx} {α β : Type}

/-! ## The invariant -/

/-- The size of a process is within the limits. -/
structure Bounded (x : Proc) : Prop where
  sz : x.sz ≤ KERNBASE
  stacksz : x.stacksz ≤ 100
  limit : x.memlimit ≠ 0 → x.sz ≤ x.memlimit

def AllBounded (s : Kernel) : Prop := ∀ q, Bounded (s.proc q)

/-- The process has no limit. -/
theorem Bounded.unlimited {x : Proc} (hsz : x.sz ≤ KERNBASE) (hstack : x.stacksz ≤ 100)
    (hlimit : x.memlimit = 0) : Bounded x :=
  ⟨hsz, hstack, fun h => absurd hlimit h⟩

/-- Changing one process within its limit. -/
theorem AllBounded.setProc (h : AllBounded s) {f : Proc → Proc} (hf : Bounded (f (s.proc p))) :
    AllBounded (s.setProc p f) := by
  intro q
  by_cases hq : q = p
  · subst hq
    rw [Kernel.setProc_self]
    exact hf
  · rw [Kernel.setProc_ne hq]
    exact h q

theorem AllBounded.setTh (h : AllBounded s) {i : Tidx} {f : Pthread → Pthread} :
    AllBounded (s.setTh i f) := h

/-- Code that leaves every process within the limits. -/
def Keeps (x : M α) : Prop := Within (fun s s' => AllBounded s → AllBounded s') (fun _ => True) x

section rules

variable {x : M α} {g : α → M β}

theorem Keeps.bind (hx : Keeps x) (hg : ∀ a, Keeps (g a)) : Keeps (x >>= g) :=
  Within.bind (fun _ _ _ h h' hs => h' (h hs)) hx hg

theorem Keeps.pure (a : α) : Keeps (pure a : M α) := Within.pure (fun _ h => h) a

theorem Keeps.get : Keeps (get : M Kernel) := Within.get fun _ h => h

theorem Keeps.throw (e : Stop) : Keeps (throw e : M α) := Within.throw trivial

theorem Keeps.ite {c : Prop} [Decidable c] {y : M α} (hx : c → Keeps x) (hy : ¬ c → Keeps y) :
    Keeps (if c then x else y) := Within.ite hx hy

/-- Whatever is proved of every bounded state. -/
theorem Keeps.of_wp (h : ∀ t, AllBounded t → wp x t (fun _ => AllBounded) fun _ => True) :
    Keeps x := by
  intro s
  by_cases hs : AllBounded s
  · exact wp.mono (h _ hs) (fun _ _ h' _ => h') fun _ he => he
  · exact wp_any fun _ _ h' => absurd h' hs

/-- What is read is within the limits. -/
theorem Keeps.get_bind {g : Kernel → M β} (hg : ∀ s, AllBounded s → Keeps (g s)) :
    Keeps (Bind.bind MonadState.get g) := by
  apply Keeps.of_wp
  intro s hs
  rw [wp_bind]
  refine (wp_get ..).2 (wp.mono (hg s hs s) ?_ fun _ he => he)
  intro _ _ h
  exact h hs

theorem Keeps.onKmem (x : KM α) : Keeps (onKmem x) := by
  intro s
  rw [wp_onKmem]
  exact wp_any fun _ _ h => h

theorem Keeps.setProc {f : Proc → Proc} (hf : ∀ x, Bounded x → Bounded (f x)) :
    Keeps (setProc p f) :=
  Within.modify fun _ h => AllBounded.setProc h (hf _ (h p))

/-- Assigning to fields that the limits are not about. -/
theorem Keeps.setOther {f : Proc → Proc}
    (hf : ∀ x, (f x).sz = x.sz ∧ (f x).stacksz = x.stacksz ∧ (f x).memlimit = x.memlimit) :
    Keeps (Thread.setProc p f) := by
  apply Keeps.setProc
  intro x hx
  rcases hf x with ⟨hsz, hstack, hlimit⟩
  refine ⟨?_, ?_, ?_⟩
  · rw [hsz]
    exact hx.sz
  · rw [hstack]
    exact hx.stacksz
  · rw [hsz, hlimit]
    exact hx.limit

theorem Keeps.setTh (i : Tidx) (f : Pthread → Pthread) : Keeps (setTh i f) :=
  Within.modify fun _ h => h

theorem Keeps.setCont (i : Tidx) (k : Cont) : Keeps (setCont i k) := Within.modify fun _ h => h

theorem Keeps.setPgdir (pd : PageDir) : Keeps (setPgdir p pd) :=
  Keeps.setOther (by simp)

theorem Keeps.getPgdir : Keeps (getPgdir p) := by
  refine Keeps.bind Keeps.get fun s => ?_
  cases (s.proc p).pgdir with
  | none => exact .throw _
  | some pd => exact .pure _

theorem Keeps.modify {f : Kernel → Kernel} (hf :
      ∀ s q, Bounded (s.proc q) → Bounded ((f s).proc q)) :
    Keeps (modify f : M PUnit) :=
  Within.modify fun s h q => hf s q (h q)

end rules

/-! ## The sizes that memory calls return -/

/-- The size that `allocuvm` gives: the new one, the old one, or zero where it failed. -/
theorem allocuvm_size {pd : PageDir} {oldsz newsz : Nat} {m : Kmem} :
    wp (allocuvm pd oldsz newsz) m
      (fun r _ => (oldsz ≤ newsz ∧ newsz < KERNBASE ∧ r.2 = newsz) ∨
        (newsz < oldsz ∧ r.2 = oldsz) ∨ r.2 = 0) fun _ => True := by
  refine wp.mono allocuvm_any ?_ fun _ _ => trivial
  intro r _ hr
  rcases hr with ⟨h1, h2, h3, -⟩ | ⟨h1, h2⟩ | ⟨h1, -⟩
  · exact .inl ⟨h1, h2, h3⟩
  · exact .inr (.inl ⟨h1, congrArg Prod.snd h2⟩)
  · exact .inr (.inr h1)

/-- Rounding up stays below the kernel. -/
theorem PGROUNDUP_le {sz : Nat} (h : sz ≤ KERNBASE) : PGROUNDUP sz ≤ KERNBASE := by
  unfold PGROUNDUP
  rw [pgUp_eq h]
  unfold pages
  unfold KERNBASE at *
  unfold PGSIZE
  omega

/-- Rounding up goes up, there being no overflow. -/
theorem le_PGROUNDUP {sz : Nat} (h : sz ≤ KERNBASE) : sz ≤ PGROUNDUP sz := by
  unfold PGROUNDUP
  rw [pgUp_eq h]
  unfold pages
  unfold KERNBASE at *
  unfold PGSIZE
  omega

/-- A loaded program is within the user half. -/
theorem loadProgram_size {phs : List (Option ProgHdr)} {pd : PageDir} {sz : Nat} {m : Kmem}
    (hsz : sz ≤ KERNBASE) :
    wp (loadProgram phs pd sz) m (fun r _ => ∀ n, r.2 = some n → n ≤ KERNBASE) fun _ => True := by
  induction phs generalizing pd sz m with
  | nil =>
      refine (wp_pure ..).2 ?_
      intro n hn
      cases hn
      exact hsz
  | cons ph phs ih =>
      cases ph with
      | none => exact (wp_pure ..).2 nofun
      | some ph =>
          unfold loadProgram
          refine wp_ite (fun _ => ih hsz) fun _ => ?_
          refine wp_ite (fun _ => (wp_pure ..).2 nofun) fun _ => ?_
          refine wp_ite (fun _ => (wp_pure ..).2 nofun) fun _ => ?_
          rw [wp_bind]
          refine wp.mono allocuvm_size ?_ fun _ he => he
          rintro ⟨pd', sz'⟩ m' hr
          have hsz' : sz' ≤ KERNBASE := by
            rcases hr with ⟨-, h1, h2⟩ | ⟨-, h2⟩ | h2 <;> dsimp only at h2 <;> omega
          dsimp only
          refine wp_ite (fun _ => (wp_pure ..).2 nofun) fun _ => ?_
          refine wp_ite (fun _ => (wp_pure ..).2 nofun) fun _ => ?_
          rw [wp_bind]
          refine wp.mono (wp_any fun _ _ => trivial) ?_ fun _ he => he
          rintro ok m'' -
          exact wp_ite (fun _ => (wp_pure ..).2 nofun) fun _ => ih hsz'

/-- An image ends below the kernel. -/
theorem newImage_size {elf : Option Elf} {argv : List Nat} {stacksize : Nat} {m : Kmem} :
    wp (newImage elf argv stacksize) m (fun r _ => ∀ x, r = some x → x.2 ≤ KERNBASE)
      fun _ => True := by
  unfold newImage
  cases elf with
  -- the path leads nowhere
  | none => exact (wp_pure ..).2 nofun
  | some elf =>
      dsimp only
      rw [wp_bind]
      refine wp.mono (wp_any fun _ _ => trivial) ?_ fun _ he => he
      rintro r m1 -
      cases r with
      -- no memory for the page table
      | none => exact (wp_pure ..).2 nofun
      | some pd =>
          have himage : wp (buildImage pd elf argv stacksize) m1
              (fun r _ => ∀ n, r.2 = some n → n ≤ KERNBASE) fun _ => True := by
            unfold buildImage
            rw [wp_bind]
            refine wp.mono (loadProgram_size (Nat.zero_le _)) ?_ fun _ he => he
            rintro ⟨pd1, sz1⟩ m2 hr
            cases sz1 with
            | none => exact (wp_pure ..).2 nofun
            | some sz =>
                have hbase := PGROUNDUP_le (hr sz rfl)
                dsimp only
                rw [wp_bind]
                refine wp.mono allocuvm_size ?_ fun _ he => he
                rintro ⟨pd2, sz2⟩ m3 hr2
                have hsz2 : sz2 ≤ KERNBASE := by
                  rcases hr2 with ⟨-, h1, h2⟩ | ⟨-, h2⟩ | h2 <;> dsimp only at h2 <;> omega
                dsimp only
                refine wp_ite (fun _ => (wp_pure ..).2 nofun) fun _ => ?_
                rw [wp_bind]
                refine wp.mono (wp_any fun _ _ => trivial) ?_ fun _ he => he
                rintro pd3 m4 -
                rw [wp_bind]
                refine wp.mono (wp_any fun _ _ => trivial) ?_ fun _ he => he
                rintro ok m5 -
                refine wp_ite (fun _ => (wp_pure ..).2 nofun) fun _ => (wp_pure ..).2 ?_
                intro n hn
                cases hn
                exact hsz2
          dsimp only
          rw [wp_bind]
          refine wp.mono himage ?_ fun _ he => he
          rintro ⟨pd1, sz1⟩ m2 hr
          cases sz1 with
          | none =>
              dsimp only
              rw [wp_bind]
              exact wp.mono (wp_any fun _ _ => trivial)
                (fun _ _ _ => (wp_pure ..).2 nofun) fun _ he => he
          | some sz =>
              refine (wp_pure ..).2 ?_
              intro x hx
              cases hx
              exact hr sz rfl

/-! ## The calls -/

/-- `growproc` asks for the limit before it grows. -/
theorem growproc_keeps {n : Int} : Keeps (growproc p n) := by
  apply Keeps.of_wp
  intro s hs
  have hp := hs p
  unfold growproc
  simp only [wp_bind, wp_get]
  refine wp_ite (fun _ => (wp_pure ..).2 hs) fun hover => ?_
  rw [wp_bind]
  refine getPgdir_wp (E := fun _ => True) ?_ fun _ => trivial
  intro pd _
  rw [wp_bind, wp_onKmem]
  -- the new size is the one that was compared with the limit, or the old one
  have hsize : wp (if n > 0 then allocuvm pd (s.proc p).sz (toUint ((s.proc p).sz + n))
      else if n < 0 then deallocuvm pd (s.proc p).sz (toUint ((s.proc p).sz + n))
      else pure (pd, (s.proc p).sz)) s.kmem
      (fun r _ => r.2 = 0 ∨ r.2 = (s.proc p).sz ∨
        r.2 = toUint ((s.proc p).sz + n) ∧ r.2 ≤ KERNBASE) fun _ => True := by
    have hle := hp.sz
    refine wp_ite (fun _ => ?_) fun _ => ?_
    · refine wp.mono allocuvm_size ?_ fun _ he => he
      rintro r - (⟨-, h1, h2⟩ | ⟨-, h2⟩ | h2)
      · exact .inr (.inr ⟨h2, by omega⟩)
      · exact .inr (.inl h2)
      · exact .inl h2
    · refine wp_ite (fun _ => ?_) fun _ => (wp_pure ..).2 (.inr (.inl rfl))
      refine wp.mono deallocuvm_wp ?_ fun _ _ => trivial
      rintro r - ⟨hr, -⟩
      by_cases hge : toUint ((s.proc p).sz + n) ≥ (s.proc p).sz
      · rw [if_pos hge] at hr
        exact .inr (.inl hr)
      · rw [if_neg hge] at hr
        exact .inr (.inr ⟨hr, by omega⟩)
  refine wp.mono hsize ?_ fun _ he => he
  rintro ⟨pd', sz⟩ m hr
  dsimp only at hr ⊢
  simp only [wp_bind, wp_setPgdir]
  have hs' : AllBounded ((s.setKmem m).setProc p fun x => { x with pgdir := some pd' }) :=
    AllBounded.setProc (s := s.setKmem m) hs ⟨hp.sz, hp.stacksz, hp.limit⟩
  refine wp_ite (fun _ => (wp_pure ..).2 hs') fun _ => ?_
  simp only [wp_bind, wp_setProc]
  refine switchuvm_wp ((wp_pure ..).2 ?_) trivial trivial
  refine AllBounded.setProc hs' ?_
  rw [Kernel.setProc_self]
  have hlimit : (s.proc p).memlimit ≠ 0 → toUint ((s.proc p).sz + n) ≤ (s.proc p).memlimit := by
    intro hne
    unfold overLimit at hover
    simp only [Bool.and_eq_true, decide_eq_true_eq, not_and, Nat.not_lt] at hover
    exact hover hne
  rcases hr with h | h | ⟨h, hle⟩
  · refine ⟨?_, hp.stacksz, fun _ => ?_⟩ <;> dsimp only <;> omega
  · subst h
    exact ⟨hp.sz, hp.stacksz, hp.limit⟩
  · refine ⟨hle, hp.stacksz, fun hne => ?_⟩
    dsimp only
    rw [h]
    exact hlimit hne

/-- `allocthread` changes no size. -/
theorem allocthread_keeps : Keeps allocthread := by
  refine Keeps.bind Keeps.get fun s => ?_
  cases findTh fun i => (s.pthread i).state = .UNUSED with
  | none => exact .pure _
  | some th =>
      refine (Keeps.setTh _ _).bind fun _ => (Keeps.onKmem _).bind fun k => ?_
      cases k with
      | none => exact (Keeps.setTh _ _).bind fun _ => .pure _
      | some k => exact (Keeps.setTh _ _).bind fun _ => .pure _

/-- `pthread_exec` asks for the limit before it grows. -/
theorem pthread_exec_keeps {th : Tidx} : Keeps (pthread_exec p th) := by
  apply Keeps.of_wp
  intro s hs
  have hp := hs p
  unfold pthread_exec
  simp only [wp_bind, wp_get]
  refine wp_ite (fun _ => (wp_pure ..).2 hs) fun hover => ?_
  rw [wp_bind]
  refine getPgdir_wp (E := fun _ => True) ?_ fun _ => trivial
  intro pd _
  rw [wp_bind, wp_onKmem]
  refine wp.mono allocuvm_size ?_ fun _ he => he
  rintro ⟨pd1, sz⟩ m1 hr
  dsimp only at hr ⊢
  simp only [wp_bind, wp_setPgdir]
  have hs1 : AllBounded ((s.setKmem m1).setProc p fun x => { x with pgdir := some pd1 }) :=
    AllBounded.setProc (s := s.setKmem m1) hs ⟨hp.sz, hp.stacksz, hp.limit⟩
  refine wp_ite (fun _ => (wp_pure ..).2 hs1) fun hsz => ?_
  simp only [wp_bind, wp_onKmem, wp_setPgdir]
  refine wp.mono (wp_any fun _ _ => trivial) ?_ fun _ he => he
  rintro pd2 m2 -
  have hs2 := AllBounded.setProc (p := p) (f := fun x => { x with pgdir := some pd2 })
    (s := ((s.setKmem m1).setProc p fun x => { x with pgdir := some pd1 }).setKmem m2) hs1
    (by
      have h := hs1 p
      exact ⟨h.sz, h.stacksz, h.limit⟩)
  refine wp.mono (wp_any fun _ _ => trivial) ?_ fun _ he => he
  rintro ok m3 -
  refine wp_ite (fun _ => (wp_pure ..).2 hs2) fun _ => ?_
  have hs3 : AllBounded (((((s.setKmem m1).setProc p fun x => { x with pgdir := some pd1 }).setKmem
      m2).setProc p fun x => { x with pgdir := some pd2 }).setKmem m3) := hs2
  cases hpop : (s.proc p).freed_sz.pop with
  | some x =>
      rcases x with ⟨_, q⟩
      simp only [wp_bind, wp_setProc, wp_setTh]
      refine (wp_pure ..).2 (AllBounded.setTh (AllBounded.setProc hs3 ?_))
      have h := hs3 p
      exact ⟨h.sz, h.stacksz, h.limit⟩
  | none =>
      simp only [wp_bind, wp_setProc, wp_setTh]
      refine (wp_pure ..).2 (AllBounded.setTh (AllBounded.setProc hs3 ?_))
      rw [Kernel.setKmem_proc, Kernel.setProc_self, Kernel.setKmem_proc, Kernel.setProc_self]
      -- the stack is put behind the rest, and the sum does not wrap
      have hbase : stackBase (s.proc p) = PGROUNDUP (s.proc p).sz := by
        unfold Ring.pop at hpop
        unfold stackBase
        split at hpop
        · next h0 => rw [if_neg (not_not.2 h0)]
        · cases hpop
      have hle := PGROUNDUP_le hp.sz
      have hge := le_PGROUNDUP hp.sz
      have hstack : stackBytes (s.proc p) ≤ 101 * PGSIZE := by
        unfold stackBytes
        exact Nat.mul_le_mul_right _ (Nat.succ_le_succ hp.stacksz)
      have hsum : toUint (stackBase (s.proc p) + stackBytes (s.proc p)) =
          stackBase (s.proc p) + stackBytes (s.proc p) := by
        unfold toUint
        rw [hbase]
        unfold KERNBASE at hle
        unfold PGSIZE at hstack
        omega
      rw [hsum] at hr hover
      unfold overLimit at hover
      simp only [Bool.and_eq_true, decide_eq_true_eq, not_and, Nat.not_lt] at hover
      rcases hr with ⟨-, h1, h2⟩ | ⟨h1, -⟩ | h2
      · refine ⟨?_, hp.stacksz, fun hne => ?_⟩
        · dsimp only
          omega
        · dsimp only
          rw [h2]
          exact hover hne
      · omega
      · exact absurd h2 hsz

/-- `thread_create` keeps the limit. -/
theorem thread_create_keeps : Keeps (thread_create p) := by
  have hfork : Keeps (pthread_fork p) := by
    refine Keeps.bind allocthread_keeps fun r => ?_
    cases r with
    | none => exact .pure _
    | some nth =>
        refine Keeps.bind (Keeps.setOther (by simp)) fun _ => ?_
        exact Keeps.bind Keeps.get fun s => (Keeps.setTh _ _).bind fun _ => .pure _
  refine hfork.bind fun r => ?_
  cases r with
  | none => exact .pure _
  | some th =>
      refine Keeps.bind pthread_exec_keeps fun ok => Keeps.ite (fun _ => ?_) fun _ => ?_
      · exact (Keeps.setTh _ _).bind fun _ => .pure _
      · exact Keeps.bind Keeps.get fun s => (Keeps.setTh _ _).bind fun _ =>
          (Keeps.setCont _ _).bind fun _ => .pure _

theorem wakeup1_keeps (c : Chan) : Keeps (wakeup1 c) := Keeps.modify fun _ _ h => h

theorem sched_keeps : Keeps (sched p) :=
  Keeps.bind Keeps.get fun _ => Keeps.ite (fun _ => .throw _) fun _ => .pure _

theorem sleep_keeps (c : Chan) (k : Cont) : Keeps (sleep p c k) :=
  Keeps.bind (Keeps.setOther (by simp)) fun _ =>
    Keeps.bind sched_keeps fun _ => .pure _

/-- `kill` changes no size. -/
theorem kill_keeps (pid : Int) : Keeps (kill pid) := by
  refine Keeps.bind Keeps.get fun s => ?_
  cases findProc fun p => (s.proc p).pid = pid with
  | none => exact .pure _
  | some q =>
      refine Keeps.bind (Keeps.setOther (by simp)) fun _ => ?_
      exact Keeps.bind (Within.modify fun _ h => h) fun _ => .pure _

/-- `thread_exit` changes no size. -/
theorem thread_exit_keeps (retval : Nat) : Keeps (thread_exit p retval) := by
  refine Keeps.bind Keeps.get fun s => Keeps.ite (fun _ => ?_) fun _ => ?_
  · exact (kill_keeps _).bind fun _ => (wakeup1_keeps _).bind fun _ =>
      Keeps.bind sched_keeps fun _ => .pure _
  · refine (Keeps.setTh _ _).bind fun _ => ?_
    refine Keeps.bind (Keeps.setOther (by simp)) fun _ => ?_
    exact (wakeup1_keeps _).bind fun _ => Keeps.bind sched_keeps fun _ => .pure _

theorem kfreeStack_keeps (v : Nat) : Keeps (kfreeStack p v) :=
  (Keeps.onKmem _).bind fun _ => Keeps.bind Keeps.get fun _ =>
    Keeps.ite (fun _ => .throw _) fun _ => .pure _

/-- Freeing a stack takes from no size. -/
theorem reapThread_keeps (i : Tidx) : Keeps (reapThread p i) := by
  refine Keeps.bind Keeps.get fun s => ?_
  refine (kfreeStack_keeps _).bind fun _ => (Keeps.setTh _ _).bind fun _ => ?_
  refine Keeps.bind (Keeps.setOther (by simp)) fun _ => ?_
  refine Keeps.bind Keeps.getPgdir fun pd => (Keeps.onKmem _).bind fun r => ?_
  exact (Keeps.setPgdir _).bind fun _ => (Keeps.setTh _ _).bind fun _ => .pure _

/-- `thread_join` keeps the limit. -/
theorem joinScan_keeps (t w : Nat) : Keeps (joinScan p t w) := by
  refine Keeps.bind Keeps.get fun s => ?_
  dsimp only
  split
  · exact (reapThread_keeps _).bind fun _ => .pure _
  · exact Keeps.ite (fun _ => .pure _) fun _ => sleep_keeps _ _

theorem deleteThread_keeps (th : Tidx) : Keeps (deleteThread p th) :=
  Keeps.bind Keeps.get fun _ => (kfreeStack_keeps _).bind fun _ => Keeps.setTh _ _

/-- Clearing slots changes no size. -/
theorem reapThreads_keeps (pid : Nat) (ths : List Tidx) : Keeps (reapThreads p pid ths) := by
  induction ths with
  | nil => exact .pure _
  | cons th ths ih =>
      refine Keeps.bind Keeps.get fun s => Keeps.ite (fun _ => ?_) fun _ => ih
      exact (deleteThread_keeps th).bind fun _ => ih

/-- What `wait` takes apart has no size and no limit any more. -/
theorem reapProc_keeps (c : Pidx) : Keeps (reapProc p c) := by
  refine Keeps.bind Keeps.get fun s => (reapThreads_keeps _ _).bind fun _ => ?_
  have hclear : Keeps (Thread.setProc c fun x =>
      { x with
        parent_pthread := none, parent_proc := none, joiner_pthread := none, memlimit := 0
        thread_assign := 0, stacksz := 0, pid := 0, thread_idx := 0, sz := 0, state := .UNUSED
        chan := .null, killed := false, thread_id := 0, freed_sz := noFreed }) :=
    Keeps.setProc fun x _ => Bounded.unlimited (Nat.zero_le _) (Nat.zero_le _) rfl
  cases (s.proc c).pgdir with
  | none => exact (Keeps.throw _).bind fun _ => hclear
  | some pd => exact (Keeps.onKmem _).bind fun _ => hclear

/-- `wait` frees a process and changes no other. -/
theorem waitScan_keeps : Keeps (waitScan p) := by
  refine Keeps.bind Keeps.get fun s => ?_
  dsimp only
  split
  · exact (reapProc_keeps _).bind fun _ => .pure _
  · exact Keeps.ite (fun _ => .pure _) fun _ => sleep_keeps _ _

/-- `exit` changes no size. -/
theorem exit_keeps : Keeps (exit p) := by
  have hadopt : ∀ (q i : Pidx) (c : Option Tidx) (x : Proc), Bounded x →
    Bounded (adopt q i c x) := by
    intro q i c x hx
    unfold adopt
    split
    · exact ⟨hx.sz, hx.stacksz, hx.limit⟩
    · exact hx
  apply Keeps.of_wp
  intro s hs
  have hexited : ∀ t c, AllBounded t → AllBounded (t.exited p c) := by
    intro t c ht
    have hall : AllBounded { t with proc := fun q => adopt p t.initproc c (t.proc q) } :=
      fun q => hadopt p t.initproc c _ (ht q)
    refine AllBounded.setProc (p := p) (f := fun x => { x with state := .ZOMBIE }) hall ?_
    exact ⟨(hall p).sz, (hall p).stacksz, (hall p).limit⟩
  exact exit_wp fun c c' => ⟨hexited _ _ hs, fun c2 => hexited _ _ hs⟩

/-- A limit is only set when the process is within it. -/
theorem setmemorylimit_keeps (pid limit : Int) : Keeps (setmemorylimit pid limit) := by
  apply Keeps.of_wp
  intro s hs
  unfold setmemorylimit
  refine wp_ite (fun _ => (wp_pure ..).2 hs) fun _ => ?_
  simp only [wp_bind, wp_get]
  cases findProc fun p => (s.proc p).pid = pid with
  | none => exact (wp_pure ..).2 hs
  | some q =>
      have hq := hs q
      dsimp only
      refine wp_ite (fun _ => (wp_pure ..).2 hs) fun hle => ?_
      simp only [wp_bind, wp_setProc]
      refine (wp_pure ..).2 (AllBounded.setProc hs ⟨hq.sz, hq.stacksz, fun _ => ?_⟩)
      dsimp only
      omega

/-- Deleting the siblings changes no size. -/
theorem deleteThreads_keeps : Keeps (deleteThreads p) := by
  have hother : ∀ th, Keeps (deleteOther p th) := by
    intro th
    refine Keeps.bind Keeps.get fun s => Keeps.ite (fun _ => ?_) fun _ => .pure _
    refine Keeps.bind (Keeps.modify ?_) fun _ => deleteThread_keeps th
    intro t q hq
    show Bounded (reparent th _ (t.proc q))
    unfold reparent
    split
    · exact ⟨hq.sz, hq.stacksz, hq.limit⟩
    · exact hq
  have hothers : ∀ ths, Keeps (deleteOthers p ths) := by
    intro ths
    induction ths with
    | nil => exact .pure _
    | cons th ths ih => exact (hother th).bind fun _ => ih
  exact (hothers _).bind fun _ => Keeps.setOther (by simp)

theorem switchuvm_keeps : Keeps (switchuvm p) := by
  refine Keeps.bind Keeps.get fun s => Keeps.ite (fun _ => ?_) fun _ => ?_
  · exact (Keeps.throw _).bind fun _ => Keeps.ite (fun _ => .throw _) fun _ => .pure _
  · exact Keeps.ite (fun _ => .throw _) fun _ => .pure _

/-- A new image has no limit. -/
theorem execWith_keeps {elf : Option Elf} {argv : List Nat} {stacksize : Nat}
    (hstack : stacksize ≤ 100) : Keeps (execWith p elf argv stacksize) := by
  apply Keeps.of_wp
  intro s hs
  unfold execWith
  rw [wp_bind, wp_onKmem]
  refine wp.mono newImage_size ?_ fun _ he => he
  intro r m hr
  have hs1 : AllBounded (s.setKmem m) := hs
  cases r with
  | none => exact (wp_pure ..).2 hs1
  | some x =>
      rcases x with ⟨pd, sz⟩
      have hsz : sz ≤ KERNBASE := hr (pd, sz) rfl
      have hrest : Keeps (do
          deleteThreads p
          let oldpgdir ← getPgdir p
          setProc p fun x =>
            { x with
              freed_sz := noFreed, pgdir := some pd, sz := sz, th_sz := sz, memlimit := 0
              thread_assign := 1, stacksz := stacksize, thread_id := MAINTH
              main_thread_idx := x.thread_idx }
          switchuvm p
          onKmem (freevm oldpgdir)
          return 0 : M Int) := by
        refine Keeps.bind deleteThreads_keeps fun _ => Keeps.bind Keeps.getPgdir fun old => ?_
        refine (Keeps.setProc fun x _ => Bounded.unlimited hsz hstack rfl).bind fun _ => ?_
        exact Keeps.bind switchuvm_keeps fun _ => (Keeps.onKmem _).bind fun _ => .pure _
      exact wp.mono (hrest _) (fun _ _ h => h hs1) fun _ he => he

theorem exec2_keeps {elf : Option Elf} {argv : List Nat} {stacksize : Int} :
    Keeps (exec2 p elf argv stacksize) := by
  refine Keeps.ite (fun _ => .pure _) fun h => execWith_keeps ?_
  omega

theorem mvProcToThread_keeps (th : Tidx) : Keeps (mvProcToThread p th) :=
  Keeps.bind Keeps.get fun _ => Keeps.setTh _ _

theorem clearProc_keeps : Keeps (clearProc p) := Keeps.setOther (by simp)

/-- Copying threads changes no size. -/
theorem forkThreads_keeps {np : Pidx} (ths : List Tidx) : Keeps (forkThreads p np ths) := by
  have hone : ∀ th, Keeps (forkThread p np th) := by
    intro th
    refine Keeps.bind Keeps.get fun s => Keeps.ite (fun _ => .pure _) fun _ => ?_
    refine Keeps.bind allocthread_keeps fun r => ?_
    cases r with
    | none => exact Keeps.bind (Keeps.setOther (by simp)) fun _ => .pure _
    | some nth =>
        exact Keeps.bind Keeps.get fun s => (Keeps.setTh _ _).bind fun _ =>
          (Keeps.setCont _ _).bind fun _ => .pure _
  induction ths with
  | nil => exact .pure _
  | cons th ths ih => exact (hone th).bind fun _ => Keeps.ite (fun _ => .pure _) fun _ => ih

/-- A new process has no limit. -/
theorem allocproc_keeps : Keeps allocproc := by
  apply Keeps.of_wp
  intro s hs
  refine allocproc_wp (fun _ => hs) (fun _ _ _ => AllBounded.setTh hs) ?_
  intro np th k m _ _ _ _ _
  have hnew : Bounded (freshProc s.nextpid k th (s.proc np)) :=
    Bounded.unlimited (Nat.zero_le _) (show 1 ≤ 100 by decide) rfl
  have h : AllBounded ((s.setTh th fun t => { freshTh k t with pid := s.nextpid }).setProc np
      (freshProc s.nextpid k th)) := AllBounded.setProc (AllBounded.setTh hs) hnew
  exact h

/-- A child has the size and the limit of its parent. -/
theorem fork_keeps : Keeps (fork p) := by
  refine Keeps.bind allocproc_keeps fun r => ?_
  cases r with
  | none => exact .pure _
  | some np =>
      refine Keeps.get_bind fun s hs => Keeps.bind Keeps.getPgdir fun pd => ?_
      refine (Keeps.onKmem _).bind fun r => ?_
      have hp := hs p
      cases r with
      | none =>
          exact (Keeps.onKmem _).bind fun _ =>
            Keeps.bind (Keeps.setOther (by simp)) fun _ => .pure _
      | some d =>
          refine Keeps.bind (Keeps.setProc fun x _ => ?_) fun _ => ?_
          · exact ⟨hp.sz, hp.stacksz, hp.limit⟩
          refine (Keeps.setCont _ _).bind fun _ => Keeps.ite (fun _ => ?_) fun _ => ?_
          · exact Keeps.bind (Keeps.setOther (by simp)) fun _ =>
              (mvProcToThread_keeps _).bind fun _ =>
              Keeps.bind clearProc_keeps fun _ => .pure _
          · exact (mvProcToThread_keeps _).bind fun _ => (forkThreads_keeps _).bind fun _ =>
              Keeps.ite (fun _ => .pure _) fun _ => .pure _

/-! ## Runs -/

/-- A call into the rest of the kernel changes no size. -/
theorem inside_keeps (k : Cont) (wakes sleeps : Option Chan) : Keeps (inside p k wakes sleeps) := by
  have hyield : Keeps (yieldInside p) :=
    Keeps.bind (Keeps.setOther (by simp)) fun _ => Keeps.bind sched_keeps fun _ => .pure _
  have hsleep : ∀ c, Keeps (sleep p c .sleep) := fun c => sleep_keeps c _
  refine Keeps.ite (fun _ => Keeps.bind (Keeps.setOther (by simp)) fun _ => ?_) fun _ => ?_
  · cases wakes <;> cases sleeps
    · exact hyield
    · exact hsleep _
    · exact (wakeup1_keeps _).bind fun _ => hyield
    · exact (wakeup1_keeps _).bind fun _ => hsleep _
  · cases wakes <;> cases sleeps
    · exact hyield
    · exact hsleep _
    · exact (wakeup1_keeps _).bind fun _ => hyield
    · exact (wakeup1_keeps _).bind fun _ => hsleep _

/-- Every call keeps the limit, one case each. -/
theorem call_keeps (k : Cont) (c : Call) : Keeps (call p k c) := by
  cases c with
  | yield => exact .pure _
  | sleep c => exact sleep_keeps c _
  | wakeup c => exact (wakeup1_keeps c).bind fun _ => .pure _
  | inside wakes sleeps => exact inside_keeps k wakes sleeps
  | thread_create =>
      refine Keeps.bind thread_create_keeps fun r => ?_
      cases r <;> exact .pure _
  | thread_exit retval => exact thread_exit_keeps retval
  | thread_join t w => exact Keeps.ite (fun _ => .pure _) fun _ => joinScan_keeps t w
  | sbrk n => exact Keeps.bind growproc_keeps fun _ => .pure _
  | fork => exact Keeps.bind fork_keeps fun _ => .pure _
  | exit => exact exit_keeps
  | wait => exact waitScan_keeps
  | exec elf argv => exact (execWith_keeps (by decide)).bind fun _ => .pure _
  | exec2 elf argv n => exact Keeps.bind exec2_keeps fun _ => .pure _
  | kill pid => exact (kill_keeps pid).bind fun _ => .pure _
  | setmemorylimit pid limit => exact (setmemorylimit_keeps pid limit).bind fun _ => .pure _
  | resume w =>
      refine Keeps.bind (Keeps.setOther (by simp)) fun _ => ?_
      cases k with
      | user => exact .pure _
      | sleep => exact .pure _
      | join t => exact joinScan_keeps t w
      | wait => exact waitScan_keeps

/-- The limits speak of fields that dressing leaves alone. -/
theorem AllBounded.dressed {i : Tidx} (h : AllBounded s) : AllBounded (s.dressed p i) := by
  have hp := h p
  exact AllBounded.setProc h ⟨hp.sz, hp.stacksz, hp.limit⟩

/-- And so does going back to the scheduler. -/
theorem AllBounded.left {a : Label} {s1 : Kernel} {k : Cont} {r : Outcome} (h : AllBounded s1) :
    AllBounded (a.left s k s1 r) := by
  intro q
  have hq := h q
  by_cases hqp : q = a.p
  · subst hqp
    cases r <;> exact ⟨by simpa [Label.left, Outcome.parked, Kernel.undressed, cleared] using hq.sz,
      by simpa [Label.left, Outcome.parked, Kernel.undressed, cleared] using hq.stacksz,
      by simpa [Label.left, Outcome.parked, Kernel.undressed, cleared] using hq.limit⟩
  · cases r <;> simpa [Label.left, Outcome.parked, Kernel.undressed, hqp] using hq

/-- The first process has no limit. -/
theorem Started.allBounded {th : Tidx} (h : Started p th s) : AllBounded s := by
  intro q
  by_cases hq : q = p
  · subst hq
    rcases h.proc with ⟨pd, k, -, -, hproc⟩
    rw [hproc]
    exact Bounded.unlimited (show PGSIZE ≤ KERNBASE by decide) (show 1 ≤ 100 by decide) rfl
  · rw [h.other q hq]
    exact Bounded.unlimited (Nat.zero_le _) (Nat.zero_le _) rfl

/-- Runs of slices keep the limits, by the lemma for one call. -/
theorem allBounded_slices : SliceInv anyCall AllBounded (fun _ _ => AllBounded)
    fun _ _ => AllBounded where
  init := fun s h => by
    rcases h.started with ⟨p, th, hst⟩
    exact hst.allBounded
  dress := fun s p i h _ => h.dressed
  call := fun s p i k c h _ _ =>
    wp.mono (call_keeps k c s) (fun r s' h1 => ⟨h1 h, fun _ _ => h1 h⟩) fun _ he => he
  left := fun s a k s1 r h => h.left

/-- In every state of a run the processes are within their limits. -/
theorem Visited.allBounded (hv : Visited anyCall s) : AllBounded s := allBounded_slices.visited hv

/-- A limit that the next stack reaches; then `sbrk` up, and down below zero. -/
def limitedRun : List Label :=
  [⟨0, 0, .setmemorylimit 1 12288, 0, 0⟩, ⟨0, 0, .thread_create, 0, 0⟩, ⟨0, 0, .sbrk 1, 0, 0⟩,
    ⟨0, 0, .sbrk (-1000000), 0, 0⟩]

end Xv6.Thread
