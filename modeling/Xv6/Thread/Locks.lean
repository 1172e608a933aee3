import Xv6.Thread.Family

/-!
# Sleep-locks

`sleeplock.c`. A thread that holds the lock of a buffer or of an inode is inside
a system call and may have given up the CPU there. `kill`, `exit` and `exec` end
the threads of a process without asking where they stand; a run in which they
meet no thread with a lock leaves every lock with a live thread.

* `step_held`: what one step preserves;
* `no_dead_holder`: in every run whose steps spare the holders (`KeepsHolders`)
  each lock that is held is held by a thread that is alive;
* `lock_lost`: a sibling is killed while it waits for the disk with an inode lock.

The model adds to the tables of `System.lean` the locks, one for each buffer and
each inode, and lets a thread inside a call take and give back any of them; which
locks the file system takes, and in what order, is left open.
-/

namespace Xv6.Thread.Locks

open Xv6.Lib Prog Family

variable {s : Kernel} {p : Pidx} {i j : Tidx}

def NBUF : Nat := 30
def NINODE : Nat := 50

/-- The sleep-locks: one in every buffer and one in every inode of the cache. -/
inductive LockId
  | buf (n : Fin NBUF)
  | inode (n : Fin NINODE)
  deriving DecidableEq

/-- The locks are those of the buffers and those of the inodes. -/
theorem LockId.forall {P : LockId → Prop} :
    (∀ l, P l) ↔ (∀ n, P (.buf n)) ∧ ∀ n, P (.inode n) := by
  constructor
  · exact fun h => ⟨fun n => h _, fun n => h _⟩
  · rintro ⟨hb, hi⟩ (n | n)
    · exact hb n
    · exact hi n

instance {P : LockId → Prop} [DecidablePred P] : Decidable (∀ l, P l) :=
  decidable_of_iff _ LockId.forall.symm

/-- A thread that waits for a lock sleeps on its address. -/
def LockId.chan : LockId → Chan
  | .buf n => .other n
  | .inode n => .other (NBUF + n)

/-- `struct sleeplock`, and the thread that has it. -/
structure Sleeplock where
  locked : Bool
  pid : Nat
  holder : Option Tidx

/-- After `initsleeplock`. -/
def Sleeplock.free : Sleeplock := ⟨false, 0, none⟩

structure LState where
  kernel : Kernel
  lock : LockId → Sleeplock

/-- What a thread does in a turn: a call, or a part of a system call in which it
takes a lock, waits for it, or gives it back. -/
inductive Act
  | call (c : Call)
  | acquiresleep (l : LockId)
  | releasesleep (l : LockId)

structure Event where
  p : Pidx
  i : Tidx
  act : Act
  sp : Nat
  bp : Nat

/-- Whether a call stays inside a system call. -/
def within : Call → Bool
  | .inside .. => true
  | _ => false

/-- The call that the turn makes. `acquiresleep` sleeps on a lock that is taken,
and `releasesleep` wakes those who wait. -/
def Event.label (e : Event) (s : LState) : Label :=
  ⟨e.p, e.i,
    match e.act with
    | .call c => c
    | .acquiresleep l => if (s.lock l).locked then .inside none (some l.chan) else .inside none none
    | .releasesleep l => .inside (some l.chan) none, e.sp, e.bp⟩

/-- The locks after the turn. -/
def Event.locks (e : Event) (s : LState) : LockId → Sleeplock :=
  match e.act with
  | .call _ => s.lock
  | .acquiresleep l =>
      if (s.lock l).locked then s.lock
      else Function.update s.lock l ⟨true, (s.kernel.pthread e.i).pid, some e.i⟩
  | .releasesleep l => Function.update s.lock l Sleeplock.free

/-- A thread gives back a lock that it holds, and while it holds one it stays
inside the system call. -/
def Event.fits (e : Event) (s : LState) : Prop :=
  match e.act with
  | .call c => within c = false → ∀ l, (s.lock l).holder ≠ some e.i
  | .acquiresleep _ => True
  | .releasesleep l => (s.lock l).holder = some e.i

instance (e : Event) (s : LState) : Decidable (e.fits s) := by
  unfold Event.fits
  cases e.act <;> infer_instance

/-- One turn. -/
def step (s : LState) (e : Event) : Option LState :=
  if e.fits s then (next s.kernel (e.label s)).map fun s' => ⟨s', e.locks s⟩ else none

def Start (s : LState) : Prop := Init s.kernel ∧ ∀ l, s.lock l = Sleeplock.free

/-- Every lock that is held is held by a live thread. -/
def HeldByLive (s : LState) : Prop :=
  ∀ l j, (s.lock l).holder = some j → Live (s.kernel.pthread j)

/-! ## Calls that end threads -/

/-- Whether `exec` finds all it needs. -/
def succeeds (elf : Option Elf) (argv : List Nat) (stacksize : Nat) (m : Kmem) : Bool :=
  match (newImage elf argv stacksize).run m with
  | .ok (some _, _) => true
  | _ => false

/-- Whether a call commits to a new image. -/
def commits (m : Kmem) : Call → Bool
  | .exec elf argv => succeeds elf argv 1 m
  | .exec2 elf argv n => 1 ≤ n ∧ n ≤ 100 ∧ succeeds elf argv n.toNat m = true
  | _ => false

theorem commits_execs {m : Kmem} {c : Call} (h : commits m c = true) : c.execs = true := by
  cases c <;> first | rfl | cases h

/-- An `exec` that fails leaves the slots alone. -/
theorem execWith_stays {elf : Option Elf} {argv : List Nat} {n : Nat}
    (h : succeeds elf argv n s.kmem = false) :
    wp (execWith p elf argv n) s (fun _ s1 => s1.pthread = s.pthread) fun _ => True := by
  unfold execWith
  simp only [wp_bind, wp_onKmem]
  apply wp_run
  intro r m hrun
  unfold succeeds at h
  rw [hrun] at h
  cases r with
  | none => exact (wp_pure ..).2 rfl
  | some img => cases h

/-- An `exec` that fails ends no thread. -/
theorem exec_stays {k : Cont} {c : Call} (hc : c.execs = true) (h : commits s.kmem c = false) :
    wp (call p k c) s (fun _ s1 => s1.pthread = s.pthread) fun _ => True := by
  cases c <;> try cases hc
  case exec elf argv =>
    simp only [call, exec, wp_bind]
    exact wp.mono (execWith_stays h) (fun v s1 h1 => (wp_pure ..).2 h1) fun _ he => he
  case exec2 elf argv n =>
    simp only [call, exec2, wp_bind]
    apply wp_ite
    · intro _
      rw [wp_pure, wp_pure]
    · intro hn
      rw [not_or, Int.not_lt, Int.not_lt] at hn
      have hstays : succeeds elf argv n.toNat s.kmem = false := by
        simpa [commits, hn.1, hn.2] using h
      exact wp.mono (execWith_stays hstays) (fun v s1 h1 => (wp_pure ..).2 h1) fun _ he => he

/-- What is known of a step, and of an `exec` that fails. -/
theorem next_step {s' : Kernel} {a : Label} (hids : Ids s) (hs : next s a = some s') :
    ∃ o s1, Step a s s1 o ∧ (a.c.execs = true → commits s.kmem a.c = false →
      s1.pthread = s.pthread) ∧ s' = a.after s s1 o := by
  have hen := (next_some hs).1
  have hstays : wp (call a.p (s.cont a.i) a.c) (s.dressed a.p a.i)
      (fun _ s1 => a.c.execs = true → commits s.kmem a.c = false → s1.pthread = s.pthread)
      fun _ => True := by
    by_cases hc : a.c.execs = true ∧ commits s.kmem a.c = false
    · exact wp.mono (exec_stays hc.1 hc.2) (fun _ s1 h1 _ _ => h1) fun _ he => he
    · exact wp_any fun _ _ h1 h2 => absurd ⟨h1, h2⟩ hc
  rcases next_wp ((call_effect hen.1.wears).and hstays) hs with ⟨o, s1, ⟨he, hexec⟩, hafter⟩
  exact ⟨o, s1, ⟨hen.1, he, hids⟩, hexec, hafter⟩

/-- The turn ends no thread that holds a lock: `kill` meets none but main
threads, `exit` none of its process, and an `exec` that succeeds none of the
threads that it deletes. -/
def KeepsHolders (s : LState) (e : Event) : Prop :=
  ∀ l, ∀ j ∈ (s.lock l).holder,
    ((e.label s).c.kills = some ((s.kernel.pthread j).pid : Int) →
      (s.kernel.pthread j).thread_id = MAINTH) ∧
    ((e.label s).c.exits = true → (s.kernel.pthread j).pid ≠ (s.kernel.proc e.p).pid) ∧
    (commits s.kernel.kmem (e.label s).c = true →
      (s.kernel.pthread j).pid = (s.kernel.proc e.p).pid →
        (s.kernel.pthread j).thread_id = (s.kernel.pthread e.i).thread_id)

/-! ## Every run -/

/-- Every lock that is held is held by a live thread of a live process. -/
def HeldByLinked (s : LState) : Prop :=
  ∀ l j, (s.lock l).holder = some j → ∃ r, Linked s.kernel r j

/-- A thread that holds a lock neither exits nor execs. -/
theorem Event.fits.stays {s : LState} {e : Event} (h : e.fits s) {l : LockId}
    (hl : (s.lock l).holder = some e.i) : (e.label s).c.ends = false ∧
      (e.label s).c.exits = false := by
  unfold Event.fits at h
  unfold Event.label
  cases hact : e.act with
  | call c =>
      rw [hact] at h
      cases c <;> first | exact ⟨rfl, rfl⟩ | exact absurd hl (h rfl l)
  | acquiresleep l' => dsimp only; split <;> exact ⟨rfl, rfl⟩
  | releasesleep l' => exact ⟨rfl, rfl⟩

/-- A lock that is held after the turn was held by the same thread before, or the
thread that has run has just taken it. -/
theorem held_before {s : LState} {e : Event} {l : LockId}
    (h : (e.locks s l).holder = some j) :
    (s.lock l).holder = some j ∨ j = e.i ∧ (e.label s).c.ends = false ∧
      (e.label s).c.exits = false := by
  unfold Event.locks at h
  unfold Event.label
  cases hact : e.act with
  | call c =>
      rw [hact] at h
      exact .inl h
  | acquiresleep l' =>
      rw [hact] at h
      dsimp only at h
      -- a lock that is held is not taken a second time; a free one is taken by the thread of
      -- the step
      split at h
      · exact .inl h
      · by_cases hl : l = l'
        · subst hl
          rw [Function.update_self] at h
          cases h
          refine .inr ⟨rfl, ?_⟩
          dsimp only
          split <;> exact ⟨rfl, rfl⟩
        · rw [Function.update_of_ne hl] at h
          exact .inl h
  | releasesleep l' =>
      rw [hact] at h
      dsimp only at h
      -- a lock that is released has no holder
      by_cases hl : l = l'
      · subst hl
        rw [Function.update_self] at h
        cases h
      · rw [Function.update_of_ne hl] at h
        exact .inl h

/-- Every step that keeps the holders leaves each lock with a thread that can still run. -/
theorem step_held : ∀ (s : LState) (e : Event) (s' : LState), Ids s.kernel → HeldByLinked s →
    KeepsHolders s e → step s e = some s' → HeldByLinked s' := by
  intro s e s' hids hinv hok hs l j hj
  unfold step at hs
  split at hs
  · next hfits =>
    rcases Option.map_eq_some_iff.1 hs with ⟨k', hnext, rfl⟩
    rcases next_step hids hnext with ⟨r, s1, h, hexec, rfl⟩
    rcases held_before hj with hj | ⟨rfl, hends, hexits⟩
    · rcases hinv l j hj with ⟨q, hq⟩
      rcases hok l j hj with ⟨hkill, hexit, hcommit⟩
      refine ⟨q, h.link hq ?_ ?_ ?_ ?_⟩
      · rintro rfl
        exact (hfits.stays hj).1
      · exact fun hc _ => hkill hc
      · rintro hc rfl
        exact hexit hc hq.pid
      · intro hc hpid hid
        by_cases hcm : commits s.kernel.kmem (e.label s).c = true
        · exact absurd (hcommit hcm hpid) hid
        · rw [hexec hc (Bool.eq_false_of_not_eq_true hcm)]
    · exact ⟨e.p, h.self hends hexits⟩
  · cases hs

/-- In a run in which no thread with a lock is ended by another one, every lock is
held by a live thread. -/
theorem no_dead_holder {s : LState} (hr : ReachOk Start step KeepsHolders s) : HeldByLive s := by
  have hinv : Ids s.kernel ∧ HeldByLinked s := by
    refine hr.invariant (fun s => Ids s.kernel ∧ HeldByLinked s) ?_ ?_
    · intro s0 h0
      rcases h0.1.started with ⟨p, i, h⟩
      refine ⟨h.ids, fun l j hj => ?_⟩
      rw [h0.2] at hj
      cases hj
    · intro s0 e s1 h hok hs
      refine ⟨?_, step_held s0 e s1 h.1 h.2 hok hs⟩
      unfold step at hs
      split at hs
      · rcases Option.map_eq_some_iff.1 hs with ⟨k', hnext, rfl⟩
        exact next_ids h.1 hnext
      · cases hs
  intro l j hj
  rcases hinv.2 l j hj with ⟨r, hlink⟩
  exact hlink.live

/-! ## A lock that is lost -/

def startLocks (s : Kernel) : LState := ⟨s, fun _ => Sleeplock.free⟩

/-- Where the turns of a list lead, as long as they meet `ok`. -/
def runLocks (ok : LState → Event → Prop) [∀ s e, Decidable (ok s e)] (es : List Event) :
    Option LState :=
  start.bind fun s => Lib.exec (only step ok) (startLocks s) es

theorem runLocks_reachOk {ok : LState → Event → Prop} [∀ s e, Decidable (ok s e)]
    {es : List Event} {s : LState} (h : runLocks ok es = some s) : ReachOk Start step ok s := by
  rcases Option.bind_eq_some_iff.1 h with ⟨s0, h0, h⟩
  have hstart : Start (startLocks s0) := ⟨start_init h0, fun _ => rfl⟩
  exact (ReachOk.init hstart).exec_only h

def firstInode : LockId := .inode ⟨0, by decide⟩

/-- `init` forks, its child creates a thread, and this one takes the lock of an inode. -/
def locking : List Event :=
  [⟨0, 0, .call .fork, 0, 0⟩, ⟨1, 1, .call .thread_create, 0, 0⟩,
    ⟨1, 2, .acquiresleep firstInode, 3800, 3820⟩]

/-- The main thread of the child exits meanwhile. -/
theorem lock_lost : ∃ s, Reachable Start step s ∧ ¬ HeldByLive s := by
  have hrun : (runLocks (fun _ _ => True) (locking ++ [⟨1, 1, .call .exit, 0, 0⟩])).map (fun s =>
      ((s.lock firstInode).holder, (s.kernel.pthread 2).state)) = some (some 2, .THZOMBIE) := by
    decide +kernel
  rcases Option.map_eq_some_iff.1 hrun with ⟨s, hs, hv⟩
  simp only [Prod.mk.injEq] at hv
  refine ⟨s, runLocks_reachOk hs, fun hlive => ?_⟩
  rcases hlive firstInode 2 hv.1 with h | h
  · rw [hv.2] at h
    cases h
  · rw [hv.2] at h
    cases h

/-- A turn that ends no thread of another one. -/
def Spares (s : LState) (e : Event) : Prop :=
  (e.label s).c.kills = none ∧ (e.label s).c.exits = false ∧ (e.label s).c.execs = false

instance (s : LState) (e : Event) : Decidable (Spares s e) := inferInstanceAs (Decidable (_ ∧ _))

/-- A step that ends no holder keeps the holders. -/
theorem Spares.keeps {s : LState} {e : Event} (h : Spares s e) : KeepsHolders s e := by
  intro l j _
  rcases h with ⟨hk, hx, hc⟩
  refine ⟨?_, ?_, ?_⟩
  · rw [hk]
    exact fun hn => nomatch hn
  · rw [hx]
    exact fun hn => nomatch hn
  · intro hcm
    rw [commits_execs hcm] at hc
    cases hc

/-- The main thread waits for the lock. -/
theorem no_dead_holder_waiting : ∃ s, (s.lock firstInode).holder = some 2 ∧
    (s.kernel.pthread 1).state = .SLEEPING ∧ HeldByLive s := by
  have hrun : (runLocks Spares (locking ++ [⟨1, 1, .acquiresleep firstInode, 0, 0⟩])).map
      (fun s => ((s.lock firstInode).holder, (s.kernel.pthread 1).state)) =
        some (some 2, .SLEEPING) := by
    decide +kernel
  rcases Option.map_eq_some_iff.1 hrun with ⟨s, hs, hv⟩
  simp only [Prod.mk.injEq] at hv
  exact ⟨s, hv.1, hv.2, no_dead_holder ((runLocks_reachOk hs).mono fun _ _ => Spares.keeps)⟩

end Xv6.Thread.Locks
