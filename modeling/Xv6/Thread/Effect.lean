import Xv6.Thread.Boot

/-!
# What a call can do

Every call is described by what it leaves of each thread slot and each process:
a slot is kept (and perhaps woken or marked), taken or given back, and a process
is kept, adopted, reparented, made or taken apart. The claims about threads that
do not run read these descriptions and never the code of a call.

`Effect` collects them, with what may have happened depending on the call that was
made; `call_effect` has one case for each call. The last sections draw the first
conclusions: what a step does to a slot that is not on the CPU, that ids are
unique (`ids_slices`), and which links there are between slots and processes.
Memory is no part of it, so nothing is assumed of it but that the code returns.
-/

namespace Xv6.Thread

open Xv6.Lib Prog

/-! ## Kinds of calls -/

/-- Whether a call may run the loop of `wait`. -/
def waiting (k : Cont) : Call → Bool
  | .wait => true
  | .resume _ => k = .wait
  | _ => false

namespace Call

def execs : Call → Bool
  | .exec .. | .exec2 .. => true
  | _ => false

/-- Whether a call may run `wakeup1`. -/
def wakes : Call → Bool
  | .inside w _ => w.isSome
  | .wakeup _ | .thread_exit _ | .exit => true
  | _ => false

/-- Whether a call is `thread_exit`. -/
def ends : Call → Bool
  | .thread_exit _ => true
  | _ => false

def exits : Call → Bool
  | .exit => true
  | _ => false

def forks : Call → Bool
  | .fork => true
  | _ => false

def kills : Call → Option Int
  | .kill pid => some pid
  | _ => none

end Call

theorem Call.execs_stays {c : Call} (h : c.execs = true) : c.exits = false ∧ c.ends = false := by
  cases c <;> first | exact ⟨rfl, rfl⟩ | cases h

theorem Call.forks_stays {c : Call} (h : c.forks = true) : c.exits = false ∧ c.ends = false := by
  cases c <;> first | exact ⟨rfl, rfl⟩ | cases h

/-- Only `fork` makes copies. -/
theorem CopiesApart.of_forks {p : Pidx} {s : Kernel} {c : Call} (h : c.forks = false) :
    CopiesApart p s c := by
  unfold CopiesApart
  split
  · cases h
  · trivial

/-! ## Slots -/

/-- The slot still holds the same thread, with all that is its own. -/
structure Kept (t t' : Pthread) : Prop where
  th_sz : t'.th_sz = t.th_sz
  pid : t'.pid = t.pid
  kstack : t'.kstack = t.kstack
  tf : t'.tf = t.tf
  context : t'.context = t.context
  thread_id : t'.thread_id = t.thread_id
  joiner : t'.joiner_pthread = t.joiner_pthread
  chan : t'.chan = t.chan

@[refl, simp] theorem Kept.refl (t : Pthread) : Kept t t := ⟨rfl, rfl, rfl, rfl, rfl, rfl, rfl, rfl⟩

/-- The state that a call of a thread of process `pid` gives to thread `t`. -/
inductive Marked (c : Call) (pid : Nat) (t : Pthread) : ProcState → Prop
  | same : Marked c pid t t.state
  | woken (hc : c.wakes = true) (h : t.state = .SLEEPING) : Marked c pid t .RUNNABLE
  | killed (hc : c.kills = some (t.pid : Int)) :
      Marked c pid t (if t.thread_id = MAINTH then .RUNNABLE else .THZOMBIE)
  | exited (hc : c.exits = true) (h : t.pid = pid) : Marked c pid t .THZOMBIE

/-- A thread that can be dispatched or woken. -/
def Live (t : Pthread) : Prop := t.state = .RUNNABLE ∨ t.state = .SLEEPING

instance (t : Pthread) : Decidable (Live t) := inferInstanceAs (Decidable (_ ∨ _))

theorem Live.inUse {t : Pthread} (h : Live t) : t.state ≠ .UNUSED := by
  rcases h with h | h <;> rw [h] <;> decide

/-- A slot that has been given back. -/
structure Gone (t' : Pthread) : Prop where
  state : t'.state = .UNUSED
  pid : t'.pid = 0

/-- What call `c` of thread `i` of process `p`, which stood at `k`, leaves of slot `j`. -/
inductive SlotEffect (p : Pidx) (i : Tidx) (k : Cont) (c : Call) (s s' : Kernel) (j : Tidx) : Prop
  | kept (h : Kept (s.pthread j) (s'.pthread j)) (hc : s'.cont j = s.cont j)
      (hm : Marked c (s.proc p).pid (s.pthread j) (s'.pthread j).state)
  | taken (free : (s.pthread j).state = .UNUSED)
      (pid : (s'.pthread j).state = .UNUSED ∧ (s'.pthread j).pid = (s.pthread j).pid ∨
        (s'.pthread j).pid = (s.proc p).pid ∨
        s.nextpid ≤ (s'.pthread j).pid ∧ (s'.pthread j).pid < s'.nextpid)
  | joined (hc : (joining k c).isSome = true) (h : (s.pthread j).state = .THZOMBIE)
      (pid : (s.pthread j).pid = (s.proc p).pid)
      (stack : (s.pthread j).kstack ≠ (s.proc p).kstack) (gone : Gone (s'.pthread j))
  | waited (z : Pidx) (hc : waiting k c = true) (hz : (s.proc z).state = .ZOMBIE)
      (hp : (s.proc z).parent_pthread = some i) (pid : (s.pthread j).pid = (s.proc z).pid)
      (stack : (s.pthread j).kstack ≠ (s.proc p).kstack) (gone : Gone (s'.pthread j))
  | deleted (hc : c.execs = true) (pid : (s.pthread j).pid = (s.proc p).pid)
      (id : (s.pthread j).thread_id ≠ (s.proc p).thread_id)
      (stack : (s.pthread j).kstack ≠ (s.proc p).kstack) (gone : Gone (s'.pthread j))

/-! ## Processes -/

/-- What call `c` of thread `i` of process `p` leaves of process `q`. The state
of `p` itself is told apart. -/
inductive ProcEffect (p : Pidx) (i : Tidx) (k : Cont) (c : Call) (s s' : Kernel) (q : Pidx) : Prop
  | kept (pid : (s'.proc q).pid = (s.proc q).pid)
      (state : q ≠ p → (s'.proc q).state = (s.proc q).state ∨
        (s.proc q).state = .SLEEPING ∧ (s'.proc q).state = .RUNNABLE)
      (parent_proc : (s'.proc q).parent_proc = (s.proc q).parent_proc)
      (parent_pthread : (s'.proc q).parent_pthread = (s.proc q).parent_pthread)
      (stays : c.exits = true → (s.proc q).parent_proc ≠ some p)
      (lives : c.execs = true → ∀ d, (s.proc q).parent_pthread = some d →
        s'.pthread d = s.pthread d)
  | adopted (hc : c.exits = true) (parent : (s.proc q).parent_proc = some p)
      (pid : (s'.proc q).pid = (s.proc q).pid)
      (state : q ≠ p → (s'.proc q).state = (s.proc q).state)
      (parent_proc : (s'.proc q).parent_proc = some s.initproc)
      (parent_pthread : (s'.proc q).parent_pthread = (s.proc s.initproc).parent_pthread)
  | reparented (d : Tidx) (hc : c.execs = true) (parent : (s.proc q).parent_pthread = some d)
      (hd : (s.pthread d).pid = (s.proc p).pid)
      (pid : (s'.proc q).pid = (s.proc q).pid)
      (state : q ≠ p → (s'.proc q).state = (s.proc q).state)
      (parent_proc : (s'.proc q).parent_proc = (s.proc q).parent_proc)
      (parent_pthread : (s'.proc q).parent_pthread = some i)
  | made (hc : c.forks = true) (found : (findProc fun x => (s.proc x).state = .UNUSED) = some q)
      (pid : (s'.proc q).pid = s.nextpid)
      (lt : s.nextpid < s'.nextpid)
      (alive : (s'.proc q).state ≠ .UNUSED → (s'.proc q).state = .RUNNABLE ∧
        (s'.proc q).parent_proc = some p ∧ (s'.proc q).parent_pthread = some i)
  | reaped (hc : waiting k c = true) (state : (s.proc q).state = .ZOMBIE)
      (parent : (s.proc q).parent_pthread = some i) (hu : (s'.proc q).state = .UNUSED)
      (pid : (s'.proc q).pid = 0)

/-- The state of the process when the call is over. -/
inductive Parked (k : Cont) (c : Call) (x' : Proc) : Outcome → Prop
  | ret (v : Int) (h : x'.state = .RUNNING) : Parked k c x' (.ret v)
  | asleep (k' : Cont) (hk : k' ≠ .user) (h : x'.state = .SLEEPING) : Parked k c x' (.switch k')
  | preempted (h : x'.state = .RUNNABLE) : Parked k c x' (.switch .sleep)
  | thread_exit (hc : c.ends = true) (h : x'.state = .THZOMBIE) :
      Parked k c x' (.switch .user)
  | exit (hc : c.exits = true) (h : x'.state = .ZOMBIE) : Parked k c x' (.switch .user)

/-- What call `c` of thread `i` of process `p`, which stood at `k`, can do. -/
structure Effect (p : Pidx) (i : Tidx) (k : Cont) (c : Call) (s s' : Kernel) (r : Outcome) :
    Prop where
  slot : ∀ j, SlotEffect p i k c s s' j
  proc : ∀ q, ProcEffect p i k c s s' q
  parked : Parked k c (s'.proc p) r
  not_init : c.exits = true → p ≠ s.initproc
  nextpid : s.nextpid ≤ s'.nextpid
  initproc : s'.initproc = s.initproc
  /-- the process goes on with the same thread, on the same stack -/
  wears : (s'.proc p).kstack = (s.proc p).kstack ∧ (s'.proc p).thread_idx = (s.proc p).thread_idx

variable {s s' : Kernel} {p q : Pidx} {i j : Tidx} {k : Cont} {c : Call} {r : Outcome}

theorem SlotEffect.of_eq (h : s'.pthread j = s.pthread j) (hc : s'.cont j = s.cont j) :
    SlotEffect p i k c s s' j := by
  refine .kept (by rw [h]) hc ?_
  rw [h]
  exact .same

/-- A process of which no field that is described has changed. -/
structure ProcKept (x y : Proc) : Prop where
  pid : y.pid = x.pid
  state : y.state = x.state
  parent_proc : y.parent_proc = x.parent_proc
  parent_pthread : y.parent_pthread = x.parent_pthread
  thread_id : y.thread_id = x.thread_id
  kstack : y.kstack = x.kstack
  thread_idx : y.thread_idx = x.thread_idx

@[refl, simp] theorem ProcKept.refl (x : Proc) : ProcKept x x :=
  ⟨rfl, rfl, rfl, rfl, rfl, rfl, rfl⟩

theorem ProcKept.effect (h : ProcKept (s.proc q) (s'.proc q)) (hc : c.exits = false)
    (hx : c.execs = true → s'.pthread = s.pthread) : ProcEffect p i k c s s' q :=
  .kept h.pid (fun _ => .inl h.state) h.parent_proc h.parent_pthread (by simp [hc])
    fun hx' d _ => congrFun (hx hx') d

/-- Nothing that is described has changed. -/
structure Quiet (s s' : Kernel) : Prop where
  proc : ∀ q, ProcKept (s.proc q) (s'.proc q)
  th : s'.pthread = s.pthread
  cont : s'.cont = s.cont
  nextpid : s'.nextpid = s.nextpid
  initproc : s'.initproc = s.initproc

theorem Quiet.rfl' : Quiet s s := ⟨fun _ => .refl _, rfl, rfl, rfl, rfl⟩

/-- Only other fields of one process have changed. -/
theorem Quiet.of_proc (p : Pidx) (hne : ∀ q, q ≠ p → s'.proc q = s.proc q)
    (hp : ProcKept (s.proc p) (s'.proc p)) (hth : s'.pthread = s.pthread)
    (hc : s'.cont = s.cont) (hn : s'.nextpid = s.nextpid) (hi : s'.initproc = s.initproc) :
    Quiet s s' where
  proc := fun q => by
    by_cases hq : q = p
    · exact hq ▸ hp
    · rw [hne q hq]
  th := hth
  cont := hc
  nextpid := hn
  initproc := hi

/-- A call that changes the memory of its process alone has the least effect. -/
theorem Quiet.effect (h : Quiet s s') (hrun : (s.proc p).state = .RUNNING) (hc : c.exits = false)
    (v : Int) : Effect p i k c s s' (.ret v) where
  slot := fun j => .of_eq (by rw [h.th]) (by rw [h.cont])
  proc := fun q => (h.proc q).effect hc fun _ => h.th
  parked := .ret v (by rw [(h.proc p).state, hrun])
  not_init := by simp [hc]
  nextpid := h.nextpid.ge
  initproc := h.initproc
  wears := ⟨(h.proc p).kstack, (h.proc p).thread_idx⟩

/-- An effect is read off the described fields of the state before the call. -/
theorem Effect.of_quiet {s0 : Kernel} (h : Effect p i k c s0 s' r) (hq : Quiet s s0) :
    Effect p i k c s s' r where
  slot := fun j => by
    -- the slots are the same, and the fields that the effect speaks of
    have hth := congrFun hq.th j
    cases h.slot j with
    | kept hk hc hm =>
        rw [hth] at hk hm
        rw [(hq.proc p).pid] at hm
        exact .kept hk (by rw [hc, hq.cont]) hm
    | taken free pid =>
        rw [hth] at free pid
        rw [(hq.proc p).pid, hq.nextpid] at pid
        exact .taken free pid
    | joined hc hz pid stack gone =>
        rw [hth] at hz pid stack
        rw [(hq.proc p).pid] at pid
        rw [(hq.proc p).kstack] at stack
        exact .joined hc hz pid stack gone
    | waited z hc hz hp pid stack gone =>
        rw [hth, (hq.proc z).pid] at pid
        rw [(hq.proc z).state] at hz
        rw [(hq.proc z).parent_pthread] at hp
        rw [hth, (hq.proc p).kstack] at stack
        exact .waited z hc hz hp pid stack gone
    | deleted hc pid id stack gone =>
        rw [hth, (hq.proc p).pid] at pid
        rw [hth, (hq.proc p).thread_id] at id
        rw [hth, (hq.proc p).kstack] at stack
        exact .deleted hc pid id stack gone
  proc := fun q => by
    have hpq := hq.proc q
    cases h.proc q with
    | kept pid state pp pt stays lives =>
        rw [hpq.pid] at pid
        rw [hpq.state] at state
        rw [hpq.parent_proc] at pp stays
        rw [hpq.parent_pthread] at pt lives
        rw [hq.th] at lives
        exact .kept pid state pp pt stays lives
    | adopted hc parent pid state pp pt =>
        rw [hpq.parent_proc] at parent
        rw [hpq.pid] at pid
        rw [hpq.state] at state
        rw [hq.initproc] at pp
        rw [hq.initproc, (hq.proc _).parent_pthread] at pt
        exact .adopted hc parent pid state pp pt
    | reparented d hc parent hd pid state pp pt =>
        rw [hpq.parent_pthread] at parent
        rw [hq.th, (hq.proc p).pid] at hd
        rw [hpq.pid] at pid
        rw [hpq.state] at state
        rw [hpq.parent_proc] at pp
        exact .reparented d hc parent hd pid state pp pt
    | made hc found pid lt alive =>
        have hst : (fun x => decide ((s0.proc x).state = .UNUSED)) =
            fun x => decide ((s.proc x).state = .UNUSED) :=
          funext fun x => by rw [(hq.proc x).state]
        rw [hst] at found
        rw [hq.nextpid] at pid lt
        exact .made hc found pid lt alive
    | reaped hc state parent hu pid =>
        rw [hpq.state] at state
        rw [hpq.parent_pthread] at parent
        exact .reaped hc state parent hu pid
  parked := h.parked
  not_init := hq.initproc ▸ h.not_init
  nextpid := hq.nextpid ▸ h.nextpid
  initproc := h.initproc.trans hq.initproc
  wears := ⟨h.wears.1.trans (hq.proc p).kstack, h.wears.2.trans (hq.proc p).thread_idx⟩

/-! ## Sleeping and waking -/

/-- Thread `i` runs as process `p`, on the stack of its slot. The slot may have been
marked by `kill` since it was picked, and the process may have a new `thread_id`. -/
structure Wears (p : Pidx) (i : Tidx) (s : Kernel) : Prop where
  running : (s.proc p).state = .RUNNING
  thread_idx : (s.proc p).thread_idx = i
  pid : (s.pthread i).pid = (s.proc p).pid
  kstack : (s.pthread i).kstack = (s.proc p).kstack
  state : (s.pthread i).state = .RUNNABLE ∨ (s.pthread i).state = .THZOMBIE

theorem Pickable.wears (h : Pickable s p i) : Wears p i (s.dressed p i) := by
  refine ⟨?_, ?_, ?_, ?_, .inl h.2.2⟩ <;> simp [Kernel.dressed]

/-- The process still wears its thread then. -/
theorem Wears.quiet (h : Wears p i s) (hq : Quiet s s') : Wears p i s' where
  running := by rw [(hq.proc p).state, h.running]
  thread_idx := by rw [(hq.proc p).thread_idx, h.thread_idx]
  pid := by rw [hq.th, (hq.proc p).pid, h.pid]
  kstack := by rw [hq.th, (hq.proc p).kstack, h.kstack]
  state := by rw [hq.th]; exact h.state

/-- After a sleep. -/
theorem Wears.unchan (h : Wears p i s) : Wears p i
    (s.setProc p fun x => { x with chan := .null }) where
  running := by simpa using h.running
  thread_idx := by simpa using h.thread_idx
  pid := by simpa using h.pid
  kstack := by simpa using h.kstack
  state := h.state

/-- `sleep` switches out with the state `SLEEPING`. -/
theorem sleep_wp {ch : Chan} {k' : Cont} {Q : Outcome → Kernel → Prop} {E : Stop → Prop}
    (h : Q (.switch k') (s.setProc p fun x => { x with chan := ch, state := .SLEEPING })) :
    wp (sleep p ch k') s Q E := by
  unfold sleep
  simp only [wp_bind, wp_setProc]
  refine sched_wp (fun hr => ?_) fun _ => (wp_pure ..).2 h
  simp at hr

/-- The effect of a call that sleeps. -/
theorem sleep_effect {ch : Chan} {k' : Cont} (hk : k' ≠ .user) (hc : c.exits = false) :
    wp (sleep p ch k') s (fun r s' => Effect p i k c s s' r) fun _ => True := by
  refine sleep_wp ⟨fun j => .of_eq rfl rfl, fun q => ?_, .asleep k' hk ?_, by simp [hc],
    Nat.le_refl _, rfl, by simp⟩
  · by_cases hq : q = p
    · subst hq
      refine .kept ?_ (fun hn => absurd rfl hn) ?_ ?_ (by simp [hc]) fun _ _ _ => rfl <;> simp
    · refine ProcKept.effect ?_ hc fun _ => rfl
      simp [hq]
  · simp

theorem wake_kept (ch : Chan) (t : Pthread) : Kept t (wake ch t) := by
  unfold wake
  split <;> exact ⟨rfl, rfl, rfl, rfl, rfl, rfl, rfl, rfl⟩

/-- What two calls in a row keep of a slot. -/
theorem Kept.trans {t t1 t2 : Pthread} (h : Kept t t1) (h' : Kept t1 t2) : Kept t t2 where
  th_sz := h'.th_sz.trans h.th_sz
  pid := h'.pid.trans h.pid
  kstack := h'.kstack.trans h.kstack
  tf := h'.tf.trans h.tf
  context := h'.context.trans h.context
  thread_id := h'.thread_id.trans h.thread_id
  joiner := h'.joiner.trans h.joiner
  chan := h'.chan.trans h.chan

/-- A wakeup marks at most the sleepers on its channel. -/
theorem wake_marked {pid : Nat} (ch : Chan) (t : Pthread) (hc : c.wakes = true) :
    Marked c pid t (wake ch t).state := by
  unfold wake
  split
  · next h => exact .woken hc h.1
  · exact .same

/-- The effect of a wakeup on one slot. -/
theorem SlotEffect.wake (ch : Chan) (hc : c.wakes = true)
    (h : s'.pthread j = Thread.wake ch (s.pthread j)) (hj : s'.cont j = s.cont j) :
    SlotEffect p i k c s s' j := by
  refine .kept ?_ hj ?_
  · rw [h]
    exact wake_kept ch _
  · rw [h]
    exact wake_marked ch _ hc

/-- The effect of `wakeup`. -/
theorem wakeup_effect {ch : Chan} (hrun : (s.proc p).state = .RUNNING) :
    Effect p i k (.wakeup ch) s (s.woken ch) (.ret 0) where
  slot := fun j => .wake ch rfl rfl rfl
  proc := fun q => ProcKept.effect (.refl _) rfl (by simp [Call.execs])
  parked := .ret 0 hrun
  not_init := by simp [Call.exits]
  nextpid := Nat.le_refl _
  initproc := rfl
  wears := ⟨rfl, rfl⟩

/-- The thread has perhaps woken others, and its process has another state. -/
theorem Effect.of_parked {s1 : Kernel} {f : Proc → Proc} (hproc : s1.proc = s.proc)
    (hth : ∀ j, SlotEffect p i k c s (s1.setProc p f) j) (hn : s1.nextpid = s.nextpid)
    (hi : s1.initproc = s.initproc) (hc : c.exits = false) (hx : c.execs = false)
    (hpid : (f (s.proc p)).pid = (s.proc p).pid)
    (hpp : (f (s.proc p)).parent_proc = (s.proc p).parent_proc)
    (hpt : (f (s.proc p)).parent_pthread = (s.proc p).parent_pthread)
    (hw : (f (s.proc p)).kstack = (s.proc p).kstack ∧
      (f (s.proc p)).thread_idx = (s.proc p).thread_idx)
    (hparked : Parked k c (f (s.proc p)) r) : Effect p i k c s (s1.setProc p f) r where
  slot := hth
  proc := fun q => by
    by_cases hq : q = p
    · subst hq
      refine .kept ?_ (fun hn => absurd rfl hn) ?_ ?_ (by simp [hc]) (by simp [hx])
      · rw [Kernel.setProc_self, hproc, hpid]
      · rw [Kernel.setProc_self, hproc, hpp]
      · rw [Kernel.setProc_self, hproc, hpt]
    · refine ProcKept.effect ?_ hc (by simp [hx])
      rw [Kernel.setProc_ne hq, hproc]
  parked := by
    rw [Kernel.setProc_self, hproc]
    exact hparked
  not_init := by simp [hc]
  nextpid := hn.ge
  initproc := hi
  wears := by
    rw [Kernel.setProc_self, hproc]
    exact hw

/-- The effect of a call into the rest of the kernel. -/
theorem inside_effect {w z : Option Chan} :
    wp (inside p k w z) s (fun r s' => Effect p i k (.inside w z) s s' r) fun _ => True := by
  -- where the call gives up the CPU, the sleepers of `w` may have been woken
  refine inside_wp (Quiet s) (fun s1 => ∃ s0, Quiet s s0 ∧ s1.proc = s0.proc ∧
      s1.nextpid = s0.nextpid ∧ s1.initproc = s0.initproc ∧
      ∀ f j, SlotEffect p i k (.inside w z) s0 (s1.setProc p f) j) .rfl' ?_ ?_ ?_ ?_
  · refine .of_proc p (fun q hq => by simp [hq]) ?_ rfl rfl rfl rfl
    constructor <;> simp
  · intro s0 hq
    refine ⟨⟨s0, hq, rfl, rfl, rfl, fun _ _ => .of_eq rfl rfl⟩, fun ch hw => ?_⟩
    subst hw
    exact ⟨s0, hq, rfl, rfl, rfl, fun _ _ => .wake ch rfl rfl rfl⟩
  · rintro s1 ch ⟨s0, hq, hproc, hn, hi, hth⟩ rfl
    refine wp.mono (sleep_wp ?_) (fun r s2 (h2 : Effect p i k _ s0 s2 r) => h2.of_quiet hq) fun _
      he => he
    exact .of_parked hproc (hth _) hn hi rfl rfl rfl rfl rfl ⟨rfl, rfl⟩ (.asleep _ (by decide) rfl)
  · rintro s1 ⟨s0, hq, hproc, hn, hi, hth⟩ rfl
    unfold yieldInside
    simp only [wp_bind, wp_setProc]
    refine sched_wp (fun _ => trivial) fun _ => (wp_pure ..).2 (Effect.of_quiet ?_ hq)
    exact .of_parked hproc (hth _) hn hi rfl rfl rfl rfl rfl ⟨rfl, rfl⟩ (.preempted rfl)

/-! ## Memory -/

/-- `growproc` changes the memory of its process alone. -/
theorem growproc_quiet {n : Int} :
    wp (growproc p n) s (fun _ s' => Quiet s s') fun _ => True := by
  unfold growproc
  simp only [wp_bind, wp_get]
  refine wp_ite (fun _ => (wp_pure ..).2 .rfl') fun _ => ?_
  rw [wp_bind]
  refine getPgdir_wp (fun pd _ => ?_) fun _ => trivial
  rw [wp_bind, wp_onKmem]
  refine wp_any fun r m => ?_
  simp only [wp_bind, wp_setPgdir]
  refine wp_ite (fun _ => (wp_pure ..).2 ?_) fun _ => ?_
  · refine .of_proc p (fun q hq => by simp [hq]) ?_ rfl rfl rfl rfl
    constructor <;> simp
  · simp only [wp_bind, wp_setProc]
    refine switchuvm_wp ((wp_pure ..).2 ?_) trivial trivial
    refine .of_proc p (fun q hq => by simp [hq]) ?_ rfl rfl rfl rfl
    constructor <;> simp

/-- `setmemorylimit` changes a limit alone. -/
theorem setmemorylimit_quiet {pid limit : Int} :
    wp (setmemorylimit pid limit) s (fun _ s' => Quiet s s') fun _ => True := by
  unfold setmemorylimit
  refine wp_ite (fun _ => (wp_pure ..).2 .rfl') fun _ => ?_
  simp only [wp_bind, wp_get]
  cases findProc _ with
  | none => exact (wp_pure ..).2 .rfl'
  | some q =>
      refine wp_ite (fun _ => (wp_pure ..).2 .rfl') fun _ => ?_
      simp only [wp_bind, wp_setProc, wp_pure]
      refine .of_proc q (fun r hr => by simp [hr]) ?_ rfl rfl rfl rfl
      constructor <;> simp

/-! ## Threads -/

/-- What `pthread_exec` leaves: memory of `p`, and the stack of slot `th`. -/
structure Stacked (p : Pidx) (th : Tidx) (s s' : Kernel) : Prop where
  proc : ∀ q, ProcKept (s.proc q) (s'.proc q)
  others : ∀ j, j ≠ th → s'.pthread j = s.pthread j
  th : ∃ sz, s'.pthread th = { s.pthread th with th_sz := sz }
  cont : s'.cont = s.cont
  nextpid : s'.nextpid = s.nextpid
  initproc : s'.initproc = s.initproc

/-- A call that changes its own process alone. -/
theorem Stacked.of_proc {th : Tidx} (hne : ∀ q, q ≠ p → s'.proc q = s.proc q)
    (hp : ProcKept (s.proc p) (s'.proc p)) (hth : s'.pthread = s.pthread)
    (hc : s'.cont = s.cont) (hn : s'.nextpid = s.nextpid) (hi : s'.initproc = s.initproc) :
    Stacked p th s s' :=
  have h := Quiet.of_proc p hne hp hth hc hn hi
  ⟨h.proc, fun j _ => by rw [hth], ⟨(s.pthread th).th_sz, by rw [hth]⟩, hc, hn, hi⟩

/-- `pthread_exec` gives the new thread a user stack. -/
theorem pthread_exec_stacked {th : Tidx} :
    wp (pthread_exec p th) s (fun _ s' => Stacked p th s s') fun _ => True := by
  have hrfl : Stacked p th s s :=
    .of_proc (fun _ _ => rfl) (.refl _) rfl rfl rfl rfl
  unfold pthread_exec
  simp only [wp_bind, wp_get]
  refine wp_ite (fun _ => (wp_pure ..).2 hrfl) fun _ => ?_
  rw [wp_bind]
  refine getPgdir_wp (fun pd _ => ?_) fun _ => trivial
  rw [wp_bind, wp_onKmem]
  refine wp_any fun r m => ?_
  simp only [wp_bind, wp_setPgdir]
  -- the two ways to fail, with the memory grown or not
  refine wp_ite (fun _ => (wp_pure ..).2 ?_) fun _ => ?_
  · refine .of_proc (fun q hq => by simp [hq]) ?_ rfl rfl rfl rfl
    constructor <;> simp
  rw [wp_bind, wp_onKmem]
  refine wp_any fun pd2 m2 => ?_
  simp only [wp_bind, wp_setPgdir, wp_onKmem]
  refine wp_any fun b m3 => ?_
  refine wp_ite (fun _ => (wp_pure ..).2 ?_) fun _ => ?_
  · refine .of_proc (fun q hq => by simp [hq]) ?_ rfl rfl rfl rfl
    constructor <;> simp
  have hdone : ∀ (sz : Nat) (f : Proc → Proc), ProcKept (s.proc p) (f (s.proc p)) →
      Stacked p th s (((((s.setKmem m3)).setProc p f)).setTh th fun t =>
        { t with th_sz := sz }) := by
    intro sz f hf
    refine ⟨fun q => ?_, fun j hj => by simp [hj], ⟨sz, by simp⟩, rfl, rfl, rfl⟩
    by_cases hq : q = p
    · subst hq
      simpa using hf
    · simp [hq]
  -- a freed place, or one on top
  cases (s.proc p).freed_sz.pop with
  | some q =>
      simp only [wp_bind, wp_setProc, wp_setTh, wp_pure, Kernel.setKmem_setProc,
        Kernel.setKmem_setKmem, Kernel.setProc_setProc]
      refine hdone _ _ ?_
      constructor <;> rfl
  | none =>
      simp only [wp_bind, wp_setProc, wp_setTh, wp_pure, Kernel.setKmem_setProc,
        Kernel.setKmem_setKmem, Kernel.setProc_setProc]
      refine hdone _ _ ?_
      constructor <;> rfl

/-- Only slot `n`, which was free, and memory have changed. -/
theorem Effect.of_free {n : Tidx} (hrun : (s.proc p).state = .RUNNING)
    (free : (s.pthread n).state = .UNUSED) (hproc : ∀ q, ProcKept (s.proc q) (s'.proc q))
    (hth : ∀ j, j ≠ n → s'.pthread j = s.pthread j ∧ s'.cont j = s.cont j)
    (hpid : (s'.pthread n).state = .UNUSED ∧ (s'.pthread n).pid = (s.pthread n).pid ∨
      (s'.pthread n).pid = (s.proc p).pid)
    (hn : s'.nextpid = s.nextpid) (hi : s'.initproc = s.initproc) (hc : c.exits = false)
    (hx : c.execs = false) (v : Int) : Effect p i k c s s' (.ret v) where
  slot := fun j => by
    by_cases hj : j = n
    · subst hj
      exact .taken free (hpid.imp_right .inl)
    · exact .of_eq (hth j hj).1 (hth j hj).2
  proc := fun q => (hproc q).effect hc (by simp [hx])
  parked := .ret v (by rw [(hproc p).state, hrun])
  not_init := by simp [hc]
  nextpid := hn.ge
  initproc := hi
  wears := ⟨(hproc p).kstack, (hproc p).thread_idx⟩

/-- What a failed `allocthread` leaves. -/
theorem Effect.of_no_memory {d : Tidx} (hrun : (s.proc p).state = .RUNNING)
    (free : (s.pthread d).state = .UNUSED) (hc : c.exits = false) (hx : c.execs = false)
    (v : Int) : Effect p i k c s (s.setTh d fun t => { t with kstack := 0 }) (.ret v) :=
  .of_free hrun free (fun _ => by simp) (fun j hj => by simp [hj]) (by simp [free]) (by simp)
    (by simp) hc hx v

/-- The effect of `thread_create`: a slot more, or none. -/
theorem thread_create_effect (h : Wears p i s) :
    wp (thread_create p) s (fun _ s' => ∀ v, Effect p i k .thread_create s s' (.ret v))
      fun _ => True := by
  have hrun := h.running
  unfold thread_create pthread_fork
  simp only [wp_bind]
  refine allocthread_wp (fun _ => ?_) (fun d hd _ => ?_) fun n kst m hn _ _ => ?_
  -- no slot is free, or no page for the kernel stack
  · exact (wp_pure ..).2 ((wp_pure ..).2 fun v => Quiet.rfl'.effect hrun rfl v)
  · exact (wp_pure ..).2 ((wp_pure ..).2 fun v => .of_no_memory hrun hd rfl rfl v)
  simp only [wp_bind, wp_setProc, wp_get, wp_setTh, wp_pure]
  refine wp.mono pthread_exec_stacked (fun ok s1 h1 => ?_) fun _ he => he
  have hproc : ∀ q, ProcKept (s.proc q) (s1.proc q) := by
    intro q
    have hq' := h1.proc q
    by_cases hq : q = p
    · subst hq
      simpa using ProcKept.mk (by simpa using hq'.pid) (by simpa using hq'.state)
        (by simpa using hq'.parent_proc) (by simpa using hq'.parent_pthread)
        (by simpa using hq'.thread_id) (by simpa using hq'.kstack) (by simpa using hq'.thread_idx)
    · simpa [hq] using hq'
  have hth : ∀ j, j ≠ n → s1.pthread j = s.pthread j ∧ s1.cont j = s.cont j := by
    intro j hj
    refine ⟨?_, by rw [h1.cont]; rfl⟩
    simpa [hj] using h1.others j hj
  have hnext : s1.nextpid = s.nextpid := h1.nextpid
  have hinit : s1.initproc = s.initproc := h1.initproc
  -- the user stack has failed and the slot is free again, or the thread is made
  refine wp_ite (fun _ => ?_) fun _ => ?_
  · simp only [wp_bind, wp_setTh, wp_pure]
    refine fun v => .of_free hrun hn (fun q => by simpa using hproc q) (fun j hj => ?_) (.inr ?_)
      (by simpa using hnext) (by simpa using hinit) rfl rfl v
    · simpa [hj] using hth j hj
    · rcases h1.th with ⟨sz, hsz⟩
      simp [hsz]
  · simp only [wp_bind, wp_get, wp_setTh, wp_setCont, wp_pure]
    refine fun v => .of_free hrun hn (fun q => by simpa using hproc q) (fun j hj => ?_) (.inr ?_)
      (by simpa using hnext) (by simpa using hinit) rfl rfl v
    · simpa [hj] using hth j hj
    · simpa using (hproc p).pid

/-- `kill` marks the first process with the pid. -/
theorem kill_wp {pid : Int} {Q : Int → Kernel → Prop} {E : Stop → Prop} (hnone : Q (-1) s)
    (hsome : ∀ q : Pidx, ((s.proc q).pid : Int) = pid → Q 0
      { s.setProc q fun x => { x with
          killed := true, state := if x.state = .SLEEPING then .RUNNABLE else x.state } with
        pthread := fun j =>
          if ((s.pthread j).pid : Int) = pid then
            { s.pthread j with
              state := if (s.pthread j).thread_id = MAINTH then .RUNNABLE else .THZOMBIE }
          else s.pthread j }) : wp (kill pid) s Q E := by
  unfold kill
  simp only [wp_bind, wp_get]
  cases hf : findProc _ with
  | none => exact (wp_pure ..).2 hnone
  | some q =>
      simp only [wp_bind, wp_setProc, wp_modify, wp_pure]
      exact hsome q (by simpa using findProc_some hf)

/-- The effect of `kill`. -/
theorem kill_effect {pid : Int} (h : Wears p i s) :
    wp (kill pid) s (fun v s' => Effect p i k (.kill pid) s s' (.ret v)) fun _ => True := by
  refine kill_wp (Quiet.rfl'.effect h.running rfl _) fun q hq => ?_
  refine ⟨fun j => ?_, fun r => ?_, .ret 0 ?_, by simp [Call.exits], Nat.le_refl _, rfl, ?_⟩
  · by_cases hj : ((s.pthread j).pid : Int) = pid
    · refine .kept ?_ rfl ?_
      · simp only [hj, if_true]
        exact ⟨rfl, rfl, rfl, rfl, rfl, rfl, rfl, rfl⟩
      · simp only [hj, if_true]
        exact .killed (by simp [Call.kills, hj])
    · exact .of_eq (by simp [hj]) rfl
  · by_cases hr : r = q
    · subst hr
      refine .kept ?_ (fun _ => ?_) ?_ ?_ (by simp [Call.exits]) (by simp [Call.execs]) <;> simp
      by_cases hs : (s.proc r).state = .SLEEPING <;> simp [hs]
    · refine ProcKept.effect ?_ rfl (by simp [Call.execs])
      simp [hr]
  · by_cases hp : p = q
    · subst hp
      simp [h.running]
    · simp [hp, h.running]
  · by_cases hp : p = q
    · subst hp
      simp
    · simp [hp]

/-- The effect of `thread_exit`: the slot is a zombie, or the whole process was ended. -/
theorem thread_exit_effect {retval : Nat} (h : Wears p i s) :
    wp (thread_exit p retval) s
      (fun r s' => Effect p i k (.thread_exit retval) s s' r) fun _ => True := by
  unfold thread_exit
  simp only [wp_bind, wp_get]
  refine wp_ite (fun _ => ?_) fun _ => ?_
  · -- `kill` leaves the caller RUNNING, and `sched` panics
    simp only [wp_bind, wakeup1_wp]
    refine wp.mono (kill_effect (k := k) h) (fun v s1 h1 => ?_) fun _ he => he
    refine sched_wp (fun _ => trivial) fun hn => absurd ?_ hn
    cases h1.parked with
    | ret _ hr => exact hr
  · simp only [wp_bind, wp_setTh, wp_setProc, wakeup1_wp]
    refine sched_wp (fun _ => trivial) fun _ => (wp_pure ..).2 ?_
    rw [h.thread_idx]
    refine ⟨fun j => ?_, fun q => ?_, .thread_exit rfl (by simp), by simp [Call.exits],
      Nat.le_refl _, rfl, by simp⟩
    -- the slot of the thread that exits, and those of who waits for it
    · by_cases hj : j = i
      · subst hj
        refine .kept ?_ rfl ?_
        · refine Kept.trans ⟨?_, ?_, ?_, ?_, ?_, ?_, ?_, ?_⟩ (wake_kept _ _) <;> simp
        · have hm : Marked (.thread_exit retval) (s.proc p).pid (s.pthread j)
              (wake (chanOf (s.proc p).joiner_pthread)
                { s.pthread j with retval := retval }).state := by
            unfold wake
            rw [if_neg (by rcases h.state with hs | hs <;> simp [hs])]
            exact .same
          simpa [Kernel.woken] using hm
      · exact .wake (chanOf (s.proc p).joiner_pthread) rfl (by simp [Kernel.woken, hj]) rfl
    · by_cases hq : q = p
      · subst hq
        refine .kept ?_ (fun hn => absurd rfl hn) ?_ ?_ (by simp [Call.exits])
          (by simp [Call.execs]) <;> simp
      · refine ProcKept.effect ?_ rfl (by simp [Call.execs])
        simp [hq]

/-- The effect of freeing a zombie thread. -/
theorem reapThread_effect {d : Tidx} (hrun : (s.proc p).state = .RUNNING)
    (hd : (s.pthread d).state = .THZOMBIE) (hpid : (s.pthread d).pid = (s.proc p).pid)
    (hj : (joining k c).isSome = true) (hc : c.exits = false) (hx : c.execs = false) :
    wp (reapThread p d) s (fun _ s' => ∀ v, Effect p i k c s s' (.ret v)) fun _ => True := by
  unfold reapThread
  simp only [wp_bind, wp_get]
  refine kfreeStack_wp (fun m _ hne => ?_) fun _ _ => trivial
  simp only [wp_onKmem, wp_setTh, wp_setProc]
  refine getPgdir_wp (fun pd _ => ?_) fun _ => trivial
  simp only [wp_setPgdir, wp_pure]
  refine wp_any fun r m2 => fun v => ⟨fun j => ?_, fun q => ?_, .ret v ?_, by simp [hc],
    Nat.le_refl _, rfl, by simp⟩
  · by_cases hjd : j = d
    · subst hjd
      exact .joined hj hd hpid hne.symm ⟨by simp, by simp⟩
    · exact .of_eq (by simp [hjd]) rfl
  · refine ProcKept.effect ?_ hc (by simp [hx])
    by_cases hq : q = p
    · subst hq
      constructor <;> simp
    · simp [hq]
  · simpa using hrun

/-- The effect of the scan of `thread_join`: it frees the thread, fails or sleeps. -/
theorem joinScan_effect {t w : Nat} (h : Wears p i s) (hj : (joining k c).isSome = true)
    (hc : c.exits = false) (hx : c.execs = false) :
    wp (joinScan p t w) s (fun r s' => Effect p i k c s s' r) fun _ => True := by
  unfold joinScan
  simp only [wp_bind, wp_get]
  cases hf : findTh _ with
  | some d =>
      have hd := findTh_some hf
      unfold mayJoin at hd
      simp only [decide_eq_true_eq] at hd
      simp only [wp_bind]
      refine wp.mono (reapThread_effect (i := i) h.running hd.2 hd.1.1 hj hc hx)
        (fun _ s1 h1 => (wp_pure ..).2 (h1 0)) fun _ he => he
  | none =>
      refine wp_ite (fun _ => (wp_pure ..).2 (Quiet.rfl'.effect h.running hc _)) fun _ => ?_
      exact sleep_effect (by simp) hc

/-! ## Processes -/

/-- A slot that `deleteThread` has cleared. -/
def emptied (t : Pthread) : Pthread :=
  { t with
    th_sz := 0, pid := 0, kstack := 0, state := .UNUSED, chan := .null, ptable_idx := 0
    thread_id := 0, joiner_pthread := none, retval := 0 }

theorem emptied_gone (t : Pthread) : Gone (emptied t) := ⟨rfl, rfl⟩

/-- The slots of a list that `f` accepts have been cleared, and none had the stack `K`. -/
structure Cleared (ths : List Tidx) (f : Pthread → Bool) (K : Nat) (s s' : Kernel) : Prop where
  th : ∀ j, s'.pthread j =
    if j ∈ ths ∧ f (s.pthread j) = true then emptied (s.pthread j) else s.pthread j
  stack : ∀ j ∈ ths, f (s.pthread j) = true → (s.pthread j).kstack ≠ K
  cont : s'.cont = s.cont
  nextpid : s'.nextpid = s.nextpid
  initproc : s'.initproc = s.initproc

theorem Cleared.nil {f : Pthread → Bool} {K : Nat} : Cleared [] f K s s :=
  ⟨fun j => by simp, by simp, rfl, rfl, rfl⟩

/-- One slot more is cleared. -/
theorem Cleared.cons {s1 : Kernel} {d : Tidx} {ths : List Tidx} {f : Pthread → Bool} {K : Nat}
    (h : Cleared ths f K s1 s') (hd : d ∉ ths) (hne : ∀ j, j ≠ d → s1.pthread j = s.pthread j)
    (hdd : s1.pthread d = if f (s.pthread d) = true then emptied (s.pthread d) else s.pthread d)
    (hk : f (s.pthread d) = true → (s.pthread d).kstack ≠ K)
    (hc : s1.cont = s.cont) (hn : s1.nextpid = s.nextpid) (hi : s1.initproc = s.initproc) :
    Cleared (d :: ths) f K s s' where
  th := fun j => by
    rw [h.th]
    by_cases hj : j = d
    · subst hj
      simp [hd, hdd]
    · simp [hj, hne j hj]
  stack := fun j hj hf => by
    rcases List.mem_cons.1 hj with rfl | hm
    · exact hk hf
    · have hjd : j ≠ d := by
        rintro rfl
        exact hd hm
      have hst := h.stack j hm
      rw [hne j hjd] at hst
      exact hst hf
  cont := h.cont.trans hc
  nextpid := h.nextpid.trans hn
  initproc := h.initproc.trans hi

/-- `wait` clears the slots of the child that it frees. -/
theorem reapThreads_wp {pid : Nat} {ths : List Tidx} (hnd : ths.Nodup) :
    wp (reapThreads p pid ths) s (fun _ s' =>
      Cleared ths (fun t => t.pid = pid) (s.proc p).kstack s s' ∧ s'.proc = s.proc)
      fun _ => True := by
  induction ths generalizing s with
  | nil => exact (wp_pure ..).2 ⟨.nil, rfl⟩
  | cons d ths ih =>
      rw [List.nodup_cons] at hnd
      unfold reapThreads
      simp only [wp_bind, wp_get]
      refine wp_ite (fun hd => ?_) fun hd => ?_
      · unfold deleteThread
        simp only [wp_bind, wp_get]
        refine kfreeStack_wp (fun m _ hk => ?_) fun _ _ => trivial
        rw [wp_setTh]
        refine wp.mono (ih hnd.2) (fun _ s1 h1 => ?_) fun _ he => he
        refine ⟨h1.1.cons hnd.1 (fun j hj => ?_) ?_ (fun _ => hk.symm) rfl rfl rfl, h1.2⟩
        · simp [hj]
        · simp [hd, emptied]
      · refine wp.mono (ih hnd.2) (fun _ s1 h1 => ?_) fun _ he => he
        exact ⟨h1.1.cons hnd.1 (fun _ _ => rfl) (by simp [hd]) (by simp [hd]) rfl rfl rfl, h1.2⟩

/-- The effect of the scan of `wait`: it frees a child, fails or sleeps. -/
theorem waitScan_effect (h : Wears p i s) (hw : waiting k c = true) (hc : c.exits = false)
    (hx : c.execs = false) :
    wp (waitScan p) s (fun r s' => Effect p i k c s s' r) fun _ => True := by
  unfold waitScan
  simp only [wp_bind, wp_get]
  cases hf : findProc _ with
  | none =>
      -- no zombie child: the call fails or sleeps
      refine wp_ite (fun _ => (wp_pure ..).2 (Quiet.rfl'.effect h.running hc _)) fun _ => ?_
      exact sleep_effect (by simp) hc
  | some z =>
      have hz := findProc_some hf
      simp only [decide_eq_true_eq] at hz
      rw [h.thread_idx] at hz
      -- the caller runs, so it is not the zombie
      have hzp : p ≠ z := by
        rintro rfl
        rw [h.running] at hz
        exact absurd hz.2 (by decide)
      unfold reapProc
      simp only [wp_bind, wp_get]
      refine wp.mono (reapThreads_wp (List.nodup_finRange _)) (fun _ s1 h1 => ?_) fun _ he => he
      rcases h1 with ⟨h1, hproc⟩
      cases (s.proc z).pgdir with
      | none => exact wp_halt.2 trivial
      | some pd =>
          simp only [wp_bind, wp_onKmem]
          refine wp_any fun _ m => ?_
          simp only [wp_setProc, wp_pure]
          refine ⟨fun j => ?_, fun q => ?_, .ret _ ?_, by simp [hc], h1.nextpid.ge, h1.initproc,
            by simp [hzp, hproc]⟩
          · have hj := h1.th j
            simp only [List.mem_finRange, true_and, decide_eq_true_eq] at hj
            by_cases hp : (s.pthread j).pid = (s.proc z).pid
            · rw [if_pos hp] at hj
              refine .waited z hw hz.2 hz.1 hp
                (h1.stack j (List.mem_finRange j) (by simpa using hp)) ?_
              simp only [Kernel.setProc_pthread, Kernel.setKmem_pthread, hj]
              exact emptied_gone _
            · rw [if_neg hp] at hj
              exact .of_eq (by simpa using hj) (by simp [h1.cont])
          · by_cases hq : q = z
            · subst hq
              exact .reaped hw hz.2 hz.1 (by simp) (by simp)
            · refine ProcKept.effect ?_ hc (by simp [hx])
              simp [hq, hproc]
          · simp [hzp, hproc, h.running]

/-- Some threads have been woken. -/
structure Roused (s s' : Kernel) : Prop where
  proc : s'.proc = s.proc
  th : ∀ j, Kept (s.pthread j) (s'.pthread j) ∧ ((s'.pthread j).state = (s.pthread j).state ∨
    (s.pthread j).state = .SLEEPING ∧ (s'.pthread j).state = .RUNNABLE)
  cont : s'.cont = s.cont
  nextpid : s'.nextpid = s.nextpid
  initproc : s'.initproc = s.initproc

/-- A wakeup rouses sleepers and nobody else. -/
theorem Roused.woken (s : Kernel) (ch : Chan) : Roused s (s.woken ch) := by
  refine ⟨rfl, fun j => ⟨wake_kept ch _, ?_⟩, rfl, rfl, rfl⟩
  simp only [Kernel.woken, wake]
  split
  · next h => exact .inr ⟨h.1, rfl⟩
  · exact .inl rfl

/-- Two wakeups in a row. -/
theorem Roused.trans {s1 s2 s3 : Kernel} (h : Roused s1 s2) (h' : Roused s2 s3) :
    Roused s1 s3 where
  proc := h'.proc.trans h.proc
  th := fun j => by
    refine ⟨(h.th j).1.trans (h'.th j).1, ?_⟩
    rcases (h'.th j).2 with h2 | ⟨h2, h3⟩
    · rw [h2]
      exact (h.th j).2
    · right
      rcases (h.th j).2 with h1 | ⟨h1, -⟩
      · exact ⟨h1 ▸ h2, h3⟩
      · exact ⟨h1, h3⟩
  cont := h'.cont.trans h.cont
  nextpid := h'.nextpid.trans h.nextpid
  initproc := h'.initproc.trans h.initproc

/-- The effect of the end of `exit`, after its wakeups. -/
theorem exited_effect {s0 : Kernel} {ch : Option Tidx} (hc : c.exits = true)
    (hx : c.execs = false) (hw : c.wakes = true)
    (hch : ch = (s.proc s.initproc).parent_pthread) (hni : p ≠ s.initproc) (hr : Roused s s0) :
    Effect p i k c s (s0.exited p ch) (.switch .user) := by
  rcases hr with ⟨hproc, hth, hcont, hn, hin⟩
  -- the children are handed to `init`, and keep everything else
  have hadopt : ∀ q, (adopt p s0.initproc ch (s0.proc q)).pid = (s.proc q).pid ∧
      (adopt p s0.initproc ch (s0.proc q)).state = (s.proc q).state := by
    intro q
    unfold adopt
    rw [hproc]
    split <;> exact ⟨rfl, rfl⟩
  have hpp : ((s0.exited p ch).proc p).pid = (s.proc p).pid := by
    simp [Kernel.exited, hadopt]
  have hwears : ((s0.exited p ch).proc p).kstack = (s.proc p).kstack ∧
      ((s0.exited p ch).proc p).thread_idx = (s.proc p).thread_idx := by
    simp only [Kernel.exited, Kernel.setProc_self, hproc]
    unfold adopt
    split <;> exact ⟨rfl, rfl⟩
  refine ⟨fun j => ?_, fun q => ?_, .exit hc (by simp [Kernel.exited]), fun _ => hni, hn.ge, hin,
    hwears⟩
  · rcases hth j with ⟨hk, hs⟩
    have hj : (s0.exited p ch).pthread j =
        if (s.pthread j).pid = (s.proc p).pid then { s0.pthread j with state := .THZOMBIE }
        else s0.pthread j := by
      simp [Kernel.exited, hadopt, hk.pid]
    -- the slots of the process are zombies, and sleepers elsewhere were woken
    by_cases hp : (s.pthread j).pid = (s.proc p).pid
    · rw [if_pos hp] at hj
      refine .kept ?_ (congrFun hcont j) ?_
      · rw [hj]
        exact hk.trans ⟨rfl, rfl, rfl, rfl, rfl, rfl, rfl, rfl⟩
      · rw [hj]
        exact .exited hc hp
    · rw [if_neg hp] at hj
      refine .kept ?_ (congrFun hcont j) ?_
      · rw [hj]
        exact hk
      · rw [hj]
        rcases hs with hs | ⟨hs, hs'⟩
        · rw [hs]
          exact .same
        · rw [hs']
          exact .woken hw hs
  · have hne : q ≠ p → (s0.exited p ch).proc q = adopt p s.initproc ch (s.proc q) := by
      intro hq
      simp [Kernel.exited, hq, hproc, hin]
    have hpq : (s0.exited p ch).proc p =
        { adopt p s.initproc ch (s.proc p) with state := .ZOMBIE } := by
      simp [Kernel.exited, hproc, hin]
    -- a child of the process, and the others
    by_cases hpar : (s.proc q).parent_proc = some p
    · refine .adopted hc hpar ?_ (fun hq => ?_) ?_ ?_
      · by_cases hq : q = p
        · rw [hq, hpp]
        · rw [hne hq]
          simp [adopt, hpar]
      · rw [hne hq]
        simp [adopt, hpar]
      · by_cases hq : q = p
        · subst hq
          rw [hpq]
          simp [adopt, hpar]
        · rw [hne hq]
          simp [adopt, hpar]
      · by_cases hq : q = p
        · subst hq
          rw [hpq]
          simp [adopt, hpar, hch]
        · rw [hne hq]
          simp [adopt, hpar, hch]
    · refine .kept ?_ (fun hq => .inl ?_) ?_ ?_ (fun _ => hpar) (by simp [hx])
      · by_cases hq : q = p
        · rw [hq, hpp]
        · rw [hne hq]
          simp [adopt, hpar]
      · rw [hne hq]
        simp [adopt, hpar]
      · by_cases hq : q = p
        · subst hq
          rw [hpq]
          simp [adopt, hpar]
        · rw [hne hq]
          simp [adopt, hpar]
      · by_cases hq : q = p
        · subst hq
          rw [hpq]
          simp [adopt, hpar]
        · rw [hne hq]
          simp [adopt, hpar]

/-- The effect of `exit`. -/
theorem exit_effect :
    wp (exit p) s (fun r s' => Effect p i k .exit s s' r) fun _ => True := by
  unfold exit
  simp only [wp_bind, wp_get]
  refine wp_ite (fun _ => wp_halt.2 trivial) fun hi => ?_
  simp only [wp_bind, wakeup1_wp]
  refine wp_ite (fun _ => ?_) fun _ => ?_
  · simp only [wp_bind, wakeup1_wp, wp_modify, wp_setProc]
    refine sched_wp (fun _ => trivial) fun _ => (wp_pure ..).2 ?_
    exact exited_effect rfl rfl rfl rfl hi ((Roused.woken s _).trans (.woken _ _))
  · simp only [wp_bind, wp_modify, wp_setProc]
    refine sched_wp (fun _ => trivial) fun _ => (wp_pure ..).2 ?_
    exact exited_effect rfl rfl rfl rfl hi (.woken s _)

/-! ## exec -/

/-- Thread `t` is a sibling of the thread with id `id` of process `pid`. -/
def sibling (pid id : Nat) (t : Pthread) : Bool := t.pid = pid ∧ t.thread_id ≠ id

/-- Where the children of the siblings go. -/
def heir (s : Kernel) (pid id : Nat) (ths : List Tidx) (to' : Tidx) (x : Proc) : Proc :=
  match x.parent_pthread with
  | none => x
  | some d =>
      if d ∈ ths ∧ sibling pid id (s.pthread d) = true then { x with parent_pthread := some to' }
      else x

theorem heir_nil {pid id : Nat} {to' : Tidx} {x : Proc} : heir s pid id [] to' x = x := by
  unfold heir
  split <;> simp

/-- The stacks that `deleteOthers` frees. -/
def stacksOf (s : Kernel) (p : Pidx) (ths : List Tidx) : List Nat :=
  (ths.filter fun i => sibling (s.proc p).pid (s.proc p).thread_id (s.pthread i)).map fun i =>
    (s.pthread i).kstack

/-- The siblings are taken apart, and the caller's own slot is not among them. -/
theorem deleteOthers_slots {ths : List Tidx} (hnd : ths.Nodup) :
    wp (deleteOthers p ths) s (fun _ s' =>
      Cleared ths (sibling (s.proc p).pid (s.proc p).thread_id) (s.proc p).kstack s s' ∧
        s'.kmem.pages = (stacksOf s p ths).reverse ++ s.kmem.pages ∧
        (s'.proc p).thread_idx = (s.proc p).thread_idx) fun _ => True := by
  induction ths generalizing s with
  | nil => exact (wp_pure ..).2 ⟨.nil, rfl, rfl⟩
  | cons d ths ih =>
      rcases List.nodup_cons.1 hnd with ⟨hd, hnd⟩
      unfold deleteOthers deleteOther
      simp only [wp_bind, wp_get]
      refine wp_ite (fun hsib => ?_) fun hsib => ?_
      · have hsib : sibling (s.proc p).pid (s.proc p).thread_id (s.pthread d) = true := by
          simpa [sibling] using hsib
        unfold deleteThread
        simp only [wp_bind, wp_modify, wp_get]
        refine kfreeStack_wp (fun m hg hk => (wp_setTh ..).2 ?_) fun _ _ => trivial
        -- the slot is not on the stack that the call runs on, else it would not return
        have hk : (s.pthread d).kstack ≠ (s.proc p).kstack := by
          intro he
          refine hk ?_
          show (reparent _ _ _).kstack = _
          rw [← he.symm]
          unfold reparent
          split <;> rfl
        generalize hs1 : Kernel.setTh _ d _ = s1
        have hsame : (s1.proc p).pid = (s.proc p).pid ∧
            (s1.proc p).thread_id = (s.proc p).thread_id ∧
              (s1.proc p).thread_idx = (s.proc p).thread_idx ∧
                (s1.proc p).kstack = (s.proc p).kstack := by
          subst hs1
          show (reparent _ _ _).pid = _ ∧ (reparent _ _ _).thread_id = _ ∧
            (reparent _ _ _).thread_idx = _ ∧ (reparent _ _ _).kstack = _
          unfold reparent
          split <;> exact ⟨rfl, rfl, rfl, rfl⟩
        have hne : ∀ j, j ≠ d → s1.pthread j = s.pthread j := by
          intro j hj
          subst hs1
          simp [hj]
        have hdd : s1.pthread d = emptied (s.pthread d) := by
          subst hs1
          simp [emptied]
        have hkm : s1.kmem.pages = (s.pthread d).kstack :: s.kmem.pages := by
          subst hs1
          exact hg.pages
        have hcont : s1.cont = s.cont ∧ s1.nextpid = s.nextpid ∧ s1.initproc = s.initproc := by
          subst hs1
          exact ⟨rfl, rfl, rfl⟩
        -- the stacks that are left to free are the same
        have hst : stacksOf s1 p ths = stacksOf s p ths := by
          unfold stacksOf
          rw [hsame.1, hsame.2.1]
          have hmem : ∀ i ∈ ths, s1.pthread i = s.pthread i := by
            intro i hi
            apply hne
            rintro rfl
            exact hd hi
          rw [List.filter_congr fun i hi => by rw [hmem i hi]]
          apply List.map_congr_left
          intro i hi
          rw [hmem i (List.mem_of_mem_filter hi)]
        refine (ih hnd).mono ?_ fun _ he => he
        rintro _ s2 ⟨hcl, hpages, hidx⟩
        rw [hsame.1, hsame.2.1, hsame.2.2.2] at hcl
        refine ⟨hcl.cons hd hne (by simp [hsib, hdd]) (fun _ => hk) hcont.1 hcont.2.1 hcont.2.2, ?_,
          hidx.trans hsame.2.2.1⟩
        rw [hpages, hst, hkm]
        simp [stacksOf, hsib]
      · have hsib : sibling (s.proc p).pid (s.proc p).thread_id (s.pthread d) = false := by
          simpa [sibling] using hsib
        refine (wp_pure ..).2 ((ih hnd).mono ?_ fun _ he => he)
        rintro _ s1 ⟨hcl, hpages, hidx⟩
        refine ⟨hcl.cons hd (fun _ _ => rfl) (by simp [hsib]) (by simp [hsib]) rfl rfl rfl,
          ?_, hidx⟩
        rw [hpages]
        simp [stacksOf, hsib]

/-- The children of the siblings go to the caller. -/
theorem deleteOthers_heir {ths : List Tidx} (hnd : ths.Nodup)
    (hi : sibling (s.proc p).pid (s.proc p).thread_id (s.pthread (s.proc p).thread_idx) = false) :
    wp (deleteOthers p ths) s (fun _ s' =>
      ∀ q, s'.proc q = heir s (s.proc p).pid (s.proc p).thread_id ths (s.proc p).thread_idx
        (s.proc q)) fun _ => True := by
  induction ths generalizing s with
  | nil => exact (wp_pure ..).2 fun q => heir_nil.symm
  | cons d ths ih =>
      rw [List.nodup_cons] at hnd
      unfold deleteOthers deleteOther
      simp only [wp_bind, wp_get]
      refine wp_ite (fun hd => ?_) fun hd => ?_
      · unfold deleteThread
        simp only [wp_bind, wp_modify, wp_get]
        refine kfreeStack_wp (fun m _ _ => ?_) fun _ _ => trivial
        rw [wp_setTh]
        have hds : sibling (s.proc p).pid (s.proc p).thread_id (s.pthread d) = true := by
          simpa [sibling] using hd
        -- the caller's own slot is spared, so it can inherit
        have hdi : (s.proc p).thread_idx ≠ d := by
          intro he
          rw [he, hds] at hi
          cases hi
        generalize hs1 : Kernel.setTh _ d _ = s1
        have hproc : ∀ q, s1.proc q = reparent d (s.proc p).thread_idx (s.proc q) := by
          intro q
          subst hs1
          rfl
        have hsame : (s1.proc p).pid = (s.proc p).pid ∧
            (s1.proc p).thread_id = (s.proc p).thread_id ∧
              (s1.proc p).thread_idx = (s.proc p).thread_idx := by
          rw [hproc]
          unfold reparent
          split <;> exact ⟨rfl, rfl, rfl⟩
        have hne : ∀ j, j ≠ d → s1.pthread j = s.pthread j := by
          intro j hj
          subst hs1
          simp [hj]
        -- and it is still spared by the rest of the loop
        have hi1 : sibling (s1.proc p).pid (s1.proc p).thread_id
            (s1.pthread (s1.proc p).thread_idx) = false := by
          rw [hsame.1, hsame.2.1, hsame.2.2, hne _ hdi, hi]
        refine wp.mono (ih hnd.2 hi1) (fun _ s2 h2 q => ?_) fun _ he => he
        rw [hsame.1, hsame.2.1, hsame.2.2] at h2
        rw [h2, hproc]
        unfold heir reparent
        cases hq : (s.proc q).parent_pthread with
        | none => simp [hq]
        | some e =>
            by_cases he : e = d
            · subst he
              have hx : sibling (s.proc p).pid (s.proc p).thread_id
                  (s1.pthread (s.proc p).thread_idx) = false := by rw [hne _ hdi, hi]
              simp [hds, hx]
            · simp [he, hq, hne e he]
      · refine (wp_pure ..).2 (wp.mono (ih hnd.2 hi) (fun _ s1 h1 q => ?_) fun _ he => he)
        have hds : sibling (s.proc p).pid (s.proc p).thread_id (s.pthread d) = false := by
          simpa [sibling] using hd
        rw [h1]
        unfold heir
        cases hq : (s.proc q).parent_pthread with
        | none => rfl
        | some e =>
            dsimp only
            by_cases he : e = d
            · subst he
              simp [hds]
            · simp [he]

/-- After `exec` the process wears the thread that it goes on with. -/
theorem heir_wears {pid id : Nat} {ths : List Tidx} {to' : Tidx} {x : Proc} :
    (heir s pid id ths to' x).kstack = x.kstack ∧
      (heir s pid id ths to' x).thread_idx = x.thread_idx := by
  unfold heir
  split
  · exact ⟨rfl, rfl⟩
  · split <;> exact ⟨rfl, rfl⟩

/-- `exec` keeps the pid, the state and the parent. -/
theorem heir_state {pid id : Nat} {ths : List Tidx} {to' : Tidx} {x : Proc} :
    (heir s pid id ths to' x).pid = x.pid ∧ (heir s pid id ths to' x).state = x.state ∧
      (heir s pid id ths to' x).parent_proc = x.parent_proc := by
  unfold heir
  split
  · exact ⟨rfl, rfl, rfl⟩
  · split <;> exact ⟨rfl, rfl, rfl⟩

/-- The effect of `exec` and `exec2`: the other slots of the process are cleared, or nothing
is changed. -/
theorem execWith_effect {elf : Option Elf} {argv : List Nat} {n : Nat} (h : Wears p i s)
    (hx : c.execs = true) (hc : c.exits = false) :
    wp (execWith p elf argv n) s (fun v s' => Effect p i k c s s' (.ret v)) fun _ => True := by
  unfold execWith
  simp only [wp_bind, wp_onKmem]
  refine wp_any fun r m => ?_
  have hm : Quiet s (s.setKmem m) := .of_proc p (fun _ _ => rfl) (.refl _) rfl rfl rfl rfl
  cases r with
  | none => exact (wp_pure ..).2 (hm.effect h.running hc _)
  | some img =>
      rcases img with ⟨pd, sz⟩
      unfold deleteThreads
      simp only [wp_bind, wp_setProc]
      have hslots := deleteOthers_slots (s := s.setKmem m) (p := p) (List.nodup_finRange NTHRD)
      by_cases hi : sibling (s.proc p).pid (s.proc p).thread_id (s.pthread i) = true
      · -- the thread would free the stack it runs on
        refine wp.mono hslots (fun _ s1 h1 => ?_) fun _ he => he
        exact absurd h.kstack (h1.1.stack i (List.mem_finRange i) hi)
      rw [Bool.not_eq_true] at hi
      -- the siblings are deleted and the caller inherits their children
      refine wp.mono (wp.and hslots (deleteOthers_heir (List.nodup_finRange _) ?_))
        (fun _ s1 h1 => ?_) fun _ he => he
      · rw [Kernel.setKmem_proc, h.thread_idx]
        exact hi
      simp only [Kernel.setKmem_proc, h.thread_idx] at h1
      rcases h1 with ⟨⟨hcl, -, -⟩, hheir⟩
      have hth : ∀ j, s1.pthread j = if sibling (s.proc p).pid (s.proc p).thread_id (s.pthread j)
          then emptied (s.pthread j) else s.pthread j := by
        intro j
        simpa using hcl.th j
      refine getPgdir_wp (fun old _ => ?_) fun _ => trivial
      refine switchuvm_wp ?_ trivial trivial
      simp only [wp_onKmem, wp_pure]
      refine wp_any fun _ m2 => ?_
      generalize hs2 : Kernel.setKmem _ m2 = s2
      have hth2 : s2.pthread = s1.pthread := by
        subst hs2
        rfl
      have hproc2 : ∀ q, (s2.proc q).pid = (s1.proc q).pid ∧ (s2.proc q).state = (s1.proc q).state ∧
          (s2.proc q).parent_proc = (s1.proc q).parent_proc ∧
            (s2.proc q).parent_pthread = (s1.proc q).parent_pthread ∧
              (s2.proc q).kstack = (s1.proc q).kstack ∧
                (s2.proc q).thread_idx = (s1.proc q).thread_idx := by
        intro q
        subst hs2
        by_cases hq : q = p
        · subst hq
          simp
        · simp [hq]
      have hst : ∀ q, (s2.proc q).pid = (s.proc q).pid ∧ (s2.proc q).state = (s.proc q).state ∧
          (s2.proc q).parent_proc = (s.proc q).parent_proc := by
        intro q
        rcases hproc2 q with ⟨a, b, d, -⟩
        rw [a, b, d, hheir]
        exact heir_state
      refine ⟨fun j => ?_, fun q => ?_, .ret 0 ?_, by simp [hc], ?_, ?_, ?_⟩
      -- a slot that is deleted, and one that is not
      · have hj := hth j
        rw [← hth2] at hj
        by_cases hsib : sibling (s.proc p).pid (s.proc p).thread_id (s.pthread j) = true
        · rw [if_pos hsib] at hj
          have hstack := hcl.stack j (List.mem_finRange j) hsib
          simp only [sibling, decide_eq_true_eq] at hsib
          refine .deleted hx hsib.1 hsib.2 hstack ?_
          rw [hj]
          exact emptied_gone _
        · rw [if_neg hsib] at hj
          refine .of_eq hj ?_
          subst hs2
          exact congrFun hcl.cont j
      · rcases hst q with ⟨a, b, d⟩
        have hpar : (s2.proc q).parent_pthread =
            (heir s (s.proc p).pid (s.proc p).thread_id (List.finRange NTHRD) i
              (s.proc q)).parent_pthread := by
          rw [(hproc2 q).2.2.2.1, hheir]
          rfl
        unfold heir at hpar
        -- a child of a deleted thread is a child of the caller now
        cases hq : (s.proc q).parent_pthread with
        | none =>
            rw [hq] at hpar
            refine .kept a (fun _ => .inl b) d (hpar.trans hq |>.trans hq.symm) (by simp [hc]) ?_
            intro _ e he
            rw [hq] at he
            cases he
        | some e =>
            rw [hq] at hpar
            by_cases hsib : sibling (s.proc p).pid (s.proc p).thread_id (s.pthread e) = true
            · simp only [List.mem_finRange, hsib, and_self, if_true] at hpar
              simp only [sibling, decide_eq_true_eq] at hsib
              exact .reparented e hx hq hsib.1 a (fun _ => b) d hpar
            · dsimp only at hpar
              rw [if_neg fun hs => hsib hs.2] at hpar
              refine .kept a (fun _ => .inl b) d (hpar.trans hq |>.trans hq.symm) (by simp [hc]) ?_
              intro _ e' he'
              rw [hq] at he'
              cases he'
              rw [hth2, hth e, if_neg hsib]
      · rw [(hst p).2.1, h.running]
      · subst hs2
        exact hcl.nextpid.ge
      · subst hs2
        exact hcl.initproc
      · rw [(hproc2 p).2.2.2.2.1, (hproc2 p).2.2.2.2.2, hheir]
        exact heir_wears

/-! ## fork -/

/-- What the loop of `fork` that copies threads leaves, as seen from `s`. -/
structure CopiedTo (np : Pidx) (s s' : Kernel) : Prop where
  others : ∀ q, q ≠ np → s'.proc q = s.proc q
  proc : ProcKept (s.proc np) (s'.proc np)
  th : ∀ j, s'.pthread j = s.pthread j ∧ s'.cont j = s.cont j ∨
    (s.pthread j).state = .UNUSED ∧ ((s'.pthread j).pid = (s.proc np).pid ∨
      (s'.pthread j).state = .UNUSED ∧ (s'.pthread j).pid = (s.pthread j).pid)
  nextpid : s'.nextpid = s.nextpid
  initproc : s'.initproc = s.initproc

theorem CopiedTo.rfl' {np : Pidx} : CopiedTo np s s :=
  ⟨fun _ _ => rfl, .refl _, fun _ => .inl ⟨rfl, rfl⟩, rfl, rfl⟩

/-- What two calls in a row keep of a process. -/
theorem ProcKept.trans {x y z : Proc} (h : ProcKept x y) (h' : ProcKept y z) : ProcKept x z where
  pid := h'.pid.trans h.pid
  state := h'.state.trans h.state
  parent_proc := h'.parent_proc.trans h.parent_proc
  parent_pthread := h'.parent_pthread.trans h.parent_pthread
  thread_id := h'.thread_id.trans h.thread_id
  kstack := h'.kstack.trans h.kstack
  thread_idx := h'.thread_idx.trans h.thread_idx

/-- Copying threads one after the other. -/
theorem CopiedTo.trans {np : Pidx} {s1 s2 s3 : Kernel} (h : CopiedTo np s1 s2)
    (h' : CopiedTo np s2 s3) : CopiedTo np s1 s3 where
  others := fun q hq => (h'.others q hq).trans (h.others q hq)
  proc := h.proc.trans h'.proc
  th := fun j => by
    rcases h'.th j with ⟨h2, hc⟩ | ⟨h2, hc⟩
    · rw [h2, hc]
      exact h.th j
    · rw [h.proc.pid] at hc
      right
      rcases h.th j with ⟨h1, -⟩ | ⟨h1, hc1⟩
      · rw [h1] at h2 hc
        exact ⟨h2, hc⟩
      · refine ⟨h1, ?_⟩
        rcases hc with hc | ⟨hu, hc⟩
        · exact .inl hc
        · rcases hc1 with hc1 | ⟨-, hc1⟩
          · exact .inl (hc.trans hc1)
          · exact .inr ⟨hu, hc.trans hc1⟩
  nextpid := h'.nextpid.trans h.nextpid
  initproc := h'.initproc.trans h.initproc

/-- Copying one thread touches the child's slots alone. -/
theorem forkThread_copied {np : Pidx} {th : Tidx} :
    wp (forkThread p np th) s (fun _ s' => CopiedTo np s s') fun _ => True := by
  have hkilled : ∀ s1 : Kernel,
      CopiedTo np s1 (s1.setProc np fun x => { x with killed := true }) := by
    intro s1
    refine ⟨fun q hq => by simp [hq], ?_, fun _ => .inl ⟨rfl, rfl⟩, rfl, rfl⟩
    constructor <;> simp
  unfold forkThread
  simp only [wp_bind, wp_get]
  refine wp_ite (fun _ => (wp_pure ..).2 .rfl') fun _ => ?_
  rw [wp_bind]
  refine allocthread_wp (fun _ => ?_) (fun d hd _ => ?_) fun n kst m hn _ _ => ?_
  · simp only [wp_bind, wp_setProc, wp_pure]
    exact hkilled s
  · simp only [wp_bind, wp_setProc, wp_pure]
    have h0 : CopiedTo np s (s.setTh d fun t => { t with kstack := 0 }) := by
      refine ⟨fun _ _ => rfl, .refl _, fun j => ?_, rfl, rfl⟩
      by_cases hj : j = d
      · subst hj
        exact .inr ⟨hd, .inr (by simp [hd])⟩
      · exact .inl (by simp [hj])
    exact h0.trans (hkilled _)
  · simp only [wp_bind, wp_get, wp_setTh, wp_setCont, wp_pure]
    refine ⟨fun _ _ => rfl, .refl _, fun j => ?_, rfl, rfl⟩
    by_cases hj : j = n
    · subst hj
      exact .inr ⟨hn, .inl (by simp)⟩
    · exact .inl (by simp [hj])

/-- Copying the threads touches the child's slots alone. By induction on the table. -/
theorem forkThreads_copied {np : Pidx} {ths : List Tidx} :
    wp (forkThreads p np ths) s (fun _ s' => CopiedTo np s s') fun _ => True := by
  induction ths generalizing s with
  | nil => exact (wp_pure ..).2 .rfl'
  | cons th ths ih =>
      unfold forkThreads
      rw [wp_bind]
      refine wp.mono forkThread_copied (fun ok s1 h1 => ?_) fun _ he => he
      refine wp_ite (fun _ => (wp_pure ..).2 h1) fun _ => ?_
      exact wp.mono ih (fun _ s2 h2 => h1.trans h2) fun _ he => he

/-- What `fork` leaves when it has found slots `np` and `th`. -/
structure ForkedTo (p : Pidx) (i : Tidx) (np : Pidx) (th : Tidx) (s s' : Kernel) : Prop where
  found : (findProc fun x => (s.proc x).state = .UNUSED) = some np
  free : (s.proc np).state = .UNUSED
  free_th : (s.pthread th).state = .UNUSED
  others : ∀ q, q ≠ np → s'.proc q = s.proc q
  pid : (s'.proc np).pid = s.nextpid
  alive : (s'.proc np).state ≠ .UNUSED → (s'.proc np).state = .RUNNABLE ∧
    (s'.proc np).parent_proc = some p ∧ (s'.proc np).parent_pthread = some i
  rest : ∀ j, j ≠ th → s'.pthread j = s.pthread j ∧ s'.cont j = s.cont j
  new_pid : (s'.pthread th).pid = s.nextpid
  nextpid : s'.nextpid = s.nextpid + 1
  initproc : s'.initproc = s.initproc

/-- The effect of `fork` once the child is made. -/
theorem ForkedTo.effect {np : Pidx} {th : Tidx} {s1 : Kernel} (h : ForkedTo p i np th s s1)
    (hc : CopiedTo np s1 s') (hrun : (s.proc p).state = .RUNNING) (v : Int) :
    Effect p i k .fork s s' (.ret v) := by
  have hpn : p ≠ np := by
    rintro rfl
    rw [h.free] at hrun
    cases hrun
  have hnew : ∀ j, (s'.pthread j).pid = s.nextpid →
      s.nextpid ≤ (s'.pthread j).pid ∧ (s'.pthread j).pid < s'.nextpid := by
    intro j hj
    rw [hj, hc.nextpid, h.nextpid]
    omega
  refine ⟨fun j => ?_, fun q => ?_, .ret v ?_, by simp [Call.exits], ?_,
    hc.initproc.trans h.initproc, by rw [hc.others p hpn, h.others p hpn]; exact ⟨rfl, rfl⟩⟩
  · by_cases hj : j = th
    · subst hj
      refine .taken h.free_th ?_
      -- the new main thread; it is its slot's first use, also where the fork has failed
      rcases hc.th j with ⟨h1, -⟩ | ⟨-, h1 | ⟨-, h1⟩⟩
      · exact .inr (.inr (hnew j (by rw [h1, h.new_pid])))
      · exact .inr (.inr (hnew j (by rw [h1, h.pid])))
      · exact .inr (.inr (hnew j (by rw [h1, h.new_pid])))
    -- another slot: a copy, or one that was not touched
    · rcases h.rest j hj with ⟨h0, h0c⟩
      rcases hc.th j with ⟨h1, h1c⟩ | ⟨hf, h1⟩
      · exact .of_eq (h1.trans h0) (h1c.trans h0c)
      · rw [h0] at hf h1
        refine .taken hf ?_
        rcases h1 with h1 | h1
        · exact .inr (.inr (hnew j (by rw [h1, h.pid])))
        · exact .inl h1
  · by_cases hq : q = np
    · subst hq
      refine .made rfl h.found (by rw [hc.proc.pid, h.pid]) ?_ fun hu => ?_
      · rw [hc.nextpid, h.nextpid]
        omega
      · rw [hc.proc.state] at hu ⊢
        rw [hc.proc.parent_proc, hc.proc.parent_pthread]
        exact h.alive hu
    · refine ProcKept.effect ?_ rfl (by simp [Call.execs])
      rw [hc.others q hq, h.others q hq]
  · rw [hc.others p hpn, h.others p hpn, hrun]
  · rw [hc.nextpid, h.nextpid]
    omega

/-- The effect of `fork`. -/
theorem fork_effect (h : Wears p i s) :
    wp (fork p) s (fun v s' => Effect p i k .fork s s' (.ret v)) fun _ => True := by
  have hrun := h.running
  unfold fork
  simp only [wp_bind]
  refine allocproc_wp (fun _ => ?_) (fun d hd _ => ?_) fun np th kst m hfnd hnp hth _ _ => ?_
  -- no process or slot is free, or no page for the stack
  · exact (wp_pure ..).2 (Quiet.rfl'.effect hrun rfl _)
  · exact (wp_pure ..).2 (.of_no_memory hrun hd rfl rfl _)
  have hpn : p ≠ np := by
    rintro rfl
    rw [hnp] at hrun
    cases hrun
  simp only [wp_bind, wp_get]
  refine getPgdir_wp (fun pd _ => ?_) fun _ => trivial
  rw [wp_onKmem]
  refine wp_any fun d m1 => ?_
  cases d with
  | none =>
      simp only [wp_bind, wp_onKmem]
      -- no memory for the copy of the address space
      refine wp_any fun _ m2 => ?_
      simp only [wp_setProc, wp_pure]
      have hf : ForkedTo p i np th s ((((s.newProc np th kst m).setKmem m1).setKmem m2).setProc np
          fun y => { y with pgdir := none, kstack := 0, state := .UNUSED }) := by
        refine ⟨hfnd, hnp, hth, fun q hq => ?_, ?_, ?_, fun j hj => ?_, ?_, rfl, rfl⟩
        · simp [Kernel.newProc, hq]
        · simp [Kernel.newProc, freshProc]
        · simp
        · simp [Kernel.newProc, hj]
        · simp [Kernel.newProc]
      exact hf.effect .rfl' hrun _
  | some d =>
      have hidx : ((s.newProc np th kst m).proc np).thread_idx = th := by
        simp [Kernel.newProc, freshProc]
      have hpp : (s.newProc np th kst m).proc p = s.proc p := by simp [Kernel.newProc, hpn]
      simp only [wp_bind, wp_setProc, wp_setCont, hidx, hpp]
      -- a thread that is not the main thread is copied alone; the main thread with its siblings
      refine wp_ite (fun _ => ?_) fun _ => ?_
      · simp only [wp_bind, wp_setProc, mvProcToThread_wp, clearProc_wp, wp_pure]
        generalize hs1 : Kernel.setProc _ np cleared = s1
        have hf : ForkedTo p i np th s s1 := by
          subst hs1
          refine ⟨hfnd, hnp, hth, fun q hq => ?_, ?_, fun _ => ?_, fun j hj => ?_, ?_, rfl, rfl⟩
          · simp [Kernel.newProc, hq]
          · simp [Kernel.newProc, freshProc, cleared]
          · simp [cleared, h.thread_idx]
          · simp [Kernel.newProc, hj]
          · simp [Kernel.newProc, undress, freshProc]
        exact hf.effect .rfl' hrun _
      · simp only [wp_bind, mvProcToThread_wp]
        generalize hs1 : Kernel.setTh _ th _ = s1
        have hf : ForkedTo p i np th s s1 := by
          subst hs1
          refine ⟨hfnd, hnp, hth, fun q hq => ?_, ?_, fun _ => ?_, fun j hj => ?_, ?_, rfl, rfl⟩
          · simp [Kernel.newProc, hq]
          · simp [Kernel.newProc, freshProc]
          · simp [h.thread_idx]
          · simp [Kernel.newProc, hj]
          · simp [Kernel.newProc, undress, freshProc]
        refine wp.mono forkThreads_copied (fun ok s2 h2 => ?_) fun _ he => he
        exact wp_ite (fun _ => (wp_pure ..).2 (hf.effect h2 hrun _))
          fun _ => (wp_pure ..).2 (hf.effect h2 hrun _)

/-! ## Every call -/

/-- What a call can do, whichever calls the thread has made since it was picked. -/
theorem call_effect {c : Call} (hw : Wears p i s) :
    wp (call p k c) s (fun r s' => Effect p i k c s s' r) fun _ => True := by
  have hrun := hw.running
  have hret : ∀ {x : M Int},
      wp x s (fun v s' => Effect p i k c s s' (.ret v)) (fun _ => True) →
      wp (do return .ret (← x)) s (fun r s' => Effect p i k c s s' r) fun _ => True := by
    intro x hx
    rw [wp_bind]
    exact wp.mono hx (fun v s1 h1 => (wp_pure ..).2 h1) fun _ _ => trivial
  -- one lemma for each call, above
  cases c with
  | yield => exact (wp_pure ..).2 (Quiet.rfl'.effect hrun rfl _)
  | sleep ch => exact sleep_effect (by simp) rfl
  | wakeup ch =>
      simp only [call, wp_bind, wakeup1_wp, wp_pure]
      exact wakeup_effect hrun
  | inside w z => exact inside_effect
  | thread_create =>
      simp only [call, wp_bind]
      refine wp.mono (thread_create_effect (k := k) hw) (fun r s1 h1 => ?_) fun _ he => he
      cases r <;> exact (wp_pure ..).2 (h1 _)
  | thread_exit v => exact thread_exit_effect hw
  | thread_join t w =>
      unfold call thread_join
      refine wp_ite (fun _ => (wp_pure ..).2 (Quiet.rfl'.effect hrun rfl _)) fun ht => ?_
      exact joinScan_effect hw (by simp [joining, ht]) rfl rfl
  | sbrk n => exact hret (wp.mono growproc_quiet
    (fun _ _ h1 => h1.effect hrun rfl _) fun _ he => he)
  | fork => exact hret (fork_effect hw)
  | exit => exact exit_effect
  | wait => exact waitScan_effect hw rfl rfl rfl
  | exec elf argv => exact hret (execWith_effect hw rfl rfl)
  | exec2 elf argv n =>
      refine hret ?_
      unfold exec2
      refine wp_ite (fun _ => (wp_pure ..).2 (Quiet.rfl'.effect hrun rfl _)) fun _ => ?_
      exact execWith_effect hw rfl rfl
  | kill pid => exact hret (kill_effect hw)
  | setmemorylimit pid limit =>
      exact hret (wp.mono setmemorylimit_quiet (fun _ _ h1 => h1.effect hrun rfl _) fun _ he => he)
  | resume w =>
      unfold call resume
      simp only [wp_bind, wp_setProc]
      have hq : Quiet s (s.setProc p fun x => { x with chan := .null }) := by
        refine .of_proc p (fun q hq => by simp [hq]) ?_ rfl rfl rfl rfl
        constructor <;> simp
      have hw' := hw.quiet hq
      have hof : ∀ {x : M Outcome} {k' : Cont},
          wp x (s.setProc p fun x => { x with chan := .null })
            (fun r s' => Effect p i k' (.resume w)
              (s.setProc p fun x => { x with chan := .null }) s' r) (fun _ => True) →
          wp x (s.setProc p fun x => { x with chan := .null })
            (fun r s' => Effect p i k' (.resume w) s s' r) fun _ => True := by
        intro x k' hx
        exact wp.mono hx (fun r s1 h1 => h1.of_quiet hq) fun _ he => he
      -- a thread that wakes up goes on where it slept
      cases k with
      | user => exact hof ((wp_pure ..).2 (Quiet.rfl'.effect hw'.running rfl _))
      | sleep => exact hof ((wp_pure ..).2 (Quiet.rfl'.effect hw'.running rfl _))
      | join t => exact hof (joinScan_effect hw' rfl rfl rfl)
      | wait => exact hof (waitScan_effect hw' rfl rfl rfl)

/-! ## Steps -/

/-- A step is a call, and going back to the scheduler. -/
theorem next_effect {a : Label} (hs : next s a = some s') : Enabled s a ∧ ∃ r s1,
    Effect a.p a.i (s.cont a.i) a.c (s.dressed a.p a.i) s1 r ∧ s' = a.after s s1 r :=
  have hen := (next_some hs).1
  ⟨hen, next_wp (call_effect hen.1.wears) hs⟩

section after

variable {a : Label} {s1 : Kernel} {k0 : Cont}

theorem after_th {j : Tidx} (hj : j ≠ a.i) : (a.left s k0 s1 r).pthread j = s1.pthread j ∧
    (a.left s k0 s1 r).cont j = s1.cont j := by
  cases r <;> simp [Label.left, Outcome.parked, Kernel.undressed, hj]

theorem after_proc {q : Pidx} (hq : q ≠ a.p) : (a.left s k0 s1 r).proc q = s1.proc q := by
  cases r <;> simp [Label.left, Outcome.parked, Kernel.undressed, hq]

theorem after_nextpid : (a.left s k0 s1 r).nextpid = s1.nextpid ∧
    (a.left s k0 s1 r).initproc = s1.initproc := by
  cases r <;> exact ⟨rfl, rfl⟩

/-- The process after a turn: only a process that has exited is not RUNNABLE. -/
theorem after_own_proc : ((a.left s k0 s1 r).proc a.p).pid = (s1.proc a.p).pid ∧
    ((a.left s k0 s1 r).proc a.p).parent_proc = (s1.proc a.p).parent_proc ∧
      ((a.left s k0 s1 r).proc a.p).parent_pthread = (s1.proc a.p).parent_pthread := by
  cases r <;> simp [Label.left, Outcome.parked, Kernel.undressed, cleared]

/-- A process that was switched out is `RUNNABLE`, or a zombie after its exit. -/
theorem after_state (h : Parked k c (s1.proc a.p) r) :
    ((a.left s k0 s1 r).proc a.p).state = .RUNNABLE ∨
      c.exits = true ∧ ((a.left s k0 s1 r).proc a.p).state = .ZOMBIE := by
  cases h with
  | ret v h => simp [Label.left, Outcome.parked, Kernel.undressed, cleared]
  | asleep k' hk h => simp [Label.left, Outcome.parked, Kernel.undressed, cleared, h]
  | preempted h => simp [Label.left, Outcome.parked, Kernel.undressed, cleared, h]
  | thread_exit hc h => simp [Label.left, Outcome.parked, Kernel.undressed, cleared, h]
  | exit hc h => simp [Label.left, Outcome.parked, Kernel.undressed, cleared, h, hc]

/-- The slot of the thread after a turn: what the process had of its own. -/
theorem after_own : ((a.left s k0 s1 r).pthread a.i).pid = (s1.proc a.p).pid ∧
    ((a.left s k0 s1 r).pthread a.i).thread_id = (s1.proc a.p).thread_id ∧
      ((a.left s k0 s1 r).pthread a.i).state = match r with
        | .ret _ => .RUNNABLE
        | .switch _ => (s1.proc a.p).state := by
  cases r <;> simp [Label.left, Outcome.parked, Kernel.undressed, undress]

end after

/-- Dressing changes no identity. -/
theorem dressed_proc (hp : Pickable s p i) (q : Pidx) :
    ((s.dressed p i).proc q).pid = (s.proc q).pid ∧
      ((s.dressed p i).proc q).parent_proc = (s.proc q).parent_proc ∧
        ((s.dressed p i).proc q).parent_pthread = (s.proc q).parent_pthread ∧
          (q ≠ p → (s.dressed p i).proc q = s.proc q) := by
  by_cases hq : q = p
  · subst hq
    simp [Kernel.dressed, hp.2.1]
  · simp [Kernel.dressed, hq]

@[simp] theorem dressed_thread_id :
    ((s.dressed p i).proc p).thread_id = (s.pthread i).thread_id := by
  simp [Kernel.dressed]

/-! ## Process ids -/

/-- A process in use. -/
def InUse (s : Kernel) (q : Pidx) : Prop := (s.proc q).state ≠ .UNUSED

/-- Process ids are handed out once. -/
structure Ids (s : Kernel) : Prop where
  th_lt : ∀ j, (s.pthread j).pid < s.nextpid
  proc_lt : ∀ q, (s.proc q).pid < s.nextpid
  proc_ne : ∀ q, InUse s q → (s.proc q).pid ≠ 0
  uniq : ∀ q r, InUse s q → InUse s r → (s.proc q).pid = (s.proc r).pid → q = r

/-- A process that is in use after a call was so before, with the same id, or it
has been made with a new one. -/
theorem ProcEffect.pid_cases (h : ProcEffect p i k c s s' q) (hp : InUse s p) :
    (s'.proc q).pid = (s.proc q).pid ∧ (InUse s' q → InUse s q) ∨
      (s'.proc q).pid = s.nextpid ∧ s.nextpid < s'.nextpid ∧
        (findProc fun x => (s.proc x).state = .UNUSED) = some q ∨
        (s'.proc q).pid = 0 ∧ ¬ InUse s' q := by
  have huse : (q ≠ p → (s'.proc q).state = (s.proc q).state) → InUse s' q → InUse s q := by
    intro hst hu
    by_cases hq : q = p
    · rw [hq]
      exact hp
    · unfold InUse at hu ⊢
      rwa [hst hq] at hu
  cases h with
  | kept pid state pp pt stays lives =>
      refine .inl ⟨pid, fun hu => ?_⟩
      by_cases hq : q = p
      · rw [hq]
        exact hp
      · unfold InUse at hu ⊢
        rcases state hq with h | ⟨h, -⟩
        · rwa [h] at hu
        · rw [h]
          decide
  | adopted hc parent pid state pp pt => exact .inl ⟨pid, huse state⟩
  | reparented d hc parent hd pid state pp pt => exact .inl ⟨pid, huse state⟩
  | made hc found pid lt alive => exact .inr (.inl ⟨pid, lt, found⟩)
  | reaped hc state parent hu pid => exact .inr (.inr ⟨pid, fun h => h hu⟩)

/-- A slot keeps its pid, takes that of the caller, or a new one. -/
theorem SlotEffect.pid_cases (h : SlotEffect p i k c s s' j) :
    (s'.pthread j).pid = (s.pthread j).pid ∨ (s'.pthread j).pid = (s.proc p).pid ∨
      s.nextpid ≤ (s'.pthread j).pid ∧ (s'.pthread j).pid < s'.nextpid ∨
        (s'.pthread j).pid = 0 := by
  cases h with
  | kept hk hc hm => exact .inl hk.pid
  | taken free pid =>
      rcases pid with ⟨-, h⟩ | h | h
      · exact .inl h
      · exact .inr (.inl h)
      · exact .inr (.inr (.inl h))
  | joined hc hz pid stack gone => exact .inr (.inr (.inr gone.pid))
  | waited z hc hz hp pid stack gone => exact .inr (.inr (.inr gone.pid))
  | deleted hc pid id stack gone => exact .inr (.inr (.inr gone.pid))

/-- A call keeps the pids apart. -/
theorem Effect.ids (h : Effect p i k c s s' r) (hi : Ids s) (hp : InUse s p) : Ids s' where
  th_lt := fun j => by
    have hn := h.nextpid
    have h1 := hi.th_lt j
    have h2 := hi.proc_lt p
    -- a slot has an old pid or the next one
    rcases (h.slot j).pid_cases with hj | hj | hj | hj <;> omega
  proc_lt := fun q => by
    have hn := h.nextpid
    have h1 := hi.proc_lt q
    rcases (h.proc q).pid_cases hp with hq | hq | hq <;> omega
  proc_ne := fun q hu => by
    rcases (h.proc q).pid_cases hp with hq | hq | hq
    · rw [hq.1]
      exact hi.proc_ne q (hq.2 hu)
    · have := hi.proc_lt q
      omega
    · exact absurd hu hq.2
  uniq := fun q r hq hr he => by
    have hlt := fun x => hi.proc_lt x
    -- two processes with one pid: the next one is given to one process only
    rcases (h.proc q).pid_cases hp with h1 | h1 | h1
    · rcases (h.proc r).pid_cases hp with h2 | h2 | h2
      · exact hi.uniq q r (h1.2 hq) (h2.2 hr) (by rw [← h1.1, ← h2.1, he])
      · have := hlt q
        omega
      · exact absurd hr h2.2
    · rcases (h.proc r).pid_cases hp with h2 | h2 | h2
      · have := hlt r
        omega
      · -- a call takes one slot only
        exact Option.some_injective _ (h1.2.2.symm.trans h2.2.2)
      · exact absurd hr h2.2
    · exact absurd hq h1.2

/-- Dressing keeps the pids apart. -/
theorem Ids.dressed (h : Ids s) (hp : Pickable s p i) : Ids (s.dressed p i) := by
  have hu : ∀ q, InUse (s.dressed p i) q → InUse s q := fun q hq => by
    by_cases hqp : q = p
    · subst hqp
      unfold InUse
      rw [hp.1]
      decide
    · unfold InUse at hq ⊢
      rwa [(dressed_proc hp q).2.2.2 hqp] at hq
  refine ⟨h.th_lt, fun q => ?_, fun q hq => ?_, fun q r hq hr => ?_⟩
  · rw [(dressed_proc hp q).1]
    exact h.proc_lt q
  · rw [(dressed_proc hp q).1]
    exact h.proc_ne q (hu q hq)
  · rw [(dressed_proc hp q).1, (dressed_proc hp r).1]
    exact h.uniq q r (hu q hq) (hu r hr)

theorem Pickable.inUse (_ : Pickable s p i) : InUse (s.dressed p i) p := by
  simp [InUse, Kernel.dressed]

/-- A process that is switched out is in use. -/
theorem Parked.inUse {s1 : Kernel} (h : Parked k c (s1.proc p) r) : InUse s1 p := by
  unfold InUse
  cases h with
  | ret v h => rw [h]; decide
  | asleep k' hk h => rw [h]; decide
  | preempted h => rw [h]; decide
  | thread_exit hc h => rw [h]; decide
  | exit hc h => rw [h]; decide

theorem after_pid {a : Label} {s1 : Kernel} {k0 : Cont} (q : Pidx) :
    ((a.left s k0 s1 r).proc q).pid = (s1.proc q).pid := by
  by_cases hq : q = a.p
  · rw [hq, after_own_proc.1]
  · rw [after_proc hq]

/-- Switching out uses no process and frees none. -/
theorem left_inUse {a : Label} {s1 : Kernel} {k0 : Cont} (h : InUse s1 a.p) {q : Pidx} :
    InUse (a.left s k0 s1 r) q ↔ InUse s1 q := by
  by_cases hq : q = a.p
  · subst hq
    refine ⟨fun _ => h, fun _ => ?_⟩
    unfold InUse at h ⊢
    cases r with
    | ret v => simp [Label.left, Outcome.parked, Kernel.undressed, cleared]
    | switch k =>
        -- a zombie stays one, and any other process is `RUNNABLE`
        by_cases hz : (s1.proc a.p).state = .ZOMBIE <;>
          simp [Label.left, Outcome.parked, Kernel.undressed, cleared, hz]
  · unfold InUse
    rw [after_proc hq]

theorem after_inUse {a : Label} {s1 : Kernel} {k0 : Cont} (h : Parked k c (s1.proc a.p) r)
    {q : Pidx} :
    InUse (a.left s k0 s1 r) q ↔ InUse s1 q :=
  left_inUse h.inUse

/-- Going back to the scheduler keeps the pids apart. -/
theorem Ids.left {a : Label} {s1 : Kernel} {k0 : Cont} (h : Ids s1) (hu : InUse s1 a.p) :
    Ids (a.left s k0 s1 r) := by
  refine ⟨fun j => ?_, fun q => ?_, fun q hq => ?_, fun q r hq hr => ?_⟩
  · rw [after_nextpid.1]
    by_cases hj : j = a.i
    · rw [hj, after_own.1]
      exact h.proc_lt a.p
    · rw [(after_th hj).1]
      exact h.th_lt j
  · rw [after_nextpid.1, after_pid]
    exact h.proc_lt q
  · rw [after_pid]
    exact h.proc_ne q ((left_inUse hu).1 hq)
  · rw [after_pid, after_pid]
    exact h.uniq q r ((left_inUse hu).1 hq) ((left_inUse hu).1 hr)

/-- Every step keeps the pids apart. -/
theorem next_ids {a : Label} (h : Ids s) (hs : next s a = some s') : Ids s' := by
  rcases next_effect hs with ⟨hen, r, s1, he, rfl⟩
  exact (he.ids (h.dressed hen.1) hen.1.inUse).left he.parked.inUse

theorem Started.inUse (h : Started p i s) (hq : InUse s q) : q = p := by
  by_contra hne
  rw [InUse, h.other q hne] at hq
  exact hq rfl

/-- The first pids are apart. -/
theorem Started.ids (h : Started p i s) : Ids s := by
  rcases h.proc with ⟨pd, kst, -, -, hp⟩
  have hi := h.th
  rw [hp] at hi
  refine ⟨fun j => ?_, fun q => ?_, fun q hq => ?_, fun q r hq hr _ => ?_⟩
  · by_cases hj : j = i
    · simp [hj, hi, undress, h.nextpid]
    · simp [h.others j hj, Pthread.zero, h.nextpid]
  · by_cases hq : q = p
    · simp [hq, hp, h.nextpid]
    · simp [h.other q hq, Proc.zero, h.nextpid]
  · simp [h.inUse hq, hp]
  · rw [h.inUse hq, h.inUse hr]

namespace Wears

theorem inUse (h : Wears p i s) : InUse s p := by
  unfold InUse
  rw [h.running]
  decide

/-- A call takes the slot of the thread that makes it from nobody: it keeps it, marked at most. -/
theorem slot (h : Wears p i s) (he : Effect p i k c s s' r) : Kept (s.pthread i) (s'.pthread i) ∧
    ((s'.pthread i).state = .RUNNABLE ∨ (s'.pthread i).state = .THZOMBIE) := by
  cases he.slot i with
  | kept hk hc hm =>
      refine ⟨hk, ?_⟩
      generalize (s'.pthread i).state = st at hm
      cases hm with
      | same => exact h.state
      | woken hc hs => exact .inl rfl
      | killed hc =>
          by_cases hm : (s.pthread i).thread_id = MAINTH
          · exact .inl (if_pos hm)
          · exact .inr (if_neg hm)
      | exited hc hp => exact .inr rfl
  | taken free pid => rcases h.state with hs | hs <;> rw [hs] at free <;> cases free
  | joined hc hz pid stack gone => exact absurd h.kstack stack
  | waited z hc hz hp pid stack gone => exact absurd h.kstack stack
  | deleted hc pid id stack gone => exact absurd h.kstack stack

/-- The process stays what it is. -/
theorem proc_pid (h : Wears p i s) (he : Effect p i k c s s' r) :
    (s'.proc p).pid = (s.proc p).pid := by
  rcases (he.proc p).pid_cases h.inUse with h1 | ⟨-, -, hfound⟩ | ⟨-, hu'⟩
  · exact h1.1
  · have hfree := findProc_some hfound
    rw [decide_eq_true_iff] at hfree
    exact absurd hfree h.inUse
  · exact absurd he.parked.inUse hu'

/-- Slot and process still agree after any call. -/
theorem agree (h : Wears p i s) (he : Effect p i k c s s' r) :
    (s'.pthread i).pid = (s'.proc p).pid ∧ (s'.pthread i).kstack = (s'.proc p).kstack := by
  rcases h.slot he with ⟨hk, -⟩
  constructor
  · rw [hk.pid, h.proc_pid he, h.pid]
  · rw [hk.kstack, he.wears.1, h.kstack]

/-- What a call that returns leaves of the thread that makes it. -/
theorem ret {v : Int} (h : Wears p i s) (he : Effect p i k c s s' (.ret v)) : Wears p i s' := by
  have hrun : (s'.proc p).state = .RUNNING := by
    cases he.parked with
    | ret v hr => exact hr
  rcases h.agree he with ⟨hpid, hkstack⟩
  exact ⟨hrun, he.wears.2.trans h.thread_idx, hpid, hkstack, (h.slot he).2⟩

end Wears

/-! ## What stays -/

theorem zombie_inUse (h : (s.proc q).state = .ZOMBIE) : InUse s q := by
  unfold InUse
  rw [h]
  decide

/-- Seen from the dressed state, the other processes are as they were. -/
theorem dressed_inUse (hp : Pickable s p i) (q : Pidx) : InUse (s.dressed p i) q ↔ InUse s q := by
  by_cases hq : q = p
  · subst hq
    refine ⟨fun _ => ?_, fun _ => hp.inUse⟩
    unfold InUse
    rw [hp.1]
    decide
  · unfold InUse
    rw [(dressed_proc hp q).2.2.2 hq]

/-- A process that is alive stays so, unless it exits in this call. -/
theorem Effect.alive (he : Effect p i k c s s' r) (hw : Wears p i s) (hu : InUse s q)
    (hz : (s.proc q).state ≠ .ZOMBIE) (hx : c.exits = true → q ≠ p) :
    InUse s' q ∧ (s'.proc q).state ≠ .ZOMBIE ∧ (s'.proc q).pid = (s.proc q).pid := by
  by_cases hq : q = p
  · -- the process that runs
    subst hq
    refine ⟨he.parked.inUse, ?_, hw.proc_pid he⟩
    cases he.parked with
    | ret v h => rw [h]; decide
    | asleep k' hk h => rw [h]; decide
    | preempted h => rw [h]; decide
    | thread_exit hc h => rw [h]; decide
    | exit hc h => exact absurd rfl (hx hc)
  -- another process: no call ends it but its own `exit` and the `wait` of its parent
  · unfold InUse at hu ⊢
    cases he.proc q with
    | kept pid state pp pt stays lives =>
        rcases state hq with h1 | ⟨-, h1⟩
        · rw [h1]
          exact ⟨hu, hz, pid⟩
        · rw [h1]
          exact ⟨by decide, by decide, pid⟩
    | adopted hc parent pid state pp pt =>
        rw [state hq]
        exact ⟨hu, hz, pid⟩
    | reparented d hc parent hd pid state pp pt =>
        rw [state hq]
        exact ⟨hu, hz, pid⟩
    | made hc found pid lt alive =>
        have := findProc_some found
        rw [decide_eq_true_iff] at this
        exact absurd this hu
    | reaped hc state parent hu pid => exact absurd state hz

/-- A process that is in use after the call was so before, or it has been made. -/
theorem Effect.was_used (he : Effect p i k c s s' r) (hw : Wears p i s) (hids : Ids s)
    (hq : InUse s' q) (hpid : (s'.proc q).pid = (s.proc q).pid) : InUse s q := by
  rcases (he.proc q).pid_cases hw.inUse with h1 | ⟨h1, -⟩ | ⟨-, h1⟩
  · exact h1.2 hq
  · have := hids.proc_lt q
    omega
  · exact absurd hq h1

/-- A process that is no zombie is none when the thread has left the CPU. -/
theorem after_alive {a : Label} {k0 : Cont} (h : Parked k c (s'.proc a.p) r)
    (hz : (s'.proc q).state ≠ .ZOMBIE) : ((a.left s k0 s' r).proc q).state ≠ .ZOMBIE := by
  by_cases hq : q = a.p
  · subst hq
    cases h with
    | ret v h => simp [Label.left, Outcome.parked, Kernel.undressed, cleared]
    | asleep k' hk h => simp [Label.left, Outcome.parked, Kernel.undressed, cleared, h]
    | preempted h => simp [Label.left, Outcome.parked, Kernel.undressed, cleared, h]
    | thread_exit hc h => simp [Label.left, Outcome.parked, Kernel.undressed, cleared, h]
    | exit hc h => exact absurd h hz
  · rw [after_proc hq]
    exact hz

/-- A thread whose frame pointer is zero or its own gives up the CPU on its own stack. -/
theorem stackPage_own {t : Pthread}
    (h : t.context.ebp = 0 ∨ t.context.ebp / PGSIZE = t.kstack / PGSIZE) (k : Cont) (r : Outcome) :
    stackPage k t r = t.kstack / PGSIZE := by
  cases r with
  | ret v => rfl
  | switch k' =>
      unfold stackPage
      dsimp only
      split
      · rfl
      · next hk =>
          rcases h with h | h
          · exact absurd (.inr h) hk
          · exact h

namespace OnOwnStack

theorem kept (h : OnOwnStack s j) (hk : Kept (s.pthread j) (s'.pthread j)) : OnOwnStack s' j := by
  unfold OnOwnStack
  rw [hk.context, hk.kstack]
  exact h

/-- It is on its own stack when it has left the CPU. -/
theorem left {a : Label} {k0 : Cont} (h : OnOwnStack s a.i)
    (hk : (s'.proc a.p).kstack = (s.pthread a.i).kstack) :
    OnOwnStack (a.left s k0 s' r) a.i := by
  have hkstack : ((a.left s k0 s' r).pthread a.i).kstack = (s.pthread a.i).kstack := by
    rw [← hk]
    cases r <;> simp [Label.left, Outcome.parked, Kernel.undressed, undress]
  have hctx : ((a.left s k0 s' r).pthread a.i).context = a.saved k0 (s.pthread a.i) r := by
    cases r <;> simp [Label.left, Outcome.parked, Kernel.undressed, undress]
  refine .inr ?_
  rw [hkstack, hctx, Label.saved, stackPage_own h]
  unfold PGSIZE
  dsimp only
  omega

end OnOwnStack

/-! ## Runs -/

/-- A call keeps the thread on the CPU if it returns, and the pids apart. -/
theorem Wears.call {I : Kernel → Prop} (hw : Wears p i s)
    (hI : ∀ r s', Effect p i k c s s' r → I s') :
    wp (Thread.call p k c) s (fun r s' => (InUse s' p ∧ I s') ∧
      ∀ v, r = .ret v → Wears p i s' ∧ I s') fun _ => True := by
  refine wp.mono (call_effect hw) (fun r s' he => ?_) fun _ h => h
  refine ⟨⟨he.parked.inUse, hI r s' he⟩, fun v hv => ?_⟩
  subst hv
  exact ⟨hw.ret he, hI _ s' he⟩

/-- Process ids are handed out once, in every run of slices. -/
theorem ids_slices {ok : Pidx → Kernel → Cont → Call → Prop} :
    SliceInv ok Ids (fun p i s => Wears p i s ∧ Ids s) fun p _ s => InUse s p ∧ Ids s where
  init := fun s h => by
    rcases h.started with ⟨p, i, h⟩
    exact h.ids
  dress := fun s p i h hp => ⟨hp.wears, h.dressed hp⟩
  call := fun s p i k c h _ _ => h.1.call fun r s' he => he.ids h.2 h.1.inUse
  left := fun s a k s1 r h => h.2.left h.1

end Xv6.Thread
