import Xv6.Thread.Lodge

/-!
# Parent links

`parent_pthread` is a raw pointer to the slot of the thread that forked. Exit of
the parent process passes its children to `init`, and `exec` passes those of the
other threads to the thread that goes on; a thread that ends alone passes its
children to nobody. As long as no thread with children ends alone, the links stay
inside the family.

The model is that of whole time slices (`sliceNext`). The links are followed from
call to call: while a thread is on the CPU its own slot says little about it, so
`Attached` takes it for alive. Three things are left out by the condition of a
run, `KeepsFamily`, beside the end of a thread with children:

* a thread that stands on the stack of another one, which goes on in the call of
  that thread with the process of that thread;
* a copy that `fork` makes of such a thread, or of the caller itself;
* a slot that has been given up with its id and then loses its stack for want of
  memory, so that `wait` frees address 0.

Main results: `call_links`, what one call preserves; `slice_family`, what a slice
preserves; `family_safe`, for every run; `orphan_unsafe`, the run that breaks the
links.
-/

namespace Xv6.Thread.Family

open Xv6.Lib Prog

variable {s s' : Kernel} {p q r : Pidx} {i j : Tidx}

/-- Process `r` is alive and `j` is a live thread of it. -/
structure Linked (s : Kernel) (r : Pidx) (j : Tidx) : Prop where
  used : InUse s r
  alive : (s.proc r).state ≠ .ZOMBIE
  pid : (s.pthread j).pid = (s.proc r).pid
  live : Live (s.pthread j)

/-! ## One call -/

section call

variable {k : Cont} {c : Call} {s1 : Kernel} {o : Outcome}

/-- A live thread of a living process stays so, or it is ended by `kill`, `exit` or `exec`. -/
theorem Linked.call (hl : Linked s r j) (he : Effect p i k c s s1 o) (hw : Wears p i s)
    (hids : Ids s)
    (hkill : c.kills = some ((s.pthread j).pid : Int) → (s.pthread j).thread_id = MAINTH)
    (hx : c.exits = true → r ≠ p)
    (hexec : c.execs = true → (s.pthread j).pid = (s.proc p).pid →
      (s.pthread j).thread_id ≠ (s.proc p).thread_id → s1.pthread j = s.pthread j) :
    Kept (s.pthread j) (s1.pthread j) ∧ Live (s1.pthread j) := by
  cases he.slot j with
  | kept hk hc hm =>
      refine ⟨hk, ?_⟩
      unfold Live
      generalize (s1.pthread j).state = st at hm
      cases hm with
      | same => exact hl.live
      | woken hc hs => exact .inl rfl
      | killed hc => exact .inl (if_pos (hkill hc))
      | exited hc hp =>
          have hrp : r = p := hids.uniq r p hl.used hw.inUse (hl.pid.symm.trans hp)
          exact absurd hrp (hx hc)
  | taken free pid => exact absurd free hl.live.inUse
  | joined hc hz pid stack gone =>
      rcases hl.live with h1 | h1 <;> exact absurd (hz.symm.trans h1) (by decide)
  | waited z hc hz hp pid stack gone =>
      -- `wait` takes apart a zombie, and `r` is none
      have hrz : r = z := hids.uniq r z hl.used (zombie_inUse hz) (hl.pid.symm.trans pid)
      exact absurd (hrz ▸ hz) hl.alive
  | deleted hc pid id stack gone =>
      rw [hexec hc pid id]
      exact ⟨.refl _, hl.live⟩

/-- While thread `i` of process `p` runs: `j` is that thread, or a live one on its own stack,
of the living process `r`. -/
structure Attached (p : Pidx) (i : Tidx) (s : Kernel) (r : Pidx) (j : Tidx) : Prop where
  used : InUse s r
  alive : (s.proc r).state ≠ .ZOMBIE
  pid : (s.pthread j).pid = (s.proc r).pid
  own : OnOwnStack s j
  live : j = i ∨ Live (s.pthread j)

/-- A thread stays attached to its process through a call of a sibling. -/
theorem Attached.call (h : Attached p i s r j) (he : Effect p i k c s s1 o) (hw : Wears p i s)
    (hids : Ids s)
    (hkill : c.kills = some ((s.pthread j).pid : Int) → j ≠ i → (s.pthread j).thread_id = MAINTH)
    (hx : c.exits = true → r ≠ p) (hexec : c.execs = true → s1.pthread j = s.pthread j) :
    Attached p i s1 r j := by
  rcases he.alive hw h.used h.alive hx with ⟨hused, halive, hpid⟩
  by_cases hj : j = i
  · have hk : Kept (s.pthread j) (s1.pthread j) := by
      rw [hj]
      exact (hw.slot he).1
    exact ⟨hused, halive, by rw [hk.pid, h.pid, hpid], h.own.kept hk, .inl hj⟩
  · have hl : Linked s r j := ⟨h.used, h.alive, h.pid, h.live.resolve_left hj⟩
    obtain ⟨hk, hlive⟩ := hl.call he hw hids (fun hc => hkill hc hj) hx fun hc _ _ =>
      hexec hc
    exact ⟨hused, halive, by rw [hk.pid, h.pid, hpid], h.own.kept hk, .inr hlive⟩

/-- The thread itself, after a call that does not end it. -/
theorem Attached.self (he : Effect p i k c s s1 o) (hw : Wears p i s) (hown : OnOwnStack s i)
    (hx : c.exits = false) : Attached p i s1 p i := by
  have hz : (s.proc p).state ≠ .ZOMBIE := by
    rw [hw.running]
    decide
  obtain ⟨hused, halive, -⟩ := he.alive hw hw.inUse hz fun hc => by
    rw [hx] at hc
    cases hc
  exact ⟨hused, halive, (hw.agree he).1, hown.kept (hw.slot he).1, .inl rfl⟩

/-- While thread `i` of process `p` runs, the links lead to parents. -/
structure Links (p : Pidx) (i : Tidx) (s : Kernel) : Prop where
  parent : ∀ q, InUse s q → ∃ r j, (s.proc q).parent_proc = some r ∧
    (s.proc q).parent_pthread = some j ∧ Attached p i s r j
  /-- `init` is its own parent -/
  init : InUse s s.initproc ∧ (s.proc s.initproc).parent_proc = some s.initproc

/-- The call ends no thread that has children: `thread_exit` is called by none, and
`kill` meets none but main threads and the caller. -/
structure KeepsParents (i : Tidx) (s : Kernel) (c : Call) : Prop where
  ends : c.ends = true → ∀ q, InUse s q → (s.proc q).parent_pthread ≠ some i
  kills : ∀ q, InUse s q → ∀ j ∈ (s.proc q).parent_pthread,
    c.kills = some ((s.pthread j).pid : Int) → j ≠ i → (s.pthread j).thread_id = MAINTH

/-- A call keeps every child with its parent. -/
theorem call_links (hl : Links p i s) (he : Effect p i k c s s1 o) (hw : Wears p i s)
    (hids : Ids s) (hown : OnOwnStack s i) (hok : KeepsParents i s c) : Links p i s1 := by
  -- a link that is kept, from a process that is not passed on
  have hstay : ∀ q r j, InUse s q → (s.proc q).parent_pthread = some j → Attached p i s r j →
      (c.exits = true → r ≠ p) → (c.execs = true → s1.pthread j = s.pthread j) →
        Attached p i s1 r j := fun q r j hq hj hat hx hexec =>
    hat.call he hw hids (hok.kills q hq j hj) hx hexec
  constructor
  · intro q hq
    cases he.proc q with
    | kept pid state pp pt stays lives =>
        have hqs := he.was_used hw hids hq pid
        rcases hl.parent q hqs with ⟨r, j, hr, hj, hat⟩
        rw [pp, pt]
        refine ⟨r, j, hr, hj, hstay q r j hqs hj hat ?_ fun hc => lives hc j hj⟩
        rintro hc rfl
        exact stays hc hr
    | adopted hc parent pid state pp pt =>
        -- `init` has a link of its own, and does not exit
        rcases hl.parent _ hl.init.1 with ⟨r, j, hr, hj, hat⟩
        rw [hl.init.2] at hr
        cases hr
        rw [pp, pt]
        refine ⟨s.initproc, j, rfl, hj, hstay _ _ j hl.init.1 hj hat ?_ fun hx => ?_⟩
        · exact fun hc => (he.not_init hc).symm
        · rw [(Call.execs_stays hx).1] at hc
          cases hc
    | reparented d hc parent hd pid state pp pt =>
        have hqs := he.was_used hw hids hq pid
        rcases hl.parent q hqs with ⟨r, j, hr, hj, hat⟩
        cases hj.symm.trans parent
        have hrp : r = p := hids.uniq r p hat.used hw.inUse (hat.pid.symm.trans hd)
        rw [pp, pt]
        refine ⟨r, i, hr, rfl, ?_⟩
        rw [hrp]
        exact .self he hw hown (Call.execs_stays hc).1
    | made hc found pid lt alive =>
        rcases alive hq with ⟨-, h2, h3⟩
        exact ⟨p, i, h2, h3, .self he hw hown (Call.forks_stays hc).1⟩
    | reaped hc state parent hu pid => exact absurd hu hq
  · rcases hl.parent _ hl.init.1 with ⟨r, j, hr, hj, hat⟩
    rw [hl.init.2] at hr
    cases hr
    rw [he.initproc]
    refine ⟨(he.alive hw hat.used hat.alive fun hc => (he.not_init hc).symm).1, ?_⟩
    cases he.proc s.initproc with
    | kept pid state pp pt stays lives => rw [pp, hl.init.2]
    | adopted hc parent pid state pp pt => rw [pp]
    | reparented d hc parent hd pid state pp pt => rw [pp, hl.init.2]
    | made hc found pid lt alive =>
        have := findProc_some found
        rw [decide_eq_true_iff] at this
        exact absurd this hl.init.1
    | reaped hc state parent hu pid => exact absurd state hat.alive

/-- No child is left with a thread that has ended. -/
theorem call_unlinked (he : Effect p i k c s s1 o) (hw : Wears p i s) (hids : Ids s)
    (hok : KeepsParents i s c) (hc : c.ends = true) :
    ∀ q, InUse s1 q → (s1.proc q).parent_pthread ≠ some i := by
  have hcall : c.exits = false ∧ c.execs = false ∧ c.forks = false := by
    cases c <;> first | exact ⟨rfl, rfl, rfl⟩ | cases hc
  rcases hcall with ⟨hx, hexec, hfork⟩
  intro q hq
  cases he.proc q with
  | kept pid state pp pt stays lives =>
      rw [pt]
      exact hok.ends hc q (he.was_used hw hids hq pid)
  | adopted hc' => exact absurd (hx.symm.trans hc') (by decide)
  | reparented d hc' => exact absurd (hexec.symm.trans hc') (by decide)
  | made hc' => exact absurd (hfork.symm.trans hc') (by decide)
  | reaped hc' state parent hu pid => exact absurd hu hq

end call

/-! ## One step -/

section step

variable {a : Label} {s1 : Kernel} {o : Outcome}

/-- What is known of a step. -/
structure Step (a : Label) (s s1 : Kernel) (o : Outcome) : Prop where
  picked : Pickable s a.p a.i
  effect : Effect a.p a.i (s.cont a.i) a.c (s.dressed a.p a.i) s1 o
  ids : Ids s

/-- Seen from the dressed state, the other processes are as they were. -/
theorem Step.used (h : Step a s s1 o) : InUse (s.dressed a.p a.i) q ↔ InUse s q :=
  dressed_inUse h.picked q

theorem Step.wears (h : Step a s s1 o) : Wears a.p a.i (s.dressed a.p a.i) := h.picked.wears

/-- Picking a thread unlinks nobody. -/
theorem Linked.dressed (h : Linked s r j) (hp : Pickable s p i) : Linked (s.dressed p i) r j := by
  refine ⟨(dressed_inUse hp r).2 h.used, ?_, ?_, h.live⟩
  · by_cases hr : r = p
    · rw [hr, hp.wears.running]
      decide
    · rw [(dressed_proc hp r).2.2.2 hr]
      exact h.alive
  · rw [(dressed_proc hp r).1]
    exact h.pid

/-- A process that is alive stays so, unless it exits in this step. -/
theorem Step.alive (h : Step a s s1 o) (hl : Linked s r j) (hx : a.c.exits = true → r ≠ a.p) :
    InUse (a.after s s1 o) r ∧ ((a.after s s1 o).proc r).state ≠ .ZOMBIE ∧
      ((a.after s s1 o).proc r).pid = (s.proc r).pid := by
  have hd := hl.dressed h.picked
  rcases h.effect.alive h.wears hd.used hd.alive hx with ⟨hu, hz, hpid⟩
  refine ⟨(after_inUse h.effect.parked).2 hu, after_alive h.effect.parked hz, ?_⟩
  rw [after_pid, hpid, (dressed_proc h.picked r).1]

/-- The only living process with the id of the thread that has run is its own. -/
theorem Step.own (h : Step a s s1 o) (hu : InUse s r) (hp : (s.proc r).pid = (s.proc a.p).pid) :
    r = a.p :=
  h.ids.uniq r a.p hu (h.used.1 h.picked.inUse) hp

/-- A live thread of another process stays so, or it is ended by `kill`, `exit` or `exec`. -/
theorem Step.keeps (h : Step a s s1 o) (hl : Linked s r j)
    (hkill : a.c.kills = some ((s.pthread j).pid : Int) → (s.pthread j).thread_id = MAINTH)
    (hx : a.c.exits = true → r ≠ a.p)
    (hexec : a.c.execs = true → (s.pthread j).pid = (s.proc a.p).pid →
      (s.pthread j).thread_id ≠ (s.pthread a.i).thread_id → s1.pthread j = s.pthread j) :
    Kept (s.pthread j) (s1.pthread j) ∧ Live (s1.pthread j) := by
  refine (hl.dressed h.picked).call h.effect h.wears (h.ids.dressed h.picked) hkill hx ?_
  intro hc hpid hid
  rw [(dressed_proc h.picked a.p).1] at hpid
  rw [dressed_thread_id] at hid
  exact hexec hc hpid hid

/-- A link stays as long as its thread does not end. -/
theorem Step.link (h : Step a s s1 o) (hl : Linked s r j)
    (hexit : j = a.i → a.c.ends = false)
    (hkill : a.c.kills = some ((s.pthread j).pid : Int) → j ≠ a.i →
      (s.pthread j).thread_id = MAINTH)
    (hx : a.c.exits = true → r ≠ a.p)
    (hexec : a.c.execs = true → (s.pthread j).pid = (s.proc a.p).pid →
      (s.pthread j).thread_id ≠ (s.pthread a.i).thread_id → s1.pthread j = s.pthread j) :
    Linked (a.after s s1 o) r j := by
  rcases h.alive hl hx with ⟨hused, halive, hpid⟩
  by_cases hj : j = a.i
  · -- the thread that has run: its slot is that of its process
    have hra : r = a.p := by
      apply h.own hl.used
      rw [← hl.pid, hj, h.picked.2.1]
    refine ⟨hused, halive, ?_, ?_⟩
    · rw [hj, after_own.1, hra, after_pid]
    · unfold Live
      rw [hj, after_own.2.2]
      cases h.effect.parked with
      | ret v hst => exact .inl rfl
      | asleep k' hk hst => exact .inr hst
      | preempted hst => exact .inl hst
      | thread_exit hc hst =>
          rw [hexit hj] at hc
          cases hc
      | exit hc hst => exact absurd hra (hx hc)
  -- another thread: the call leaves it alone or only wakes or kills it
  · rcases h.keeps hl (fun hc => hkill hc hj) hx hexec with ⟨hk, hlive⟩
    refine ⟨hused, halive, ?_, ?_⟩
    · rw [(after_th hj).1, hpid, ← hl.pid]
      exact hk.pid
    · rw [(after_th hj).1]
      exact hlive

/-- After a call that does not end it, the thread that has run is a live thread
of its process, unless the process is a zombie. -/
theorem Step.own_link (h : Step a s s1 o) (hexit : a.c.ends = false)
    (hz : ((a.after s s1 o).proc a.p).state ≠ .ZOMBIE) : Linked (a.after s s1 o) a.p a.i := by
  have hst : ((a.after s s1 o).proc a.p).state = .RUNNABLE := by
    rcases after_state (s := s) h.effect.parked with hst | ⟨-, hst⟩
    · exact hst
    · exact absurd hst hz
  refine ⟨?_, hz, ?_, ?_⟩
  · unfold InUse
    rw [hst]
    decide
  · rw [after_own.1, after_pid]
  · unfold Live
    rw [after_own.2.2]
    cases h.effect.parked with
    | ret v _ => exact .inl rfl
    | asleep k' hk hs => exact .inr hs
    | preempted hs => exact .inl hs
    | thread_exit hc _ =>
        rw [hexit] at hc
        cases hc
    | exit hc hs =>
        refine absurd ?_ hz
        simp [Label.left, Outcome.parked, Kernel.undressed, cleared, hs]

/-- The caller stays linked unless it ends. -/
theorem Step.self (h : Step a s s1 o) (hexit : a.c.ends = false)
    (hx : a.c.exits = false) : Linked (a.after s s1 o) a.p a.i := by
  apply h.own_link hexit
  intro hz
  rcases after_state (s := s) h.effect.parked with hst | ⟨hc, -⟩
  · rw [hz] at hst
    cases hst
  · rw [hx] at hc
    cases hc

/-- A process that stays in use keeps its id. -/
theorem Step.pid_stays (h : Step a s s1 o) (hu : InUse s q) (hu' : InUse (a.after s s1 o) q) :
    ((a.after s s1 o).proc q).pid = (s.proc q).pid := by
  rw [after_pid]
  have hu1 : InUse s1 q := (after_inUse h.effect.parked).1 hu'
  rcases (h.effect.proc q).pid_cases h.picked.inUse with h1 | h1 | h1
  · rw [h1.1, (dressed_proc h.picked q).1]
  · have hfree := findProc_some h1.2.2
    rw [decide_eq_true_iff] at hfree
    exact absurd hfree (h.used.2 hu)
  · exact absurd hu1 h1.2

/-- A process that was not in use has been made by `fork`, with a new id. -/
theorem Step.made (h : Step a s s1 o) (hu : ¬ InUse s q) (hu' : InUse (a.after s s1 o) q) :
    q ≠ a.p ∧ ((a.after s s1 o).proc q).pid = s.nextpid ∧
      ((a.after s s1 o).proc q).state = .RUNNABLE ∧ a.c.forks = true := by
  have hq : q ≠ a.p := by
    rintro rfl
    exact hu (h.used.1 h.picked.inUse)
  have hd : (s.dressed a.p a.i).proc q = s.proc q := (dressed_proc h.picked q).2.2.2 hq
  have hu1 : InUse s1 q := (after_inUse h.effect.parked).1 hu'
  unfold InUse at hu hu1
  rw [not_not] at hu
  refine ⟨hq, ?_⟩
  rw [after_pid, after_proc hq]
  cases h.effect.proc q with
  | kept pid state pp pt stays lives =>
      rcases state hq with h1 | ⟨h1, -⟩
      · rw [h1, hd] at hu1
        exact absurd hu hu1
      · rw [hd, hu] at h1
        cases h1
  | adopted hc parent pid state pp pt =>
      rw [state hq, hd] at hu1
      exact absurd hu hu1
  | reparented d hc parent hd' pid state pp pt =>
      rw [state hq, hd] at hu1
      exact absurd hu hu1
  | made hc found pid lt alive => exact ⟨pid, (alive hu1).1, hc⟩
  | reaped hc state parent hu2 pid => exact absurd hu2 hu1

/-- Another process becomes no zombie, and stays one until it is taken apart. -/
theorem Step.zombie_iff (h : Step a s s1 o) (hq : q ≠ a.p) (hu : InUse (a.after s s1 o) q) :
    ((a.after s s1 o).proc q).state = .ZOMBIE ↔ (s.proc q).state = .ZOMBIE := by
  have hd : (s.dressed a.p a.i).proc q = s.proc q := (dressed_proc h.picked q).2.2.2 hq
  have hu1 : InUse s1 q := (after_inUse h.effect.parked).1 hu
  rw [after_proc hq]
  cases h.effect.proc q with
  | kept pid state pp pt stays lives =>
      rcases state hq with h1 | ⟨h1, h2⟩
      · rw [h1, hd]
      · rw [hd] at h1
        rw [h1, h2]
        decide
  | adopted hc parent pid state pp pt => rw [state hq, hd]
  | reparented d hc parent hd' pid state pp pt => rw [state hq, hd]
  | made hc found pid lt alive =>
      have hfree := findProc_some found
      rw [decide_eq_true_iff, hd] at hfree
      rw [hfree, (alive hu1).1]
      decide
  | reaped hc state parent hu2 pid => exact absurd hu2 hu1

/-- A slot that stays in use keeps its process id. -/
theorem Step.slot_pid (h : Step a s s1 o) (hj : j ≠ a.i) (hu : (s.pthread j).state ≠ .UNUSED)
    (hu' : ((a.after s s1 o).pthread j).state ≠ .UNUSED) :
    ((a.after s s1 o).pthread j).pid = (s.pthread j).pid := by
  rw [(after_th hj).1] at hu' ⊢
  cases h.effect.slot j with
  | kept hk hc hm => exact hk.pid
  | taken free pid => exact absurd free hu
  | joined hc hz pid stack gone => exact absurd gone.state hu'
  | waited z hc hz hp pid stack gone => exact absurd gone.state hu'
  | deleted hc pid id stack gone => exact absurd gone.state hu'

end step

/-! ## Slices -/

/-- Between the calls of a slice of thread `i`, whose kernel stack is at `kst`. -/
structure Rides (K kst : Nat) (p : Pidx) (i : Tidx) (s : Kernel) :
    Prop extends Works K p none s where
  wears : Wears p i s
  links : Links p i s
  own : OnOwnStack s i
  kstack : (s.pthread i).kstack = kst

/-- After its last call. -/
structure Rode (K kst : Nat) (p : Pidx) (i : Tidx) (k : Cont) (o : Outcome) (s : Kernel) : Prop
    extends Works K p none s where
  links : Links p i s
  agree : (s.pthread i).pid = (s.proc p).pid ∧ (s.pthread i).kstack = (s.proc p).kstack
  kstack : (s.pthread i).kstack = kst
  parked : ∃ c, Parked k c (s.proc p) o ∧
    (c.ends = true → ∀ q, InUse s q → (s.proc q).parent_pthread ≠ some i)

/-- What a call must be like. -/
structure Keeps (p : Pidx) (i : Tidx) (s : Kernel) (c : Call) :
    Prop extends KeepsParents i s c where
  room : KeepsRoom p s c
  copies : CopiesApart p s c

/-- The thread is on its own stack, and so are those that it copies; it ends no other
thread that has children; and it finds memory for slots that have been given up. -/
def KeepsFamily (s : Kernel) (a : Slice) : Prop :=
  OnOwnStack s a.i ∧
    Each (fun s _ c => Keeps a.p a.i s c) a.p (s.dressed a.p a.i) (s.cont a.i) a.c a.rest

variable {K kst : Nat}

/-- A call of a time slice keeps the family and everyone lodged. -/
theorem call_rides {k : Cont} {c : Call} (h : Rides K kst p i s) (hok : Keeps p i s c) :
    wp (call p k c) s (fun o s' => Rode K kst p i k o s' ∧ ∀ v, o = .ret v → Rides K kst p i s')
      fun _ => True := by
  refine wp.mono (wp.and (call_lodged h.toWorks h.wears hok.room) (call_effect h.wears)) ?_
    fun _ he => he
  rintro o s1 ⟨hworks, he⟩
  have hlinks := call_links h.links he h.wears h.ids h.own hok.toKeepsParents
  rcases h.wears.slot he with ⟨hkept, -⟩
  have hkst : (s1.pthread i).kstack = kst := hkept.kstack.trans h.kstack
  have hends := call_unlinked he h.wears h.ids hok.toKeepsParents
  refine ⟨⟨hworks, hlinks, h.wears.agree he, hkst, c, he.parked, hends⟩, ?_⟩
  rintro v rfl
  exact ⟨hworks, h.wears.ret he, hlinks, h.own.kept hkept, hkst⟩

/-- Every process has a parent thread, on its own stack. -/
def HasParent (s : Kernel) (q : Pidx) : Prop :=
  ∃ r j, (s.proc q).parent_proc = some r ∧ (s.proc q).parent_pthread = some j ∧
    Linked s r j ∧ OnOwnStack s j

/-- Between slices. -/
structure Rests (s : Kernel) : Prop where
  lodged : ∃ K, Lodged K none s
  parent : ∀ q, InUse s q → HasParent s q
  init : InUse s s.initproc ∧ (s.proc s.initproc).parent_proc = some s.initproc

/-- A time slice begins with the family as it rests. -/
theorem Rests.rides (h : Rests s) (hp : Pickable s p i) (hown : OnOwnStack s i) :
    ∃ K, Rides K (s.pthread i).kstack p i (s.dressed p i) := by
  rcases h.lodged with ⟨K, hK⟩
  refine ⟨K, hK.dressed hp, hp.wears, ⟨fun q hq => ?_, ?_⟩, hown, rfl⟩
  · rcases h.parent q ((dressed_inUse hp q).1 hq) with ⟨r, j, hr, hj, hl, hj'⟩
    have hd := hl.dressed hp
    rw [(dressed_proc hp q).2.1, (dressed_proc hp q).2.2.1]
    exact ⟨r, j, hr, hj, hd.used, hd.alive, hd.pid, hj', .inr hd.live⟩
  · refine ⟨(dressed_inUse hp _).2 h.init.1, ?_⟩
    rw [(dressed_proc hp _).2.1]
    exact h.init.2

/-- A link to a thread of a slice is one to a live thread when the slice is over. -/
theorem Rode.linked {a : Label} {k : Cont} {o : Outcome} {s1 : Kernel}
    (h : Rode K (s.pthread a.i).kstack a.p a.i k o s1) (hown : OnOwnStack s a.i)
    (hq : InUse s1 q) (hj : (s1.proc q).parent_pthread = some j) (hat : Attached a.p a.i s1 r j) :
    Linked (a.left s k s1 o) r j ∧ OnOwnStack (a.left s k s1 o) j := by
  rcases h.parked with ⟨c, hparked, hends⟩
  have hused : InUse (a.left s k s1 o) r := (after_inUse hparked).2 hat.used
  have halive : ((a.left s k s1 o).proc r).state ≠ .ZOMBIE := after_alive hparked hat.alive
  by_cases hji : j = a.i
  · -- the thread that has run: its slot is that of its process
    subst hji
    have hra : r = a.p := h.ids.uniq r a.p hat.used h.active.1 (hat.pid.symm.trans h.agree.1)
    refine ⟨⟨hused, halive, ?_, ?_⟩, hown.left (h.agree.2.symm.trans h.kstack)⟩
    · rw [after_own.1, hra, after_pid]
    · unfold Live
      rw [after_own.2.2]
      cases hparked with
      | ret v hst => exact .inl rfl
      | asleep k' hk hst => exact .inr hst
      | preempted hst => exact .inl hst
      | thread_exit hc hst => exact absurd hj (hends hc q hq)
      | exit hc hst => exact absurd hst (hra ▸ hat.alive)
  · refine ⟨⟨hused, halive, ?_, ?_⟩, ?_⟩
    · rw [(after_th hji).1, after_pid]
      exact hat.pid
    · rw [(after_th hji).1]
      exact hat.live.resolve_left hji
    · unfold OnOwnStack
      rw [(after_th hji).1]
      exact hat.own

/-- And ends with it. -/
theorem Rode.left {a : Label} {k : Cont} {o : Outcome} {s1 : Kernel}
    (h : Rode K (s.pthread a.i).kstack a.p a.i k o s1) (hown : OnOwnStack s a.i) :
    Rests (a.left s k s1 o) := by
  rcases h.parked with ⟨c, hparked, -⟩
  have hpar : ∀ q, ((a.left s k s1 o).proc q).parent_proc = (s1.proc q).parent_proc ∧
      ((a.left s k s1 o).proc q).parent_pthread = (s1.proc q).parent_pthread := by
    intro q
    by_cases hq : q = a.p
    · rw [hq]
      exact ⟨after_own_proc.2.1, after_own_proc.2.2⟩
    · rw [after_proc hq]
      exact ⟨rfl, rfl⟩
  refine ⟨⟨K, h.toLodged.left h.agree.2 h.agree.1 h.active hparked⟩, fun q hq => ?_, ?_⟩
  · have hq1 := (after_inUse hparked).1 hq
    rcases h.links.parent q hq1 with ⟨r, j, hr, hj, hat⟩
    unfold HasParent
    rw [(hpar q).1, (hpar q).2]
    exact ⟨r, j, hr, hj, h.linked hown hq1 hj hat⟩
  · have hi : (a.left s k s1 o).initproc = s1.initproc := after_nextpid.2
    rw [hi, (hpar _).1]
    exact ⟨(after_inUse hparked).2 h.links.init.1, h.links.init.2⟩

/-- One pass of `wait` takes a zombie child of the calling thread if it has one. -/
theorem waitScan_finds (hi : (s.proc p).thread_idx = i) :
    wp (waitScan p) s (fun o _ =>
      (∃ c, (s.proc c).parent_pthread = some i ∧ (s.proc c).state = .ZOMBIE ∧
        o = .ret (s.proc c).pid) ∨
      (∀ c, (s.proc c).parent_pthread = some i → (s.proc c).state ≠ .ZOMBIE) ∧
        (o = .ret (-1) ∨ o = .switch .wait)) fun _ => True := by
  unfold waitScan
  simp only [wp_bind, wp_get, hi]
  cases hf : findProc _ with
  | none =>
      have hno : ∀ c, (s.proc c).parent_pthread = some i → (s.proc c).state ≠ .ZOMBIE := by
        intro c hc hz
        have := findProc_none.1 hf c
        rw [decide_eq_false_iff_not] at this
        exact this ⟨by simpa using hc, hz⟩
      refine wp_ite (fun _ => (wp_pure ..).2 (.inr ⟨hno, .inl rfl⟩)) fun _ => ?_
      exact sleep_wp (.inr ⟨hno, .inr rfl⟩)
  | some c =>
      have hc := findProc_some hf
      simp only [decide_eq_true_eq] at hc
      rw [wp_bind]
      exact wp_any fun _ _ => (wp_pure ..).2 (.inl ⟨c, hc.1, hc.2, rfl⟩)

/-- A child of thread `i` of process `p` is a child of `p`. -/
theorem Rides.child (h : Rides K kst p i s) (hq : InUse s q)
    (hi : (s.proc q).parent_pthread = some i) : (s.proc q).parent_proc = some p := by
  rcases h.links.parent q hq with ⟨r, j, hr, hj, hat⟩
  cases hi.symm.trans hj
  have hrp : r = p := h.ids.uniq r p hat.used h.active.1 (hat.pid.symm.trans h.wears.pid)
  rw [hr, hrp]

/-- What a call of `wait` does: it takes a zombie child of the calling process, and
returns its id; or no child of the calling thread is a zombie. It does not stop. -/
def WaitsOnFamily (p : Pidx) (i : Tidx) (s : Kernel) (k : Cont) (c : Call) : Prop :=
  waiting k c = true → wp (call p k c) s (fun o _ =>
    (∃ q, (s.proc q).state = .ZOMBIE ∧ (s.proc q).parent_proc = some p ∧
      o = .ret (s.proc q).pid) ∨
    (∀ q, (s.proc q).parent_pthread = some i → (s.proc q).state ≠ .ZOMBIE) ∧
      (o = .ret (-1) ∨ o = .switch .wait)) fun _ => False

/-- `wait` finds every zombie child and frees it, or goes to sleep on a channel that its
children wake. -/
theorem Rides.waits {k : Cont} {c : Call} (h : Rides K kst p i s) : WaitsOnFamily p i s k c := by
  intro hw
  -- a pass of the loop, from a state that differs in `chan` at most
  have hpass : ∀ s1 : Kernel, Works K p none s1 → Wears p i s1 →
      (∀ q, (s1.proc q).parent_pthread = (s.proc q).parent_pthread ∧
        (s1.proc q).pid = (s.proc q).pid ∧ (s1.proc q).state = (s.proc q).state) →
      wp (waitScan p) s1 (fun o _ =>
        (∃ q, (s.proc q).state = .ZOMBIE ∧ (s.proc q).parent_proc = some p ∧
          o = .ret (s.proc q).pid) ∨
        (∀ q, (s.proc q).parent_pthread = some i → (s.proc q).state ≠ .ZOMBIE) ∧
          (o = .ret (-1) ∨ o = .switch .wait)) fun _ => False := by
    intro s1 h1 hw1 heq
    refine wp.mono ((waitScan_finds hw1.thread_idx).inter (waitScan_lodged h1 hw1)) ?_
      fun _ he => he.2
    rintro o s2 ⟨hfinds, -⟩
    rcases hfinds with ⟨q, hq, hz, ho⟩ | ⟨hno, ho⟩
    · rw [(heq q).1] at hq
      rw [(heq q).2.2] at hz
      rw [(heq q).2.1] at ho
      exact .inl ⟨q, hz, h.child (zombie_inUse hz) hq, ho⟩
    · refine .inr ⟨fun q hq => ?_, ho⟩
      rw [← (heq q).2.2]
      exact hno q ((heq q).1.trans hq)
  cases c <;> try cases hw
  · exact hpass s h.toWorks h.wears fun q => ⟨rfl, rfl, rfl⟩
  · have hk : k = .wait := by simpa [waiting] using hw
    subst hk
    unfold call resume
    rw [wp_bind, wp_setProc]
    refine hpass _ (h.toWorks.setState rfl rfl h.active) h.wears.unchan fun q => ?_
    by_cases hq : q = p
    · subst hq
      simp
    · simp [hq]

/-! ## Every run -/

/-- Every process has a parent thread; every `wait`, in every slice, stays in the family;
and the thread that a zombie is linked to finds a zombie, and takes it apart. -/
structure FamilySafe (s : Kernel) : Prop where
  parent : ∀ q, InUse s q → HasParent s q
  waits : ∀ a : Slice, a.Enabled s → KeepsFamily s a →
    Each (WaitsOnFamily a.p a.i) a.p (s.dressed a.p a.i) (s.cont a.i) a.c a.rest
  reaped : ∀ z, (s.proc z).state = .ZOMBIE → ∃ r j, (s.proc z).parent_proc = some r ∧
    Linked s r j ∧ OnOwnStack s j ∧ ∀ c, Pickable s r j → waiting (s.cont j) c = true →
      wp (call r (s.cont j) c) (s.dressed r j) (fun o _ =>
        ∃ q, (s.proc q).state = .ZOMBIE ∧ (s.proc q).parent_proc = some r ∧
          o = .ret (s.proc q).pid) fun _ => False

/-- A family at rest is safe. -/
theorem Rests.safe (h : Rests s) : FamilySafe s := by
  refine ⟨h.parent, ?_, ?_⟩
  · rintro a ⟨⟨hp, hfit⟩, hrest⟩ ⟨hown, hok⟩
    rcases h.rides hp hown with ⟨K, hrides⟩
    refine Each.of_inv (Rides K (s.pthread a.i).kstack a.p a.i) ?_ ?_ hrides hok hfit hrest
    · exact fun _ _ _ h1 hok1 _ => wp.mono (call_rides h1 hok1) (fun _ _ h2 => h2.2) fun _ he => he
    · exact fun _ _ _ h1 _ => h1.waits
  · intro z hz
    rcases h.parent z (zombie_inUse hz) with ⟨r, j, hr, hj, hl, hown⟩
    refine ⟨r, j, hr, hl, hown, fun c hp hw => ?_⟩
    rcases h.rides hp hown with ⟨K, hrides⟩
    have hother : ∀ {q}, ((s.dressed r j).proc q).state = .ZOMBIE →
        (s.dressed r j).proc q = s.proc q := by
      intro q hq
      refine (dressed_proc hp q).2.2.2 ?_
      rintro rfl
      rw [hp.wears.running] at hq
      cases hq
    refine wp.mono (hrides.waits hw) (fun o _ h1 => ?_) fun _ he => he
    rcases h1 with ⟨q, hzq, hpq, ho⟩ | ⟨hno, -⟩
    · have hd := hother hzq
      rw [hd] at hzq hpq ho
      exact ⟨q, hzq, hpq, ho⟩
    · have hzr : z ≠ r := fun heq => hl.alive (heq ▸ hz)
      have hd := (dressed_proc hp z).2.2.2 hzr
      exact absurd (by rw [hd, hz]) (hno z (by rw [hd, hj]))

/-- The first process has no child. -/
theorem Started.rests (h : Started p i s) (hl : Loaded s) : Rests s := by
  rcases h.proc with ⟨pd, kst, -, -, hp⟩
  have hth := h.th
  rw [hp] at hth
  have hlink : Linked s p i := by
    refine ⟨?_, ?_, ?_, ?_⟩
    · simp [InUse, hp]
    · simp [hp]
    · rw [hth, hp]
      rfl
    · rw [hth]
      exact .inl rfl
  refine ⟨hl.lodged, fun q hq => ?_, ?_⟩
  · rw [h.inUse hq]
    exact ⟨p, i, by rw [hp], by rw [hp], hlink, .inl (by rw [hth]; rfl)⟩
  · rw [h.initproc]
    exact ⟨hlink.used, by rw [hp]⟩

instance (s : Kernel) (q : Pidx) : Decidable (InUse s q) := inferInstanceAs (Decidable (_ ≠ _))

instance (s : Kernel) (i : Tidx) : Decidable (Vacant s i) :=
  inferInstanceAs (Decidable (_ ∧ ∃ q, InUse s q ∧ _))

instance (s : Kernel) (p : Pidx) : Decidable (ForkRoom s p) := inferInstanceAs (Decidable (_ → _))

instance (p : Pidx) (s : Kernel) (c : Call) : Decidable (KeepsRoom p s c) := by
  unfold KeepsRoom
  split <;> infer_instance

instance (i : Tidx) (s : Kernel) (c : Call) : Decidable (KeepsParents i s c) :=
  decidable_of_iff ((c.ends = true → ∀ q, InUse s q → (s.proc q).parent_pthread ≠ some i) ∧
      ∀ q, InUse s q → ∀ j ∈ (s.proc q).parent_pthread,
        c.kills = some ((s.pthread j).pid : Int) → j ≠ i → (s.pthread j).thread_id = MAINTH)
    ⟨fun h => ⟨h.1, h.2⟩, fun h => ⟨h.ends, h.kills⟩⟩

instance (p : Pidx) (i : Tidx) (s : Kernel) (c : Call) : Decidable (Keeps p i s c) :=
  decidable_of_iff (KeepsParents i s c ∧ KeepsRoom p s c ∧ CopiesApart p s c)
    ⟨fun h => ⟨h.1, h.2.1, h.2.2⟩, fun h => ⟨h.toKeepsParents, h.room, h.copies⟩⟩

instance (s : Kernel) (a : Slice) : Decidable (KeepsFamily s a) :=
  inferInstanceAs (Decidable (_ ∧ Each _ _ _ _ _ _))

end Xv6.Thread.Family
