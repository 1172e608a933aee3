import Xv6.Thread.Boot

/-!
# Join wakeups

A thread in `thread_join` sleeps on its own `joiner_pthread`; a thread that
exits wakes the sleepers on *its* `joiner_pthread`. The two are the same slot
where every thread that sleeps in `thread_join` is its own joiner and waits for
a thread that it has created. The invariant below keeps both facts for as long
as it sleeps, through every call of every process.

* `call_turn`: what one call keeps, one lemma for each call before it;
* `no_wakeup_lost`: in a run of safe steps (`SafeJoin`) a sleeper in `thread_join`
  is where the thread it waits for will wake it, and that thread has not ended;
* `wakeup_lost`: a thread that a thread has created joins a third.

The model is that of one call a step. What a sleeper waits for is read off its
continuation (`cont`), which `kill` and `exec` leave alone.
-/

namespace Xv6.Thread.Join

open Xv6.Lib Prog

variable {s s' : Kernel} {p q : Pidx} {i j : Tidx}

/-! ## What the invariant looks at -/

/-- The process variables that play a part, and are the same in `x` and `y`. -/
structure PSame (x y : Proc) : Prop where
  pid : y.pid = x.pid
  used : y.state ≠ .UNUSED ↔ x.state ≠ .UNUSED
  thread_assign : y.thread_assign = x.thread_assign
  thread_id : y.thread_id = x.thread_id
  joiner : y.joiner_pthread = x.joiner_pthread
  thread_idx : y.thread_idx = x.thread_idx

/-- The same for thread slots. -/
structure TSame (t u : Pthread) : Prop where
  pid : u.pid = t.pid
  state : u.state = t.state
  chan : u.chan = t.chan
  thread_id : u.thread_id = t.thread_id
  joiner : u.joiner_pthread = t.joiner_pthread

@[refl, simp] theorem PSame.refl (x : Proc) : PSame x x := ⟨rfl, Iff.rfl, rfl, rfl, rfl, rfl⟩

@[refl, simp] theorem TSame.refl (t : Pthread) : TSame t t := ⟨rfl, rfl, rfl, rfl, rfl⟩

/-- Nothing that plays a part has changed. -/
structure Same (s s' : Kernel) : Prop where
  proc : ∀ q, PSame (s.proc q) (s'.proc q)
  th : ∀ i, TSame (s.pthread i) (s'.pthread i)
  cont : s'.cont = s.cont
  nextpid : s'.nextpid = s.nextpid

theorem Same.rfl' : Same s s := ⟨fun _ => .refl _, fun _ => .refl _, rfl, rfl⟩

/-- Only other variables of one process and one slot have changed. -/
theorem Same.of_ne (p : Pidx) (i : Tidx) (hp : ∀ q, q ≠ p → s'.proc q = s.proc q)
    (hpp : PSame (s.proc p) (s'.proc p)) (hi : ∀ j, j ≠ i → s'.pthread j = s.pthread j)
    (hii : TSame (s.pthread i) (s'.pthread i)) (hc : s'.cont = s.cont)
    (hn : s'.nextpid = s.nextpid) : Same s s' where
  proc := fun q => by
    by_cases h : q = p
    · exact h ▸ hpp
    · rw [hp q h]
  th := fun j => by
    by_cases h : j = i
    · exact h ▸ hii
    · rw [hi j h]
  cont := hc
  nextpid := hn

/-- Only other variables of one process have changed. -/
theorem Same.of_proc (p : Pidx) (hp : ∀ q, q ≠ p → s'.proc q = s.proc q)
    (hpp : PSame (s.proc p) (s'.proc p)) (hth : s'.pthread = s.pthread) (hc : s'.cont = s.cont)
    (hn : s'.nextpid = s.nextpid) : Same s s' :=
  .of_ne p 0 hp hpp (fun j _ => by rw [hth]) (by rw [hth]) hc hn

/-- A process in use. -/
def Used (s : Kernel) (q : Pidx) : Prop := (s.proc q).state ≠ .UNUSED

/-- What is true of `j` while it sleeps in `thread_join(t)`. -/
structure Waits (s : Kernel) (j : Tidx) (t : Nat) : Prop where
  chan : (s.pthread j).chan = .pthread j
  joiner : (s.pthread j).joiner_pthread = some j
  pid_ne : (s.pthread j).pid ≠ 0
  assigned : ∀ q, Used s q → (s.proc q).pid = (s.pthread j).pid → t ≤ (s.proc q).thread_assign
  child : ∀ i, (s.pthread i).pid = (s.pthread j).pid → (s.pthread i).thread_id = t →
    (s.pthread i).state ≠ .UNUSED →
      (s.pthread i).joiner_pthread = some j ∧ (s.pthread i).state ≠ .THZOMBIE

structure Inv (s : Kernel) : Prop where
  /-- process ids are handed out once -/
  pid_lt : ∀ i, (s.pthread i).pid < s.nextpid
  proc_lt : ∀ q, (s.proc q).pid < s.nextpid
  proc_uniq : ∀ q r, Used s q → Used s r → (s.proc q).pid = (s.proc r).pid → q = r
  proc_ne : ∀ q, Used s q → (s.proc q).pid ≠ 0
  /-- and so are thread ids within a process -/
  uniq : ∀ i j, (s.pthread i).pid = (s.pthread j).pid → (s.pthread i).pid ≠ 0 →
    (s.pthread i).thread_id = (s.pthread j).thread_id → i = j
  assigned : ∀ q i, Used s q → (s.pthread i).pid = (s.proc q).pid →
    (s.pthread i).thread_id ≤ (s.proc q).thread_assign
  /-- only a main thread is its own joiner -/
  own : ∀ i, (s.pthread i).joiner_pthread = some i →
    (s.pthread i).thread_id = MAINTH ∧ (s.pthread i).state ≠ .UNUSED
  waits : ∀ j t, (s.pthread j).state = .SLEEPING → s.cont j = .join t → Waits s j t

/-- Thread `i` wears process `p`. -/
structure Worn (p : Pidx) (i : Tidx) (s : Kernel) : Prop where
  used : Used s p
  pid : (s.pthread i).pid = (s.proc p).pid
  thread_id : (s.pthread i).thread_id = (s.proc p).thread_id
  joiner : (s.pthread i).joiner_pthread = (s.proc p).joiner_pthread
  thread_idx : (s.proc p).thread_idx = i
  inUse : (s.pthread i).state ≠ .UNUSED

/-- The state in the middle of a turn. -/
structure Turn (p : Pidx) (i : Tidx) (s : Kernel) : Prop where
  inv : Inv s
  worn : Worn p i s

theorem Same.used (h : Same s s') (q : Pidx) : Used s' q ↔ Used s q := (h.proc q).used

/-- A call that keeps the threads keeps the invariant. -/
theorem Same.inv (h : Same s s') (hi : Inv s) : Inv s' where
  pid_lt := fun i => by
    rw [(h.th i).pid, h.nextpid]
    exact hi.pid_lt i
  proc_lt := fun q => by
    rw [(h.proc q).pid, h.nextpid]
    exact hi.proc_lt q
  proc_uniq := fun q r hq hr => by
    rw [(h.proc q).pid, (h.proc r).pid]
    exact hi.proc_uniq q r ((h.used q).1 hq) ((h.used r).1 hr)
  proc_ne := fun q hq => by
    rw [(h.proc q).pid]
    exact hi.proc_ne q ((h.used q).1 hq)
  uniq := fun i j => by
    rw [(h.th i).pid, (h.th j).pid, (h.th i).thread_id, (h.th j).thread_id]
    exact hi.uniq i j
  assigned := fun q i hq => by
    rw [(h.th i).pid, (h.proc q).pid, (h.th i).thread_id, (h.proc q).thread_assign]
    exact hi.assigned q i ((h.used q).1 hq)
  own := fun i => by
    rw [(h.th i).joiner, (h.th i).thread_id, (h.th i).state]
    exact hi.own i
  waits := fun j t => by
    rw [(h.th j).state, h.cont]
    intro hj ht
    have hw := hi.waits j t hj ht
    -- who waits waits on the same channel, for a thread with the same id
    constructor
    · rw [(h.th j).chan, hw.chan]
    · rw [(h.th j).joiner, hw.joiner]
    · rw [(h.th j).pid]
      exact hw.pid_ne
    · intro q hq
      rw [(h.proc q).pid, (h.th j).pid, (h.proc q).thread_assign]
      exact hw.assigned q ((h.used q).1 hq)
    · intro i
      rw [(h.th i).pid, (h.th j).pid, (h.th i).thread_id, (h.th i).state, (h.th i).joiner]
      exact hw.child i

/-- And what the process wears. -/
theorem Same.worn (h : Same s s') (hw : Worn p i s) : Worn p i s' where
  used := (h.used p).2 hw.used
  pid := by rw [(h.th i).pid, (h.proc p).pid, hw.pid]
  thread_id := by rw [(h.th i).thread_id, (h.proc p).thread_id, hw.thread_id]
  joiner := by rw [(h.th i).joiner, (h.proc p).joiner, hw.joiner]
  thread_idx := by rw [(h.proc p).thread_idx, hw.thread_idx]
  inUse := by
    rw [(h.th i).state]
    exact hw.inUse

theorem Turn.same (h : Turn p i s) (hs : Same s s') : Turn p i s' :=
  ⟨hs.inv h.inv, hs.worn h.worn⟩

/-! ## Calls that change memory only -/

/-- `growproc` keeps the threads. -/
theorem growproc_same {n : Int} :
    wp (growproc p n) s (fun _ s' => Same s s') fun _ => True := by
  unfold growproc
  simp only [wp_bind, wp_get]
  refine wp_ite (fun _ => (wp_pure ..).2 .rfl') fun _ => ?_
  rw [wp_bind]
  refine getPgdir_wp (fun pd _ => ?_) fun _ => trivial
  rw [wp_bind, wp_onKmem]
  refine wp_any fun r m => ?_
  simp only [wp_bind, wp_setPgdir]
  refine wp_ite (fun _ => (wp_pure ..).2 ?_) fun _ => ?_
  · refine .of_proc p (fun q hq => by simp [hq]) ?_ rfl rfl rfl
    constructor <;> simp
  · simp only [wp_bind, wp_setProc]
    refine switchuvm_wp ((wp_pure ..).2 ?_) trivial trivial
    refine .of_proc p (fun q hq => by simp [hq]) ?_ rfl rfl rfl
    constructor <;> simp

/-- `pthread_exec` keeps the other threads. -/
theorem pthread_exec_same {th : Tidx} :
    wp (pthread_exec p th) s (fun _ s' => Same s s') fun _ => True := by
  unfold pthread_exec
  simp only [wp_bind, wp_get]
  refine wp_ite (fun _ => (wp_pure ..).2 .rfl') fun _ => ?_
  rw [wp_bind]
  refine getPgdir_wp (fun pd _ => ?_) fun _ => trivial
  rw [wp_bind, wp_onKmem]
  refine wp_any fun r m => ?_
  simp only [wp_bind, wp_setPgdir]
  refine wp_ite (fun _ => (wp_pure ..).2 ?_) fun _ => ?_
  · refine .of_proc p (fun q hq => by simp [hq]) ?_ rfl rfl rfl
    constructor <;> simp
  rw [wp_bind, wp_onKmem]
  refine wp_any fun pd2 m2 => ?_
  simp only [wp_bind, wp_setPgdir, wp_onKmem]
  refine wp_any fun b m3 => ?_
  refine wp_ite (fun _ => (wp_pure ..).2 ?_) fun _ => ?_
  · refine .of_proc p (fun q hq => by simp [hq]) ?_ rfl rfl rfl
    constructor <;> simp
  cases (s.proc p).freed_sz.pop with
  | some q =>
      simp only [wp_bind, wp_setProc, wp_setTh, wp_pure]
      refine .of_ne p th (fun q hq => by simp [hq]) ?_ (fun j hj => by simp [hj]) ?_ rfl rfl <;>
        constructor <;> simp
  | none =>
      simp only [wp_bind, wp_setProc, wp_setTh, wp_pure]
      refine .of_ne p th (fun q hq => by simp [hq]) ?_ (fun j hj => by simp [hj]) ?_ rfl rfl <;>
        constructor <;> simp

/-- `setmemorylimit` keeps the threads. -/
theorem setmemorylimit_same {pid limit : Int} :
    wp (setmemorylimit pid limit) s (fun _ s' => Same s s') fun _ => True := by
  unfold setmemorylimit
  refine wp_ite (fun _ => (wp_pure ..).2 .rfl') fun _ => ?_
  simp only [wp_bind, wp_get]
  cases findProc _ with
  | none => exact (wp_pure ..).2 .rfl'
  | some q =>
      refine wp_ite (fun _ => (wp_pure ..).2 .rfl') fun _ => ?_
      simp only [wp_bind, wp_setProc, wp_pure]
      refine .of_proc q (fun r hr => by simp [hr]) ?_ rfl rfl rfl
      constructor <;> simp

/-! ## Changes of state -/

/-- Thread states have changed, but nothing has gone to sleep; where a thread
still sleeps, no thread of its process has terminated or come into use. -/
structure Stir (s s' : Kernel) : Prop where
  proc : ∀ q, PSame (s.proc q) (s'.proc q)
  th : ∀ i, (s'.pthread i).pid = (s.pthread i).pid ∧ (s'.pthread i).chan = (s.pthread i).chan ∧
    (s'.pthread i).thread_id = (s.pthread i).thread_id ∧
    (s'.pthread i).joiner_pthread = (s.pthread i).joiner_pthread
  asleep : ∀ j, (s'.pthread j).state = .SLEEPING →
    (s.pthread j).state = .SLEEPING ∧ s'.cont j = s.cont j
  inUse : ∀ i, (s.pthread i).state ≠ .UNUSED → (s'.pthread i).state ≠ .UNUSED
  family : ∀ i j, (s'.pthread j).state = .SLEEPING → (s.pthread i).pid = (s.pthread j).pid →
    (s'.pthread i).state ≠ .UNUSED →
      (s.pthread i).state ≠ .UNUSED ∧
        ((s.pthread i).state ≠ .THZOMBIE → (s'.pthread i).state ≠ .THZOMBIE)
  nextpid : s'.nextpid = s.nextpid

theorem Stir.used (h : Stir s s') (q : Pidx) : Used s' q ↔ Used s q := (h.proc q).used

/-- Waking and killing keep the invariant. -/
theorem Stir.inv (h : Stir s s') (hi : Inv s) : Inv s' where
  pid_lt := fun i => by
    rw [(h.th i).1, h.nextpid]
    exact hi.pid_lt i
  proc_lt := fun q => by
    rw [(h.proc q).pid, h.nextpid]
    exact hi.proc_lt q
  proc_uniq := fun q r hq hr => by
    rw [(h.proc q).pid, (h.proc r).pid]
    exact hi.proc_uniq q r ((h.used q).1 hq) ((h.used r).1 hr)
  proc_ne := fun q hq => by
    rw [(h.proc q).pid]
    exact hi.proc_ne q ((h.used q).1 hq)
  uniq := fun i j => by
    rw [(h.th i).1, (h.th j).1, (h.th i).2.2.1, (h.th j).2.2.1]
    exact hi.uniq i j
  assigned := fun q i hq => by
    rw [(h.th i).1, (h.proc q).pid, (h.th i).2.2.1, (h.proc q).thread_assign]
    exact hi.assigned q i ((h.used q).1 hq)
  own := fun i => by
    rw [(h.th i).2.2.2, (h.th i).2.2.1]
    exact fun ho => ⟨(hi.own i ho).1, h.inUse i (hi.own i ho).2⟩
  waits := fun j t hj ht => by
    rcases h.asleep j hj with ⟨hj0, hc⟩
    rw [hc] at ht
    -- who is still asleep has not been woken, so what it waits for has not happened
    have hw := hi.waits j t hj0 ht
    constructor
    · rw [(h.th j).2.1, hw.chan]
    · rw [(h.th j).2.2.2, hw.joiner]
    · rw [(h.th j).1]
      exact hw.pid_ne
    · intro q hq
      rw [(h.proc q).pid, (h.th j).1, (h.proc q).thread_assign]
      exact hw.assigned q ((h.used q).1 hq)
    · intro i hpid hid hu
      rw [(h.th i).1, (h.th j).1] at hpid
      rw [(h.th i).2.2.1] at hid
      rcases h.family i j hj hpid hu with ⟨hu0, hz⟩
      rcases hw.child i hpid hid hu0 with ⟨ho, hz0⟩
      rw [(h.th i).2.2.2]
      exact ⟨ho, hz hz0⟩

/-- Also during a turn. -/
theorem Turn.stir (h : Turn p i s) (hs : Stir s s') : Turn p i s' := by
  refine ⟨hs.inv h.inv, (hs.used p).2 h.worn.used, ?_, ?_, ?_, ?_, hs.inUse i h.worn.inUse⟩
  · rw [(hs.th i).1, (hs.proc p).pid, h.worn.pid]
  · rw [(hs.th i).2.2.1, (hs.proc p).thread_id, h.worn.thread_id]
  · rw [(hs.th i).2.2.2, (hs.proc p).joiner, h.worn.joiner]
  · rw [(hs.proc p).thread_idx, h.worn.thread_idx]

theorem wake_same (c : Chan) (t : Pthread) : (wake c t).pid = t.pid ∧ (wake c t).chan = t.chan ∧
    (wake c t).thread_id = t.thread_id ∧ (wake c t).joiner_pthread = t.joiner_pthread := by
  unfold wake
  split <;> exact ⟨rfl, rfl, rfl, rfl⟩

/-- A wakeup changes `SLEEPING` to `RUNNABLE` and nothing else. -/
theorem wake_state (c : Chan) (t : Pthread) :
    (wake c t).state = t.state ∨ (t.state = .SLEEPING ∧ (wake c t).state = .RUNNABLE) := by
  unfold wake
  split
  · next h => exact .inr ⟨h.1, rfl⟩
  · exact .inl rfl

/-- A sleeper that `wakeup1` passes over sleeps on another channel. -/
theorem wake_asleep {c : Chan} {t : Pthread} (h : (wake c t).state = .SLEEPING) :
    t.state = .SLEEPING ∧ t.chan ≠ c := by
  unfold wake at h
  split at h
  · cases h
  · next hn => exact ⟨h, fun hc => hn ⟨h, hc⟩⟩

/-- A wakeup stirs. -/
theorem Stir.woken (s : Kernel) (c : Chan) : Stir s (s.woken c) where
  proc := fun q => .refl _
  th := fun i => wake_same c _
  asleep := fun j hj => ⟨(wake_asleep hj).1, rfl⟩
  inUse := fun i hi => by
    rcases wake_state c (s.pthread i) with h | ⟨-, h⟩ <;> simp only [Kernel.woken, h]
    · exact hi
    · decide
  family := fun i j _ _ hu => by
    rcases wake_state c (s.pthread i) with h | ⟨h0, h⟩ <;> simp only [Kernel.woken, h] at hu ⊢
    · exact ⟨hu, id⟩
    · exact ⟨by rw [h0]; decide, fun _ => by decide⟩
  nextpid := rfl

/-- The threads of one process have been given other states, none of them asleep. -/
theorem Stir.mark {n : Nat} {f : Pthread → ProcState}
    (hp : ∀ q, PSame (s.proc q) (s'.proc q))
    (hth : ∀ i, s'.pthread i = if (s.pthread i).pid = n then
      { s.pthread i with state := f (s.pthread i) } else s.pthread i)
    (hf : ∀ t, f t ≠ .SLEEPING ∧ f t ≠ .UNUSED) (hc : s'.cont = s.cont)
    (hn : s'.nextpid = s.nextpid) : Stir s s' where
  proc := hp
  th := fun i => by
    rw [hth]
    split <;> exact ⟨rfl, rfl, rfl, rfl⟩
  asleep := fun j hj => by
    rw [hth] at hj
    split at hj
    · exact absurd hj (hf _).1
    · exact ⟨hj, by rw [hc]⟩
  inUse := fun i hi => by
    rw [hth]
    split
    · exact (hf _).2
    · exact hi
  family := fun i j hj hpid hu => by
    -- the sleeper is of another process
    have hne : (s.pthread j).pid ≠ n := by
      intro he
      rw [hth, if_pos he] at hj
      exact (hf _).1 hj
    rw [hth, if_neg (by rwa [hpid])] at hu ⊢
    exact ⟨hu, id⟩
  nextpid := hn

/-- `kill` keeps the turn, and the caller goes on. -/
theorem kill_turn {pid : Int} (h : Turn p i s) :
    wp (kill pid) s (fun _ s' => Turn p i s' ∧
      ((s.proc p).state = .RUNNING → (s'.proc p).state = .RUNNING)) fun _ => True := by
  unfold kill
  simp only [wp_bind, wp_get]
  cases hf : findProc _ with
  | none => exact (wp_pure ..).2 ⟨h, id⟩
  | some q =>
      have hq : ((s.proc q).pid : Int) = pid := by simpa using findProc_some hf
      simp only [wp_bind, wp_setProc, wp_modify, wp_pure]
      refine ⟨h.stir (.mark (n := (s.proc q).pid) (f := fun t =>
        if t.thread_id = MAINTH then .RUNNABLE else .THZOMBIE) ?_ ?_ ?_ rfl rfl), ?_⟩
      -- the process is marked, and goes on if it slept
      · intro r
        by_cases hr : r = q
        · subst hr
          simp only [Kernel.setProc_self]
          refine ⟨rfl, ?_, rfl, rfl, rfl, rfl⟩
          split
          · next hs => simp [hs]
          · rfl
        · simp only [Kernel.setProc_ne hr]
          exact .refl _
      -- so are its threads; the others are untouched
      · intro j
        subst hq
        by_cases hj : (s.pthread j).pid = (s.proc q).pid
        · simp only [Kernel.setProc_pthread, hj, if_true]
          rfl
        · have hj' : ((s.pthread j).pid : Int) ≠ (s.proc q).pid := by omega
          simp only [Kernel.setProc_pthread, hj, hj', if_false]
      · intro t
        split <;> decide
      · intro hrun
        by_cases hr : p = q
        · subst hr
          simp [hrun]
        · simp [hr, hrun]

/-! ## Slots that go and come -/

theorem Inv.nextpid_pos (h : Inv s) : 0 < s.nextpid :=
  Nat.lt_of_le_of_lt (Nat.zero_le _) (h.proc_lt 0)

theorem Worn.pid_ne (h : Worn p i s) (hi : Inv s) : (s.pthread i).pid ≠ 0 := by
  rw [h.pid]
  exact hi.proc_ne p h.used

/-- Slot `d` has been given back. -/
structure Reaped (d : Tidx) (s s' : Kernel) : Prop where
  proc : ∀ q, PSame (s.proc q) (s'.proc q)
  th : ∀ i, i ≠ d → TSame (s.pthread i) (s'.pthread i)
  pid : (s'.pthread d).pid = 0
  state : (s'.pthread d).state = .UNUSED
  joiner : (s'.pthread d).joiner_pthread = none
  cont : s'.cont = s.cont
  nextpid : s'.nextpid = s.nextpid

theorem Reaped.used {d : Tidx} (h : Reaped d s s') (q : Pidx) : Used s' q ↔ Used s q :=
  (h.proc q).used

/-- Freeing a zombie that nobody waits for keeps the invariant. -/
theorem Reaped.inv {d : Tidx} (h : Reaped d s s') (hi : Inv s) : Inv s' := by
  -- the freed slot has pid 0 and is in use by nobody
  have hne : ∀ i, (s'.pthread i).pid ≠ 0 → i ≠ d := by
    rintro i hi rfl
    exact hi h.pid
  have huse : ∀ i, (s'.pthread i).state ≠ .UNUSED → i ≠ d := by
    rintro i hi rfl
    exact hi h.state
  constructor
  · intro i
    rw [h.nextpid]
    by_cases hd : i = d
    · rw [hd, h.pid]
      exact hi.nextpid_pos
    · rw [(h.th i hd).pid]
      exact hi.pid_lt i
  · intro q
    rw [(h.proc q).pid, h.nextpid]
    exact hi.proc_lt q
  · intro q r hq hr
    rw [(h.proc q).pid, (h.proc r).pid]
    exact hi.proc_uniq q r ((h.used q).1 hq) ((h.used r).1 hr)
  · intro q hq
    rw [(h.proc q).pid]
    exact hi.proc_ne q ((h.used q).1 hq)
  · intro i j hp h0
    have h1 := hne i h0
    have h2 := hne j (hp ▸ h0)
    rw [(h.th i h1).pid] at hp h0
    rw [(h.th j h2).pid] at hp
    rw [(h.th i h1).thread_id, (h.th j h2).thread_id]
    exact hi.uniq i j hp h0
  · intro q i hq hp
    have hq := (h.used q).1 hq
    have h1 : i ≠ d := hne i (by rw [hp, (h.proc q).pid]; exact hi.proc_ne q hq)
    rw [(h.th i h1).pid, (h.proc q).pid] at hp
    rw [(h.th i h1).thread_id, (h.proc q).thread_assign]
    exact hi.assigned q i hq hp
  · intro i ho
    have h1 : i ≠ d := by
      rintro rfl
      rw [h.joiner] at ho
      cases ho
    rw [(h.th i h1).joiner] at ho
    rw [(h.th i h1).thread_id, (h.th i h1).state]
    exact hi.own i ho
  -- who waits does not wait for the freed thread, which had exited
  · intro j t hj ht
    have h1 : j ≠ d := huse j (by rw [hj]; decide)
    rw [(h.th j h1).state] at hj
    rw [h.cont] at ht
    have hw := hi.waits j t hj ht
    constructor
    · rw [(h.th j h1).chan, hw.chan]
    · rw [(h.th j h1).joiner, hw.joiner]
    · rw [(h.th j h1).pid]
      exact hw.pid_ne
    · intro q hq
      rw [(h.proc q).pid, (h.th j h1).pid, (h.proc q).thread_assign]
      exact hw.assigned q ((h.used q).1 hq)
    · intro i hp hid hu
      have h2 := huse i hu
      rw [(h.th i h2).pid, (h.th j h1).pid] at hp
      rw [(h.th i h2).thread_id] at hid
      rw [(h.th i h2).state] at hu ⊢
      rw [(h.th i h2).joiner]
      exact hw.child i hp hid hu

/-- Also during the turn of another thread. -/
theorem Turn.reaped {d : Tidx} (h : Turn p i s) (hs : Reaped d s s') (hd : i ≠ d) :
    Turn p i s' where
  inv := hs.inv h.inv
  worn := by
    have hw := h.worn
    refine ⟨(hs.used p).2 hw.used, ?_, ?_, ?_, ?_, ?_⟩
    · rw [(hs.th i hd).pid, (hs.proc p).pid, hw.pid]
    · rw [(hs.th i hd).thread_id, (hs.proc p).thread_id, hw.thread_id]
    · rw [(hs.th i hd).joiner, (hs.proc p).joiner, hw.joiner]
    · rw [(hs.proc p).thread_idx, hw.thread_idx]
    · rw [(hs.th i hd).state]
      exact hw.inUse

/-- Process `p` has taken slot `n` for a thread with the next id, which may have
failed since. -/
structure Spawned (p : Pidx) (n : Tidx) (s s' : Kernel) : Prop where
  free : (s.pthread n).state = .UNUSED
  proc : ∀ q, q ≠ p → PSame (s.proc q) (s'.proc q)
  pid : (s'.proc p).pid = (s.proc p).pid
  used_p : Used s' p ↔ Used s p
  thread_assign : (s'.proc p).thread_assign = (s.proc p).thread_assign + 1
  thread_id : (s'.proc p).thread_id = (s.proc p).thread_id
  joiner : (s'.proc p).joiner_pthread = (s.proc p).joiner_pthread
  thread_idx : (s'.proc p).thread_idx = (s.proc p).thread_idx
  th : ∀ j, j ≠ n → TSame (s.pthread j) (s'.pthread j) ∧ s'.cont j = s.cont j
  new_pid : (s'.pthread n).pid = (s.proc p).pid
  new_id : (s'.pthread n).thread_id = (s.proc p).thread_assign + 1
  new_state : (s'.pthread n).state ≠ .SLEEPING
  new_joiner : (s'.pthread n).joiner_pthread ≠ some n
  nextpid : s'.nextpid = s.nextpid

namespace Spawned

variable {n : Tidx}

theorem proc_pid (h : Spawned p n s s') (q : Pidx) : (s'.proc q).pid = (s.proc q).pid := by
  by_cases hq : q = p
  · rw [hq, h.pid]
  · rw [(h.proc q hq).pid]

theorem used (h : Spawned p n s s') (q : Pidx) : Used s' q ↔ Used s q := by
  by_cases hq : q = p
  · rw [hq, h.used_p]
  · exact (h.proc q hq).used

/-- The ids only go up. -/
theorem assign_le (h : Spawned p n s s') (q : Pidx) :
    (s.proc q).thread_assign ≤ (s'.proc q).thread_assign := by
  by_cases hq : q = p
  · rw [hq, h.thread_assign]
    exact Nat.le_succ _
  · rw [(h.proc q hq).thread_assign]

/-- A new thread keeps the invariant: its id is that of nobody. -/
theorem inv (h : Spawned p n s s') (hi : Inv s) (hp : Used s p) : Inv s' := by
  -- the new id is above all ids of the process
  have hnew : ∀ j, (s.pthread j).pid = (s.proc p).pid →
      (s.pthread j).thread_id ≠ (s'.pthread n).thread_id := by
    intro j hj
    have := hi.assigned p j hp hj
    rw [h.new_id]
    omega
  constructor
  · intro j
    rw [h.nextpid]
    by_cases hj : j = n
    · rw [hj, h.new_pid]
      exact hi.proc_lt p
    · rw [(h.th j hj).1.pid]
      exact hi.pid_lt j
  · intro q
    rw [h.proc_pid, h.nextpid]
    exact hi.proc_lt q
  · intro q r hq hr
    rw [h.proc_pid, h.proc_pid]
    exact hi.proc_uniq q r ((h.used q).1 hq) ((h.used r).1 hr)
  · intro q hq
    rw [h.proc_pid]
    exact hi.proc_ne q ((h.used q).1 hq)
  · intro j k hpid h0 hid
    by_cases hj : j = n <;> by_cases hk : k = n
    · rw [hj, hk]
    · subst hj
      rw [h.new_pid, (h.th k hk).1.pid] at hpid
      rw [(h.th k hk).1.thread_id] at hid
      exact absurd hid.symm (hnew k hpid.symm)
    · subst hk
      rw [(h.th j hj).1.pid, h.new_pid] at hpid
      rw [(h.th j hj).1.thread_id] at hid
      exact absurd hid (hnew j hpid)
    · rw [(h.th j hj).1.pid] at hpid h0
      rw [(h.th k hk).1.pid] at hpid
      rw [(h.th j hj).1.thread_id, (h.th k hk).1.thread_id] at hid
      exact hi.uniq j k hpid h0 hid
  · intro q j hq hpid
    have hq := (h.used q).1 hq
    rw [h.proc_pid] at hpid
    by_cases hj : j = n
    · subst hj
      rw [h.new_pid] at hpid
      cases hi.proc_uniq p q hp hq hpid
      rw [h.new_id, h.thread_assign]
    · rw [(h.th j hj).1.pid] at hpid
      rw [(h.th j hj).1.thread_id]
      exact Nat.le_trans (hi.assigned q j hq hpid) (h.assign_le q)
  · intro j ho
    by_cases hj : j = n
    · subst hj
      exact absurd ho h.new_joiner
    · rw [(h.th j hj).1.joiner] at ho
      rw [(h.th j hj).1.thread_id, (h.th j hj).1.state]
      exact hi.own j ho
  · intro j t hs ht
    have hj : j ≠ n := by
      rintro rfl
      exact h.new_state hs
    rcases h.th j hj with ⟨hsame, hc⟩
    rw [hsame.state] at hs
    rw [hc] at ht
    have hw := hi.waits j t hs ht
    constructor
    · rw [hsame.chan, hw.chan]
    · rw [hsame.joiner, hw.joiner]
    · rw [hsame.pid]
      exact hw.pid_ne
    · intro q hq hpid
      rw [h.proc_pid, hsame.pid] at hpid
      exact Nat.le_trans (hw.assigned q ((h.used q).1 hq) hpid) (h.assign_le q)
    · intro k hpid hid hu
      rw [hsame.pid] at hpid
      by_cases hk : k = n
      · -- nobody waits for an id that has just been handed out
        subst hk
        rw [h.new_pid] at hpid
        rw [h.new_id] at hid
        have := hw.assigned p hp hpid
        omega
      · rcases h.th k hk with ⟨hk, -⟩
        rw [hk.pid] at hpid
        rw [hk.thread_id] at hid
        rw [hk.state] at hu ⊢
        rw [hk.joiner]
        exact hw.child k hpid hid hu

/-- Also during the turn of its creator. -/
theorem turn (h : Spawned p n s s') (ht : Turn p i s) : Turn p i s' where
  inv := h.inv ht.inv ht.worn.used
  worn := by
    have hw := ht.worn
    have hin : i ≠ n := fun he => hw.inUse (he ▸ h.free)
    rcases h.th i hin with ⟨hsame, -⟩
    refine ⟨(h.used p).2 hw.used, ?_, ?_, ?_, ?_, ?_⟩
    · rw [hsame.pid, h.pid, hw.pid]
    · rw [hsame.thread_id, h.thread_id, hw.thread_id]
    · rw [hsame.joiner, h.joiner, hw.joiner]
    · rw [h.thread_idx, hw.thread_idx]
    · rw [hsame.state]
      exact hw.inUse

end Spawned

theorem allocthread_none_same {d : Tidx} :
    Same s (s.setTh d fun t => { t with kstack := 0 }) := by
  refine .of_ne 0 d (fun _ _ => rfl) (.refl _) (fun j hj => by simp [hj]) ?_ rfl rfl
  constructor <;> simp

/-- `thread_create` keeps the turn. -/
theorem thread_create_turn (h : Turn p i s) (hlt : (s.proc p).thread_assign + 1 < 2 ^ 32) :
    wp (thread_create p) s (fun _ s' => Turn p i s') fun _ => True := by
  unfold thread_create pthread_fork
  simp only [wp_bind]
  refine allocthread_wp (fun _ => (wp_pure ..).2 ((wp_pure ..).2 h)) (fun d _ _ => ?_) ?_
  · exact (wp_pure ..).2 ((wp_pure ..).2 (h.same allocthread_none_same))
  intro n k m hn _ _
  have hin : i ≠ n := fun he => h.worn.inUse (he ▸ hn)
  have hmod : ((s.proc p).thread_assign + 1) % 4294967296 = (s.proc p).thread_assign + 1 :=
    Nat.mod_eq_of_lt (by simpa using hlt)
  have hown : (s.pthread n).joiner_pthread ≠ some n := fun ho => (h.inv.own n ho).2 hn
  simp only [wp_bind, wp_setProc, wp_get, wp_setTh, wp_pure]
  refine wp.mono pthread_exec_same (fun ok s1 h1 => ?_) fun _ he => he
  refine wp_ite (fun _ => ?_) fun _ => ?_
  -- no user stack: the slot is free again
  · simp only [wp_bind, wp_setTh, wp_pure]
    refine Spawned.turn (n := n) ?_ h
    have hp := h1.proc p
    have hnn := h1.th n
    refine ⟨hn, fun q hq => ?_, ?_, ?_, ?_, ?_, ?_, ?_, fun j hj => ⟨?_, ?_⟩, ?_, ?_, ?_, ?_, ?_⟩
    · simpa [hq] using h1.proc q
    · simpa using hp.pid
    · simpa [Used] using hp.used
    · simpa [hmod] using hp.thread_assign
    · simpa using hp.thread_id
    · simpa using hp.joiner
    · simpa using hp.thread_idx
    · simpa [hj] using h1.th j
    · simpa using congrFun h1.cont j
    · simpa using hnn.pid
    · simpa [hmod] using hnn.thread_id
    · simp
    · have hj := hnn.joiner
      simp only [Kernel.setTh_self] at hj ⊢
      rw [hj]
      simpa [freshTh] using hown
    · simpa using h1.nextpid
  -- the new thread has the next id, and waits for nobody
  · simp only [wp_bind, wp_get, wp_setTh, wp_setCont, wp_pure]
    refine Spawned.turn (n := n) ?_ h
    have hp := h1.proc p
    have hnn := h1.th n
    refine ⟨hn, fun q hq => ?_, ?_, ?_, ?_, ?_, ?_, ?_, fun j hj => ⟨?_, ?_⟩, ?_, ?_, ?_, ?_, ?_⟩
    · simpa [hq] using h1.proc q
    · simpa using hp.pid
    · simpa [Used] using hp.used
    · simpa [hmod] using hp.thread_assign
    · simpa using hp.thread_id
    · simpa using hp.joiner
    · simpa using hp.thread_idx
    · simpa [hj] using h1.th j
    · simpa [hj] using congrFun h1.cont j
    · simpa using hp.pid
    · simpa [hmod] using hnn.thread_id
    · simp
    · have hidx : (s1.proc p).thread_idx = i := by
        have := hp.thread_idx
        simp only [Kernel.setProc_self, Kernel.setTh_proc, Kernel.setKmem_proc] at this
        rw [this, h.worn.thread_idx]
      simpa [hidx] using hin
    · simpa using h1.nextpid

/-! ## Calls that sleep or end a thread -/

/-- What is true of the running thread when it goes to sleep in `thread_join(t)`. -/
structure Sleeper (p : Pidx) (i : Tidx) (t : Nat) (s : Kernel) : Prop where
  chan : (s.proc p).chan = .pthread i
  joiner : (s.proc p).joiner_pthread = some i
  assigned : t ≤ (s.proc p).thread_assign
  child : ∀ j, (s.pthread j).pid = (s.proc p).pid → (s.pthread j).thread_id = t →
    (s.pthread j).state ≠ .UNUSED →
      (s.pthread j).joiner_pthread = some i ∧ (s.pthread j).state ≠ .THZOMBIE

/-- What is true when control goes back to the scheduler: a thread that
terminates leaves nobody waiting, and one that sleeps in `thread_join` waits for
a thread that will wake it. -/
def Settled (p : Pidx) (i : Tidx) (s : Kernel) : Outcome → Prop
  | .ret _ => True
  | .switch k =>
      ((s.proc p).state = .THZOMBIE → ∀ j t, (s.pthread j).state = .SLEEPING →
        s.cont j = .join t → (s.pthread j).pid = (s.pthread i).pid →
          (s.pthread i).thread_id ≠ t) ∧
      ((s.proc p).state = .SLEEPING → ∀ t, k = .join t → Sleeper p i t s)

/-- A thread goes to sleep, not in `thread_join`. -/
theorem sleep_turn {c : Chan} {k : Cont} (h : Turn p i s) (hk : ∀ t, k ≠ .join t) :
    wp (sleep p c k) s (fun r s' => Turn p i s' ∧ Settled p i s' r) fun _ => True := by
  unfold sleep
  simp only [wp_bind, wp_setProc]
  refine sched_wp (fun _ => trivial) fun _ => (wp_pure ..).2 ⟨h.same ?_, ?_, ?_⟩
  · refine .of_proc p (fun q hq => by simp [hq]) ?_ rfl rfl rfl
    have hu := h.worn.used
    constructor <;> simp
    exact hu
  · simp
  · exact fun _ t ht => absurd ht (hk t)

/-- Nor does one that goes on inside another system call. -/
theorem inside_turn {k : Cont} {w z : Option Chan} (h : Turn p i s) :
    wp (inside p k w z) s (fun r s' => Turn p i s' ∧ Settled p i s' r) fun _ => True := by
  refine inside_wp (Turn p i) (Turn p i) h
    (h.same (.of_proc p (fun q hq => by simp [hq]) ?_ rfl rfl rfl))
    (fun s1 h1 => ⟨h1, fun ch _ => h1.stir (.woken s1 ch)⟩)
    (fun _ _ h1 _ => sleep_turn h1 (by simp))
    fun s1 h1 _ => ?_
  · constructor <;> simp
  · unfold yieldInside
    simp only [wp_bind, wp_setProc]
    refine sched_wp (fun _ => trivial) fun _ => (wp_pure ..).2 ⟨h1.same ?_, by simp, by simp⟩
    refine .of_proc p (fun q hq => by simp [hq]) ?_ rfl rfl rfl
    have hu := h1.worn.used
    constructor <;> simp
    exact hu

/-- `thread_join(t)` by thread `i` either does not sleep, or `i` is its own joiner
and the threads that the scan accepts have been created by it. -/
def JoinsOwn (s : Kernel) (i : Tidx) (pid id t w : Nat) (killed : Bool) : Prop :=
  killed = false → ∀ j, mayJoin s pid id t w j = true → (s.pthread j).state ≠ .THZOMBIE →
    (s.pthread i).joiner_pthread = some i ∧ (s.pthread j).joiner_pthread = some i

/-- Freeing a zombie thread. -/
theorem reapThread_reaped {d : Tidx} :
    wp (reapThread p d) s (fun _ s' => Reaped d s s') fun _ => True := by
  unfold reapThread
  simp only [wp_bind, wp_get]
  refine kfreeStack_wp (fun m _ _ => ?_) fun _ _ => trivial
  simp only [wp_onKmem, wp_setTh, wp_setProc]
  refine getPgdir_wp (fun pd _ => ?_) fun _ => trivial
  simp only [wp_setPgdir, wp_pure]
  refine wp_any fun r m2 => ?_
  refine ⟨fun q => ?_, fun j hj => ?_, ?_, ?_, ?_, rfl, rfl⟩
  · by_cases hq : q = p
    · subst hq
      constructor <;> simp
    · simp only [Kernel.setTh_proc, Kernel.setKmem_proc, Kernel.setProc_ne hq]
      exact .refl _
  · simp only [Kernel.setTh_ne hj, Kernel.setProc_pthread, Kernel.setKmem_pthread]
    exact .refl _
  · simp
  · simp
  · simp

/-- The scan of `thread_join` keeps the turn: who sleeps waits for a thread that will wake it. -/
theorem joinScan_turn {t w : Nat} (h : Turn p i s) (hi : (s.pthread i).state ≠ .THZOMBIE)
    (hok : JoinsOwn s i (s.proc p).pid (s.proc p).thread_id t w (s.proc p).killed) :
    wp (joinScan p t w) s (fun r s' => Turn p i s' ∧ Settled p i s' r) fun _ => True := by
  unfold joinScan
  simp only [wp_bind, wp_get]
  cases hf : findTh _ with
  | some d =>
      have hd := findTh_some hf
      rw [decide_eq_true_iff] at hd
      have hid : i ≠ d := fun he => hi (he ▸ hd.2)
      simp only [wp_bind]
      refine wp.mono reapThread_reaped (fun _ s1 h1 => ?_) fun _ he => he
      exact (wp_pure ..).2 ⟨h.reaped h1 hid, trivial⟩
  | none =>
      have hz : ∀ j, mayJoin s (s.proc p).pid (s.proc p).thread_id t w j = true →
          (s.pthread j).state ≠ .THZOMBIE := by
        intro j hj hs
        have := findTh_none.1 hf j
        rw [decide_eq_false_iff_not] at this
        exact this ⟨hj, hs⟩
      refine wp_ite (fun _ => (wp_pure ..).2 ⟨h, trivial⟩) fun hgo => ?_
      rw [not_or, findTh_isNone, Bool.not_eq_true] at hgo
      rcases hgo with ⟨hsome, hkilled⟩
      obtain ⟨j0, hj0⟩ : ∃ j, mayJoin s (s.proc p).pid (s.proc p).thread_id t w j = true := by
        by_contra hn
        exact hsome fun j => by
          rw [← Bool.not_eq_true]
          exact fun hj => hn ⟨j, hj⟩
      rcases hok hkilled j0 hj0 (hz j0 hj0) with ⟨hown, hj0own⟩
      have hm0 := hj0
      unfold mayJoin at hm0
      rw [decide_eq_true_iff] at hm0
      -- the scan has accepted the only thread with this id
      have huniq : ∀ j, (s.pthread j).pid = (s.proc p).pid → (s.pthread j).thread_id = t →
          j = j0 := by
        intro j hp hid
        refine h.inv.uniq j j0 (by rw [hp, hm0.1]) ?_ (by rw [hid, hm0.2.1])
        rw [hp]
        exact h.inv.proc_ne p h.worn.used
      have hjoiner : (s.proc p).joiner_pthread = some i := by rw [← h.worn.joiner, hown]
      unfold sleep
      simp only [wp_bind, wp_setProc]
      refine sched_wp (fun _ => trivial) fun _ => (wp_pure ..).2 ⟨h.same ?_, ?_, ?_⟩
      · refine .of_proc p (fun q hq => by simp [hq]) ?_ rfl rfl rfl
        have hu := h.worn.used
        constructor <;> simp
        exact hu
      · simp
      · intro _ t' ht'
        cases ht'
        refine ⟨?_, ?_, ?_, fun j hp hid hu => ?_⟩
        · simp [hjoiner, chanOf]
        · simpa using hjoiner
        · have := h.inv.assigned p j0 h.worn.used hm0.1
          rw [hm0.2.1] at this
          simpa using this
        · have hj := huniq j (by simpa using hp) hid
          subst hj
          exact ⟨hj0own, hz _ hj0⟩

/-- `thread_exit` keeps the turn: it wakes those who wait for it. -/
theorem thread_exit_turn {retval : Nat} (h : Turn p i s) (hrun : (s.proc p).state = .RUNNING) :
    wp (thread_exit p retval) s (fun r s' => Turn p i s' ∧ Settled p i s' r) fun _ => True := by
  unfold thread_exit
  simp only [wp_bind, wp_get]
  refine wp_ite (fun _ => ?_) fun _ => ?_
  · -- `kill` leaves the caller RUNNING, and `sched` panics
    simp only [wp_bind, wakeup1_wp]
    refine wp.mono (kill_turn h) (fun _ s1 h1 => ?_) fun _ he => he
    exact sched_wp (fun _ => trivial) fun hn => absurd (h1.2 hrun) hn
  · simp only [wp_bind, wp_setTh, wp_setProc, wakeup1_wp]
    refine sched_wp (fun _ => trivial) fun _ => (wp_pure ..).2 ?_
    rw [h.worn.thread_idx]
    have hs1 : Same s ((s.setTh i fun t => { t with retval := retval }).setProc p
        fun x => { x with state := .THZOMBIE }) := by
      refine .of_ne p i (fun q hq => by simp [hq]) ?_ (fun j hj => by simp [hj]) ?_ rfl rfl
      · have hu := h.worn.used
        constructor <;> simp
        exact hu
      · constructor <;> simp
    have h1 := h.same hs1
    refine ⟨h1.stir (.woken _ _), fun _ j t hj ht hp hid => ?_, fun hs => ?_⟩
    swap
    · simp [Kernel.woken] at hs
    -- a thread that waited for this one slept on the channel that has just been woken
    rcases wake_asleep hj with ⟨hj0, hc⟩
    have hw := h1.inv.waits j t hj0 ht
    simp only [Kernel.woken, (wake_same _ _).1, (wake_same _ _).2.2.1] at hp hid
    rcases hw.child i hp.symm hid h1.worn.inUse with ⟨ho, -⟩
    rw [h1.worn.joiner] at ho
    apply hc
    rw [hw.chan]
    simp only [Kernel.setProc_self, Kernel.setTh_proc] at ho
    rw [ho]
    rfl

/-- The end of `exit` stirs. -/
theorem Stir.exited (hp : Used s p) (c : Option Tidx) : Stir s (s.exited p c) := by
  refine .mark (f := fun _ => .THZOMBIE) (fun q => ?_) (fun j => rfl) (fun _ => by decide) rfl rfl
  have ha : PSame (s.proc q) (adopt p s.initproc c (s.proc q)) := by
    unfold adopt
    split <;> exact ⟨rfl, Iff.rfl, rfl, rfl, rfl, rfl⟩
  unfold Kernel.exited
  by_cases hq : q = p
  · subst hq
    simp only [Kernel.setProc_self]
    exact ⟨ha.pid, by simpa [Used] using hp, ha.thread_assign, ha.thread_id, ha.joiner,
      ha.thread_idx⟩
  · simpa [hq] using ha

/-- `exit` keeps the turn. -/
theorem exit_turn (h : Turn p i s) :
    wp (exit p) s (fun r s' => Turn p i s' ∧ Settled p i s' r) fun _ => True := by
  have hgo : ∀ s1 c, Turn p i s1 → Turn p i (s1.exited p c) ∧
      Settled p i (s1.exited p c) (.switch .user) := by
    intro s1 c h1
    refine ⟨h1.stir (.exited h1.worn.used c), ?_, ?_⟩ <;> simp [Kernel.exited]
  refine exit_wp fun c c' => ⟨hgo _ c' (h.stir (.woken s c)), fun c2 => ?_⟩
  exact hgo _ c' ((h.stir (.woken s c)).stir (.woken _ c2))

/-! ## Processes -/

/-- A process out of use, and slots that have been given back. -/
theorem reapThreads_turn {pid : Nat} {ths : List Tidx} (h : Turn p i s)
    (hpid : (s.pthread i).pid ≠ pid) :
    wp (reapThreads p pid ths) s (fun _ s' => Turn p i s' ∧ s'.proc = s.proc) fun _ => True := by
  induction ths generalizing s with
  | nil => exact (wp_pure ..).2 ⟨h, rfl⟩
  | cons d ths ih =>
      unfold reapThreads
      simp only [wp_bind, wp_get]
      refine wp_ite (fun hd => ?_) fun _ => ih h hpid
      have hid : i ≠ d := fun he => hpid (he ▸ hd)
      unfold deleteThread
      simp only [wp_bind, wp_get]
      refine kfreeStack_wp (fun m _ _ => ?_) fun _ _ => trivial
      rw [wp_setTh]
      have hr : Reaped d s ((s.setKmem m).setTh d fun t =>
          { t with
            th_sz := 0, pid := 0, kstack := 0, state := .UNUSED, chan := .null, ptable_idx := 0
            thread_id := 0, joiner_pthread := none, retval := 0 }) := by
        refine ⟨fun q => .refl _, fun j hj => ?_, ?_, ?_, ?_, rfl, rfl⟩
        · simp only [Kernel.setTh_ne hj]
          exact .refl _
        · simp
        · simp
        · simp
      refine ih (h.reaped hr hid) ?_
      rw [(hr.th i hid).pid]
      exact hpid

/-- Out of use, a process bounds nothing. -/
theorem Turn.drop {c : Pidx} (h : Turn p i s) (hc : c ≠ p) {f : Proc → Proc}
    (hf : (f (s.proc c)).state = .UNUSED) (hpid : (f (s.proc c)).pid < s.nextpid) :
    Turn p i (s.setProc c f) := by
  -- one process in use less, and not the caller's
  have hused : ∀ q, Used (s.setProc c f) q → q ≠ c ∧ Used s q := by
    intro q hq
    unfold Used at *
    by_cases hqc : q = c
    · subst hqc
      rw [Kernel.setProc_self, hf] at hq
      exact absurd rfl hq
    · rw [Kernel.setProc_ne hqc] at hq
      exact ⟨hqc, hq⟩
  have hi := h.inv
  constructor
  · refine ⟨hi.pid_lt, fun q => ?_, fun q r hq hr => ?_, fun q hq => ?_, hi.uniq, fun q j hq => ?_,
      hi.own, fun j t hj ht => ?_⟩
    · by_cases hqc : q = c
      · subst hqc
        simpa using hpid
      · simpa [hqc] using hi.proc_lt q
    · rcases hused q hq with ⟨h1, h2⟩
      rcases hused r hr with ⟨h3, h4⟩
      rw [Kernel.setProc_ne h1, Kernel.setProc_ne h3]
      exact hi.proc_uniq q r h2 h4
    · rcases hused q hq with ⟨h1, h2⟩
      rw [Kernel.setProc_ne h1]
      exact hi.proc_ne q h2
    · rcases hused q hq with ⟨h1, h2⟩
      rw [Kernel.setProc_ne h1]
      exact hi.assigned q j h2
    · have hw := hi.waits j t hj ht
      refine ⟨hw.chan, hw.joiner, hw.pid_ne, fun q hq => ?_, hw.child⟩
      rcases hused q hq with ⟨h1, h2⟩
      rw [Kernel.setProc_ne h1]
      exact hw.assigned q h2
  -- the caller wears its thread as before
  · have hw := h.worn
    have hp : (s.setProc c f).proc p = s.proc p := Kernel.setProc_ne (Ne.symm hc) f
    refine ⟨?_, ?_, ?_, ?_, ?_, hw.inUse⟩
    · unfold Used
      rw [hp]
      exact hw.used
    · rw [hp]
      exact hw.pid
    · rw [hp]
      exact hw.thread_id
    · rw [hp]
      exact hw.joiner
    · rw [hp]
      exact hw.thread_idx

/-- The scan of `wait` keeps the turn. -/
theorem waitScan_turn (h : Turn p i s) (hrun : (s.proc p).state = .RUNNING) :
    wp (waitScan p) s (fun r s' => Turn p i s' ∧ Settled p i s' r) fun _ => True := by
  unfold waitScan
  simp only [wp_bind, wp_get]
  cases hf : findProc _ with
  | none =>
      refine wp_ite (fun _ => (wp_pure ..).2 ⟨h, trivial⟩) fun _ => sleep_turn h ?_
      intro t ht
      cases ht
  | some c =>
      have hc := findProc_some hf
      rw [decide_eq_true_iff] at hc
      have hcp : c ≠ p := by
        rintro rfl
        rw [hrun] at hc
        exact absurd hc.2 (by decide)
      -- the freed slots are those of the child
      have hpid : (s.pthread i).pid ≠ (s.proc c).pid := by
        rw [h.worn.pid]
        refine fun he => hcp (h.inv.proc_uniq p c h.worn.used ?_ he).symm
        unfold Used
        rw [hc.2]
        decide
      unfold reapProc
      simp only [wp_bind, wp_get]
      refine wp.mono (reapThreads_turn h hpid) (fun _ s1 h1 => ?_) fun _ he => he
      cases (s.proc c).pgdir with
      | none => exact wp_halt.2 trivial
      | some pd =>
          simp only [wp_bind, wp_onKmem]
          refine wp_any fun _ m => ?_
          simp only [wp_setProc, wp_pure]
          have h2 : Turn p i (s1.setKmem m) :=
            h1.1.same (.of_proc p (fun _ _ => rfl) (.refl _) rfl rfl rfl)
          refine ⟨h2.drop hcp rfl ?_, trivial⟩
          exact h2.inv.nextpid_pos

/-! ## fork -/

/-- Process slot `np` and thread slot `n` have been taken for a new process id,
or taken and lost. -/
structure Forked (np : Pidx) (n : Tidx) (s s' : Kernel) : Prop where
  free : (s.proc np).state = .UNUSED
  free_th : (s.pthread n).state = .UNUSED
  proc : ∀ q, q ≠ np → PSame (s.proc q) (s'.proc q)
  pid : (s'.proc np).pid = s.nextpid
  th : ∀ j, j ≠ n → TSame (s.pthread j) (s'.pthread j) ∧ s'.cont j = s.cont j
  new_pid : (s'.pthread n).pid = s.nextpid
  new_id : Used s' np → (s'.pthread n).thread_id ≤ (s'.proc np).thread_assign
  new_state : (s'.pthread n).state ≠ .SLEEPING
  new_own : (s'.pthread n).joiner_pthread = some n →
    (s'.pthread n).thread_id = MAINTH ∧ (s'.pthread n).state ≠ .UNUSED
  nextpid : s'.nextpid = s.nextpid + 1

namespace Forked

variable {np : Pidx} {n : Tidx}

/-- No process but the new one has the new id. -/
theorem proc_pid_ne (h : Forked np n s s') (hi : Inv s) {q : Pidx} (hq : q ≠ np) :
    (s'.proc q).pid ≠ s.nextpid := by
  rw [(h.proc q hq).pid]
  have := hi.proc_lt q
  omega

/-- A new process keeps the invariant. -/
theorem inv (h : Forked np n s s') (hi : Inv s) : Inv s' := by
  -- the new pid was nobody's
  have hlt : ∀ j, j ≠ n → (s'.pthread j).pid ≠ s.nextpid := by
    intro j hj
    rw [(h.th j hj).1.pid]
    have := hi.pid_lt j
    omega
  have hused : ∀ q, q ≠ np → Used s' q → Used s q := fun q hq => (h.proc q hq).used.1
  constructor
  · intro j
    rw [h.nextpid]
    by_cases hj : j = n
    · rw [hj, h.new_pid]
      exact Nat.lt_succ_self _
    · rw [(h.th j hj).1.pid]
      exact Nat.lt_succ_of_lt (hi.pid_lt j)
  · intro q
    rw [h.nextpid]
    by_cases hq : q = np
    · rw [hq, h.pid]
      exact Nat.lt_succ_self _
    · rw [(h.proc q hq).pid]
      exact Nat.lt_succ_of_lt (hi.proc_lt q)
  -- old and new processes do not share a pid
  · intro q r hq hr hpid
    by_cases h1 : q = np <;> by_cases h2 : r = np
    · rw [h1, h2]
    · rw [h1, h.pid] at hpid
      exact absurd hpid.symm (h.proc_pid_ne hi h2)
    · rw [h2, h.pid] at hpid
      exact absurd hpid (h.proc_pid_ne hi h1)
    · rw [(h.proc q h1).pid, (h.proc r h2).pid] at hpid
      exact hi.proc_uniq q r (hused q h1 hq) (hused r h2 hr) hpid
  · intro q hq
    by_cases h1 : q = np
    · rw [h1, h.pid]
      exact Nat.ne_of_gt hi.nextpid_pos
    · rw [(h.proc q h1).pid]
      exact hi.proc_ne q (hused q h1 hq)
  -- nor do threads of one process share an id
  · intro j k hpid h0 hid
    by_cases hj : j = n <;> by_cases hk : k = n
    · rw [hj, hk]
    · rw [hj, h.new_pid] at hpid
      exact absurd hpid.symm (hlt k hk)
    · rw [hk, h.new_pid] at hpid
      exact absurd hpid (hlt j hj)
    · rw [(h.th j hj).1.pid] at hpid h0
      rw [(h.th k hk).1.pid] at hpid
      rw [(h.th j hj).1.thread_id, (h.th k hk).1.thread_id] at hid
      exact hi.uniq j k hpid h0 hid
  · intro q j hq hpid
    by_cases h1 : q = np <;> by_cases hj : j = n
    · subst h1 hj
      exact h.new_id hq
    · rw [h1, h.pid] at hpid
      exact absurd hpid (hlt j hj)
    · rw [hj, h.new_pid] at hpid
      exact absurd hpid.symm (h.proc_pid_ne hi h1)
    · rw [(h.th j hj).1.pid, (h.proc q h1).pid] at hpid
      rw [(h.th j hj).1.thread_id, (h.proc q h1).thread_assign]
      exact hi.assigned q j (hused q h1 hq) hpid
  · intro j ho
    by_cases hj : j = n
    · subst hj
      exact h.new_own ho
    · rw [(h.th j hj).1.joiner] at ho
      rw [(h.th j hj).1.thread_id, (h.th j hj).1.state]
      exact hi.own j ho
  -- who slept before sleeps on; the new thread does not sleep in a join
  · intro j t hs ht
    have hj : j ≠ n := by
      rintro rfl
      exact h.new_state hs
    rcases h.th j hj with ⟨hsame, hc⟩
    rw [hsame.state] at hs
    rw [hc] at ht
    have hw := hi.waits j t hs ht
    constructor
    · rw [hsame.chan, hw.chan]
    · rw [hsame.joiner, hw.joiner]
    · rw [hsame.pid]
      exact hw.pid_ne
    · intro q hq hpid
      have h1 : q ≠ np := by
        rintro rfl
        rw [h.pid] at hpid
        exact hlt j hj hpid.symm
      rw [(h.proc q h1).pid, hsame.pid] at hpid
      rw [(h.proc q h1).thread_assign]
      exact hw.assigned q (hused q h1 hq) hpid
    · intro k hpid hid hu
      have hk : k ≠ n := by
        rintro rfl
        rw [h.new_pid] at hpid
        exact hlt j hj hpid.symm
      rcases h.th k hk with ⟨hk, -⟩
      rw [hk.pid, hsame.pid] at hpid
      rw [hk.thread_id] at hid
      rw [hk.state] at hu ⊢
      rw [hk.joiner]
      exact hw.child k hpid hid hu

/-- Also during the turn of its parent. -/
theorem turn (h : Forked np n s s') (ht : Turn p i s) : Turn p i s' where
  inv := h.inv ht.inv
  worn := by
    have hw := ht.worn
    have hin : i ≠ n := fun he => hw.inUse (he ▸ h.free_th)
    have hpn : p ≠ np := fun he => hw.used (he ▸ h.free)
    rcases h.th i hin with ⟨hsame, -⟩
    have hp := h.proc p hpn
    refine ⟨hp.used.2 hw.used, ?_, ?_, ?_, ?_, ?_⟩
    · rw [hsame.pid, hp.pid, hw.pid]
    · rw [hsame.thread_id, hp.thread_id, hw.thread_id]
    · rw [hsame.joiner, hp.joiner, hw.joiner]
    · rw [hp.thread_idx, hw.thread_idx]
    · rw [hsame.state]
      exact hw.inUse

end Forked

/-- The loop of `fork` that copies the threads of `p` to `np`, with `ths` to go. -/
structure Copying (p np : Pidx) (i : Tidx) (ths : List Tidx) (s : Kernel) : Prop where
  turn : Turn p i s
  used : Used s np
  pid_ne : (s.proc np).pid ≠ (s.proc p).pid
  assign : (s.proc np).thread_assign = (s.proc p).thread_assign
  main : (s.pthread (s.proc np).main_thread_idx).state ≠ .UNUSED
  fresh : ∀ j, (s.pthread j).pid = (s.proc np).pid → ∀ th ∈ ths,
    (s.pthread th).pid = (s.proc p).pid → (s.pthread th).thread_id ≠ MAINTH →
      (s.pthread j).thread_id ≠ (s.pthread th).thread_id
  awake : ∀ j t, (s.pthread j).pid = (s.proc np).pid → (s.pthread j).state = .SLEEPING →
    s.cont j ≠ .join t

/-- One turn of the loop: slot `n` holds a copy of thread `th` for process `np`. -/
structure Copied (np : Pidx) (n th : Tidx) (s s' : Kernel) : Prop where
  free : (s.pthread n).state = .UNUSED
  proc : ∀ q, PSame (s.proc q) (s'.proc q)
  main : (s'.proc np).main_thread_idx = (s.proc np).main_thread_idx
  rest : ∀ j, j ≠ n → TSame (s.pthread j) (s'.pthread j) ∧ s'.cont j = s.cont j
  new_pid : (s'.pthread n).pid = (s.proc np).pid
  new_id : (s'.pthread n).thread_id = (s.pthread th).thread_id
  new_state : (s'.pthread n).state = .SLEEPING →
    (s.pthread th).state = .SLEEPING ∧ s'.cont n = s.cont th
  new_joiner : (s'.pthread n).joiner_pthread = some (s.proc np).main_thread_idx
  nextpid : s'.nextpid = s.nextpid

namespace Copied

variable {np : Pidx} {n th : Tidx} {ths : List Tidx}

theorem used (h : Copied np n th s s') (q : Pidx) : Used s' q ↔ Used s q := (h.proc q).used

/-- A copy does not sleep in `thread_join`, since only main threads do. -/
theorem new_awake (h : Copied np n th s s') (hi : Inv s) (hth : (s.pthread th).thread_id ≠ MAINTH)
    {t : Nat} (hs : (s'.pthread n).state = .SLEEPING) : s'.cont n ≠ .join t := by
  intro ht
  rcases h.new_state hs with ⟨h1, h2⟩
  rw [h2] at ht
  exact hth (hi.own th (hi.waits th t h1 ht).joiner).1

/-- A copied thread keeps the invariant: it waits for nobody. -/
theorem inv (h : Copied np n th s s') (hc : Copying p np i (th :: ths) s)
    (hpid : (s.pthread th).pid = (s.proc p).pid) (hid : (s.pthread th).thread_id ≠ MAINTH) :
    Inv s' := by
  have hi := hc.turn.inv
  -- no thread of the child has the id of the copy yet
  have hfresh : ∀ j, (s.pthread j).pid = (s.proc np).pid →
      (s.pthread j).thread_id ≠ (s.pthread th).thread_id := fun j hj =>
    hc.fresh j hj th (by simp) hpid hid
  constructor
  · intro j
    rw [h.nextpid]
    by_cases hj : j = n
    · rw [hj, h.new_pid]
      exact hi.proc_lt np
    · rw [(h.rest j hj).1.pid]
      exact hi.pid_lt j
  · intro q
    rw [h.nextpid, (h.proc q).pid]
    exact hi.proc_lt q
  · intro q r hq hr
    rw [(h.proc q).pid, (h.proc r).pid]
    exact hi.proc_uniq q r ((h.used q).1 hq) ((h.used r).1 hr)
  · intro q hq
    rw [(h.proc q).pid]
    exact hi.proc_ne q ((h.used q).1 hq)
  -- ids within one process: the copy and the threads that were there
  · intro j k hp h0 ht
    by_cases hj : j = n <;> by_cases hk : k = n
    · rw [hj, hk]
    · subst hj
      rw [h.new_pid, (h.rest k hk).1.pid] at hp
      rw [h.new_id, (h.rest k hk).1.thread_id] at ht
      exact absurd ht.symm (hfresh k hp.symm)
    · subst hk
      rw [h.new_pid, (h.rest j hj).1.pid] at hp
      rw [h.new_id, (h.rest j hj).1.thread_id] at ht
      exact absurd ht (hfresh j hp)
    · rw [(h.rest j hj).1.pid] at hp h0
      rw [(h.rest k hk).1.pid] at hp
      rw [(h.rest j hj).1.thread_id, (h.rest k hk).1.thread_id] at ht
      exact hi.uniq j k hp h0 ht
  · intro q j hq hp
    have hq := (h.used q).1 hq
    rw [(h.proc q).pid] at hp
    rw [(h.proc q).thread_assign]
    by_cases hj : j = n
    · subst hj
      rw [h.new_pid] at hp
      cases hi.proc_uniq np q hc.used hq hp
      rw [h.new_id, hc.assign]
      exact hi.assigned p th hc.turn.worn.used hpid
    · rw [(h.rest j hj).1.pid] at hp
      rw [(h.rest j hj).1.thread_id]
      exact hi.assigned q j hq hp
  · intro j ho
    by_cases hj : j = n
    · subst hj
      rw [h.new_joiner] at ho
      cases ho
      exact absurd h.free hc.main
    · rw [(h.rest j hj).1.joiner] at ho
      rw [(h.rest j hj).1.thread_id, (h.rest j hj).1.state]
      exact hi.own j ho
  -- the copy waits for nobody, and nobody waits for it
  · intro j t hs ht
    have hj : j ≠ n := by
      rintro rfl
      exact h.new_awake hi hid hs ht
    rcases h.rest j hj with ⟨hsame, hcj⟩
    rw [hsame.state] at hs
    rw [hcj] at ht
    have hw := hi.waits j t hs ht
    constructor
    · rw [hsame.chan, hw.chan]
    · rw [hsame.joiner, hw.joiner]
    · rw [hsame.pid]
      exact hw.pid_ne
    · intro q hq
      rw [(h.proc q).pid, hsame.pid, (h.proc q).thread_assign]
      exact hw.assigned q ((h.used q).1 hq)
    · intro k hp hk hu
      rw [hsame.pid] at hp
      by_cases hkn : k = n
      · subst hkn
        rw [h.new_pid] at hp
        exact absurd ht (hc.awake j t hp.symm hs)
      · rcases h.rest k hkn with ⟨hks, -⟩
        rw [hks.pid] at hp
        rw [hks.thread_id] at hk
        rw [hks.state] at hu ⊢
        rw [hks.joiner]
        exact hw.child k hp hk hu

/-- One thread more is copied. -/
theorem copying (h : Copied np n th s s') (hc : Copying p np i (th :: ths) s)
    (hpid : (s.pthread th).pid = (s.proc p).pid) (hid : (s.pthread th).thread_id ≠ MAINTH)
    (hnd : th ∉ ths) : Copying p np i ths s' := by
  have hi := hc.turn.inv
  have hw := hc.turn.worn
  have hin : i ≠ n := fun he => hw.inUse (he ▸ h.free)
  rcases h.rest i hin with ⟨hsame, -⟩
  have hp := h.proc p
  refine ⟨⟨h.inv hc hpid hid, hp.used.2 hw.used, ?_, ?_, ?_, ?_, ?_⟩, (h.used np).2 hc.used, ?_, ?_,
    ?_, ?_, ?_⟩
  · rw [hsame.pid, hp.pid, hw.pid]
  · rw [hsame.thread_id, hp.thread_id, hw.thread_id]
  · rw [hsame.joiner, hp.joiner, hw.joiner]
  · rw [hp.thread_idx, hw.thread_idx]
  · rw [hsame.state]
    exact hw.inUse
  · rw [(h.proc np).pid, hp.pid]
    exact hc.pid_ne
  · rw [(h.proc np).thread_assign, hp.thread_assign, hc.assign]
  · have hmn : (s.proc np).main_thread_idx ≠ n := fun he => hc.main (he ▸ h.free)
    rw [h.main, (h.rest _ hmn).1.state]
    exact hc.main
  -- the threads that are still to copy have ids that the child has not
  · intro j hj th' hth' hpid' hid'
    have hth'n : th' ≠ n := by
      rintro rfl
      rw [h.new_pid, hp.pid] at hpid'
      exact hc.pid_ne hpid'
    rcases h.rest th' hth'n with ⟨hs', -⟩
    rw [hs'.pid, hp.pid] at hpid'
    rw [hs'.thread_id] at hid' ⊢
    by_cases hjn : j = n
    · subst hjn
      rw [h.new_id]
      intro he
      have := hi.uniq th th' (by rw [hpid, hpid']) ?_ he
      · exact hnd (this ▸ hth')
      · rw [hpid]
        exact hi.proc_ne p hw.used
    · rw [(h.rest j hjn).1.pid, (h.proc np).pid] at hj
      rw [(h.rest j hjn).1.thread_id]
      exact hc.fresh j hj th' (by simp [hth']) hpid' hid'
  · intro j t hj hs
    by_cases hjn : j = n
    · subst hjn
      exact h.new_awake hi hid hs
    · rw [(h.rest j hjn).1.pid, (h.proc np).pid] at hj
      rw [(h.rest j hjn).1.state] at hs
      rw [(h.rest j hjn).2]
      exact hc.awake j t hj hs

end Copied

/-- Copying one thread. -/
theorem forkThread_copying {np : Pidx} {th : Tidx} {ths : List Tidx}
    (h : Copying p np i (th :: ths) s) (hnd : th ∉ ths) :
    wp (forkThread p np th) s (fun ok s' => Turn p i s' ∧ (ok = true → Copying p np i ths s'))
      fun _ => True := by
  have htail : ∀ s1 : Kernel, Copying p np i (th :: ths) s1 → Copying p np i ths s1 := fun s1 h1 =>
    ⟨h1.turn, h1.used, h1.pid_ne, h1.assign, h1.main,
      fun j hj th' hth' => h1.fresh j hj th' (by simp [hth']), h1.awake⟩
  have hkilled : ∀ s1, Turn p i s1 →
      Turn p i (s1.setProc np fun x => { x with killed := true }) := by
    intro s1 h1
    refine h1.same (.of_proc np (fun q hq => by simp [hq]) ?_ rfl rfl rfl)
    constructor <;> simp
  unfold forkThread
  simp only [wp_bind, wp_get]
  refine wp_ite (fun _ => (wp_pure ..).2 ⟨h.turn, fun _ => htail s h⟩) fun hc => ?_
  rw [not_or, not_not] at hc
  rw [wp_bind]
  -- no slot or page: the child is killed, and nothing else has changed
  refine allocthread_wp (fun _ => ?_) (fun d _ _ => ?_) fun n k m hn _ _ => ?_
  · simp only [wp_bind, wp_setProc, wp_pure]
    exact ⟨hkilled s h.turn, by simp⟩
  · simp only [wp_bind, wp_setProc, wp_pure]
    exact ⟨hkilled _ (h.turn.same allocthread_none_same), by simp⟩
  · simp only [wp_bind, wp_get, wp_setTh, wp_setCont, wp_pure]
    generalize hs1 : Kernel.setCont _ n _ = s1
    -- the copy takes over its sibling's id, its continuation and whom it waits for
    have hcopied : Copied np n th s s1 := by
      subst hs1
      refine ⟨hn, fun q => .refl _, rfl, fun j hj => ⟨?_, by simp [hj]⟩, by simp, ?_, ?_, by simp,
        rfl⟩
      · simp only [Kernel.setCont_pthread, Kernel.setTh_ne hj, Kernel.setKmem_pthread]
        exact .refl _
      · by_cases ht : th = n
        · subst ht
          simp [freshTh]
        · simp [ht]
      · by_cases ht : th = n
        · subst ht
          simp [freshTh]
        · simp [ht]
    have hcop := hcopied.copying h hc.1 hc.2 hnd
    exact ⟨hcop.turn, fun _ => hcop⟩

/-- Copying the threads keeps the turn. By induction on the table. -/
theorem forkThreads_turn {np : Pidx} {ths : List Tidx} (h : Copying p np i ths s)
    (hnd : ths.Nodup) :
    wp (forkThreads p np ths) s (fun _ s' => Turn p i s') fun _ => True := by
  induction ths generalizing s with
  | nil => exact (wp_pure ..).2 h.turn
  | cons th ths ih =>
      rw [List.nodup_cons] at hnd
      unfold forkThreads
      rw [wp_bind]
      refine wp.mono (forkThread_copying h hnd.1) (fun ok s1 h1 => ?_) fun _ he => he
      refine wp_ite (fun _ => (wp_pure ..).2 h1.1) fun hok => ?_
      exact ih (h1.2 (by simpa using hok)) hnd.2

/-- `fork` keeps the turn. -/
theorem fork_turn (h : Turn p i s) :
    wp (fork p) s (fun _ s' => Turn p i s') fun _ => True := by
  unfold fork
  simp only [wp_bind]
  refine allocproc_wp (fun _ => (wp_pure ..).2 h)
    (fun d _ _ => ?_) fun np th k m _ hnp hth _ _ => ?_
  · exact (wp_pure ..).2 (h.same allocthread_none_same)
  have hpn : p ≠ np := fun he => h.worn.used (he ▸ hnp)
  have hin : i ≠ th := fun he => h.worn.inUse (he ▸ hth)
  have hle : (s.proc p).thread_id ≤ (s.proc p).thread_assign := by
    rw [← h.worn.thread_id]
    exact h.inv.assigned p i h.worn.used h.worn.pid
  simp only [wp_bind, wp_get]
  refine getPgdir_wp (fun pd _ => ?_) fun _ => trivial
  rw [wp_onKmem]
  refine wp_any fun d m1 => ?_
  cases d with
  | none =>
      simp only [wp_bind, wp_onKmem]
      -- no memory for the copy of the address space: the slot keeps its pid, and is free
      refine wp_any fun _ m2 => ?_
      simp only [wp_setProc, wp_pure]
      refine (show Forked np th s _ from ?_).turn h
      refine ⟨hnp, hth, fun q hq => ?_, ?_, fun j hj => ⟨?_, rfl⟩, ?_, ?_, ?_, ?_, rfl⟩
      · simp [Kernel.newProc, hq]
      · simp [Kernel.newProc, freshProc]
      · simp [Kernel.newProc, hj]
      · simp [Kernel.newProc]
      · simp [Used]
      · simp [Kernel.newProc, freshTh]
      · intro ho
        have := h.inv.own th (by simpa [Kernel.newProc, freshTh] using ho)
        exact absurd hth this.2
  | some d =>
      have hidx : ((s.newProc np th k m).proc np).thread_idx = th := by
        simp [Kernel.newProc, freshProc]
      have hpp : (s.newProc np th k m).proc p = s.proc p := by simp [Kernel.newProc, hpn]
      simp only [wp_bind, wp_setProc, wp_setCont, hidx, hpp]
      refine wp_ite (fun hmain => ?_) fun hmain => ?_
      -- a thread that is not the main thread is alone in its copy
      · simp only [wp_bind, wp_setProc, mvProcToThread_wp, clearProc_wp, wp_pure]
        refine (show Forked np th s _ from ?_).turn h
        refine ⟨hnp, hth, fun q hq => ?_, ?_, fun j hj => ⟨?_, ?_⟩, ?_, fun _ => ?_, ?_, ?_, rfl⟩
        · simp [Kernel.newProc, hq]
        · simp [Kernel.newProc, freshProc, cleared]
        · simp [Kernel.newProc, hj]
        · simp [Kernel.newProc, hj]
        · simp [Kernel.newProc, undress, freshProc]
        · simp [undress, cleared, MAINTH]
        · simp [undress]
        · simp [undress, h.worn.thread_idx, hin]
      · rw [not_not] at hmain
        simp only [wp_bind, mvProcToThread_wp]
        generalize hs2 : Kernel.setTh _ th _ = s2
        have hproc : s2.proc np = { freshProc s.nextpid k th (s.proc np) with
            pgdir := some d, parent_proc := some p, parent_pthread := some (s.proc p).thread_idx
            sz := (s.proc p).sz, memlimit := (s.proc p).memlimit
            thread_assign := (s.proc p).thread_assign, stacksz := (s.proc p).stacksz
            th_sz := (s.proc p).th_sz, state := .RUNNABLE, chan := (s.proc p).chan
            killed := (s.proc p).killed, thread_id := (s.proc p).thread_id
            freed_sz := (s.proc p).freed_sz } := by
          subst hs2
          simp [Kernel.newProc, freshProc]
        have hother : ∀ q, q ≠ np → s2.proc q = s.proc q := by
          intro q hq
          subst hs2
          simp [Kernel.newProc, hq]
        have hnew : s2.pthread th = undress np (s2.proc np) (s2.pthread th) := by
          subst hs2
          simp [Kernel.newProc, undress]
        have hrest : ∀ j, j ≠ th → s2.pthread j = s.pthread j ∧ s2.cont j = s.cont j := by
          intro j hj
          subst hs2
          simp [Kernel.newProc, hj]
        have hforked : Forked np th s s2 := by
          refine ⟨hnp, hth, fun q hq => ?_, ?_, fun j hj => ⟨?_, (hrest j hj).2⟩, ?_, fun _ => ?_,
            ?_, fun _ => ?_, ?_⟩
          · rw [hother q hq]
          · rw [hproc]
            rfl
          · rw [(hrest j hj).1]
          · rw [hnew, hproc]
            rfl
          · rw [hnew, hproc]
            exact hle
          · rw [hnew, hproc]
            simp [undress]
          · rw [hnew, hproc]
            simpa [undress] using hmain
          · subst hs2
            rfl
        -- the siblings are copied, by the ids of the parent
        have hcopying : Copying p np i (List.finRange NTHRD) s2 := by
          have honly : ∀ j, (s2.pthread j).pid = (s2.proc np).pid → j = th := by
            intro j hj
            by_contra hne
            rw [(hrest j hne).1, hforked.pid] at hj
            have := h.inv.pid_lt j
            omega
          refine ⟨hforked.turn h, ?_, ?_, ?_, ?_, fun j hj th' _ _ hid => ?_, fun j t hj hs => ?_⟩
          · simp [Used, hproc]
          · exact (hforked.proc_pid_ne h.inv hpn).symm ∘ fun he => by rw [← he, hforked.pid]
          · rw [hproc, hother p hpn]
          · have hm : (s2.proc np).main_thread_idx = th := by rw [hproc]; rfl
            rw [hm, hnew, hproc]
            simp [undress]
          · rw [honly j hj, hnew, hproc]
            simpa [undress, hmain] using hid.symm
          · rw [honly j hj, hnew, hproc] at hs
            cases hs
        refine wp.mono (forkThreads_turn hcopying (List.nodup_finRange _)) (fun ok s3 h3 => ?_)
          fun _ he => he
        exact wp_ite (fun _ => (wp_pure ..).2 h3) fun _ => (wp_pure ..).2 h3

/-! ## exec -/

/-- The slot of the running thread as it will be once control is back at the
scheduler. -/
def wear (s : Kernel) (p : Pidx) (i : Tidx) : Kernel :=
  s.setTh i fun t =>
    { t with thread_id := (s.proc p).thread_id, joiner_pthread := (s.proc p).joiner_pthread }

theorem Worn.wear (h : Worn p i s) : wear s p i = s := by
  unfold Join.wear Kernel.setTh
  rw [← h.thread_id, ← h.joiner, Function.update_eq_self]

/-- Threads of process `p` other than `i` are all in `ths`. -/
def Siblings (p : Pidx) (i : Tidx) (ths : List Tidx) (s : Kernel) : Prop :=
  ∀ j, (s.pthread j).pid = (s.proc p).pid → j = i ∨ j ∈ ths

/-- Deleting one sibling keeps the turn of the thread that calls `exec`. -/
theorem deleteOther_turn {d : Tidx} {ths : List Tidx} (h : Turn p i s)
    (hsib : Siblings p i (d :: ths) s) :
    wp (deleteOther p d) s (fun _ s' => Turn p i s' ∧ Siblings p i ths s' ∧
      (s'.pthread i).state = (s.pthread i).state) fun _ => True := by
  unfold deleteOther
  simp only [wp_bind, wp_get]
  refine wp_ite (fun hd => ?_) fun hd => (wp_pure ..).2 ⟨h, fun j hj => ?_, rfl⟩
  -- the caller spares its own slot, which the test recognises by its id
  · have hid : i ≠ d := by
      rintro rfl
      exact hd.2 h.worn.thread_id
    unfold deleteThread
    simp only [wp_bind, wp_modify, wp_get]
    refine kfreeStack_wp (fun m _ _ => ?_) fun _ _ => trivial
    rw [wp_setTh]
    generalize hs' : Kernel.setTh _ d _ = s'
    have hr : Reaped d s s' := by
      subst hs'
      refine ⟨fun q => ?_, fun j hj => by simp [hj], by simp, by simp, by simp, rfl, rfl⟩
      simp only [Kernel.setTh_proc, Kernel.setKmem_proc]
      unfold reparent
      split <;> exact ⟨rfl, Iff.rfl, rfl, rfl, rfl, rfl⟩
    refine ⟨h.reaped hr hid, fun j hj => ?_, (hr.th i hid).state⟩
    rw [(hr.proc p).pid] at hj
    have hjd : j ≠ d := by
      rintro rfl
      rw [hr.pid] at hj
      exact h.inv.proc_ne p h.worn.used hj.symm
    rw [(hr.th j hjd).pid] at hj
    rcases hsib j hj with hj | hj
    · exact .inl hj
    · exact .inr ((List.mem_cons.1 hj).resolve_left hjd)
  -- the slot is passed over: it is no sibling
  · rcases hsib j hj with hji | hjm
    · exact .inl hji
    rcases List.mem_cons.1 hjm with rfl | hjm
    · -- the scan has passed over the caller itself
      left
      rw [not_and, not_not] at hd
      refine h.inv.uniq j i (by rw [hj, h.worn.pid]) ?_ (by rw [hd hj, h.worn.thread_id])
      rw [hj]
      exact h.inv.proc_ne p h.worn.used
    · exact .inr hjm

/-- Deleting the siblings keeps it. By induction on the table. -/
theorem deleteOthers_turn {ths : List Tidx} (h : Turn p i s) (hsib : Siblings p i ths s) :
    wp (deleteOthers p ths) s (fun _ s' => Turn p i s' ∧ Siblings p i [] s' ∧
      (s'.pthread i).state = (s.pthread i).state) fun _ => True := by
  induction ths generalizing s with
  | nil => exact (wp_pure ..).2 ⟨h, hsib, rfl⟩
  | cons d ths ih =>
      unfold deleteOthers
      rw [wp_bind]
      refine wp.mono (deleteOther_turn h hsib) (fun _ s1 h1 => ?_) fun _ he => he
      refine wp.mono (ih h1.1 h1.2.1) (fun _ s2 h2 => ?_) fun _ he => he
      exact ⟨h2.1, h2.2.1, h2.2.2.trans h1.2.2⟩

/-- The only thread of its process becomes a main thread. -/
structure Alone (p : Pidx) (i : Tidx) (s s' : Kernel) : Prop where
  proc : ∀ q, q ≠ p → PSame (s.proc q) (s'.proc q)
  pid : (s'.proc p).pid = (s.proc p).pid
  used : Used s' p
  assign : MAINTH ≤ (s'.proc p).thread_assign
  thread_id : (s'.proc p).thread_id = MAINTH
  joiner : (s'.proc p).joiner_pthread = some i
  thread_idx : (s'.proc p).thread_idx = i
  th : s'.pthread = s.pthread
  cont : s'.cont = s.cont
  nextpid : s'.nextpid = s.nextpid

/-- The thread that is left becomes the main thread. -/
theorem Alone.turn (h : Alone p i s s') (ht : Turn p i s) (hsib : Siblings p i [] s)
    (hs : (s.pthread i).state ≠ .SLEEPING) : Turn p i (wear s' p i) := by
  have hi := ht.inv
  have hw := ht.worn
  -- the siblings are gone, so every thread of the process is the caller
  have honly : ∀ j, (s.pthread j).pid = (s.proc p).pid → j = i := fun j hj => by
    simpa using hsib j hj
  have hth : ∀ j, j ≠ i → (wear s' p i).pthread j = s.pthread j := fun j hj => by
    simp [wear, hj, h.th]
  have hpid : ∀ j, ((wear s' p i).pthread j).pid = (s.pthread j).pid := fun j => by
    by_cases hj : j = i
    · subst hj
      simp [wear, h.th]
    · rw [hth j hj]
  have hst : ∀ j, ((wear s' p i).pthread j).state = (s.pthread j).state := fun j => by
    by_cases hj : j = i
    · subst hj
      simp [wear, h.th]
    · rw [hth j hj]
  have hid : ((wear s' p i).pthread i).thread_id = MAINTH := by simp [wear, h.thread_id]
  have hppid : ∀ q, ((wear s' p i).proc q).pid = (s.proc q).pid := fun q => by
    by_cases hq : q = p
    · rw [hq]
      exact h.pid
    · exact (h.proc q hq).pid
  have hused : ∀ q, Used (wear s' p i) q → Used s q := fun q hu => by
    by_cases hq : q = p
    · rw [hq]
      exact hw.used
    · exact (h.proc q hq).used.1 hu
  refine ⟨⟨fun j => ?_, fun q => ?_, fun q r hq hr => ?_, fun q hq => ?_, fun j k hjk h0 ht => ?_,
    fun q j hq hj => ?_, fun j ho => ?_, fun j t hj hc => ?_⟩, h.used, ?_, ?_, ?_, h.thread_idx, ?_⟩
  · rw [hpid]
    exact lt_of_lt_of_eq (hi.pid_lt j) h.nextpid.symm
  · rw [hppid]
    exact lt_of_lt_of_eq (hi.proc_lt q) h.nextpid.symm
  · rw [hppid, hppid]
    exact hi.proc_uniq q r (hused q hq) (hused r hr)
  · rw [hppid]
    exact hi.proc_ne q (hused q hq)
  · rw [hpid] at hjk h0
    rw [hpid] at hjk
    by_cases hji : j = i <;> by_cases hki : k = i
    · rw [hji, hki]
    · rw [hji, hw.pid] at hjk
      exact absurd (honly k hjk.symm) hki
    · rw [hki, hw.pid] at hjk
      exact absurd (honly j hjk) hji
    · rw [hth j hji, hth k hki] at ht
      exact hi.uniq j k hjk h0 ht
  · rw [hpid, hppid] at hj
    by_cases hq' : q = p
    · subst hq'
      rw [honly j hj, hid]
      exact h.assign
    · have hji : j ≠ i := by
        rintro rfl
        rw [hw.pid] at hj
        exact hq' (hi.proc_uniq _ _ hw.used (hused q hq) hj).symm
      rw [hth j hji]
      exact (hi.assigned q j (hused q hq) hj).trans_eq (h.proc q hq').thread_assign.symm
  · by_cases hji : j = i
    · subst hji
      rw [hst]
      exact ⟨hid, hw.inUse⟩
    · rw [hth j hji] at ho ⊢
      exact hi.own j ho
  -- a sleeper elsewhere waits for a thread of its own process, which is not touched
  · have hji : j ≠ i := by
      rintro rfl
      rw [hst] at hj
      exact hs hj
    rw [hth j hji] at hj
    have hcj : s.cont j = .join t := by rwa [← h.cont]
    have hwt := hi.waits j t hj hcj
    have hjp : (s.pthread j).pid ≠ (s.proc p).pid := fun he => hji (honly j he)
    refine ⟨?_, ?_, ?_, fun q hq hqp => ?_, fun k hkp hkt hku => ?_⟩
    · rw [hth j hji, hwt.chan]
    · rw [hth j hji, hwt.joiner]
    · rw [hpid]
      exact hwt.pid_ne
    · rw [hpid, hppid] at hqp
      have hq' : q ≠ p := by
        rintro rfl
        exact hjp hqp.symm
      exact (hwt.assigned q (hused q hq) hqp).trans_eq (h.proc q hq').thread_assign.symm
    · rw [hpid, hpid] at hkp
      have hki : k ≠ i := by
        rintro rfl
        rw [hw.pid] at hkp
        exact hjp hkp.symm
      rw [hth k hki] at hkt hku ⊢
      exact hwt.child k hkp hkt hku
  · rw [hpid, hppid, hw.pid]
  · simp [wear]
  · simp [wear]
  · rw [hst]
    exact hw.inUse

/-- `exec` keeps the turn. -/
theorem execWith_turn {elf : Option Elf} {argv : List Nat} {n : Nat} (h : Turn p i s)
    (hs : (s.pthread i).state ≠ .SLEEPING) :
    wp (execWith p elf argv n) s (fun _ s' => Turn p i (wear s' p i)) fun _ => True := by
  unfold execWith
  simp only [wp_bind, wp_onKmem]
  refine wp_any fun r m => ?_
  have hm : Turn p i (s.setKmem m) := h.same (.of_proc p (fun _ _ => rfl) (.refl _) rfl rfl rfl)
  cases r with
  | none =>
      rw [wp_pure, hm.worn.wear]
      exact hm
  | some img =>
      rcases img with ⟨pd, sz⟩
      unfold deleteThreads
      simp only [wp_bind, wp_setProc]
      -- the siblings are deleted, the image is installed, and the caller is the main thread
      refine wp.mono (deleteOthers_turn hm fun j _ => .inr (List.mem_finRange j))
        (fun _ s1 h1 => ?_) fun _ he => he
      refine getPgdir_wp (fun old _ => ?_) fun _ => trivial
      refine switchuvm_wp ?_ trivial trivial
      simp only [wp_onKmem, wp_pure]
      refine wp_any fun _ m2 => ?_
      refine Alone.turn (s := s1) ?_ h1.1 h1.2.1 ?_
      · have hw := h1.1.worn
        have hu := hw.used
        refine ⟨fun q hq => by simp [hq], ?_, ?_, ?_, ?_, ?_, ?_, rfl, rfl, rfl⟩
        · simp
        · simpa [Used] using hu
        · simp [MAINTH]
        · simp
        · simp [hw.thread_idx]
        · simp [hw.thread_idx]
      · rw [h1.2.2]
        exact hs

/-! ## Going back to the scheduler -/

theorem wear_undressed {k : Cont} : (wear s p i).undressed p i k = s.undressed p i k := by
  simp [wear, Kernel.undressed, Kernel.setTh, Kernel.setCont, Kernel.setProc, undress]

theorem wear_parked {ctx : Context} (r : Outcome) :
    wear (r.parked s p ctx) p i = r.parked (wear s p i) p ctx := by
  cases r <;> simp [wear, Outcome.parked, Kernel.setTh, Kernel.setProc]

/-- Parking the thread. -/
theorem Turn.parked {ctx : Context} (h : Turn p i s) (r : Outcome) :
    Turn p i (r.parked s p ctx) := by
  have hu := h.worn.used
  cases r with
  | switch k =>
      refine h.same (.of_proc p (fun q hq => by simp [Outcome.parked, hq]) ?_ rfl rfl rfl)
      constructor <;> simp [Outcome.parked]
  | ret v =>
      refine h.same (.of_proc p (fun q hq => by simp [Outcome.parked, hq]) ?_ rfl rfl rfl)
      constructor <;> simp [Outcome.parked]
      exact hu

/-- `Settled`, once the process state is that of the outcome. -/
theorem undressed_inv {k : Cont} (h : Turn p i s) (hs : Settled p i s (.switch k)) :
    Inv (s.undressed p i k) := by
  have hi := h.inv
  have hw := h.worn
  -- the caller's slot takes over what the process has worn
  have hth : ∀ j, j ≠ i → (s.undressed p i k).pthread j = s.pthread j ∧
      (s.undressed p i k).cont j = s.cont j := fun j hj => by simp [Kernel.undressed, hj]
  have hii : (s.undressed p i k).pthread i = undress p (s.proc p) (s.pthread i) := by
    simp [Kernel.undressed]
  have hci : (s.undressed p i k).cont i = k := by simp [Kernel.undressed]
  have hpid : ∀ j, ((s.undressed p i k).pthread j).pid = (s.pthread j).pid := fun j => by
    by_cases hj : j = i
    · rw [hj, hii, hw.pid]
      rfl
    · rw [(hth j hj).1]
  have hid : ∀ j, ((s.undressed p i k).pthread j).thread_id = (s.pthread j).thread_id := fun j => by
    by_cases hj : j = i
    · rw [hj, hii, hw.thread_id]
      rfl
    · rw [(hth j hj).1]
  have hjo : ∀ j, ((s.undressed p i k).pthread j).joiner_pthread = (s.pthread j).joiner_pthread :=
    fun j => by
    by_cases hj : j = i
    · rw [hj, hii, hw.joiner]
      rfl
    · rw [(hth j hj).1]
  -- and the process keeps its pid and whether it is in use
  have hproc : ∀ q, PSame (s.proc q) ((s.undressed p i k).proc q) := fun q => by
    by_cases hq : q = p
    · subst hq
      have hu := hw.used
      unfold Used at hu
      refine ⟨?_, ?_, ?_, ?_, ?_, ?_⟩ <;> simp [Kernel.undressed, cleared]
      by_cases hz : (s.proc q).state = .ZOMBIE <;> simp [hz, hu]
    · simp [Kernel.undressed, hq]
  have hused : ∀ q, Used (s.undressed p i k) q → Used s q := fun q => (hproc q).used.1
  have hsti : ((s.undressed p i k).pthread i).state = (s.proc p).state := by
    rw [hii]
    rfl
  refine ⟨fun j => ?_, fun q => ?_, fun q r hq hr => ?_, fun q hq => ?_, fun j l => ?_,
    fun q j hq => ?_, fun j ho => ?_, fun j t hj hc => ?_⟩
  · rw [hpid]
    exact hi.pid_lt j
  · rw [(hproc q).pid]
    exact hi.proc_lt q
  · rw [(hproc q).pid, (hproc r).pid]
    exact hi.proc_uniq q r (hused q hq) (hused r hr)
  · rw [(hproc q).pid]
    exact hi.proc_ne q (hused q hq)
  · rw [hpid, hpid, hid, hid]
    exact hi.uniq j l
  · rw [hpid, (hproc q).pid, hid, (hproc q).thread_assign]
    exact hi.assigned q j (hused q hq)
  · rw [hjo] at ho
    rw [hid]
    refine ⟨(hi.own j ho).1, ?_⟩
    by_cases hj : j = i
    · rw [hj, hsti]
      exact hw.used
    · rw [(hth j hj).1]
      exact (hi.own j ho).2
  · by_cases hji : j = i
    · -- the thread that goes to sleep
      subst hji
      rw [hsti] at hj
      rw [hci] at hc
      have hsl := hs.2 hj t hc
      refine ⟨?_, ?_, ?_, fun q hq hqp => ?_, fun l hlp hlt hlu => ?_⟩
      · rw [hii]
        exact hsl.chan
      · rw [hjo, hw.joiner, hsl.joiner]
      · rw [hpid]
        exact hw.pid_ne hi
      · rw [(hproc q).pid, hpid, hw.pid] at hqp
        rw [hi.proc_uniq q p (hused q hq) hw.used hqp, (hproc p).thread_assign]
        exact hsl.assigned
      · rw [hpid, hpid, hw.pid] at hlp
        rw [hid] at hlt
        rw [hjo]
        by_cases hl : l = j
        · subst hl
          refine ⟨(hsl.child l hlp hlt hw.inUse).1, ?_⟩
          rw [hsti, hj]
          decide
        · rw [(hth l hl).1] at hlu ⊢
          exact hsl.child l hlp hlt hlu
    · -- one that has been asleep
      rcases hth j hji with ⟨hjt, hjc⟩
      rw [hjt] at hj
      rw [hjc] at hc
      have hwt := hi.waits j t hj hc
      refine ⟨?_, ?_, ?_, fun q hq hqp => ?_, fun l hlp hlt hlu => ?_⟩
      · rw [hjt, hwt.chan]
      · rw [hjt, hwt.joiner]
      · rw [hjt]
        exact hwt.pid_ne
      · rw [(hproc q).pid, hpid] at hqp
        rw [(hproc q).thread_assign]
        exact hwt.assigned q (hused q hq) hqp
      · rw [hpid, hpid] at hlp
        rw [hid] at hlt
        rw [hjo]
        by_cases hl : l = i
        · subst hl
          refine ⟨(hwt.child l hlp hlt hw.inUse).1, ?_⟩
          rw [hsti]
          exact fun hz => hs.1 hz j t hj hc hlp.symm hlt
        · rw [(hth l hl).1] at hlu ⊢
          exact hwt.child l hlp hlt hlu

/-- Undressing the process ends the turn with the invariant. -/
theorem Turn.undressed {r : Outcome} {ctx : Context} (h : Turn p i (wear s p i))
    (hs : Settled p i (wear s p i) r) : Inv ((r.parked s p ctx).undressed p i r.cont) := by
  rw [← wear_undressed, wear_parked]
  refine undressed_inv (h.parked r) ?_
  cases r with
  | ret v => exact ⟨by simp [Outcome.parked], by simp [Outcome.parked]⟩
  | switch k =>
      refine ⟨fun hz => hs.1 ?_, fun hz t ht => ?_⟩
      · simpa [Outcome.parked] using hz
      · rcases hs.2 (by simpa [Outcome.parked] using hz) t ht with ⟨h1, h2, h3, h4⟩
        constructor <;> simpa [Outcome.parked]

/-! ## Every call -/

/-- The call of a step hands out no thread id twice, and a thread that goes to
sleep in `thread_join` is its own joiner and waits for a thread it has created. -/
def SafeJoin (s : Kernel) (a : Label) : Prop :=
  let x := s.proc a.p
  let t := s.pthread a.i
  (a.c.creates = true → x.thread_assign + 1 < 2 ^ 32) ∧
    ∀ r ∈ joining (s.cont a.i) a.c, JoinsOwn s a.i t.pid t.thread_id r.1 r.2 x.killed

/-- Dressing the process begins the turn. -/
theorem Inv.dressed (h : Inv s) (hp : Pickable s p i) : Turn p i (s.dressed p i) := by
  have hproc : ∀ q, ((s.dressed p i).proc q).pid = (s.proc q).pid ∧
      ((s.dressed p i).proc q).thread_assign = (s.proc q).thread_assign ∧
      (Used (s.dressed p i) q ↔ Used s q) := fun q => by
    by_cases hq : q = p
    · subst hq
      simp [Kernel.dressed, Used, hp.1, hp.2.1]
    · simp [Kernel.dressed, Used, hq]
  constructor
  -- the invariant does not speak of what a process wears
  · refine ⟨h.pid_lt, fun q => ?_, fun q r hq hr => ?_, fun q hq => ?_, h.uniq, fun q j hq => ?_,
      h.own, fun j t hj hc => ?_⟩
    · rw [(hproc q).1]
      exact h.proc_lt q
    · rw [(hproc q).1, (hproc r).1]
      exact h.proc_uniq q r ((hproc q).2.2.1 hq) ((hproc r).2.2.1 hr)
    · rw [(hproc q).1]
      exact h.proc_ne q ((hproc q).2.2.1 hq)
    · rw [(hproc q).1, (hproc q).2.1]
      exact h.assigned q j ((hproc q).2.2.1 hq)
    · have hw := h.waits j t hj hc
      refine ⟨hw.chan, hw.joiner, hw.pid_ne, fun q hq => ?_, hw.child⟩
      rw [(hproc q).1, (hproc q).2.1]
      exact hw.assigned q ((hproc q).2.2.1 hq)
  · refine ⟨?_, ?_, ?_, ?_, ?_, ?_⟩
    · simp [Kernel.dressed, Used]
    · simp [Kernel.dressed]
    · simp [Kernel.dressed]
    · simp [Kernel.dressed]
    · simp [Kernel.dressed]
    · have hi : ((s.dressed p i).pthread i).state = .RUNNABLE := hp.2.2
      rw [hi]
      decide

/-- Whose join it is depends on the slots and the ids. -/
theorem JoinsOwn.congr {pid pid' id id' t w : Nat} {b b' : Bool} (h : JoinsOwn s i pid id t w b)
    (hth : s'.pthread = s.pthread) (hpid : pid' = pid) (hid : id' = id) (hb : b' = b) :
    JoinsOwn s' i pid' id' t w b' := by
  subst hpid hid hb
  intro hk j hj hz
  unfold mayJoin joinerId at hj
  rw [hth] at hj hz ⊢
  exact h hk j hj hz

/-- Every call keeps the turn under its condition, one case each. -/
theorem call_turn {c : Call} {n m : Nat} (h : Inv s)
    (hen : Enabled s ⟨p, i, c, n, m⟩) (hok : SafeJoin s ⟨p, i, c, n, m⟩) :
    wp (call p (s.cont i) c) (s.dressed p i)
      (fun r s' => Turn p i (wear s' p i) ∧ Settled p i (wear s' p i) r) fun _ => True := by
  have hd := h.dressed hen.1
  have hrun : ((s.dressed p i).proc p).state = .RUNNING := by simp [Kernel.dressed]
  have hrunnable : ((s.dressed p i).pthread i).state = .RUNNABLE := hen.1.2.2
  have hz : ((s.dressed p i).pthread i).state ≠ .THZOMBIE := by
    rw [hrunnable]
    decide
  -- a call that ends in the invariant of its turn
  have hpost : ∀ r s', Turn p i s' ∧ Settled p i s' r →
      Turn p i (wear s' p i) ∧ Settled p i (wear s' p i) r := by
    intro r s' h'
    rw [h'.1.worn.wear]
    exact h'
  have hret : ∀ {α : Type} {x : M α} {f : α → Int} {E : Stop → Prop},
      wp x (s.dressed p i) (fun _ s' => Turn p i s') E →
      wp (do let r ← x; return .ret (f r)) (s.dressed p i)
        (fun r s' => Turn p i (wear s' p i) ∧ Settled p i (wear s' p i) r) fun _ => True := by
    intro α x f E hx
    rw [wp_bind]
    exact wp.mono hx (fun r s1 h1 => (wp_pure ..).2 (hpost _ _ ⟨h1, trivial⟩)) fun _ _ => trivial
  -- one lemma for each call, above
  cases c with
  | yield => exact (wp_pure ..).2 (hpost _ _ ⟨hd, trivial⟩)
  | sleep c => exact wp.mono (sleep_turn hd (by simp)) hpost fun _ he => he
  | wakeup c =>
      simp only [call, wp_bind, wakeup1_wp, wp_pure]
      exact hpost _ _ ⟨hd.stir (.woken _ _), trivial⟩
  | inside w z => exact wp.mono (inside_turn hd) hpost fun _ he => he
  | thread_create =>
      simp only [call, wp_bind]
      have hlt : ((s.dressed p i).proc p).thread_assign + 1 < 2 ^ 32 := by
        simpa [Kernel.dressed] using hok.1 rfl
      refine wp.mono (thread_create_turn hd hlt) (fun r s1 h1 => ?_) fun _ he => he
      cases r <;> exact (wp_pure ..).2 (hpost _ _ ⟨h1, trivial⟩)
  | thread_exit v => exact wp.mono (thread_exit_turn hd hrun) hpost fun _ he => he
  | thread_join t w =>
      unfold call thread_join
      refine wp_ite (fun _ => (wp_pure ..).2 (hpost _ _ ⟨hd, trivial⟩)) fun ht => ?_
      refine wp.mono (joinScan_turn hd hz ?_) hpost fun _ he => he
      have hok : JoinsOwn s i (s.pthread i).pid (s.pthread i).thread_id t w (s.proc p).killed :=
        hok.2 (t, w) (by simp [joining, ht])
      refine hok.congr rfl ?_ ?_ ?_ <;> simp [Kernel.dressed]
  | sbrk n => exact hret (wp.mono growproc_same (fun _ _ h1 => hd.same h1) fun _ he => he)
  | fork => exact hret (fork_turn hd)
  | exit => exact wp.mono (exit_turn hd) hpost fun _ he => he
  | wait => exact wp.mono (waitScan_turn hd hrun) hpost fun _ he => he
  | exec elf argv =>
      unfold call exec
      rw [wp_bind]
      refine wp.mono (execWith_turn hd (by rw [hrunnable]; decide)) (fun r s1 h1 => ?_)
        fun _ he => he
      exact (wp_pure ..).2 ⟨h1, trivial⟩
  | exec2 elf argv n =>
      unfold call exec2
      rw [wp_bind]
      refine wp_ite (fun _ => ?_) fun _ => ?_
      · exact (wp_pure ..).2 ((wp_pure ..).2 (hpost _ _ ⟨hd, trivial⟩))
      · refine wp.mono (execWith_turn hd (by rw [hrunnable]; decide)) (fun r s1 h1 => ?_)
          fun _ he => he
        exact (wp_pure ..).2 ⟨h1, trivial⟩
  | kill pid => exact hret (wp.mono (kill_turn hd) (fun _ _ h1 => h1.1) fun _ he => he)
  | setmemorylimit pid limit =>
      exact hret (wp.mono setmemorylimit_same (fun _ _ h1 => hd.same h1) fun _ he => he)
  | resume w =>
      unfold call resume
      simp only [wp_bind, wp_setProc]
      have h1 : Turn p i ((s.dressed p i).setProc p fun x => { x with chan := .null }) := by
        refine hd.same (.of_proc p (fun q hq => by simp [hq]) ?_ rfl rfl rfl)
        constructor <;> simp
      cases hk : s.cont i with
      | user => exact (wp_pure ..).2 (hpost _ _ ⟨h1, trivial⟩)
      | sleep => exact (wp_pure ..).2 (hpost _ _ ⟨h1, trivial⟩)
      | wait => exact wp.mono (waitScan_turn h1 (by simp [Kernel.dressed])) hpost fun _ he => he
      | join t =>
          refine wp.mono (joinScan_turn h1 hz ?_) hpost fun _ he => he
          have hok : JoinsOwn s i (s.pthread i).pid (s.pthread i).thread_id t w
              (s.proc p).killed :=
            hok.2 (t, w) (by simp [joining, hk])
          refine hok.congr rfl ?_ ?_ ?_ <;> simp [Kernel.dressed]

theorem next_inv {a : Label} (h : Inv s) (hok : SafeJoin s a) (hs : next s a = some s') :
    Inv s' := by
  have hen := (next_some hs).1
  rcases next_wp (call_turn h hen hok) hs with ⟨r, s1, h1, rfl⟩
  exact h1.1.undressed h1.2

/-! ## Runs -/

/-- Nobody waits at the start. -/
theorem Started.inv {i : Tidx} (h : Started p i s) : Inv s := by
  rcases h.proc with ⟨pd, k, -, -, hp⟩
  have hi := h.th
  rw [hp] at hi
  -- one process and one thread are in use
  have hused : ∀ q, Used s q → q = p := fun q hq => by
    by_contra hne
    rw [Used, h.other q hne] at hq
    exact hq rfl
  have hpid : ∀ j, (s.pthread j).pid ≠ 0 → j = i := fun j hj => by
    by_contra hne
    rw [h.others j hne] at hj
    exact hj rfl
  refine ⟨fun j => ?_, fun q => ?_, fun q r hq hr _ => ?_, fun q hq => ?_, fun j k hjk h0 _ => ?_,
    fun q j hq hj => ?_, fun j hj => ?_, fun j t hj => ?_⟩
  · by_cases hj : j = i
    · simp [hj, hi, undress, h.nextpid]
    · simp [h.others j hj, Pthread.zero, h.nextpid]
  · by_cases hq : q = p
    · simp [hq, hp, h.nextpid]
    · simp [h.other q hq, Proc.zero, h.nextpid]
  · rw [hused q hq, hused r hr]
  · simp [hused q hq, hp]
  · rw [hpid j h0, hpid k (hjk ▸ h0)]
  · rw [hused q hq, hp] at hj ⊢
    rw [hpid j (by rw [hj]; exact one_ne_zero), hi]
    exact le_refl 1
  · by_cases hji : j = i
    · subst hji
      simp [hi, undress]
    · simp [h.others j hji, Pthread.zero] at hj
  · by_cases hji : j = i
    · simp [hji, hi, undress] at hj
    · simp [h.others j hji, Pthread.zero] at hj

/-- Every thread that sleeps in `thread_join` for a thread it may join sleeps
where that thread will wake it, and it has not terminated yet. -/
def NoLostWakeup (s : Kernel) : Prop :=
  ∀ j i t w, (s.pthread j).state = .SLEEPING → s.cont j = .join t → (s.pthread i).state ≠ .UNUSED →
    mayJoin s (s.pthread j).pid (s.pthread j).thread_id t w i = true →
      (s.pthread j).chan = chanOf (s.pthread i).joiner_pthread ∧ (s.pthread i).state ≠ .THZOMBIE

/-- In a run of safe steps no join wakeup is lost. -/
theorem no_wakeup_lost (hr : ReachOk Init next SafeJoin s) : NoLostWakeup s := by
  have hinv : Inv s := by
    refine hr.invariant Inv (fun s0 h0 => ?_) (fun s0 a s1 => next_inv)
    rcases h0.started with ⟨p, i, h⟩
    exact Started.inv h
  intro j i t w hj hc hu hm
  unfold mayJoin at hm
  rw [decide_eq_true_iff] at hm
  have hw := hinv.waits j t hj hc
  rcases hw.child i hm.1 hm.2.1 hu with ⟨ho, hz⟩
  rw [ho, hw.chan]
  exact ⟨rfl, hz⟩

instance (s : Kernel) (i : Tidx) (pid id t w : Nat) (b : Bool) :
    Decidable (JoinsOwn s i pid id t w b) :=
  inferInstanceAs (Decidable (_ → _))

instance (s : Kernel) (a : Label) : Decidable (SafeJoin s a) :=
  inferInstanceAs (Decidable (_ ∧ _))

/-- The main thread creates thread 2, which creates thread 3 and joins it; then
thread 3 exits. -/
def grandchild : List Label :=
  [⟨0, 0, .thread_create, 0, 0⟩, ⟨0, 1, .thread_create, 0, 0⟩, ⟨0, 1, .thread_join 3 0, 0, 0⟩,
    ⟨0, 2, .thread_exit 7, 0, 0⟩]

/-- Thread 2 slept on the slot of the main thread; thread 3 has woken slot 1. -/
theorem wakeup_lost : ∃ s, Reachable Init next s ∧ ¬ NoLostWakeup s := by
  have hrun : (run grandchild).map (fun s => ((s.pthread 1).state, s.cont 1,
      (s.pthread 2).state, mayJoin s (s.pthread 1).pid (s.pthread 1).thread_id 3 0 2)) =
      some (.SLEEPING, .join 3, .THZOMBIE, true) := by decide +kernel
  rcases Option.map_eq_some_iff.1 hrun with ⟨s, hs, hv⟩
  simp only [Prod.mk.injEq] at hv
  rcases hv with ⟨h1, h2, h3, h4⟩
  refine ⟨s, run_reachable hs, fun hall => ?_⟩
  exact (hall 1 2 3 0 h1 h2 (by rw [h3]; decide) h4).2 h3

/-- The main thread sleeps in `thread_join` for a thread it has created. -/
theorem no_wakeup_lost_main : ∃ s, (s.pthread 0).state = .SLEEPING ∧ s.cont 0 = .join 2 ∧
    (s.pthread 1).state = .RUNNABLE ∧ NoLostWakeup s := by
  have hrun : (runOnly SafeJoin [⟨0, 0, .thread_create, 0, 0⟩, ⟨0, 0, .thread_join 2 0, 0, 0⟩]).map
      (fun s => ((s.pthread 0).state, s.cont 0, (s.pthread 1).state)) =
      some (.SLEEPING, .join 2, .RUNNABLE) := by decide +kernel
  rcases Option.map_eq_some_iff.1 hrun with ⟨s, hs, hv⟩
  simp only [Prod.mk.injEq] at hv
  rcases hv with ⟨h1, h2, h3⟩
  exact ⟨s, h1, h2, h3, no_wakeup_lost (runOnly_reachOk hs)⟩

end Xv6.Thread.Join
