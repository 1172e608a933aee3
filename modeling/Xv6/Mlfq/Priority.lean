import Xv6.Mlfq.Dictator
import Xv6.Mlfq.Smp

/-!
# What setPriority does to the queues and the priorities

`setPriority` looks for its target by rotating the live rings, and stops behind
the first entry with the pid (`Located`). So the queue it stops in keeps its order
only if that entry ends a round of it, a process that is in no queue is not found
at all, and the bound that is checked is one more than the one the message states.

* `order_kept_iff`: exactly when a call leaves the three queues as they were and
  changes at most a priority, in every reachable state without an overfull ring;
* `effective_iff`: exactly when a call does what it is for, and that priorities
  stay in range along runs whose calls are all of that kind;
* `order_disturbed`, `own_request_lost`: the two failures, on runs from boot.

The lists in the first part of the file are the queues before and after a
rotation that stops at an entry; nothing there depends on processes.
-/

namespace Xv6.Mlfq

open Xv6.Lib

variable {s s' s'' : St} {p : Pidx} {lv : Nat} {a : Act}

/-! ## Lists that a rotation leaves as they are -/

section Rotation

variable {α : Type} {P : α → Prop} {pre pre' post post' : List α} {x x' : α}

/-- A list has one first element that satisfies `P`. -/
theorem first_unique (h : pre ++ x :: post = pre' ++ x' :: post') (hx : P x) (hx' : P x')
    (hpre : ∀ y ∈ pre, ¬ P y) (hpre' : ∀ y ∈ pre', ¬ P y) :
    pre = pre' ∧ x = x' ∧ post = post' := by
  rcases List.append_eq_append_iff.1 h with ⟨c, hc, heq⟩ | ⟨c, hc, heq⟩
  all_goals
    cases c with
    | nil =>
        simp only [List.nil_append, List.cons.injEq] at heq
        simp_all
    | cons z c =>
        simp only [List.cons_append, List.cons.injEq] at heq
        rcases heq with ⟨rfl, -⟩
        simp_all

/-- Putting the elements up to the first one that satisfies `P` behind the others
changes nothing if and only if the others are copies of them. -/
theorem rotate_first_iff (hx : P x) (hpre : ∀ y ∈ pre, ¬ P y) (n : Nat) :
    ∀ {post : List α}, post.length ≤ n →
      (post ++ (pre ++ [x]) = pre ++ [x] ++ post ↔
        ∃ m, post = (List.replicate m (pre ++ [x])).flatten) := by
  induction n with
  | zero =>
      intro post hn
      obtain rfl : post = [] := List.length_eq_zero_iff.1 (by omega)
      simp only [List.nil_append, List.append_nil, true_iff]
      exact ⟨0, rfl⟩
  -- a copy of the round is split off where one fits
  | succ n ih =>
      intro post hn
      constructor
      · intro heq
        rcases List.append_eq_append_iff.1 heq with ⟨c, hc, hc'⟩ | ⟨c, hc, hc'⟩
        · -- shorter than one copy: `x` would be both at its end and inside it
          rcases List.eq_nil_or_concat post with rfl | ⟨l, z, rfl⟩
          · exact ⟨0, rfl⟩
          · rw [List.concat_eq_append, ← List.append_assoc] at hc'
            have hz : x = z := by simpa using (List.append_inj' hc' rfl).2
            subst hz
            rcases List.eq_nil_or_concat c with rfl | ⟨l', w, rfl⟩
            · refine ⟨1, ?_⟩
              rw [List.append_nil] at hc
              simp [hc]
            · rw [List.concat_eq_append, List.concat_eq_append, ← List.append_assoc] at hc
              have hin : pre = l ++ [x] ++ l' := (List.append_inj' hc rfl).1
              refine absurd hx (hpre x ?_)
              simp [hin]
        · -- one copy in front, and the rest commutes again
          have hlen : c.length ≤ n := by
            have := congrArg List.length hc
            simp only [List.length_append, List.length_singleton] at this
            omega
          rcases (ih hlen).1 (hc'.symm.trans hc) with ⟨m, hm⟩
          refine ⟨m + 1, ?_⟩
          rw [hc, hm, List.replicate_succ, List.flatten_cons]
      · rintro ⟨m, rfl⟩
        clear hn
        induction m with
        | zero => simp
        | succ m ihm =>
            rw [List.replicate_succ, List.flatten_cons, List.append_assoc, ihm]

end Rotation

/-! ## One call -/

/-- The entry that is met first is one entry, at one place. -/
theorem Located.unique {pid : Int} {lv' : Nat} {pre pre' post post' : List Pidx} {x x' : Pidx}
    (h : Located s pid lv pre x post) (h' : Located s pid lv' pre' x' post') :
    lv = lv' ∧ pre = pre' ∧ x = x' ∧ post = post' := by
  have hle : lv' ≤ lv := by
    by_contra hlt
    refine h'.lower lv (by omega) x ?_ h.here
    rw [h.q]
    simp
  have hge : lv ≤ lv' := by
    by_contra hlt
    refine h.lower lv' (by omega) x' ?_ h'.here
    rw [h'.q]
    simp
  obtain rfl : lv = lv' := by omega
  have heq : pre ++ x :: post = pre' ++ x' :: post' := by rw [← h.q, h'.q]
  exact ⟨rfl, first_unique (P := fun y => (s.proc y).pid = pid) heq h.here h'.here h.first h'.first⟩

theorem Located.mem {pid : Int} {pre post : List Pidx} {x : Pidx}
    (h : Located s pid lv pre x post) : x ∈ s.q lv := by
  rw [h.q]
  simp

/-- The pid is in no queue. -/
theorem setPriority_absent {pid : Int} (v : Int) {s1 : St} (hp : findPidLevels s pid = (none, s1)) :
    setPriority s pid v = s1 := by
  unfold setPriority
  simp [hp]

/-- The pid is found at slot `x`. -/
theorem setPriority_found {pid : Int} (v : Int) {s1 : St} {x : Pidx}
    (hp : findPidLevels s pid = (some x, s1)) :
    setPriority s pid v =
      if v < 0 ∨ v > 4 then s1 else s1.setProc x fun q => { q with priority := v } := by
  unfold setPriority
  simp [hp]

/-! ### The order of the queues -/

/-- `setPriority` on `pid` has left the order of the queues alone, and every field
but the priority of the process with that pid. -/
structure KeepsOrder (s s' : St) (pid : Int) : Prop where
  queues : ∀ lv ≤ 2, s'.q lv = s.q lv
  field : ∀ p, s'.proc p = { s.proc p with priority := (s'.proc p).priority }
  others : ∀ p, (s.proc p).pid ≠ pid → s'.proc p = s.proc p

/-- The queue in which the pid is met first is a number of copies of the block that
ends with its first entry; when no slot is queued twice, that entry is its last. -/
def EndsRound (s : St) (pid : Int) : Prop :=
  ∀ lv pre x post, Located s pid lv pre x post →
    ∃ m, post = (List.replicate m (pre ++ [x])).flatten

/-- No ring holds more than its size. -/
def Fits (s : St) : Prop := ∀ lv, (s.mlfq lv).size ≤ NPROC

theorem Fits.wf (h : Fits s) (ha : Aligned s) : WfQ s :=
  fun lv => ⟨(ha lv).front_lt, (ha lv).back_eq, h lv⟩

/-- Only the priority of the entry that was found is assigned. -/
theorem setPriority_proc {pid v : Int} {s1 : St} {x : Pidx} {Q : Nat → List Pidx}
    (hp : findPidLevels s pid = (some x, s1)) (h : Queues s s1 Q) (q : Pidx) :
    (setPriority s pid v).proc q =
      if q = x ∧ 0 ≤ v ∧ v ≤ 4 then { s.proc q with priority := v } else s.proc q := by
  rw [setPriority_found v hp]
  by_cases hv : v < 0 ∨ v > 4
  · rw [if_pos hv, if_neg (by omega), h.proc]
  · rw [if_neg hv]
    by_cases hq : q = x
    · subst hq
      rw [if_pos ⟨rfl, by omega⟩, St.setProc_proc_self, h.proc]
    · rw [if_neg (fun hn => hq hn.1), St.setProc_proc_ne _ _ hq, h.proc]

theorem setPriority_q {pid : Int} (v : Int) {s1 : St} {x : Pidx}
    (hp : findPidLevels s pid = (some x, s1)) : (setPriority s pid v).q = s1.q := by
  rw [setPriority_found v hp]
  split <;> rfl

/-- The search has come back to where the queue began exactly if the entry ends a round of it. -/
theorem keepsOrder_iff (hw : WfQ s) (pid v : Int) :
    KeepsOrder s (setPriority s pid v) pid ↔ EndsRound s pid := by
  -- nobody in the queues has the pid: nothing moves, and no round ends there
  rcases findPidLevels_cases hw pid with ⟨s1, hp, h, hn⟩ | ⟨lv, pre, x, post, s1, hx, hp, h⟩
  · rw [setPriority_absent v hp]
    constructor
    · intro _ lv pre x post hx
      exact absurd hx.here (hn lv hx.level x hx.mem)
    · intro _
      refine ⟨fun lv _ => by rw [h.q], fun q => ?_, fun q _ => by rw [h.proc]⟩
      rw [h.proc]
  -- the search stops at `x`, with what was in front of it and `x` itself moved to the back
  · have hrot := rotate_first_iff (P := fun y => (s.proc y).pid = pid) hx.here hx.first post.length
      (le_refl post.length)
    have hq : (setPriority s pid v).q = Function.update s.q lv (post ++ (pre ++ [x])) := by
      rw [setPriority_q v hp, h.q]
    constructor
    · intro hk lv' pre' x' post' hx'
      rcases hx.unique hx' with ⟨rfl, rfl, rfl, rfl⟩
      apply hrot.1
      have hlv := hk.queues lv hx.level
      rw [hq, Function.update_self, hx.q] at hlv
      simpa using hlv
    -- the levels, the processes and the priorities of the others
    · intro he
      have hsame := hrot.2 (he lv pre x post hx)
      constructor
      · intro l _
        rw [hq]
        by_cases hl : l = lv
        · subst hl
          rw [Function.update_self, hx.q, hsame]
          simp
        · rw [Function.update_of_ne hl]
      · intro q
        rw [setPriority_proc hp h]
        split <;> rfl
      · intro q hqp
        rw [setPriority_proc hp h, if_neg]
        rintro ⟨rfl, -⟩
        exact hqp hx.here

/-! ### The target -/

/-- `setPriority(pid, v)` has taken effect on the live process with that pid if the
priority is one of those in its message, and on nothing else. -/
structure TakesEffect (s s' : St) (pid v : Int) : Prop where
  effect : 0 ≤ v → v ≤ 3 → ∀ p, Alive (s.proc p) → (s.proc p).pid = pid → (s'.proc p).priority = v
  nothing : ∀ p, (s'.proc p).priority ≠ (s.proc p).priority →
    0 ≤ v ∧ v ≤ 3 ∧ Alive (s.proc p) ∧ (s.proc p).pid = pid

/-- The live process with the pid is in a queue, and what is in the queues with that
pid is alive and given a priority of the message, unless the priority is the old one. -/
structure Served (s : St) (pid v : Int) : Prop where
  seen : 0 ≤ v → v ≤ 3 → ∀ p, Alive (s.proc p) → (s.proc p).pid = pid →
    (s.proc p).priority = v ∨ ∃ lv ≤ 2, p ∈ s.q lv
  only : 0 ≤ v → v ≤ 4 → ∀ lv pre x post, Located s pid lv pre x post →
    (s.proc x).priority = v ∨ v ≤ 3 ∧ Alive (s.proc x)

/-- Pids tell the slots in use apart. -/
structure Pids (s : St) : Prop where
  pos : 0 < s.nextpid
  below : ∀ p, (s.proc p).pid < s.nextpid
  uniq : ∀ p q, (s.proc p).pid = (s.proc q).pid → (s.proc p).pid ≠ 0 → p = q
  named : ∀ p, (s.proc p).state ≠ .UNUSED → (s.proc p).pid ≠ 0
  fork : ∀ p np, s.kont p = .fork np → (s.proc np).state = .EMBRYO
  fork_inj : ∀ p p' np, s.kont p = .fork np → s.kont p' = .fork np → p = p'

/-- `setPriority` does what it says exactly if it meets the live process in a queue first,
and the value is one that it takes. -/
theorem takesEffect_iff (hw : WfQ s) (hpids : Pids s) (pid v : Int) :
    TakesEffect s (setPriority s pid v) pid v ↔ Served s pid v := by
  -- nobody in the queues has the pid: the call fails
  rcases findPidLevels_cases hw pid with ⟨s1, hp, h, hn⟩ | ⟨lv, pre, x, post, s1, hx, hp, h⟩
  · rw [setPriority_absent v hp]
    constructor
    · intro ht
      constructor
      · intro h0 h3 p ha hpid
        have he := ht.effect h0 h3 p ha hpid
        rw [h.proc] at he
        exact Or.inl he
      · intro _ _ lv pre x post hx
        exact absurd hx.here (hn lv hx.level x hx.mem)
    · intro hs
      constructor
      · intro h0 h3 p ha hpid
        rw [h.proc]
        rcases hs.seen h0 h3 p ha hpid with he | ⟨lv, hlv, hmem⟩
        · exact he
        · exact absurd hpid (hn lv hlv p hmem)
      · intro p hne
        rw [h.proc] at hne
        exact absurd rfl hne
  · -- the live process with this pid, if there is one, is the entry that is found
    have heq : ∀ p, Alive (s.proc p) → (s.proc p).pid = pid → p = x := by
      intro p ha hpid
      exact hpids.uniq p x (hpid.trans hx.here.symm) (hpids.named p ha.1)
    constructor
    · intro ht
      constructor
      · intro _ _ p ha hpid
        rcases heq p ha hpid with rfl
        exact Or.inr ⟨lv, hx.level, hx.mem⟩
      · intro h0 h4 lv' pre' x' post' hx'
        rcases hx.unique hx' with ⟨rfl, rfl, rfl, rfl⟩
        by_cases hold : (s.proc x).priority = v
        · exact Or.inl hold
        · have hn := ht.nothing x (by
            rw [setPriority_proc hp h, if_pos ⟨rfl, h0, h4⟩]
            exact fun he => hold he.symm)
          exact Or.inr ⟨hn.2.1, hn.2.2.1⟩
    · intro hs
      constructor
      · intro h0 h3 p ha hpid
        rcases heq p ha hpid with rfl
        rw [setPriority_proc hp h, if_pos ⟨rfl, h0, by omega⟩]
      · intro p hne
        rw [setPriority_proc hp h] at hne
        split at hne
        · next hc =>
          rcases hc with ⟨rfl, h0, h4⟩
          rcases hs.only h0 h4 lv pre p post hx with hold | ⟨h3, ha⟩
          · exact absurd hold.symm hne
          · exact ⟨h0, h3, ha, hx.here⟩
        · exact absurd rfl hne

/-! ## The other steps -/

def Ranged (x : Proc) : Prop := 0 ≤ x.priority ∧ x.priority ≤ 3

theorem ranged_three {x : Proc} (h : x.priority = 3) : Ranged x := by
  unfold Ranged
  omega

/-- What every function but `allocproc`, `wait` and `setPriority` does to a process. -/
structure Tame (x y : Proc) : Prop where
  pid : y.pid = x.pid
  ranged : Ranged x → Ranged y
  embryo : y.state = .EMBRYO → x.state = .EMBRYO

/-- No slot has been named anew, and no priority has left its range. -/
structure Steady (s s' : St) : Prop where
  proc : ∀ q, Tame (s.proc q) (s'.proc q)
  nextpid : s'.nextpid = s.nextpid

namespace Steady

theorem refl (s : St) : Steady s s := ⟨fun _ => ⟨rfl, id, id⟩, rfl⟩

theorem trans (h : Steady s s') (h' : Steady s' s'') : Steady s s'' := by
  refine ⟨fun q => ⟨?_, fun hr => ?_, fun he => ?_⟩, h'.nextpid.trans h.nextpid⟩
  · exact (h'.proc q).pid.trans (h.proc q).pid
  · exact (h'.proc q).ranged ((h.proc q).ranged hr)
  · exact (h.proc q).embryo ((h'.proc q).embryo he)

theorem iterate {f : St → St} (h : ∀ s, Steady s (f s)) (n : Nat) (s : St) :
    Steady s (f^[n] s) := by
  induction n generalizing s with
  | zero => exact .refl s
  | succ n ih => exact (h s).trans (ih (f s))

/-- A change of a process that names nobody anew is steady. -/
theorem setProc {f : Proc → Proc} (hf : Tame (s.proc p) (f (s.proc p))) :
    Steady s (s.setProc p f) := by
  refine ⟨fun q => ?_, rfl⟩
  by_cases hq : q = p
  · subst hq
    rwa [St.setProc_proc_self]
  · rw [St.setProc_proc_ne _ _ hq]
    exact ⟨rfl, id, id⟩

theorem of_rings (h : Rings s s') : Steady s s' := by
  refine ⟨fun q => ?_, by rw [h.rest]⟩
  rw [h.proc]
  exact ⟨rfl, id, id⟩

end Steady

/-- Boosting sets priorities to 3. -/
theorem boostLevel_steady (s : St) (lv : Nat) : Steady s (boostLevel s lv) := by
  refine Steady.iterate (fun s => ?_) _ s
  have h := Steady.of_rings (deQ_rings s lv)
  unfold boost1
  split
  · next heq =>
    rw [heq] at h
    exact h
  · next heq =>
    rw [heq] at h
    exact (h.trans (.setProc ⟨rfl, fun _ => ranged_three rfl, id⟩)).trans
      (.of_rings (enQ_rings _ _ _))

/-- So does the whole boost. -/
theorem priorityBoost_steady (s : St) : Steady s (priorityBoost s) := by
  have hloops : ∀ s0, Steady s s0 →
      Steady s (boostLevel (boostLevel (boostLevel s0 0) 1) 2) := fun s0 h =>
    ((h.trans (boostLevel_steady s0 0)).trans (boostLevel_steady _ 1)).trans (boostLevel_steady _ 2)
  unfold priorityBoost
  apply hloops
  split
  · cases s.scheduler_dictator with
    | none => exact ⟨fun _ => ⟨rfl, id, id⟩, rfl⟩
    | some d =>
        have h := Steady.of_rings (enQFront_rings s d)
        exact ⟨h.proc, h.nextpid⟩
  · exact .refl s

/-- The feedback takes at most one from the priority, and stops at 0. -/
theorem requeue_steady (s : St) (p : Pidx) (lv : Nat) : Steady s (requeue s p lv) := by
  have h0 : Steady s (s.setProc p fun q => { q with consumed_tq :=
    (q.consumed_tq + 1) % 2 ^ 32 }) :=
    .setProc ⟨rfl, id, id⟩
  unfold requeue
  dsimp only
  split
  · exact h0
  · have hqueue : ∀ (s1 : St) (lv' : Nat), Steady s s1 →
        Steady s (if (s1.proc p).state ≠ .ZOMBIE then enQ s1 lv' p else s1) := by
      intro s1 lv' h1
      split
      · exact h1.trans (.of_rings (enQ_rings _ _ _))
      · exact h1
    apply hqueue
    split
    · refine h0.trans (.setProc ⟨rfl, ?_, id⟩)
      unfold Ranged
      dsimp only
      intro hr
      split
      · split <;> omega
      · exact hr
    · exact h0

/-- Giving the CPU up names nobody anew. -/
theorem sched_steady (s : St) (p : Pidx) (lv : Nat) {st : ProcState} (hst : st ≠ .EMBRYO) :
    Steady s (sched s p lv st) := by
  have h0 : Steady s (s.setProc p fun q => { q with state := st }) :=
    .setProc ⟨rfl, id, fun he => absurd he hst⟩
  have h1 := h0.trans (requeue_steady _ p lv)
  unfold sched feedback
  dsimp only
  split
  · have h2 := priorityBoost_steady
      { requeue (s.setProc p fun q => { q with state := st }) p lv with global_ticks := 0 }
    have h3 := @Steady.trans _ _ (priorityBoost _) h1 ⟨h2.proc, h2.nextpid⟩
    exact ⟨h3.proc, h3.nextpid⟩
  · exact ⟨h1.proc, h1.nextpid⟩

theorem sleep_steady (s : St) (p : Pidx) (lv : Nat) (chan : Chan) :
    Steady s (sleep s p lv chan) := by
  have h0 : Steady s (s.setProc p fun q => { q with chan := chan }) := .setProc ⟨rfl, id, id⟩
  exact h0.trans (sched_steady _ p lv (by decide))

/-- Nor does a wakeup. -/
theorem wakeup1_steady (s : St) (chan : Chan) : Steady s (wakeup1 s chan) := by
  refine ⟨fun q => ?_, rfl⟩
  unfold wakeup1
  dsimp only
  split
  · exact ⟨rfl, id, fun he => nomatch he⟩
  · exact ⟨rfl, id, id⟩

/-- Nor does `kill`. -/
theorem kill_steady (s : St) (pid : Int) : Steady s (kill s pid) := by
  unfold kill
  split
  · exact .refl s
  · refine .setProc ⟨rfl, id, ?_⟩
    dsimp only
    split
    · exact fun he => nomatch he
    · exact id

/-- Nor does passing children on. -/
theorem passChildren_steady (s : St) (p : Pidx) : Steady s (passChildren s p) := by
  unfold passChildren
  generalize List.finRange NPROC = l
  induction l generalizing s with
  | nil => exact .refl s
  | cons c l ih =>
      rw [List.foldl_cons]
      refine Steady.trans ?_ (ih _)
      split
      · have h1 : Steady s (s.setProc c fun q => { q with parent := some s.initproc }) :=
          .setProc ⟨rfl, id, id⟩
        dsimp only
        split
        · exact h1.trans (wakeup1_steady _ _)
        · exact h1
      · exact .refl s

/-- Nor does `exit`. -/
theorem exitEnd_steady (s : St) (p : Pidx) (lv : Nat) : Steady s (exitEnd s p lv) := by
  unfold exitEnd
  dsimp only
  generalize hs1 : passChildren (wakeup1 s _) p = s1
  have h : Steady s s1 := by
    rw [← hs1]
    exact (wakeup1_steady _ _).trans (passChildren_steady _ _)
  refine Steady.trans ?_ (sched_steady _ p lv (by decide))
  split
  · exact ⟨h.proc, h.nextpid⟩
  · exact h

/-- Nor does its part before the locks. -/
theorem exitBegin_steady (hs : exitBegin s p = some s') : Steady s s' := by
  unfold exitBegin at hs
  split at hs
  · cases hs
  · cases hs
    exact ⟨fun _ => ⟨rfl, id, id⟩, rfl⟩

/-- The end of a `fork` finds the slot named. -/
theorem forkDone_steady (s : St) (p np : Pidx) : Steady s (forkDone s p np) := by
  unfold forkDone
  have h : Steady s (s.setProc np fun q =>
      { q with parent := some p, state := .RUNNABLE, priority := 3, qlv := 0, consumed_tq := 0 }) :=
    .setProc ⟨rfl, fun _ => ranged_three rfl, fun he => nomatch he⟩
  have h1 := h.trans (.of_rings (enQ_rings _ 0 np))
  exact ⟨h1.proc, h1.nextpid⟩

/-- `schedulerLock` leaves names and priorities. -/
theorem schedulerLock_steady {password : Int} (hs : schedulerLock s p password = some s') :
    Steady s s' := by
  unfold schedulerLock at hs
  split at hs
  · have h := exitBegin_steady hs
    exact ⟨h.proc, h.nextpid⟩
  split at hs
  · exact exitBegin_steady hs
  · cases hs
    have h : Steady s (s.setProc p fun q => { q with consumed_tq := 0, qlv := -1 }) :=
      .setProc ⟨rfl, id, id⟩
    exact ⟨h.proc, h.nextpid⟩

/-- `schedulerUnlock` sets the priority back to 3. -/
theorem schedulerUnlock_steady {password : Int} (hs : schedulerUnlock s p password = some s') :
    Steady s s' := by
  unfold schedulerUnlock at hs
  split at hs
  · exact exitBegin_steady hs
  split at hs
  · cases hs
    exact .refl s
  · cases hs
    have h : Steady s (s.setProc p fun q => { q with priority := 3, qlv := 0, consumed_tq := 0 }) :=
      .setProc ⟨rfl, fun _ => ranged_three rfl, id⟩
    have h1 := h.trans (.of_rings (enQFront_rings _ p))
    exact ⟨h1.proc, h1.nextpid⟩

/-- So does the scheduler when a boost is due, and otherwise it leaves them. -/
theorem schedule_steady (hs : schedule s = some s') : Steady s s' := by
  have hdisp : ∀ (s0 : St) (q : Pidx) (lv : Nat), Steady s s0 → Steady s (dispatch s0 q lv) := by
    intro s0 q lv h
    have h1 : Steady s (s0.setProc q fun x => { x with state := .RUNNING, chan := .null }) :=
      h.trans (.setProc ⟨rfl, id, fun he => nomatch he⟩)
    exact ⟨h1.proc, h1.nextpid⟩
  unfold schedule at hs
  split at hs
  · rw [Option.map_eq_some_iff] at hs
    rcases hs with ⟨d, -, rfl⟩
    exact hdisp s d 0 (.refl s)
  · have h := Steady.of_rings (pickLevel_rings s)
    split at hs
    · next q lv s0 heq =>
      cases hs
      rw [heq] at h
      exact hdisp s0 q lv h
    · next s0 heq =>
      cases hs
      rw [heq] at h
      exact h

/-- How a step names slots and assigns priorities. -/
inductive Naming (a : Act) (s s' : St) : Prop
  | steady (h : Steady s s')
  | allocated (np : Pidx) (hu : (s.proc np).state = .UNUSED)
      (h : (s'.proc np).pid = s.nextpid ∧ (s'.proc np).priority = (s.proc np).priority)
      (ho : ∀ q, q ≠ np → s'.proc q = s.proc q) (hn : s'.nextpid = s.nextpid + 1)
  | reaped (c : Pidx) (h : (s'.proc c).state = .UNUSED ∧ (s'.proc c).pid = 0 ∧
        (s'.proc c).priority = (s.proc c).priority)
      (ho : ∀ q, q ≠ c → s'.proc q = s.proc q) (hn : s'.nextpid = s.nextpid)
  | set (pid v : Int) (ha : a = .setPriority pid v) (hs : s' = setPriority s pid v)

/-- `allocproc` names an UNUSED slot, with a new pid and priority 3. -/
theorem forkAlloc_naming : Naming a s (forkAlloc s p) := by
  unfold forkAlloc allocproc
  cases hf : firstProc s fun p => p.state = .UNUSED with
  | none => exact .steady (.refl s)
  | some np =>
      have hu : (s.proc np).state = .UNUSED := by simpa using firstProc_some hf
      refine .allocated np hu ?_ ?_ rfl
      · simp
      · intro q hq
        simp [hq, St.setProc]

/-- `wait` takes the name from a zombie. -/
theorem wait_naming : Naming a s (wait s p lv) := by
  unfold wait
  split
  · next c hc =>
    refine .reaped c ?_ ?_ rfl
    · simp
    · intro q hq
      simp [hq]
  · split
    · exact .steady ⟨fun _ => ⟨rfl, id, id⟩, rfl⟩
    · have h := sleep_steady (s.setKont p .wait) p lv (.proc p)
      exact .steady ⟨h.proc, h.nextpid⟩

/-- How the actions of the running process name slots, one case each. -/
theorem nextRunning_naming (hs : nextRunning s p lv a = some s') : Naming a s s' := by
  -- only a fork, a `wait` and `setPriority` touch pids or priorities
  cases a with
  | schedule => cases hs
  | tick =>
      cases hs
      exact .steady ⟨fun _ => ⟨rfl, id, id⟩, rfl⟩
  | wakeup chan =>
      cases hs
      exact .steady (wakeup1_steady s chan)
  | yield =>
      simp only [nextRunning, Option.ite_none_left_eq_some, Option.some.injEq] at hs
      rcases hs with ⟨-, rfl⟩
      exact .steady (sched_steady s p lv (by decide))
  | sleep chan =>
      simp only [nextRunning] at hs
      split at hs
      · cases hs
        exact .steady (sleep_steady s p lv chan)
      · cases hs
        exact .steady (sleep_steady s p lv chan)
      · cases hs
  | kill pid =>
      simp only [nextRunning, Option.ite_none_right_eq_some, Option.some.injEq] at hs
      rcases hs with ⟨-, rfl⟩
      exact .steady (kill_steady s pid)
  | forkAlloc =>
      simp only [nextRunning, Option.ite_none_right_eq_some, Option.some.injEq] at hs
      rcases hs with ⟨-, rfl⟩
      exact forkAlloc_naming
  | forkFail =>
      simp only [nextRunning] at hs
      split at hs
      · next np hk =>
        cases hs
        have h : Steady s (s.setProc np fun q => { q with state := .UNUSED }) :=
          .setProc ⟨rfl, id, by simp⟩
        exact .steady ⟨h.proc, h.nextpid⟩
      · cases hs
  | forkDone =>
      simp only [nextRunning] at hs
      split at hs
      · next np hk =>
        cases hs
        exact .steady (forkDone_steady s p np)
      · cases hs
  | exitBegin =>
      simp only [nextRunning, Option.ite_none_right_eq_some] at hs
      exact .steady (exitBegin_steady hs.2)
  | exitEnd =>
      simp only [nextRunning, Option.ite_none_right_eq_some, Option.some.injEq] at hs
      rcases hs with ⟨-, rfl⟩
      exact .steady (exitEnd_steady s p lv)
  | wait =>
      simp only [nextRunning] at hs
      split at hs
      · cases hs
        exact wait_naming
      · cases hs
        exact wait_naming
      · cases hs
  | setPriority pid priority =>
      simp only [nextRunning, Option.ite_none_right_eq_some, Option.some.injEq] at hs
      exact .set pid priority rfl hs.2.symm
  | schedulerLock password =>
      simp only [nextRunning, Option.ite_none_right_eq_some] at hs
      exact .steady (schedulerLock_steady hs.2)
  | schedulerUnlock password =>
      simp only [nextRunning, Option.ite_none_right_eq_some] at hs
      exact .steady (schedulerUnlock_steady hs.2)

/-- How a step names slots. -/
theorem next_naming (hs : next s a = some s') : Naming a s s' := by
  unfold next at hs
  split at hs
  · exact nextRunning_naming hs
  · split at hs
    · exact .steady (schedule_steady hs)
    · cases hs
      exact .steady ⟨fun _ => ⟨rfl, id, id⟩, rfl⟩
    · cases hs
      exact .steady (wakeup1_steady s _)
    · cases hs

/-! ## Whole runs -/

/-- Who is dispatched was ready or asleep, as long as no ring is overfull. -/
theorem next_dispatched (hfits : Fits s) (ha : Aligned s) (hdict : DictInv s)
    (hs : next s a = some s') (hc : s.cpu = none) {q : Pidx} (hc' : s'.cpu = some (q, lv)) :
    (s.proc q).state = .RUNNABLE ∨ (s.proc q).state = .SLEEPING := by
  -- of the steps without a running process, the scheduler's alone dispatches
  have hsched : schedule s = some s' := by
    unfold next at hs
    rw [hc] at hs
    cases a with
    | schedule => exact hs
    | tick =>
        cases hs
        cases hc'
    | wakeup chan =>
        cases hs
        cases hc.symm.trans (show s.cpu = _ from hc')
    | _ => cases hs
  -- the dictator may sleep; what `pickLevel` gives can run
  unfold schedule at hsched
  split at hsched
  · rw [Option.map_eq_some_iff] at hsched
    rcases hsched with ⟨d, hd, rfl⟩
    cases hc'
    exact hdict.head hc _ hd
  · split at hsched
    · next p lv' s0 heq =>
      cases hsched
      cases hc'
      exact Or.inl (pickLevel_runnable ha (fun _ => hfits 2) (by rw [heq]))
    · next s0 heq =>
      cases hsched
      have hst := (pickLevel_rings s).still.cpu
      rw [heq] at hst
      cases (hst.trans hc).symm.trans hc'

/-- What a step does to a slot that is in use, or that a `fork` is filling. -/
structure Uses (s s' : St) : Prop where
  used : ∀ q, (s'.proc q).state ≠ .UNUSED → (s.proc q).state ≠ .UNUSED ∨
    (s.proc q).state = .UNUSED ∧ (s'.proc q).state = .EMBRYO
  fork : ∀ p np, s'.kont p = .fork np → (s'.proc np).state = .EMBRYO
  fork_inj : ∀ p p' np, s'.kont p = .fork np → s'.kont p' = .fork np → p = p'

/-- A slot in use keeps its pid while a step does not end it, and a new one has a new pid. -/
theorem Pids.uses (h : Pids s) (hfits : Fits s) (ha : Aligned s) (hdict : DictInv s)
    (hs : Mlfq.next s a = some s') : Uses s s' := by
  have heff := next_effect hs
  -- a slot being filled stays so while its `fork` goes on
  have hkeeps : ∀ p np, s.kont p = .fork np → s'.kont p = .fork np →
      (s'.proc np).state = .EMBRYO := by
    intro p np hk hk'
    have hemb := h.fork p np hk
    cases heff.proc np with
    | same h1 => rw [h1, hemb]
    | woken h1 => cases hemb.symm.trans h1
    | dispatched lv hc hc' =>
        rcases next_dispatched hfits ha hdict hs hc hc' with h1 | h1 <;> cases hemb.symm.trans h1
    | parked lv hc => cases hemb.symm.trans (hdict.running np lv hc)
    | allocated h1 => cases hemb.symm.trans h1
    | forked p' lv hc hk1 hk1' =>
        rcases h.fork_inj p p' np hk hk1 with rfl
        cases hk'.symm.trans hk1'
    | reaped h1 => cases hemb.symm.trans h1
  constructor
  · intro q hq
    cases heff.proc q with
    | same h1 => exact Or.inl (by rwa [h1] at hq)
    | woken h1 => exact Or.inl (by rw [h1]; decide)
    | dispatched lv hc hc' =>
        rcases next_dispatched hfits ha hdict hs hc hc' with h1 | h1 <;>
          exact Or.inl (by rw [h1]; decide)
    | parked lv hc => exact Or.inl (by rw [hdict.running q lv hc]; decide)
    | allocated h1 h2 => exact Or.inr ⟨h1, h2⟩
    | forked p lv hc hk => exact Or.inl (by rw [h.fork p q hk]; decide)
    | reaped h1 h2 => exact absurd h2 hq
  · intro p np hk'
    cases heff.kont with
    | kept hkept => exact hkeeps p np (hkept p np hk') hk'
    | forking p0 np0 lv hc hforks hu he =>
        rcases hforks p np hk' with hk | ⟨-, rfl⟩
        · exact hkeeps p np hk hk'
        · exact he
  · intro p p' np hk hk'
    cases heff.kont with
    | kept hkept => exact h.fork_inj p p' np (hkept p np hk) (hkept p' np hk')
    | forking p0 np0 lv hc hforks hu he =>
        -- the new slot was UNUSED, so no other `fork` had it
        have hnew : ∀ r, s.kont r = .fork np0 → False := by
          intro r hr
          cases (h.fork r np0 hr).symm.trans hu
        rcases hforks p np hk with h1 | ⟨rfl, rfl⟩
        · rcases hforks p' np hk' with h2 | ⟨rfl, rfl⟩
          · exact h.fork_inj p p' np h1 h2
          · exact (hnew p h1).elim
        · rcases hforks p' np hk' with h2 | ⟨rfl, -⟩
          · exact (hnew p' h2).elim
          · rfl

/-- Nothing is named in the step. -/
theorem Pids.same (h : Pids s) (hu : Uses s s') (hpid : ∀ q, (s'.proc q).pid = (s.proc q).pid)
    (hn : s'.nextpid = s.nextpid)
    (hemb : ∀ q, (s'.proc q).state = .EMBRYO → (s.proc q).state = .EMBRYO) : Pids s' := by
  refine ⟨by rw [hn]; exact h.pos, ?_, ?_, ?_, hu.fork, hu.fork_inj⟩
  · intro q
    rw [hpid, hn]
    exact h.below q
  · intro q r
    rw [hpid, hpid]
    exact h.uniq q r
  · intro q hq
    rw [hpid]
    rcases hu.used q hq with h1 | ⟨h1, h2⟩
    · exact h.named q h1
    · cases h1.symm.trans (hemb q h2)

/-- One slot is renamed in the step, to a pid that no other slot has. -/
theorem Pids.renamed (h : Pids s) (hu : Uses s s') {c : Pidx}
    (ho : ∀ q, q ≠ c → s'.proc q = s.proc q) (hpos : s.nextpid ≤ s'.nextpid)
    (hbelow : (s'.proc c).pid < s'.nextpid)
    (hnew : (s'.proc c).pid ≠ 0 → ∀ q, q ≠ c → (s.proc q).pid ≠ (s'.proc c).pid)
    (hnamed : (s'.proc c).state ≠ .UNUSED → (s'.proc c).pid ≠ 0) : Pids s' := by
  have h0 := h.pos
  refine ⟨by omega, ?_, ?_, ?_, hu.fork, hu.fork_inj⟩
  · intro q
    by_cases hq : q = c
    · rwa [hq]
    · have hb := h.below q
      rw [ho q hq]
      omega
  -- two processes with one pid: neither of them, or both, are the renamed one
  · intro q r heq hne
    by_cases hq : q = c
    · subst hq
      by_contra hr
      have hr : r ≠ q := fun h => hr h.symm
      rw [ho r hr] at heq
      exact hnew hne r hr heq.symm
    · by_cases hr : r = c
      · subst hr
        rw [ho q hq] at heq
        exact absurd heq (hnew (by rwa [← heq, ← ho q hq]) q hq)
      · rw [ho q hq, ho r hr] at heq
        rw [ho q hq] at hne
        exact h.uniq q r heq hne
  · intro q hq
    by_cases hqc : q = c
    · subst hqc
      exact hnamed hq
    · rw [ho q hqc] at hq ⊢
      exact h.named q hq

/-- `setPriority` leaves states and pids. -/
theorem setPriority_pids (hw : WfQ s) (pid v : Int) :
    (∀ q, ((setPriority s pid v).proc q).pid = (s.proc q).pid ∧
      ((setPriority s pid v).proc q).state = (s.proc q).state) ∧
    (setPriority s pid v).nextpid = s.nextpid := by
  rcases findPidLevels_cases hw pid with ⟨s1, hp, h, -⟩ | ⟨lv, pre, x, post, s1, -, hp, h⟩
  · rw [setPriority_absent v hp, h.proc, h.rest]
    exact ⟨fun _ => ⟨rfl, rfl⟩, rfl⟩
  · constructor
    · intro q
      rw [setPriority_proc hp h]
      split <;> exact ⟨rfl, rfl⟩
    · rw [setPriority_found v hp, h.rest]
      split <;> rfl

/-- A step from a state without an overfull ring. -/
theorem Pids.step (h : Pids s) (hfits : Fits s) (ha : Aligned s) (hdict : DictInv s)
    (hs : Mlfq.next s a = some s') : Pids s' := by
  have hu := h.uses hfits ha hdict hs
  have h0 := h.pos
  cases next_naming hs with
  | steady hst =>
      exact h.same hu (fun q => (hst.proc q).pid) hst.nextpid fun q => (hst.proc q).embryo
  -- a new pid is above all others
  | allocated np hnp hpid ho hn =>
      refine h.renamed hu ho (by omega) (by omega) ?_ ?_
      · intro _ q _
        have hb := h.below q
        omega
      · intro _
        omega
  -- a slot without a process has pid 0
  | reaped c hc ho hn =>
      refine h.renamed hu ho (by omega) (by omega) ?_ ?_
      · intro hne
        exact absurd hc.2.1 hne
      · intro hst
        exact absurd hc.1 hst
  | set pid v _ hset =>
      subst hset
      rcases setPriority_pids (hfits.wf ha) pid v with ⟨hproc, hn⟩
      refine h.same hu (fun q => (hproc q).1) hn fun q he => ?_
      rwa [← (hproc q).2]

/-! ## The results -/

/-- What holds in every state reached without an overfull ring. -/
structure PrioInv (s : St) : Prop where
  aligned : Aligned s
  dict : DictInv s
  pids : Pids s

/-- The first process alone is in order. -/
theorem PrioInv.init : PrioInv userinit := by
  refine ⟨Smp.userinit_aligned, userinit_dict, ?_, ?_, ?_, ?_, ?_, ?_⟩
  · decide
  · decide
  · decide
  · decide
  · intro p np hk
    cases hk
  · intro p p' np hk
    cases hk

theorem PrioInv.step (h : PrioInv s) (hfits : Fits s) (hs : next s a = some s') : PrioInv s' :=
  ⟨(next_effect hs).aligned h.aligned, h.dict.step (next_effect hs),
    h.pids.step hfits h.aligned h.dict hs⟩

/-- **When setPriority keeps the scheduling order**: in a state without an overfull
ring, if and only if the search ends a round of the queue in which it stops. -/
theorem order_kept_iff (hr : Reachable Init next s) (hfits : Fits s) (pid v : Int) :
    KeepsOrder s (setPriority s pid v) pid ↔ EndsRound s pid := by
  have ha : Aligned s := by
    refine hr.invariant Aligned ?_ ?_
    · rintro s0 rfl
      exact Smp.userinit_aligned
    · exact fun s0 a s1 h _ hs => (next_effect hs).aligned h
  exact keepsOrder_iff (hfits.wf ha) pid v

/-- The first process forks twice: slots 1 and 2 are in `mlfq[0]`. -/
def forkedTwice : List Act := [.schedule, .forkAlloc, .forkDone, .forkAlloc, .forkDone]

/-- What the run leads to. -/
structure TwoQueued (s : St) : Prop where
  queue : s.q 0 = [⟨1, by decide⟩, ⟨2, by decide⟩]
  first : (s.proc ⟨1, by decide⟩).pid = 2 ∧ (s.proc ⟨1, by decide⟩).state = .RUNNABLE
  last : (s.proc ⟨2, by decide⟩).pid = 3
  size : (s.mlfq 0).size ≤ NPROC
  rings : ∀ lv, lv ≠ 0 → s.mlfq lv = boot.mlfq lv

/-- The run of two forks goes through. -/
theorem forkedTwice_exec : ∃ s, exec next userinit forkedTwice = some s ∧ TwoQueued s := by
  refine ⟨_, rfl, by decide, by decide, by decide, by decide, ?_⟩
  intro lv hlv
  rcases lv with _ | _ | _ | lv
  · exact absurd rfl hlv
  · rfl
  · rfl
  · rfl

/-- Two entries fit into a ring. -/
theorem TwoQueued.fits (h : TwoQueued s) : Fits s := by
  intro lv
  by_cases hlv : lv = 0
  · subst hlv
    exact h.size
  · rw [h.rings lv hlv]
    exact Nat.zero_le _

/-- Slot 1, first in its queue, is overtaken because its priority is set. -/
theorem order_disturbed : ¬ ∀ s, Reachable Init next s →
    ∀ pid v, KeepsOrder s (setPriority s pid v) pid := by
  intro hall
  have hrun : ∃ s, exec next userinit forkedTwice = some s ∧
      (setPriority s 2 1).q 0 ≠ s.q 0 := by
    refine ⟨_, rfl, ?_⟩
    decide
  rcases hrun with ⟨s, hs, hne⟩
  exact hne ((hall s (reachable_exec (.init rfl) hs) 2 1).queues 0 (by decide))

/-- Slot 2, last in its queue, keeps its place. -/
theorem order_kept_last : ∃ s, s.q 0 = [⟨1, by decide⟩, ⟨2, by decide⟩] ∧
    KeepsOrder s (setPriority s 3 1) 3 := by
  rcases forkedTwice_exec with ⟨s, hs, h⟩
  refine ⟨s, h.queue, (order_kept_iff (reachable_exec (.init rfl) hs) h.fits 3 1).2 ?_⟩
  intro lv pre x post hx
  have hlast : Located s 3 0 [⟨1, by decide⟩] ⟨2, by decide⟩ [] := by
    refine ⟨by decide, h.queue, h.last, ?_, by simp⟩
    intro y hy
    rw [List.mem_singleton.1 hy, h.first.1]
    decide
  rcases hlast.unique hx with ⟨rfl, rfl, rfl, rfl⟩
  exact ⟨0, rfl⟩

/-- The calls of a run meet the condition. -/
def Obeys (s : St) (a : Act) : Prop :=
  Fits s ∧ ∀ pid v, a = .setPriority pid v → Served s pid v

/-- A step of such a run keeps all priorities in range. -/
theorem ranged_step (h : PrioInv s) (hok : Obeys s a) (hs : next s a = some s')
    (hrange : ∀ q, Ranged (s.proc q)) : ∀ q, Ranged (s'.proc q) := by
  intro q
  have hq := hrange q
  cases next_naming hs with
  | steady hst => exact (hst.proc q).ranged hq
  -- a new process starts with priority 3
  | allocated np hnp hpid ho hn =>
      by_cases hc : q = np
      · subst hc
        unfold Ranged
        rwa [hpid.2]
      · rwa [ho q hc]
  | reaped c hc ho hn =>
      by_cases hqc : q = c
      · subst hqc
        unfold Ranged
        rwa [hc.2.2]
      · rwa [ho q hqc]
  -- a priority that was set is one in range, for the step obeys
  | set pid v ha hset =>
      subst hset
      have hw := hok.1.wf h.aligned
      have ht := (takesEffect_iff hw h.pids pid v).2 (hok.2 pid v ha)
      by_cases hp : ((setPriority s pid v).proc q).priority = (s.proc q).priority
      · unfold Ranged
        rwa [hp]
      · rcases ht.nothing q hp with ⟨h0, h3, hal, hpid⟩
        unfold Ranged
        rw [ht.effect h0 h3 q hal hpid]
        exact ⟨h0, h3⟩

/-- **When setPriority takes effect**: in every state reached without an overfull
ring, if and only if the live process is in a queue and the request is a valid one;
and in a run all of whose calls are so, every priority stays in range. -/
theorem effective_iff (s : St) :
    (ReachOk Init next (fun s _ => Fits s) s → Fits s →
      ∀ pid v, TakesEffect s (setPriority s pid v) pid v ↔ Served s pid v) ∧
    (ReachOk Init next Obeys s →
      ∀ p, Alive (s.proc p) → 0 ≤ (s.proc p).priority ∧ (s.proc p).priority ≤ 3) := by
  constructor
  · intro hr hfits pid v
    have hinv : PrioInv s := by
      refine hr.invariant PrioInv ?_ ?_
      · rintro s0 rfl
        exact PrioInv.init
      · exact fun s0 a s1 h hok hs => h.step hok hs
    exact takesEffect_iff (hfits.wf hinv.aligned) hinv.pids pid v
  · intro hr p _
    have hinv : PrioInv s ∧ ∀ q, Ranged (s.proc q) := by
      refine hr.invariant (fun s => PrioInv s ∧ ∀ q, Ranged (s.proc q)) ?_ ?_
      · rintro s0 rfl
        exact ⟨PrioInv.init, by unfold Ranged; decide⟩
      · rintro s0 a s1 ⟨h, hrange⟩ hok hs
        exact ⟨h.step hok.1 hs, ranged_step h hok hs hrange⟩
    exact hinv.2 p

theorem fits_userinit : Fits userinit := by
  intro lv
  rcases lv with _ | lv
  · decide
  · exact Nat.zero_le _

/-- The first process is given priority 0 while it waits in `mlfq[0]`; then it is
dispatched. -/
theorem effective_iff_first : ((setPriority userinit 1 0).proc ⟨0, by decide⟩).priority = 0 ∧
    ∃ s, next userinit .schedule = some s ∧ 0 ≤ (s.proc ⟨0, by decide⟩).priority := by
  have hloc : Located userinit 1 0 [] ⟨0, by decide⟩ [] := by
    refine ⟨by decide, by decide, by decide, by simp, by simp⟩
  have hserved : Served userinit 1 0 := by
    constructor
    · decide
    · intro _ _ lv pre x post hx
      rcases hloc.unique hx with ⟨rfl, rfl, rfl, rfl⟩
      exact Or.inr ⟨by decide, by decide⟩
  constructor
  · have ht := ((effective_iff userinit).1 (.init rfl) fits_userinit 1 0).2 hserved
    exact ht.effect (by decide) (by decide) _ (by decide) (by decide)
  · obtain ⟨s, hs, hst⟩ : ∃ s, next userinit .schedule = some s ∧
        (s.proc ⟨0, by decide⟩).state = .RUNNING := ⟨_, rfl, by decide⟩
    have hok : Obeys userinit .schedule := ⟨fits_userinit, fun _ _ hn => nomatch hn⟩
    have hal : Alive (s.proc ⟨0, by decide⟩) := by
      unfold Alive
      rw [hst]
      decide
    exact ⟨s, hs, ((effective_iff s).2 (.step (.init rfl) hok hs) _ hal).1⟩

/-- The running process is in no queue, so a valid request about itself is lost. -/
theorem own_request_lost : ¬ ∀ s, Reachable Init next s →
    ∀ pid v, TakesEffect s (setPriority s pid v) pid v := by
  intro hall
  have hrun : ∃ s, exec next userinit [.schedule] = some s ∧
      (s.proc ⟨0, by decide⟩).state = .RUNNING ∧
      (s.proc ⟨0, by decide⟩).pid = 1 ∧
      ((setPriority s 1 0).proc ⟨0, by decide⟩).priority = 3 := by
    refine ⟨_, rfl, ?_⟩
    decide
  rcases hrun with ⟨s, hs, hst, hpid, h3⟩
  have hal : Alive (s.proc ⟨0, by decide⟩) := by
    unfold Alive
    rw [hst]
    decide
  have heff := (hall s (reachable_exec (.init rfl) hs) 1 0).effect (by decide)
    (by decide) _ hal hpid
  rw [h3] at heff
  cases heff

end Xv6.Mlfq
