import Mathlib.Data.Multiset.Range
import Mathlib.Data.Fintype.Card
import Mathlib.Tactic.Ring
import Xv6.Thread.Effect
import Xv6.Thread.Steady

/-!
# Recycled stacks

`thread_join` puts the base of the stack that it unmaps on `freed_sz`, and the
next `thread_create` takes it from there. Together the stacks in use and those in
the queue are always the first so many places behind the program, and the
process is as large as it was when most threads lived.

`stacks_recycled` says so of every state of every run that starts with a process
of one thread and an empty queue, in which nobody kills it and its threads call
neither `sbrk` nor `fork`, `exec` or `exit`; other processes do what they want.
`Counted` keeps beside the state the largest number of threads so far. The queue is
a ring (`Lib.Ring`), and it never overflows.
-/

namespace Xv6.Thread.Recycle

open Xv6.Lib Prog Steady

variable {s s' : Kernel} {p : Pidx} {i j th d : Tidx} {k sz0 : Nat}

/-! ## Unjoined threads -/

/-- Slot `j` holds a thread of process `p` that has been created and not joined. -/
def Unjoined (s : Kernel) (p : Pidx) (j : Tidx) : Prop :=
  (s.pthread j).state ≠ .UNUSED ∧ (s.pthread j).pid = (s.proc p).pid ∧
    j ≠ (s.proc p).main_thread_idx

instance (s : Kernel) (p : Pidx) (j : Tidx) : Decidable (Unjoined s p j) :=
  inferInstanceAs (Decidable (_ ∧ _ ∧ _))

def unjoined (s : Kernel) (p : Pidx) : Finset Tidx := Finset.univ.filter (Unjoined s p)

/-- The base of the stack of the thread in slot `j`. -/
def baseAt (s : Kernel) (p : Pidx) (j : Tidx) : Nat := baseOf (s.proc p) (s.pthread j).th_sz

def liveBases (s : Kernel) (p : Pidx) : Multiset Nat := (unjoined s p).val.map (baseAt s p)

/-- The main thread of `p` is in its slot. -/
structure MainHere (s : Kernel) (p : Pidx) : Prop where
  used : (s.pthread (s.proc p).main_thread_idx).state ≠ .UNUSED
  pid : (s.pthread (s.proc p).main_thread_idx).pid = (s.proc p).pid
  id : (s.pthread (s.proc p).main_thread_idx).thread_id = MAINTH

theorem mem_unjoined : j ∈ unjoined s p ↔ Unjoined s p j := by simp [unjoined]

/-- The bases in use depend on the slots that were not joined. -/
theorem liveBases_congr (hu : ∀ j, Unjoined s' p j ↔ Unjoined s p j)
    (hb : ∀ j, Unjoined s p j → baseAt s' p j = baseAt s p j) : liveBases s' p = liveBases s p := by
  have hset : unjoined s' p = unjoined s p := by
    ext j
    rw [mem_unjoined, mem_unjoined, hu]
  unfold liveBases
  rw [hset]
  apply Multiset.map_congr rfl
  intro j hj
  exact hb j (mem_unjoined.1 hj)

/-- One more thread. -/
theorem liveBases_insert (hn : ¬ Unjoined s p th)
    (hu : ∀ j, Unjoined s' p j ↔ j = th ∨ Unjoined s p j)
    (hb : ∀ j, Unjoined s p j → baseAt s' p j = baseAt s p j) :
    liveBases s' p = baseAt s' p th ::ₘ liveBases s p := by
  have hnot : th ∉ unjoined s p := fun h => hn (mem_unjoined.1 h)
  have hset : unjoined s' p = insert th (unjoined s p) := by
    ext j
    rw [Finset.mem_insert, mem_unjoined, mem_unjoined, hu]
  have hrest : (unjoined s p).val.map (baseAt s' p) = liveBases s p := by
    apply Multiset.map_congr rfl
    intro j hj
    exact hb j (mem_unjoined.1 hj)
  unfold liveBases at hrest ⊢
  rw [hset, Finset.insert_val_of_notMem hnot, Multiset.map_cons, hrest]

theorem card_liveBases : (liveBases s p).card = (unjoined s p).card := by
  unfold liveBases
  rw [Multiset.card_map]
  rfl

theorem card_unjoined_le : (unjoined s p).card ≤ NTHRD := by
  have h := Finset.card_le_univ (unjoined s p)
  rwa [Fintype.card_fin] at h

/-! ## Changes that do not touch the stacks -/

/-- The stacks of `p` are the same in both states. -/
structure Same (p : Pidx) (s s' : Kernel) : Prop where
  alive : Alive (s'.proc p)
  pid : (s'.proc p).pid = (s.proc p).pid
  sz : (s'.proc p).sz = (s.proc p).sz
  stacksz : (s'.proc p).stacksz = (s.proc p).stacksz
  freed_sz : (s'.proc p).freed_sz = (s.proc p).freed_sz
  main : (s'.proc p).main_thread_idx = (s.proc p).main_thread_idx
  member : ∀ j, (s'.pthread j).state ≠ .UNUSED ∧ (s'.pthread j).pid = (s.proc p).pid ↔
    (s.pthread j).state ≠ .UNUSED ∧ (s.pthread j).pid = (s.proc p).pid
  th : ∀ j, (s.pthread j).state ≠ .UNUSED → (s.pthread j).pid = (s.proc p).pid →
    (s'.pthread j).th_sz = (s.pthread j).th_sz ∧ (s'.pthread j).thread_id = (s.pthread j).thread_id

theorem Same.unjoined_iff (h : Same p s s') (j : Tidx) : Unjoined s' p j ↔ Unjoined s p j := by
  unfold Unjoined
  rw [h.pid, h.main]
  have := h.member j
  tauto

theorem Same.base_eq (h : Same p s s') (hj : Unjoined s p j) : baseAt s' p j = baseAt s p j := by
  unfold baseAt baseOf stackBytes
  rw [(h.th j hj.1 hj.2.1).1, h.stacksz]

/-- The main thread stays. -/
theorem Same.mainHere (h : Same p s s') (hm : MainHere s p) : MainHere s' p := by
  have hmem := (h.member _).2 ⟨hm.used, hm.pid⟩
  constructor
  · rw [h.main]
    exact hmem.1
  · rw [h.main, h.pid]
    exact hmem.2
  · rw [h.main, (h.th _ hm.used hm.pid).2]
    exact hm.id

theorem Same.card (h : Same p s s') : (unjoined s' p).card = (unjoined s p).card := by
  congr 1
  ext j
  rw [mem_unjoined, mem_unjoined, h.unjoined_iff]

/-- Picking a thread of another process. -/
theorem Same.dressed (ha : Alive (s.proc p)) {q : Pidx} (hp : Pickable s q i) :
    Same p s (s.dressed q i) := by
  by_cases hq : p = q
  · subst hq
    constructor <;> simp [Kernel.dressed, Alive, hp.2.1]
  · constructor <;> simp [Kernel.dressed, hq, ha]

/-- Process `p` still wears thread `i`. -/
structure Wearing (p : Pidx) (i : Tidx) (s : Kernel) : Prop where
  used : (s.pthread i).state ≠ .UNUSED
  pid : (s.pthread i).pid = (s.proc p).pid
  th_sz : (s.pthread i).th_sz = (s.proc p).th_sz
  thread_id : (s.pthread i).thread_id = (s.proc p).thread_id

theorem Wearing.dressed (hp : Pickable s p i) : Wearing p i (s.dressed p i) := by
  constructor <;> simp [Kernel.dressed, hp.2.1, hp.2.2]

/-- Going back to the scheduler: the slot of the thread gets what `p` has of it. -/
theorem Same.after {a : Label} {s1 : Kernel} {r : Outcome} (ha : Alive (s1.proc p))
    (hown : a.p = p → Wearing p a.i s1)
    (hother : a.p ≠ p → (s1.proc a.p).pid ≠ (s1.proc p).pid ∧
      ¬ ((s1.pthread a.i).state ≠ .UNUSED ∧ (s1.pthread a.i).pid = (s1.proc p).pid)) :
    Same p s1 (a.after s s1 r) := by
  by_cases hp : a.p = p
  · rcases hown hp with ⟨hu, hpid, hsz, hid⟩
    have hst := ha.1
    subst hp
    -- the thread of the step is one of the process: its slot takes over what it wore
    have hslot : ∀ j, j ≠ a.i → (a.after s s1 r).pthread j = s1.pthread j := fun j hj =>
      (after_th hj).1
    refine ⟨?_, after_pid _, ?_, ?_, ?_, ?_, fun j => ?_, fun j hj hj' => ?_⟩
    · cases r <;> simp [Label.left, Outcome.parked, Kernel.undressed, cleared, Alive, ha.2]
    · cases r <;> simp [Label.left, Outcome.parked, Kernel.undressed, cleared]
    · cases r <;> simp [Label.left, Outcome.parked, Kernel.undressed, cleared]
    · cases r <;> simp [Label.left, Outcome.parked, Kernel.undressed, cleared]
    · cases r <;> simp [Label.left, Outcome.parked, Kernel.undressed, cleared]
    · by_cases hj : j = a.i
      · subst hj
        cases r <;> simp [Label.left, Outcome.parked, Kernel.undressed, undress, hu, hpid, hst]
      · rw [hslot j hj]
    · by_cases hj : j = a.i
      · subst hj
        cases r <;> simp [Label.left, Outcome.parked, Kernel.undressed, undress, hsz, hid]
      · rw [hslot j hj]
        exact ⟨rfl, rfl⟩
  -- a thread of another process: its slot is none of those counted
  · rcases hother hp with ⟨hpid', hpid⟩
    have hproc : (a.after s s1 r).proc p = s1.proc p := after_proc (Ne.symm hp)
    refine ⟨?_, ?_, ?_, ?_, ?_, ?_, fun j => ?_, fun j hj hj' => ?_⟩
    · rw [hproc]
      exact ha
    all_goals try rw [hproc]
    · by_cases hj : j = a.i
      · subst hj
        rw [after_own.1]
        exact ⟨fun h => absurd h.2 hpid', fun h => absurd h hpid⟩
      · rw [(after_th hj).1]
    · by_cases hj : j = a.i
      · subst hj
        exact absurd ⟨hj, hj'⟩ hpid
      · rw [(after_th hj).1]
        exact ⟨rfl, rfl⟩

/-! ## The invariant -/

/-- Stack number `n` behind a program of `sz0` bytes. -/
def place (sz0 w n : Nat) : Nat := PGROUNDUP sz0 + n * w

/-- The stacks of `p`, when `k` is the largest number of unjoined threads so far. -/
structure Recycled (p : Pidx) (sz0 k : Nat) (s : Kernel) : Prop where
  alive : Alive (s.proc p)
  main : MainHere s p
  wf : (s.proc p).freed_sz.Wf
  start : sz0 ≤ KERNBASE
  most : k ≤ NTHRD
  sz : (s.proc p).sz = if k = 0 then sz0 else place sz0 (stackBytes (s.proc p)) k
  bases : liveBases s p + (s.proc p).freed_sz.toList =
    (Multiset.range k).map (place sz0 (stackBytes (s.proc p)))

/-- The stacks in use and the freed ones make up all that there were. -/
theorem Recycled.card (h : Recycled p sz0 k s) :
    (unjoined s p).card + (s.proc p).freed_sz.size = k := by
  have hcard := congrArg Multiset.card h.bases
  rw [Multiset.card_add, card_liveBases, Multiset.coe_card, Ring.length_toList, Multiset.card_map,
    Multiset.card_range] at hcard
  exact hcard

/-- What leaves the process alone keeps its stacks. -/
theorem Recycled.same (h : Recycled p sz0 k s) (hs : Same p s s') : Recycled p sz0 k s' where
  alive := hs.alive
  main := hs.mainHere h.main
  wf := by
    rw [hs.freed_sz]
    exact h.wf
  start := h.start
  most := h.most
  sz := by
    unfold stackBytes
    rw [hs.sz, hs.stacksz]
    exact h.sz
  bases := by
    rw [liveBases_congr hs.unjoined_iff fun j hj => hs.base_eq hj, hs.freed_sz, h.bases]
    unfold stackBytes
    rw [hs.stacksz]

/-! ## Places -/

theorem PGROUNDUP_aligned {n : Nat} (h : n % PGSIZE = 0) (hn : n ≤ KERNBASE) : PGROUNDUP n = n := by
  unfold PGROUNDUP
  rw [pgUp_eq hn]
  unfold pages PGSIZE at *
  omega

/-- Every place is a whole number of pages up. -/
theorem place_mod (sz0 n : Nat) (x : Proc) : place sz0 (stackBytes x) n % PGSIZE = 0 := by
  have hrw : place sz0 (stackBytes x) n = (pgUp sz0 + n * (x.stacksz + 1)) * PGSIZE := by
    unfold place stackBytes PGROUNDUP
    ring
  rw [hrw]
  exact Nat.mul_mod_left _ _

theorem place_mono {w m n : Nat} (h : m ≤ n) : place sz0 w m ≤ place sz0 w n :=
  Nat.add_le_add_left (Nat.mul_le_mul_right w h) _

theorem place_succ (w n : Nat) : place sz0 w (n + 1) = place sz0 w n + w := by
  unfold place
  ring

/-- The places of different stacks are different. -/
theorem place_inj {x : Proc} {m n : Nat} (h :
      place sz0 (stackBytes x) m = place sz0 (stackBytes x) n) :
    m = n := by
  have hpos : 0 < stackBytes x := Nat.mul_pos (Nat.succ_pos _) (by decide)
  unfold place at h
  exact Nat.eq_of_mul_eq_mul_right hpos (Nat.add_left_cancel h)

/-- All places up to the size of the process are below `KERNBASE`. -/
theorem Recycled.place_le (h : Recycled p sz0 k s) (hb : Bounded (s.proc p)) {n : Nat}
    (hn : n ≤ k) :
    place sz0 (stackBytes (s.proc p)) n ≤ KERNBASE := by
  have hsz := h.sz
  by_cases hk : k = 0
  · obtain rfl : n = 0 := by omega
    unfold place
    rw [Nat.zero_mul, Nat.add_zero]
    exact PGROUNDUP_le h.start
  · rw [if_neg hk] at hsz
    refine le_trans (place_mono hn) ?_
    rw [← hsz]
    exact hb.sz

/-- The next stack goes to a free place, or behind all others. -/
theorem Recycled.nextBase (h : Recycled p sz0 k s) (hb : Bounded (s.proc p)) :
    (∀ v r, (s.proc p).freed_sz.pop = some (v, r) → stackBase (s.proc p) = v) ∧
      ((s.proc p).freed_sz.pop = none →
        stackBase (s.proc p) = place sz0 (stackBytes (s.proc p)) k) := by
  refine ⟨fun v r hpop => ?_, fun hpop => ?_⟩
  -- a freed place is one of the first ones, so it is not 0 and below the size
  · have hlist := Ring.toList_pop h.wf hpop
    have hmem : v ∈ liveBases s p + (s.proc p).freed_sz.toList := by
      rw [hlist]
      exact Multiset.mem_add.2 (.inr List.mem_cons_self)
    rw [h.bases, Multiset.mem_map] at hmem
    rcases hmem with ⟨n, hn, hv⟩
    have hle := h.place_le hb (Nat.le_of_lt (Multiset.mem_range.1 hn))
    unfold Ring.pop at hpop
    split at hpop
    · cases hpop
    · next h0 =>
        have hcell : (s.proc p).freed_sz.cell (s.proc p).freed_sz.front = v :=
          congrArg Prod.fst (Option.some.inj hpop)
        unfold stackBase
        rw [if_pos h0, hcell, ← hv]
        exact PGROUNDUP_aligned (place_mod ..) hle
  -- nothing is freed: the next place is the one on top
  · have hempty := Ring.pop_eq_none.1 hpop
    have h0 : (s.proc p).freed_sz.size = 0 := by
      rw [← Ring.length_toList, hempty]
      rfl
    have hsz := h.sz
    unfold stackBase
    rw [if_neg (by simp [h0]), hsz]
    by_cases hk : k = 0
    · rw [if_pos hk, hk]
      simp [place]
    · rw [if_neg hk]
      exact PGROUNDUP_aligned (place_mod ..) (h.place_le hb le_rfl)

/-- The sum of `pthread_exec` does not wrap. -/
theorem Recycled.fits (h : Recycled p sz0 k s) (hb : Bounded (s.proc p)) :
    stackBase (s.proc p) + stackBytes (s.proc p) < 2 ^ 32 := by
  have hbase : stackBase (s.proc p) ≤ KERNBASE := by
    cases hpop : (s.proc p).freed_sz.pop with
    | none =>
        rw [(h.nextBase hb).2 hpop]
        exact h.place_le hb le_rfl
    | some x =>
        rcases x with ⟨v, r⟩
        rw [(h.nextBase hb).1 v r hpop]
        have hmem : v ∈ liveBases s p + (s.proc p).freed_sz.toList := by
          rw [Ring.toList_pop h.wf hpop]
          exact Multiset.mem_add.2 (.inr List.mem_cons_self)
        rw [h.bases, Multiset.mem_map] at hmem
        rcases hmem with ⟨n, hn, rfl⟩
        exact h.place_le hb (Nat.le_of_lt (Multiset.mem_range.1 hn))
  have hstack : stackBytes (s.proc p) ≤ 101 * PGSIZE := by
    unfold stackBytes
    exact Nat.mul_le_mul_right _ (Nat.succ_le_succ hb.stacksz)
  unfold KERNBASE at hbase
  unfold PGSIZE at hstack
  omega

/-! ## thread_create -/

/-- The variables of a process that `thread_create` and `thread_join` leave alone. -/
structure Frame (x y : Proc) : Prop where
  pid : y.pid = x.pid
  state : y.state = x.state
  stacksz : y.stacksz = x.stacksz
  main : y.main_thread_idx = x.main_thread_idx
  th_sz : y.th_sz = x.th_sz
  thread_id : y.thread_id = x.thread_id

/-- What `thread_create` leaves of the process if it succeeds: the queue without
its head, or a larger process. -/
inductive Placed (x y : Proc) : Prop
  | recycled (v : Nat) (hpop : x.freed_sz.pop = some (v, y.freed_sz)) (sz : y.sz = x.sz)
  | behind (hpop : x.freed_sz.pop = none) (freed_sz : y.freed_sz = x.freed_sz)
      (sz : y.sz = stackBase x + stackBytes x)

/-- What `pthread_exec` leaves. -/
structure Laid (p : Pidx) (th : Tidx) (s s' : Kernel) (ok : Bool) : Prop where
  frame : Frame (s.proc p) (s'.proc p)
  others : ∀ j, j ≠ th → s'.pthread j = s.pthread j
  fails : ok = false → s'.pthread th = s.pthread th ∧ (s'.proc p).sz = (s.proc p).sz ∧
    (s'.proc p).freed_sz = (s.proc p).freed_sz
  lays : ok = true → Placed (s.proc p) (s'.proc p) ∧ s'.pthread th =
    { s.pthread th with th_sz := stackBase (s.proc p) + stackBytes (s.proc p) }

/-- `pthread_exec` lays the stack in the freed place at the front of the queue, or on top. -/
theorem pthread_exec_laid (hfit : stackBase (s.proc p) + stackBytes (s.proc p) < 2 ^ 32) :
    wp (pthread_exec p th) s (fun ok s' => Laid p th s s' ok) fun _ => True := by
  -- the end of the stack does not wrap around
  have hsum : toUint (stackBase (s.proc p) + stackBytes (s.proc p)) =
      stackBase (s.proc p) + stackBytes (s.proc p) := by
    unfold toUint
    omega
  have hfail : ∀ (m : Kmem) (f : Proc → Proc), Frame (s.proc p) (f (s.proc p)) →
      (f (s.proc p)).sz = (s.proc p).sz → (f (s.proc p)).freed_sz = (s.proc p).freed_sz →
      Laid p th s ((s.setKmem m).setProc p f) false := by
    intro m f hf hsz hfreed
    refine ⟨by simpa using hf, fun _ _ => rfl, fun _ => ⟨rfl, ?_, ?_⟩, by simp⟩
    · simpa using hsz
    · simpa using hfreed
  unfold pthread_exec
  simp only [wp_bind, wp_get]
  refine wp_ite (fun _ => (wp_pure ..).2 ?_) fun _ => ?_
  · exact ⟨⟨rfl, rfl, rfl, rfl, rfl, rfl⟩, fun _ _ => rfl, fun _ => ⟨rfl, rfl, rfl⟩, by simp⟩
  rw [wp_bind]
  refine getPgdir_wp (E := fun _ => True) (fun pd _ => ?_) fun _ => trivial
  rw [wp_bind, wp_onKmem, hsum]
  refine wp.mono allocuvm_size ?_ fun _ he => he
  rintro ⟨pd1, sz⟩ m1 hr
  dsimp only at hr ⊢
  simp only [wp_bind, wp_setPgdir]
  refine wp_ite (fun _ => (wp_pure ..).2 (hfail _ _ ⟨rfl, rfl, rfl, rfl, rfl, rfl⟩ rfl rfl))
    fun h0 => ?_
  -- the memory has grown up to that end
  have hsz : sz = stackBase (s.proc p) + stackBytes (s.proc p) := by
    rcases hr with ⟨-, -, hr⟩ | ⟨hlt, -⟩ | hr
    · exact hr
    · omega
    · exact absurd hr h0
  simp only [wp_bind, wp_onKmem, wp_setPgdir]
  refine wp_any fun pd2 m2 => ?_
  refine wp_any fun ok m3 => ?_
  simp only [Kernel.setKmem_setProc, Kernel.setKmem_setKmem, Kernel.setProc_setProc]
  refine wp_ite (fun _ => (wp_pure ..).2 (hfail _ _ ⟨rfl, rfl, rfl, rfl, rfl, rfl⟩ rfl rfl))
    fun _ => ?_
  -- a recycled place, or one on top
  cases hpop : (s.proc p).freed_sz.pop with
  | some x =>
      rcases x with ⟨v, r⟩
      simp only [wp_bind, wp_setProc, wp_setTh, wp_pure, Kernel.setProc_setProc]
      refine ⟨?_, fun j hj => by simp [hj], by simp, fun _ => ⟨?_, ?_⟩⟩
      · constructor <;> simp
      · exact .recycled v (by simpa using hpop) (by simp)
      · simp [hsz]
  | none =>
      simp only [wp_bind, wp_setProc, wp_setTh, wp_pure, Kernel.setProc_setProc]
      refine ⟨?_, fun j hj => by simp [hj], by simp, fun _ => ⟨?_, ?_⟩⟩
      · constructor <;> simp
      · exact .behind hpop (by simp) (by simp [hsz])
      · simp [hsz]

/-- What a successful `thread_create` leaves, with the new thread in slot `th`. -/
structure Grown (p : Pidx) (th : Tidx) (s s' : Kernel) : Prop where
  free : (s.pthread th).state = .UNUSED
  frame : Frame (s.proc p) (s'.proc p)
  others : ∀ j, j ≠ th → s'.pthread j = s.pthread j
  placed : Placed (s.proc p) (s'.proc p)
  used : (s'.pthread th).state ≠ .UNUSED
  pid : (s'.pthread th).pid = (s.proc p).pid
  th_sz : (s'.pthread th).th_sz = stackBase (s.proc p) + stackBytes (s.proc p)

/-- Slots have changed only where they were free, and are free there. -/
structure Stuck (p : Pidx) (s s' : Kernel) : Prop where
  frame : Frame (s.proc p) (s'.proc p)
  sz : (s'.proc p).sz = (s.proc p).sz
  freed_sz : (s'.proc p).freed_sz = (s.proc p).freed_sz
  th : ∀ j, s'.pthread j = s.pthread j ∨
    (s.pthread j).state = .UNUSED ∧ (s'.pthread j).state = .UNUSED

/-- `thread_create` adds one stack, or has failed. -/
theorem thread_create_grown (hfit : stackBase (s.proc p) + stackBytes (s.proc p) < 2 ^ 32) :
    wp (thread_create p) s (fun _ s' => Stuck p s s' ∨ ∃ th, Grown p th s s') fun _ => True := by
  unfold thread_create pthread_fork
  simp only [wp_bind]
  refine allocthread_wp (fun _ => ?_) (fun d hd _ => ?_) fun n kst m hn _ _ => ?_
  -- no slot is free, or no page for the kernel stack
  · refine (wp_pure ..).2 ((wp_pure ..).2 (.inl ⟨?_, rfl, rfl, fun _ => .inl rfl⟩))
    exact ⟨rfl, rfl, rfl, rfl, rfl, rfl⟩
  · refine (wp_pure ..).2 ((wp_pure ..).2 (.inl ⟨?_, rfl, rfl, fun j => ?_⟩))
    · exact ⟨rfl, rfl, rfl, rfl, rfl, rfl⟩
    · by_cases hj : j = d
      · subst hj
        exact .inr ⟨hd, by simp [hd]⟩
      · exact .inl (by simp [hj])
  simp only [wp_bind, wp_setProc, wp_get, wp_setTh, wp_pure]
  refine (pthread_exec_laid ?_).mono (fun ok s1 h1 => ?_) fun _ he => he
  · simpa [stackBase, stackBytes] using hfit
  have hframe : Frame (s.proc p) (s1.proc p) := by
    have h := h1.frame
    constructor
    · simpa using h.pid
    · simpa using h.state
    · simpa using h.stacksz
    · simpa using h.main
    · simpa using h.th_sz
    · simpa using h.thread_id
  have hothers : ∀ j, j ≠ n → s1.pthread j = s.pthread j := by
    intro j hj
    simpa [hj] using h1.others j hj
  -- no user stack: the slot is given up; or the thread is made
  refine wp_ite (fun hok => ?_) fun hok => ?_
  · simp only [wp_bind, wp_setTh, wp_pure]
    rcases h1.fails hok with ⟨-, hsz, hfreed⟩
    refine .inl ⟨by simpa using hframe, by simpa using hsz, by simpa using hfreed, fun j => ?_⟩
    by_cases hj : j = n
    · subst hj
      exact .inr ⟨hn, by simp⟩
    · exact .inl (by simp [hj, hothers j hj])
  · simp only [wp_bind, wp_get, wp_setTh, wp_setCont, wp_pure]
    rcases h1.lays (by simpa using hok) with ⟨hplaced, hth⟩
    refine .inr ⟨n, hn, by simpa using hframe, fun j hj => ?_, ?_, by simp, ?_, ?_⟩
    · simp [hj, hothers j hj]
    · rcases hplaced with ⟨v, hpop, hsz⟩ | ⟨hpop, hfreed, hsz⟩
      · exact .recycled v (by simpa using hpop) (by simpa using hsz)
      · refine .behind (by simpa using hpop) (by simpa using hfreed) ?_
        simpa [stackBase, stackBytes] using hsz
    · simpa using hframe.pid
    · simp [hth, stackBase, stackBytes]

/-- A `thread_create` that fails consumes no place. -/
theorem Stuck.same (h : Stuck p s s') (ha : Alive (s.proc p)) : Same p s s' where
  alive := by
    unfold Alive
    rw [h.frame.state]
    exact ha
  pid := h.frame.pid
  sz := h.sz
  stacksz := h.frame.stacksz
  freed_sz := h.freed_sz
  main := h.frame.main
  member := fun j => by
    rcases h.th j with hj | ⟨h1, h2⟩
    · rw [hj]
    · simp [h1, h2]
  th := fun j hj _ => by
    rcases h.th j with hj' | ⟨h1, -⟩
    · rw [hj']
      exact ⟨rfl, rfl⟩
    · exact absurd h1 hj

/-- The threads that were not joined, and the new one. -/
theorem Grown.unjoined_iff (h : Grown p th s s') (hm : MainHere s p) (j : Tidx) :
    Unjoined s' p j ↔ j = th ∨ Unjoined s p j := by
  have hne : th ≠ (s.proc p).main_thread_idx := by
    intro he
    exact hm.used (he ▸ h.free)
  unfold Unjoined
  rw [h.frame.pid, h.frame.main]
  by_cases hj : j = th
  · subst hj
    simp [h.used, h.pid, hne]
  · rw [h.others j hj]
    simp [hj]

/-- A successful `thread_create` takes a free place, or the next one. -/
theorem Grown.recycled (h : Grown p th s s') (hr : Recycled p sz0 k s) (hb : Bounded (s.proc p)) :
    Recycled p sz0 (max k (unjoined s' p).card) s' := by
  have hnot : ¬ Unjoined s p th := fun hu => hu.1 h.free
  have hbytes : stackBytes (s'.proc p) = stackBytes (s.proc p) := by
    unfold stackBytes
    rw [h.frame.stacksz]
  have hbaseOf : ∀ n, baseOf (s'.proc p) n = baseOf (s.proc p) n := by
    intro n
    unfold baseOf
    rw [hbytes]
  -- one base in use more: that of the new stack
  have hlive : liveBases s' p = stackBase (s.proc p) ::ₘ liveBases s p := by
    rw [liveBases_insert hnot (h.unjoined_iff hr.main) fun j hj => ?_]
    · have hbase : baseAt s' p th = stackBase (s.proc p) := by
        have hfit := hr.fits hb
        unfold baseAt
        rw [hbaseOf, h.th_sz]
        unfold baseOf toUint
        omega
      rw [hbase]
    · have hne : j ≠ th := fun he => hnot (he ▸ hj)
      unfold baseAt
      rw [hbaseOf, h.others j hne]
  have hcount : (unjoined s' p).card = (unjoined s p).card + 1 := by
    rw [← card_liveBases, hlive, Multiset.card_cons, card_liveBases]
  have hcard := hr.card
  have halive : Alive (s'.proc p) := by
    unfold Alive
    rw [h.frame.state]
    exact hr.alive
  have hmain : MainHere s' p := by
    have hne : (s.proc p).main_thread_idx ≠ th := fun he => hr.main.used (he ▸ h.free)
    constructor
    · rw [h.frame.main, h.others _ hne]
      exact hr.main.used
    · rw [h.frame.main, h.others _ hne, h.frame.pid]
      exact hr.main.pid
    · rw [h.frame.main, h.others _ hne]
      exact hr.main.id
  rcases h.placed with ⟨v, hpop, hsz⟩ | ⟨hpop, hfreed, hsz⟩
  · -- the queue was not empty, so there have been more threads before
    have hlist := Ring.toList_pop hr.wf hpop
    have hlen : (s.proc p).freed_sz.size = (s'.proc p).freed_sz.size + 1 := by
      rw [← Ring.length_toList, hlist, List.length_cons, Ring.length_toList]
    have hmax : max k (unjoined s' p).card = k := by
      rw [hcount]
      omega
    rw [hmax]
    refine ⟨halive, hmain, Ring.wf_pop hr.wf hpop, hr.start, hr.most, ?_, ?_⟩
    · rw [hsz, hbytes]
      exact hr.sz
    · rw [hbytes, ← hr.bases, hlive, (hr.nextBase hb).1 v _ hpop, hlist, ← Multiset.cons_coe,
        Multiset.add_cons, Multiset.cons_add]
  · -- all places are in use
    have hempty := Ring.pop_eq_none.1 hpop
    have hsize : (s.proc p).freed_sz.size = 0 := by
      rw [← Ring.length_toList, hempty]
      rfl
    have hmax : max k (unjoined s' p).card = k + 1 := by
      rw [hcount]
      omega
    have hbase := (hr.nextBase hb).2 hpop
    rw [hmax]
    refine ⟨halive, hmain, ?_, hr.start, ?_, ?_, ?_⟩
    · rw [hfreed]
      exact hr.wf
    · rw [← hmax]
      exact max_le hr.most card_unjoined_le
    · rw [if_neg (Nat.succ_ne_zero k), hsz, hbase, hbytes, place_succ]
    · have hbases := hr.bases
      rw [hempty] at hbases
      rw [hbytes, hfreed, hempty, hlive, hbase, Multiset.range_succ, Multiset.map_cons,
        Multiset.cons_add, hbases]

/-! ## thread_join -/

/-- What `thread_join` leaves if it fails or sleeps. -/
structure Idle (p : Pidx) (s s' : Kernel) : Prop where
  same : Same p s s'
  th : s'.pthread = s.pthread
  th_sz : (s'.proc p).th_sz = (s.proc p).th_sz
  thread_id : (s'.proc p).thread_id = (s.proc p).thread_id

/-- What `thread_join` leaves if it finds a terminated thread, the one in slot `d`. -/
structure Shrunk (p : Pidx) (d : Tidx) (s s' : Kernel) : Prop where
  zombie : (s.pthread d).state = .THZOMBIE
  pid : (s.pthread d).pid = (s.proc p).pid
  id : (s.pthread d).thread_id ≠ MAINTH
  frame : Frame (s.proc p) (s'.proc p)
  others : ∀ j, j ≠ d → s'.pthread j = s.pthread j
  gone : (s'.pthread d).state = .UNUSED
  sz : (s'.proc p).sz = (s.proc p).sz
  freed_sz : (s'.proc p).freed_sz = (s.proc p).freed_sz.push (baseAt s p d)

/-- `thread_join` puts the place of the joined thread behind the others, or does nothing. -/
theorem joinScan_shrunk {t w : Nat} (ha : Alive (s.proc p)) (ht : t ≠ MAINTH) :
    wp (joinScan p t w) s (fun _ s' => Idle p s s' ∨ ∃ d, Shrunk p d s s') fun _ => True := by
  have hrefl : Idle p s s := by
    refine ⟨⟨ha, rfl, rfl, rfl, rfl, rfl, fun _ => Iff.rfl, fun _ _ _ => ⟨rfl, rfl⟩⟩, rfl, rfl, rfl⟩
  unfold joinScan
  simp only [wp_bind, wp_get]
  cases hf : findTh _ with
  | some d =>
      have hd := findTh_some hf
      simp only [mayJoin, Bool.decide_and, Bool.and_eq_true, decide_eq_true_eq] at hd
      rcases hd with ⟨⟨hpid, hid, -⟩, hz⟩
      unfold reapThread
      simp only [wp_bind, wp_get]
      refine kfreeStack_wp (fun m _ _ => ?_) fun _ _ => trivial
      simp only [wp_onKmem, wp_setTh, wp_setProc]
      refine getPgdir_wp (fun pd _ => ?_) fun _ => trivial
      simp only [wp_setPgdir, wp_pure]
      refine wp_any fun r m2 => .inr ⟨d, hz, hpid, ?_, ?_, fun j hj => ?_, ?_, ?_, ?_⟩
      · rw [hid]
        exact ht
      · constructor <;> simp
      · simp [hj]
      · simp
      · simp
      · simp [baseAt]
  | none =>
      refine wp_ite (fun _ => (wp_pure ..).2 (.inl hrefl)) fun _ => ?_
      refine sleep_wp (.inl ⟨?_, rfl, by simp, by simp⟩)
      constructor <;> simp [Alive]

/-- The threads that were not joined, without the one that is. -/
theorem Shrunk.unjoined_iff (h : Shrunk p d s s') (hm : MainHere s p) (j : Tidx) :
    Unjoined s p j ↔ j = d ∨ Unjoined s' p j := by
  have hne : d ≠ (s.proc p).main_thread_idx := by
    intro he
    exact h.id (he ▸ hm.id)
  unfold Unjoined
  rw [h.frame.pid, h.frame.main]
  by_cases hj : j = d
  · subst hj
    simp [h.zombie, h.pid, hne]
  · rw [h.others j hj]
    simp [hj]

/-- The place of a joined thread goes to the end of the queue. -/
theorem Shrunk.recycled (h : Shrunk p d s s') (hr : Recycled p sz0 k s) :
    Recycled p sz0 (max k (unjoined s' p).card) s' := by
  have hnot : ¬ Unjoined s' p d := fun hu => hu.1 h.gone
  have hbytes : stackBytes (s'.proc p) = stackBytes (s.proc p) := by
    unfold stackBytes
    rw [h.frame.stacksz]
  -- one base in use less, and it is behind the freed ones
  have hlive : liveBases s p = baseAt s p d ::ₘ liveBases s' p := by
    refine liveBases_insert hnot (h.unjoined_iff hr.main) fun j hj => ?_
    have hne : j ≠ d := fun he => hnot (he ▸ hj)
    unfold baseAt baseOf
    rw [hbytes, h.others j hne]
  have hcount : (unjoined s p).card = (unjoined s' p).card + 1 := by
    rw [← card_liveBases, hlive, Multiset.card_cons, card_liveBases]
  have hcard := hr.card
  have hmax : max k (unjoined s' p).card = k := by omega
  -- the queue of the freed places is not full
  have hroom : (s.proc p).freed_sz.size < NTHRD := by
    have := hr.most
    omega
  have hne : (s.proc p).main_thread_idx ≠ d := by
    intro he
    exact h.id (he ▸ hr.main.id)
  rw [hmax]
  refine ⟨?_, ⟨?_, ?_, ?_⟩, ?_, hr.start, hr.most, ?_, ?_⟩
  · unfold Alive
    rw [h.frame.state]
    exact hr.alive
  · rw [h.frame.main, h.others _ hne]
    exact hr.main.used
  · rw [h.frame.main, h.others _ hne, h.frame.pid]
    exact hr.main.pid
  · rw [h.frame.main, h.others _ hne]
    exact hr.main.id
  · rw [h.freed_sz]
    exact Ring.wf_push hr.wf hroom _
  · rw [h.sz, hbytes]
    exact hr.sz
  · rw [hbytes, ← hr.bases, hlive, h.freed_sz, Ring.toList_push hr.wf hroom, ← Multiset.coe_add,
      Multiset.coe_singleton, Multiset.cons_add, ← Multiset.singleton_add, ← Multiset.add_assoc]
    exact Multiset.add_comm _ _

/-! ## Other calls -/

/-- No slot has become one of process `pid`. -/
def NoNew (pid : Nat) (s s' : Kernel) : Prop :=
  ∀ j, (s'.pthread j).state ≠ .UNUSED → (s'.pthread j).pid = pid →
    (s.pthread j).state ≠ .UNUSED ∧ (s.pthread j).pid = pid

section

variable {pid : Nat} {α : Type}

theorem NoNew.trans {s1 s2 s3 : Kernel} (h : NoNew pid s1 s2) (h' : NoNew pid s2 s3) :
    NoNew pid s1 s3 := fun j hu hp => by
  rcases h' j hu hp with ⟨hu2, hp2⟩
  exact h j hu2 hp2

theorem NoNew.of_th (h : s'.pthread = s.pthread) : NoNew pid s s' := fun j hu hp => by
  rw [h] at hu hp
  exact ⟨hu, hp⟩

/-- A wakeup adds no thread. -/
theorem NoNew.woken (s : Kernel) (c : Chan) : NoNew pid s (s.woken c) := fun j hu hp => by
  have hk := wake_kept c (s.pthread j)
  have hp' : (wake c (s.pthread j)).pid = pid := hp
  rw [hk.pid] at hp'
  refine ⟨fun h0 => hu ?_, hp'⟩
  show (wake c (s.pthread j)).state = .UNUSED
  unfold wake
  rw [if_neg (by simp [h0])]
  exact h0

theorem sleep_noNew {c : Chan} {k' : Cont} :
    wp (sleep p c k') s (fun _ s' => NoNew pid s s') fun _ => True := by
  exact sleep_wp (.of_th rfl)

/-- A call into the rest of the kernel adds none. -/
theorem inside_noNew {c : Cont} {w z : Option Chan} :
    wp (inside p c w z) s (fun _ s' => NoNew pid s s') fun _ => True := by
  refine inside_wp (NoNew pid s) (NoNew pid s) (.of_th rfl) (.of_th rfl) ?_ ?_ ?_
  · intro s1 h
    exact ⟨h, fun c _ => h.trans (.woken s1 c)⟩
  · intro s1 ch h _
    exact sleep_wp (h.trans (.of_th rfl))
  · intro s1 h _
    unfold yieldInside
    simp only [wp_bind, wp_setProc]
    exact sched_wp (fun _ => trivial) fun _ => (wp_pure ..).2 (h.trans (.of_th rfl))

/-- Nor does `kill`. -/
theorem kill_noNew {n : Int} (hn : n ≠ pid) :
    wp (kill n) s (fun _ s' => NoNew pid s s') fun _ => True := by
  refine kill_wp (.of_th rfl) fun q _ j hu hp => ?_
  by_cases hj : ((s.pthread j).pid : Int) = n
  · -- a slot that `kill` marks has the pid it was given
    exfalso
    dsimp only at hp
    rw [if_pos hj] at hp
    exact hn (by rw [← hj, ← hp])
  · dsimp only at hu hp
    rw [if_neg hj] at hu hp
    exact ⟨hu, hp⟩

/-- Nor does clearing slots. -/
theorem reapThreads_noNew {z : Nat} {ths : List Tidx} :
    wp (reapThreads p z ths) s (fun _ s' => NoNew pid s s') fun _ => True := by
  induction ths generalizing s with
  | nil => exact (wp_pure ..).2 (.of_th rfl)
  | cons th ths ih =>
      unfold reapThreads deleteThread
      simp only [wp_bind, wp_get]
      refine wp_ite (fun _ => ?_) fun _ => ih
      simp only [wp_bind, wp_get]
      refine kfreeStack_wp (fun m _ _ => ?_) fun _ _ => trivial
      rw [wp_setTh]
      refine ih.mono (fun _ s2 h => NoNew.trans (fun j hu hp => ?_) h) fun _ he => he
      by_cases hj : j = th
      · subst hj
        simp at hu
      · simpa [hj] using And.intro hu hp

/-- Nor does `wait`. -/
theorem waitScan_noNew : wp (waitScan p) s (fun _ s' => NoNew pid s s') fun _ => True := by
  unfold waitScan
  simp only [wp_bind, wp_get]
  cases findProc _ with
  | some c =>
      unfold reapProc
      simp only [wp_bind, wp_get]
      have hreap : wp (reapThreads p (s.proc c).pid (List.finRange NTHRD)) s
          (fun _ s1 => NoNew pid s s1) fun _ => True := reapThreads_noNew
      refine hreap.mono (fun _ s1 h => ?_) fun _ he => he
      cases (s.proc c).pgdir with
      | none => exact wp_halt.2 trivial
      | some pd =>
          rw [wp_bind, wp_onKmem]
          refine wp_any fun _ m => ?_
          simp only [wp_setProc, wp_pure]
          exact h.trans (.of_th rfl)
  | none => exact wp_ite (fun _ => (wp_pure ..).2 (.of_th rfl)) fun _ => sleep_noNew

theorem setmemorylimit_noNew {n limit : Int} :
    wp (setmemorylimit n limit) s (fun _ s' => NoNew pid s s') fun _ => True :=
  setmemorylimit_quiet.mono (fun _ _ h => .of_th h.th) fun _ he => he

/-- A main thread does not get through `thread_exit`. -/
theorem thread_exit_noNew {retval : Nat} (h : Wears p i s) :
    wp (thread_exit p retval) s (fun _ s' => NoNew pid s s') fun _ => True := by
  unfold thread_exit
  simp only [wp_bind, wp_get]
  refine wp_ite (fun _ => ?_) fun _ => ?_
  · simp only [wp_bind, wakeup1_wp]
    refine (kill_effect (k := .user) h).mono (fun v s1 h1 => ?_) fun _ he => he
    refine sched_wp (fun _ => trivial) fun hn => absurd ?_ hn
    cases h1.parked with
    | ret _ hr => exact hr
  · simp only [wp_bind, wp_setTh, wp_setProc, wakeup1_wp]
    refine sched_wp (fun _ => trivial) fun _ => (wp_pure ..).2 ?_
    refine NoNew.trans (fun j hu hp => ?_) (.woken _ _)
    by_cases hj : j = (s.proc p).thread_idx
    · subst hj
      simpa using And.intro hu hp
    · simpa [hj] using And.intro hu hp

/-- The calls that make no thread in their process. -/
theorem call_noNew {c : Cont} {b : Call} (h : Wears p i s) (ht : touches c b = false)
    (hf : b.forks = false) (hk : b.kills ≠ some (pid : Int)) :
    wp (call p c b) s (fun _ s' => NoNew pid s s') fun _ => True := by
  -- only a fork, `thread_create`, a join, `exec` and a kill of this process could
  cases b with
  | yield => exact (wp_pure ..).2 (.of_th rfl)
  | sleep ch => exact sleep_noNew
  | wakeup ch =>
      unfold call
      simp only [wp_bind, wakeup1_wp, wp_pure]
      exact .woken s ch
  | inside w z => exact inside_noNew
  | thread_create => cases ht
  | thread_exit retval => exact thread_exit_noNew h
  | thread_join t w => cases ht
  | sbrk n => cases ht
  | fork => cases hf
  | exit => cases ht
  | wait => exact waitScan_noNew
  | exec elf argv => cases ht
  | exec2 elf argv n => cases ht
  | kill n =>
      unfold call
      rw [wp_bind]
      refine (kill_noNew fun he => hk (by rw [Call.kills, he])).mono
        (fun _ _ h => ?_) fun _ he => he
      exact (wp_pure ..).2 h
  | setmemorylimit n limit =>
      unfold call
      rw [wp_bind]
      exact setmemorylimit_noNew.mono (fun _ _ h => (wp_pure ..).2 h) fun _ he => he
  | resume w =>
      unfold call resume
      rw [wp_bind, wp_setProc]
      have h1 : NoNew pid s (s.setProc p fun x => { x with chan := .null }) := .of_th rfl
      cases c with
      | user => exact (wp_pure ..).2 h1
      | sleep => exact (wp_pure ..).2 h1
      | join t => cases ht
      | wait => exact waitScan_noNew.mono (fun _ _ h => h1.trans h) fun _ he => he

end

/-! ## Runs -/

/-- `sbrk`, `fork`, `exec` and `exit`. -/
def reshapes : Call → Bool
  | .sbrk _ | .fork | .exec _ _ | .exec2 _ _ _ | .exit => true
  | _ => false

/-- Nobody kills `p`, and its threads do not call `sbrk`, `fork`, `exec` or `exit`. -/
def OnlyThreads (p : Pidx) (s : Kernel) (a : Label) : Prop :=
  a.c.kills ≠ some ((s.proc p).pid : Int) ∧ (a.p = p → reshapes a.c = false)

/-- A thread that is marked stays in use. -/
theorem Marked.inUse {c : Call} {pid : Nat} {t : Pthread} {st : ProcState} (h : Marked c pid t st)
    (hu : t.state ≠ .UNUSED) : st ≠ .UNUSED := by
  cases h with
  | same => exact hu
  | woken => decide
  | killed => split <;> decide
  | exited => decide

/-- Only `kill` and `exit` mark a slot that is not in use. -/
theorem Marked.of_unused {c : Call} {pid : Nat} {t : Pthread} {st : ProcState}
    (h : Marked c pid t st)
    (h0 : t.state = .UNUSED) (hst : st ≠ .UNUSED) : c.kills = some (t.pid : Int) ∨ t.pid = pid := by
  cases h with
  | same => exact absurd h0 hst
  | woken _ h => exact absurd (h.symm.trans h0) (by decide)
  | killed hc => exact .inl hc
  | exited _ h => exact .inr h

/-- A call that makes no thread of `p` and ends none leaves the stacks as they are. -/
theorem Effect.same {a : Label} {s1 : Kernel} {r : Outcome}
    (he : Effect a.p a.i (s.cont a.i) a.c (s.dressed a.p a.i) s1 r) (hids : Ids s)
    (hp : Pickable s a.p a.i) (halive : Alive (s.proc p))
    (hkill : a.c.kills ≠ some ((s.proc p).pid : Int))
    (hst : Stays ((s.dressed a.p a.i).proc p) (s1.proc p))
    (hown : a.p = p → a.c.exits = false ∧ (joining (s.cont a.i) a.c).isSome = false ∧
      a.c.execs = false ∧ NoNew (s.proc p).pid (s.dressed a.p a.i) s1) :
    Same p (s.dressed a.p a.i) s1 := by
  have hpid : ((s.dressed a.p a.i).proc p).pid = (s.proc p).pid := (dressed_proc hp p).1
  have huse : InUse s p := halive.1
  have huseA : InUse s a.p := by
    unfold InUse
    rw [hp.1]
    decide
  -- another process has another pid
  have hne : a.p ≠ p → ((s.dressed a.p a.i).proc a.p).pid ≠ (s.proc p).pid := by
    intro hq h
    rw [(dressed_proc hp a.p).1] at h
    exact hq (hids.uniq a.p p huseA huse h)
  have hpid1 : (s1.proc p).pid = ((s.dressed a.p a.i).proc p).pid := by
    rcases (he.proc p).pid_cases hp.inUse with h | ⟨-, -, hf⟩ | h
    · exact h.1
    · exfalso
      have hfree := findProc_some hf
      simp only [decide_eq_true_eq] at hfree
      by_cases hq : p = a.p
      · rw [hq] at hfree
        exact hp.inUse hfree
      · rw [(dressed_proc hp p).2.2.2 hq] at hfree
        exact halive.1 hfree
    · exact absurd hst.alive.1 h.2
  have hslot : ∀ j, (s.pthread j).state ≠ .UNUSED → (s.pthread j).pid = (s.proc p).pid →
      Kept (s.pthread j) (s1.pthread j) ∧ (s1.pthread j).state ≠ .UNUSED := by
    intro j hu hj
    cases he.slot j with
    | kept hk hc hm => exact ⟨hk, Marked.inUse hm hu⟩
    | taken free => exact absurd free hu
    | joined hc hz hpid' stack gone =>
        exfalso
        by_cases hq : a.p = p
        · rw [(hown hq).2.1] at hc
          cases hc
        · exact hne hq (hpid'.symm.trans hj)
    | waited z hc hz hpp hpid' stack gone =>
        exfalso
        have hz' : z ≠ p := by
          rintro rfl
          exact hst.alive.2 (by
            have := hz
            by_cases hq : z = a.p
            · subst hq
              simp [Kernel.dressed] at this
            · rw [(dressed_proc hp z).2.2.2 hq] at this
              exact absurd this halive.2)
        have hzq : z ≠ a.p := by
          rintro rfl
          simp [Kernel.dressed] at hz
        rw [(dressed_proc hp z).2.2.2 hzq] at hz hpid'
        refine hz' (hids.uniq z p ?_ huse (hpid'.symm.trans hj))
        unfold InUse
        rw [hz]
        decide
    | deleted hc hpid' hid stack gone =>
        exfalso
        by_cases hq : a.p = p
        · rw [(hown hq).2.2.1] at hc
          cases hc
        · exact hne hq (hpid'.symm.trans hj)
  have hback : ∀ j, (s1.pthread j).state ≠ .UNUSED → (s1.pthread j).pid = (s.proc p).pid →
      (s.pthread j).state ≠ .UNUSED ∧ (s.pthread j).pid = (s.proc p).pid := by
    intro j hu hj
    by_cases hq : a.p = p
    · exact (hown hq).2.2.2 j hu hj
    cases he.slot j with
    | kept hk hc hm =>
        have hj' : (s.pthread j).pid = (s.proc p).pid := hk.pid.symm.trans hj
        refine ⟨fun h0 => ?_, hj'⟩
        rcases Marked.of_unused hm h0 hu with h | h
        · rw [← hj'] at hkill
          exact hkill h
        · exact hne hq (h.symm.trans hj')
    | taken free pid =>
        exfalso
        rcases pid with ⟨h0, -⟩ | h | h
        · exact hu h0
        · exact hne hq (h.symm.trans hj)
        · have := hids.proc_lt p
          have hn : (s.dressed a.p a.i).nextpid = s.nextpid := rfl
          omega
    | joined _ _ _ _ gone => exact absurd gone.state hu
    | waited _ _ _ _ _ _ gone => exact absurd gone.state hu
    | deleted _ _ _ _ gone => exact absurd gone.state hu
  refine ⟨hst.alive, hpid1, hst.sz, hst.stacksz, hst.freed_sz, hst.main, fun j => ?_,
    fun j hu hj => ?_⟩
  · rw [hpid]
    refine ⟨fun h => hback j h.1 h.2, fun h => ?_⟩
    rcases hslot j h.1 h.2 with ⟨hk, hu⟩
    exact ⟨hu, hk.pid.trans h.2⟩
  · rw [hpid] at hj
    rcases hslot j hu hj with ⟨hk, -⟩
    exact ⟨hk.th_sz, hk.thread_id⟩

/-! ## Steps -/

theorem Recycled.same_max (h : Recycled p sz0 k s) (hs : Same p s s') :
    Recycled p sz0 (max k (unjoined s' p).card) s' := by
  have hcard := h.card
  rw [hs.card, max_eq_left (by omega)]
  exact h.same hs

/-- The process wears its thread as before. -/
theorem Wearing.of_frame (h : Wearing p i s) (hf : Frame (s.proc p) (s'.proc p))
    (hi : s'.pthread i = s.pthread i) : Wearing p i s' := by
  constructor
  · rw [hi]
    exact h.used
  · rw [hi, hf.pid]
    exact h.pid
  · rw [hi, hf.th_sz]
    exact h.th_sz
  · rw [hi, hf.thread_id]
    exact h.thread_id

/-- What every call of a thread of `p` keeps that works on the stacks. -/
def Keeps (p : Pidx) (sz0 k : Nat) (i : Tidx) (s : Kernel) : Prop :=
  Recycled p sz0 (max k (unjoined s p).card) s ∧ Wearing p i s

/-- `thread_create` takes a place that nobody uses. -/
theorem thread_create_stacks (hw : Wearing p i s) (hr : Recycled p sz0 k s)
    (hb : Bounded (s.proc p)) :
    wp (thread_create p) s (fun _ => Keeps p sz0 k i) fun _ => True := by
  refine (thread_create_grown (hr.fits hb)).mono ?_ fun _ he => he
  rintro _ s' (hst | ⟨th, hg⟩)
  · refine ⟨hr.same_max (hst.same hr.alive), hw.of_frame hst.frame ?_⟩
    rcases hst.th i with hi | ⟨h0, -⟩
    · exact hi
    · exact absurd h0 hw.used
  · refine ⟨hg.recycled hr hb, hw.of_frame hg.frame (hg.others i ?_)⟩
    rintro rfl
    exact hw.used hg.free

/-- `thread_join` gives back the place of one thread. -/
theorem joinScan_stacks {t w : Nat} (hw : Wearing p i s)
    (hrun : (s.pthread i).state = .RUNNABLE) (hr : Recycled p sz0 k s) (ht : t ≠ MAINTH) :
    wp (joinScan p t w) s (fun _ => Keeps p sz0 k i) fun _ => True := by
  refine (joinScan_shrunk hr.alive ht).mono ?_ fun _ he => he
  rintro _ s' (hi | ⟨d, hd⟩)
  · refine ⟨hr.same_max hi.same, ?_⟩
    constructor
    · rw [hi.th]
      exact hw.used
    · rw [hi.th, hi.same.pid]
      exact hw.pid
    · rw [hi.th, hi.th_sz]
      exact hw.th_sz
    · rw [hi.th, hi.thread_id]
      exact hw.thread_id
  · refine ⟨hd.recycled hr, hw.of_frame hd.frame (hd.others i ?_)⟩
    rintro rfl
    have := hd.zombie
    rw [hrun] at this
    cases this

/-- The calls of `p` that work on its stacks. -/
theorem own_call {c : Cont} {b : Call} (hw : Wearing p i s)
    (hrun : (s.pthread i).state = .RUNNABLE) (hr : Recycled p sz0 k s) (hb : Bounded (s.proc p))
    (hc : c ≠ .join MAINTH) (ht : touches c b = true)
    (hre : reshapes b = false) : wp (call p c b) s (fun _ => Keeps p sz0 k i) fun _ => True := by
  -- of the calls that touch the sizes, those that the condition allows
  cases b with
  | thread_create =>
      unfold call
      rw [wp_bind]
      refine (thread_create_stacks hw hr hb).mono (fun r s1 h1 => ?_) fun _ he => he
      cases r <;> exact (wp_pure ..).2 h1
  | thread_join t w =>
      unfold call thread_join
      refine wp_ite (fun _ => (wp_pure ..).2 ?_) fun hmain => joinScan_stacks hw hrun hr hmain
      have hcard := hr.card
      refine ⟨?_, hw⟩
      rw [max_eq_left (by omega)]
      exact hr
  | resume w =>
      unfold call resume
      rw [wp_bind, wp_setProc]
      cases c with
      | join t =>
          have hs : Same p s (s.setProc p fun x => { x with chan := .null }) := by
            constructor <;> simp [hr.alive.1, hr.alive.2, Alive]
          refine joinScan_stacks ?_ hrun (hr.same hs) (by simpa using hc)
          refine hw.of_frame ?_ rfl
          constructor <;> simp
      | user => cases ht
      | sleep => cases ht
      | wait => cases ht
  | sbrk n => cases hre
  | fork => cases hre
  | exit => cases hre
  | exec elf argv => cases hre
  | exec2 elf argv n => cases hre
  | yield => cases ht
  | sleep c => cases ht
  | wakeup c => cases ht
  | inside w z => cases ht
  | thread_exit r => cases ht
  | wait => cases ht
  | kill pid => cases ht
  | setmemorylimit pid limit => cases ht

/-- A step of any thread of any process. -/
theorem step_recycled {a : Label} (hids : Ids s) (hb : Bounded (s.proc p)) (hj : JoinsNoMain s)
    (h : Recycled p sz0 k s) (hok : OnlyThreads p s a) (hs : next s a = some s') :
    Recycled p sz0 (max k (unjoined s' p).card) s' := by
  have hen := (next_some hs).1
  have hd : Same p s (s.dressed a.p a.i) := Same.dressed h.alive hen.1
  have hrd := h.same hd
  by_cases htouch : a.p = p ∧ touches (s.cont a.i) a.c = true
  -- a thread of the process creates or joins
  · rcases htouch with ⟨rfl, ht⟩
    have hbd : Bounded ((s.dressed a.p a.i).proc a.p) := by
      constructor
      · simpa [Kernel.dressed] using hb.sz
      · simpa [Kernel.dressed] using hb.stacksz
      · simpa [Kernel.dressed] using hb.limit
    have hcall := own_call (Wearing.dressed hen.1) hen.1.2.2 hrd hbd (hj a.i) ht (hok.2 rfl)
    rcases next_wp hcall hs with ⟨r, s1, ⟨hr1, hw1⟩, rfl⟩
    have hafter : Same a.p s1 (a.after s s1 r) :=
      Same.after hr1.alive (fun _ => hw1) fun hne => absurd rfl hne
    rw [hafter.card]
    exact hr1.same hafter
  · -- neither the sizes nor the threads of `p` change
    have hstay : ∀ q, q = p → ¬ (q = a.p ∧ touches (s.cont a.i) a.c = true) := by
      rintro q rfl ⟨rfl, ht⟩
      exact htouch ⟨rfl, ht⟩
    have hleaves : Spares (fun q => q = a.p ∧ touches (s.cont a.i) a.c = true)
        (call a.p (s.cont a.i) a.c) := call_spares fun ht => ⟨rfl, ht⟩
    have hnew : wp (call a.p (s.cont a.i) a.c) (s.dressed a.p a.i)
        (fun _ s1 => a.p = p → NoNew (s.proc p).pid (s.dressed a.p a.i) s1) fun _ => True := by
      by_cases hp : a.p = p
      · have ht : touches (s.cont a.i) a.c = false := by
          simpa [hp] using htouch
        have hf : a.c.forks = false := by
          have := hok.2 hp
          cases hc : a.c <;> simp [hc, reshapes, Call.forks] at this ⊢
        exact (call_noNew hen.1.wears ht hf hok.1).mono (fun _ _ h _ => h) fun _ he => he
      · exact wp_any fun _ _ hp' => absurd hp' hp
    obtain ⟨r, s1, ⟨⟨he, hl⟩, hnn⟩, rfl⟩ := next_wp
      (((call_effect hen.1.wears).and (hleaves _)).and hnew) hs
    have hst := hl.stays p (hstay p rfl) hrd.alive
    -- so the stacks of the process stay where they are
    have hsame : Same p (s.dressed a.p a.i) s1 := by
      refine Effect.same he hids hen.1 h.alive hok.1 hst fun hp => ?_
      have ht : touches (s.cont a.i) a.c = false := by
        simpa [hp] using htouch
      have hre := hok.2 hp
      refine ⟨?_, ?_, ?_, hnn hp⟩
      · cases hc : a.c <;> simp [hc, reshapes, Call.exits] at hre ⊢
      · cases hc : a.c with
        | thread_join t w => simp [hc, touches] at ht
        | resume w =>
            cases hk : s.cont a.i <;> simp [hc, hk, touches, joining] at ht ⊢
        | _ => rfl
      · cases hc : a.c <;> simp [hc, reshapes, Call.execs] at hre ⊢
    have hr1 := hrd.same_max hsame
    have hafter : Same p s1 (a.after s s1 r) := by
      refine Same.after hsame.alive (fun hp => ?_) fun hp => ?_
      · have hw : Wearing p a.i (s.dressed a.p a.i) := by
          rw [← hp]
          exact Wearing.dressed hen.1
        rcases hw with ⟨hu, hpid, hsz, hid⟩
        have hmem := (hsame.member a.i).2 ⟨hu, hpid⟩
        rcases hsame.th a.i hu hpid with ⟨hsz', hid'⟩
        constructor
        · exact hmem.1
        · rw [hmem.2, hsame.pid]
        · rw [hsz', hsz, hst.th_sz]
        · rw [hid', hid, hst.thread_id]
      · have hpid : ∀ q, ((s.dressed a.p a.i).proc q).pid = (s.proc q).pid := fun q =>
          (dressed_proc hen.1 q).1
        have hne : (s.proc a.p).pid ≠ (s.proc p).pid := by
          intro heq
          refine hp (hids.uniq a.p p ?_ h.alive.1 heq)
          unfold InUse
          rw [hen.1.1]
          decide
        constructor
        · rw [hsame.pid, hpid]
          rcases (he.proc a.p).pid_cases hen.1.inUse with h1 | ⟨-, -, hf⟩ | h1
          · rw [h1.1, hpid]
            exact hne
          · have hfree := findProc_some hf
            simp only [decide_eq_true_eq] at hfree
            exact absurd hfree hen.1.inUse
          · exact absurd he.parked.inUse h1.2
        · rw [hsame.pid, hsame.member, hpid]
          rintro ⟨-, hslot⟩
          exact hne (hen.1.2.1.symm.trans hslot)
    rw [hafter.card]
    exact hr1.same hafter

/-! ## Counting -/

/-- A kernel, with the largest number of unjoined threads of one process so far. -/
structure Counted where
  kernel : Kernel
  most : Nat

def step (p : Pidx) (x : Counted) (a : Label) : Option Counted :=
  (next x.kernel a).map fun s' => ⟨s', max x.most (unjoined s' p).card⟩

/-- Process `p` has its main thread, `sz0` bytes and an empty queue. -/
structure Start (p : Pidx) (sz0 : Nat) (x : Counted) : Prop where
  reachable : Reachable Init sliceNext x.kernel
  alive : Alive (x.kernel.proc p)
  main : MainHere x.kernel p
  only : ∀ j, ¬ Unjoined x.kernel p j
  empty : (x.kernel.proc p).freed_sz.size = 0
  sz : (x.kernel.proc p).sz = sz0
  most : x.most = 0

/-- A process with its main thread alone, and nothing freed. -/
theorem Start.recycled {x : Counted} (h : Start p sz0 x) : Recycled p sz0 x.most x.kernel := by
  have hal := aligned_slices.rests (Reachable.anyCall h.reachable) p
  have hlive : liveBases x.kernel p = 0 := by
    have hset : unjoined x.kernel p = ∅ := by
      ext j
      rw [mem_unjoined]
      simp [h.only j]
    unfold liveBases
    rw [hset]
    rfl
  have hlist : (x.kernel.proc p).freed_sz.toList = [] := by
    apply List.eq_nil_of_length_eq_zero
    rw [Ring.length_toList, h.empty]
  refine ⟨h.alive, h.main, ⟨hal.front_lt, hal.back_eq, ?_⟩, ?_, ?_, ?_, ?_⟩
  · rw [h.empty]
    exact Nat.zero_le _
  · rw [← h.sz]
    exact (allBounded_slices.rests (Reachable.anyCall h.reachable) p).sz
  · rw [h.most]
    exact Nat.zero_le _
  · rw [h.most, if_pos rfl, h.sz]
  · rw [h.most, hlive, hlist]
    rfl

/-- The states of a run in which `p` uses its threads only. -/
structure Good (p : Pidx) (sz0 : Nat) (x : Counted) : Prop where
  reachable : Reachable Init sliceNext x.kernel
  recycled : Recycled p sz0 x.most x.kernel

/-- Every step of the process's threads keeps its stacks at the first places. -/
theorem step_good (x : Counted) (a : Label) (x' : Counted) (h : Good p sz0 x)
    (hok : OnlyThreads p x.kernel a) (hs : step p x a = some x') : Good p sz0 x' := by
  unfold step at hs
  rcases Option.map_eq_some_iff.1 hs with ⟨s', hn, rfl⟩
  refine ⟨.step (a := ⟨a, []⟩) h.reachable trivial ((sliceNext_one a).trans hn), ?_⟩
  have hany := Reachable.anyCall h.reachable
  exact step_recycled (ids_slices.rests hany) (allBounded_slices.rests hany p)
    (reachable_joins h.reachable) h.recycled hok hn

/-- The stacks in use and those in the queue are the first so many places behind
the program, each once, and the process ends behind the last of them. -/
theorem stacks_recycled (p : Pidx) (sz0 : Nat) (x : Counted)
    (hr : ReachOk (Start p sz0) (step p) (fun y a => OnlyThreads p y.kernel a) x) :
    liveBases x.kernel p + (x.kernel.proc p).freed_sz.toList =
        (Multiset.range x.most).map (place sz0 (stackBytes (x.kernel.proc p))) ∧
      (liveBases x.kernel p + (x.kernel.proc p).freed_sz.toList).Nodup ∧
      (x.kernel.proc p).sz = (if x.most = 0 then sz0 else
        place sz0 (stackBytes (x.kernel.proc p)) x.most) ∧
      (x.kernel.proc p).freed_sz.size ≤ NTHRD := by
  have hgood : Good p sz0 x := by
    refine hr.invariant (Good p sz0) (fun y hy => ⟨hy.reachable, hy.recycled⟩) ?_
    intro y a y' hy hok hs
    exact step_good y a y' hy hok hs
  have h := hgood.recycled
  refine ⟨h.bases, ?_, h.sz, h.wf.size_le⟩
  rw [h.bases]
  refine Multiset.Nodup.map_on ?_ (Multiset.nodup_range _)
  intro m _ n _ heq
  exact place_inj heq

/-! ## A run -/

instance (p : Pidx) (s : Kernel) (a : Label) : Decidable (OnlyThreads p s a) :=
  inferInstanceAs (Decidable (_ ∧ _))

/-- The first process starts so. -/
theorem Started.start (h : Started p i s) (hr : Reachable Init sliceNext s) :
    Start p PGSIZE ⟨s, 0⟩ := by
  rcases h.proc with ⟨pd, kst, -, -, hproc⟩
  have hth := h.th
  rw [hproc] at hth
  refine ⟨hr, ?_, ⟨?_, ?_, ?_⟩, ?_, ?_, ?_, rfl⟩
  · simp [Alive, hproc]
  · simp [hproc, hth, undress]
  · simp [hproc, hth, undress]
  · simp [hproc, hth, undress]
  · rintro j ⟨hu, -, hj⟩
    rw [hproc] at hj
    rw [h.others j hj] at hu
    exact hu rfl
  · simp only [hproc]
    rfl
  · simp only [hproc]

/-- One thread is created, terminates and is joined. -/
def roundTrip : List Label :=
  [⟨0, 0, .thread_create, 0, 0⟩, ⟨0, 1, .thread_exit 7, 0, 0⟩, ⟨0, 0, .thread_join 2 0, 0, 0⟩]

/-- The place of the joined thread is in the queue. -/
theorem stacks_recycled_once : ∃ x : Counted, x.most = 1 ∧ (x.kernel.proc 0).freed_sz.size = 1 ∧
    liveBases x.kernel 0 + (x.kernel.proc 0).freed_sz.toList =
      (Multiset.range x.most).map (place PGSIZE (stackBytes (x.kernel.proc 0))) := by
  have hrun : (start.bind fun s => (Lib.exec (only (step 0) fun y a => OnlyThreads 0 y.kernel a)
    ⟨s, 0⟩
      roundTrip).map fun x => (s.initproc, x.most, (x.kernel.proc 0).freed_sz.size)) =
        some (0, 1, 1) := by
    decide +kernel
  rcases Option.bind_eq_some_iff.1 hrun with ⟨s, hs, hx⟩
  rcases Option.map_eq_some_iff.1 hx with ⟨x, hx, hv⟩
  simp only [Prod.mk.injEq] at hv
  rcases (start_init hs).started with ⟨p, th, hst⟩
  have hp : p = 0 := hst.initproc.symm.trans hv.1
  subst hp
  have hstart : Start 0 PGSIZE ⟨s, 0⟩ := Started.start hst (.init (start_init hs))
  exact ⟨x, hv.2.1, hv.2.2, (stacks_recycled 0 PGSIZE x ((ReachOk.init hstart).exec_only hx)).1⟩

end Xv6.Thread.Recycle
