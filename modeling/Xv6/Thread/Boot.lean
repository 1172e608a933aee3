import Xv6.Thread.Spec

/-!
# The first process

What `userinit` leaves, and a memory to boot from. `start_init` and `start_loaded`
say that the state the examples run from is an initial state of both systems of
`Thread.System`, and `run_reachable` and `runOnly_reachOk` that what a list of
labels leads to is reachable, in any run and in one with a condition. The memory
(`machine`) is that of a kernel that ends at `KERNLINK`; how the real machine comes
by its free pages is the subject of `Thread.Kinit`.
-/

namespace Xv6.Thread

open Xv6.Lib Prog

/-- The state after `userinit`: process `p` with its only thread `th`. -/
structure Started (p : Pidx) (th : Tidx) (s : Kernel) : Prop where
  initproc : s.initproc = p
  nextpid : s.nextpid = 2
  cont : ∀ j, s.cont j = .user
  other : ∀ q, q ≠ p → s.proc q = Proc.zero
  others : ∀ j, j ≠ th → s.pthread j = Pthread.zero
  proc : ∃ pd k, 0 < k ∧ pd.Has 0 ∧ s.proc p =
    { Proc.zero with
      pgdir := some pd, parent_proc := some p, parent_pthread := some th, thread_assign := 1
      stacksz := 1, pid := 1, sz := PGSIZE, main_thread_idx := th, th_sz := PGSIZE, kstack := k
      state := .RUNNABLE, tf := tfAt k, context := contextAt k, thread_id := MAINTH
      joiner_pthread := some th, thread_idx := th }
  th : s.pthread th = undress p (s.proc p) Pthread.zero

/-- `inituvm` maps the first page. -/
theorem inituvm_wp {pd : PageDir} {m : Kmem} (hpd : ∀ v, pd.entry v = none) (hm : 2 ≤ m.free) :
    Ends (inituvm pd) m fun pd' _ => pd'.Has 0 := by
  unfold inituvm
  rw [Ends, wp_bind]
  refine kalloc_wp (fun h0 => absurd hm (by omega)) fun r m1 _ h1 => ?_
  simp only [wp_bind]
  refine wp.mono (mappages_wp (fun h => ?_)) (fun x m2 hx => (wp_pure ..).2 ?_) fun _ he => he
  · simp [PageDir.Has, hpd] at h
  · have hok := hx.2.2 (by omega)
    simp [PageDir.Has, hx.1, hok]

/-- On a machine with enough pages `userinit` ends with the first process started. -/
theorem userinit_wp {m : Kmem} (hm : Booted m) :
    Ends userinit (boot m) fun _ s => ∃ p th, Started p th s := by
  have hlen : 1000 ≤ m.free := le_trans (by decide) hm.enough
  unfold userinit
  rw [Ends, wp_bind]
  refine allocproc_wp (fun h => ?_) (fun i _ h => ?_) fun p th k m1 _ _ _ hk h1 => ?_
  · rcases h with h | h
    · exact absurd rfl (h 0)
    · exact absurd rfl (h 0)
  · have h0 : m.free = 0 := h
    omega
  · have h1' : m.free = m1.free + 1 := h1
    simp only [wp_bind, wp_modify, wp_onKmem]
    refine wp.mono (setupkvm_ends (m := m1) ?_) (fun r m2 h2 => ?_) fun _ he => he
    · have : NKTABS = 64 := rfl
      omega
    rcases h2 with ⟨⟨pd, rfl, hpd⟩, h2⟩
    simp only [wp_bind, wp_onKmem]
    have h2' : m2.free + 65 = m1.free := h2
    refine wp.mono (inituvm_wp (m := m2) (entry_of_pde hpd) (by omega))
      (fun pd' m3 h3 => ?_) fun _ he => he
    simp only [wp_setPgdir, wp_get, wp_setProc, mvProcToThread_wp, clearProc_wp]
    refine ⟨p, th, ⟨rfl, rfl, fun _ => rfl, fun q hq => ?_, fun j hj => ?_,
      ⟨pd', k, hk, h3, ?_⟩, ?_⟩⟩
    · simp [Kernel.newProc, boot, hq]
    · simp [Kernel.newProc, boot, freshProc, hj]
    · simp [Kernel.newProc, boot, freshProc, cleared, Proc.zero]
    · simp [Kernel.newProc, boot, freshProc, freshTh, cleared, undress, Proc.zero, Pthread.zero]

theorem Init.started {s : Kernel} (h : Init s) : ∃ p th, Started p th s := by
  rcases h with ⟨m, hm, hrun⟩
  exact wp.of_ok (userinit_wp hm) hrun

/-! ## A memory -/

theorem frame_ge (n : Nat) :
    KERNBASE + 4 * 1024 * 1024 ≤ KERNBASE + 4 * 1024 * 1024 + n * PGSIZE := Nat.le_add_right _ _

/-- `n` free pages above the first 4 MB. -/
def framesFrom : Nat → List { v : Nat // KERNBASE + 4 * 1024 * 1024 ≤ v }
  | 0 => []
  | n + 1 => ⟨KERNBASE + 4 * 1024 * 1024 + n * PGSIZE, frame_ge n⟩ :: framesFrom n

/-- All the memory of the machine, with a kernel that ends at 4 MB. -/
def machine : Kmem := ⟨KERNBASE + 4 * 1024 * 1024, by decide, framesFrom 56320⟩

theorem framesFrom_length (n : Nat) : (framesFrom n).length = n := by
  induction n with
  | zero => rfl
  | succ n ih => rw [framesFrom, List.length_cons, ih]

/-- A frame lies above 4 MB, a whole number of pages up. -/
theorem mem_framesFrom {n : Nat} {v : { v : Nat // KERNBASE + 4 * 1024 * 1024 ≤ v }}
    (h : v ∈ framesFrom n) : ∃ k, k < n ∧ v.1 = KERNBASE + 4 * 1024 * 1024 + k * PGSIZE := by
  induction n with
  | zero => cases h
  | succ n ih =>
      rw [framesFrom, List.mem_cons] at h
      rcases h with rfl | h
      · exact ⟨n, by omega, rfl⟩
      · rcases ih h with ⟨k, hk, hv⟩
        exact ⟨k, by omega, hv⟩

/-- No frame is on the list twice. -/
theorem framesFrom_nodup (n : Nat) : (framesFrom n).Nodup := by
  induction n with
  | zero => exact List.nodup_nil
  | succ n ih =>
      refine List.nodup_cons.2 ⟨fun h => ?_, ih⟩
      rcases mem_framesFrom h with ⟨k, hk, hv⟩
      simp only [PGSIZE] at hv
      omega

/-- The machine has the pages that booting takes. -/
theorem machine_booted : Booted machine where
  frame := fun v hv => by
    rcases mem_framesFrom hv with ⟨k, hk, hv⟩
    rw [hv]
    simp only [KERNBASE, PGSIZE, V2P, PHYSTOP]
    omega
  nodup := framesFrom_nodup _
  enough := by
    show _ ≤ (framesFrom 56320).length
    rw [framesFrom_length]
    decide

/-- The state after `userinit` on this machine. -/
def start : Option Kernel :=
  match userinit.run (boot machine) with
  | .ok (_, s) => some s
  | .error _ => none

/-- The state after boot is one that a run may start with. -/
theorem start_init {s : Kernel} (h : start = some s) : Init s := by
  unfold start at h
  split at h
  · next hrun =>
      cases h
      exact ⟨machine, machine_booted, hrun⟩
  · cases h

/-- It is one with a loaded kernel too. -/
theorem start_loaded {s : Kernel} (h : start = some s) : Loaded s := by
  unfold start at h
  split at h
  · next hrun =>
      cases h
      exact ⟨machine, machine_booted, by decide, hrun⟩
  · cases h

/-- Where the calls of a list lead, as long as they meet `ok`. -/
def runOnly (ok : Kernel → Label → Prop) [∀ s a, Decidable (ok s a)] (as : List Label) :
    Option Kernel :=
  start.bind fun s => Lib.exec (only next ok) s as

/-- A run whose steps meet the condition. -/
theorem runOnly_reachOk {ok : Kernel → Label → Prop} [∀ s a, Decidable (ok s a)]
    {as : List Label} {s : Kernel} (h : runOnly ok as = some s) : ReachOk Init next ok s := by
  unfold runOnly at h
  rw [Option.bind_eq_some_iff] at h
  rcases h with ⟨s0, h0, h⟩
  exact (ReachOk.init (start_init h0)).exec_only h

/-- Where the calls of a list lead. -/
def run (as : List Label) : Option Kernel := start.bind fun s => Lib.exec next s as

/-- A run of steps reaches its end. -/
theorem run_reachable {as : List Label} {s : Kernel} (h : run as = some s) :
    Reachable Init next s := by
  unfold run at h
  rw [Option.bind_eq_some_iff] at h
  rcases h with ⟨s0, h0, h⟩
  exact reachable_exec (.init (start_init h0)) h

/-- The states that it reaches are states of runs of slices. -/
theorem run_callsOk {as : List Label} {s : Kernel} (h : run as = some s) : CallsOk anyCall s :=
  Reachable.callsOk (run_reachable h)

/-- A thread that is picked then is on the CPU. -/
theorem run_onCpu {as : List Label} {p : Pidx} {i : Tidx} {s : Kernel} (h : run as = some s)
    (hp : Pickable s p i) : OnCpu anyCall p i (s.cont i) (s.dressed p i) :=
  .picked (run_callsOk h) hp

end Xv6.Thread
