import Xv6.Thread.Kill

/-!
# Setting a memory limit

`setmemorylimit` finds its process as `kill` does, by the pid alone. The limit 0
stands for no limit, and `growproc` and `pthread_exec` read it so; the comparison
with the size of the process does not.

* `setmemorylimit_iff_meant`: wherever the thread that calls it stands, and for every
  pid and limit, the call does what the comment above it says exactly if the slot
  that is found is meant (`Meant`);
* `limit_not_removed`: a process with memory cannot get rid of its limit.

That the limit is kept by the calls that grow a process is in `Thread.Limit`.
-/

namespace Xv6.Thread.Memlimit

open Xv6.Lib Prog Kill

variable {s s' : Kernel} {p q : Pidx} {i : Tidx} {pid limit : Int}

/-- The limit is within reach of process `x`. -/
def Allows (limit : Int) (x : Proc) : Prop := limit = 0 ∨ (x.sz : Int) ≤ limit

/-- The state once the limit of `q` has been set. -/
def limited (s : Kernel) (q : Pidx) (limit : Int) : Kernel :=
  s.setProc q fun x => { x with memlimit := limit.toNat }

/-- `setmemorylimit(pid, limit)` has returned `r` and done what its comment says. -/
structure Documented (s s' : Kernel) (pid limit r : Int) : Prop where
  accepted : ∀ q, LiveProc (s.proc q) → ((s.proc q).pid : Int) = pid → 0 ≤ limit →
    Allows limit (s.proc q) → r = 0 ∧ s' = limited s q limit
  refused : (0 ≤ limit → ∀ q, LiveProc (s.proc q) → ((s.proc q).pid : Int) = pid →
    ¬ Allows limit (s.proc q)) → r = -1 ∧ s' = s
  removed : limit = 0 → ∀ q, LiveProc (s.proc q) → ((s.proc q).pid : Int) = pid →
    ∀ n, overLimit (s'.proc q) n = false

/-- The slot that the search stops at. -/
def found (s : Kernel) (pid : Int) : Option Pidx :=
  findProc fun q => decide (((s.proc q).pid : Int) = pid)

/-- The slot that is found is that of a live process, and a limit of 0 is not asked of
one that has memory; or it is no process's and too large for the limit. -/
def Meant (s : Kernel) (pid limit : Int) : Prop :=
  0 ≤ limit → ∀ q, found s pid = some q →
    if LiveProc (s.proc q) then limit = 0 → (s.proc q).sz = 0 else limit < (s.proc q).sz

/-- `setmemorylimit` returns -1 and changes nothing, or sets the limit of the process it finds. -/
theorem setmemorylimit_run (s : Kernel) (pid limit : Int) :
    (limit < 0 ∨ found s pid = none ∨ ∃ q, found s pid = some q ∧ limit < (s.proc q).sz) ∧
      (setmemorylimit pid limit).run s = .ok (-1, s) ∨
    ∃ q, 0 ≤ limit ∧ found s pid = some q ∧ ((s.proc q).sz : Int) ≤ limit ∧
      (setmemorylimit pid limit).run s = .ok (0, limited s q limit) := by
  have h : Ends (setmemorylimit pid limit) s fun r s' =>
      (limit < 0 ∨ found s pid = none ∨ ∃ q, found s pid = some q ∧ limit < (s.proc q).sz) ∧
        r = -1 ∧ s' = s ∨
      ∃ q, 0 ≤ limit ∧ found s pid = some q ∧ ((s.proc q).sz : Int) ≤ limit ∧
        r = 0 ∧ s' = limited s q limit := by
    unfold setmemorylimit
    refine wp_ite (fun hneg => (wp_pure ..).2 (.inl ⟨.inl hneg, rfl, rfl⟩)) fun hpos => ?_
    rw [wp_bind, wp_get]
    cases hf : findProc fun q => decide (((s.proc q).pid : Int) = pid) with
    | none => exact (wp_pure ..).2 (.inl ⟨.inr (.inl hf), rfl, rfl⟩)
    | some q =>
        refine wp_ite (fun hgt => ?_) fun hle => ?_
        · exact (wp_pure ..).2 (.inl ⟨.inr (.inr ⟨q, hf, hgt⟩), rfl, rfl⟩)
        · rw [wp_bind, wp_setProc, wp_pure]
          exact .inr ⟨q, by omega, hf, by omega, rfl, rfl⟩
  rcases h.exists with ⟨r, s', hrun, hr⟩
  rcases hr with ⟨hno, rfl, rfl⟩ | ⟨q, hpos, hf, hle, rfl, rfl⟩
  · exact .inl ⟨hno, hrun⟩
  · exact .inr ⟨q, hpos, hf, hle, hrun⟩

theorem found_pid (h : found s pid = some q) : ((s.proc q).pid : Int) = pid := by
  simpa using findProc_some h

/-- The search stops at a live process with the pid, if there is one. -/
theorem found_live (hi : Ids s) (hd : Distinct s) (hq : LiveProc (s.proc q))
    (hpid : ((s.proc q).pid : Int) = pid) : found s pid = some q := by
  cases hf : found s pid with
  | none => exact absurd hpid (by simpa using findProc_none.1 hf q)
  | some r => rw [only_slot hi hd hq.1 hpid (found_pid hf)]

/-- It does what its comment says exactly for the arguments that are meant. -/
theorem documented_iff_meant (hi : Ids s) (hd : Distinct s) (pid limit : Int) :
    ∃ r s', (setmemorylimit pid limit).run s = .ok (r, s') ∧
      (Documented s s' pid limit r ↔ Meant s pid limit) := by
  rcases setmemorylimit_run s pid limit with ⟨hno, hrun⟩ | ⟨q, hpos, hf, hle, hrun⟩
  · refine ⟨-1, s, hrun, fun h => ?_, fun h => ?_⟩
    · intro hpos q hf
      rcases hno with hneg | hnone | ⟨r, hr, hlt⟩
      · omega
      · rw [hf] at hnone
        cases hnone
      · obtain rfl : q = r := Option.some.inj (hf.symm.trans hr)
        split
        · next hlive =>
            -- a live process would have been given the limit 0
            intro h0
            cases (h.accepted q hlive (found_pid hf) hpos (.inl h0)).1
        · exact hlt
    · have hbad : ∀ q, LiveProc (s.proc q) → ((s.proc q).pid : Int) = pid → 0 ≤ limit →
          ¬ Allows limit (s.proc q) := by
        intro q hlive hpid hpos hok
        have hf := found_live hi hd hlive hpid
        have hm := h hpos q hf
        rw [if_pos hlive] at hm
        rcases hno with hneg | hnone | ⟨r, hr, hlt⟩
        · omega
        · rw [hf] at hnone
          cases hnone
        · obtain rfl : q = r := Option.some.inj (hf.symm.trans hr)
          rcases hok with h0 | hle
          · have := hm h0
            omega
          · omega
      constructor
      · intro q hlive hpid hpos hok
        exact absurd hok (hbad q hlive hpid hpos)
      · intro _
        exact ⟨rfl, rfl⟩
      · intro h0 q hlive hpid
        exact absurd (.inl h0) (hbad q hlive hpid (by omega))
  · refine ⟨0, limited s q limit, hrun, fun h => ?_, fun h => ?_⟩
    · intro _ r hr
      obtain rfl : q = r := Option.some.inj (hf.symm.trans hr)
      split
      · intro h0
        omega
      · next hdead =>
          -- no live process has the pid, and the call should have failed
          have hno : ∀ r, LiveProc (s.proc r) → ((s.proc r).pid : Int) ≠ pid := by
            intro r hlive hpid
            have := found_live hi hd hlive hpid
            obtain rfl : q = r := Option.some.inj (hf.symm.trans this)
            exact hdead hlive
          cases (h.refused fun _ r hlive hpid => absurd hpid (hno r hlive)).1
    · have hm := h hpos q hf
      have hlive : LiveProc (s.proc q) := by
        by_contra hdead
        rw [if_neg hdead] at hm
        omega
      constructor
      · intro r hr hpid _ _
        rw [only_slot hi hd hlive.1 (found_pid hf) hpid]
        exact ⟨rfl, rfl⟩
      · intro hno
        exact absurd (.inr hle) (hno hpos q hlive (found_pid hf))
      · intro h0 r hr hpid n
        rw [only_slot hi hd hlive.1 (found_pid hf) hpid]
        simp [limited, overLimit, h0]

/-- **When setmemorylimit does what its comment says**: a thread on the CPU calls it, in
any state of any run and with any pid and limit; if and only if the slot that the search
stops at is meant. -/
theorem setmemorylimit_iff_meant {k : Cont} (h : OnCpu anyCall p i k s) (pid limit : Int) :
    ∃ r s', (setmemorylimit pid limit).run s = .ok (r, s') ∧
      (Documented s s' pid limit r ↔ Meant s pid limit) := by
  rcases onCpu_distinct h with ⟨hi, hd⟩
  exact documented_iff_meant hi hd pid limit

/-- The first process, with a limit of 8192. -/
def limitSet : List Label := [⟨0, 0, .setmemorylimit 1 8192, 0, 0⟩]

/-- It cannot get rid of it. -/
theorem limit_not_removed : ¬ ∀ p i k s, OnCpu anyCall p i k s →
    ∀ pid limit r s', (setmemorylimit pid limit).run s = .ok (r, s') →
      Documented s s' pid limit r := by
  intro hall
  have hrun : (run limitSet).map (fun s => (decide (Pickable s 0 0),
      decide (LiveProc ((s.dressed 0 0).proc 0)), ((s.dressed 0 0).proc 0).pid,
      ((s.dressed 0 0).proc 0).sz, ((s.dressed 0 0).proc 0).memlimit)) =
        some (true, true, 1, 4096, 8192) := by decide +kernel
  rcases Option.map_eq_some_iff.1 hrun with ⟨s, hs, hv⟩
  simp only [Prod.mk.injEq, decide_eq_true_eq] at hv
  rcases hv with ⟨hpick, hlive, hpid, hsz, hmem⟩
  have hcpu := run_onCpu hs hpick
  rcases onCpu_distinct hcpu with ⟨hi, hd⟩
  rcases documented_iff_meant hi hd 1 0 with ⟨r, s', hk, hiff⟩
  have hm := hiff.1 (hall 0 0 _ _ hcpu 1 0 r s' hk) (by omega) 0
    (found_live hi hd hlive (by omega))
  rw [if_pos hlive] at hm
  have := hm rfl
  omega

/-- The first process sets its limit to 8192. -/
theorem setmemorylimit_iff_meant_set : ∃ s s', (setmemorylimit 1 8192).run s = .ok (0, s') ∧
    (s.proc 0).memlimit = 0 ∧ (s'.proc 0).memlimit = 8192 := by
  have hrun : (run []).map (fun s => (decide (Pickable s 0 0),
      decide (LiveProc ((s.dressed 0 0).proc 0)), ((s.dressed 0 0).proc 0).pid,
      ((s.dressed 0 0).proc 0).sz, ((s.dressed 0 0).proc 0).memlimit)) =
        some (true, true, 1, 4096, 0) := by decide +kernel
  rcases Option.map_eq_some_iff.1 hrun with ⟨s, hs, hv⟩
  simp only [Prod.mk.injEq, decide_eq_true_eq] at hv
  rcases hv with ⟨hpick, hlive, hpid, hsz, hmem⟩
  have hcpu := run_onCpu hs hpick
  rcases onCpu_distinct hcpu with ⟨hi, hd⟩
  rcases setmemorylimit_iff_meant hcpu 1 8192 with ⟨r, s', hk, hiff⟩
  have hm : Meant (s.dressed 0 0) 1 8192 := by
    intro _ q hf
    obtain rfl : 0 = q := Option.some.inj ((found_live hi hd hlive (by omega)).symm.trans hf)
    rw [if_pos hlive]
    intro h0
    omega
  rcases (hiff.2 hm).accepted 0 hlive (by omega) (by omega) (.inr (by omega)) with ⟨hr, hs'⟩
  subst hr hs'
  exact ⟨s.dressed 0 0, _, hk, hmem, by simp [limited]⟩

end Xv6.Thread.Memlimit
