import Xv6.Fs.Calls
import Xv6.Lib.Transition

/-!
# The counts after any run of calls

Whatever calls the processes make, in any order, the count of a file structure is the
number of descriptors for it, no inode has fewer references than open files and current
directories, and no lock is kept. Symbolic links apart, it has no more.

* `counts_kept`: after any run of calls, with links or without;
* `counts_exact`: after a run in which no link is made or followed, the references
  of an inode are those of open files and current directories;
* `cache_unique`: no inode is in two entries of the cache.

The calls run one after the other (`perform`). What a call leaves is in
`Fs.Calls`, and `reachable_balanced` is the induction over the run.
-/

namespace Xv6.Fs

open Xv6.Lib Prog
open Mkfs (sb)

variable {s s' : Kernel} {p : Fin NPROC} {a : Entry → Int}

/-! ## One call -/

/-- The call makes no symbolic link, and does not follow one. -/
def Call.Direct (s : Kernel) (p : Fin NPROC) : Call → Prop
  | .read fd _ _ => Fs.Direct p fd s
  | .write fd _ _ => Fs.Direct p fd s
  | .exec path _ _ => ∀ ip s1, (namei p path).run s = .ok (some ip, s1) → Plain ip s1
  | .symlink _ _ => False
  | _ => True

/-- One call. -/
theorem call_left {c : Call} (hs : Balanced 0 a 0 s) (ha : 0 ≤ a) (hc : c.Allowed s p) :
    Returns (c.run p) s fun _ s' => Left a (c.Direct s p) s' := by
  have hall : ∀ {α : Type} {x : FM α}, Returns x s (fun _ s' => Balanced 0 a 0 s') →
      Returns (x >>= fun _ => pure ()) s fun _ s' => Left a (c.Direct s p) s' := by
    intro α x hx
    rw [Returns, wp_bind]
    exact wp.mono hx (fun _ _ hs' => (wp_pure ..).2 hs'.left) fun _ _ => trivial
  -- the calls that may follow a link leave references; the others keep the balance
  cases c with
  | «open» path omode => exact hall (sys_open_balanced hs ha)
  | read fd con n =>
      refine (wp_bind ..).2 (wp.mono (sys_read_left hs ha) ?_ fun _ _ => trivial)
      exact fun _ _ hl => (wp_pure ..).2 hl
  | write fd con src =>
      refine (wp_bind ..).2 (wp.mono (sys_write_left hs ha) ?_ fun _ _ => trivial)
      exact fun _ _ hl => (wp_pure ..).2 hl
  | close fd => exact hall (sys_close_balanced hs ha)
  | dup fd => exact hall (sys_dup_balanced hs)
  | fstat fd => exact hall (sys_fstat_balanced hs)
  | link old new => exact hall (sys_link_balanced hs ha)
  | unlink path => exact hall (sys_unlink_balanced hs ha)
  | mkdir path => exact hall (sys_mkdir_balanced hs ha)
  | mknod path major minor => exact hall (sys_mknod_balanced hs ha)
  | symlink old new =>
      refine (wp_bind ..).2 (wp.mono (sys_symlink_left hs ha) ?_ fun _ _ => trivial)
      exact fun _ _ hl => (wp_pure ..).2 hl
  | chdir path => exact hall (sys_chdir_balanced hs ha)
  | pipe mem => exact hall (sys_pipe_balanced hs ha)
  | fork child =>
      exact wp.mono (fork_balanced hs ha hc.1 hc.2) (fun _ _ hs' => hs'.left) fun _ _ => trivial
  | exit => exact wp.mono (exit_balanced hs ha) (fun _ _ hs' => hs'.left) fun _ _ => trivial
  | exec path con reads =>
      refine (wp_bind ..).2 (wp.mono (exec_left hs ha) ?_ fun _ _ => trivial)
      exact fun _ _ hl => (wp_pure ..).2 hl
  | sync => exact (wp_pure ..).2 hs.left

theorem task_empty_iff (t : Task) :
    t = ⟨none, fun _ => none⟩ ↔ t.cwd = none ∧ ∀ fd, t.ofile fd = none := by
  cases t
  simp [funext_iff]

/-! ## Every run -/

instance (s : Kernel) (p : Fin NPROC) (c : Call) : Decidable (c.Allowed s p) :=
  match c with
  | .fork child => decidable_of_iff ((s.task p).cwd ≠ none ∧ (s.task child).cwd = none ∧
      ∀ fd, (s.task child).ofile fd = none) (and_congr Iff.rfl (task_empty_iff _).symm)
  | .open .. | .read .. | .write .. | .close _ | .dup _ | .fstat _ | .link .. | .unlink _ | .mkdir _
  | .mknod .. | .symlink .. | .chdir _ | .pipe _ | .exit | .exec .. | .sync =>
      inferInstanceAs (Decidable ((s.task p).cwd ≠ none))

/-- A process makes a call, and the call returns. -/
def perform (s : Kernel) (e : Fin NPROC × Call) : Option Kernel :=
  if e.2.Allowed s e.1 then ((e.2.run e.1).run s).toOption.map Prod.snd else none

/-- A call that is performed is allowed and returns. -/
theorem perform_eq {e : Fin NPROC × Call} (h : perform s e = some s') :
    e.2.Allowed s e.1 ∧ (e.2.run e.1).run s = .ok ((), s') := by
  unfold perform at h
  split at h
  · next hc =>
      refine ⟨hc, ?_⟩
      cases hx : (e.2.run e.1).run s with
      | error _ => rw [hx] at h; cases h
      | ok r =>
          rw [hx] at h
          cases h
          rfl
  · cases h

/-- A step is a call of some process. -/
theorem step_iff_perform : Step s s' ↔ ∃ e, perform s e = some s' := by
  constructor
  · rintro ⟨p, c, hc, hrun⟩
    refine ⟨(p, c), ?_⟩
    unfold perform
    rw [if_pos hc, hrun]
    rfl
  · rintro ⟨e, h⟩
    have hp := perform_eq h
    exact ⟨e.1, e.2, hp.1, hp.2⟩

/-- The kernel has been started on a disk. -/
def Boots (s : Kernel) : Prop := ∃ d, s = boot d

/-- At boot every count is zero. -/
theorem boot_balanced (d : Disk) : Balanced 0 0 0 (boot d) where
  files := by
    intro f
    have hnone : descriptors (boot d) f = 0 := by
      refine tally_eq_zero_iff.2 fun p => tally_eq_zero_iff.2 fun fd => ?_
      exact if_neg (by simp [boot])
    rw [hnone]
    rfl
  refs := by
    intro j
    have hfile : tally File.refers (boot d).ftable j = 0 :=
      tally_eq_zero_iff.2 fun f => by rw [refers_none (by simp [boot])]; rfl
    -- only the first process has a directory
    have hcwd : tally Task.refers (boot d).task j = given (some 0) j := by
      unfold tally
      rw [Finset.sum_eq_single_of_mem 0 (Finset.mem_univ _)]
      · rfl
      · intro p _ hp
        unfold Task.refers boot
        simp only [if_neg hp]
        rfl
    unfold holders
    rw [hfile, hcwd, zero_add]
    by_cases hj : j = 0
    · rw [hj]
      rfl
    · rw [given_some, one_of_ne hj]
      unfold boot
      simp only [if_neg hj]
      rfl
  locks := by
    intro j
    have hfree : ((boot d).icache j).locked = false := by
      unfold boot
      dsimp only
      split <;> rfl
    rw [lockN_false.2 hfree]
    rfl
  free := fun _ _ => rfl
  unique := by
    have hzero : ∀ j, 1 ≤ ((boot d).icache j).ref → j = 0 := by
      intro j hj
      by_contra hne
      unfold boot at hj
      simp only [if_neg hne] at hj
      exact Nat.not_succ_le_zero 0 hj
    intro j j' hj hj' _
    rw [hzero j hj, hzero j' hj']

/-- Every reachable state is balanced, up to the references that were left. -/
theorem reachable_balanced (hr : Reachable Boots perform s) : ∃ a, 0 ≤ a ∧ Balanced 0 a 0 s := by
  refine hr.invariant (fun s => ∃ a, 0 ≤ a ∧ Balanced 0 a 0 s) ?_ ?_
  · rintro s ⟨d, rfl⟩
    exact ⟨0, le_refl 0, boot_balanced d⟩
  · rintro s e s' ⟨a, ha, hs⟩ _ hstep
    have hp := perform_eq hstep
    rcases wp.of_ok (call_left hs ha hp.1) hp.2 with ⟨b, hb, hs', _⟩
    exact ⟨a + b, fun j => Int.add_nonneg (ha j) (hb j), hs'⟩

/-- After any run of calls every count of a file structure is the number of its
descriptors, an inode has at least the references of the open files and the current
directories, and no lock is held. -/
theorem counts_kept (s : Kernel) (hr : Reachable Boots perform s) :
    (∀ f, (s.ftable f).ref = descriptors s f) ∧
      (∀ f, (s.ftable f).ref = 0 → (s.ftable f).type = .FD_NONE) ∧
        (∀ j, holders s j ≤ (s.icache j).ref) ∧ ∀ j, (s.icache j).locked = false := by
  rcases reachable_balanced hr with ⟨a, ha, hs⟩
  refine ⟨?_, hs.free, ?_, ?_⟩
  · intro f
    have hf := hs.files f
    rw [Pi.zero_apply, add_zero] at hf
    exact Int.natCast_inj.1 hf
  · intro j
    have hj := hs.refs j
    have h0 : 0 ≤ a j := ha j
    omega
  · intro j
    exact lockN_false.1 (Int.natCast_inj.1 (hs.locks j))

/-- A disk with the console `/c`. -/
def consoleDisk : Disk := rooted.disk.put 1 (writesb sb)

/-- `symlink("/", "/l")` leaves a reference to the link behind, and one to `/`. -/
theorem counts_kept_link : ∃ s : Kernel, (∀ j, holders s j ≤ (s.icache j).ref) ∧
    holders s 1 = 0 ∧ (s.icache 1).ref = 1 ∧ (s.icache 0).ref = 2 := by
  have hrun : (Lib.exec perform (boot consoleDisk) [(0, .symlink [SLASH] [SLASH, 108])]).map
      (fun s => (holders s 1, (s.icache 1).ref, (s.icache 0).ref)) = some (0, 1, 2) := by
    decide +kernel
  rcases Option.map_eq_some_iff.1 hrun with ⟨s, hs, hv⟩
  simp only [Prod.mk.injEq] at hv
  have h := counts_kept s (reachable_exec (.init ⟨consoleDisk, rfl⟩) hs)
  exact ⟨s, h.2.2.1, hv⟩

/-- After any run of calls no inode is in two entries of the cache, and what an open file
or a process refers to is in it. -/
theorem cache_unique (s : Kernel) (hr : Reachable Boots perform s) :
    (∀ j j', 1 ≤ (s.icache j).ref → 1 ≤ (s.icache j').ref →
      (s.icache j).inum = (s.icache j').inum → j = j') ∧
        (∀ f ip, (s.ftable f).type = .FD_INODE → (s.ftable f).ip = some ip →
          1 ≤ (s.icache ip).ref) ∧
          ∀ p ip, (s.task p).cwd = some ip → 1 ≤ (s.icache ip).ref := by
  rcases reachable_balanced hr with ⟨a, ha, hs⟩
  refine ⟨hs.unique, ?_, fun p ip hcwd => hs.cwd_pos ha hcwd⟩
  intro f ip htype hip
  have hr := hs.refs ip
  have h0 : 0 ≤ a ip := ha ip
  have hle := @refers_le_tally _ _ _ _ File.refers s.ftable f ip
  rw [refers_inode htype, hip, given_some, one_self] at hle
  unfold holders at hr
  omega

/-- `open("/c")` by two processes that have forked. -/
theorem cache_unique_console : ∃ s : Kernel, (s.ftable 0).ip = some 1 ∧ (s.ftable 1).ip = some 1 ∧
    (∀ j, 1 ≤ (s.icache j).ref → (s.icache 1).inum = (s.icache j).inum → 1 = j) := by
  have hrun : (Lib.exec perform (boot consoleDisk)
      [(0, .fork 1), (0, .open [SLASH, 99] 0), (1, .open [SLASH, 99] 0)]).map
        (fun s => ((s.ftable 0).type, (s.ftable 0).ip, (s.ftable 1).ip)) =
          some (.FD_INODE, some 1, some 1) := by
    decide +kernel
  rcases Option.map_eq_some_iff.1 hrun with ⟨s, hs, hv⟩
  simp only [Prod.mk.injEq] at hv
  have h := cache_unique s (reachable_exec (.init ⟨consoleDisk, rfl⟩) hs)
  exact ⟨s, hv.2.1, hv.2.2, fun j => h.1 1 j (h.2.1 0 1 hv.1 hv.2.1)⟩

/-- As long as no symbolic link is made or followed, an inode has no other references. -/
theorem counts_exact (s : Kernel)
    (hr : ReachOk Boots perform (fun s e => e.2.Direct s e.1) s) (j : Entry) :
    (s.icache j).ref = holders s j ∧
      ((s.icache j).ref = 0 ↔ (∀ f, (s.ftable f).type = .FD_INODE → (s.ftable f).ip ≠ some j) ∧
        ∀ p, (s.task p).cwd ≠ some j) := by
  -- along such a run nothing is left behind
  have hs : Balanced 0 0 0 s := by
    refine hr.invariant (Balanced 0 0 0) ?_ ?_
    · rintro s ⟨d, rfl⟩
      exact boot_balanced d
    · intro s e s' hs hd hstep
      have hp := perform_eq hstep
      rcases wp.of_ok (call_left hs (le_refl 0) hp.1) hp.2 with ⟨b, _, hs', hzero⟩
      rw [hzero hd] at hs'
      exact hs'.congr rfl (add_zero 0) rfl
  have hj := hs.refs j
  rw [Pi.zero_apply, add_zero] at hj
  have href : (s.icache j).ref = holders s j := Int.natCast_inj.1 hj
  have hgiven : ∀ r : Option Entry, given r j = 0 ↔ r ≠ some j := by
    rintro (_ | ip)
    · simp
    · rw [given_some]
      unfold one
      by_cases hip : j = ip
      · rw [if_pos hip, hip]
        simp
      · rw [if_neg hip]
        simpa using Ne.symm hip
  -- a count is zero when every term of it is
  refine ⟨href, ?_⟩
  rw [href]
  unfold holders
  rw [Nat.add_eq_zero_iff, tally_eq_zero_iff, tally_eq_zero_iff]
  refine and_congr (forall_congr' fun f => ?_) (forall_congr' fun p => hgiven _)
  by_cases htype : (s.ftable f).type = .FD_INODE
  · rw [refers_inode htype, hgiven]
    simp [htype]
  · rw [refers_none htype]
    simp [htype]

/-- `open("/c")`, `dup`, `fork`, and `close` by the parent. -/
theorem counts_exact_console : ∃ s : Kernel, (s.ftable 0).ref = 3 ∧ (s.icache 1).ref = 1 ∧
    ∀ j, (s.icache j).ref = holders s j := by
  have hrun : (Lib.exec perform (boot consoleDisk)
      [(0, .open [SLASH, 99] 0), (0, .dup 0), (0, .fork 1), (0, .close 0)]).map
        (fun s => ((s.ftable 0).ref, (s.icache 1).ref)) = some (3, 1) := by
    decide +kernel
  rcases Option.map_eq_some_iff.1 hrun with ⟨s, hs, hv⟩
  simp only [Prod.mk.injEq] at hv
  have hr : ReachOk Boots perform (fun s e => e.2.Direct s e.1) s := by
    refine ReachOk.exec (.init ⟨consoleDisk, rfl⟩) ?_ hs
    simp [Call.Direct]
  exact ⟨s, hv.1, hv.2, fun j => (counts_exact s hr j).1⟩

end Xv6.Fs
