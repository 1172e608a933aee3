import Xv6.Thread.Effect
import Xv6.Thread.Pages

/-!
# The stacks of the processes in use

`wait` frees the kernel stack of every slot that carries the id of the zombie, and
then its directory. That comes to an end if each of these slots has a stack, no two
have the same, and the directory is made of pages that `kfree` takes. The ledger
here counts the slots that carry the id of a process in use, in whatever state
they are: a slot that `thread_create` has given up still has its stack and its id,
and one that `fork` has given up has an id that no process has any more.

What breaks it is `allocthread` without a page: it clears the stack of the slot that
it found, and leaves the id. `KeepsRoom` excludes that for slots that count.

Main results: `call_lodged`, what one call preserves; `Lodged.dressed` and
`Lodged.left`, the two ends of a time slice; `waitScan_lodged`, that one pass of
`wait` does not stop.
-/

namespace Xv6.Thread

open Xv6.Lib Prog

/-- The slot carries the id of a process in use. -/
def Counted (s : Kernel) (i : Tidx) : Prop :=
  ∃ q, InUse s q ∧ (s.pthread i).pid = (s.proc q).pid

/-- In a kernel that ends at `K`, every page that a process in use holds is one that
`kfree` takes, and is held once; each slot that counts has a stack, and each process
that has been set up a directory. -/
structure Lodged (K : Nat) (c : Option PageDir) (s : Kernel) : Prop where
  high : KERNBASE < K
  kend : s.kmem.kend = K
  pages : Pages (Counted s) (fun a => ¬ Frame K a) c s
  stack : ∀ i, Counted s i → (s.pthread i).kstack ≠ 0
  dir : ∀ q, Active (s.proc q) → (s.proc q).pgdir ≠ none
  ids : Ids s

variable {s s' : Kernel} {K : Nat} {c c' : Option PageDir} {p q : Pidx} {i j : Tidx} {m : Kmem}
  {k : Nat}

/-! ## What can be freed -/

namespace Lodged

theorem frame (h : Lodged K c s) (hi : Counted s i) : Frame K (s.pthread i).kstack := by
  by_contra hn
  cases h.pages.ledger.apart (.slot i) .wild _ ⟨hi, rfl, h.stack i hi⟩ hn

theorem framed {pd : PageDir} (h : Lodged K c s) (hq : Active (s.proc q))
    (hpd : (s.proc q).pgdir = some pd) : Framed K pd := by
  intro r a ha
  by_contra hn
  cases h.pages.ledger.apart (.dir q r) .wild _ ⟨hq, pd, hpd, ha⟩ hn

/-- Two threads that count have different kernel stacks. -/
theorem apart (h : Lodged K c s) (hi : Counted s i) (hj : Counted s j) (hne : i ≠ j) :
    (s.pthread i).kstack ≠ (s.pthread j).kstack := by
  intro heq
  have hown := h.pages.ledger.apart (.slot i) (.slot j) _ ⟨hi, rfl, h.stack i hi⟩
    ⟨hj, heq.symm, h.stack i hi⟩
  cases hown
  exact hne rfl

end Lodged

/-! ## Steps of the code -/

/-- A slot that counts counted before, if no process has come into use. -/
theorem Counted.of_same (hth : (s'.pthread j).pid = (s.pthread j).pid)
    (hproc : ∀ q, InUse s' q → InUse s q ∧ (s'.proc q).pid = (s.proc q).pid)
    (h : Counted s' j) : Counted s j := by
  rcases h with ⟨q, hq, hpid⟩
  rcases hproc q hq with ⟨hu, heq⟩
  exact ⟨q, hu, hth.symm.trans (hpid.trans heq)⟩

/-- Slots keep their stacks and ids, processes their ids and directories. -/
structure Same (s s' : Kernel) : Prop where
  kstack : ∀ j, (s'.pthread j).kstack = (s.pthread j).kstack
  pid : ∀ j, (s'.pthread j).pid = (s.pthread j).pid
  proc : ∀ q, (s'.proc q).pid = (s.proc q).pid
  used : ∀ q, InUse s' q → InUse s q
  dir : ∀ q, Active (s'.proc q) → Active (s.proc q) ∧ (s'.proc q).pgdir = (s.proc q).pgdir
  kmem : s'.kmem = s.kmem
  nextpid : s'.nextpid = s.nextpid

/-- Changing the memory alone changes no identity. -/
theorem Ids.same (h : Ids s) (hs : Same s s') : Ids s' where
  th_lt := fun j => by
    rw [hs.pid, hs.nextpid]
    exact h.th_lt j
  proc_lt := fun q => by
    rw [hs.proc, hs.nextpid]
    exact h.proc_lt q
  proc_ne := fun q hq => by
    rw [hs.proc]
    exact h.proc_ne q (hs.used q hq)
  uniq := fun q r hq hr heq => by
    rw [hs.proc, hs.proc] at heq
    exact h.uniq q r (hs.used q hq) (hs.used r hr) heq

/-- Nor who is lodged. -/
theorem Lodged.same (h : Lodged K c s) (hs : Same s s') : Lodged K c s' := by
  have hcount : ∀ j, Counted s' j → Counted s j := fun j =>
    Counted.of_same (hs.pid j) fun q hq => ⟨hs.used q hq, hs.proc q⟩
  refine ⟨h.high, (congrArg Kmem.kend hs.kmem).trans h.kend, ?_, ?_, ?_, h.ids.same hs⟩
  · refine h.pages.mono hs.kmem ?_
    intro o a ho
    cases o with
    | slot j => exact ⟨hcount j ho.1, (hs.kstack j).symm.trans ho.2.1, ho.2.2⟩
    | dir q r =>
        rcases ho with ⟨hact, pd, hpd, hr⟩
        rcases hs.dir q hact with ⟨hact, heq⟩
        exact ⟨hact, pd, heq ▸ hpd, hr⟩
    | code r => exact ho
    | wild => exact ho
  · intro j hj
    rw [hs.kstack]
    exact h.stack j (hcount j hj)
  · intro q hq
    rcases hs.dir q hq with ⟨hact, heq⟩
    rw [heq]
    exact h.dir q hact

namespace Same

/-- Assigning to other fields of a process. -/
theorem setProc {f : Proc → Proc} (hpid : (f (s.proc q)).pid = (s.proc q).pid)
    (hpd : (f (s.proc q)).pgdir = (s.proc q).pgdir)
    (hu : (f (s.proc q)).state ≠ .UNUSED → (s.proc q).state ≠ .UNUSED)
    (hact : Active (f (s.proc q)) → Active (s.proc q)) : Same s (s.setProc q f) := by
  refine ⟨fun _ => rfl, fun _ => rfl, fun r => ?_, fun r hr => ?_, fun r hr => ?_, rfl, rfl⟩
  all_goals by_cases hrq : r = q
  · subst hrq
    rw [Kernel.setProc_self, hpid]
  · rw [Kernel.setProc_ne hrq]
  · subst hrq
    unfold InUse at hr
    rw [Kernel.setProc_self] at hr
    exact hu hr
  · unfold InUse at hr
    rw [Kernel.setProc_ne hrq] at hr
    exact hr
  · subst hrq
    rw [Kernel.setProc_self] at hr ⊢
    exact ⟨hact hr, hpd⟩
  · rw [Kernel.setProc_ne hrq] at hr ⊢
    exact ⟨hr, rfl⟩

/-- Assigning to other fields of a slot. -/
theorem setTh {g : Pthread → Pthread} (hk : (g (s.pthread i)).kstack = (s.pthread i).kstack)
    (hpid : (g (s.pthread i)).pid = (s.pthread i).pid) : Same s (s.setTh i g) := by
  refine ⟨fun j => ?_, fun j => ?_, fun _ => rfl, fun _ h => h, fun _ h => ⟨h, rfl⟩, rfl, rfl⟩
  all_goals by_cases hji : j = i
  · subst hji
    rw [Kernel.setTh_self, hk]
  · rw [Kernel.setTh_ne hji]
  · subst hji
    rw [Kernel.setTh_self, hpid]
  · rw [Kernel.setTh_ne hji]

/-- Other states of slots. -/
theorem of_slots {g : Tidx → Pthread} (hk : ∀ j, (g j).kstack = (s.pthread j).kstack)
    (hpid : ∀ j, (g j).pid = (s.pthread j).pid) : Same s { s with pthread := g } :=
  ⟨hk, hpid, fun _ => rfl, fun _ h => h, fun _ h => ⟨h, rfl⟩, rfl, rfl⟩

theorem setCont (s : Kernel) (i : Tidx) (k : Cont) : Same s (s.setCont i k) :=
  ⟨fun _ => rfl, fun _ => rfl, fun _ => rfl, fun _ h => h, fun _ h => ⟨h, rfl⟩, rfl, rfl⟩

theorem woken (s : Kernel) (ch : Chan) : Same s (s.woken ch) :=
  .of_slots (fun _ => (wake_kept ch _).kstack) fun _ => (wake_kept ch _).pid

end Same

/-! ### Slots -/

variable {g : Pthread → Pthread}

/-- A slot may take any pid that was given. -/
theorem Ids.setTh (h : Ids s) (hpid : (g (s.pthread i)).pid < s.nextpid) : Ids (s.setTh i g) where
  th_lt := fun j => by
    by_cases hj : j = i
    · subst hj
      rw [Kernel.setTh_self]
      exact hpid
    · rw [Kernel.setTh_ne hj]
      exact h.th_lt j
  proc_lt := h.proc_lt
  proc_ne := h.proc_ne
  uniq := h.uniq

theorem counted_setTh (hj : j ≠ i) : Counted (s.setTh i g) j → Counted s j :=
  Counted.of_same (congrArg Pthread.pid (Kernel.setTh_ne hj g)) fun _ hq => ⟨hq, rfl⟩

namespace Lodged

/-- A slot takes a new page for its stack. -/
theorem newTh (h : Lodged K c s) (ht : Took s.kmem m k) (hk : (g (s.pthread i)).kstack = k)
    (hpid : (g (s.pthread i)).pid < s.nextpid) : Lodged K c ((s.setTh i g).setKmem m) where
  high := h.high
  kend := ht.kend.trans h.kend
  pages := h.pages.newTh ht hk fun _ hj hc => counted_setTh (s := s) (g := g) hj hc
  stack := by
    intro j hj
    have hpos := ht.pos
    by_cases hji : j = i
    · subst hji
      rw [Kernel.setKmem_pthread, Kernel.setTh_self, hk]
      omega
    · rw [Kernel.setKmem_pthread, Kernel.setTh_ne hji]
      exact h.stack j (counted_setTh (s := s) (g := g) hji hj)
  dir := h.dir
  ids := ⟨(h.ids.setTh hpid).th_lt, h.ids.proc_lt, h.ids.proc_ne, h.ids.uniq⟩

/-- A slot that does not count loses its stack. -/
theorem clearTh (h : Lodged K c s) (hi : ¬ Counted s i)
    (hpid : (g (s.pthread i)).pid = (s.pthread i).pid) :
    Lodged K c (s.setTh i g) := by
  have hne : ∀ j, Counted (s.setTh i g) j → j ≠ i ∧ Counted s j := by
    intro j hj
    have hji : j ≠ i := by
      rintro rfl
      rcases hj with ⟨q, hq, heq⟩
      rw [Kernel.setTh_self, hpid] at heq
      exact hi ⟨q, hq, heq⟩
    exact ⟨hji, counted_setTh hji hj⟩
  refine ⟨h.high, h.kend, ?_, ?_, h.dir, h.ids.setTh (hpid ▸ h.ids.th_lt i)⟩
  · exact h.pages.clearTh (fun hj => absurd rfl (hne i hj).1) fun j hj => counted_setTh hj
  · intro j hj
    rcases hne j hj with ⟨hji, hj⟩
    rw [Kernel.setTh_ne hji]
    exact h.stack j hj

/-- The stack of a slot is freed, and the slot given back. -/
theorem freeTh (h : Lodged K c s) (hg : Gave s.kmem m (s.pthread i).kstack) (hi : Counted s i)
    (hpid : (g (s.pthread i)).pid = 0) : Lodged K c ((s.setKmem m).setTh i g) := by
  have hne : ∀ j, Counted ((s.setKmem m).setTh i g) j → j ≠ i ∧ Counted s j := by
    intro j hj
    constructor
    · rintro rfl
      rcases hj with ⟨q, hq, heq⟩
      rw [Kernel.setTh_self, Kernel.setKmem_pthread, hpid] at heq
      exact h.ids.proc_ne q hq heq.symm
    · by_cases hji : j = i
      · exact hji ▸ hi
      · exact counted_setTh (s := s.setKmem m) hji hj
  have hlt : (g (s.pthread i)).pid < s.nextpid := by
    have := h.ids.th_lt i
    omega
  refine ⟨h.high, hg.kend.trans h.kend, ?_, ?_, h.dir, ?_⟩
  · exact h.pages.freeTh hg hi (fun hj => absurd rfl (hne i hj).1) fun j _ hj => (hne j hj).2
  · intro j hj
    rcases hne j hj with ⟨hji, hj⟩
    rw [Kernel.setTh_ne hji]
    exact h.stack j hj
  · exact ⟨(h.ids.setTh hlt).th_lt, h.ids.proc_lt, h.ids.proc_ne, h.ids.uniq⟩

end Lodged

/-! ### Processes -/

section newProc

variable {np : Pidx} {th : Tidx}

@[simp] theorem newProc_proc_self :
    (s.newProc np th k m).proc np = freshProc s.nextpid k th (s.proc np) := by
  simp [Kernel.newProc]

@[simp] theorem newProc_proc (hq : q ≠ np) : (s.newProc np th k m).proc q = s.proc q := by
  simp [Kernel.newProc, hq]

@[simp] theorem newProc_pthread_self : (s.newProc np th k m).pthread th =
    { freshTh k (s.pthread th) with pid := s.nextpid } := by
  simp [Kernel.newProc]

@[simp] theorem newProc_pthread (hj : j ≠ th) :
    (s.newProc np th k m).pthread j = s.pthread j := by
  simp [Kernel.newProc, hj]

/-- A new process takes the next pid. -/
theorem Ids.newProc (h : Ids s) (hnp : (s.proc np).state = .UNUSED) :
    Ids (s.newProc np th k m) := by
  have hnext : (s.newProc np th k m).nextpid = s.nextpid + 1 := rfl
  have hpid : ((s.newProc np th k m).proc np).pid = s.nextpid := by simp [freshProc]
  -- the processes that were there keep their pids, which are below the new one
  have hother : ∀ {q}, q ≠ np → InUse (s.newProc np th k m) q →
      InUse s q ∧ ((s.newProc np th k m).proc q).pid = (s.proc q).pid := by
    intro q hq hu
    unfold InUse at hu
    rw [newProc_proc hq] at hu ⊢
    exact ⟨hu, rfl⟩
  refine ⟨fun j => ?_, fun q => ?_, fun q hq => ?_, fun q r hq hr heq => ?_⟩
  · rw [hnext]
    by_cases hj : j = th
    · subst hj
      simp
    · rw [newProc_pthread hj]
      have := h.th_lt j
      omega
  · rw [hnext]
    by_cases hq : q = np
    · subst hq
      omega
    · rw [newProc_proc hq]
      have := h.proc_lt q
      omega
  · by_cases hqn : q = np
    · subst hqn
      have hpos : 0 < s.nextpid := Nat.lt_of_le_of_lt (Nat.zero_le _) (h.proc_lt q)
      omega
    · rcases hother hqn hq with ⟨hu, heq⟩
      rw [heq]
      exact h.proc_ne q hu
  -- so no old process has the pid of the new one
  · by_cases hqn : q = np
    · by_cases hrn : r = np
      · rw [hqn, hrn]
      · rcases hother hrn hr with ⟨-, heq'⟩
        have := h.proc_lt r
        rw [hqn, hpid, heq'] at heq
        omega
    · rcases hother hqn hq with ⟨hu, heq'⟩
      by_cases hrn : r = np
      · have := h.proc_lt q
        rw [hrn, hpid, heq'] at heq
        omega
      · rcases hother hrn hr with ⟨hu2, heq2⟩
        rw [heq', heq2] at heq
        exact h.uniq q r hu hu2 heq

/-- A new process with its first thread. -/
theorem Lodged.newProc (h : Lodged K c s) (hnp : (s.proc np).state = .UNUSED)
    (ht : Took s.kmem m k) : Lodged K c (s.newProc np th k m) := by
  -- no slot that was there counts for the new process, since its id is new
  have hother : ∀ j, j ≠ th → Counted (s.newProc np th k m) j → Counted s j := by
    rintro j hj ⟨q, hq, hpid⟩
    rw [newProc_pthread hj] at hpid
    by_cases hqn : q = np
    · -- the id of the process is new
      subst hqn
      have := h.ids.th_lt j
      simp only [newProc_proc_self, freshProc] at hpid
      omega
    · unfold InUse at hq
      rw [newProc_proc hqn] at hq hpid
      exact ⟨q, hq, hpid⟩
  -- the new process is an embryo and owns no table yet
  have hactive : ∀ q, Active ((s.newProc np th k m).proc q) → q ≠ np := by
    rintro q hq rfl
    rw [newProc_proc_self] at hq
    exact hq.2 rfl
  refine ⟨h.high, ht.kend.trans h.kend, ?_, ?_, ?_, h.ids.newProc hnp⟩
  · have hth : Pages (Counted (s.newProc np th k m)) (fun a => ¬ Frame K a) c
        ((s.setTh th fun t => { freshTh k t with pid := s.nextpid }).setKmem m) :=
      h.pages.newTh ht rfl hother
    refine hth.mono rfl ?_
    intro o a ho
    cases o with
    | slot j => exact ho
    | dir q r =>
        have hq := hactive q ho.1
        rcases ho with ⟨hact, hdir⟩
        rw [newProc_proc hq] at hact hdir
        exact ⟨hact, hdir⟩
    | code r => exact ho
    | wild => exact ho
  · intro j hj
    -- the new slot has the page that was taken, and the others keep theirs
    by_cases hjt : j = th
    · subst hjt
      have hpos := ht.pos
      rw [newProc_pthread_self]
      simp only [freshTh]
      omega
    · rw [newProc_pthread hjt]
      exact h.stack j (hother j hjt hj)
  · intro q hq
    have hqn := hactive q hq
    rw [newProc_proc hqn] at hq ⊢
    exact h.dir q hq

end newProc

/-- A process with another state, or none. -/
theorem Ids.setProc {f : Proc → Proc} (h : Ids s) (hlt : (f (s.proc q)).pid < s.nextpid)
    (hu : (f (s.proc q)).state ≠ .UNUSED → InUse s q ∧ (f (s.proc q)).pid = (s.proc q).pid) :
    Ids (s.setProc q f) := by
  have hold : ∀ r, InUse (s.setProc q f) r →
      InUse s r ∧ ((s.setProc q f).proc r).pid = (s.proc r).pid := by
    intro r hr
    unfold InUse at hr
    by_cases hrq : r = q
    · subst hrq
      rw [Kernel.setProc_self] at hr ⊢
      exact hu hr
    · rw [Kernel.setProc_ne hrq] at hr ⊢
      exact ⟨hr, rfl⟩
  refine ⟨h.th_lt, fun r => ?_, fun r hr => ?_, fun r r' hr hr' heq => ?_⟩
  · by_cases hrq : r = q
    · subst hrq
      rw [Kernel.setProc_self]
      exact hlt
    · rw [Kernel.setProc_ne hrq]
      exact h.proc_lt r
  · rcases hold r hr with ⟨hr, heq⟩
    rw [heq]
    exact h.proc_ne r hr
  · rcases hold r hr with ⟨hr, h1⟩
    rcases hold r' hr' with ⟨hr', h2⟩
    rw [h1, h2] at heq
    exact h.uniq r r' hr hr' heq

/-- A thread counts after a change of its process only if it counted before. -/
theorem counted_setProc {f : Proc → Proc}
    (hu : (f (s.proc q)).state ≠ .UNUSED → InUse s q ∧ (f (s.proc q)).pid = (s.proc q).pid) :
    Counted (s.setProc q f) j → Counted s j := by
  refine Counted.of_same rfl fun r hr => ?_
  unfold InUse at hr
  by_cases hrq : r = q
  · subst hrq
    rw [Kernel.setProc_self] at hr ⊢
    exact hu hr
  · rw [Kernel.setProc_ne hrq] at hr ⊢
    exact ⟨hr, rfl⟩

namespace Lodged

variable {f : Proc → Proc} {pd : PageDir}

/-- `fork` gives up the process `q` that it has made, and frees the stack of its slot. -/
theorem freeProc (h : Lodged K c s) (hq : InUse s q) (hi : (s.pthread i).pid = (s.proc q).pid)
    (hg : Gave s.kmem m (s.pthread i).kstack) (hpid : (f (s.proc q)).pid = (s.proc q).pid)
    (hu : (f (s.proc q)).state = .UNUSED) : Lodged K c ((s.setKmem m).setProc q f) := by
  have hcount : ∀ j, Counted ((s.setKmem m).setProc q f) j → Counted s j := fun j =>
    counted_setProc (s := s.setKmem m) fun hne => absurd hu hne
  -- the id of the process is nobody's now
  have hne : ∀ j, Counted ((s.setKmem m).setProc q f) j → j ≠ i := by
    rintro j ⟨r, hr, heq⟩ rfl
    unfold InUse at hr
    by_cases hrq : r = q
    · subst hrq
      rw [Kernel.setProc_self] at hr
      exact hr hu
    · rw [Kernel.setProc_ne hrq] at hr heq
      exact hrq (h.ids.uniq r q hr hq (heq.symm.trans hi))
  have hown : s.holds (Counted s) (fun a => ¬ Frame K a) c (.slot i) (s.pthread i).kstack :=
    ⟨⟨q, hq, hi⟩, rfl, h.stack i ⟨q, hq, hi⟩⟩
  refine ⟨h.high, hg.kend.trans h.kend, ?_, fun j hj => h.stack j (hcount j hj), ?_, ?_⟩
  · refine Stock.back h.pages hg hown ?_
    intro o a ho
    have hold : s.holds (Counted s) (fun a => ¬ Frame K a) c o a ∧ o ≠ .slot i := by
      cases o with
      | slot j =>
          refine ⟨⟨hcount j ho.1, ho.2⟩, ?_⟩
          rintro heq
          cases heq
          exact hne i ho.1 rfl
      | dir r e =>
          refine ⟨?_, by simp⟩
          have hrq : r ≠ q := by
            rintro rfl
            have hact := ho.1
            rw [Kernel.setProc_self] at hact
            exact hact.1 hu
          rcases ho with ⟨hact, hdir⟩
          rw [Kernel.setProc_ne hrq] at hact hdir
          exact ⟨hact, hdir⟩
      | code r => exact ⟨ho, by simp⟩
      | wild => exact ⟨ho, by simp⟩
    refine ⟨hold.1, ?_⟩
    rintro rfl
    exact hold.2 (h.pages.ledger.apart o (.slot i) _ hold.1 hown)
  · intro r hr
    have hrq : r ≠ q := by
      rintro rfl
      rw [Kernel.setProc_self] at hr
      exact hr.1 hu
    rw [Kernel.setProc_ne hrq] at hr ⊢
    exact h.dir r hr
  · exact (⟨h.ids.th_lt, h.ids.proc_lt, h.ids.proc_ne, h.ids.uniq⟩ : Ids (s.setKmem m)).setProc
      (hpid ▸ h.ids.proc_lt q) fun hne => absurd hu hne

/-! ### Directories -/

/-- What is held while no directory is being made. -/
abbrev taken (K : Nat) (s : Kernel) (a : Nat) : Prop :=
  ∃ o, s.holds (Counted s) (fun a => ¬ Frame K a) none o a

/-- The code has made a directory, or has failed to. -/
theorem made {r : Option PageDir} (h : Lodged K none s) (hm : Made (taken K s) m r)
    (hk : m.kend = s.kmem.kend) : Lodged K r (s.setKmem m) :=
  ⟨h.high, hk.trans h.kend, h.pages.made hm, h.stack, h.dir,
    ⟨h.ids.th_lt, h.ids.proc_lt, h.ids.proc_ne, h.ids.uniq⟩⟩

/-- The directory that the code was working on has been freed. -/
theorem discard (h : Lodged K (some pd) s) (hap : Apart (taken K s) m)
    (hk : m.kend = s.kmem.kend) : Lodged K none (s.setKmem m) :=
  ⟨h.high, hk.trans h.kend, h.pages.discard hap, h.stack, h.dir,
    ⟨h.ids.th_lt, h.ids.proc_lt, h.ids.proc_ne, h.ids.uniq⟩⟩

/-- A process in use takes over the directory that the code has made, and the code the
one that the process had, if it had one. -/
theorem commit (h : Lodged K (some pd) s) (hq : InUse s q) (hf : (f (s.proc q)).pgdir = some pd)
    (hpid : (f (s.proc q)).pid = (s.proc q).pid)
    (hc : c' = none ∨ Active (s.proc q) ∧ c' = (s.proc q).pgdir) :
    Lodged K c' (s.setProc q f) := by
  refine ⟨h.high, h.kend, ?_, ?_, ?_, ?_⟩
  · exact (h.pages.commit hf hc).fewer fun j => counted_setProc fun _ => ⟨hq, hpid⟩
  · exact fun j hj => h.stack j (counted_setProc (fun _ => ⟨hq, hpid⟩) hj)
  · intro r hr
    by_cases hrq : r = q
    · subst hrq
      rw [Kernel.setProc_self, hf]
      simp
    · rw [Kernel.setProc_ne hrq] at hr ⊢
      exact h.dir r hr
  · exact h.ids.setProc (hpid ▸ h.ids.proc_lt q) fun _ => ⟨hq, hpid⟩

/-- The memory of a process that is no more has been freed. -/
theorem reapDir (h : Lodged K c s)
    (hap : Apart (s.besides (Counted s) (fun a => ¬ Frame K a) c q) m)
    (hk : m.kend = s.kmem.kend) (hlt : (f (s.proc q)).pid < s.nextpid)
    (hu : (f (s.proc q)).state = .UNUSED) : Lodged K c ((s.setKmem m).setProc q f) := by
  have hcount : ∀ j, Counted ((s.setKmem m).setProc q f) j → Counted s j := fun j =>
    counted_setProc (s := s.setKmem m) fun hne => absurd hu hne
  refine ⟨h.high, hk.trans h.kend, ?_, fun j hj => h.stack j (hcount j hj), ?_, ?_⟩
  · exact (h.pages.reapDir hap fun hact => hact.1 hu).fewer hcount
  · intro r hr
    have hrq : r ≠ q := by
      rintro rfl
      rw [Kernel.setProc_self] at hr
      exact hr.1 hu
    rw [Kernel.setProc_ne hrq] at hr ⊢
    exact h.dir r hr
  · exact (⟨h.ids.th_lt, h.ids.proc_lt, h.ids.proc_ne, h.ids.uniq⟩ : Ids (s.setKmem m)).setProc
      hlt fun hne => absurd hu hne

end Lodged

/-! ## Calls -/

/-- While a thread of process `p` runs. -/
structure Works (K : Nat) (p : Pidx) (c : Option PageDir) (s : Kernel) : Prop
    extends Lodged K c s where
  active : Active (s.proc p)

namespace Works

variable {f : Proc → Proc}

theorem same (h : Works K p c s) (hs : Same s s') (hact : Active (s'.proc p)) : Works K p c s' :=
  ⟨h.toLodged.same hs, hact⟩

/-- Assigning to other fields of a process. -/
theorem setProc (h : Works K p c s) (hpid : (f (s.proc q)).pid = (s.proc q).pid)
    (hpd : (f (s.proc q)).pgdir = (s.proc q).pgdir)
    (hu : (f (s.proc q)).state ≠ .UNUSED ↔ (s.proc q).state ≠ .UNUSED)
    (hact : Active (f (s.proc q)) ↔ Active (s.proc q)) : Works K p c (s.setProc q f) := by
  refine h.same (.setProc hpid hpd hu.1 hact.1) ?_
  by_cases hq : p = q
  · subst hq
    rw [Kernel.setProc_self]
    exact hact.2 h.active
  · rw [Kernel.setProc_ne hq]
    exact h.active

/-- The running process goes on in another state. -/
theorem setState (h : Works K p c s) (hpid : (f (s.proc p)).pid = (s.proc p).pid)
    (hpd : (f (s.proc p)).pgdir = (s.proc p).pgdir) (hact : Active (f (s.proc p))) :
    Works K p c (s.setProc p f) :=
  h.setProc hpid hpd ⟨fun _ => h.active.1, fun _ => hact.1⟩ ⟨fun _ => h.active, fun _ => hact⟩

/-- Assigning to other fields of a slot. -/
theorem setTh {g : Pthread → Pthread} (h : Works K p c s)
    (hk : (g (s.pthread i)).kstack = (s.pthread i).kstack)
    (hpid : (g (s.pthread i)).pid = (s.pthread i).pid) : Works K p c (s.setTh i g) :=
  h.same (.setTh hk hpid) h.active

theorem woken (h : Works K p c s) (ch : Chan) : Works K p c (s.woken ch) :=
  h.same (.woken s ch) h.active

/-- Work on the directory of the running process, which then is put in place. -/
theorem work {α : Type} {x : KM α} {g : α → PageDir} {pd : PageDir} (h : Works K p c s)
    (hpd : (s.proc p).pgdir = some pd)
    (hx : ∀ F m, Owned F pd m → wp x m (fun r m' => Owned F (g r) m') fun _ => True)
    (ht : Tame x) :
    wp x s.kmem (fun r m => Works K p c
      ((s.setKmem m).setProc p fun y => { y with pgdir := some (g r) })) fun _ => True := by
  refine wp.mono (wp.and (hx _ _ (h.pages.dir h.active hpd)) (ht.kend s.kmem)) ?_ fun _ he => he
  rintro r m ⟨hr, hk⟩
  let f : Proc → Proc := fun y => { y with pgdir := some (g r) }
  have hsame : (f (s.proc p)).state ≠ .UNUSED →
      InUse (s.setKmem m) p ∧ (f (s.proc p)).pid = (s.proc p).pid := fun hu => ⟨hu, rfl⟩
  refine ⟨⟨h.high, hk.trans h.kend, ?_, fun j hj => h.stack j ?_, ?_, ?_⟩, ?_⟩
  · have hset : Pages (Counted s) (fun a => ¬ Frame K a) c ((s.setKmem m).setProc p f) :=
      h.pages.setDir hr rfl (fun q hq => by rw [Kernel.setProc_ne hq]; rfl) (by simp [f])
    exact hset.fewer fun j => counted_setProc (s := s.setKmem m) hsame
  · exact counted_setProc (s := s.setKmem m) hsame hj
  · intro q hq
    by_cases hqp : q = p
    · subst hqp
      rw [Kernel.setProc_self]
      simp
    · rw [Kernel.setProc_ne hqp] at hq ⊢
      exact h.dir q hq
  · exact (⟨h.ids.th_lt, h.ids.proc_lt, h.ids.proc_ne, h.ids.uniq⟩ : Ids (s.setKmem m)).setProc
      (h.ids.proc_lt p) hsame
  · rw [Kernel.setProc_self]
    exact h.active

end Works

theorem sleep_lodged {ch : Chan} {k : Cont} (h : Works K p c s) :
    wp (sleep p ch k) s (fun _ s' => Works K p c s') fun _ => True :=
  sleep_wp (h.setState rfl rfl ⟨by simp, by simp⟩)

/-- A call into the rest of the kernel keeps everyone lodged. -/
theorem inside_lodged {k : Cont} {w z : Option Chan} (h : Works K p c s) :
    wp (inside p k w z) s (fun _ s' => Works K p c s') fun _ => True := by
  refine inside_wp (Works K p c) (Works K p c) h (h.setState rfl rfl h.active)
    (fun _ h1 => ⟨h1, fun ch _ => h1.woken ch⟩) (fun _ _ h1 _ => sleep_lodged h1) fun s1 h1 _ => ?_
  unfold yieldInside
  simp only [wp_bind, wp_setProc]
  refine sched_wp (fun _ => trivial) fun _ => (wp_pure ..).2 ?_
  exact h1.setState rfl rfl ⟨by simp, by simp⟩

/-! ### Memory -/

/-- `growproc` keeps everyone lodged: the pages that it moves are those of its table. -/
theorem growproc_lodged {n : Int} (h : Works K p c s) :
    wp (growproc p n) s (fun _ s' => Works K p c s') fun _ => True := by
  unfold growproc
  simp only [wp_bind, wp_get]
  refine wp_ite (fun _ => (wp_pure ..).2 h) fun _ => ?_
  rw [wp_bind]
  refine getPgdir_wp (fun pd hpd => ?_) fun _ => trivial
  rw [wp_bind, wp_onKmem]
  refine wp.mono (h.work (g := Prod.fst) hpd (fun F m hown => ?_) ?_) (fun r m h1 => ?_)
    fun _ he => he
  · refine wp_ite (fun _ => allocuvm_own hown) fun _ => ?_
    exact wp_ite (fun _ => deallocuvm_own hown) fun _ => (wp_pure ..).2 hown
  · exact .ite allocuvm_tame (.ite deallocuvm_tame (.pure _))
  rcases r with ⟨pd', sz⟩
  simp only [wp_bind, wp_setPgdir]
  refine wp_ite (fun _ => (wp_pure ..).2 h1) fun _ => ?_
  simp only [wp_bind, wp_setProc]
  refine switchuvm_wp ((wp_pure ..).2 ?_) trivial trivial
  exact h1.setState rfl rfl h1.active

/-- `setmemorylimit` moves no page. -/
theorem setmemorylimit_lodged {pid limit : Int} (h : Works K p c s) :
    wp (setmemorylimit pid limit) s (fun _ s' => Works K p c s') fun _ => True := by
  unfold setmemorylimit
  refine wp_ite (fun _ => (wp_pure ..).2 h) fun _ => ?_
  simp only [wp_bind, wp_get]
  cases findProc _ with
  | none => exact (wp_pure ..).2 h
  | some q =>
      refine wp_ite (fun _ => (wp_pure ..).2 h) fun _ => ?_
      simp only [wp_bind, wp_setProc, wp_pure]
      exact h.setProc rfl rfl Iff.rfl Iff.rfl

/-! ### Threads -/

/-- A slot that is not in use, but still has the id of a process in use. -/
def Vacant (s : Kernel) (i : Tidx) : Prop := (s.pthread i).state = .UNUSED ∧ Counted s i

/-- `pthread_exec` moves pages of its table alone. -/
theorem pthread_exec_lodged {th : Tidx} (h : Works K p c s) :
    wp (pthread_exec p th) s (fun _ s' => Works K p c s') fun _ => True := by
  unfold pthread_exec
  simp only [wp_bind, wp_get]
  refine wp_ite (fun _ => (wp_pure ..).2 h) fun _ => ?_
  rw [wp_bind]
  refine getPgdir_wp (fun pd hpd => ?_) fun _ => trivial
  rw [wp_bind, wp_onKmem]
  refine wp.mono (h.work (g := Prod.fst) hpd (fun F m hown => allocuvm_own hown) allocuvm_tame)
    (fun r m h1 => ?_) fun _ he => he
  rcases r with ⟨pd1, sz⟩
  simp only [wp_bind, wp_setPgdir]
  refine wp_ite (fun _ => (wp_pure ..).2 h1) fun _ => ?_
  rw [wp_bind, wp_onKmem]
  refine wp.mono (h1.work (g := id) (show _ = some pd1 by simp) (fun F m hown => clearpteu_own hown)
    clearpteu_tame) (fun pd2 m2 h2 => ?_) fun _ he => he
  simp only [wp_bind, wp_setPgdir, wp_onKmem]
  refine copyout_wp (fun b => ?_) trivial
  refine wp_ite (fun _ => (wp_pure ..).2 h2) fun _ => ?_
  have h3 : Works K p c ((((s.setKmem m).setProc p fun x => { x with pgdir := some pd1 }).setKmem
      m2).setProc p fun x => { x with pgdir := some pd2 }) := h2
  cases (s.proc p).freed_sz.pop with
  | some r =>
      simp only [wp_bind, wp_setProc, wp_setTh, wp_pure]
      exact (h3.setState rfl rfl h3.active).setTh rfl rfl
  | none =>
      simp only [wp_bind, wp_setProc, wp_setTh, wp_pure]
      exact (h3.setState rfl rfl h3.active).setTh rfl rfl

/-- `thread_create` lodges the new thread where it has a page for its stack. -/
theorem thread_create_lodged (h : Works K p c s)
    (hroom : (∃ j, Vacant s j) → s.kmem.free ≠ 0) :
    wp (thread_create p) s (fun _ s' => Works K p c s') fun _ => True := by
  unfold thread_create pthread_fork
  simp only [wp_bind]
  refine allocthread_took (fun _ => ?_) (fun n hn hfree => ?_) fun n k m hn hk => ?_
  · exact (wp_pure ..).2 ((wp_pure ..).2 h)
  · refine (wp_pure ..).2 ((wp_pure ..).2 ⟨h.toLodged.clearTh (fun hc => ?_) rfl, h.active⟩)
    exact hroom ⟨n, hn, hc⟩ hfree
  simp only [wp_bind, wp_setProc, wp_get, wp_setTh, wp_pure]
  -- the slot gets its page and its id
  let f : Proc → Proc := fun x => { x with thread_assign := (x.thread_assign + 1) % 2 ^ 32 }
  let g : Pthread → Pthread := fun t =>
    { freshTh k t with
      pid := (s.proc p).pid, thread_id := (f (s.proc p)).thread_assign, ptable_idx := p }
  have h1 : Works K p c (((s.setTh n g).setKmem m).setProc p f) := by
    have hnew : Works K p c ((s.setTh n g).setKmem m) :=
      ⟨h.toLodged.newTh hk rfl (h.ids.proc_lt p), h.active⟩
    exact hnew.setState rfl rfl hnew.active
  have hsame : (((s.setTh n (freshTh k)).setKmem m).setProc p f).setTh n (fun t =>
      { t with
        pid := ((((s.setTh n (freshTh k)).setKmem m).setProc p f).proc p).pid
        thread_id := ((((s.setTh n (freshTh k)).setKmem m).setProc p f).proc p).thread_assign
        ptable_idx := p }) = ((s.setTh n g).setKmem m).setProc p f := by
    simp [Kernel.setTh, Kernel.setProc, Kernel.setKmem, g, f]
  rw [hsame]
  refine wp.mono (wp.and (pthread_exec_lodged h1) pthread_exec_stacked) ?_ fun _ he => he
  rintro ok s1 ⟨h2, hst⟩
  refine wp_ite (fun _ => ?_) fun _ => ?_
  · simp only [wp_bind, wp_setTh, wp_pure]
    exact h2.setTh rfl rfl
  · simp only [wp_bind, wp_get, wp_setTh, wp_setCont, wp_pure]
    have hpid : (s1.pthread n).pid = (s1.proc p).pid := by
      rcases hst.th with ⟨sz, hth⟩
      rw [hth, (hst.proc p).pid]
      simp [g, f]
    have h3 := h2.setTh (i := n) (g := fun t => { t with
      pid := (s1.proc p).pid, state := .RUNNABLE, ptable_idx := p
      joiner_pthread := some (s1.proc p).thread_idx }) rfl hpid.symm
    exact h3.same (.setCont _ _ _) h3.active

/-- `kill` moves no page. -/
theorem kill_lodged {pid : Int} (h : Works K p c s) :
    wp (kill pid) s (fun _ s' => Works K p c s') fun _ => True := by
  refine kill_wp h fun q _ => ?_
  have h1 : Works K p c (s.setProc q fun x => { x with
      killed := true, state := if x.state = .SLEEPING then .RUNNABLE else x.state }) := by
    refine h.setProc rfl rfl ?_ ?_
    · by_cases hs : (s.proc q).state = .SLEEPING
      · simp [hs]
      · simp [hs]
    · unfold Active
      dsimp only
      by_cases hs : (s.proc q).state = .SLEEPING
      · simp [hs]
      · simp [hs]
  refine h1.same (.of_slots (fun j => ?_) fun j => ?_) h1.active
  · dsimp only
    split <;> rfl
  · dsimp only
    split <;> rfl

/-- `thread_exit` moves no page. -/
theorem thread_exit_lodged {retval : Nat} (h : Works K p c s) :
    wp (thread_exit p retval) s (fun _ s' => Works K p c s') fun _ => True := by
  unfold thread_exit
  simp only [wp_bind, wp_get]
  refine wp_ite (fun _ => ?_) fun _ => ?_
  · simp only [wp_bind, wakeup1_wp]
    refine wp.mono (kill_lodged h) (fun v s1 h1 => ?_) fun _ he => he
    exact sched_wp (fun _ => trivial) fun _ => (wp_pure ..).2 (h1.woken _)
  · simp only [wp_bind, wp_setTh, wp_setProc, wakeup1_wp]
    refine sched_wp (fun _ => trivial) fun _ => (wp_pure ..).2 (Works.woken ?_ _)
    exact (h.setTh rfl rfl).setState rfl rfl ⟨by simp, by simp⟩

/-- The slot that `thread_join` frees counts no more, and its stack goes back. -/
theorem reapThread_lodged {d : Tidx} (h : Works K p c s)
    (hd : (s.pthread d).pid = (s.proc p).pid) :
    wp (reapThread p d) s (fun _ s' => Works K p c s') fun _ => True := by
  unfold reapThread
  simp only [wp_bind, wp_get]
  refine kfreeStack_wp (fun m hg _ => ?_) fun _ _ => trivial
  simp only [wp_onKmem, wp_setTh, wp_setProc]
  have h1 : Works K p c ((s.setKmem m).setTh d fun t => { t with
      pid := 0, kstack := 0, state := .UNUSED, chan := .null, ptable_idx := 0, thread_id := 0
      joiner_pthread := none }) :=
    ⟨h.toLodged.freeTh hg ⟨p, h.active.1, hd⟩ rfl, h.active⟩
  have h2 := h1.setState (f := fun y => { y with
    freed_sz := y.freed_sz.push (baseOf (s.proc p) (s.pthread d).th_sz) }) rfl rfl h1.active
  refine getPgdir_wp (fun pd hpd => ?_) fun _ => trivial
  refine wp.mono (h2.work (g := Prod.fst) hpd (fun F m hown => deallocuvm_own hown) deallocuvm_tame)
    (fun r m2 h3 => ?_) fun _ he => he
  simp only [wp_setPgdir, wp_pure]
  exact h3.setTh rfl rfl

/-- `thread_join` keeps everyone lodged. -/
theorem joinScan_lodged {t w : Nat} (h : Works K p c s) :
    wp (joinScan p t w) s (fun _ s' => Works K p c s') fun _ => True := by
  unfold joinScan
  simp only [wp_bind, wp_get]
  cases hf : findTh _ with
  | some d =>
      have hd := findTh_some hf
      simp only [mayJoin, decide_eq_true_eq] at hd
      simp only [wp_bind]
      refine wp.mono (reapThread_lodged h hd.1.1) (fun _ s1 h1 => (wp_pure ..).2 h1) fun _ he => he
  | none => exact wp_ite (fun _ => (wp_pure ..).2 h) fun _ => sleep_lodged h

/-! ### exit and wait -/

/-- `exit` marks the process and its threads. -/
theorem Works.exited {ch : Option Tidx} (h : Works K p c s) : Works K p c (s.exited p ch) := by
  have hadopt : ∀ x, (adopt p s.initproc ch x).pgdir = x.pgdir ∧
      (adopt p s.initproc ch x).state = x.state ∧ (adopt p s.initproc ch x).pid = x.pid := by
    intro x
    unfold adopt
    split <;> exact ⟨rfl, rfl, rfl⟩
  let s1 : Kernel := { s with proc := fun q => adopt p s.initproc ch (s.proc q) }
  have hactive : ∀ q, Active (s1.proc q) ↔ Active (s.proc q) := by
    intro q
    unfold Active
    rw [show (s1.proc q).state = (s.proc q).state from (hadopt (s.proc q)).2.1]
  have h1 : Works K p c s1 := by
    refine h.same ⟨fun _ => rfl, fun _ => rfl, fun q => (hadopt (s.proc q)).2.2, fun q hq => ?_,
      fun q hq => ⟨(hactive q).1 hq, (hadopt (s.proc q)).1⟩, rfl, rfl⟩ ((hactive p).2 h.active)
    unfold InUse at hq ⊢
    rwa [show (s1.proc q).state = (s.proc q).state from (hadopt (s.proc q)).2.1] at hq
  have h2 : Works K p c (s1.setProc p fun x => { x with state := .ZOMBIE }) :=
    h1.setState rfl rfl ⟨by simp, by simp⟩
  refine h2.same (.of_slots (fun j => ?_) fun j => ?_) h2.active
  · dsimp only
    split <;> rfl
  · dsimp only
    split <;> rfl

theorem exit_lodged (h : Works K p c s) :
    wp (exit p) s (fun _ s' => Works K p c s') fun _ => True :=
  exit_wp fun ch _ => ⟨(h.woken ch).exited, fun c2 => ((h.woken ch).woken c2).exited⟩

/-- `deleteThread` of a slot that counts, with another stack than that of the caller. -/
theorem deleteThread_lodged {d : Tidx} {Q : Unit → Kernel → Prop} {E : Stop → Prop}
    (h : Lodged K c s) (hd : Counted s d) (hne : (s.proc p).kstack ≠ (s.pthread d).kstack)
    (hQ : ∀ m g, Lodged K c ((s.setKmem m).setTh d g) → Q () ((s.setKmem m).setTh d g)) :
    wp (deleteThread p d) s Q E := by
  unfold deleteThread kfreeStack
  simp only [wp_bind, wp_get, wp_onKmem]
  refine kfree_frame h.kend (h.frame hd) fun m hg => ?_
  rw [Kernel.setKmem_proc, if_neg hne]
  simp only [wp_pure, wp_setTh]
  exact hQ m _ (h.freeTh hg hd rfl)

/-- The threads of a zombie are taken apart by a thread of another process. -/
theorem reapThreads_lodged {pid : Nat} {ths : List Tidx} {E : Stop → Prop} (h : Works K p c s)
    (hw : Wears p i s) (hq : InUse s q) (hpid : (s.proc q).pid = pid) (hne : (s.proc p).pid ≠ pid) :
    wp (reapThreads p pid ths) s (fun _ s' => Works K p c s' ∧ s'.proc = s.proc) E := by
  induction ths generalizing s with
  | nil => exact (wp_pure ..).2 ⟨h, rfl⟩
  | cons d ths ih =>
      unfold reapThreads
      simp only [wp_bind, wp_get]
      refine wp_ite (fun hd => ?_) fun _ => ih h hw hq hpid hne
      have hdi : d ≠ i := by
        rintro rfl
        exact hne (hw.pid.symm.trans hd)
      have hcount : Counted s d := ⟨q, hq, hd.trans hpid.symm⟩
      rw [wp_bind]
      refine deleteThread_lodged h.toLodged hcount ?_ fun m g h1 => ?_
      · rw [← hw.kstack]
        exact h.apart ⟨p, h.active.1, hw.pid⟩ hcount hdi.symm
      · refine ih (s := (s.setKmem m).setTh d g) ⟨h1, h.active⟩ ?_ hq hpid hne
        have hi : ((s.setKmem m).setTh d g).pthread i = s.pthread i := Kernel.setTh_ne hdi.symm _
        exact ⟨hw.running, hw.thread_idx, hi ▸ hw.pid, hi ▸ hw.kstack, hi ▸ hw.state⟩

/-- `wait` gives back the stack of the child's main thread and its table; its slots count no
more. -/
theorem reapProc_lodged {E : Stop → Prop} (h : Works K p c s) (hw : Wears p i s)
    (hz : (s.proc q).state = .ZOMBIE) :
    wp (reapProc p q) s (fun _ s' => Works K p c s') E := by
  -- the caller runs, and the child is a zombie
  have hqp : q ≠ p := by
    rintro rfl
    rw [hw.running] at hz
    cases hz
  have hq : InUse s q := by
    unfold InUse
    rw [hz]
    decide
  have hact : Active (s.proc q) := by
    unfold Active
    rw [hz]
    exact ⟨by simp, by simp⟩
  have hne : (s.proc p).pid ≠ (s.proc q).pid := fun heq =>
    hqp (h.ids.uniq q p hq h.active.1 heq.symm)
  rcases Option.ne_none_iff_exists'.1 (h.dir q hact) with ⟨pd, hpd⟩
  unfold reapProc
  simp only [wp_bind, wp_get]
  refine wp.mono (reapThreads_lodged h hw hq rfl hne) ?_ fun _ he => he
  rintro _ s1 ⟨h1, hproc⟩
  rw [hpd]
  dsimp only
  have hact1 : Active (s1.proc q) := hproc ▸ hact
  have hpd1 : (s1.proc q).pgdir = some pd := hproc ▸ hpd
  have hown := h1.pages.dir hact1 hpd1
  rw [wp_bind, wp_onKmem]
  -- its stacks have gone back; now the pages of its table do, none of which anybody else has
  have hfree := (freevm_framed (E := E) h.high h1.kend (h1.framed hact1 hpd1)).inter
    ((freevm_own hown).inter (freevm_tame.kend s1.kmem))
  refine wp.mono hfree ?_ fun _ he => he.1
  rintro _ m ⟨-, hap, hk⟩
  rw [wp_setProc]
  refine ⟨h1.toLodged.reapDir hap hk ?_ rfl, ?_⟩
  · exact Nat.lt_of_le_of_lt (Nat.zero_le _) (h1.ids.proc_lt q)
  · rw [Kernel.setProc_ne hqp.symm]
    exact h1.active

/-- One pass of `wait` does not stop. -/
theorem waitScan_lodged {E : Stop → Prop} (h : Works K p c s) (hw : Wears p i s) :
    wp (waitScan p) s (fun _ s' => Works K p c s') E := by
  unfold waitScan
  simp only [wp_bind, wp_get]
  cases hf : findProc _ with
  | some q =>
      have hq := findProc_some hf
      simp only [decide_eq_true_eq] at hq
      simp only [wp_bind]
      exact wp.mono (reapProc_lodged h hw hq.2) (fun _ s1 h1 => (wp_pure ..).2 h1) fun _ he => he
  | none =>
      refine wp_ite (fun _ => (wp_pure ..).2 h) fun _ => sleep_wp ?_
      exact h.setState rfl rfl ⟨by simp, by simp⟩

/-! ### exec -/

/-- `exec` gives back the stacks of the siblings. -/
theorem deleteOthers_lodged {ths : List Tidx} (h : Works K p c s) :
    wp (deleteOthers p ths) s (fun _ s' => Works K p c s') fun _ => True := by
  induction ths generalizing s with
  | nil => exact (wp_pure ..).2 h
  | cons d ths ih =>
      unfold deleteOthers deleteOther
      simp only [wp_bind, wp_get]
      refine wp_ite (fun hsib => ?_) fun _ => (wp_pure ..).2 (ih h)
      simp only [wp_bind, wp_modify]
      have hkeep : ∀ x, (reparent d (s.proc p).thread_idx x).pgdir = x.pgdir ∧
          (reparent d (s.proc p).thread_idx x).state = x.state ∧
          (reparent d (s.proc p).thread_idx x).pid = x.pid := by
        intro x
        unfold reparent
        split <;> exact ⟨rfl, rfl, rfl⟩
      let s1 : Kernel := { s with proc := fun q => reparent d (s.proc p).thread_idx (s.proc q) }
      have hactive : ∀ q, Active (s1.proc q) ↔ Active (s.proc q) := by
        intro q
        unfold Active
        rw [show (s1.proc q).state = (s.proc q).state from (hkeep (s.proc q)).2.1]
      have h1 : Works K p c s1 := by
        refine h.same ⟨fun _ => rfl, fun _ => rfl, fun q => (hkeep (s.proc q)).2.2, fun q hq => ?_,
          fun q hq => ⟨(hactive q).1 hq, (hkeep (s.proc q)).1⟩, rfl, rfl⟩ ((hactive p).2 h.active)
        unfold InUse at hq ⊢
        rwa [show (s1.proc q).state = (s.proc q).state from (hkeep (s.proc q)).2.1] at hq
      have hcount : Counted s1 d := ⟨p, h1.active.1, hsib.1.trans (hkeep (s.proc p)).2.2.symm⟩
      -- a thread does not come back from freeing its own stack
      by_cases hown : (s1.proc p).kstack = (s1.pthread d).kstack
      · unfold deleteThread
        simp only [wp_bind, wp_get]
        exact kfreeStack_wp (fun _ _ hne => absurd hown hne) fun _ _ => trivial
      · exact deleteThread_lodged h1.toLodged hcount hown fun m g h2 => ih ⟨h2, h1.active⟩

/-- `exec` keeps everyone lodged. -/
theorem execWith_lodged {elf : Option Elf} {argv : List Nat} {stacksize : Nat}
    (h : Works K p none s) :
    wp (execWith p elf argv stacksize) s (fun _ s' => Works K p none s') fun _ => True := by
  unfold execWith
  simp only [wp_bind, wp_onKmem]
  refine wp.mono (wp.and (newImage_own h.pages.all) (newImage_tame.kend s.kmem)) ?_ fun _ he => he
  rintro r m ⟨hmade, hk⟩
  have h1 : Works K p (r.map Prod.fst) (s.setKmem m) := ⟨h.toLodged.made hmade hk, h.active⟩
  cases r with
  | none => exact (wp_pure ..).2 h1
  | some r =>
      rcases r with ⟨pd, sz⟩
      unfold deleteThreads
      simp only [wp_bind]
      refine wp.mono (deleteOthers_lodged h1) (fun _ s2 h2 => ?_) fun _ he => he
      simp only [wp_setProc]
      have h3 := h2.setState (f := fun x => { x with joiner_pthread := some x.thread_idx })
        rfl rfl h2.active
      generalize s2.setProc p (fun x => { x with joiner_pthread := some x.thread_idx }) = s3 at *
      refine getPgdir_wp (fun old hold => ?_) fun _ => trivial
      -- the old directory is in the hands of `exec` until it has been freed
      have h4 := h3.toLodged.commit (q := p) (f := fun x =>
        { x with
          freed_sz := noFreed, pgdir := some pd, sz := sz, th_sz := sz, memlimit := 0
          thread_assign := 1, stacksz := stacksize, thread_id := MAINTH
          main_thread_idx := x.thread_idx }) h3.active.1 rfl rfl (.inr ⟨h3.active, hold.symm⟩)
      refine switchuvm_wp ?_ trivial trivial
      simp only [wp_onKmem]
      refine wp.mono (wp.and (freevm_own h4.pages.work) (freevm_tame.kend _)) ?_ fun _ he => he
      rintro _ m2 ⟨h5, hk2⟩
      refine (wp_pure ..).2 ⟨h4.discard h5 hk2, ?_⟩
      rw [Kernel.setKmem_proc, Kernel.setProc_self]
      exact h3.active

/-! ### fork -/

/-- The slots of a list that `fork` of process `p` copies. -/
def copied (s : Kernel) (p : Pidx) (ths : List Tidx) : Nat :=
  ths.countP fun j => (s.pthread j).pid = (s.proc p).pid ∧ (s.pthread j).thread_id ≠ MAINTH

/-- Where a slot that has been given up can be found, there is a page for each copy. -/
def CopyRoom (s : Kernel) (p : Pidx) (ths : List Tidx) : Prop :=
  (∃ j, Vacant s j) → copied s p ths ≤ s.kmem.free

/-- Copying a thread leaves no more to copy. -/
theorem copied_le {ths : List Tidx}
    (h : ∀ j, (s'.pthread j).pid = (s'.proc p).pid → (s'.pthread j).thread_id ≠ MAINTH →
      (s.pthread j).pid = (s.proc p).pid ∧ (s.pthread j).thread_id ≠ MAINTH) :
    copied s' p ths ≤ copied s p ths := by
  refine List.countP_mono_left fun j _ hj => ?_
  have hj := of_decide_eq_true hj
  exact decide_eq_true (h j hj.1 hj.2)

/-- Copying a thread lodges the copy: there is a page for it, by the room that is left. -/
theorem forkThread_lodged {np : Pidx} {th : Tidx} {ths : List Tidx} (h : Works K p none s)
    (hnp : InUse s np) (hne : np ≠ p) (hroom : CopyRoom s p (th :: ths)) :
    wp (forkThread p np th) s (fun ok s' => Works K p none s' ∧ InUse s' np ∧
      (ok = true → CopyRoom s' p ths)) fun _ => True := by
  have hle : copied s p ths ≤ copied s p (th :: ths) := by
    unfold copied
    rw [List.countP_cons]
    omega
  have hkilled : ∀ s1, Works K p none s1 → InUse s1 np →
      Works K p none (s1.setProc np fun x => { x with killed := true }) ∧
        InUse (s1.setProc np fun x => { x with killed := true }) np := by
    intro s1 h1 hu
    refine ⟨h1.setProc rfl rfl Iff.rfl Iff.rfl, ?_⟩
    unfold InUse
    rw [Kernel.setProc_self]
    exact hu
  unfold forkThread
  simp only [wp_bind, wp_get]
  refine wp_ite (fun _ => (wp_pure ..).2 ⟨h, hnp, fun _ hv => le_trans hle (hroom hv)⟩)
    fun hsib => ?_
  have hth : (s.pthread th).pid = (s.proc p).pid ∧ (s.pthread th).thread_id ≠ MAINTH := by
    refine ⟨?_, fun hm => hsib (.inr hm)⟩
    by_contra hn
    exact hsib (.inl hn)
  have hcons : copied s p (th :: ths) = copied s p ths + 1 := by
    unfold copied
    rw [List.countP_cons, if_pos (decide_eq_true hth)]
  rw [wp_bind]
  refine allocthread_took (fun _ => ?_) (fun n hn hfree => ?_) fun n k m hn hk => ?_
  · simp only [wp_bind, wp_setProc, wp_pure]
    rcases hkilled s h hnp with ⟨h1, hu⟩
    exact ⟨h1, hu, by simp⟩
  · simp only [wp_bind, wp_setProc, wp_pure]
    have hcount : ¬ Counted s n := by
      intro hc
      have := hroom ⟨n, hn, hc⟩
      omega
    obtain ⟨h1, hu⟩ := hkilled (s.setTh n fun t => { t with kstack := 0 })
      ⟨h.toLodged.clearTh hcount rfl, h.active⟩ hnp
    exact ⟨h1, hu, by simp⟩
  · simp only [wp_bind, wp_get, wp_setTh, wp_setCont, wp_pure]
    -- the thread that is copied, as the copy finds it
    let t := ((s.setTh n (freshTh k)).setKmem m).pthread th
    let g : Pthread → Pthread := fun u =>
      { freshTh k u with
        th_sz := t.th_sz, pid := (s.proc np).pid, state := t.state, chan := t.chan
        context := { (contextAt k) with ebp := t.context.ebp }, ptable_idx := np
        thread_id := t.thread_id, joiner_pthread := some (s.proc np).main_thread_idx
        retval := t.retval }
    have hsame : ((s.setTh n (freshTh k)).setKmem m).setTh n (fun u => { u with
        th_sz := t.th_sz, pid := (((s.setTh n (freshTh k)).setKmem m).proc np).pid
        state := t.state, chan := t.chan, context := { u.context with ebp := t.context.ebp }
        ptable_idx := np, thread_id := t.thread_id
        joiner_pthread := some (((s.setTh n (freshTh k)).setKmem m).proc np).main_thread_idx
        retval := t.retval }) = (s.setTh n g).setKmem m := by
      simp [Kernel.setTh, Kernel.setKmem, g, freshTh]
    have hnew : Works K p none ((s.setTh n g).setKmem m) :=
      ⟨h.toLodged.newTh hk rfl (h.ids.proc_lt np), h.active⟩
    have hfree := hk.free
    rw [hsame]
    refine ⟨hnew.same (.setCont _ _ _) hnew.active, hnp, fun _ => ?_⟩
    rintro ⟨j, hj, hcount⟩
    -- a slot that has been given up was there before
    have hvacant : ∃ j, Vacant s j := by
      by_cases hjn : j = n
      · subst hjn
        have ht : t.state = .UNUSED := by simpa [g] using hj
        have hthn : th ≠ j := by
          rintro rfl
          simp [t, freshTh] at ht
        have hts : (s.pthread th).state = .UNUSED := by simpa [t, hthn] using ht
        exact ⟨th, hts, p, h.active.1, hth.1⟩
      · refine ⟨j, ?_, counted_setTh (s := s) (g := g) hjn hcount⟩
        simpa [hjn] using hj
    have hfew : copied (((s.setTh n g).setKmem m).setCont n
        (((s.setTh n (freshTh k)).setKmem m).cont th)) p ths ≤ copied s p ths := by
      refine copied_le fun j hp hm => ?_
      by_cases hjn : j = n
      · subst hjn
        have heq : (s.proc np).pid = (s.proc p).pid := by simpa [g] using hp
        exact absurd (h.ids.uniq np p hnp h.active.1 heq) hne
      · constructor
        · simpa [hjn] using hp
        · simpa [hjn] using hm
    have hall := hroom hvacant
    have hkm : (((s.setTh n g).setKmem m).setCont n
        (((s.setTh n (freshTh k)).setKmem m).cont th)).kmem = m := rfl
    rw [hkm]
    omega

/-- Copying the threads keeps everyone lodged. By induction on the table. -/
theorem forkThreads_lodged {np : Pidx} {ths : List Tidx} (h : Works K p none s)
    (hnp : InUse s np) (hne : np ≠ p) (hroom : CopyRoom s p ths) :
    wp (forkThreads p np ths) s (fun _ s' => Works K p none s') fun _ => True := by
  induction ths generalizing s with
  | nil => exact (wp_pure ..).2 h
  | cons th ths ih =>
      unfold forkThreads
      simp only [wp_bind]
      refine wp.mono (forkThread_lodged h hnp hne hroom) ?_ fun _ he => he
      rintro ok s1 ⟨h1, hu, hr⟩
      refine wp_ite (fun _ => (wp_pure ..).2 h1) fun hok => ih h1 hu (hr ?_)
      simpa using hok

/-- What the memory that `fork` finds must be good for, where there is a slot that has been
given up: the first kernel stack, and, if the copy of the memory succeeds, one for each
thread that is copied. -/
def ForkRoom (s : Kernel) (p : Pidx) : Prop :=
  (∃ j, Vacant s j) → (∃ q, (s.proc q).state = .UNUSED) → 0 < s.kmem.free ∧
    (copyPages (s.proc p).sz < s.kmem.free →
      copyPages (s.proc p).sz + copied s p (List.finRange NTHRD) < s.kmem.free)

/-- The new process and its first thread give no slot up, and are not copied. -/
theorem CopyRoom.forked (th : Tidx) {np : Pidx} {ths : List Tidx} (hids : Ids s) (hne : np ≠ p)
    (hpid : (s'.proc np).pid = s.nextpid) (hproc : ∀ q, q ≠ np → s'.proc q = s.proc q)
    (hth : (s'.pthread th).pid = s.nextpid ∧ (s'.pthread th).state ≠ .UNUSED)
    (hrest : ∀ j, j ≠ th → s'.pthread j = s.pthread j)
    (hroom : (∃ j, Vacant s j) → copied s p ths ≤ s'.kmem.free) : CopyRoom s' p ths := by
  rintro ⟨j, hj, q, hq, heq⟩
  have hjt : j ≠ th := by
    rintro rfl
    exact hth.2 hj
  rw [hrest j hjt] at hj heq
  have hqn : q ≠ np := by
    rintro rfl
    have := hids.th_lt j
    omega
  unfold InUse at hq
  rw [hproc q hqn] at hq heq
  have hfew : copied s' p ths ≤ copied s p ths := by
    refine copied_le fun e he hm => ?_
    rw [hproc p hne.symm] at he
    by_cases het : e = th
    · subst het
      have := hids.proc_lt p
      omega
    · rw [hrest e het] at he hm
      exact ⟨he, hm⟩
  exact le_trans hfew (hroom ⟨j, hj, q, hq, heq⟩)

/-- `fork` keeps everyone lodged where there is room for its copies. -/
theorem fork_lodged (h : Works K p none s) (hok : ForkRoom s p) :
    wp (fork p) s (fun _ s' => Works K p none s') fun _ => True := by
  unfold fork
  rw [wp_bind]
  refine allocproc_found (fun _ => (wp_pure ..).2 h) (fun q th hq hth hfree => (wp_pure ..).2 ?_)
    fun np th k m _ hnp hth hk => ?_
  · refine ⟨h.toLodged.clearTh (fun hc => ?_) rfl, h.active⟩
    have := (hok ⟨th, hth, hc⟩ ⟨q, hq⟩).1
    omega
  have hne : np ≠ p := fun heq => h.active.1 (heq ▸ hnp)
  have hp : (s.newProc np th k m).proc p = s.proc p := newProc_proc hne.symm
  have hnew : (s.newProc np th k m).proc np = freshProc s.nextpid k th (s.proc np) :=
    newProc_proc_self
  have hothers : ∀ q, q ≠ np → (s.newProc np th k m).proc q = s.proc q := fun q hq =>
    newProc_proc hq
  have hslot : (s.newProc np th k m).pthread th =
      { freshTh k (s.pthread th) with pid := s.nextpid } := newProc_pthread_self
  have hrest : ∀ j, j ≠ th → (s.newProc np th k m).pthread j = s.pthread j := fun j hj =>
    newProc_pthread hj
  have h1 : Works K p none (s.newProc np th k m) :=
    ⟨h.toLodged.newProc hnp hk, by rw [hp]; exact h.active⟩
  have hkm : (s.newProc np th k m).kmem = m := rfl
  generalize s.newProc np th k m = s1 at *
  have hused : InUse s1 np := by
    unfold InUse
    rw [hnew]
    simp [freshProc]
  have hpid1 : (s1.proc np).pid = s.nextpid := by rw [hnew]; rfl
  have hth1 : (s1.pthread th).pid = (s1.proc np).pid := by rw [hpid1, hslot]
  have hk1 : (s1.proc np).kstack = (s1.pthread th).kstack := by
    rw [hnew, hslot]
    rfl
  have hidx : (s1.proc np).thread_idx = th := by
    rw [hnew]
    rfl
  dsimp only
  simp only [wp_bind, wp_get]
  refine getPgdir_wp (fun pd hpd => ?_) fun _ => trivial
  simp only [wp_onKmem]
  refine wp.mono (wp.and (copyuvm_own h1.pages.all) (wp.and copyuvm_count (copyuvm_tame.kend _)))
    ?_ fun _ he => he
  rintro r m2 ⟨hmade, ⟨hcount, -⟩, hkend⟩
  have h2 : Lodged K r (s1.setKmem m2) := h1.toLodged.made hmade hkend
  cases r with
  | none =>
      -- the stack of the new slot is freed, and no process has its id any more
      simp only [wp_bind, wp_onKmem]
      refine kfree_gave (fun m3 hg => ?_) fun _ _ => trivial
      simp only [wp_setProc, wp_pure]
      have hg' : Gave (s1.setKmem m2).kmem m3 ((s1.setKmem m2).pthread th).kstack := hk1 ▸ hg
      refine ⟨h2.freeProc (i := th) hused hth1 hg' rfl rfl, ?_⟩
      rw [Kernel.setProc_ne hne.symm]
      exact h1.active
  | some d =>
  simp only [wp_bind, wp_setProc, wp_setCont, hidx]
  -- the new process takes over the copy
  let f : Proc → Proc := forkedProc p d (s1.proc p)
  change wp _ (((s1.setKmem m2).setProc np f).setCont th .user) _ _
  have h3 : Works K p none (((s1.setKmem m2).setProc np f).setCont th .user) := by
    have hcommit : Works K p none ((s1.setKmem m2).setProc np f) := by
      refine ⟨h2.commit hused rfl rfl (.inl rfl), ?_⟩
      rw [Kernel.setProc_ne hne.symm]
      exact h1.active
    exact hcommit.same (.setCont _ _ _) hcommit.active
  refine wp_ite (fun _ => ?_) fun hmain => ?_
  · simp only [wp_bind, wp_setProc, mvProcToThread_wp, clearProc_wp, wp_pure]
    have h4 := h3.setProc (q := np) (f := fun y =>
      { y with
        thread_assign := 1, thread_id := MAINTH
        joiner_pthread := some (s1.proc p).thread_idx }) rfl rfl Iff.rfl Iff.rfl
    have h5 := h4.setTh (i := th) (g := undress np
      (((((s1.setKmem m2).setProc np f).setCont th .user).setProc np fun y => { y with
        thread_assign := 1, thread_id := MAINTH
        joiner_pthread := some (s1.proc p).thread_idx }).proc np))
      (by simp [undress, f, forkedProc, hk1]) (by simp [undress, f, forkedProc, hth1])
    refine h5.setProc rfl rfl ?_ ?_
    · simp [cleared, f, forkedProc]
    · simp [cleared, Active, f, forkedProc]
  · simp only [wp_bind, mvProcToThread_wp]
    have h4 := h3.setTh (i := th) (g := undress np
      ((((s1.setKmem m2).setProc np f).setCont th .user).proc np))
      (by simp [undress, f, forkedProc, hk1]) (by simp [undress, f, forkedProc, hth1])
    have hfree := hk.free
    have hcopied := hcount (by simp)
    rw [hp, hkm] at hcopied
    refine wp.mono (forkThreads_lodged h4 ?_ hne ?_) (fun ok s4 h5 => ?_) fun _ he => he
    · unfold InUse
      simp [f, forkedProc]
    · refine CopyRoom.forked th h.ids hne ?_ (fun q hq => ?_) ?_
        (fun j hj => ?_) fun hv => ?_
      · simp [f, forkedProc, hpid1]
      · simp [hq, hothers q hq]
      · simp [undress, f, forkedProc, hpid1]
      · simp [hj, hrest j hj]
      · have hgot := (hok hv ⟨np, hnp⟩).2 (by omega)
        show _ ≤ m2.free
        omega
    · exact wp_ite (fun _ => (wp_pure ..).2 h5) fun _ => (wp_pure ..).2 h5

/-! ### Every call -/

/-- What keeps the ledger: as long as there is a slot that has been given up with the id of
a process in use, `thread_create` and `fork` find memory. -/
def KeepsRoom (p : Pidx) (s : Kernel) : Call → Prop
  | .thread_create => (∃ j, Vacant s j) → s.kmem.free ≠ 0
  | .fork => ForkRoom s p
  | _ => True

/-- Every call keeps everyone lodged under its condition, one case each. -/
theorem call_lodged {k : Cont} {b : Call} (h : Works K p none s) (hw : Wears p i s)
    (hok : KeepsRoom p s b) :
    wp (call p k b) s (fun _ s' => Works K p none s') fun _ => True := by
  have hret : ∀ {x : M Int}, wp x s (fun _ s' => Works K p none s') (fun _ => True) →
      wp (do return .ret (← x) : M Outcome) s (fun _ s' => Works K p none s')
        fun _ => True := by
    intro x hx
    rw [wp_bind]
    exact wp.mono hx (fun _ _ h1 => (wp_pure ..).2 h1) fun _ he => he
  -- one lemma for each call, above; `thread_create` and `fork` use the condition
  cases b with
  | yield => exact (wp_pure ..).2 h
  | sleep ch => exact sleep_lodged h
  | wakeup ch =>
      simp only [call, wp_bind, wakeup1_wp]
      exact (wp_pure ..).2 (h.woken ch)
  | inside w z => exact inside_lodged h
  | thread_create =>
      unfold call
      rw [wp_bind]
      refine wp.mono (thread_create_lodged h hok) (fun r s1 h1 => ?_) fun _ he => he
      cases r with
      | none => exact (wp_pure ..).2 h1
      | some n => exact (wp_pure ..).2 h1
  | thread_exit retval => exact thread_exit_lodged h
  | thread_join t w =>
      unfold call thread_join
      exact wp_ite (fun _ => (wp_pure ..).2 h) fun _ => joinScan_lodged h
  | sbrk n => exact hret (growproc_lodged h)
  | fork => exact hret (fork_lodged h hok)
  | exit => exact exit_lodged h
  | wait => exact waitScan_lodged h hw
  | exec elf argv => exact hret (execWith_lodged h)
  | exec2 elf argv n =>
      refine hret ?_
      unfold exec2
      exact wp_ite (fun _ => (wp_pure ..).2 h) fun _ => execWith_lodged h
  | kill pid => exact hret (kill_lodged h)
  | setmemorylimit pid limit => exact hret (setmemorylimit_lodged h)
  | resume w =>
      unfold call resume
      rw [wp_bind, wp_setProc]
      have h1 := h.setState (f := fun x => { x with chan := .null }) rfl rfl h.active
      -- a thread that wakes up goes on where it slept
      cases k with
      | user => exact (wp_pure ..).2 h1
      | sleep => exact (wp_pure ..).2 h1
      | join t => exact joinScan_lodged h1
      | wait => exact waitScan_lodged h1 hw.unchan

/-! ## Slices -/

/-- The thread is dressed, with the stack and the id of its slot. -/
theorem Lodged.dressed (h : Lodged K none s) (hp : Pickable s p i) :
    Works K p none (s.dressed p i) := by
  have hact : Active (s.proc p) := by
    unfold Active
    rw [hp.1]
    exact ⟨by simp, by simp⟩
  refine ⟨h.same (.setProc ?_ ?_ (fun _ => hact.1) fun _ => hact), ?_⟩
  · simp [hp.2.1]
  · simp
  · simp [Kernel.dressed, Active]

/-- It goes back into the slot, with the stack and the id of the process. -/
theorem Lodged.left {a : Label} {k : Cont} {o : Outcome} {b : Call} (h : Lodged K none s)
    (hk : (s.pthread a.i).kstack = (s.proc a.p).kstack)
    (hpid : (s.pthread a.i).pid = (s.proc a.p).pid) (hact : Active (s.proc a.p))
    (hparked : Parked k b (s.proc a.p) o) : Lodged K none (a.left s' k s o) := by
  have hdir : ((a.left s' k s o).proc a.p).pgdir = (s.proc a.p).pgdir := by
    cases o <;> simp [Label.left, Outcome.parked, Kernel.undressed, cleared]
  have hkstack : ((a.left s' k s o).pthread a.i).kstack = (s.proc a.p).kstack := by
    cases o <;> simp [Label.left, Outcome.parked, Kernel.undressed, undress]
  refine h.same ⟨fun j => ?_, fun j => ?_, after_pid, fun q => (after_inUse hparked).1,
    fun q hq => ?_, ?_, after_nextpid.1⟩
  · by_cases hj : j = a.i
    · rw [hj, hkstack, hk]
    · rw [(after_th hj).1]
  · by_cases hj : j = a.i
    · rw [hj, after_own.1, hpid]
    · rw [(after_th hj).1]
  · by_cases hqp : q = a.p
    · rw [hqp]
      exact ⟨hact, hdir⟩
    · rw [after_proc hqp] at hq ⊢
      exact ⟨hq, rfl⟩
  · cases o <;> rfl

/-! ## The first process -/

/-- At boot nobody has a kernel stack. -/
theorem boot_lodged (hm : Booted m) (hk : KERNLINK ≤ m.kend) :
    Lodged m.kend none (boot m) where
  high := Nat.lt_of_lt_of_le (by decide) hk
  kend := rfl
  pages := by
    refine boot_pages hm (le_trans (Nat.le_add_right _ _) hk) fun a ha hn => hn ?_
    rcases List.mem_map.1 ha with ⟨v, hv, rfl⟩
    exact ⟨(hm.frame v hv).1, v.2, (hm.frame v hv).2⟩
  stack := by
    rintro i ⟨q, hq, -⟩
    exact absurd rfl hq
  dir := by
    rintro q ⟨hq, -⟩
    exact absurd rfl hq
  ids := by
    refine ⟨fun _ => Nat.zero_lt_one, fun _ => Nat.zero_lt_one, fun q hq => ?_,
      fun q r hq _ _ => ?_⟩
    · exact absurd rfl hq
    · exact absurd rfl hq

/-- The first process is lodged. -/
theorem userinit_lodged (hm : Booted m) (hk : KERNLINK ≤ m.kend) :
    wp userinit (boot m) (fun _ s => Lodged m.kend none s) fun _ => True := by
  have h0 := boot_lodged hm hk
  unfold userinit
  rw [wp_bind]
  refine allocproc_took (fun _ => (wp_throw ..).2 trivial) (fun _ _ _ => (wp_throw ..).2 trivial)
    fun p th k m1 _ hp _ hk => ?_
  have h1 : Lodged m.kend none ((boot m).newProc p th k m1) := h0.newProc hp hk
  have hnew : ((boot m).newProc p th k m1).proc p = freshProc 1 k th Proc.zero := newProc_proc_self
  have hslot : ((boot m).newProc p th k m1).pthread th =
      { freshTh k Pthread.zero with pid := 1 } := newProc_pthread_self
  generalize (boot m).newProc p th k m1 = s1 at *
  have h2 : Lodged m.kend none { s1 with initproc := p } :=
    h1.same ⟨fun _ => rfl, fun _ => rfl, fun _ => rfl, fun _ hq => hq, fun _ hq => ⟨hq, rfl⟩, rfl,
      rfl⟩
  simp only [wp_bind, wp_modify, wp_onKmem]
  refine wp.mono (wp.and (setupkvm_own h2.pages.all) (setupkvm_tame.kend _)) ?_ fun _ he => he
  rintro r m2 ⟨hm2, hk2⟩
  cases r with
  | none => exact wp_halt.2 trivial
  | some pd =>
  simp only [wp_bind, wp_onKmem]
  refine wp.mono (wp.and (inituvm_own hm2) (inituvm_tame.kend _)) ?_ fun _ he => he
  rintro pd' m3 ⟨hm3, hk3⟩
  have hidx : (s1.proc p).thread_idx = th := by
    rw [hnew]
    rfl
  simp only [wp_setPgdir, wp_get, wp_setProc, mvProcToThread_wp, clearProc_wp,
    Kernel.setKmem_setKmem, Kernel.setProc_self, Kernel.setKmem_proc, hidx]
  -- the process gets the directory and starts
  rw [Kernel.setProc_setProc]
  have hused : InUse (Kernel.setKmem { s1 with initproc := p } m3) p := by
    show (s1.proc p).state ≠ .UNUSED
    rw [hnew]
    simp [freshProc]
  have h3 : Lodged m.kend none ((Kernel.setKmem { s1 with initproc := p } m3).setProc p
      (firstProc p th pd')) :=
    (h2.made (r := some pd') hm3 (hk3.trans hk2)).commit hused rfl rfl (.inl rfl)
  refine (h3.same (.setTh (i := th) (g := undress p _) ?_ ?_)).same (.setProc rfl rfl ?_ ?_)
  · simp [undress, hnew, hslot, freshProc, freshTh]
  · simp [undress, hnew, hslot, freshProc]
  · intro _
    simp [firstProc]
  · intro _
    simp [Active, firstProc]

/-- The first process holds what it was given. -/
theorem Loaded.lodged (h : Loaded s) : ∃ K, Lodged K none s := by
  rcases h with ⟨m, hm, hk, hrun⟩
  exact ⟨m.kend, (userinit_lodged hm hk).of_ok hrun⟩

end Xv6.Thread
