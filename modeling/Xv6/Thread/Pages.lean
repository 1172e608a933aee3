import Xv6.Thread.Own

/-!
# The pages of the kernel

A ledger of all pages: who holds which, over the whole state. A page is the kernel
stack of a slot, or it is at some place in the directory of a process or in a
directory that the running code is working on. The same ledger serves several
invariants, which differ in the slots whose stacks they count (`own`), and in the
addresses that they take for nobody's (`wild`).

Main lemmas: `Pages.dir` and `Pages.setDir` let code work on the directory of one
process, with all else as a frame; `Pages.made`, `Pages.commit`, `Pages.work` and
`Pages.discard` follow a directory that is being made; `Pages.reapDir` takes the
directory of a process away.
-/

namespace Xv6.Thread

open Xv6.Lib Prog

/-- Where something can be held. -/
inductive Owner
  /-- the stack of a slot -/
  | slot (i : Tidx)
  /-- a place in the directory of a process -/
  | dir (q : Pidx) (r : Site)
  /-- a place in the directory that the running code is working on -/
  | code (r : Site)
  /-- the addresses that are nobody's -/
  | wild

/-- The process has a directory of its own. -/
def Active (x : Proc) : Prop := x.state ≠ .UNUSED ∧ x.state ≠ .EMBRYO

/-- Who holds which page; `c` is the directory the running code is working on. -/
def Kernel.holds (s : Kernel) (own : Tidx → Prop) (wild : Nat → Prop) (c : Option PageDir) :
    Owner → Nat → Prop
  | .slot i, a => own i ∧ (s.pthread i).kstack = a ∧ a ≠ 0
  | .dir q r, a => Active (s.proc q) ∧ ∃ pd, (s.proc q).pgdir = some pd ∧ pd.pageAt r = some a
  | .code r, a => ∃ pd, c = some pd ∧ pd.pageAt r = some a
  | .wild, a => wild a

/-- No page is held twice, and none that is free is held. -/
def Pages (own : Tidx → Prop) (wild : Nat → Prop) (c : Option PageDir) (s : Kernel) : Prop :=
  Stock s.kmem (s.holds own wild c)

variable {s s' : Kernel} {own own' : Tidx → Prop} {wild : Nat → Prop} {c c' : Option PageDir}
  {p q : Pidx} {i j : Tidx} {m : Kmem}

namespace Pages

/-- Who holds less holds no page twice either. -/
theorem mono (h : Pages own wild c s) (hk : s'.kmem = s.kmem)
    (hle : ∀ o a, s'.holds own' wild c' o a → s.holds own wild c o a) :
    Pages own' wild c' s' := by
  unfold Pages
  rw [hk]
  exact Stock.mono h hle

/-- Fewer slots count. -/
theorem fewer (h : Pages own wild c s) (hle : ∀ i, own' i → own i) : Pages own' wild c s := by
  refine h.mono rfl ?_
  intro o a ho
  cases o with
  | slot i => exact ⟨hle i ho.1, ho.2⟩
  | dir q r => exact ho
  | code r => exact ho
  | wild => exact ho

/-- Nothing has changed hands but for what is no longer held. -/
theorem release {F : Nat → Prop} (h : Pages own wild c s) (hap : Apart F s'.kmem)
    (hle : ∀ o a, s'.holds own' wild c' o a → s.holds own wild c o a ∧ F a) :
    Pages own' wild c' s' := by
  refine ⟨hap.ledger.comap (fun _ => ()) (fun o a ha => (hle o a ha).2) ?_, hap.high, hap.aligned⟩
  exact fun o o' a _ ha ha' => h.ledger.apart o o' a (hle o a ha).1 (hle o' a ha').1

/-- All that is held, as one owner sees it. -/
theorem all (h : Pages own wild c s) : Apart (fun a => ∃ o, s.holds own wild c o a) s.kmem :=
  (⟨h.ledger.merge fun _ => (), h.high, h.aligned⟩ : Stock s.kmem _).mono
    fun _ _ ⟨o, ho⟩ => ⟨o, rfl, ho⟩

end Pages

/-! ## Slots -/

namespace Pages

variable {g : Pthread → Pthread}

/-- A slot takes a new page for its stack. -/
theorem newTh {k : Nat} (h : Pages own wild c s) (ht : Took s.kmem m k)
    (hk : (g (s.pthread i)).kstack = k) (hle : ∀ j, j ≠ i → own' j → own j) :
    Pages own' wild c ((s.setTh i g).setKmem m) := by
  refine Stock.take h ht (.slot i) ?_
  intro o a ho
  cases o with
  | dir q r => exact .inl ho
  | code r => exact .inl ho
  | wild => exact .inl ho
  | slot j =>
      rcases ho with ⟨hown, ha, hne⟩
      by_cases hj : j = i
      · subst hj
        rw [Kernel.setKmem_pthread, Kernel.setTh_self, hk] at ha
        exact .inr ⟨rfl, ha.symm⟩
      · rw [Kernel.setKmem_pthread, Kernel.setTh_ne hj] at ha
        exact .inl ⟨hle j hj hown, ha, hne⟩

/-- A slot loses its stack, or no longer counts. -/
theorem clearTh (h : Pages own wild c s) (hk : own' i → (g (s.pthread i)).kstack = 0)
    (hle : ∀ j, j ≠ i → own' j → own j) : Pages own' wild c (s.setTh i g) := by
  refine h.mono rfl ?_
  intro o a ho
  cases o with
  | dir q r => exact ho
  | code r => exact ho
  | wild => exact ho
  | slot j =>
      rcases ho with ⟨hown, ha, hne⟩
      by_cases hj : j = i
      · subst hj
        rw [Kernel.setTh_self, hk hown] at ha
        exact absurd ha.symm hne
      · rw [Kernel.setTh_ne hj] at ha
        exact ⟨hle j hj hown, ha, hne⟩

/-- The stack of a slot is freed. -/
theorem freeTh (h : Pages own wild c s) (hg : Gave s.kmem m (s.pthread i).kstack) (hi : own i)
    (hk : own' i → (g (s.pthread i)).kstack = 0) (hle : ∀ j, j ≠ i → own' j → own j) :
    Pages own' wild c ((s.setKmem m).setTh i g) := by
  have hpos := hg.pos
  have hown : s.holds own wild c (.slot i) (s.pthread i).kstack := ⟨hi, rfl, by omega⟩
  refine Stock.back h hg hown ?_
  intro o a ho
  -- the slot itself holds nothing any more
  have hslot : o ≠ .slot i := by
    rintro rfl
    rcases ho with ⟨hown', ha, hne⟩
    rw [Kernel.setTh_self, Kernel.setKmem_pthread, hk hown'] at ha
    exact hne ha.symm
  have hold : s.holds own wild c o a := by
    cases o with
    | dir q r => exact ho
    | code r => exact ho
    | wild => exact ho
    | slot j =>
        rcases ho with ⟨hown', ha, hne⟩
        have hj : j ≠ i := fun heq => hslot (heq ▸ rfl)
        rw [Kernel.setTh_ne hj] at ha
        exact ⟨hle j hj hown', ha, hne⟩
  refine ⟨hold, ?_⟩
  rintro rfl
  exact hslot (h.ledger.apart o (.slot i) _ hold hown)

end Pages

/-! ## Directories of processes -/

/-- What is held elsewhere than in the directory of `q`. -/
def Kernel.besides (s : Kernel) (own : Tidx → Prop) (wild : Nat → Prop) (c : Option PageDir)
    (q : Pidx) (a : Nat) : Prop :=
  ∃ o, (∀ r, o ≠ .dir q r) ∧ s.holds own wild c o a

namespace Owner

def within (q : Pidx) : Owner → Option Site
  | .dir q' r => if q' = q then some r else none
  | _ => none

/-- A page of a process is a page of its table. -/
theorem within_some {o : Owner} {r : Site} (h : o.within q = some r) : o = .dir q r := by
  cases o with
  | slot i => cases h
  | code r => cases h
  | wild => cases h
  | dir q' r' =>
      by_cases hq : q' = q
      · simp only [within, if_pos hq, Option.some.injEq] at h
        rw [hq, h]
      · simp [within, hq] at h

end Owner

namespace Pages

/-- The directory of a process, apart from all else. -/
theorem dir {pd : PageDir} (h : Pages own wild c s) (hact : Active (s.proc q))
    (hpd : (s.proc q).pgdir = some pd) : Owned (s.besides own wild c q) pd s.kmem := by
  refine (⟨h.ledger.merge (Owner.within q), h.high, h.aligned⟩ : Stock s.kmem _).mono ?_
  intro r a ha
  cases r with
  | none =>
      rcases ha with ⟨o, ho, ha⟩
      refine ⟨o, ?_, ha⟩
      cases hw : o.within q with
      | none => rfl
      | some r => exact absurd (Owner.within_some hw) (ho r)
  | some r => exact ⟨.dir q r, by simp [Owner.within], hact, pd, hpd, ha⟩

/-- The directory of one process has been worked on. -/
theorem setDir {pd : PageDir} (h : Pages own wild c s)
    (hown : Owned (s.besides own wild c q) pd s'.kmem) (hth : s'.pthread = s.pthread)
    (hother : ∀ r, r ≠ q → s'.proc r = s.proc r) (hpd : (s'.proc q).pgdir = some pd) :
    Pages own wild c s' := by
  refine ⟨hown.ledger.comap (Owner.within q) ?_ ?_, hown.high, hown.aligned⟩
  · intro o a ha
    cases o with
    | slot i =>
        refine ⟨.slot i, by simp, ?_⟩
        rwa [Kernel.holds, hth] at ha
    | code r => exact ⟨.code r, by simp, ha⟩
    | wild => exact ⟨.wild, by simp, ha⟩
    | dir q' r =>
        by_cases hq : q' = q
        · subst hq
          rcases ha with ⟨-, pd', hpd', hr⟩
          rw [hpd] at hpd'
          cases hpd'
          simpa [Owner.within, PageDir.held] using hr
        · rw [Kernel.holds, hother q' hq] at ha
          simp only [Owner.within, if_neg hq]
          exact ⟨.dir q' r, by simp [hq], ha⟩
  · intro o o' a heq ha ha'
    cases hw : o.within q with
    | some r =>
        have hw' : o'.within q = some r := heq ▸ hw
        rw [Owner.within_some hw, Owner.within_some hw']
    | none =>
        -- both were held by the same owner before
        have hback : ∀ o : Owner, o.within q = none → s'.holds own wild c o a →
            s.holds own wild c o a := by
          intro o hn hs
          cases o with
          | slot i => rwa [Kernel.holds, hth] at hs
          | code r => exact hs
          | wild => exact hs
          | dir q' r =>
              have hq : q' ≠ q := by
                rintro rfl
                simp [Owner.within] at hn
              rwa [Kernel.holds, hother q' hq] at hs
        exact h.ledger.apart o o' a (hback o hw ha) (hback o' (heq ▸ hw) ha')

/-- The memory of a process that is no more has been freed. -/
theorem reapDir {f : Proc → Proc} (h : Pages own wild c s) (hap : Apart (s.besides own wild c q) m)
    (hf : ¬ Active (f (s.proc q))) : Pages own wild c ((s.setKmem m).setProc q f) := by
  refine h.release hap ?_
  intro o a ho
  have hne : ∀ r, o ≠ .dir q r := by
    rintro r rfl
    have hact := ho.1
    rw [Kernel.setProc_self] at hact
    exact hf hact
  have hold : s.holds own wild c o a := by
    cases o with
    | slot i => exact ho
    | code r => exact ho
    | wild => exact ho
    | dir q' r =>
        have hq : q' ≠ q := fun heq => hne r (heq ▸ rfl)
        rwa [Kernel.holds, Kernel.setProc_ne hq] at ho
  exact ⟨hold, o, hne, hold⟩

end Pages

/-! ## Directories under construction -/

def Owner.work : Owner → Option Site
  | .code r => some r
  | _ => none

/-- A page in work is one of the table in work. -/
theorem Owner.work_some {o : Owner} {r : Site} (h : o.work = some r) : o = .code r := by
  cases o with
  | code r' =>
      cases h
      rfl
  | _ => cases h

namespace Pages

/-- While no directory is being made, the code holds nothing. -/
theorem no_code {r : Site} {a : Nat} : ¬ s.holds own wild none (.code r) a := by
  rintro ⟨pd, hpd, -⟩
  cases hpd

/-- The code has made a directory, or has failed to. -/
theorem made {r : Option PageDir} (h : Pages own wild none s)
    (hm : Made (fun a => ∃ o, s.holds own wild none o a) m r) : Pages own wild r (s.setKmem m) := by
  cases r with
  | none => exact h.release hm fun o a ho => ⟨ho, o, ho⟩
  | some pd =>
      have hown : Owned (fun a => ∃ o, s.holds own wild none o a) pd m := hm
      -- what the code does not hold was held before
      have hold : ∀ o a, o.work = none → (s.setKmem m).holds own wild (some pd) o a →
          s.holds own wild none o a := by
        intro o a hw ho
        cases o with
        | slot i => exact ho
        | dir q r => exact ho
        | wild => exact ho
        | code r => cases hw
      refine ⟨hown.ledger.comap Owner.work ?_ ?_, hown.high, hown.aligned⟩
      · intro o a ho
        cases hw : o.work with
        | none => exact ⟨o, hold o a hw ho⟩
        | some r =>
            rw [Owner.work_some hw] at ho
            rcases ho with ⟨pd', hpd', hr⟩
            cases hpd'
            exact hr
      · intro o o' a heq ho ho'
        cases hw : o.work with
        | none => exact h.ledger.apart o o' a (hold o a hw ho) (hold o' a (heq ▸ hw) ho')
        | some r =>
            have hw' : o'.work = some r := heq ▸ hw
            rw [Owner.work_some hw, Owner.work_some hw']

/-- The directory the code was working on, apart from all else. -/
theorem work {pd : PageDir} (h : Pages own wild (some pd) s) :
    Owned (fun a => ∃ o, s.holds own wild none o a) pd s.kmem := by
  refine (⟨h.ledger.merge Owner.work, h.high, h.aligned⟩ : Stock s.kmem _).mono ?_
  intro r a ha
  cases r with
  | none =>
      rcases ha with ⟨o, ho⟩
      cases o with
      | slot i => exact ⟨.slot i, rfl, ho⟩
      | dir q r => exact ⟨.dir q r, rfl, ho⟩
      | wild => exact ⟨.wild, rfl, ho⟩
      | code r => exact absurd ho no_code
  | some r => exact ⟨.code r, rfl, pd, rfl, ha⟩

/-- The directory that the code was working on has been freed. -/
theorem discard {pd : PageDir} (h : Pages own wild (some pd) s)
    (hap : Apart (fun a => ∃ o, s.holds own wild none o a) m) :
    Pages own wild none (s.setKmem m) := by
  refine h.release hap ?_
  intro o a ho
  refine ⟨?_, o, ho⟩
  cases o with
  | slot i => exact ho
  | dir q r => exact ho
  | wild => exact ho
  | code r => exact absurd ho no_code

/-- The owner before a process `q` takes over what the code has made, and the code
what `q` had. -/
def before (q : Pidx) : Owner → Owner
  | .dir q' r => if q' = q then .code r else .dir q' r
  | .code r => .dir q r
  | o => o

/-- Exchanging a table for the one in work, twice. -/
theorem before_before (o : Owner) : before q (before q o) = o := by
  cases o with
  | slot i => rfl
  | wild => rfl
  | code r => simp [before]
  | dir q' r =>
      by_cases hq : q' = q
      · simp [before, hq]
      · simp [before, hq]

/-- A process takes over the directory that the code has made, and the code the
one that the process had, if it had one. -/
theorem commit {pd : PageDir} {f : Proc → Proc} (h : Pages own wild (some pd) s)
    (hf : (f (s.proc q)).pgdir = some pd)
    (hc : c' = none ∨ Active (s.proc q) ∧ c' = (s.proc q).pgdir) :
    Pages own wild c' (s.setProc q f) := by
  have hbefore : ∀ o a, (s.setProc q f).holds own wild c' o a →
      s.holds own wild (some pd) (before q o) a := by
    intro o a ho
    cases o with
    | slot i => exact ho
    | wild => exact ho
    | code r =>
        rcases ho with ⟨pd', hpd', hr⟩
        rcases hc with rfl | ⟨hact, rfl⟩
        · cases hpd'
        · exact ⟨hact, pd', hpd', hr⟩
    | dir q' r =>
        by_cases hq : q' = q
        · subst hq
          rcases ho with ⟨-, pd', hpd', hr⟩
          rw [Kernel.setProc_self, hf] at hpd'
          cases hpd'
          simpa [before, Kernel.holds] using hr
        · rw [Kernel.holds, Kernel.setProc_ne hq] at ho
          simpa [before, hq, Kernel.holds] using ho
  refine ⟨h.ledger.comap (before q) hbefore ?_, h.high, h.aligned⟩
  intro o o' a heq ho ho'
  rw [← before_before (q := q) o, heq, before_before]

end Pages

/-! ## Processes that take over a directory -/

/-- What `fork` makes of the process `y` that it has found, for the process `x` in slot `p`:
`d` is the copy of the address space. -/
def forkedProc (p : Pidx) (d : PageDir) (x y : Proc) : Proc :=
  { y with
    pgdir := some d, parent_proc := some p, parent_pthread := some x.thread_idx, sz := x.sz
    memlimit := x.memlimit, thread_assign := x.thread_assign, stacksz := x.stacksz
    th_sz := x.th_sz, state := .RUNNABLE, chan := x.chan, killed := x.killed
    thread_id := x.thread_id, freed_sz := x.freed_sz }

/-- What `userinit` makes of the first process, in slot `p` with its thread in slot `th`. -/
def firstProc (p : Pidx) (th : Tidx) (d : PageDir) (y : Proc) : Proc :=
  { y with
    pgdir := some d, sz := PGSIZE, state := .RUNNABLE, th_sz := PGSIZE, parent_proc := some p
    parent_pthread := some th, joiner_pthread := some th, freed_sz := noFreed }

/-! ## At boot -/

/-- At boot all pages are free. -/
theorem boot_pages (hm : Booted m) (hk : KERNBASE ≤ m.kend)
    (hwild : ∀ a ∈ m.pages, ¬ wild a) : Pages own wild none (boot m) := by
  have hnone : ∀ o a, (boot m).holds own wild none o a → o = .wild ∧ wild a := by
    intro o a ho
    cases o with
    | slot i => exact absurd ho.2.1.symm ho.2.2
    | dir q r => exact absurd rfl ho.1.1
    | code r => exact absurd ho Pages.no_code
    | wild => exact ⟨rfl, ho⟩
  refine ⟨⟨hm.nodup.map Subtype.val_injective, ?_, ?_⟩, hk, ?_⟩
  · intro a ha o ho
    exact hwild a ha (hnone o a ho).2
  · intro o o' a ho ho'
    rw [(hnone o a ho).1, (hnone o' a ho').1]
  · intro a ha
    rcases List.mem_map.1 ha with ⟨v, hv, rfl⟩
    exact (hm.frame v hv).1

end Xv6.Thread
