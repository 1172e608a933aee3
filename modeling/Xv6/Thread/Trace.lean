import Xv6.Thread.Boot
import Xv6.Thread.Own

/-!
# What a failed fork leaves

`fork` sets the new process up in two steps: `allocproc` takes the slots and the
kernel stack, `copyuvm` the address space. A failure of the first leaves nothing
behind; after a failure of the second `fork` rolls back the process slot only,
and the thread slot that goes with it is never used again.

* `forkSetup`: the part of `fork` that can fail, and `fork_of_setup` that `fork`
  returns -1 with what it has left;
* `fork_trace_iff`: for every state and every such failure there is no trace if and
  only if a slot or the page for the stack was missing;
* `fork_leaves_thread`: memory for the stack, and not for the copy.

The run for the second kind of failure starts at boot, and the first process takes
all of the memory but one page with calls of `sbrk` (`drained`).
-/

namespace Xv6.Thread

open Xv6.Lib Prog

variable {p : Pidx} {s s1 : Kernel}

/-! ## Setting up -/

/-- `fork` up to the copy of the address space; nothing stands for its -1. -/
def forkSetup (p : Pidx) : M (Option (Pidx × PageDir)) := do
  match ← allocproc with
  | none => return none
  | some np => do
      let s ← get
      let pd ← getPgdir p
      match ← onKmem (copyuvm pd (s.proc p).sz) with
      | none => do
          onKmem (kfree (s.proc np).kstack)
          setProc np fun y => { y with pgdir := none, kstack := 0, state := .UNUSED }
          return none
      | some d => return some (np, d)

/-- `fork` returns -1 if the new process cannot be set up. -/
theorem fork_of_setup (h : (forkSetup p).run s = .ok (none, s1)) :
    (fork p).run s = .ok (-1, s1) := by
  have hwp : wp (forkSetup p) s (fun r s' => r = none ∧ s' = s1) fun _ => False := by
    exact wp_of_ok h ⟨rfl, rfl⟩
  have hfork : wp (fork p) s (fun r s' => r = -1 ∧ s' = s1) fun _ => False := by
    unfold forkSetup at hwp
    unfold fork
    rw [wp_bind] at hwp ⊢
    refine hwp.mono (fun np s2 hwp => ?_) fun _ he => he
    cases np with
    | none =>
        rw [wp_pure] at hwp
        exact (wp_pure ..).2 ⟨rfl, hwp.2⟩
    | some np =>
        simp only [wp_bind, wp_get] at hwp ⊢
        refine hwp.mono (fun pd s3 hwp => ?_) fun _ he => he
        refine hwp.mono (fun d s4 hwp => ?_) fun _ he => he
        cases d with
        | none =>
            simp only [wp_bind] at hwp ⊢
            refine hwp.mono (fun _ s5 hwp => ?_) fun _ he => he
            rw [wp_setProc, wp_pure] at hwp ⊢
            exact ⟨rfl, hwp.2⟩
        | some d =>
            rw [wp_pure] at hwp
            cases hwp.1
  rcases Ends.exists hfork with ⟨r, s', hrun, rfl, rfl⟩
  exact hrun

/-! ## Traces -/

/-- The failure has taken no slot, left no pointer to a stack that was not there
before, and given back the pages. -/
structure NoTrace (s s1 : Kernel) : Prop where
  proc : ∀ q, (s.proc q).state = .UNUSED → (s1.proc q).state = .UNUSED
  pthread : ∀ i, (s.pthread i).state = .UNUSED → (s1.pthread i).state = .UNUSED
  procStack : ∀ q, (s1.proc q).kstack = (s.proc q).kstack ∨ (s1.proc q).kstack = 0
  stack : ∀ i, (s1.pthread i).kstack = (s.pthread i).kstack ∨ (s1.pthread i).kstack = 0
  pages : s1.kmem.pages.Perm s.kmem.pages

/-- `allocproc` finds no process slot, no thread slot or no page. -/
def Exhausted (s : Kernel) : Prop :=
  (∀ q, (s.proc q).state ≠ .UNUSED) ∨ (∀ i, (s.pthread i).state ≠ .UNUSED) ∨ s.kmem.free = 0

/-- What `forkSetup` leaves when it fails: nothing, but perhaps a null stack
pointer in an unused slot; or the thread slot it had taken. -/
theorem forkSetup_fails :
    wp (forkSetup p) s
      (fun r s1 => r = none →
        (Exhausted s ∧ (s1 = s ∨ ∃ i, (s.pthread i).state = .UNUSED ∧
          s1 = s.setTh i fun t => { t with kstack := 0 })) ∨
        ∃ th, (s.pthread th).state = .UNUSED ∧ (s1.pthread th).state = .EMBRYO ∧ ¬ Exhausted s)
      fun _ => True := by
  unfold forkSetup
  rw [wp_bind]
  refine allocproc_took (fun hfull => (wp_pure ..).2 fun _ => .inl ⟨?_, .inl rfl⟩)
    (fun i hi h0 => (wp_pure ..).2 fun _ => .inl ⟨.inr (.inr h0), .inr ⟨i, hi, rfl⟩⟩)
    fun np th k m _ hnp hth hk => ?_
  · exact hfull.imp id .inl
  -- a process, a slot and a page were free
  have hnot : ¬ Exhausted s := by
    have hfree := hk.free
    rintro (h | h | h)
    · exact h np hnp
    · exact h th hth
    · omega
  have hslot : ((s.newProc np th k m).pthread th).state = .EMBRYO := by
    simp [Kernel.newProc, freshTh]
  generalize s.newProc np th k m = s2 at hslot
  dsimp only
  simp only [wp_bind, wp_get]
  refine getPgdir_wp (fun pd _ => ?_) fun _ => trivial
  rw [wp_onKmem]
  refine wp_any fun d m1 => ?_
  cases d with
  -- the address space could not be copied: the slot is left an embryo
  | none =>
      dsimp only
      rw [wp_bind, wp_onKmem]
      refine wp_any fun _ m2 => ?_
      rw [wp_bind, wp_setProc]
      exact (wp_pure ..).2 fun _ => .inr ⟨th, hth, hslot, hnot⟩
  | some d => exact (wp_pure ..).2 (by simp)

/-! ## A machine with one page -/

variable {m : Kmem}

/-- The page tables of the first `n` pages, none of which is mapped from `v` on. -/
structure Filled (pd : PageDir) (v : Nat) : Prop where
  tab : ∀ w, pd.Tab w ↔ w / NPTENTRIES < tabs v
  rest : ∀ w, v ≤ w → ¬ pd.Has w

/-- What has been taken from the free list. -/
structure Taken (m m' : Kmem) (n : Nat) : Prop where
  free : m.free = m'.free + n
  sub : ∀ a ∈ m'.pages, a ∈ m.pages
  kend : m'.kend = m.kend

theorem Taken.trans {m1 m2 m3 : Kmem} {n k : Nat} (h : Taken m1 m2 n) (h' : Taken m2 m3 k) :
    Taken m1 m3 (n + k) :=
  ⟨by rw [h.free, h'.free]; omega, fun a ha => h.sub a (h'.sub a ha), h'.kend.trans h.kend⟩

theorem Took.taken {m m' : Kmem} {r : Nat} (h : Took m m' r) : Taken m m' 1 := by
  refine ⟨h.free, fun a ha => ?_, h.kend⟩
  rw [h.pages]
  exact List.mem_cons_of_mem _ ha

/-- `mappages` takes a page where the table is missing. -/
theorem mappages_taken {pd : PageDir} {v : Nat} {e : Pte} (hm : pd.Tab v ∨ m.free ≠ 0)
    (hnew : ¬ pd.Has v) :
    Ends (mappages pd v e) m fun r m' => r.2 = true ∧ Taken m m' (if pd.Tab v then 0 else 1) ∧
      (∀ w, r.1.Tab w ↔ pd.Tab w ∨ w / NPTENTRIES = v / NPTENTRIES) ∧
      ∀ w, r.1.Has w ↔ pd.Has w ∨ w = v := by
  -- what is left once the page table is there
  have hrest : ∀ (pd' : PageDir) (m' : Kmem) (n : Nat), Taken m m' n → pd'.Tab v →
      (∀ w, pd'.Tab w ↔ pd.Tab w ∨ w / NPTENTRIES = v / NPTENTRIES) →
      (∀ w, pd'.entry w = pd.entry w) →
      Ends (do
        if (pd'.entry v).isSome then throw (Stop.panic "remap")
        return (pd'.setEntry v (some e), true) : KM (PageDir × Bool)) m'
        fun r m' => r.2 = true ∧ Taken m m' n ∧
          (∀ w, r.1.Tab w ↔ pd.Tab w ∨ w / NPTENTRIES = v / NPTENTRIES) ∧
          ∀ w, r.1.Has w ↔ pd.Has w ∨ w = v := by
    intro pd' m' n hn htv htab hentry
    have hv : ¬ (pd'.entry v).isSome = true := by
      rw [hentry]
      exact hnew
    rw [if_neg hv]
    refine (wp_pure ..).2 ⟨rfl, hn, fun w => ?_, fun w => ?_⟩
    · rw [PageDir.tab_setEntry, htab]
    · unfold PageDir.Has
      rw [PageDir.entry_setEntry htv, hentry]
      by_cases hw : w = v
      · simp [hw]
      · simp [hw]
  unfold mappages walkpgdir
  rw [Ends, wp_bind]
  refine wp_ite (fun ht => ?_) fun ht => ?_
  · have htv : pd.Tab v := ht
    rw [if_pos htv]
    refine (wp_pure ..).2 (hrest pd m 0 ⟨rfl, fun _ ha => ha, rfl⟩ htv (fun w => ?_) fun _ => rfl)
    refine ⟨.inl, ?_⟩
    rintro (hw | hw)
    · exact hw
    · exact (PageDir.tab_congr hw).2 htv
  · have htv : ¬ pd.Tab v := ht
    rw [if_neg htv]
    simp only [Bool.true_eq_false, if_false, wp_bind]
    refine kalloc_took (fun h0 => absurd h0 (hm.resolve_left htv)) fun page m1 h1 => ?_
    refine (wp_pure ..).2 (hrest (pd.setTable v page) m1 1 h1.taken PageDir.tab_setTable
      (fun w => ?_) (PageDir.entry_setTable ht page))
    unfold PageDir.Tab PageDir.setTable
    by_cases hw : w / NPTENTRIES = v / NPTENTRIES
    · simp [hw]
    · simp [hw]

/-- The next page of a filled directory. -/
theorem mappages_filled {pd : PageDir} {v : Nat} {e : Pte} (hf : Filled pd v)
    (hm : tabs (v + 1) ≤ m.free + tabs v) :
    Ends (mappages pd v e) m fun r m' =>
      r.2 = true ∧ Taken m m' (tabs (v + 1) - tabs v) ∧ Filled r.1 (v + 1) := by
  have hsucc := tabs_succ v
  have hmono : tabs v ≤ tabs (v + 1) := tabs_mono (Nat.le_succ v)
  have hroom : pd.Tab v ∨ m.free ≠ 0 := by
    rw [hf.tab v]
    -- the page begins a new table, or its table is there
    by_cases ht : v / NPTENTRIES < tabs v
    · exact .inl ht
    · rw [if_neg ht] at hsucc
      exact .inr (by omega)
  refine (mappages_taken hroom (hf.rest v le_rfl)).mono ?_
  rintro ⟨pd', ok⟩ m2 ⟨hok, htk, htab, hhas⟩
  -- so one page is taken, or none
  have hcount : (if pd.Tab v then 0 else 1) = tabs (v + 1) - tabs v := by
    by_cases ht : v / NPTENTRIES < tabs v
    · rw [if_pos ((hf.tab v).2 ht)]
      rw [if_pos ht] at hsucc
      omega
    · rw [if_neg fun h => ht ((hf.tab v).1 h)]
      rw [if_neg ht] at hsucc
      omega
  rw [hcount] at htk
  refine ⟨hok, htk, fun w => ?_, fun w hw => ?_⟩
  · rw [htab, hf.tab, hsucc]
    unfold tabs NPTENTRIES at *
    split <;> omega
  · rw [hhas]
    rintro (h | h)
    · exact hf.rest w (by omega) h
    · omega

/-- With enough pages the loop of `allocuvm` maps all, and takes a page for each
and for each new page table. -/
theorem allocFrom_taken {oldsz newsz n v : Nat} {pd : PageDir} (hf : Filled pd v)
    (hv : v ≤ pages newsz) (hn : pages newsz < v + n)
    (hm : pages newsz - v + tabs (pages newsz) ≤ m.free + tabs v) :
    Ends (allocFrom oldsz newsz n v pd) m fun r m' => r.2 = newsz ∧
      Taken m m' (pages newsz - v + (tabs (pages newsz) - tabs v)) := by
  induction n generalizing v pd m with
  | zero => omega
  | succ n ih =>
      unfold allocFrom
      by_cases hlt : v < pages newsz
      swap
      · have heq : v = pages newsz := by omega
        rw [if_pos (by rw [← lt_pages]; omega), heq]
        refine (wp_pure ..).2 ⟨rfl, ?_⟩
        rw [Nat.sub_self, Nat.sub_self]
        exact ⟨rfl, fun _ ha => ha, rfl⟩
      -- the pages and tables that are still to come are counted in the room
      have hle : tabs (v + 1) ≤ tabs (pages newsz) := tabs_mono hlt
      have hmono : tabs v ≤ tabs (v + 1) := tabs_mono (Nat.le_succ v)
      rw [if_neg (by rw [← lt_pages]; omega), Ends, wp_bind]
      refine kalloc_took (fun h0 => by omega) fun mem m1 h1 => ?_
      have hfree := h1.free
      dsimp only
      rw [wp_bind]
      refine (mappages_filled hf (by omega)).mono ?_
      rintro ⟨pd', ok⟩ m2 ⟨rfl, htk, hfilled⟩
      rw [if_neg (by simp)]
      have hfree2 := htk.free
      refine (ih hfilled hlt (by omega) (by omega)).mono ?_
      rintro r m3 ⟨hr, htk3⟩
      refine ⟨hr, ?_⟩
      -- what this page takes and what the others take
      have hall := (h1.taken.trans htk).trans htk3
      have heq : 1 + (tabs (v + 1) - tabs v) +
          (pages newsz - (v + 1) + (tabs (pages newsz) - tabs (v + 1))) =
            pages newsz - v + (tabs (pages newsz) - tabs v) := by omega
      rwa [heq] at hall

/-- Mapping the kernel takes one page a table. -/
theorem mapKernel_taken {n : Nat} {pd : PageDir} (h : n ≤ m.free) :
    Ends (mapKernel n pd) m fun r m' => r.2 = true ∧ r.1.pde = pd.pde ∧ Taken m m' n := by
  induction n generalizing pd m with
  | zero => exact (wp_pure ..).2 ⟨rfl, rfl, rfl, fun _ ha => ha, rfl⟩
  | succ n ih =>
      unfold mapKernel
      rw [Ends, wp_bind]
      refine kalloc_took (fun h0 => by omega) fun page m1 h1 => ?_
      have hfree := h1.free
      refine (ih (by omega)).mono ?_
      rintro r m2 ⟨hok, hpde, htk⟩
      refine ⟨hok, hpde, ?_⟩
      have hall := h1.taken.trans htk
      rwa [Nat.add_comm] at hall

/-- A new page table takes its page and those of the kernel's tables. -/
theorem setupkvm_taken (h : NKTABS + 1 ≤ m.free) :
    Ends setupkvm m fun r m' =>
      (∃ pd, r = some pd ∧ Filled pd 0) ∧ Taken m m' (NKTABS + 1) := by
  unfold setupkvm
  rw [Ends, wp_bind]
  refine kalloc_took (fun h0 => by omega) fun page m1 h1 => ?_
  have hfree := h1.free
  dsimp only
  rw [wp_bind]
  refine (mapKernel_taken (by omega)).mono ?_
  rintro ⟨pd, ok⟩ m2 ⟨rfl, hpde, htk⟩
  rw [if_neg (by simp)]
  have h0 : tabs 0 = 0 := rfl
  have hpde : pd.pde = fun _ => none := hpde
  refine (wp_pure ..).2 ⟨⟨pd, rfl, fun w => ?_, fun w _ => ?_⟩, ?_⟩
  · simp [PageDir.Tab, hpde, h0]
  · simp [PageDir.Has, entry_of_pde hpde]
  · have hall := h1.taken.trans htk
    rwa [Nat.add_comm] at hall

/-- `userinit` takes 68 pages and leaves a directory with one page. -/
theorem userinit_taken (hm : 1000 ≤ m.free) :
    Ends userinit (boot m) fun _ s => Taken m s.kmem (NKTABS + 4) ∧
      ∀ pd, (s.proc s.initproc).pgdir = some pd → Filled pd 1 := by
  have hk : NKTABS = 64 := rfl
  unfold userinit
  rw [Ends, wp_bind]
  -- the table is empty and there is a page, so the set-up does not fail
  refine allocproc_took (fun h => ?_) (fun i _ h => ?_) fun p th k m1 _ _ _ h1 => ?_
  · rcases h with h | h
    · exact absurd rfl (h 0)
    · exact absurd rfl (h 0)
  · have h0 : m.free = 0 := h
    omega
  have h1 : Took m m1 k := h1
  have hfree1 := h1.free
  simp only [wp_bind, wp_modify, wp_onKmem]
  refine (setupkvm_taken (m := m1) (by omega)).mono ?_
  rintro _ m2 ⟨⟨pd, rfl, hpd⟩, h2⟩
  have hfree2 := h2.free
  -- the first page of the user
  unfold inituvm
  simp only [wp_bind, wp_onKmem]
  refine kalloc_took (fun h0 => ?_) fun mem m3 h3 => ?_
  · have h0 : m2.free = 0 := h0
    omega
  have h3 : Took m2 m3 mem := h3
  have hfree3 := h3.free
  have h01 : tabs (0 + 1) = 1 ∧ tabs 0 = 0 := by decide
  dsimp only
  rw [wp_bind]
  refine (mappages_filled hpd (by omega)).mono ?_
  rintro ⟨pd', ok⟩ m4 ⟨-, h4, hpd'⟩
  simp only [wp_pure, wp_setPgdir, wp_get, wp_setProc, mvProcToThread_wp, clearProc_wp]
  have hall := ((h1.taken.trans h2).trans h3.taken).trans h4
  constructor
  · rw [h01.1, h01.2] at hall
    exact hall
  · intro pd'' hpd''
    have heq : pd' = pd'' := by
      simpa [Kernel.newProc, cleared] using hpd''
    rwa [← heq]

/-- `switchuvm` does not panic. -/
theorem switchuvm_ends (hk : (s.proc p).kstack ≠ 0) (hpd : (s.proc p).pgdir ≠ none) :
    Ends (switchuvm p) s fun _ s' => s' = s := by
  unfold switchuvm
  simp only [Ends, wp_bind, wp_get]
  rw [if_neg hk, if_neg (by simpa [Option.isNone_iff_eq_none] using hpd)]
  exact (wp_pure ..).2 rfl

/-- A process that has one page grows by `n` bytes. -/
theorem growproc_taken {pd : PageDir} {n : Nat} (hpd : (s.proc p).pgdir = some pd)
    (hf : Filled pd 1)
    (hsz : (s.proc p).sz = PGSIZE) (hlim : (s.proc p).memlimit = 0) (hk : (s.proc p).kstack ≠ 0)
    (hn : 0 < n) (hlt : PGSIZE + n < KERNBASE)
    (hm : pages (PGSIZE + n) - 1 + tabs (pages (PGSIZE + n)) ≤ s.kmem.free + tabs 1) :
    Ends (growproc p n) s fun _ s' => ∃ m pd',
      Taken s.kmem m (pages (PGSIZE + n) - 1 + (tabs (pages (PGSIZE + n)) - tabs 1)) ∧
      s' = (s.setKmem m).setProc p fun x => { x with pgdir := some pd', sz := PGSIZE + n } := by
  -- the new size does not wrap around
  have hnew : toUint ((PGSIZE : Nat) + (n : Int)) = PGSIZE + n := by
    unfold toUint KERNBASE PGSIZE at *
    omega
  have hover : overLimit (s.proc p) (PGSIZE + n) = false := by simp [overLimit, hlim]
  have hup : pgUp PGSIZE = 1 := by decide
  unfold growproc
  rw [Ends, wp_bind, wp_get]
  simp only [hsz, hnew, hover, Bool.false_eq_true, if_false]
  rw [wp_bind]
  refine getPgdir_wp (fun pd1 hpd1 => ?_) fun hnone => ?_
  swap
  · rw [hpd] at hnone
    cases hnone
  obtain rfl : pd = pd1 := Option.some.inj (hpd.symm.trans hpd1)
  rw [wp_bind, wp_onKmem, if_pos (by omega)]
  unfold allocuvm
  rw [if_neg (by omega), if_neg (by omega), hup]
  -- all its pages are free
  refine (allocFrom_taken hf ?_ ?_ hm).mono ?_
  · unfold pages PGSIZE
    omega
  · unfold pages PGSIZE
    omega
  rintro ⟨pd', sz⟩ m1 ⟨rfl, htk⟩
  rw [wp_bind, wp_setPgdir, if_neg (by unfold PGSIZE; omega)]
  simp only [wp_setProc, wp_bind]
  refine (switchuvm_ends ?_ ?_).mono ?_
  · simpa using hk
  · simp
  rintro _ _ rfl
  refine (wp_pure ..).2 ⟨m1, pd', htk, ?_⟩
  rw [Kernel.setProc_setProc]
  rfl

/-- `switchTo` ends with the process dressed. -/
theorem switchTo_ends {i : Tidx} (hk : (s.pthread i).kstack ≠ 0) (hpd : (s.proc p).pgdir ≠ none) :
    Ends (switchTo p i) s fun _ s' => s' = s.dressed p i := by
  unfold switchTo mvThreadToProc
  simp only [Ends, wp_bind, wp_get, wp_setProc]
  refine (switchuvm_ends ?_ ?_).mono ?_
  · simpa using hk
  · simpa using hpd
  · rintro _ _ rfl
    rw [Kernel.setProc_setProc]
    rfl

/-- A turn ends where its call ends. -/
theorem turn_ends {a : Label} {Q : Outcome → Kernel → Prop} (hk : (s.pthread a.i).kstack ≠ 0)
    (hpd : (s.proc a.p).pgdir ≠ none)
    (h : Ends (call a.p (s.cont a.i) a.c) (s.dressed a.p a.i) fun r s1 => Q r (a.after s s1 r)) :
    Ends (turn a) s Q := by
  unfold turn
  simp only [Ends, wp_bind, wp_get]
  refine (switchTo_ends hk hpd).mono ?_
  rintro _ _ rfl
  refine h.mono fun r s' hr => ?_
  rw [switchFrom_wp]
  exact (wp_pure ..).2 hr

theorem next_of_ends {a : Label} {Q : Outcome → Kernel → Prop} (hen : Enabled s a)
    (h : Ends (turn a) s Q) : ∃ r s', next s a = some s' ∧ Q r s' := by
  rcases h.exists with ⟨r, s', hrun, hQ⟩
  refine ⟨r, s', ?_, hQ⟩
  rw [next, if_pos hen, hrun]

/-- A process with one thread, and one page left in the machine. -/
structure Drained (p : Pidx) (th : Tidx) (s : Kernel) : Prop where
  pick : Pickable s p th
  cont : s.cont th = .user
  free : s.kmem.free = 1
  frame : ∀ a ∈ s.kmem.pages, s.kmem.kend ≤ a ∧ a % PGSIZE = 0 ∧ V2P a < PHYSTOP
  proc : ∀ q, q ≠ p → (s.proc q).state = .UNUSED
  pthread : ∀ j, j ≠ th → (s.pthread j).state = .UNUSED
  kstack : (s.pthread th).kstack ≠ 0
  pgdir : (s.proc p).pgdir ≠ none

/-- What the first process asks for to leave one page. -/
def mostBytes : Nat := 56197 * PGSIZE

/-- What the first process asks for leaves one page. -/
theorem Started.grows {p : Pidx} {th : Tidx} (h : Started p th s) (htk : Taken machine s.kmem 68)
    (hpd : ∀ pd, (s.proc p).pgdir = some pd → Filled pd 1) :
    Ends (growproc p mostBytes) (s.dressed p th) fun _ s' => ∃ m pd', Taken machine m 56319 ∧
      s' = ((s.dressed p th).setKmem m).setProc p
        fun x => { x with pgdir := some pd', sz := PGSIZE + mostBytes } := by
  have hlen : machine.free = 56320 := framesFrom_length _
  have hfree := htk.free
  have hpages : pages (PGSIZE + mostBytes) = 56198 := by decide
  have htabs : tabs 56198 = 55 ∧ tabs 1 = 1 := by decide
  rcases h.proc with ⟨pd, k, hk, -, hproc⟩
  have hthk : (s.pthread th).kstack = k := by
    rw [h.th, hproc]
    rfl
  refine (@growproc_taken p (s.dressed p th) pd mostBytes ?_ (hpd pd (by rw [hproc])) ?_ ?_ ?_ ?_ ?_
    ?_).mono ?_
  · simp [Kernel.dressed, hproc]
  · simp [Kernel.dressed, hproc]
  · simp [Kernel.dressed, hproc, Proc.zero]
  · simp [Kernel.dressed, hthk]
    omega
  · decide
  · decide
  · rw [hpages, htabs.1, htabs.2]
    show _ ≤ s.kmem.free + 1
    omega
  · rintro _ s' ⟨m, pd', htk', rfl⟩
    rw [hpages, htabs.1, htabs.2] at htk'
    exact ⟨m, pd', htk.trans htk', rfl⟩

/-- The first process can take all but one page. -/
theorem drained : ∃ p th s, Reachable Init next s ∧ Drained p th s := by
  have hlen : machine.free = 56320 := framesFrom_length _
  -- after boot nearly all of the memory is free
  have hboot : Ends userinit (boot machine) fun _ s => (∃ p th, Started p th s) ∧
      Taken machine s.kmem 68 ∧ ∀ pd, (s.proc s.initproc).pgdir = some pd → Filled pd 1 :=
    wp.mono ((userinit_wp machine_booted).inter (userinit_taken (by omega))) (fun _ _ h => h)
      fun _ h => h.1
  rcases hboot.exists with ⟨_, s0, hrun, ⟨p, th, hst⟩, htk, hpd⟩
  rw [hst.initproc] at hpd
  have hinit : Init s0 := ⟨machine, machine_booted, hrun⟩
  have hcont : s0.cont th = .user := hst.cont th
  rcases hst.proc with ⟨pd, k, hk, -, hproc⟩
  have hth := hst.th
  rw [hproc] at hth
  -- the first process asks for all of it
  have hen : Enabled s0 ⟨p, th, .sbrk mostBytes, 0, 0⟩ := by
    refine ⟨⟨?_, ?_, ?_⟩, ?_⟩
    · simp [hproc]
    · simp [hproc, hth, undress]
    · simp [hth, undress]
    · simp [hcont, Call.fits, mostBytes, PGSIZE]
  obtain ⟨_, _, hnext, x, rfl, m, pd', htk', rfl⟩ := next_of_ends
    (Q := fun r s' => ∃ x, r = .ret x ∧ ∃ m pd', Taken machine m 56319 ∧
      s' = Label.after ⟨p, th, .sbrk mostBytes, 0, 0⟩ s0 (((s0.dressed p th).setKmem m).setProc p
        fun x => { x with pgdir := some pd', sz := PGSIZE + mostBytes }) r) hen
    (turn_ends (by simp [hth, undress]; omega) (by simp [hproc]) (by
      unfold call
      rw [hcont, Ends, wp_bind]
      refine (hst.grows htk hpd).mono ?_
      rintro r s' ⟨m, pd', htk', rfl⟩
      exact (wp_pure ..).2 ⟨r, rfl, m, pd', htk', rfl⟩))
  -- what is left is less than a new process takes
  refine ⟨p, th, _, ReachOk.step (.init hinit) trivial hnext,
    ⟨⟨?_, ?_, ?_⟩, ?_, ?_, ?_, ?_, ?_, ?_, ?_⟩⟩
  · simp [Label.left, Outcome.parked, Kernel.undressed, Kernel.dressed, cleared]
  · simp [Label.left, Outcome.parked, Kernel.undressed, Kernel.dressed, cleared, undress]
  · simp [Label.left, Outcome.parked, Kernel.undressed, Kernel.dressed, undress]
  · simp [Label.left, Outcome.parked, Kernel.undressed, Kernel.dressed, Outcome.cont]
  · have := htk'.free
    show m.free = 1
    omega
  · intro a ha
    have hkend : m.kend = machine.kend := htk'.kend
    rcases List.mem_map.1 (htk'.sub a ha) with ⟨v, hv, rfl⟩
    show m.kend ≤ v.1 ∧ _
    rw [hkend]
    exact ⟨v.2, machine_booted.frame v hv⟩
  · intro q hq
    simp [Label.left, Outcome.parked, Kernel.undressed, Kernel.dressed, hq, hst.other q hq,
      Proc.zero]
  · intro j hj
    simp [Label.left, Outcome.parked, Kernel.undressed, Kernel.dressed, hj, hst.others j hj,
      Pthread.zero]
  · simp [Label.left, Outcome.parked, Kernel.undressed, Kernel.dressed, undress, hth]
    omega
  · simp [Label.left, Outcome.parked, Kernel.undressed, Kernel.dressed, cleared]

theorem another {n : Nat} (i : Fin (n + 2)) : ∃ j, j ≠ i := exists_ne i

theorem kfree_ends {a : Nat} (hk : m.kend ≤ a) (ha : a % PGSIZE = 0) (hp : V2P a < PHYSTOP) :
    Ends (kfree a) m fun _ _ => True := by
  unfold kfree
  rw [Ends, wp_bind, wp_get, dif_neg (by omega)]
  exact (wp_set ..).2 trivial

/-- With one page left, `fork` gets the slots and the stack, and no more. -/
theorem Drained.fails {th : Tidx} (h : Drained p th s) :
    Ends (forkSetup p) (s.dressed p th) fun r s' =>
      r = none ∧ ∃ i, (s.pthread i).state = .UNUSED ∧ (s'.pthread i).state = .EMBRYO := by
  obtain ⟨q, hq⟩ : ∃ q, q ≠ p := another p
  obtain ⟨j, hj⟩ : ∃ j, j ≠ th := another th
  unfold forkSetup
  rw [Ends, wp_bind]
  refine allocproc_took (fun hfull => ?_) (fun i _ h0 => ?_) fun np i k m _ hnp hi hk => ?_
  · exfalso
    rcases hfull with hfull | hfull
    · refine hfull q ?_
      simp [Kernel.dressed, hq, h.proc q hq]
    · exact hfull j (h.pthread j hj)
  · have := h.free
    have h0 : s.kmem.free = 0 := h0
    omega
  have hk : Took s.kmem m k := hk
  have hi : (s.pthread i).state = .UNUSED := hi
  have h0 : m.free = 0 := by
    have := h.free
    have := hk.free
    omega
  have hne : np ≠ p := by
    rintro rfl
    simp [Kernel.dressed] at hnp
  have hpd : (((s.dressed p th).newProc np i k m).proc p).pgdir = (s.proc p).pgdir := by
    simp [Kernel.newProc, Kernel.dressed, hne.symm]
  have hstack : (((s.dressed p th).newProc np i k m).proc np).kstack = k := by
    simp [Kernel.newProc, freshProc]
  have hslot : (((s.dressed p th).newProc np i k m).pthread i).state = .EMBRYO := by
    simp [Kernel.newProc, freshTh]
  have hmem : ((s.dressed p th).newProc np i k m).kmem = m := rfl
  generalize (s.dressed p th).newProc np i k m = s2 at hpd hstack hslot hmem
  subst hmem
  dsimp only
  simp only [wp_bind, wp_get]
  refine getPgdir_wp (fun pd _ => ?_) fun hnone => absurd (hpd.symm.trans hnone) h.pgdir
  -- the stack was the last page
  rw [wp_onKmem]
  unfold copyuvm setupkvm
  simp only [wp_bind]
  refine kalloc_took (fun _ => ?_) fun r m1 h1 => ?_
  swap
  · have := h1.free
    omega
  simp only [wp_pure, wp_bind, wp_onKmem, hstack]
  obtain ⟨hge, halign, htop⟩ := h.frame k (by rw [hk.pages]; exact List.mem_cons_self)
  rw [← hk.kend] at hge
  refine (kfree_ends hge halign htop).mono fun _ m1 _ => ?_
  rw [wp_setProc]
  exact ⟨trivial, i, hi, hslot⟩

/-! ## Failures -/

/-- A fork that cannot set up the new process leaves no trace exactly if it fails
before it has taken a thread slot. -/
theorem fork_trace_iff (h : (forkSetup p).run s = .ok (none, s1)) :
    (fork p).run s = .ok (-1, s1) ∧ (NoTrace s s1 ↔ Exhausted s) := by
  refine ⟨fork_of_setup h, ?_⟩
  rcases forkSetup_fails.of_ok h rfl with ⟨hex, rfl | ⟨i, hi, rfl⟩⟩ | ⟨th, hth, hem, hnot⟩
  · refine ⟨fun _ => hex, fun _ => ?_⟩
    exact ⟨fun _ h => h, fun _ h => h, fun _ => .inl rfl, fun _ => .inl rfl, .refl _⟩
  · refine ⟨fun _ => hex, fun _ => ?_⟩
    refine ⟨fun _ h => h, fun j hj => ?_, fun _ => .inl rfl, fun j => ?_, .refl _⟩
    · by_cases hji : j = i
      · subst hji
        rwa [Kernel.setTh_self]
      · rwa [Kernel.setTh_ne hji]
    · by_cases hji : j = i
      · subst hji
        rw [Kernel.setTh_self]
        exact .inr rfl
      · rw [Kernel.setTh_ne hji]
        exact .inl rfl
  · refine ⟨fun htr => ?_, fun hex => absurd hex hnot⟩
    have := htr.pthread th hth
    rw [hem] at this
    cases this

/-- With one page left it does leave one. -/
theorem fork_trace_drained : ∃ p s s1, (forkSetup p).run s = .ok (none, s1) ∧
    (fork p).run s = .ok (-1, s1) ∧ (NoTrace s s1 ↔ Exhausted s) := by
  rcases drained with ⟨p, th, s, -, hd⟩
  rcases hd.fails.exists with ⟨_, s1, hrun, rfl, -⟩
  exact ⟨p, _, s1, hrun, fork_trace_iff hrun⟩

/-- A fork that fails when it copies the address space leaves a thread slot taken. -/
theorem fork_leaves_thread : ∃ p th s s2 s3, Reachable Init next s ∧ Pickable s p th ∧
    s.cont th = .user ∧ (switchTo p th).run s = .ok ((), s2) ∧
    (forkSetup p).run s2 = .ok (none, s3) ∧ (fork p).run s2 = .ok (-1, s3) ∧ ¬ NoTrace s2 s3 := by
  rcases drained with ⟨p, th, s, hreach, hd⟩
  have hto : Ends (switchTo p th) s fun _ s' => s' = s.dressed p th :=
    switchTo_ends hd.kstack hd.pgdir
  rcases hto.exists with ⟨_, s2, hrun, rfl⟩
  rcases hd.fails.exists with ⟨_, s3, hrun', rfl, i, hi, hi'⟩
  refine ⟨p, th, s, _, s3, hreach, hd.pick, hd.cont, hrun, hrun', fork_of_setup hrun',
    fun htr => ?_⟩
  have hunused := htr.pthread i hi
  rw [hi'] at hunused
  cases hunused

end Xv6.Thread
