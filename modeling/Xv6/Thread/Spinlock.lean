import Xv6.Thread.Spec

/-!
# Spin locks

`spinlock.c`, on one CPU. `ncli` counts the `pushcli`s that have not been undone;
what the CPU holds is a list of locks, and every `acquire` and `release` keeps the
count and the interrupt flag in step with it.

`Holds` is the description, and each function has one rule in its terms
(`acquire_wp`, `release_wp`, `holding_wp`, `popcli_wp`). The rules are those of code
that takes locks it does not hold and gives back locks it does; `acquire` and
`release` panic otherwise. There is no spinning: on one CPU a lock that is taken is
taken by the caller. `Thread.Sched` follows the locks of `proc.c` through every call
with these rules.
-/

namespace Xv6.Thread

open Xv6.Lib Prog

/-- The spin locks: those of the two tables, and one for every lock of the other
files (`log.lock`, `idelock`, the locks of pipes, …). -/
inductive Spin
  | ptable
  | pthread_table
  | other (n : Nat)
  deriving DecidableEq

/-- `struct cpu`, with the locks whose `cpu` field it is and its interrupt flag. -/
structure Cpu where
  locked : Spin → Bool
  ncli : Int
  intena : Bool
  FL_IF : Bool

/-- The checks of `sched`, in its order. -/
inductive Check
  /-- "sched ptable.lock" -/
  | ptable
  /-- "sched locks" -/
  | locks
  /-- "sched running" -/
  | running
  /-- "sched interruptible" -/
  | interruptible
  deriving DecidableEq

/-- Why code stops: a panic of `spinlock.c`, one of `sched`, or whatever stops the
code between the locks. -/
inductive LStop
  | kernel (e : Stop)
  | spin (msg : String)
  | sched (c : Check)
  deriving DecidableEq

structure Machine where
  kernel : Kernel
  cpu : Cpu

abbrev LM (α : Type) := Prog LStop Machine α

/-- Code that takes and gives back no lock but that of `kmem` or of the console. -/
def lift {α : Type} (x : M α) : LM α := fun m =>
  match x m.kernel with
  | .ok (a, s) => .ok (a, ⟨s, m.cpu⟩)
  | .error e => .error (.kernel e)

def setCpu (f : Cpu → Cpu) : LM Unit := modify fun m => { m with cpu := f m.cpu }

def sti : LM Unit := setCpu fun c => { c with FL_IF := true }

def pushcli : LM Unit :=
  setCpu fun c =>
    { c with
      FL_IF := false
      intena := if c.ncli = 0 then c.FL_IF else c.intena
      ncli := c.ncli + 1 }

def popcli : LM Unit := do
  if (← get).cpu.FL_IF then throw (.spin "popcli - interruptible")
  setCpu fun c => { c with ncli := c.ncli - 1 }
  if (← get).cpu.ncli < 0 then throw (.spin "popcli")
  let m ← get
  if m.cpu.ncli = 0 ∧ m.cpu.intena then sti

/-- Check whether this cpu is holding the lock. -/
def holding (l : Spin) : LM Bool := do
  pushcli
  let r := (← get).cpu.locked l
  popcli
  return r

/-- A lock that another CPU holds is waited for. -/
def acquire (l : Spin) : LM Unit := do
  pushcli
  if (← holding l) then throw (.spin "acquire")
  setCpu fun c => { c with locked := Function.update c.locked l true }

def release (l : Spin) : LM Unit := do
  if (← holding l) = false then throw (.spin "release")
  setCpu fun c => { c with locked := Function.update c.locked l false }
  popcli

/-! ## Rules -/

variable {s : Kernel} {c : Cpu} {l : Spin} {ls : List Spin} {α : Type} {E : LStop → Prop}

/-- A piece of the kernel below its locks. -/
@[simp] theorem wp_lift {x : M α} {Q : α → Machine → Prop} :
    wp (lift x) ⟨s, c⟩ Q E ↔ wp x s (fun a s' => Q a ⟨s', c⟩) fun e => E (.kernel e) := by
  unfold lift wp StateT.run
  dsimp only
  cases x s with
  | ok r => rfl
  | error e => rfl

@[simp] theorem wp_setCpu {f : Cpu → Cpu} {m : Machine} {Q : Unit → Machine → Prop} :
    wp (setCpu f) m Q E ↔ Q () ⟨m.kernel, f m.cpu⟩ := by
  simp [setCpu]

/-- The CPU holds these locks and no others. -/
structure Holds (ls : List Spin) (c : Cpu) : Prop where
  locked : ∀ l, c.locked l = true ↔ l ∈ ls
  ncli : c.ncli = ls.length
  cli : ls ≠ [] → c.FL_IF = false

theorem Holds.intena (h : Holds ls c) (b : Bool) : Holds ls { c with intena := b } :=
  ⟨h.locked, h.ncli, h.cli⟩

theorem Holds.sti (h : Holds [] c) : Holds [] { c with FL_IF := true } :=
  ⟨h.locked, h.ncli, fun hne => absurd rfl hne⟩

/-- `popcli` of the last `pushcli` but `n`. -/
theorem popcli_wp {m : Machine} {n : Nat} {Q : Unit → Machine → Prop} (hcli : m.cpu.FL_IF = false)
    (hn : m.cpu.ncli = n + 1)
    (hQ : ∀ c' : Cpu, c'.locked = m.cpu.locked → c'.ncli = n → (n ≠ 0 → c'.FL_IF = false) →
      Q () ⟨m.kernel, c'⟩) :
    wp popcli m Q E := by
  have hn' : m.cpu.ncli - 1 = n := by omega
  have hpos : ¬ ((n : Int) < 0) := by omega
  unfold popcli sti
  simp only [wp_bind, wp_get, hcli, Bool.false_eq_true, if_false, wp_setCpu, hn', hpos]
  refine wp_ite (fun h => ?_) fun _ => ?_
  · rw [wp_setCpu]
    refine hQ _ rfl rfl fun hne => ?_
    exact absurd (Int.natCast_eq_zero.1 h.1) hne
  · rw [wp_pure]
    exact hQ _ rfl rfl fun _ => rfl

/-- `holding` changes nothing that matters. -/
theorem holding_wp {Q : Bool → Machine → Prop} (h : Holds ls c)
    (hQ : ∀ c', Holds ls c' → Q (decide (l ∈ ls)) ⟨s, c'⟩) : wp (holding l) ⟨s, c⟩ Q E := by
  have hl : c.locked l = decide (l ∈ ls) := by
    rw [Bool.eq_iff_iff, h.locked l, decide_eq_true_iff]
  unfold holding pushcli
  simp only [wp_bind, wp_setCpu, wp_get]
  apply popcli_wp (n := ls.length) rfl
  · dsimp only
    rw [h.ncli]
  intro c' hlocked hncli hcli
  rw [wp_pure, hl]
  apply hQ
  constructor
  · intro l'
    rw [hlocked]
    exact h.locked l'
  · exact hncli
  · intro hne
    exact hcli fun h0 => hne (List.length_eq_zero_iff.1 h0)

/-- `acquire` of a lock that the CPU does not hold. -/
theorem acquire_wp {Q : Unit → Machine → Prop} (h : Holds ls c) (hl : l ∉ ls)
    (hQ : ∀ c', Holds (l :: ls) c' → Q () ⟨s, c'⟩) : wp (acquire l) ⟨s, c⟩ Q E := by
  unfold acquire pushcli holding
  unfold pushcli
  simp only [wp_bind, wp_setCpu, wp_get]
  apply popcli_wp (n := ls.length + 1) rfl
  · dsimp only
    rw [h.ncli]
    omega
  intro c' hlocked hncli hcli
  have hno : c'.locked l = false := by
    rw [hlocked, Bool.eq_false_iff]
    exact fun ht => hl ((h.locked l).1 ht)
  rw [wp_pure, if_neg (by rw [← hlocked, hno]; exact Bool.false_ne_true)]
  simp only [wp_setCpu]
  apply hQ
  constructor
  · intro l'
    by_cases he : l' = l
    · subst he
      simp
    · simp only [Function.update_of_ne he, hlocked, h.locked l', List.mem_cons, he, false_or]
  · exact hncli.trans (by rw [List.length_cons])
  · intro _
    exact hcli (Nat.succ_ne_zero _)

/-- `release` of one that it holds. -/
theorem release_wp {Q : Unit → Machine → Prop} {ls' : List Spin} (h : Holds ls c)
    (hp : ls.Perm (l :: ls')) (hl : l ∉ ls') (hQ : ∀ c', Holds ls' c' → Q () ⟨s, c'⟩) :
    wp (release l) ⟨s, c⟩ Q E := by
  have hmem : l ∈ ls := hp.mem_iff.2 List.mem_cons_self
  unfold release
  rw [wp_bind]
  refine holding_wp h fun c1 h1 => ?_
  rw [if_neg (by simpa using hmem)]
  simp only [wp_bind, wp_setCpu]
  apply popcli_wp (n := ls'.length) (h1.cli (List.ne_nil_of_mem hmem))
  · rw [h1.ncli, hp.length_eq, List.length_cons]
    omega
  intro c' hlocked hncli hcli
  apply hQ
  constructor
  · intro l'
    rw [hlocked]
    by_cases he : l' = l
    · subst he
      simpa using hl
    · simp only [Function.update_of_ne he, h1.locked l', hp.mem_iff, List.mem_cons, he, false_or]
  · exact hncli
  · intro hne
    exact hcli fun h0 => hne (List.length_eq_zero_iff.1 h0)

/-- The lock taken last is given back. -/
theorem release_head {Q : Unit → Machine → Prop} (h : Holds (l :: ls) c) (hl : l ∉ ls)
    (hQ : ∀ c', Holds ls c' → Q () ⟨s, c'⟩) : wp (release l) ⟨s, c⟩ Q E :=
  release_wp h (.refl _) hl hQ

end Xv6.Thread
