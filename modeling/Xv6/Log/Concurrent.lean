import Mathlib.Data.List.Nodup
import Xv6.Lib.Transition
import Xv6.Log.Bio

/-!
# Log writes while a commit is running

Any number of processes run operations while `sync` or `flush` commits:
`begin_op` and `end_op` wait for the commit, but `log_write` does not look at
`committing`. One step is what runs before another process can get in: one copy
of `write_log` or `install_trans`, one `write_head`, the reset of `log.lh.n`, the
clearing of `committing`. No lock is held where a loop ends, so a test that ends
one is a step of its own, and so is the test `log.lh.n > 0` of `commit`.

A block that is logged again after `write_log` has copied it loses its new
contents: `install_trans` overwrites the buffer with the copy, and `n` is reset
(`late_write_lost`). A block that is logged for the first time after the last
copy is never copied at all (`newBlock`). Nothing is lost as long as what is
logged from then on is what the commit installs anyway (`no_update_lost`).

A change of a buffer and its `log_write` are one step: the buffer is locked, and
the copies lock it too. At most one commit runs at a time.
-/

namespace Xv6.Log.Concurrent

open Xv6.Lib

/-! ## The system -/

/-- Where `sync` or `flush` is. -/
inductive Phase
  | idle
  /-- `committing` is set -/
  | entered
  /-- `write_log` has copied `tail` blocks -/
  | writeLog (tail : Nat)
  /-- the loop of `write_log` has ended -/
  | written
  /-- the first `write_head` is done and `tail` blocks are installed -/
  | install (tail : Nat)
  /-- the loop of `install_trans` has ended -/
  | installed
  /-- `log.lh.n` is reset -/
  | erase
  /-- the second `write_head` is done, or there was nothing to commit -/
  | leave
  deriving DecidableEq

/-- `cache` is what `bread` returns, `home` what the disk has in the home blocks,
`copy i` and `header` the log on the disk. `latest b` is what was last logged for
`b` (or was there at the start) and `logged b` whether it ever was; both are only
talked about. -/
structure St (P : Type) where
  inOp : P → Bool
  outstanding : Nat
  phase : Phase
  lh : List Nat
  cache : Nat → Block
  home : Nat → Block
  copy : Nat → Block
  header : List Nat
  latest : Nat → Block
  logged : Nat → Bool

inductive Act (P : Type)
  | beginOp (p : P)
  | endOp (p : P)
  | logWrite (p : P) (b : Nat) (v : Block)
  | enter
  | nothing
  | copyBlock
  | copiesDone
  | writeHead
  | installBlock
  | installsDone
  | reset
  | clear

variable {P : Type}

def beginOp [DecidableEq P] (s : St P) (p : P) : Option (St P) :=
  if s.phase = .idle ∧ s.inOp p = false then
    some { s with inOp := Function.update s.inOp p true, outstanding := s.outstanding + 1 }
  else none

def endOp [DecidableEq P] (s : St P) (p : P) : Option (St P) :=
  if s.phase = .idle ∧ s.inOp p = true then
    some { s with inOp := Function.update s.inOp p false, outstanding := s.outstanding - 1 }
  else none

/-- `bread`, a change of the buffer to `v`, and `log_write`, which panics when the
log is full or no operation is counted. -/
def logWrite (s : St P) (p : P) (b : Nat) (v : Block) : Option (St P) :=
  if s.inOp p = true ∧ s.lh.length < LOGSIZE - 1 ∧ 1 ≤ s.outstanding then
    some { s with
      lh := if b ∈ s.lh then s.lh else s.lh ++ [b]
      cache := Function.update s.cache b v
      latest := Function.update s.latest b v
      logged := Function.update s.logged b true }
  else none

/-- The body of the loop of `write_log` for index `tail`. -/
def copyAt (s : St P) (tail : Nat) : Option (St P) :=
  s.lh[tail]?.map fun b =>
    { s with copy := Function.update s.copy tail (s.cache b), phase := .writeLog (tail + 1) }

def copyBlock (s : St P) : Option (St P) :=
  match s.phase with
  | .entered => copyAt s 0
  | .writeLog tail => copyAt s tail
  | _ => none

/-- The test that ends the loop of `write_log`. -/
def copiesDone (s : St P) : Option (St P) :=
  match s.phase with
  | .writeLog tail => if s.lh.length ≤ tail then some { s with phase := .written } else none
  | _ => none

/-- `write_head`: before the blocks are installed, and again to erase the log. -/
def writeHead (s : St P) : Option (St P) :=
  match s.phase with
  | .written => some { s with header := s.lh, phase := .install 0 }
  | .erase => some { s with header := s.lh, phase := .leave }
  | _ => none

/-- The body of the loop of `install_trans`: the copy overwrites the buffer of the
home block, which is then written. -/
def installBlock (s : St P) : Option (St P) :=
  match s.phase with
  | .install tail =>
      s.lh[tail]?.map fun b =>
        { s with
          cache := Function.update s.cache b (s.copy tail)
          home := Function.update s.home b (s.copy tail)
          phase := .install (tail + 1) }
  | _ => none

/-- The test that ends the loop of `install_trans`. -/
def installsDone (s : St P) : Option (St P) :=
  match s.phase with
  | .install tail => if s.lh.length ≤ tail then some { s with phase := .installed } else none
  | _ => none

/-- `commit` finds nothing to do. -/
def nothing (s : St P) : Option (St P) :=
  if s.phase = .entered ∧ s.lh = [] then some { s with phase := .leave } else none

def next [DecidableEq P] (s : St P) : Act P → Option (St P)
  | .beginOp p => beginOp s p
  | .endOp p => endOp s p
  | .logWrite p b v => logWrite s p b v
  | .enter => if s.phase = .idle then some { s with phase := .entered } else none
  | .nothing => nothing s
  | .copyBlock => copyBlock s
  | .copiesDone => copiesDone s
  | .writeHead => writeHead s
  | .installBlock => installBlock s
  | .installsDone => installsDone s
  | .reset => if s.phase = .installed then some { s with lh := [], phase := .erase } else none
  | .clear => if s.phase = .leave then some { s with phase := .idle } else none

/-- No operation runs, nothing is logged, and the cache agrees with the disk. -/
structure Init (s : St P) : Prop where
  inOp : ∀ p, s.inOp p = false
  outstanding : s.outstanding = 0
  phase : s.phase = .idle
  lh : s.lh = []
  cache : s.cache = s.home
  latest : s.latest = s.home
  logged : ∀ b, s.logged b = false

/-! ## The property -/

/-- The commit in progress will still take the latest contents of `b` home. -/
def Pending (s : St P) (b : Nat) : Prop :=
  (∃ tail i, s.phase = .writeLog tail ∧ tail ≤ i ∧ s.lh[i]? = some b ∧ s.cache b = s.latest b) ∨
    (∃ i, s.phase = .written ∧ s.lh[i]? = some b ∧ s.copy i = s.latest b) ∨
    ∃ tail i, s.phase = .install tail ∧ tail ≤ i ∧ s.lh[i]? = some b ∧ s.copy i = s.latest b

/-- What was logged is on the disk, or listed, or on its way. -/
def NothingLost (s : St P) : Prop :=
  ∀ b, s.logged b = true → s.home b ≠ s.latest b → b ∈ s.lh ∨ Pending s b

/-- A block that is logged after the commit in progress has copied its place in
the log, or after the last copy, gets the contents that the commit will install; one
that is logged after the last installation gets what its home block has. -/
def Harmless (s : St P) : Act P → Prop
  | .logWrite _ b v =>
      match s.phase with
      | .writeLog tail => s.lh.idxOf b < tail → s.copy (s.lh.idxOf b) = v
      | .written => s.copy (s.lh.idxOf b) = v
      | .install _ => s.copy (s.lh.idxOf b) = v
      | .installed => s.home b = v
      | _ => True
  | _ => True

/-! ## The invariant -/

/-- What a commit has done so far, it has done with the latest contents. -/
structure Inv (s : St P) : Prop where
  nodup : s.lh.Nodup
  cache : s.cache = s.latest
  home : ∀ b, b ∉ s.lh → s.home b = s.latest b
  writeLog : ∀ tail, s.phase = .writeLog tail → tail ≤ s.lh.length ∧
    ∀ i b, i < tail → s.lh[i]? = some b → s.copy i = s.latest b
  written : s.phase = .written → ∀ i b, s.lh[i]? = some b → s.copy i = s.latest b
  install : ∀ tail, s.phase = .install tail → tail ≤ s.lh.length ∧
    (∀ i b, s.lh[i]? = some b → s.copy i = s.latest b) ∧
    ∀ i b, i < tail → s.lh[i]? = some b → s.home b = s.latest b
  installed : s.phase = .installed → s.home = s.latest

theorem Inv.nothingLost {s : St P} (h : Inv s) : NothingLost s := by
  intro b _ hne
  by_contra hno
  rw [not_or] at hno
  exact hne (h.home b hno.1)

/-- The position of a block in the list after it has been logged. -/
theorem getElem?_absorb {lh : List Nat} {b : Nat} (hnd : lh.Nodup) {i : Nat} :
    (if b ∈ lh then lh else lh ++ [b])[i]? = some b ↔ i = lh.idxOf b := by
  by_cases hb : b ∈ lh
  · rw [if_pos hb]
    have hlt : lh.idxOf b < lh.length := List.idxOf_lt_length_iff.2 hb
    constructor
    · intro hi
      rcases List.getElem?_eq_some_iff.1 hi with ⟨hil, hib⟩
      rw [← hib, hnd.idxOf_getElem i hil]
    · rintro rfl
      rw [List.getElem?_eq_some_iff]
      exact ⟨hlt, List.getElem_idxOf hlt⟩
  · rw [if_neg hb, List.idxOf_of_notMem hb]
    constructor
    · intro hi
      by_contra hne
      rcases Nat.lt_or_ge i lh.length with hlt | hge
      · rw [List.getElem?_append_left hlt] at hi
        exact hb (List.mem_of_getElem? hi)
      · rw [List.getElem?_append_right hge, List.getElem?_eq_none (by simp; omega)] at hi
        cases hi
    · rintro rfl
      simp

/-- Absorbing a block leaves the entries of the others. -/
theorem getElem?_absorb_ne {lh : List Nat} {b c : Nat} (hcb : c ≠ b) {i : Nat} :
    (if b ∈ lh then lh else lh ++ [b])[i]? = some c ↔ lh[i]? = some c := by
  by_cases hb : b ∈ lh
  · rw [if_pos hb]
  · rw [if_neg hb, List.getElem?_append]
    split
    · rfl
    · next hge =>
      rw [List.getElem?_eq_none (Nat.not_lt.1 hge)]
      constructor
      · intro hi
        have := List.mem_of_getElem? hi
        exact absurd (List.mem_singleton.1 this) hcb
      · intro hi
        cases hi

/-! ## Steps -/

/-- A harmless `log_write`, by how far the commit has come. -/
theorem logWrite_inv {s s' : St P} (h : Inv s) {p : P} {b : Nat} {v : Block}
    (hok : Harmless s (.logWrite p b v)) (hs : logWrite s p b v = some s') : Inv s' := by
  simp only [logWrite, Option.ite_none_right_eq_some, Option.some.injEq] at hs
  rcases hs with ⟨_, rfl⟩
  have hlen : s.lh.length ≤ (if b ∈ s.lh then s.lh else s.lh ++ [b]).length := by
    split
    · exact Nat.le_refl _
    · simp
  -- other blocks keep their place and their contents
  have hother : ∀ i c, (if b ∈ s.lh then s.lh else s.lh ++ [b])[i]? = some c →
      c = b ∧ i = s.lh.idxOf b ∨
        c ≠ b ∧ s.lh[i]? = some c ∧ Function.update s.latest b v c = s.latest c := by
    intro i c hi
    by_cases hcb : c = b
    · subst hcb
      exact Or.inl ⟨rfl, (getElem?_absorb h.nodup).1 hi⟩
    · exact Or.inr ⟨hcb, (getElem?_absorb_ne hcb).1 hi, Function.update_of_ne hcb _ _⟩
  constructor
  case nodup =>
    show (if b ∈ s.lh then s.lh else s.lh ++ [b]).Nodup
    split
    · exact h.nodup
    · next hb => exact List.nodup_append_comm.1 (List.nodup_cons.2 ⟨hb, h.nodup⟩)
  case cache =>
    show Function.update s.cache b v = Function.update s.latest b v
    rw [h.cache]
  case home =>
    intro c hc
    have hmem : c ≠ b ∧ c ∉ s.lh := by
      simp only at hc
      split at hc
      · next hb => exact ⟨fun hcb => hc (hcb ▸ hb), hc⟩
      · simp only [List.mem_append, List.mem_singleton, not_or] at hc
        exact ⟨hc.2, hc.1⟩
    show s.home c = Function.update s.latest b v c
    rw [Function.update_of_ne hmem.1]
    exact h.home c hmem.2
  case writeLog =>
    intro tail ht
    rcases h.writeLog tail ht with ⟨hle, hcopy⟩
    refine ⟨hle.trans hlen, fun i c hi hc => ?_⟩
    rcases hother i c hc with ⟨rfl, rfl⟩ | ⟨_, hold, hlatest⟩
    · simp only [Harmless, show s.phase = .writeLog tail from ht] at hok
      rw [hok hi]
      show v = Function.update s.latest c v c
      rw [Function.update_self]
    · exact (hcopy i c hi hold).trans hlatest.symm
  case written =>
    intro ht i c hc
    rcases hother i c hc with ⟨rfl, rfl⟩ | ⟨_, hold, hlatest⟩
    · simp only [Harmless, show s.phase = .written from ht] at hok
      rw [hok]
      show v = Function.update s.latest c v c
      rw [Function.update_self]
    · exact (h.written ht i c hold).trans hlatest.symm
  case install =>
    intro tail ht
    rcases h.install tail ht with ⟨hle, hcopy, hhome⟩
    simp only [Harmless, show s.phase = .install tail from ht] at hok
    refine ⟨hle.trans hlen, fun i c hc => ?_, fun i c hi hc => ?_⟩
    · rcases hother i c hc with ⟨rfl, rfl⟩ | ⟨_, hold, hlatest⟩
      · rw [hok]
        show v = Function.update s.latest c v c
        rw [Function.update_self]
      · exact (hcopy i c hold).trans hlatest.symm
    · rcases hother i c hc with ⟨rfl, rfl⟩ | ⟨_, hold, hlatest⟩
      · -- the block had been installed with the contents it is logged with
        have hlt : s.lh.idxOf c < s.lh.length := by omega
        have hget : s.lh[s.lh.idxOf c]? = some c :=
          List.getElem?_eq_some_iff.2 ⟨hlt, List.getElem_idxOf hlt⟩
        show s.home c = Function.update s.latest c v c
        rw [Function.update_self, hhome _ c hi hget, ← hcopy _ c hget, hok]
      · exact (hhome i c hi hold).trans hlatest.symm
  case installed =>
    intro ht
    simp only [Harmless, show s.phase = .installed from ht] at hok
    -- nothing more is installed: the home block has to have the new contents already
    show s.home = Function.update s.latest b v
    rw [← h.installed ht, ← hok, Function.update_eq_self]

/-- One turn of `write_log`: the copy is of the latest contents. -/
theorem copyAt_inv {s s' : St P} (h : Inv s) {tail : Nat} (hle : tail ≤ s.lh.length)
    (hcopy : ∀ i b, i < tail → s.lh[i]? = some b → s.copy i = s.latest b)
    (hs : copyAt s tail = some s') : Inv s' := by
  rcases Option.map_eq_some_iff.1 hs with ⟨b, hb, rfl⟩
  have hlt : tail < s.lh.length := (List.getElem?_eq_some_iff.1 hb).1
  refine ⟨h.nodup, h.cache, h.home, fun t ht => ?_, by simp, by simp, by simp⟩
  cases ht
  refine ⟨hlt, fun i c hi hc => ?_⟩
  show Function.update s.copy tail (s.cache b) i = s.latest c
  by_cases hit : i = tail
  · subst hit
    rw [Function.update_self, h.cache]
    rw [show s.lh[i]? = some c from hc] at hb
    rw [Option.some.inj hb]
  · rw [Function.update_of_ne hit]
    exact hcopy i c (by omega) hc

/-- One turn of `install_trans`: the home block gets its copy. -/
theorem installBlock_inv {s s' : St P} (h : Inv s) (hs : installBlock s = some s') : Inv s' := by
  unfold installBlock at hs
  split at hs
  · next tail ht =>
    rcases Option.map_eq_some_iff.1 hs with ⟨b, hb, rfl⟩
    rcases h.install tail ht with ⟨hle, hcopy, hhome⟩
    have hlt : tail < s.lh.length := (List.getElem?_eq_some_iff.1 hb).1
    have hval : s.copy tail = s.latest b := hcopy tail b hb
    -- home blocks that were current stay so, and this one becomes so
    have hhome' : ∀ c, s.home c = s.latest c →
        Function.update s.home b (s.copy tail) c = s.latest c := by
      intro c hc
      by_cases hcb : c = b
      · subst hcb
        rw [Function.update_self, hval]
      · rw [Function.update_of_ne hcb, hc]
    refine ⟨h.nodup, ?_, fun c hc => hhome' c (h.home c hc), by simp, by simp, fun t ht => ?_,
      by simp⟩
    · show Function.update s.cache b (s.copy tail) = s.latest
      rw [hval, h.cache, Function.update_eq_self]
    · cases ht
      refine ⟨hlt, hcopy, fun i c hi hc => ?_⟩
      by_cases hit : i = tail
      · subst hit
        rw [show s.lh[i]? = some c from hc] at hb
        show Function.update s.home b (s.copy i) c = s.latest c
        rw [Option.some.inj hb, Function.update_self, hval]
      · exact hhome' c (hhome i c (by omega) hc)
  · cases hs

/-- `write_log` ends where all listed blocks have been copied. -/
theorem copiesDone_inv {s s' : St P} (h : Inv s) (hs : copiesDone s = some s') : Inv s' := by
  unfold copiesDone at hs
  split at hs
  · next tail ht =>
    simp only [Option.ite_none_right_eq_some, Option.some.injEq] at hs
    rcases hs with ⟨hge, rfl⟩
    rcases h.writeLog tail ht with ⟨-, hcopy⟩
    refine ⟨h.nodup, h.cache, h.home, by simp, fun _ i c hc => ?_, by simp, by simp⟩
    exact hcopy i c (lt_of_lt_of_le (List.getElem?_eq_some_iff.1 hc).1 hge) hc
  · cases hs

/-- The header then lists copies of the latest contents. -/
theorem writeHead_inv {s s' : St P} (h : Inv s) (hs : writeHead s = some s') : Inv s' := by
  unfold writeHead at hs
  split at hs
  · next ht =>
    cases hs
    refine ⟨h.nodup, h.cache, h.home, by simp, by simp, fun t htail => ?_, by simp⟩
    cases htail
    exact ⟨Nat.zero_le _, h.written ht, fun i c hi => absurd hi (Nat.not_lt_zero i)⟩
  · cases hs
    exact ⟨h.nodup, h.cache, h.home, by simp, by simp, by simp, by simp⟩
  · cases hs

/-- `install_trans` ends where all listed blocks have been installed. -/
theorem installsDone_inv {s s' : St P} (h : Inv s) (hs : installsDone s = some s') : Inv s' := by
  unfold installsDone at hs
  split at hs
  · next tail ht =>
    simp only [Option.ite_none_right_eq_some, Option.some.injEq] at hs
    rcases hs with ⟨hge, rfl⟩
    rcases h.install tail ht with ⟨-, -, hhome⟩
    refine ⟨h.nodup, h.cache, h.home, by simp, by simp, by simp, fun _ => funext fun b => ?_⟩
    -- a listed block has been installed, and one that is not has kept its contents
    by_cases hb : b ∈ s.lh
    · rcases List.mem_iff_getElem.1 hb with ⟨i, hi, hib⟩
      exact hhome i b (lt_of_lt_of_le hi hge) (List.getElem?_eq_some_iff.2 ⟨hi, hib⟩)
    · exact h.home b hb
  · cases hs

/-- The reset empties the list once everything is at home. -/
theorem reset_inv {s : St P} (h : Inv s) (ht : s.phase = .installed) :
    Inv { s with lh := [], phase := .erase } :=
  ⟨List.nodup_nil, h.cache, fun b _ => congrFun (h.installed ht) b, by simp, by simp, by simp,
    by simp⟩

/-- The loops of `commit` are not running. -/
def Phase.still : Phase → Bool
  | .idle | .entered | .erase | .leave => true
  | _ => false

/-- A step to a phase in which the loops are not running. -/
theorem Inv.setPhase {s s' : St P} (h : Inv s) (hlh : s'.lh = s.lh) (hcache : s'.cache = s.cache)
    (hhome : s'.home = s.home) (hlatest : s'.latest = s.latest)
    (hphase : s'.phase.still = true) : Inv s' := by
  have hne : ∀ {x : Phase}, s'.phase = x → x.still = true := fun hx => hx ▸ hphase
  refine ⟨?_, ?_, ?_, fun t ht => ?_, fun ht => ?_, fun t ht => ?_, fun ht => ?_⟩
  · rw [hlh]
    exact h.nodup
  · rw [hcache, hlatest]
    exact h.cache
  · rw [hlh, hhome, hlatest]
    exact h.home
  all_goals exact absurd (hne ht) (by simp [Phase.still])

/-- Every harmless step keeps the invariant. -/
theorem next_inv [DecidableEq P] {s s' : St P} (h : Inv s) {a : Act P} (hok : Harmless s a)
    (hs : next s a = some s') : Inv s' := by
  cases a with
  | beginOp p =>
      simp only [next, beginOp, Option.ite_none_right_eq_some, Option.some.injEq] at hs
      rcases hs with ⟨⟨hidle, _⟩, rfl⟩
      exact h.setPhase rfl rfl rfl rfl (by simp [hidle, Phase.still])
  | endOp p =>
      simp only [next, endOp, Option.ite_none_right_eq_some, Option.some.injEq] at hs
      rcases hs with ⟨⟨hidle, _⟩, rfl⟩
      exact h.setPhase rfl rfl rfl rfl (by simp [hidle, Phase.still])
  | logWrite p b v => exact logWrite_inv h hok hs
  | enter =>
      simp only [next, Option.ite_none_right_eq_some, Option.some.injEq] at hs
      rcases hs with ⟨_, rfl⟩
      exact h.setPhase rfl rfl rfl rfl rfl
  | nothing =>
      simp only [next, nothing, Option.ite_none_right_eq_some, Option.some.injEq] at hs
      rcases hs with ⟨_, rfl⟩
      exact h.setPhase rfl rfl rfl rfl rfl
  -- a copy is the first one, or one behind those already made
  | copyBlock =>
      simp only [next, copyBlock] at hs
      split at hs
      · exact copyAt_inv h (Nat.zero_le _) (fun i _ hi => absurd hi (Nat.not_lt_zero i)) hs
      · next tail ht =>
        rcases h.writeLog tail ht with ⟨hle, hcopy⟩
        exact copyAt_inv h hle hcopy hs
      · cases hs
  | copiesDone => exact copiesDone_inv h hs
  | writeHead => exact writeHead_inv h hs
  | installBlock => exact installBlock_inv h hs
  | installsDone => exact installsDone_inv h hs
  | reset =>
      simp only [next, Option.ite_none_right_eq_some, Option.some.injEq] at hs
      rcases hs with ⟨ht, rfl⟩
      exact reset_inv h ht
  | clear =>
      simp only [next, Option.ite_none_right_eq_some, Option.some.injEq] at hs
      rcases hs with ⟨_, rfl⟩
      exact h.setPhase rfl rfl rfl rfl rfl

/-! ## Runs -/

/-- There is no commit at the start. -/
theorem init_inv {s : St P} (h : Init s) : Inv s := by
  have hne : ∀ {x : Phase}, s.phase = x → x.still = true := by
    rintro x rfl
    rw [h.phase]
    rfl
  refine ⟨?_, ?_, ?_, fun t ht => ?_, fun ht => ?_, fun t ht => ?_, fun ht => ?_⟩
  · rw [h.lh]
    exact List.nodup_nil
  · rw [h.cache, h.latest]
  · intro b _
    rw [h.latest]
  all_goals exact absurd (hne ht) (by simp [Phase.still])

/-- In every interleaving in which what is logged behind the back of a commit is
what the commit installs, no logged update is lost. -/
theorem no_update_lost [DecidableEq P] {s : St P} (hr : ReachOk Init next Harmless s) :
    NothingLost s := by
  have hinv : Inv s := by
    refine hr.invariant Inv (fun s hs => init_inv hs) ?_
    intro s a s' h hok hs
    exact next_inv h hok hs
  exact hinv.nothingLost

/-! ## An update that is lost -/

/-- A quiet system on a disk of zeros, with one process. -/
def start : St Unit where
  inOp := fun _ => false
  outstanding := 0
  phase := .idle
  lh := []
  cache := fun _ _ => 0
  home := fun _ _ => 0
  copy := fun _ _ => 0
  header := []
  latest := fun _ _ => 0
  logged := fun _ => false

theorem start_init : Init start := ⟨fun _ => rfl, rfl, rfl, rfl, rfl, rfl, fun _ => rfl⟩

/-- A block is logged, another process commits, and the block is logged again
after `write_log` has copied it. -/
def lateWrite : List (Act Unit) :=
  [.beginOp (), .logWrite () 200 fun _ => 1, .enter, .copyBlock, .logWrite () 200 fun _ => 2,
    .copiesDone, .writeHead, .installBlock, .installsDone, .reset]

/-- A block that is logged during a commit that has copied it already is lost. -/
theorem late_write_lost : ¬ ∀ s : St Unit, Reachable Init next s → NothingLost s := by
  intro hall
  have hrun : ∃ s, exec next start lateWrite = some s ∧ s.lh = [] ∧ s.phase = .erase ∧
      s.logged 200 = true ∧ s.home 200 ⟨0, by decide⟩ ≠ s.latest 200 ⟨0, by decide⟩ := by
    refine ⟨_, rfl, rfl, rfl, rfl, ?_⟩
    decide
  rcases hrun with ⟨s, hs, hlh, hphase, hlogged, hne⟩
  have hr : Reachable Init next s := reachable_exec (.init start_init) hs
  rcases hall s hr 200 hlogged (fun heq => hne (congrFun heq _)) with hmem | hpend
  · rw [hlh] at hmem
    cases hmem
  · -- `n` is reset, so the commit takes nothing home any more
    rcases hpend with ⟨tail, i, ht, -⟩ | ⟨i, ht, -⟩ | ⟨tail, i, ht, -⟩ <;>
      exact absurd (hphase.symm.trans ht) (by simp)

/-- Another block is logged between the last copy of `write_log` and `write_head`:
the header lists it, and `install_trans` takes the stale copy home. -/
def newBlock : List (Act Unit) :=
  [.beginOp (), .logWrite () 200 fun _ => 1, .enter, .copyBlock, .copiesDone,
    .logWrite () 201 fun _ => 2, .writeHead, .installBlock, .installBlock, .installsDone, .reset]

example : ∃ s, exec next start newBlock = some s ∧ s.lh = [] ∧ s.logged 201 = true ∧
    s.home 201 ⟨0, by decide⟩ ≠ s.latest 201 ⟨0, by decide⟩ := by
  refine ⟨_, rfl, rfl, rfl, ?_⟩
  decide

/-- A block is logged while `write_log` copies the one before it, and both are
logged once more after their copies, with the contents they have. -/
def sameWrites : List (Act Unit) :=
  [.beginOp (), .logWrite () 200 fun _ => 1, .enter, .copyBlock, .logWrite () 201 fun _ => 2,
    .copyBlock, .copiesDone, .logWrite () 200 fun _ => 1, .writeHead, .installBlock,
    .logWrite () 201 fun _ => 2, .installBlock, .installsDone, .logWrite () 201 fun _ => 2,
    .reset, .logWrite () 202 fun _ => 3, .writeHead, .clear]

/-- A block that is logged again with the same contents is not. -/
theorem no_update_lost_same :
    ∃ s, exec next start sameWrites = some s ∧ s.phase = .idle ∧ s.lh = [202] ∧
      NothingLost s := by
  have hsteps : StepsOk Harmless start (trace next start sameWrites) := by
    refine ⟨trivial, trivial, trivial, trivial, fun h => absurd h (by decide), trivial, trivial,
      rfl, trivial, trivial, rfl, trivial, trivial, rfl, trivial, trivial, trivial, trivial,
      trivial⟩
  have hlast : ∃ a s, (a, s) ∈ trace next start sameWrites ∧
      exec next start sameWrites = some s ∧ s.phase = .idle ∧ s.lh = [202] :=
    ⟨_, _, List.getLast_mem (by simp [sameWrites, trace, next, beginOp, start]), rfl, rfl, rfl⟩
  rcases hlast with ⟨a, s, hmem, hs, hphase, hlh⟩
  have hr : ReachOk Init next Harmless s :=
    ReachOk.of_trace (.init start_init) (isTrace_trace next start sameWrites) hsteps _ hmem
  exact ⟨s, hs, hphase, hlh, no_update_lost hr⟩

end Xv6.Log.Concurrent
