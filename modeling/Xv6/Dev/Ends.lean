import Mathlib.Data.Multiset.AddSub
import Mathlib.Data.Multiset.Replicate
import Xv6.Dev.Pipe

/-!
# The ends of a pipe

`filedup` and `fileclose` of `file.c` on the two files of a pipe, for processes with
one thread each: a descriptor is made by `pipe`, `dup` or `fork`, and closed by its
process between two calls. A file counts its descriptors, and the last one to be
closed closes the end of the pipe.

* `move_counted`: each move keeps the invariant that the two counts are those of
  the descriptors;
* `pipe_lives`: in every reachable state an end is open as long as there is a
  descriptor for it, the page is freed when there is none for either, and then
  nobody is in a call on the pipe.

The calls themselves are the steps of `Dev.Pipe`. `ftable.lock` covers each change
of a count, so a change is one step.
-/

namespace Xv6.Dev.Pipes

open Xv6.Lib

/-! ## The code -/

/-- A pipe with its two files. `ref` are their reference counts, `holders` the entries
for them in the tables of open files, by process. The writing end is `true`. -/
structure Ends (ι : Type) where
  sys : State ι
  ref : Bool → Nat
  holders : Bool → Multiset ι

inductive Move (ι : Type)
  /-- something other than a close happens to the pipe -/
  | pipe (e : Event ι)
  | dup (t : ι) (w : Bool)
  /-- process `t` forks, and process `u` is new -/
  | fork (t u : ι)
  | close (t : ι) (w : Bool)

def Pc.isUser : Pc → Bool
  | .user _ => true
  | _ => false

variable {ι : Type} [DecidableEq ι]

/-- `argfd`, `f->readable` and `f->writable`. -/
def Ends.checks (s : Ends ι) : Event ι → Bool
  | .write t _ _ _ => t ∈ s.holders true
  | .read t _ _ => t ∈ s.holders false
  | .close _ => false
  | _ => true

def filedup (ref : Nat) : Option Nat := if ref < 1 then none else some (ref + 1)

/-- What `fileclose` leaves of the count, and whether it was the last. -/
def fileclose (ref : Nat) : Option (Nat × Bool) :=
  if ref < 1 then none else some (ref - 1, !decide (ref - 1 > 0))

def move (s : Ends ι) : Move ι → Option (Ends ι)
  | .pipe e =>
      if s.checks e = true then (next s.sys e).map fun x => { s with sys := x } else none
  | .dup t w =>
      if (s.sys.pc t).isUser = true ∧ t ∈ s.holders w then
        (filedup (s.ref w)).map fun r =>
          { s with
            ref := Function.update s.ref w r
            holders := Function.update s.holders w (t ::ₘ s.holders w) }
      else none
  | .fork t u =>
      if (s.sys.pc t).isUser = true ∧ (s.sys.pc u).isUser = true ∧ u ∉ s.holders true ∧
          u ∉ s.holders false then
        some { s with
          ref := fun w => s.ref w + (s.holders w).count t
          holders := fun w => s.holders w + Multiset.replicate ((s.holders w).count t) u }
      else none
  | .close t w =>
      if (s.sys.pc t).isUser = true ∧ t ∈ s.holders w then
        (fileclose (s.ref w)).bind fun x =>
          let s' := { s with
            ref := Function.update s.ref w x.1
            holders := Function.update s.holders w ((s.holders w).erase t) }
          if x.2 = true then (next s.sys (.close w)).map fun y => { s' with sys := y }
          else some s'
      else none

/-- Process `t` has just called `pipe`. -/
def Opened (s : Ends ι) : Prop :=
  Start s.sys ∧ ∃ t, ∀ w, s.ref w = 1 ∧ s.holders w = {t}

/-! ## What is kept -/

/-- Whether the end is open. -/
def Pipe.isOpen (p : Pipe) : Bool → Bool
  | true => p.writeopen
  | false => p.readopen

/-- Whether the thread is in a call on the end. -/
def Pc.uses (pc : Pc) : Bool → Bool
  | true => pc.writing
  | false => pc.reading

/-- A file counts its descriptors, an end is open as long as it has one, and a call is on
an end that its process has open. -/
structure Counted (s : Ends ι) : Prop where
  sys : Fifo s.sys
  ref : ∀ w, s.ref w = (s.holders w).card
  open_iff : ∀ w, s.sys.pipe.isOpen w = true ↔ s.holders w ≠ 0
  freed_iff : s.sys.freed = true ↔ ∀ w, s.holders w = 0
  calls : ∀ t w, (s.sys.pc t).uses w = true → t ∈ s.holders w

variable {s s' : State ι} {t : ι}

/-- Who uses an end after a turn of a writer used it before, or is the writer. -/
theorem wrote_uses {x : Turn} {killed : Bool} {n : Int} {cs : List UInt8} {u : ι} {w : Bool}
    (hx : Writes s.pipe killed n cs x) (hu : ((s.wrote t x).pc u).uses w = true) :
    (s.pc u).uses w = true ∨ u = t ∧ w = true := by
  by_cases hut : u = t
  · subst hut
    refine .inr ⟨rfl, ?_⟩
    cases w with
    | true => rfl
    | false =>
        have hpc : x.pc.reading = true := by simpa [State.wrote, Pc.uses] using hu
        rcases hx.ends with ⟨-, h1, -⟩ | ⟨-, h1, -⟩ | ⟨-, -, -, -, -, rest, h1, -⟩ <;>
          · rw [h1] at hpc
            cases hpc
  · left
    cases w <;> simpa [State.wrote, Pc.uses, hut] using hu

/-- Who uses an end after a turn of a reader used it before, or is the reader. -/
theorem read_uses {x : Turn} {killed : Bool} {n : Int} {u : ι} {w : Bool}
    (hx : Reads s.pipe killed n x) (hu : ((s.read t x).pc u).uses w = true) :
    (s.pc u).uses w = true ∨ u = t ∧ w = false := by
  by_cases hut : u = t
  · subst hut
    refine .inr ⟨rfl, ?_⟩
    cases w with
    | false => rfl
    | true =>
        have hpc : x.pc.writing = true := by simpa [State.read, Pc.uses] using hu
        rcases hx.ends with ⟨-, -, -, -, -, ⟨-, h1⟩ | ⟨-, h1⟩⟩ | ⟨-, h1, -⟩ <;>
          · rw [h1] at hpc
            cases hpc
  · left
    cases w <;> simpa [State.read, Pc.uses, hut] using hu

/-- What a step that closes nothing leaves alone, and which thread it can bring into a call on
which end. -/
structure Frame (s : State ι) (e : Event ι) (s' : State ι) : Prop where
  isOpen : ∀ w, s'.pipe.isOpen w = s.pipe.isOpen w
  freed : s'.freed = s.freed
  uses : ∀ u w, (s'.pc u).uses w = true → (s.pc u).uses w = true ∨
    w = true ∧ (∃ n cs late, e = .write u n cs late) ∨ w = false ∧ ∃ n late, e = .read u n late

/-- A turn of a writer opens and closes nothing. -/
theorem Frame.wrote {x : Turn} {e : Event ι} {killed : Bool} {n : Int} {cs : List UInt8}
    (hx : Writes s.pipe killed n cs x)
    (ht : (s.pc t).uses true = true ∨ ∃ n cs late, e = .write t n cs late) :
    Frame s e (s.wrote t x) where
  isOpen := fun w => by
    cases w with
    | true => exact hx.writeopen
    | false => exact hx.readopen
  freed := rfl
  uses := fun u w hu => by
    rcases wrote_uses hx hu with h | ⟨rfl, rfl⟩
    · exact .inl h
    · rcases ht with h | h
      · exact .inl h
      · exact .inr (.inl ⟨rfl, h⟩)

/-- A turn of a reader opens and closes nothing. -/
theorem Frame.read {x : Turn} {e : Event ι} {killed : Bool} {n : Int}
    (hx : Reads s.pipe killed n x) (ht : (s.pc t).uses false = true ∨ ∃ n late,
      e = .read t n late) :
    Frame s e (s.read t x) where
  isOpen := fun w => by
    cases w with
    | true => exact hx.writeopen
    | false => exact hx.readopen
  freed := rfl
  uses := fun u w hu => by
    rcases read_uses hx hu with h | ⟨rfl, rfl⟩
    · exact .inl h
    · rcases ht with h | h
      · exact .inl h
      · exact .inr (.inr ⟨rfl, h⟩)

theorem Frame.late {e : Event ι} (h : Frame s e s') (t : ι) (late : Bool) :
    Frame s e (s'.late t late) :=
  ⟨h.isOpen, h.freed, h.uses⟩

/-- Only `close` opens or closes an end. -/
theorem step_frame {e : Event ι} (hfit : s.pipe.Fits) (hne : ∀ w, e ≠ .close w)
    (hs : next s e = some s') : Frame s e s' := by
  cases next_step hs with
  | write t n cs late h0 hu hlen =>
      have hw : Writes s.pipe (s.killed t) n cs _ := pipewrite_writes hfit
      have hx := Frame.wrote (s := { s with asked := Function.update s.asked t (s.asked t ++ cs) })
        (t := t) (e := .write t n cs late) hw (.inr ⟨n, cs, late, rfl⟩)
      exact ⟨hx.isOpen, hx.freed, hx.uses⟩
  | read t n late h0 hu =>
      exact (Frame.read (piperead_reads hfit) (.inr ⟨n, late, rfl⟩)).late t late
  | runWrite t n cs late h0 hpc =>
      exact (Frame.wrote (pipewrite_writes hfit) (.inl (by rw [hpc]; rfl))).late t late
  | runRead t n late h0 hpc =>
      exact (Frame.read (piperead_reads hfit) (.inl (by rw [hpc]; rfl))).late t late
  | kill t =>
      refine ⟨fun _ => rfl, rfl, fun u w hu => .inl ?_⟩
      by_cases hut : u = t
      · subst hut
        cases w <;> simpa [Pc.uses] using hu
      · cases w <;> simpa [Pc.uses, hut] using hu
  | close w h0 => exact absurd rfl (hne w)

/-- `close` closes one end, and frees the page with the second. -/
theorem close_step {w : Bool} (hs : next s (.close w) = some s') :
    s.freed = false ∧ (∀ v, s'.pipe.isOpen v = (s.pipe.isOpen v && v != w)) ∧
      (s'.freed = true ↔ ∀ v, s'.pipe.isOpen v = false) ∧
        ∀ u v, (s'.pc u).uses v = (s.pc u).uses v := by
  cases next_step hs with
  | close _ h0 =>
      refine ⟨h0, ?_, ?_, ?_⟩
      · intro v
        cases v <;> cases w <;> simp [State.close, Pipe.isOpen]
      · rw [Bool.forall_bool]
        cases w <;> simp [State.close, Pipe.isOpen]
      · intro u v
        cases v <;> simp [State.close, Pc.uses]

theorem uses_user {pc : Pc} {w : Bool} (h : pc.isUser = true) : pc.uses w = false := by
  cases pc with
  | user r => cases w <;> rfl
  | write asleep n cs => cases h
  | read asleep n => cases h

/-! ## Every step -/

variable {x x' : Ends ι} {u : ι} {w : Bool}

/-- After `pipealloc` each end has one file and one descriptor. -/
theorem Opened.counted (h : Opened x) : Counted x := by
  rcases h with ⟨hstart, t, ht⟩
  have hsys := hstart.fifo
  rcases hstart with ⟨⟨page, hpipe⟩, hfreed, hpc, -⟩
  refine ⟨hsys, ?_, ?_, ?_, ?_⟩
  · intro w
    rw [(ht w).1, (ht w).2]
    rfl
  · intro w
    rw [hpipe, (ht w).2]
    cases w <;> simp [Pipe.isOpen, pipealloc]
  · rw [hfreed]
    constructor
    · intro h
      cases h
    · intro h
      have := h true
      rw [(ht true).2] at this
      simp at this
  · intro v w hv
    rcases hpc v with ⟨r, hr⟩
    rw [hr, uses_user rfl] at hv
    cases hv

/-- Calls on the pipe keep the counts. -/
theorem pipe_counted {e : Event ι} {s' : State ι} (h : Counted x) (hc : x.checks e = true)
    (hs : next x.sys e = some s') : Counted { x with sys := s' } := by
  have hne : ∀ w, e ≠ .close w := by
    rintro w rfl
    cases hc
  have hf := step_frame h.sys.fits hne hs
  refine ⟨step_fifo h.sys hs, h.ref, ?_, ?_, ?_⟩
  · intro w
    rw [hf.isOpen]
    exact h.open_iff w
  · rw [hf.freed]
    exact h.freed_iff
  · intro u w hu
    rcases hf.uses u w hu with hu | ⟨rfl, n, cs, late, rfl⟩ | ⟨rfl, n, late, rfl⟩
    · exact h.calls u w hu
    · simpa [Ends.checks] using hc
    · simpa [Ends.checks] using hc

/-- More descriptors for a process that has one or for a new one. -/
theorem more_counted {ref : Bool → Nat} {holders : Bool → Multiset ι} (h : Counted x)
    (href : ∀ w, ref w = (holders w).card) (hle : ∀ w, ∀ t ∈ x.holders w, t ∈ holders w)
    (hzero : ∀ w, x.holders w = 0 → holders w = 0) :
    Counted { x with ref := ref, holders := holders } := by
  have hiff : ∀ w, holders w = 0 ↔ x.holders w = 0 := by
    intro w
    refine ⟨fun h0 => ?_, hzero w⟩
    refine Multiset.eq_zero_of_forall_notMem fun t ht => ?_
    have := hle w t ht
    rw [h0] at this
    exact Multiset.notMem_zero t this
  refine ⟨h.sys, href, ?_, ?_, ?_⟩
  · intro w
    rw [h.open_iff w, Ne, Ne, hiff]
  · simp only [h.freed_iff, hiff]
  · exact fun t w ht => hle w t (h.calls t w ht)

/-- A process gives up a descriptor of an end that has more of them. -/
theorem fewer_counted (h : Counted x) (ht : (x.sys.pc t).isUser = true)
    (hmem : t ∈ x.holders w) (hmore : (x.holders w).erase t ≠ 0) :
    Counted { x with
      ref := Function.update x.ref w (x.ref w - 1)
      holders := Function.update x.holders w ((x.holders w).erase t) } := by
  -- `t` is not the last holder, so the end stays open
  have hiff : ∀ v, Function.update x.holders w ((x.holders w).erase t) v = 0 ↔ x.holders v = 0 := by
    intro v
    by_cases hv : v = w
    · subst hv
      rw [Function.update_self]
      constructor
      · exact fun h0 => absurd h0 hmore
      · intro h0
        rw [h0] at hmem
        exact absurd hmem (Multiset.notMem_zero t)
    · rw [Function.update_of_ne hv]
  refine ⟨h.sys, ?_, ?_, ?_, ?_⟩
  · intro v
    by_cases hv : v = w
    · subst hv
      simp only [Function.update_self, Multiset.card_erase_of_mem hmem, h.ref v]
      rfl
    · simp only [Function.update_of_ne hv]
      exact h.ref v
  · intro v
    show _ ↔ Function.update x.holders w _ v ≠ 0
    rw [Ne, hiff]
    exact h.open_iff v
  · simp only [hiff]
    exact h.freed_iff
  -- a thread inside a call holds its end; `t` is inside none
  · intro u v hu
    have huv := h.calls u v hu
    have hut : u ≠ t := by
      rintro rfl
      rw [uses_user ht] at hu
      cases hu
    show u ∈ Function.update x.holders w _ v
    by_cases hv : v = w
    · subst hv
      rw [Function.update_self]
      exact (Multiset.mem_erase_of_ne hut).2 huv
    · rw [Function.update_of_ne hv]
      exact huv

/-- The last descriptor goes, and the end of the pipe with it. -/
theorem last_counted {s' : State ι} (h : Counted x) (ht : (x.sys.pc t).isUser = true)
    (hmem : t ∈ x.holders w) (hlast : (x.holders w).erase t = 0)
    (hs : next x.sys (.close w) = some s') : Counted
      { sys := s'
        ref := Function.update x.ref w (x.ref w - 1)
        holders := Function.update x.holders w ((x.holders w).erase t) } := by
  rcases close_step hs with ⟨-, hopen, hfreed, huses⟩
  have hother : ∀ v, v ≠ w → (s'.pipe.isOpen v = true ↔ x.holders v ≠ 0) := by
    intro v hv
    rw [hopen v, ← h.open_iff v]
    simp [hv]
  -- `t` is the last holder: `pipeclose` closes the end
  have hself : s'.pipe.isOpen w = false := by
    rw [hopen w]
    simp
  have hall : ∀ v, (s'.pipe.isOpen v = true ↔
      Function.update x.holders w ((x.holders w).erase t) v ≠ 0) := by
    intro v
    by_cases hv : v = w
    · subst hv
      rw [Function.update_self, hlast, hself]
      simp
    · rw [Function.update_of_ne hv]
      exact hother v hv
  refine ⟨step_fifo h.sys hs, ?_, hall, ?_, ?_⟩
  · intro v
    by_cases hv : v = w
    · subst hv
      simp only [Function.update_self, Multiset.card_erase_of_mem hmem, h.ref v]
      rfl
    · simp only [Function.update_of_ne hv]
      exact h.ref v
  -- and with the second end the page is freed
  · rw [hfreed]
    refine forall_congr' fun v => ?_
    show s'.pipe.isOpen v = false ↔ Function.update x.holders w _ v = 0
    rw [← Bool.not_eq_true, hall v, not_not]
  -- a thread inside a call would hold the end that was closed
  · intro u v hu'
    have hu : (x.sys.pc u).uses v = true := (huses u v).symm.trans hu'
    have huv := h.calls u v hu
    have hut : u ≠ t := by
      rintro rfl
      rw [uses_user ht] at hu
      cases hu
    show u ∈ Function.update x.holders w _ v
    by_cases hv : v = w
    · subst hv
      rw [Function.update_self]
      exact (Multiset.mem_erase_of_ne hut).2 huv
    · rw [Function.update_of_ne hv]
      exact huv

/-- Calls on files and descriptors keep the counts, one case each. -/
theorem move_counted {m : Move ι} (h : Counted x) (hs : move x m = some x') : Counted x' := by
  cases m with
  -- a step of the pipe itself
  | pipe e =>
      simp only [move] at hs
      split at hs
      · next hc =>
          rcases Option.map_eq_some_iff.1 hs with ⟨s', hs', rfl⟩
          exact pipe_counted h hc hs'
      · cases hs
  | dup t w =>
      simp only [move] at hs
      split at hs
      · next hc =>
          rcases Option.map_eq_some_iff.1 hs with ⟨r, hr, rfl⟩
          have hr : r = x.ref w + 1 := by
            unfold filedup at hr
            split at hr
            · cases hr
            · cases hr
              rfl
          refine more_counted h ?_ ?_ ?_
          · intro v
            by_cases hv : v = w
            · subst hv
              rw [Function.update_self, Function.update_self, Multiset.card_cons, hr, h.ref v]
            · rw [Function.update_of_ne hv, Function.update_of_ne hv]
              exact h.ref v
          · intro v u hu
            by_cases hv : v = w
            · subst hv
              rw [Function.update_self]
              exact Multiset.mem_cons_of_mem hu
            · rw [Function.update_of_ne hv]
              exact hu
          · intro v hv0
            have hv : v ≠ w := by
              rintro rfl
              rw [hv0] at hc
              exact Multiset.notMem_zero t hc.2
            rw [Function.update_of_ne hv]
            exact hv0
      · cases hs
  | fork t u =>
      simp only [move] at hs
      split at hs
      · cases hs
        refine more_counted h ?_ ?_ ?_
        · intro w
          rw [Multiset.card_add, Multiset.card_replicate, h.ref w]
        · exact fun w v hv => Multiset.mem_add.2 (.inl hv)
        · intro w hw
          rw [hw]
          rfl
      · cases hs
  | close t w =>
      simp only [move] at hs
      -- the file's last reference closes the end; another one does not
      split at hs
      · next hc =>
          rcases hc with ⟨ht, hmem⟩
          rcases Option.bind_eq_some_iff.1 hs with ⟨y, hy, hs⟩
          have hy : y = (x.ref w - 1, !decide (x.ref w - 1 > 0)) := by
            unfold fileclose at hy
            split at hy
            · cases hy
            · cases hy
              rfl
          have hcard : x.ref w - 1 = ((x.holders w).erase t).card := by
            rw [Multiset.card_erase_of_mem hmem, h.ref w]
            rfl
          subst hy
          by_cases hlast : (x.holders w).erase t = 0
          · have hzero : x.ref w - 1 = 0 := by rw [hcard, hlast, Multiset.card_zero]
            simp only [hzero, gt_iff_lt, Nat.lt_irrefl, decide_false, Bool.not_false, if_true,
              Option.map_eq_some_iff] at hs
            rcases hs with ⟨s', hs', rfl⟩
            have hx := last_counted h ht hmem hlast hs'
            rw [hzero] at hx
            exact hx
          · have hpos : 0 < x.ref w - 1 := by
              rw [hcard]
              exact Multiset.card_pos.2 hlast
            simp only [gt_iff_lt, hpos, decide_true, Bool.not_true, Bool.false_eq_true, if_false,
              Option.some.injEq] at hs
            subst hs
            exact fewer_counted h ht hmem hlast
      · cases hs

/-- A pipe lives exactly as long as descriptors for it: its files count them, an end is open
as long as it has one, the page is freed when the last of both ends is closed, and then no
process is in a call on it. -/
theorem pipe_lives (s : Ends ι) (hr : Reachable Opened move s) :
    (∀ w, s.ref w = (s.holders w).card) ∧
      (∀ w, s.sys.pipe.isOpen w = true ↔ s.holders w ≠ 0) ∧
        (s.sys.freed = true ↔ ∀ w, s.holders w = 0) ∧
          (s.sys.freed = true → ∀ t, ∃ r, s.sys.pc t = .user r) := by
  have h : Counted s :=
    hr.invariant Counted (fun _ h => h.counted) fun _ _ _ h _ hs => move_counted h hs
  refine ⟨h.ref, h.open_iff, h.freed_iff, ?_⟩
  intro hf t
  have hnone := h.freed_iff.1 hf
  have huses : ∀ w, (s.sys.pc t).uses w ≠ true := by
    intro w hw
    have := h.calls t w hw
    rw [hnone w] at this
    exact Multiset.notMem_zero t this
  cases hpc : s.sys.pc t with
  | user r => exact ⟨r, rfl⟩
  | write asleep n cs => exact absurd (by rw [hpc]; rfl) (huses true)
  | read asleep n => exact absurd (by rw [hpc]; rfl) (huses false)

/-- The pipe of one process. -/
def oneProcess (t : Fin 2) : Ends (Fin 2) where
  sys := twoThreads
  ref _ := 1
  holders _ := {t}

theorem oneProcess_opened (t : Fin 2) : Opened (oneProcess t) :=
  ⟨twoThreads_start, t, fun _ => ⟨rfl, rfl⟩⟩

/-- The process forks, and each closes the ends that it has. -/
theorem pipe_lives_fork : ∃ s : Ends (Fin 2), s.sys.freed = true ∧ (∀ w, s.holders w = 0) ∧
    ∀ t, ∃ r, s.sys.pc t = .user r := by
  have hrun : (exec move (oneProcess 0)
      [.fork 0 1, .close 0 true, .close 1 false, .close 1 true, .close 0 false]).map
        (fun s => s.sys.freed) = some true := by
    decide +kernel
  rcases Option.map_eq_some_iff.1 hrun with ⟨s, hs, hf⟩
  have h := pipe_lives s (reachable_exec (.init (oneProcess_opened 0)) hs)
  exact ⟨s, hf, h.2.2.1.1 hf, h.2.2.2 hf⟩

end Xv6.Dev.Pipes
