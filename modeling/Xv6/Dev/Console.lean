import Mathlib.Data.List.DropRight
import Mathlib.Tactic.Common
import Xv6.Lib.Counters
import Xv6.Lib.Transition

/-!
# The console

`consoleintr` and `consoleread` of `console.c`. The interrupt handler edits a line
in a ring of `INPUT_BUF` bytes with three free-running counters: readers take
from `r`, the lines that are complete end at `w`, and the line being typed ends
at `e`. Handler and readers hold `cons.lock` from where they take it to where
they release it or sleep, so everything in between is one step, and the steps of
the handler and of any number of readers come in any order. Only `kill` does not
take that lock, and can fall inside a step.

The second half says what all this is for: a line editor with a queue of complete
lines, in which there is no ring and nothing wraps.

* `console_refines_editor`: every run of the ring is a run of the editor.
* `console_lines`: the screen shows what is taken, what is ready, and the line.
* `console_read_line`: what a read returns, and where it ends.
-/

namespace Xv6.Dev.Console

open Xv6.Lib

/-! ## The code -/

def INPUT_BUF : Nat := 128

theorem INPUT_BUF_dvd : INPUT_BUF ∣ 2 ^ 32 := by decide

/-- `C(x)`, control-x. -/
def C (x : Char) : UInt8 := x.toUInt8 - '@'.toUInt8

def newline : UInt8 := 10

def carriageReturn : UInt8 := 13

def delete : UInt8 := 0x7f

/-- An argument of `consputc`. -/
inductive Echo
  | put (c : UInt8)
  | backspace
  deriving DecidableEq

/-- `input`, with what the handler has echoed. -/
structure Input where
  buf : Nat → UInt8
  r : UInt32
  w : UInt32
  e : UInt32
  echo : List Echo

/-- `input.e--; consputc(BACKSPACE)`. -/
def Input.erase (x : Input) : Input := { x with e := x.e - 1, echo := x.echo ++ [.backspace] }

/-- The loop of control-U; `k` bounds the turns that it can take. -/
def Input.killLine (x : Input) : Nat → Input
  | 0 => x
  | k + 1 =>
      if x.e ≠ x.w ∧ x.buf ((x.e - 1).toNat % INPUT_BUF) ≠ newline then x.erase.killLine k else x

/-- `input.buf[input.e++ % INPUT_BUF] = c; consputc(c)`. -/
def Input.put (x : Input) (c : UInt8) : Input :=
  { x with
    buf := Function.update x.buf (x.e.toNat % INPUT_BUF) c
    e := x.e + 1
    echo := x.echo ++ [.put c] }

/-- `consoleintr` for one character, and whether it wakes the readers. -/
def Input.key (x : Input) (c : UInt8) : Input × Bool :=
  if c = C 'P' then (x, false)
  else if c = C 'U' then (x.killLine (x.e - x.w).toNat, false)
  else if c = C 'H' ∨ c = delete then (if x.e ≠ x.w then x.erase else x, false)
  else if c ≠ 0 ∧ x.e - x.r < 128 then
    let c := if c = carriageReturn then newline else c
    let y := x.put c
    if c = newline ∨ c = C 'D' ∨ y.e = y.r + 128 then ({ y with w := y.e }, true) else (y, false)
  else (x, false)

/-- `consoleintr`, with the characters that `getc` returns. -/
def consoleintr (x : Input) : List UInt8 → Input × Bool
  | [] => (x, false)
  | c :: cs =>
      let y := x.key c
      let z := consoleintr y.1 cs
      (z.1, y.2 || z.2)

/-- Where a reader stands. -/
inductive Pc
  /-- in user code, after a read has returned `k` -/
  | user (k : Int)
  /-- in the `sleep(&input.r)` of a read of `target` bytes with `n` to go, asleep
  or not -/
  | read (asleep : Bool) (target n : Nat)
  deriving DecidableEq

/-- What a reader has done when it gives up the lock: the buffer, where it stands,
the bytes that it has copied to `dst`, and those that it has taken off the buffer. -/
structure Turn (β : Type) where
  input : β
  pc : Pc
  moved : List UInt8
  taken : List UInt8

/-- The loop of `consoleread` with `n` bytes to go. -/
def consoleread (x : Input) (killed : Bool) (target : Nat) : Nat → Turn Input
  | 0 => ⟨x, .user target, [], []⟩
  | n + 1 =>
      if x.r = x.w then
        if killed = true then ⟨x, .user (-1), [], []⟩
        else ⟨x, .read true target (n + 1), [], []⟩
      else
        let c := x.buf (x.r.toNat % INPUT_BUF)
        let y := { x with r := x.r + 1 }
        if c = C 'D' then
          if n + 1 < target then ⟨{ y with r := y.r - 1 }, .user (target - (n + 1) : Nat), [], []⟩
          else ⟨y, .user (target - (n + 1) : Nat), [], [c]⟩
        else if c = newline then ⟨y, .user (target - n : Nat), [c], [c]⟩
        else
          let z := consoleread y killed target n
          { z with moved := c :: z.moved, taken := c :: z.taken }

/-! ## The system -/

/-- What the handler and the readers do to a buffer of type `β`. -/
structure Driver (β : Type) where
  intr : β → List UInt8 → β × Bool
  read : β → Bool → Nat → Nat → Turn β

/-- A buffer and the threads of type `ι` that read from it. The last two fields are
history: the bytes taken off the buffer, and what the last read of a thread has
copied so far. -/
structure State (β ι : Type) where
  input : β
  pc : ι → Pc
  killed : ι → Bool
  taken : List UInt8
  got : ι → List UInt8

/-- What happens. `late` tells whether `kill(t)` falls into the turn of `t`, behind its
last look at `killed`; one that falls before it could as well come before the turn. -/
inductive Event (ι : Type)
  /-- an interrupt, with the characters that have come in -/
  | intr (cs : List UInt8)
  | read (t : ι) (n : Int) (late : Bool)
  /-- a thread that has been woken gets the lock again -/
  | run (t : ι) (late : Bool)
  | kill (t : ι)

/-- `wakeup(&input.r)`, or being killed. -/
def Pc.woken : Pc → Pc
  | .read _ target n => .read false target n
  | pc => pc

variable {β γ ι : Type} [DecidableEq ι]

/-- A turn of a reader that has copied `got` so far. -/
def State.turn (s : State β ι) (t : ι) (got : List UInt8) (x : Turn β) : State β ι :=
  { s with
    input := x.input
    pc := Function.update s.pc t x.pc
    taken := s.taken ++ x.taken
    got := Function.update s.got t (got ++ x.moved) }

/-- `kill(t)` finds `t` awake, in the middle of a turn that comes to its end. -/
def State.late (s : State β ι) (t : ι) (late : Bool) : State β ι :=
  { s with killed := Function.update s.killed t (s.killed t || late) }

/-- A turn of the handler, and whether it has woken the readers. -/
def State.handled (s : State β ι) (x : β × Bool) : State β ι :=
  { s with input := x.1, pc := fun t => if x.2 = true then (s.pc t).woken else s.pc t }

def next (d : Driver β) (s : State β ι) : Event ι → Option (State β ι)
  | .intr cs => some (s.handled (d.intr s.input cs))
  | .read t n late =>
      match s.pc t with
      | .user _ => some ((s.turn t [] (d.read s.input (s.killed t) n.toNat n.toNat)).late t late)
      | _ => none
  | .run t late =>
      match s.pc t with
      | .read false target n =>
          some ((s.turn t (s.got t) (d.read s.input (s.killed t) target n)).late t late)
      | _ => none
  | .kill t =>
      some { s with
        killed := Function.update s.killed t true
        pc := Function.update s.pc t (s.pc t).woken }

/-- The driver of the kernel. -/
def console : Driver Input := ⟨consoleintr, consoleread⟩

/-- The console at boot, and threads that have not read from it. -/
def Start (s : State Input ι) : Prop :=
  s.input.r = 0 ∧ s.input.w = 0 ∧ s.input.e = 0 ∧ s.input.echo = [] ∧
    (∀ t, ∃ k, s.pc t = .user k) ∧ s.taken = [] ∧ ∀ t, s.got t = []

/-! ## A line editor -/

/-- The lines that are complete, the line being typed, and what is on the screen. -/
structure Desk where
  ready : List UInt8
  line : List UInt8
  shown : List UInt8

/-- One key, and whether it completes a line. A line also ends when the desk is full. -/
def Desk.key (d : Desk) (c : UInt8) : Desk × Bool :=
  if c = C 'P' then (d, false)
  else if c = C 'U' then ({ d with line := [], shown := d.shown.rdrop d.line.length }, false)
  else if c = C 'H' ∨ c = delete then
    (if d.line ≠ [] then { d with line := d.line.dropLast, shown := d.shown.dropLast } else d,
      false)
  else if c ≠ 0 ∧ d.ready.length + d.line.length < INPUT_BUF then
    let c := if c = carriageReturn then newline else c
    if c = newline ∨ c = C 'D' ∨ d.ready.length + d.line.length + 1 = INPUT_BUF then
      (⟨d.ready ++ (d.line ++ [c]), [], d.shown ++ [c]⟩, true)
    else (⟨d.ready, d.line ++ [c], d.shown ++ [c]⟩, false)
  else (d, false)

def Desk.keys (d : Desk) : List UInt8 → Desk × Bool
  | [] => (d, false)
  | c :: cs =>
      let e := d.key c
      let f := e.1.keys cs
      (f.1, e.2 || f.2)

/-- A reader takes from the complete lines, up to the end of the first of them. A
control-D ends what has been read, and by itself reads as nothing. -/
def Desk.read (d : Desk) (killed : Bool) (target : Nat) : Nat → Turn Desk
  | 0 => ⟨d, .user target, [], []⟩
  | n + 1 =>
      match d.ready with
      | [] =>
          if killed = true then ⟨d, .user (-1), [], []⟩
          else ⟨d, .read true target (n + 1), [], []⟩
      | c :: rest =>
          let e := { d with ready := rest }
          if c = C 'D' then
            if n + 1 < target then ⟨d, .user (target - (n + 1) : Nat), [], []⟩
            else ⟨e, .user (target - (n + 1) : Nat), [], [c]⟩
          else if c = newline then ⟨e, .user (target - n : Nat), [c], [c]⟩
          else
            let f := e.read killed target n
            { f with moved := c :: f.moved, taken := c :: f.taken }

def editor : Driver Desk := ⟨Desk.keys, Desk.read⟩

/-- What a screen shows on which nothing but `es` has been put. -/
def replay : List Echo → List UInt8
  | es => es.foldl (fun shown e =>
      match e with
      | .put c => shown ++ [c]
      | .backspace => shown.dropLast) []

/-- The desk that the ring stands for. -/
def Input.view (x : Input) : Desk where
  ready := window INPUT_BUF x.buf x.r x.w
  line := window INPUT_BUF x.buf x.w x.e
  shown := replay x.echo

/-- The same for the whole system. -/
def State.view (s : State Input ι) : State Desk ι :=
  ⟨s.input.view, s.pc, s.killed, s.taken, s.got⟩

/-! ## What the editor keeps -/

/-- No line being typed holds the end of a line, and it can always be ended. -/
structure Desk.Tidy (d : Desk) : Prop where
  room : d.ready.length + d.line.length ≤ INPUT_BUF
  plain : ∀ c ∈ d.line, c ≠ newline ∧ c ≠ C 'D'
  endable : d.line ≠ [] → d.ready.length + d.line.length < INPUT_BUF

variable {d : Desk} {x : Input} {c : UInt8} {cs : List UInt8} {killed : Bool} {target n : Nat}

/-- Every key leaves the desk tidy, in the order of the cases of `consoleintr`. -/
theorem Desk.Tidy.key (h : d.Tidy) (c : UInt8) : (d.key c).1.Tidy := by
  have hroom := h.room
  unfold Desk.key
  by_cases hp : c = C 'P'
  · rw [if_pos hp]
    exact h
  rw [if_neg hp]
  -- the whole line is taken back
  by_cases hu : c = C 'U'
  · rw [if_pos hu]
    constructor
    · exact le_trans (Nat.le_add_right _ _) hroom
    · intro c hc
      cases hc
    · intro hne
      exact absurd rfl hne
  rw [if_neg hu]
  -- one character is taken back, if there is one
  by_cases hh : c = C 'H' ∨ c = delete
  · rw [if_pos hh]
    by_cases hne : d.line ≠ []
    · simp only [if_pos hne]
      have hlt := h.endable hne
      constructor
      · simp only [List.length_dropLast]
        omega
      · intro c hc
        exact h.plain c (List.dropLast_subset _ hc)
      · intro _
        simp only [List.length_dropLast]
        omega
    · simp only [if_neg hne]
      exact h
  rw [if_neg hh]
  -- a character is put behind the line, if there is room
  by_cases hc : c ≠ 0 ∧ d.ready.length + d.line.length < INPUT_BUF
  · rw [if_pos hc]
    dsimp only
    generalize (if c = carriageReturn then newline else c) = c
    -- it ends the line, or fills the buffer
    by_cases hend : c = newline ∨ c = C 'D' ∨ d.ready.length + d.line.length + 1 = INPUT_BUF
    · rw [if_pos hend]
      constructor
      · simp only [List.length_append, List.length_singleton, List.length_nil]
        omega
      · intro c hc
        cases hc
      · intro hne
        exact absurd rfl hne
    · rw [if_neg hend]
      rw [not_or, not_or] at hend
      rcases hend with ⟨hnl, hd, hfull⟩
      constructor
      · simp only [List.length_append, List.length_singleton]
        omega
      · intro a ha
        rcases List.mem_append.1 ha with ha | ha
        · exact h.plain a ha
        · rw [List.mem_singleton.1 ha]
          exact ⟨hnl, hd⟩
      · intro _
        simp only [List.length_append, List.length_singleton]
        omega
  · rw [if_neg hc]
    exact h

theorem Desk.Tidy.keys (h : d.Tidy) (cs : List UInt8) : (d.keys cs).1.Tidy := by
  induction cs generalizing d with
  | nil => exact h
  | cons c cs ih => exact ih (h.key c)

/-- Before the line lies what has been taken and what is ready, for good. -/
theorem Desk.shown_key {p : List UInt8} (h : d.shown = p ++ d.ready ++ d.line) (c : UInt8) :
    (d.key c).1.shown = p ++ (d.key c).1.ready ++ (d.key c).1.line := by
  unfold Desk.key
  by_cases hp : c = C 'P'
  · rw [if_pos hp]
    exact h
  rw [if_neg hp]
  -- what is shown shrinks with the line
  by_cases hu : c = C 'U'
  · rw [if_pos hu]
    simp only [h, List.append_nil, List.rdrop_append_length]
  rw [if_neg hu]
  by_cases hh : c = C 'H' ∨ c = delete
  · rw [if_pos hh]
    by_cases hne : d.line ≠ []
    · simp only [if_pos hne]
      rw [h, List.dropLast_append_of_ne_nil hne]
    · simp only [if_neg hne]
      exact h
  rw [if_neg hh]
  -- and grows with it
  by_cases hc : c ≠ 0 ∧ d.ready.length + d.line.length < INPUT_BUF
  · rw [if_pos hc]
    dsimp only
    generalize (if c = carriageReturn then newline else c) = c
    by_cases hend : c = newline ∨ c = C 'D' ∨ d.ready.length + d.line.length + 1 = INPUT_BUF
    · rw [if_pos hend]
      simp [h]
    · rw [if_neg hend]
      simp [h]
  · rw [if_neg hc]
    exact h

theorem Desk.shown_keys {p : List UInt8} (h : d.shown = p ++ d.ready ++ d.line) (cs : List UInt8) :
    (d.keys cs).1.shown = p ++ (d.keys cs).1.ready ++ (d.keys cs).1.line := by
  induction cs generalizing d with
  | nil => exact h
  | cons c cs ih => exact ih (Desk.shown_key h c)

/-- Nothing gets ready without a wakeup. -/
theorem Desk.ready_key (c : UInt8) (h : (d.key c).2 = false) : (d.key c).1.ready = d.ready := by
  unfold Desk.key at h ⊢
  by_cases hp : c = C 'P'
  · rw [if_pos hp]
  rw [if_neg hp] at h ⊢
  by_cases hu : c = C 'U'
  · rw [if_pos hu]
  rw [if_neg hu] at h ⊢
  by_cases hh : c = C 'H' ∨ c = delete
  · rw [if_pos hh]
    by_cases hne : d.line ≠ []
    · simp only [if_pos hne]
    · simp only [if_neg hne]
  rw [if_neg hh] at h ⊢
  by_cases hc : c ≠ 0 ∧ d.ready.length + d.line.length < INPUT_BUF
  · rw [if_pos hc] at h ⊢
    dsimp only at h ⊢
    generalize (if c = carriageReturn then newline else c) = c at h ⊢
    by_cases hend : c = newline ∨ c = C 'D' ∨ d.ready.length + d.line.length + 1 = INPUT_BUF
    · rw [if_pos hend] at h
      cases h
    · rw [if_neg hend]
  · rw [if_neg hc]

/-- Keys that complete no line make nothing ready. -/
theorem Desk.ready_keys (cs : List UInt8) (h : (d.keys cs).2 = false) :
    (d.keys cs).1.ready = d.ready := by
  induction cs generalizing d with
  | nil => rfl
  | cons c cs ih =>
      have hor : ((d.key c).2 || ((d.key c).1.keys cs).2) = false := h
      rw [Bool.or_eq_false_iff] at hor
      exact (ih hor.2).trans (Desk.ready_key c hor.1)

/-- How a read that has copied `got` of `target` bytes comes to its end, with
`ready` left and `taken` taken off last. -/
def Ends (target : Nat) (got ready taken : List UInt8) : Prop :=
  got.length = target ∨ got.getLast? = some newline ∨
    got ≠ [] ∧ ready.head? = some (C 'D') ∨ got = [] ∧ taken = [C 'D']

/-- What a turn of a reader does that has copied `got` so far. -/
structure Serves (d : Desk) (killed : Bool) (target n : Nat) (got : List UInt8) (x : Turn Desk) :
    Prop where
  line : x.input.line = d.line
  shown : x.input.shown = d.shown
  taken : x.taken ++ x.input.ready = d.ready
  plain : ∀ c ∈ got ++ x.moved, c ≠ C 'D'
  sleeps : ∀ b m k, x.pc = .read b m k → x.input.ready = [] ∧ m = target ∧
    (got ++ x.moved).length + k = target ∧ 0 < k ∧ ∀ c ∈ got ++ x.moved, c ≠ newline
  returns : ∀ k, x.pc = .user k → k = -1 ∧ killed = true ∧ x.input.ready = [] ∨
    k = (got ++ x.moved).length ∧ (∀ c ∈ (got ++ x.moved).dropLast, c ≠ newline) ∧
      Ends target (got ++ x.moved) x.input.ready x.taken

/-- A turn of `consoleread` ends in one of the ways of `Serves`. By induction on the bytes
that it may still take. -/
theorem Desk.read_serves {got : List UInt8} (hn : got.length + n = target)
    (hgot : ∀ c ∈ got, c ≠ newline ∧ c ≠ C 'D') :
    Serves d killed target n got (d.read killed target n) := by
  have hnl : ∀ c ∈ got, c ≠ newline := fun c hc => (hgot c hc).1
  have hd : ∀ c ∈ got, c ≠ C 'D' := fun c hc => (hgot c hc).2
  induction n generalizing d got with
  -- enough has been read
  | zero =>
      unfold Desk.read
      refine ⟨rfl, rfl, rfl, by simpa using hd, fun b m k h => (by cases h), ?_⟩
      intro k h
      cases h
      refine .inr ⟨by simp [← hn], ?_, .inl (by simpa using hn)⟩
      intro c hc
      exact hnl c (by simpa using List.dropLast_subset _ hc)
  | succ n ih =>
      cases hready : d.ready with
      -- nothing ready: the reader sleeps, unless it is killed
      | nil =>
          cases killed with
          | true =>
              simp only [Desk.read, hready, if_true]
              refine ⟨rfl, rfl, by simp [hready], by simpa using hd, fun b m k h =>
                (by cases h), ?_⟩
              intro k h
              cases h
              exact .inl ⟨rfl, rfl, hready⟩
          | false =>
              simp only [Desk.read, hready, Bool.false_eq_true, if_false]
              refine ⟨rfl, rfl, by simp [hready], by simpa using hd, ?_, fun k h => (by cases h)⟩
              intro b m k h
              cases h
              exact ⟨hready, rfl, by simpa using hn, Nat.succ_pos n, by simpa using hnl⟩
      -- one byte is taken: a newline or the end of the file ends the call, another byte does
      -- not
      | cons c rest =>
          simp only [Desk.read, hready]
          by_cases hcd : c = C 'D'
          · rw [if_pos hcd]
            by_cases hlt : n + 1 < target
            · rw [if_pos hlt]
              refine ⟨rfl, rfl, by simp [hready], by simpa using hd, fun b m k h =>
                (by cases h), ?_⟩
              intro k h
              cases h
              have hlen : target - (n + 1) = got.length := by omega
              have hne : got ≠ [] := by
                rintro rfl
                simp at hlen
                omega
              refine .inr ⟨by simp [hlen], ?_, .inr (.inr (.inl ⟨by simpa using hne, ?_⟩))⟩
              · intro c hc
                exact hnl c (by simpa using List.dropLast_subset _ hc)
              · simp [hready, hcd]
            · rw [if_neg hlt]
              have hnil : got = [] := List.eq_nil_of_length_eq_zero (by omega)
              subst hnil
              refine ⟨rfl, rfl, by simp [hready], by simp, fun b m k h => (by cases h), ?_⟩
              intro k h
              cases h
              refine .inr ⟨?_, by simp, .inr (.inr (.inr ⟨rfl, by rw [hcd]⟩))⟩
              simp at hn ⊢
              omega
          · rw [if_neg hcd]
            by_cases hcn : c = newline
            · rw [if_pos hcn]
              refine ⟨rfl, rfl, by simp [hready], ?_, fun b m k h => (by cases h), ?_⟩
              · intro a ha
                rcases List.mem_append.1 ha with ha | ha
                · exact hd a ha
                · rw [List.mem_singleton.1 ha]
                  exact hcd
              · intro k h
                cases h
                refine .inr ⟨?_, by simpa using hnl, .inr (.inl (by simp [hcn]))⟩
                simp
                omega
            · rw [if_neg hcn]
              have hmem : ∀ a ∈ got ++ [c], a ≠ newline ∧ a ≠ C 'D' := by
                intro a ha
                rcases List.mem_append.1 ha with ha | ha
                · exact hgot a ha
                · rw [List.mem_singleton.1 ha]
                  exact ⟨hcn, hcd⟩
              have hx := @ih { d with ready := rest } (got ++ [c]) (by simp; omega) hmem
                (fun a ha => (hmem a ha).1) (fun a ha => (hmem a ha).2)
              have happ : ∀ l : List UInt8, got ++ c :: l = got ++ [c] ++ l := by simp
              refine ⟨hx.line, hx.shown, (congrArg (c :: ·) hx.taken).trans hready.symm, ?_, ?_, ?_⟩
              · dsimp only
                rw [happ]
                exact hx.plain
              · dsimp only
                rw [happ]
                exact hx.sleeps
              · intro k hk
                dsimp only at hk ⊢
                rw [happ]
                rcases hx.returns k hk with h | ⟨h1, h2, h3⟩
                · exact .inl h
                · refine .inr ⟨h1, h2, ?_⟩
                  rcases h3 with h | h | h | ⟨h, -⟩
                  · exact .inl h
                  · exact .inr (.inl h)
                  · exact .inr (.inr (.inl h))
                  · simp at h

/-! ## The ring is the desk -/

theorem view_lengths (x : Input) : x.view.ready.length = (x.w - x.r).toNat ∧
    x.view.line.length = (x.e - x.w).toNat := ⟨Window.length .., Window.length ..⟩

/-- The windows of a tidy ring are short of the range of a counter. -/
theorem view_append (h : x.view.Tidy) :
    x.view.ready ++ x.view.line = window INPUT_BUF x.buf x.r x.e := by
  have hroom := h.room
  rw [(view_lengths x).1, (view_lengths x).2] at hroom
  refine Window.append INPUT_BUF_dvd ?_
  unfold INPUT_BUF at hroom
  omega

theorem view_room (h : x.view.Tidy) :
    (x.e - x.r).toNat = x.view.ready.length + x.view.line.length := by
  have happ := congrArg List.length (view_append h)
  rw [List.length_append, Window.length] at happ
  exact happ.symm

theorem line_ne_nil : x.view.line ≠ [] ↔ x.e ≠ x.w := by
  have hnil : x.view.line = [] ↔ x.w = x.e := Window.empty_iff
  rw [Ne, hnil, eq_comm]

/-- Taking back the last character of the line. -/
theorem view_erase (h : x.e ≠ x.w) : x.erase.view =
    { x.view with line := x.view.line.dropLast, shown := x.view.shown.dropLast } := by
  have hline : x.erase.view.line = x.view.line.dropLast := Window.dropLast (Ne.symm h)
  have hshown : x.erase.view.shown = x.view.shown.dropLast := by
    simp [Input.erase, Input.view, replay, List.foldl_append]
  rw [← hline, ← hshown]
  rfl

/-- The newline that control-U looks for is never there: it takes back the whole
line. -/
theorem view_killLine (k : Nat) (hk : x.view.line.length = k)
    (hplain : ∀ c ∈ x.view.line, c ≠ newline) :
    (x.killLine k).view =
      { x.view with line := [], shown := x.view.shown.rdrop x.view.line.length } := by
  induction k generalizing x with
  | zero =>
      have hnil := List.eq_nil_of_length_eq_zero hk
      rw [hnil, List.length_nil, List.rdrop_zero, ← hnil]
      rfl
  | succ k ih =>
      have hne : x.view.line ≠ [] := List.ne_nil_of_length_eq_add_one hk
      have he := line_ne_nil.1 hne
      -- the last character is no newline, so the loop goes on
      have hlast : x.buf ((x.e - 1).toNat % INPUT_BUF) ∈ x.view.line := by
        have hsnoc : x.view.line = _ := Window.snoc INPUT_BUF_dvd (Ne.symm he)
        rw [hsnoc]
        exact List.mem_append_right _ (List.mem_singleton_self _)
      have hv := view_erase he
      have hline : x.erase.view.line = x.view.line.dropLast := by rw [hv]
      have hih := @ih x.erase (by rw [hline, List.length_dropLast, hk, Nat.add_sub_cancel]) (by
        intro c hc
        rw [hline] at hc
        exact hplain c (List.dropLast_subset _ hc))
      unfold Input.killLine
      rw [if_pos ⟨he, hplain _ hlast⟩, hih, hv]
      simp only [List.length_dropLast, hk, Nat.add_sub_cancel]
      congr 1
      rw [List.rdrop, List.rdrop, List.dropLast_eq_take, List.take_take, List.length_take]
      congr 1
      omega

/-- Typing a character behind the line. -/
theorem view_put (h : x.view.Tidy) (hlt : (x.e - x.r).toNat < INPUT_BUF) (c : UInt8) :
    (x.put c).view =
      ⟨x.view.ready, x.view.line ++ [c], x.view.shown ++ [c]⟩ := by
  have hroom := view_room h
  rw [(view_lengths x).1, (view_lengths x).2] at hroom
  have hready : (x.put c).view.ready = x.view.ready := by
    refine Window.update_before (w := x.w) INPUT_BUF_dvd ?_ hlt c
    unfold INPUT_BUF at hlt
    omega
  have hline : (x.put c).view.line = x.view.line ++ [c] := by
    refine Window.push (r := x.w) INPUT_BUF_dvd (by omega) c ?_
    unfold INPUT_BUF at hlt
    omega
  have hshown : (x.put c).view.shown = x.view.shown ++ [c] := by
    simp [Input.put, Input.view, replay, List.foldl_append]
  rw [← hready, ← hline, ← hshown]

/-- `input.w = input.e`. -/
theorem view_commit (happ : x.view.ready ++ x.view.line = window INPUT_BUF x.buf x.r x.e) :
    Input.view { x with w := x.e } = ⟨x.view.ready ++ x.view.line, [], x.view.shown⟩ := by
  have hnil : (Input.view { x with w := x.e }).line = [] := Window.self ..
  rw [happ, ← hnil]
  rfl

/-- One key does to the ring what it does to the desk. -/
theorem view_key (h : x.view.Tidy) (c : UInt8) :
    ((x.key c).1.view, (x.key c).2) = x.view.key c := by
  unfold Input.key Desk.key
  by_cases hp : c = C 'P'
  · rw [if_pos hp, if_pos hp]
  rw [if_neg hp, if_neg hp]
  by_cases hu : c = C 'U'
  · rw [if_pos hu, if_pos hu, ← (view_lengths x).2,
      view_killLine _ rfl fun c hc => (h.plain c hc).1]
  rw [if_neg hu, if_neg hu]
  by_cases hh : c = C 'H' ∨ c = delete
  · rw [if_pos hh, if_pos hh]
    by_cases he : x.e ≠ x.w
    · rw [if_pos he, if_pos (line_ne_nil.2 he), view_erase he]
    · rw [if_neg he, if_neg (fun hl => he (line_ne_nil.1 hl))]
  rw [if_neg hh, if_neg hh]
  have hlt : x.e - x.r < 128 ↔ x.view.ready.length + x.view.line.length < INPUT_BUF := by
    rw [← view_room h]
    exact UInt32.lt_iff_toNat_lt
  by_cases hc : c ≠ 0 ∧ x.view.ready.length + x.view.line.length < INPUT_BUF
  · rw [if_pos ⟨hc.1, hlt.2 hc.2⟩, if_pos hc]
    dsimp only
    generalize (if c = carriageReturn then newline else c) = c
    have hput := view_put h (by rw [view_room h]; exact hc.2) c
    -- the counters meet `INPUT_BUF` apart exactly when the desk is full
    have hfull : (x.put c).e = (x.put c).r + 128 ↔
        x.view.ready.length + x.view.line.length + 1 = INPUT_BUF := by
      have hroom := view_room h
      have hr := x.r.toNat_lt
      have he := x.e.toNat_lt
      have hsub := Window.toNat_sub x.e x.r
      have h1 : (x.e + 1).toNat = (x.e.toNat + 1) % 2 ^ 32 := Window.toNat_succ x.e
      have h2 : (x.r + 128).toNat = (x.r.toNat + 128) % 2 ^ 32 := UInt32.toNat_add _ _
      have hc := hc.2
      unfold INPUT_BUF at hc ⊢
      show x.e + 1 = x.r + 128 ↔ _
      rw [← UInt32.toNat_inj]
      omega
    have hends : c = newline ∨ c = C 'D' ∨ (x.put c).e = (x.put c).r + 128 ↔
        c = newline ∨ c = C 'D' ∨ x.view.ready.length + x.view.line.length + 1 = INPUT_BUF := by
      rw [hfull]
    by_cases hend : c = newline ∨ c = C 'D' ∨
      x.view.ready.length + x.view.line.length + 1 = INPUT_BUF
    · rw [if_pos (hends.2 hend), if_pos hend]
      have happ : (x.put c).view.ready ++ (x.put c).view.line =
          window INPUT_BUF (x.put c).buf (x.put c).r (x.put c).e := by
        refine Window.append INPUT_BUF_dvd ?_
        rw [← (view_lengths (x.put c)).1, ← (view_lengths (x.put c)).2, hput]
        have hc := hc.2
        simp only [List.length_append, List.length_singleton]
        unfold INPUT_BUF at hc
        omega
      rw [view_commit happ, hput]
    · rw [if_neg (fun h => hend (hends.1 h)), if_neg hend, hput]
  · rw [if_neg (fun h => hc ⟨h.1, hlt.1 h.2⟩), if_neg hc]

/-- An interrupt is its keys, seen on the desk. -/
theorem view_consoleintr (h : x.view.Tidy) (cs : List UInt8) :
    ((consoleintr x cs).1.view, (consoleintr x cs).2) = x.view.keys cs := by
  induction cs generalizing x with
  | nil => rfl
  | cons c cs ih =>
      have hkey := view_key h c
      have hv : (x.key c).1.view = (x.view.key c).1 := congrArg Prod.fst hkey
      have hw : (x.key c).2 = (x.view.key c).2 := congrArg Prod.snd hkey
      have hih : ((consoleintr (x.key c).1 cs).1.view, (consoleintr (x.key c).1 cs).2) =
          (x.view.key c).1.keys cs := by
        rw [← hv]
        exact ih (hv ▸ h.key c)
      show ((consoleintr (x.key c).1 cs).1.view, (x.key c).2 || (consoleintr (x.key c).1 cs).2) =
        (((x.view.key c).1.keys cs).1, (x.view.key c).2 || ((x.view.key c).1.keys cs).2)
      rw [← hih, hw]

/-- A turn on the desk that a turn on the ring stands for. -/
def Turn.view (x : Turn Input) : Turn Desk := ⟨x.input.view, x.pc, x.moved, x.taken⟩

theorem view_pop (h : x.r ≠ x.w) : x.view.ready = x.buf (x.r.toNat % INPUT_BUF) ::
    (Input.view { x with r := x.r + 1 }).ready := Window.pop INPUT_BUF_dvd h

/-- A turn of `consoleread` is one of the reader at the desk. -/
theorem view_consoleread : (consoleread x killed target n).view = x.view.read killed target n := by
  induction n generalizing x with
  | zero => rfl
  | succ n ih =>
      unfold consoleread Desk.read
      by_cases hempty : x.r = x.w
      · have hnil : x.view.ready = [] := Window.empty_iff.2 hempty
        rw [if_pos hempty, hnil]
        cases killed <;> rfl
      · have hpop := view_pop hempty
        rw [if_neg hempty, hpop]
        dsimp only
        by_cases hd : x.buf (x.r.toNat % INPUT_BUF) = C 'D'
        · rw [if_pos hd, if_pos hd]
          by_cases hlt : n + 1 < target
          · rw [if_pos hlt, if_pos hlt]
            -- the control-D is put back where it was
            have hback : x.r + 1 - 1 = x.r := UInt32.add_sub_cancel ..
            simp only [hback]
            rfl
          · rw [if_neg hlt, if_neg hlt]
            rfl
        · rw [if_neg hd, if_neg hd]
          by_cases hnl : x.buf (x.r.toNat % INPUT_BUF) = newline
          · rw [if_pos hnl, if_pos hnl]
            rfl
          · rw [if_neg hnl, if_neg hnl]
            have hih := @ih { x with r := x.r + 1 }
            have hv : Input.view { x with r := x.r + 1 } =
                { x.view with ready := (Input.view { x with r := x.r + 1 }).ready } := rfl
            rw [← hv, ← hih]
            rfl

/-! ## The system -/

/-- What holds of the editor and its readers in every state. -/
structure Kept (s : State Desk ι) : Prop where
  tidy : s.input.Tidy
  shown : s.input.shown = s.taken ++ s.input.ready ++ s.input.line
  sleeping : ∀ t target n, s.pc t = .read true target n → s.input.ready = []
  reading : ∀ t b target n, s.pc t = .read b target n → (s.got t).length + n = target ∧ 0 < n ∧
    ∀ c ∈ s.got t, c ≠ newline ∧ c ≠ C 'D'

/-- After a wakeup nobody sleeps. -/
theorem woken_read {pc : Pc} {b : Bool} {target n : Nat} (h : pc.woken = .read b target n) :
    b = false ∧ ∃ b', pc = .read b' target n := by
  cases pc with
  | user k => cases h
  | read b' m k =>
      cases h
      exact ⟨rfl, b', rfl⟩

/-- A turn of a reader loses no byte. -/
theorem Kept.turn {s : State Desk ι} {t : ι} {got : List UInt8} (h : Kept s)
    {x : Turn Desk} (hx : Serves s.input (s.killed t) target n got x) : Kept (s.turn t got x) := by
  have hlen : x.input.ready.length ≤ s.input.ready.length := by
    rw [← hx.taken, List.length_append]
    exact Nat.le_add_left ..
  have hroom := h.tidy.room
  refine ⟨⟨?_, ?_, ?_⟩, ?_, ?_, ?_⟩
  · show x.input.ready.length + x.input.line.length ≤ INPUT_BUF
    rw [hx.line]
    omega
  · show ∀ c ∈ x.input.line, _
    rw [hx.line]
    exact h.tidy.plain
  · show x.input.line ≠ [] → x.input.ready.length + x.input.line.length < INPUT_BUF
    rw [hx.line]
    intro hne
    have := h.tidy.endable hne
    omega
  · show x.input.shown = s.taken ++ x.taken ++ x.input.ready ++ x.input.line
    rw [hx.shown, hx.line, List.append_assoc s.taken, hx.taken]
    exact h.shown
  · intro u m k hu
    show x.input.ready = []
    by_cases hut : u = t
    · subst hut
      simp only [State.turn, Function.update_self] at hu
      exact (hx.sleeps _ _ _ hu).1
    · simp only [State.turn, Function.update_of_ne hut] at hu
      -- nothing can be taken while somebody sleeps
      have htaken := hx.taken
      rw [h.sleeping u m k hu, List.append_eq_nil_iff] at htaken
      exact htaken.2
  · intro u b m k hu
    by_cases hut : u = t
    · subst hut
      simp only [State.turn, Function.update_self] at hu ⊢
      rcases hx.sleeps _ _ _ hu with ⟨-, hm, hlen, hk, hnl⟩
      rw [hm]
      exact ⟨hlen, hk, fun c hc => ⟨hnl c hc, hx.plain c hc⟩⟩
    · simp only [State.turn, Function.update_of_ne hut] at hu ⊢
      exact h.reading u b m k hu

omit [DecidableEq ι] in
/-- An interrupt loses no byte. -/
theorem Kept.handled {s : State Desk ι} (h : Kept s) (cs : List UInt8) :
    Kept (s.handled (s.input.keys cs)) := by
  refine ⟨h.tidy.keys cs, Desk.shown_keys h.shown cs, ?_, ?_⟩
  · intro t target n ht
    simp only [State.handled] at ht
    by_cases hw : (s.input.keys cs).2 = true
    · rw [if_pos hw] at ht
      cases (woken_read ht).1
    · rw [if_neg hw] at ht
      exact (Desk.ready_keys cs (by simpa using hw)).trans (h.sleeping t target n ht)
  · intro t b target n ht
    simp only [State.handled] at ht
    by_cases hw : (s.input.keys cs).2 = true
    · rw [if_pos hw] at ht
      rcases woken_read ht with ⟨-, b', ht⟩
      exact h.reading t b' target n ht
    · rw [if_neg hw] at ht
      exact h.reading t b target n ht

/-- Of `killed` nothing is said. -/
theorem Kept.late {s : State Desk ι} (h : Kept s) (t : ι) (late : Bool) : Kept (s.late t late) :=
  ⟨h.tidy, h.shown, h.sleeping, h.reading⟩

/-- No step loses a byte. -/
theorem Kept.next {s s' : State Desk ι} {e : Event ι} (h : Kept s)
    (hs : next editor s e = some s') : Kept s' := by
  cases e with
  | intr cs =>
      cases hs
      exact h.handled cs
  -- a call is made only by a thread that is in none
  | read t n late =>
      simp only [Console.next] at hs
      cases hpc : s.pc t with
      | user k =>
          rw [hpc] at hs
          cases hs
          exact (h.turn (Desk.read_serves (Nat.zero_add _) (by simp))).late t late
      | read b target m =>
          rw [hpc] at hs
          cases hs
  | run t late =>
      simp only [Console.next] at hs
      -- a reader that was woken goes on with what it has
      cases hpc : s.pc t with
      | user k =>
          rw [hpc] at hs
          cases hs
      | read b target m =>
          cases b with
          | true =>
              rw [hpc] at hs
              cases hs
          | false =>
              rw [hpc] at hs
              cases hs
              rcases h.reading t false target m hpc with ⟨hlen, -, hgot⟩
              exact (h.turn (Desk.read_serves hlen hgot)).late t late
  | kill t =>
      cases hs
      refine ⟨h.tidy, h.shown, ?_, ?_⟩
      · intro u target n hu
        by_cases hut : u = t
        · subst hut
          simp only [Function.update_self] at hu
          cases (woken_read hu).1
        · simp only [Function.update_of_ne hut] at hu
          exact h.sleeping u target n hu
      · intro u b target n hu
        by_cases hut : u = t
        · subst hut
          simp only [Function.update_self] at hu
          rcases woken_read hu with ⟨-, b', hu⟩
          exact h.reading u b' target n hu
        · simp only [Function.update_of_ne hut] at hu
          exact h.reading u b target n hu

theorem view_turn (s : State Input ι) (t : ι) (got : List UInt8) (x : Turn Input) (late : Bool) :
    ((s.turn t got x).late t late).view = (s.view.turn t got x.view).late t late := rfl

/-- One step of the kernel is that step of the editor. -/
theorem view_next {s s' : State Input ι} {e : Event ι} (h : Kept s.view)
    (hs : next console s e = some s') : next editor s.view e = some s'.view ∧ Kept s'.view := by
  have hview : next editor s.view e = some s'.view := by
    -- every event of the console is the same event at the desk
    cases e with
    | intr cs =>
        cases hs
        have hv : _ = s.view.input.keys cs := view_consoleintr h.tidy cs
        exact congrArg (fun x => some (s.view.handled x)) hv.symm
    | read t n late =>
        simp only [next] at hs ⊢
        cases hpc : s.pc t with
        | user k =>
            rw [hpc] at hs
            cases hs
            have hpc : s.view.pc t = .user k := hpc
            rw [hpc, view_turn]
            exact congrArg (fun x => some ((s.view.turn t [] x).late t late)) view_consoleread.symm
        | read b target m =>
            rw [hpc] at hs
            cases hs
    | run t late =>
        simp only [next] at hs ⊢
        cases hpc : s.pc t with
        | user k =>
            rw [hpc] at hs
            cases hs
        | read b target m =>
            cases b with
            | true =>
                rw [hpc] at hs
                cases hs
            | false =>
                rw [hpc] at hs
                cases hs
                have hpc : s.view.pc t = .read false target m := hpc
                rw [hpc, view_turn]
                exact congrArg (fun x => some ((s.view.turn t (s.got t) x).late t late))
                  view_consoleread.symm
    | kill t =>
        cases hs
        rfl
  exact ⟨hview, h.next hview⟩

omit [DecidableEq ι] in
/-- Nothing has been typed at the start. -/
theorem Start.kept {s : State Input ι} (h : Start s) : Kept s.view := by
  rcases h with ⟨hr, hw, he, hecho, hpc, htaken, -⟩
  have hv : s.view.input = ⟨[], [], []⟩ := by
    simp [State.view, Input.view, hr, hw, he, hecho, replay]
  have huser : ∀ t b target n, s.view.pc t ≠ .read b target n := by
    intro t b target n ht
    rcases hpc t with ⟨k, hk⟩
    cases hk.symm.trans ht
  refine ⟨?_, ?_, ?_, ?_⟩
  · rw [hv]
    exact ⟨Nat.zero_le _, by simp, by simp⟩
  · have htaken : s.view.taken = [] := htaken
    rw [hv, htaken]
    rfl
  · intro t target n ht
    exact absurd ht (huser t true target n)
  · intro t b target n ht
    exact absurd ht (huser t b target n)

theorem reachable_kept {s : State Input ι} (hr : Reachable Start (next console) s) :
    Kept s.view :=
  hr.invariant (fun s => Kept s.view) (fun _ h => h.kept) fun _ _ _ h _ hs => (view_next h hs).2

/-- The ring with its wrapping counters is a line editor: every run of interrupts
and reads is, event for event, a run of the editor on the desk it stands for. -/
theorem console_refines_editor (s s' : State Input ι) (es : List (Event ι)) (h : Start s)
    (hs : exec (next console) s es = some s') : exec (next editor) s.view es = some s'.view :=
  (exec_view State.view (fun s => Kept s.view) (fun _ _ _ h hs => view_next h hs) h.kept hs).1

/-- A console and one thread. -/
def oneReader : State Input (Fin 1) where
  input := ⟨fun _ => 0, 0, 0, 0, []⟩
  pc _ := .user 0
  killed _ := false
  taken := []
  got _ := []

theorem oneReader_start : Start oneReader :=
  ⟨rfl, rfl, rfl, rfl, fun _ => ⟨0, rfl⟩, rfl, fun _ => rfl⟩

/-- The reader waits, and gets the line once it has been typed and corrected. -/
theorem console_refines_editor_line : ∃ s : State Input (Fin 1),
    exec (next editor) oneReader.view
        [.read 0 10 false, .intr [97, 98, 8, 99, 13], .run 0 true] = some s.view ∧
      s.taken = [97, 99, 10] := by
  have hrun : (exec (next console) oneReader
      [.read 0 10 false, .intr [97, 98, 8, 99, 13], .run 0 true]).map State.taken = some
        [97, 99, 10] := by
    decide +kernel
  rcases Option.map_eq_some_iff.1 hrun with ⟨s, hs, htaken⟩
  exact ⟨s, console_refines_editor oneReader s _ oneReader_start hs, htaken⟩

/-- What is on the screen is what readers have taken, what is ready for them, and
the line being typed, which can always be ended; and nobody sleeps while there is
something to read. -/
theorem console_lines (s : State Input ι) (hr : Reachable Start (next console) s) :
    replay s.input.echo = s.taken ++ s.input.view.ready ++ s.input.view.line ∧
      s.input.view.Tidy ∧
      ∀ t target n, s.pc t = .read true target n → s.input.view.ready = [] := by
  have h := reachable_kept hr
  exact ⟨h.shown, h.tidy, h.sleeping⟩

/-- A line with a character taken back. -/
theorem console_lines_typing : ∃ s : State Input (Fin 1), replay s.input.echo = [97, 99] ∧
    replay s.input.echo = s.taken ++ s.input.view.ready ++ s.input.view.line := by
  have hrun : (exec (next console) oneReader [.read 0 10 true, .intr [97, 98, 127, 99]]).map
      (fun s => replay s.input.echo) = some [97, 99] := by
    decide +kernel
  rcases Option.map_eq_some_iff.1 hrun with ⟨s, hs, hv⟩
  exact ⟨s, hv, (console_lines s (reachable_exec (.init oneReader_start) hs)).1⟩

/-- A read returns the number of bytes that it has copied: no more than to the
first newline, no control-D, and fewer than asked for only at the end of a line,
in front of a control-D, or having taken one off by itself. Only a thread that has
been killed gets -1. -/
theorem console_read_line (s s' : State Input ι) (e : Event ι) (t : ι) (target : Nat) (k : Int)
    (late : Bool) (hr : Reachable Start (next console) s) (hs : next console s e = some s')
    (he : (∃ n, e = .read t n late ∧ target = n.toNat) ∨
      e = .run t late ∧ ∃ n, s.pc t = .read false target n)
    (hk : s'.pc t = .user k) :
    k = -1 ∧ s.killed t = true ∨
      k = (s'.got t).length ∧ (∀ c ∈ s'.got t, c ≠ C 'D') ∧
        (∀ c ∈ (s'.got t).dropLast, c ≠ newline) ∧
        ∃ taken, s'.taken = s.taken ++ taken ∧
          Ends target (s'.got t) s'.input.view.ready taken := by
  have hkept := reachable_kept hr
  -- what a turn of the reader gives, seen at the desk
  have hmain : ∀ (got : List UInt8) (n : Nat), got.length + n = target →
      (∀ c ∈ got, c ≠ newline ∧ c ≠ C 'D') →
      s' = (s.turn t got (consoleread s.input (s.killed t) target n)).late t late →
      k = -1 ∧ s.killed t = true ∨
        k = (s'.got t).length ∧ (∀ c ∈ s'.got t, c ≠ C 'D') ∧
          (∀ c ∈ (s'.got t).dropLast, c ≠ newline) ∧
          ∃ taken, s'.taken = s.taken ++ taken ∧
            Ends target (s'.got t) s'.input.view.ready taken := by
    intro got n hn hgot hs'
    have hx : Serves s.input.view (s.killed t) target n got _ := Desk.read_serves hn hgot
    rw [← view_consoleread] at hx
    subst hs'
    simp only [State.late, State.turn, Function.update_self] at hk ⊢
    rcases hx.returns k hk with ⟨hk1, hkill, -⟩ | ⟨hk1, hnl, hends⟩
    · exact .inl ⟨hk1, hkill⟩
    · exact .inr ⟨hk1, hx.plain, hnl, _, rfl, hends⟩
  rcases he with ⟨n, rfl, htarget⟩ | ⟨rfl, n, hpc⟩
  -- the turn begins the call
  · simp only [next] at hs
    cases hpc : s.pc t with
    | user j =>
        rw [hpc] at hs
        cases hs
        rw [← htarget] at hmain ⊢
        exact hmain [] target (Nat.zero_add _) (by simp) rfl
    | read b m j =>
        rw [hpc] at hs
        cases hs
  -- the turn goes on with a call that slept
  · simp only [next] at hs
    rw [hpc] at hs
    cases hs
    rcases hkept.reading t false target n hpc with ⟨hlen, -, hgot⟩
    exact hmain (s.got t) n hlen hgot rfl

/-- Two bytes and a control-D have been typed: the read gets the two. -/
theorem console_read_line_two : ∃ s s' : State Input (Fin 1),
    next console s (.read 0 10 false) = some s' ∧ s'.pc 0 = .user 2 ∧
      (2 : Int) = (s'.got 0).length := by
  have hrun : ((exec (next console) oneReader [.intr [97, 98, 4]]).bind fun s =>
      (next console s (.read 0 10 false)).map fun s' => (s'.pc 0, s.killed 0)) =
        some (.user 2, false) := by
    decide +kernel
  rcases Option.bind_eq_some_iff.1 hrun with ⟨s, hs, hs'⟩
  rcases Option.map_eq_some_iff.1 hs' with ⟨s', hs', hv⟩
  have hpc : s'.pc 0 = .user 2 := congrArg Prod.fst hv
  have hr := reachable_exec (.init oneReader_start) hs
  refine ⟨s, s', hs', hpc, ?_⟩
  rcases console_read_line s s' _ 0 10 2 false hr hs' (.inl ⟨10, rfl, rfl⟩) hpc with ⟨h, -⟩ | ⟨h, -⟩
  · cases h
  · exact h

end Xv6.Dev.Console
