import Xv6.Lib.Counters
import Xv6.Lib.Transition

/-!
# Pipes

`pipe.c`. Any number of threads write to one pipe and read from it, in any order
and on any number of CPUs. A thread holds `p->lock` from where it takes it to where
it returns or sleeps, so everything in between is one step. Only `kill` does not
take that lock: on another CPU it can fall inside a step, and when it falls behind
the test of `killed` the thread goes to sleep with the flag set. `nread` and
`nwrite` only grow, and wrap.

* `pipe_fifo`: the bytes that are taken are those that are stored, in order.
* `pipe_end_of_file`: what the result of a read says.
* `pipe_wakeups`: nobody sleeps who has something to do.
-/

namespace Xv6.Dev.Pipes

open Xv6.Lib

/-! ## The code -/

def PIPESIZE : Nat := 512

theorem PIPESIZE_dvd : PIPESIZE ∣ 2 ^ 32 := by decide

/-- `struct pipe`, but for its lock. -/
structure Pipe where
  data : Nat → UInt8
  nread : UInt32
  nwrite : UInt32
  readopen : Bool
  writeopen : Bool

/-- The pipe that `pipealloc` sets up in a page with whatever was in it. -/
def pipealloc (page : Nat → UInt8) : Pipe := ⟨page, 0, 0, true, true⟩

/-- The channels of a pipe. -/
inductive Chan
  | nread
  | nwrite
  deriving DecidableEq

/-- Where a thread stands. -/
inductive Pc
  /-- in user code, after a call has returned `r` -/
  | user (r : Int)
  /-- in the `sleep(&p->nwrite)` of `pipewrite(p, addr, n)` with the bytes `cs` to
  go, asleep or not -/
  | write (asleep : Bool) (n : Int) (cs : List UInt8)
  /-- in the `sleep(&p->nread)` of `piperead(p, addr, n)` -/
  | read (asleep : Bool) (n : Int)
  deriving DecidableEq

/-- What a thread has done when it gives up the lock: the pipe, the channel that
it has woken, where it stands, the bytes that it has moved, and whether it has
given up. -/
structure Turn where
  pipe : Pipe
  wakes : Option Chan
  pc : Pc
  moved : List UInt8
  failed : Bool

def Pipe.isFull (p : Pipe) : Bool := p.nwrite = p.nread + 512

def Pipe.isEmpty (p : Pipe) : Bool := p.nread = p.nwrite

/-- `p->data[p->nwrite++ % PIPESIZE] = c`. -/
def Pipe.store (p : Pipe) (c : UInt8) : Pipe :=
  { p with data := Function.update p.data (p.nwrite.toNat % PIPESIZE) c, nwrite := p.nwrite + 1 }

/-- The loop of `pipewrite(p, addr, n)` with the bytes `cs` to go. -/
def pipewrite (p : Pipe) (killed : Bool) (n : Int) : List UInt8 → Turn
  | [] => ⟨p, some .nread, .user n, [], false⟩
  | c :: cs =>
      if p.isFull = true then
        if p.readopen = false ∨ killed = true then ⟨p, none, .user (-1), [], true⟩
        else ⟨p, some .nread, .write true n (c :: cs), [], false⟩
      else
        let x := pipewrite (p.store c) killed n cs
        { x with moved := c :: x.moved }

/-- The loop of `piperead` that copies at most `n` bytes. -/
def copy (p : Pipe) : Nat → Pipe × List UInt8
  | 0 => (p, [])
  | n + 1 =>
      if p.isEmpty = true then (p, [])
      else
        let x := copy { p with nread := p.nread + 1 } n
        (x.1, p.data (p.nread.toNat % PIPESIZE) :: x.2)

def piperead (p : Pipe) (killed : Bool) (n : Int) : Turn :=
  if p.isEmpty = true ∧ p.writeopen = true then
    if killed = true then ⟨p, none, .user (-1), [], true⟩
    else ⟨p, none, .read true n, [], false⟩
  else
    let x := copy p n.toNat
    ⟨x.1, some .nwrite, .user x.2.length, x.2, false⟩

/-- `wakeup(c)`. -/
def Pc.woken (c : Option Chan) : Pc → Pc
  | .write true n cs => .write (c ≠ some .nwrite) n cs
  | .read true n => .read (c ≠ some .nread) n
  | pc => pc

/-- `kill` wakes a sleeper, wherever it sleeps. -/
def Pc.roused : Pc → Pc
  | .write _ n cs => .write false n cs
  | .read _ n => .read false n
  | pc => pc

/-! ## The system -/

/-- One pipe and the threads of type `ι` that use it. The fields from `written`
on are history: the bytes stored and taken, with who did, what each thread has
asked to write, which threads have given up, and whether one did so after it had
stored something. -/
structure State (ι : Type) where
  pipe : Pipe
  freed : Bool
  pc : ι → Pc
  killed : ι → Bool
  written : List (ι × UInt8)
  taken : List (ι × UInt8)
  asked : ι → List UInt8
  failed : ι → Bool
  aborted : Bool

/-- What happens. `late` tells whether `kill(t)` falls into the turn of `t`, behind its
last look at `killed`; one that falls before it could as well come before the turn. -/
inductive Event (ι : Type)
  /-- `pipewrite(p, addr, n)`, with what lies at `addr` -/
  | write (t : ι) (n : Int) (cs : List UInt8) (late : Bool)
  | read (t : ι) (n : Int) (late : Bool)
  /-- a thread that has been woken gets the lock again -/
  | run (t : ι) (late : Bool)
  | kill (t : ι)
  | close (writable : Bool)

variable {ι : Type} [DecidableEq ι]

/-- A turn of a writer. -/
def State.wrote (s : State ι) (t : ι) (x : Turn) : State ι :=
  { s with
    pipe := x.pipe
    pc := Function.update (fun u => (s.pc u).woken x.wakes) t x.pc
    written := s.written ++ x.moved.map fun c => (t, c)
    failed := Function.update s.failed t (s.failed t || x.failed)
    aborted := s.aborted || (x.failed && x.moved ≠ []) }

/-- A turn of a reader. -/
def State.read (s : State ι) (t : ι) (x : Turn) : State ι :=
  { s with
    pipe := x.pipe
    pc := Function.update (fun u => (s.pc u).woken x.wakes) t x.pc
    taken := s.taken ++ x.moved.map fun c => (t, c) }

/-- `kill(t)` finds `t` awake, in the middle of a turn that comes to its end. -/
def State.late (s : State ι) (t : ι) (late : Bool) : State ι :=
  { s with killed := Function.update s.killed t (s.killed t || late) }

/-- `pipeclose`; the page of a pipe closed at both ends is freed. -/
def State.close (s : State ι) (writable : Bool) : State ι :=
  let p := if writable = true then { s.pipe with writeopen := false } else
    { s.pipe with readopen := false }
  { s with
    pipe := p
    pc := fun u => (s.pc u).woken (some (if writable = true then .nread else .nwrite))
    freed := !p.readopen && !p.writeopen }

/-- Nothing touches a pipe that has been freed. -/
def next (s : State ι) : Event ι → Option (State ι)
  | .write t n cs late =>
      match s.pc t with
      | .user _ =>
          if s.freed = false ∧ cs.length = n.toNat then
            some (({ s with asked := Function.update s.asked t (s.asked t ++ cs) }.wrote t
              (pipewrite s.pipe (s.killed t) n cs)).late t late)
          else none
      | _ => none
  | .read t n late =>
      match s.pc t with
      | .user _ =>
          if s.freed = false then
            some ((s.read t (piperead s.pipe (s.killed t) n)).late t late)
          else none
      | _ => none
  | .run t late =>
      if s.freed = false then
        match s.pc t with
        | .write false n cs => some ((s.wrote t (pipewrite s.pipe (s.killed t) n cs)).late t late)
        | .read false n => some ((s.read t (piperead s.pipe (s.killed t) n)).late t late)
        | _ => none
      else none
  | .kill t =>
      some { s with
        killed := Function.update s.killed t true
        pc := Function.update s.pc t (s.pc t).roused }
  | .close writable =>
      if s.freed = false ∧ (if writable = true then s.pipe.writeopen else s.pipe.readopen) =
        true then
        some (s.close writable)
      else none

/-- A new pipe, and threads that have not used it. -/
def Start (s : State ι) : Prop :=
  (∃ page, s.pipe = pipealloc page) ∧ s.freed = false ∧ (∀ t, ∃ r, s.pc t = .user r) ∧
    s.written = [] ∧ s.taken = [] ∧ (∀ t, s.asked t = []) ∧ (∀ t, s.failed t = false) ∧
      s.aborted = false

/-! ## What a turn does -/

/-- The bytes in the pipe. -/
def Pipe.contents (p : Pipe) : List UInt8 := window PIPESIZE p.data p.nread p.nwrite

/-- No more bytes than cells. -/
def Pipe.Fits (p : Pipe) : Prop := (p.nwrite - p.nread).toNat ≤ PIPESIZE

variable {p : Pipe} {killed : Bool} {n : Int} {cs : List UInt8} {m : Nat}

/-- The counters of a full pipe are `PIPESIZE` apart. -/
theorem isFull_iff : p.isFull = true ↔ (p.nwrite - p.nread).toNat = PIPESIZE := by
  have hr := p.nread.toNat_lt
  have hw := p.nwrite.toNat_lt
  have h512 : (p.nread + 512).toNat = (p.nread.toNat + 512) % 2 ^ 32 := UInt32.toNat_add _ _
  have hsub := Window.toNat_sub p.nwrite p.nread
  unfold Pipe.isFull PIPESIZE
  rw [decide_eq_true_eq, ← UInt32.toNat_inj]
  omega

theorem isEmpty_iff : p.isEmpty = true ↔ p.contents = [] := by
  unfold Pipe.isEmpty Pipe.contents
  rw [decide_eq_true_eq, Window.empty_iff]

/-- A byte is stored behind those that wait. -/
theorem store_contents (hfit : p.Fits) (hfull : p.isFull = false) (c : UInt8) :
    (p.store c).contents = p.contents ++ [c] := by
  have hne : (p.nwrite - p.nread).toNat ≠ PIPESIZE := by
    rw [Ne, ← isFull_iff, hfull]
    decide
  have hroom : (p.nwrite - p.nread).toNat < PIPESIZE := lt_of_le_of_ne hfit hne
  refine Window.push PIPESIZE_dvd hroom c ?_
  unfold PIPESIZE at hroom
  omega

/-- Where there is room for it the pipe does not overflow. -/
theorem store_fits (hfit : p.Fits) (hfull : p.isFull = false) (c : UInt8) : (p.store c).Fits := by
  have hlen := congrArg List.length (store_contents hfit hfull c)
  have hne : (p.nwrite - p.nread).toNat ≠ PIPESIZE := by
    rw [Ne, ← isFull_iff, hfull]
    decide
  unfold Pipe.contents at hlen
  rw [Window.length, List.length_append, Window.length, List.length_singleton] at hlen
  unfold Pipe.Fits at hfit ⊢
  omega

/-- What a turn of a writer does to the pipe and to its bytes. -/
structure Writes (p : Pipe) (killed : Bool) (n : Int) (cs : List UInt8) (x : Turn) : Prop where
  fits : x.pipe.Fits
  contents : x.pipe.contents = p.contents ++ x.moved
  readopen : x.pipe.readopen = p.readopen
  writeopen : x.pipe.writeopen = p.writeopen
  /-- the thread gives up, returns, or sleeps in front of a full pipe -/
  ends : x.failed = true ∧ x.pc = .user (-1) ∧ x.wakes = none ∧ x.pipe.isFull = true ∧
      (p.readopen = false ∨ killed = true) ∨
    x.failed = false ∧ x.pc = .user n ∧ x.wakes = some .nread ∧ x.moved = cs ∨
    x.failed = false ∧ x.wakes = some .nread ∧ x.pipe.isFull = true ∧ p.readopen = true ∧
      killed = false ∧ ∃ rest, x.pc = .write true n rest ∧ x.moved ++ rest = cs

theorem pipewrite_writes (hfit : p.Fits) : Writes p killed n cs (pipewrite p killed n cs) := by
  induction cs generalizing p with
  | nil =>
      refine ⟨hfit, ?_, rfl, rfl, .inr (.inl ⟨rfl, rfl, rfl, rfl⟩)⟩
      simp [pipewrite]
  | cons c cs ih =>
      unfold pipewrite
      by_cases hfull : p.isFull = true
      -- full: the writer gives up, or wakes the readers and sleeps
      · rw [if_pos hfull]
        by_cases hstop : p.readopen = false ∨ killed = true
        · rw [if_pos hstop]
          exact ⟨hfit, by simp, rfl, rfl, .inl ⟨rfl, rfl, rfl, hfull, hstop⟩⟩
        · rw [if_neg hstop]
          rw [not_or] at hstop
          refine ⟨hfit, by simp, rfl, rfl, .inr (.inr ⟨rfl, rfl, hfull, ?_, ?_, c :: cs, rfl, rfl⟩)⟩
          · simpa using hstop.1
          · simpa using hstop.2
      -- room for one byte, and the rest as before
      · rw [if_neg hfull]
        have hfull : p.isFull = false := by simpa using hfull
        have h := ih (store_fits hfit hfull c)
        refine ⟨h.fits, ?_, h.readopen, h.writeopen, ?_⟩
        · rw [h.contents, store_contents hfit hfull, List.append_assoc]
          rfl
        · rcases h.ends with h | ⟨h1, h2, h3, h4⟩ | ⟨h1, h2, h3, h4, h5, rest, h6, h7⟩
          · exact .inl h
          · exact .inr (.inl ⟨h1, h2, h3, congrArg (c :: ·) h4⟩)
          · exact .inr (.inr ⟨h1, h2, h3, h4, h5, rest, h6, congrArg (c :: ·) h7⟩)

/-- What the copying loop does. -/
structure Copies (p : Pipe) (m : Nat) (x : Pipe × List UInt8) : Prop where
  fits : x.1.Fits
  contents : x.2 ++ x.1.contents = p.contents
  readopen : x.1.readopen = p.readopen
  writeopen : x.1.writeopen = p.writeopen
  /-- it copies all it has been asked for, or all there is -/
  length : x.2.length = min m p.contents.length

theorem copy_copies (hfit : p.Fits) : Copies p m (copy p m) := by
  induction m generalizing p with
  | zero => exact ⟨hfit, rfl, rfl, rfl, (Nat.zero_min _).symm⟩
  | succ m ih =>
      unfold copy
      by_cases hempty : p.isEmpty = true
      · rw [if_pos hempty]
        refine ⟨hfit, rfl, rfl, rfl, ?_⟩
        rw [isEmpty_iff.1 hempty]
        rfl
      · rw [if_neg hempty]
        have hne : p.nread ≠ p.nwrite := by
          unfold Pipe.isEmpty at hempty
          rwa [decide_eq_true_eq] at hempty
        -- the byte taken is the one at the front
        have hpop : p.contents = p.data (p.nread.toNat % PIPESIZE) ::
            Pipe.contents { p with nread := p.nread + 1 } := Window.pop PIPESIZE_dvd hne
        have hlen := congrArg List.length hpop
        unfold Pipe.contents at hlen
        rw [Window.length, List.length_cons, Window.length] at hlen
        have hfit' : Pipe.Fits { p with nread := p.nread + 1 } := by
          unfold Pipe.Fits at hfit ⊢
          dsimp only at hlen ⊢
          omega
        have h := ih hfit'
        refine ⟨h.fits, ?_, h.readopen, h.writeopen, ?_⟩
        · rw [hpop, ← h.contents]
          rfl
        · rw [hpop, List.length_cons, List.length_cons, h.length]
          omega

/-- What a turn of a reader does. -/
structure Reads (p : Pipe) (killed : Bool) (n : Int) (x : Turn) : Prop where
  fits : x.pipe.Fits
  contents : x.moved ++ x.pipe.contents = p.contents
  readopen : x.pipe.readopen = p.readopen
  writeopen : x.pipe.writeopen = p.writeopen
  /-- the thread gives up or sleeps in front of an empty pipe, or returns what it
  could get -/
  ends : x.pipe = p ∧ x.moved = [] ∧ x.wakes = none ∧ p.isEmpty = true ∧ p.writeopen = true ∧
      (killed = true ∧ x.pc = .user (-1) ∨ killed = false ∧ x.pc = .read true n) ∨
    x.wakes = some .nwrite ∧ x.pc = .user x.moved.length ∧
      (p.isEmpty = true → p.writeopen = false) ∧ x.moved.length = min n.toNat p.contents.length

theorem piperead_reads (hfit : p.Fits) : Reads p killed n (piperead p killed n) := by
  unfold piperead
  by_cases hwait : p.isEmpty = true ∧ p.writeopen = true
  · rw [if_pos hwait]
    by_cases hk : killed = true
    · rw [if_pos hk]
      exact ⟨hfit, rfl, rfl, rfl, .inl ⟨rfl, rfl, rfl, hwait.1, hwait.2, .inl ⟨hk, rfl⟩⟩⟩
    · rw [if_neg hk]
      refine ⟨hfit, rfl, rfl, rfl, .inl ⟨rfl, rfl, rfl, hwait.1, hwait.2, .inr ⟨?_, rfl⟩⟩⟩
      simpa using hk
  · rw [if_neg hwait]
    have h := copy_copies (m := n.toNat) hfit
    refine ⟨h.fits, h.contents, h.readopen, h.writeopen, .inr ⟨rfl, rfl, fun he => ?_, h.length⟩⟩
    by_contra hopen
    exact hwait ⟨he, by simpa using hopen⟩

/-! ## Steps -/

variable {s s' : State ι} {t u : ι} {x : Turn}

/-- The bytes that a call of `pipewrite` still has to store. -/
def Pc.rest : Pc → List UInt8
  | .write _ _ cs => cs
  | _ => []

/-- The bytes that thread `t` has stored. -/
def State.own (s : State ι) (t : ι) : List UInt8 := (s.written.filter (·.1 = t)).map Prod.snd

@[simp] theorem rest_woken (c : Option Chan) (pc : Pc) : (pc.woken c).rest = pc.rest := by
  cases pc with
  | user r => rfl
  | write asleep n cs => cases asleep <;> rfl
  | read asleep n => cases asleep <;> rfl

@[simp] theorem rest_roused (pc : Pc) : pc.roused.rest = pc.rest := by cases pc <;> rfl

/-- The bytes of a turn are the writer's own. -/
theorem own_wrote : (s.wrote t x).own u = if u = t then s.own u ++ x.moved else s.own u := by
  unfold State.own State.wrote
  dsimp only
  rw [List.filter_append, List.map_append]
  by_cases hu : u = t
  · subst hu
    have hmine : (x.moved.map fun c => (u, c)).filter (·.1 = u) = x.moved.map fun c => (u, c) := by
      rw [List.filter_eq_self]
      simp
    rw [if_pos rfl, hmine, List.map_map]
    simp
  · have hnone : (x.moved.map fun c => (t, c)).filter (·.1 = u) = [] := by
      rw [List.filter_eq_nil_iff]
      simp [Ne.symm hu]
    rw [if_neg hu, hnone]
    simp

/-- A step is a turn of a writer or of a reader, `kill`, or `close`. -/
inductive Step (s : State ι) : Event ι → State ι → Prop
  | write (t : ι) (n : Int) (cs : List UInt8) (late : Bool) (h0 : s.freed = false)
      (hu : ∃ r, s.pc t = .user r) (hlen : cs.length = n.toNat) : Step s (.write t n cs late)
        (({ s with asked := Function.update s.asked t (s.asked t ++ cs) }.wrote t
          (pipewrite s.pipe (s.killed t) n cs)).late t late)
  | read (t : ι) (n : Int) (late : Bool) (h0 : s.freed = false) (hu : ∃ r, s.pc t = .user r) :
      Step s (.read t n late) ((s.read t (piperead s.pipe (s.killed t) n)).late t late)
  | runWrite (t : ι) (n : Int) (cs : List UInt8) (late : Bool) (h0 : s.freed = false)
      (hpc : s.pc t = .write false n cs) :
      Step s (.run t late) ((s.wrote t (pipewrite s.pipe (s.killed t) n cs)).late t late)
  | runRead (t : ι) (n : Int) (late : Bool) (h0 : s.freed = false) (hpc : s.pc t = .read false n) :
      Step s (.run t late) ((s.read t (piperead s.pipe (s.killed t) n)).late t late)
  | kill (t : ι) : Step s (.kill t)
      { s with
        killed := Function.update s.killed t true, pc := Function.update s.pc t (s.pc t).roused }
  | close (writable : Bool) (h0 : s.freed = false) : Step s (.close writable) (s.close writable)

/-- What a step of the code does, case by case. -/
theorem next_step {e : Event ι} (h : next s e = some s') : Step s e s' := by
  -- the guard of each event says where the thread stands
  cases e with
  | write t n cs late =>
      simp only [next] at h
      split at h
      · next r hr =>
          split at h
          · next hc =>
              cases h
              exact .write t n cs late hc.1 ⟨r, hr⟩ hc.2
          · cases h
      · cases h
  | read t n late =>
      simp only [next] at h
      split at h
      · next r hr =>
          split at h
          · next h0 =>
              cases h
              exact .read t n late h0 ⟨r, hr⟩
          · cases h
      · cases h
  | run t late =>
      simp only [next] at h
      split at h
      · next h0 =>
          split at h
          · next n cs hpc =>
              cases h
              exact .runWrite t n cs late h0 hpc
          · next n hpc =>
              cases h
              exact .runRead t n late h0 hpc
          · cases h
      · cases h
  | kill t =>
      cases h
      exact .kill t
  | close writable =>
      dsimp only [next] at h
      by_cases hc : s.freed = false ∧
          (if writable = true then s.pipe.writeopen else s.pipe.readopen) = true
      · rw [if_pos hc] at h
        cases h
        exact .close writable hc.1
      · rw [if_neg hc] at h
        cases h

/-! ## First in, first out -/

/-- What has been taken and what is in the pipe is what has been written, in
order; and each thread has stored what it has been asked to, but for the rest of
a call that is not over. -/
structure Fifo (s : State ι) : Prop where
  fits : s.pipe.Fits
  bytes : s.taken.map Prod.snd ++ s.pipe.contents = s.written.map Prod.snd
  own : ∀ t, s.failed t = false → s.own t ++ (s.pc t).rest = s.asked t

/-- A turn of a writer keeps the order: the bytes that it moves are those that it still had
to write. -/
theorem Fifo.wrote {killed : Bool} {n : Int} {cs : List UInt8}
    (hb : s.taken.map Prod.snd ++ s.pipe.contents = s.written.map Prod.snd)
    (hother : ∀ u, u ≠ t → s.failed u = false → s.own u ++ (s.pc u).rest = s.asked u)
    (hself : s.failed t = false → s.own t ++ cs = s.asked t) (hx : Writes s.pipe killed n cs x) :
    Fifo (s.wrote t x) where
  fits := hx.fits
  bytes := by
    show s.taken.map Prod.snd ++ x.pipe.contents = (s.written ++ x.moved.map _).map Prod.snd
    rw [hx.contents, ← List.append_assoc, hb, List.map_append, List.map_map]
    simp
  own := fun u hu => by
    rw [own_wrote]
    -- what the writer has stored and what it still has to store make up what it was asked
    by_cases hut : u = t
    · subst hut
      have hf : s.failed u = false ∧ x.failed = false := by
        simpa [State.wrote] using hu
      have hpc : ((s.wrote u x).pc u).rest = x.pc.rest := by simp [State.wrote]
      rw [if_pos rfl, hpc]
      show _ = s.asked u
      rw [← hself hf.1, List.append_assoc]
      congr 1
      rcases hx.ends with ⟨h1, -⟩ | ⟨-, h1, -, h2⟩ | ⟨-, -, -, -, -, rest, h1, h2⟩
      · rw [hf.2] at h1
        cases h1
      · rw [h1, h2]
        exact List.append_nil cs
      · rw [h1]
        exact h2
    -- another thread's bytes are untouched
    · have hf : s.failed u = false := by
        simpa [State.wrote, hut] using hu
      have hpc : ((s.wrote t x).pc u).rest = (s.pc u).rest := by simp [State.wrote, hut]
      rw [if_neg hut, hpc]
      exact hother u hut hf

/-- A turn of a reader keeps the order: the bytes that it takes are those at the front. -/
theorem Fifo.read {killed : Bool} {n : Int} (h : Fifo s) (hrest : (s.pc t).rest = [])
    (hx : Reads s.pipe killed n x) : Fifo (s.read t x) where
  fits := hx.fits
  bytes := by
    show (s.taken ++ x.moved.map _).map Prod.snd ++ x.pipe.contents = s.written.map Prod.snd
    rw [← h.bytes, ← hx.contents, List.map_append, List.map_map, List.append_assoc]
    simp
  own := fun u hu => by
    have hown : (s.read t x).own u ++ (s.pc u).rest = (s.read t x).asked u := h.own u hu
    by_cases hut : u = t
    · subst hut
      have hpc : ((s.read u x).pc u).rest = x.pc.rest := by simp [State.read]
      have hx0 : x.pc.rest = [] := by
        rcases hx.ends with ⟨-, -, -, -, -, ⟨-, h1⟩ | ⟨-, h1⟩⟩ | ⟨-, h1, -⟩ <;> rw [h1] <;> rfl
      rw [hpc, hx0, ← hrest]
      exact hown
    · have hpc : ((s.read t x).pc u).rest = (s.pc u).rest := by simp [State.read, hut]
      rw [hpc]
      exact hown

/-- Of `killed` nothing is said. -/
theorem Fifo.late (h : Fifo s) (t : ι) (late : Bool) : Fifo (s.late t late) :=
  ⟨h.fits, h.bytes, h.own⟩

/-- Every step keeps the order. -/
theorem step_fifo {e : Event ι} (h : Fifo s) (hs : next s e = some s') : Fifo s' := by
  cases next_step hs with
  | write t n cs late h0 hu hlen =>
      rcases hu with ⟨r, hr⟩
      apply Fifo.late
      refine Fifo.wrote h.bytes (fun u hut hf => ?_) (fun hf => ?_) (pipewrite_writes h.fits)
      · show _ = Function.update s.asked t _ u
        rw [Function.update_of_ne hut]
        exact h.own u hf
      · show _ = Function.update s.asked t _ t
        have hown := h.own t hf
        rw [hr] at hown
        rw [Function.update_self, ← hown]
        simp [Pc.rest, State.own]
  | read t n late h0 hu =>
      rcases hu with ⟨r, hr⟩
      exact (h.read (by rw [hr]; rfl) (piperead_reads h.fits)).late t late
  -- a writer that was woken goes on with the bytes it had left
  | runWrite t n cs late h0 hpc =>
      apply Fifo.late
      refine Fifo.wrote h.bytes (fun u _ hf => h.own u hf) (fun hf => ?_) (pipewrite_writes h.fits)
      have hown := h.own t hf
      rwa [hpc] at hown
  | runRead t n late h0 hpc =>
      exact (h.read (by rw [hpc]; rfl) (piperead_reads h.fits)).late t late
  | kill t =>
      refine ⟨h.fits, h.bytes, fun u hu => ?_⟩
      have hown : s.own u ++ (s.pc u).rest = s.asked u := h.own u hu
      by_cases hut : u = t
      · subst hut
        simpa [State.own] using hown
      · simpa [State.own, hut] using hown
  -- closing an end moves no byte
  | close writable h0 =>
      have hclosed : (s.close writable).pipe.contents = s.pipe.contents ∧
          ((s.close writable).pipe.Fits ↔ s.pipe.Fits) := by
        cases writable <;> exact ⟨rfl, Iff.rfl⟩
      refine ⟨hclosed.2.2 h.fits, ?_, fun u hu => ?_⟩
      · rw [hclosed.1]
        exact h.bytes
      · have hown : s.own u ++ (s.pc u).rest = s.asked u := h.own u hu
        simpa [State.close, State.own] using hown

/-- Nothing has been written at the start. -/
theorem Start.fifo (h : Start s) : Fifo s := by
  rcases h with ⟨⟨page, hp⟩, -, hpc, hw, ht, ha, -⟩
  refine ⟨?_, ?_, fun t _ => ?_⟩
  · rw [hp]
    simp [Pipe.Fits, pipealloc]
  · rw [hw, ht, hp]
    simp [Pipe.contents, pipealloc]
  · rcases hpc t with ⟨r, hr⟩
    rw [ha, hr]
    simp [State.own, hw, Pc.rest]

/-- No byte is lost, duplicated or reordered, whoever writes and reads: what has
been taken is followed by what is in the pipe, never more than `PIPESIZE` bytes,
and both together are what has been stored; and a thread that has never given up
has stored all it was asked to, up to the call it is in. -/
theorem pipe_fifo (s : State ι) (hr : Reachable Start next s) :
    s.taken.map Prod.snd ++ s.pipe.contents = s.written.map Prod.snd ∧
      s.pipe.contents.length ≤ PIPESIZE ∧
        ∀ t, s.failed t = false → s.own t ++ (s.pc t).rest = s.asked t := by
  have h : Fifo s := ReachOk.invariant Fifo (fun _ h => h.fifo)
    (fun _ _ _ h _ hs => step_fifo h hs) hr
  refine ⟨h.bytes, ?_, h.own⟩
  unfold Pipe.contents
  rw [Window.length]
  exact h.fits

/-- A pipe and two threads. -/
def twoThreads : State (Fin 2) where
  pipe := pipealloc fun _ => 7
  freed := false
  pc := fun _ => .user 0
  killed := fun _ => false
  written := []
  taken := []
  asked := fun _ => []
  failed := fun _ => false
  aborted := false

theorem twoThreads_start : Start twoThreads :=
  ⟨⟨_, rfl⟩, rfl, fun _ => ⟨0, rfl⟩, rfl, rfl, fun _ => rfl, fun _ => rfl, rfl⟩

/-- Four bytes of two threads go through. -/
theorem pipe_fifo_four : ∃ s : State (Fin 2), s.taken.map Prod.snd = [1, 2, 3, 4] ∧
    s.taken.map Prod.snd ++ s.pipe.contents = s.written.map Prod.snd := by
  have hrun : (Lib.exec next twoThreads [.write 0 5 [1, 2, 3, 4, 5] false, .read 1 4 true]).map
      (fun s => s.taken.map Prod.snd) = some [1, 2, 3, 4] := by
    decide +kernel
  rcases Option.map_eq_some_iff.1 hrun with ⟨s, hs, hv⟩
  exact ⟨s, hv, (pipe_fifo s (reachable_exec (.init twoThreads_start) hs)).1⟩

/-- A read that returns fewer bytes than it was asked for has emptied the pipe; it
returns none only once the pipe has been closed for writing and every byte has
been taken. -/
theorem pipe_end_of_file (s s' : State ι) (e : Event ι) (t : ι) (n r : Int) (late : Bool)
    (hr : Reachable Start next s) (hs : next s e = some s')
    (he : e = .read t n late ∨ e = .run t late ∧ s.pc t = .read false n)
    (hret : s'.pc t = .user r) :
    r = -1 ∧ s'.taken = s.taken ∧ s.killed t = true ∨
      s'.taken.length = s.taken.length + r.toNat ∧ 0 ≤ r ∧ r.toNat ≤ n.toNat ∧
        (r.toNat < n.toNat → s'.pipe.contents = []) ∧
          (r = 0 → 0 < n →
            s'.pipe.writeopen = false ∧ s'.taken.map Prod.snd = s'.written.map Prod.snd) := by
  have h : Fifo s := ReachOk.invariant Fifo (fun _ h => h.fifo)
    (fun _ _ _ h _ hs => step_fifo h hs) hr
  have h' : Fifo s' := step_fifo h hs
  have hread : s' = (s.read t (piperead s.pipe (s.killed t) n)).late t late := by
    rcases he with rfl | ⟨rfl, hpc⟩
    · cases next_step hs with
      | read => rfl
    · cases next_step hs with
      | runWrite _ m cs _ _ hpc' =>
          rw [hpc] at hpc'
          cases hpc'
      | runRead _ m _ _ hpc' =>
          rw [hpc] at hpc'
          cases hpc'
          rfl
  have hx : Reads s.pipe (s.killed t) n (piperead s.pipe (s.killed t) n) := piperead_reads h.fits
  generalize piperead s.pipe (s.killed t) n = x at hread hx
  subst hread
  have hpc : x.pc = .user r := by simpa [State.late, State.read] using hret
  have htaken : ((s.read t x).late t late).taken.length = s.taken.length + x.moved.length := by
    simp [State.late, State.read]
  rcases hx.ends with ⟨-, h2, -, -, -, ⟨hk, h3⟩ | ⟨-, h3⟩⟩ | ⟨-, h3, hopen, hlen⟩
  · rw [h3] at hpc
    cases hpc
    exact .inl ⟨rfl, by simp [State.late, State.read, h2], hk⟩
  · rw [h3] at hpc
    cases hpc
  · rw [h3] at hpc
    cases hpc
    have hcont := congrArg List.length hx.contents
    rw [List.length_append] at hcont
    -- what is not copied is in the pipe
    have hrest : x.moved.length < n.toNat → x.pipe.contents = [] := by
      intro hlt
      apply List.eq_nil_of_length_eq_zero
      omega
    refine .inr ⟨?_, by omega, ?_, ?_, fun h0 hn => ?_⟩
    · rw [htaken, Int.toNat_natCast]
    · rw [Int.toNat_natCast]
      omega
    · rw [Int.toNat_natCast]
      exact hrest
    · have hnil : x.pipe.contents = [] := hrest (by omega)
      have hempty : s.pipe.isEmpty = true := by
        rw [isEmpty_iff]
        apply List.eq_nil_of_length_eq_zero
        rw [hnil] at hcont
        simp only [List.length_nil] at hcont
        omega
      refine ⟨hx.writeopen.trans (hopen hempty), ?_⟩
      have hb := h'.bytes
      have hp : ((s.read t x).late t late).pipe = x.pipe := rfl
      rwa [hp, hnil, List.append_nil] at hb

/-- The second read finds one byte, and the third, after the close, none. -/
theorem pipe_end_of_file_closed : ∃ s s' : State (Fin 2), next s (.read 1 4 false) = some s' ∧
    s'.pc 1 = .user 0 ∧ s'.pipe.writeopen = false ∧
      s'.taken.map Prod.snd = s'.written.map Prod.snd := by
  have hrun : ((Lib.exec next twoThreads
      [.write 0 5 [1, 2, 3, 4, 5] false, .read 1 4 false, .read 1 4 true, .close true]).bind
        fun s =>
        (next s (.read 1 4 false)).map fun s' => s'.pc 1) = some (.user 0) := by
    decide +kernel
  rcases Option.bind_eq_some_iff.1 hrun with ⟨s, hs, hs'⟩
  rcases Option.map_eq_some_iff.1 hs' with ⟨s', hs', hpc⟩
  refine ⟨s, s', hs', hpc, ?_⟩
  have hr : Reachable Start next s := reachable_exec (.init twoThreads_start) hs
  rcases pipe_end_of_file s s' _ 1 4 0 false hr hs' (.inl rfl) hpc with ⟨h, -⟩ | ⟨-, -, -, -, h⟩
  · cases h
  · exact h rfl (by decide)

/-! ## Wakeups -/

/-- Who still sleeps in `pipewrite` after a wakeup has been asleep, on another channel. -/
theorem woken_write {c : Option Chan} {pc : Pc} {n : Int} {cs : List UInt8}
    (h : pc.woken c = .write true n cs) : pc = .write true n cs ∧ c ≠ some .nwrite := by
  cases pc with
  | user r => cases h
  | read asleep n => cases asleep <;> cases h
  | write asleep n cs =>
      cases asleep with
      | false => cases h
      | true => simpa [Pc.woken, and_comm] using h

/-- Who still sleeps in `piperead` after a wakeup has been asleep, on another channel. -/
theorem woken_read {c : Option Chan} {pc : Pc} {n : Int} (h : pc.woken c = .read true n) :
    pc = .read true n ∧ c ≠ some .nread := by
  cases pc with
  | user r => cases h
  | write asleep n cs => cases asleep <;> cases h
  | read asleep n =>
      cases asleep with
      | false => cases h
      | true => simpa [Pc.woken, and_comm] using h

theorem roused_awake {pc : Pc} : (∀ n cs, pc.roused ≠ .write true n cs) ∧ ∀ n,
    pc.roused ≠ .read true n := by
  cases pc <;> simp [Pc.roused]

/-- A sleeping writer has nothing to do; and a sleeping reader, unless a writer
has stored something and then given up, which wakes nobody. -/
structure Idle (s : State ι) : Prop where
  fits : s.pipe.Fits
  writer : ∀ t n cs, s.pc t = .write true n cs → s.pipe.isFull = true ∧ s.pipe.readopen = true
  reader : s.aborted = false → ∀ t n, s.pc t = .read true n →
    s.pipe.isEmpty = true ∧ s.pipe.writeopen = true

/-- A turn of a writer leaves nobody asleep who could go on: it wakes the readers when it
has stored bytes, and sleeps on a full pipe only. -/
theorem Idle.wrote {killed : Bool} {n : Int} {cs : List UInt8} (h : Idle s)
    (hx : Writes s.pipe killed n cs x) : Idle (s.wrote t x) where
  fits := hx.fits
  writer := fun u m rest hu => by
    by_cases hut : u = t
    · subst hut
      have hpc : x.pc = .write true m rest := by simpa [State.wrote] using hu
      rcases hx.ends with ⟨-, h1, -⟩ | ⟨-, h1, -⟩ | ⟨-, -, h1, h2, -⟩
      · rw [h1] at hpc
        cases hpc
      · rw [h1] at hpc
        cases hpc
      · exact ⟨h1, hx.readopen.trans h2⟩
    · have hpc : (s.pc u).woken x.wakes = .write true m rest := by simpa [State.wrote, hut] using hu
      rcases h.writer u m rest (woken_write hpc).1 with ⟨hfull, hopen⟩
      refine ⟨?_, hx.readopen.trans hopen⟩
      -- a full pipe stays full
      have hlen := congrArg List.length hx.contents
      have hfit := hx.fits
      rw [isFull_iff] at hfull
      unfold Pipe.contents at hlen
      rw [Window.length, List.length_append, Window.length, hfull] at hlen
      show x.pipe.isFull = true
      rw [isFull_iff]
      unfold Pipe.Fits at hfit
      omega
  reader := fun hab u m hu => by
    have hab : s.aborted = false ∧ (x.failed = true → x.moved = []) := by
      simpa [State.wrote] using hab
    by_cases hut : u = t
    · subst hut
      have hpc : x.pc = .read true m := by simpa [State.wrote] using hu
      rcases hx.ends with ⟨-, h1, -⟩ | ⟨-, h1, -⟩ | ⟨-, -, -, -, -, rest, h1, -⟩ <;>
        · rw [h1] at hpc
          cases hpc
    · have hpc : (s.pc u).woken x.wakes = .read true m := by simpa [State.wrote, hut] using hu
      rcases woken_read hpc with ⟨hpc, hwakes⟩
      rcases hx.ends with ⟨h1, -, -, hfull, -⟩ | ⟨-, -, h1, -⟩ | ⟨-, h1, -⟩
      · -- the thread that has given up has stored nothing
        rcases h.reader hab.1 u m hpc with ⟨hempty, hopen⟩
        refine ⟨?_, hx.writeopen.trans hopen⟩
        show x.pipe.isEmpty = true
        rw [isEmpty_iff, hx.contents, hab.2 h1, List.append_nil]
        exact isEmpty_iff.1 hempty
      · exact absurd h1 hwakes
      · exact absurd h1 hwakes

/-- A turn of a reader leaves nobody asleep who could go on. -/
theorem Idle.read {killed : Bool} {n : Int} (h : Idle s)
    (hx : Reads s.pipe killed n x) : Idle (s.read t x) where
  fits := hx.fits
  writer := fun u m rest hu => by
    by_cases hut : u = t
    · subst hut
      have hpc : x.pc = .write true m rest := by simpa [State.read] using hu
      rcases hx.ends with ⟨-, -, -, -, -, ⟨-, h1⟩ | ⟨-, h1⟩⟩ | ⟨-, h1, -⟩ <;>
        · rw [h1] at hpc
          cases hpc
    · have hpc : (s.pc u).woken x.wakes = .write true m rest := by simpa [State.read, hut] using hu
      rcases woken_write hpc with ⟨hpc, hwakes⟩
      rcases hx.ends with ⟨h1, -⟩ | ⟨h1, -⟩
      · show x.pipe.isFull = true ∧ x.pipe.readopen = true
        rw [h1]
        exact h.writer u m rest hpc
      · exact absurd h1 hwakes
  reader := fun hab u m hu => by
    have hab : s.aborted = false := hab
    by_cases hut : u = t
    · subst hut
      have hpc : x.pc = .read true m := by simpa [State.read] using hu
      rcases hx.ends with ⟨h1, -, -, h2, h3, ⟨-, h4⟩ | ⟨-, -⟩⟩ | ⟨-, h4, -⟩
      · rw [h4] at hpc
        cases hpc
      · show x.pipe.isEmpty = true ∧ x.pipe.writeopen = true
        rw [h1]
        exact ⟨h2, h3⟩
      · rw [h4] at hpc
        cases hpc
    · have hpc : (s.pc u).woken x.wakes = .read true m := by simpa [State.read, hut] using hu
      rcases h.reader hab u m (woken_read hpc).1 with ⟨hempty, hopen⟩
      refine ⟨?_, hx.writeopen.trans hopen⟩
      -- an empty pipe stays empty
      have hcont := hx.contents
      rw [isEmpty_iff.1 hempty] at hcont
      show x.pipe.isEmpty = true
      rw [isEmpty_iff]
      exact (List.append_eq_nil_iff.1 hcont).2

theorem Idle.late (h : Idle s) (t : ι) (late : Bool) : Idle (s.late t late) :=
  ⟨h.fits, h.writer, h.reader⟩

/-- Every step leaves nobody asleep who could go on. -/
theorem step_idle {e : Event ι} (h : Idle s) (hs : next s e = some s') : Idle s' := by
  cases next_step hs with
  | write t n cs late h0 hu hlen =>
      have h' : Idle { s with asked := Function.update s.asked t (s.asked t ++ cs) } :=
        ⟨h.fits, h.writer, h.reader⟩
      exact (h'.wrote (pipewrite_writes h.fits)).late t late
  | read t n late h0 hu => exact (h.read (piperead_reads h.fits)).late t late
  | runWrite t n cs late h0 hpc => exact (h.wrote (pipewrite_writes h.fits)).late t late
  | runRead t n late h0 hpc => exact (h.read (piperead_reads h.fits)).late t late
  -- who is killed is awake; the others sleep as before
  | kill t =>
      refine ⟨h.fits, fun u m rest hu => ?_, fun hab u m hu => ?_⟩
      · by_cases hut : u = t
        · subst hut
          exact absurd (by simpa using hu) (roused_awake.1 m rest)
        · have hpc : s.pc u = .write true m rest := by simpa [hut] using hu
          exact h.writer u m rest hpc
      · by_cases hut : u = t
        · subst hut
          exact absurd (by simpa using hu) (roused_awake.2 m)
        · have hpc : s.pc u = .read true m := by simpa [hut] using hu
          exact h.reader hab u m hpc
  -- closing an end wakes who sleeps for the other one
  | close writable h0 =>
      cases writable with
      | true =>
          refine ⟨h.fits, fun u m rest hu => ?_, fun _ u m hu => ?_⟩
          · exact h.writer u m rest (woken_write hu).1
          · exact absurd rfl (woken_read hu).2
      | false =>
          refine ⟨h.fits, fun u m rest hu => ?_, fun hab u m hu => ?_⟩
          · exact absurd rfl (woken_write hu).2
          · exact h.reader hab u m (woken_read hu).1

/-- Nobody sleeps at the start. -/
theorem Start.idle (h : Start s) : Idle s := by
  have hfit := h.fifo.fits
  rcases h with ⟨-, -, hpc, -⟩
  refine ⟨hfit, fun t n cs ht => ?_, fun _ t n ht => ?_⟩
  · rcases hpc t with ⟨r, hr⟩
    rw [hr] at ht
    cases ht
  · rcases hpc t with ⟨r, hr⟩
    rw [hr] at ht
    cases ht

/-- No wakeup is lost: a writer sleeps only in front of a full pipe that can be
read, a reader only in front of an empty one that can be written, unless a writer
has stored something and then given up; so never does one of each sleep. -/
theorem pipe_wakeups (s : State ι) (hr : Reachable Start next s) :
    (∀ t n cs, s.pc t = .write true n cs →
      s.pipe.contents.length = PIPESIZE ∧ s.pipe.readopen = true) ∧
    (s.aborted = false → ∀ t n, s.pc t = .read true n →
      s.pipe.contents = [] ∧ s.pipe.writeopen = true) ∧
    (s.aborted = false → ∀ t u n m cs, ¬ (s.pc t = .write true n cs ∧ s.pc u = .read true m)) := by
  have h : Idle s := ReachOk.invariant Idle (fun _ h => h.idle)
    (fun _ _ _ h _ hs => step_idle h hs) hr
  -- a writer sleeps on a full pipe only
  have hwriter : ∀ t n cs, s.pc t = .write true n cs →
      s.pipe.contents.length = PIPESIZE ∧ s.pipe.readopen = true := by
    intro t n cs ht
    rcases h.writer t n cs ht with ⟨hfull, hrest⟩
    refine ⟨?_, hrest⟩
    unfold Pipe.contents
    rw [Window.length]
    exact isFull_iff.1 hfull
  -- a reader sleeps on an empty one
  have hreader : s.aborted = false → ∀ t n, s.pc t = .read true n →
      s.pipe.contents = [] ∧ s.pipe.writeopen = true := by
    intro hab t n ht
    rcases h.reader hab t n ht with ⟨hempty, hrest⟩
    exact ⟨isEmpty_iff.1 hempty, hrest⟩
  refine ⟨hwriter, hreader, ?_⟩
  -- so the two do not sleep at once, for full is not empty
  rintro hab t u n m cs ⟨hw, hu⟩
  have hlen := (hwriter t n cs hw).1
  rw [(hreader hab u m hu).1] at hlen
  cases hlen

/-- A writer of 513 bytes sleeps in front of the full pipe. -/
theorem pipe_wakeups_full : ∃ s : State (Fin 2), s.pc 0 = .write true 513 [1] ∧
    s.pipe.contents.length = PIPESIZE := by
  have hrun : (Lib.exec next twoThreads [.write 0 513 (List.replicate 513 1) true]).map
      (fun s => s.pc 0) = some (.write true 513 [1]) := by
    decide +kernel
  rcases Option.map_eq_some_iff.1 hrun with ⟨s, hs, hpc⟩
  exact ⟨s, hpc, ((pipe_wakeups s (reachable_exec (.init twoThreads_start) hs)).1 0 513 [1] hpc).1⟩

/-- A writer that is killed at a full pipe leaves the reader asleep in front of it. -/
theorem reader_left_asleep : ∃ s : State (Fin 2), Reachable Start next s ∧
    s.pc 1 = .read true 1 ∧ s.pipe.contents.length = PIPESIZE := by
  have hrun : (Lib.exec next twoThreads
      [.read 1 1 false, .kill 0, .write 0 513 (List.replicate 513 1) false]).map
        (fun s => (s.pc 1, s.pipe.contents.length)) = some (.read true 1, PIPESIZE) := by
    decide +kernel
  rcases Option.map_eq_some_iff.1 hrun with ⟨s, hs, hv⟩
  simp only [Prod.mk.injEq] at hv
  exact ⟨s, reachable_exec (.init twoThreads_start) hs, hv.1, hv.2⟩

/-! ## Calls on an end -/

def Pc.writing : Pc → Bool
  | .write _ _ _ => true
  | _ => false

def Pc.reading : Pc → Bool
  | .read _ _ => true
  | _ => false

@[simp] theorem writing_woken (c : Option Chan) (pc : Pc) : (pc.woken c).writing = pc.writing := by
  cases pc with
  | user r => rfl
  | write asleep n cs => cases asleep <;> rfl
  | read asleep n => cases asleep <;> rfl

@[simp] theorem reading_woken (c : Option Chan) (pc : Pc) : (pc.woken c).reading = pc.reading := by
  cases pc with
  | user r => rfl
  | write asleep n cs => cases asleep <;> rfl
  | read asleep n => cases asleep <;> rfl

@[simp] theorem writing_roused (pc : Pc) : pc.roused.writing = pc.writing := by cases pc <;> rfl

@[simp] theorem reading_roused (pc : Pc) : pc.roused.reading = pc.reading := by cases pc <;> rfl

end Xv6.Dev.Pipes
