import Mathlib.Data.Fintype.Card
import Xv6.Lib.Chain
import Xv6.Lib.Transition
import Xv6.Log.Cache

/-!
# The disk driver

`ide.c`: `iderw`, `idestart` and `ideintr`, with the controller that they drive,
for any number of threads and buffers. A thread and the interrupt handler hold
`idelock` from where they take it to where they release it or sleep, so everything
in between is one step; the controller works on its own.

The second half is what the callers of `iderw` count on: a disk that serves one
request after the other, each at once and in the order of the calls.

* `ide_refines_atomic`: every run without errors of the controller is a run of
  that disk, event for event;
* `ide_progress`: a thread asleep in `iderw` has its request in the queue, and the
  driver has a step to take that brings the end of the queue nearer;
* `transfer_iderw`: the `iderw` that `Log.Bio` rests on is one request of it.

The controller is modelled by what the driver sees of it, its status and its data
port. What it does on an error is not known, so the refinement excludes errors.
-/

namespace Xv6.Dev.Ide

open Xv6.Lib
open Xv6.Log (Block BSIZE FSSIZE)

/-! ## The controller -/

def SECTOR_SIZE : Nat := 512

/-- The registers behind the ports 0x1f2 to 0x1f6 and 0x3f6. -/
structure Registers where
  count : UInt8
  low : UInt8
  mid : UInt8
  high : UInt8
  select : UInt8
  control : UInt8

/-- The drive and the sector that the registers name. -/
def Registers.drive (x : Registers) : Nat := x.select.toNat / 16 % 2

def Registers.sector (x : Registers) : Nat :=
  x.low.toNat + x.mid.toNat * 2 ^ 8 + x.high.toNat * 2 ^ 16 + x.select.toNat % 16 * 2 ^ 24

/-- A command that the controller has been given, with its drive and its sector. -/
inductive Command
  | read (drive sector : Nat)
  | write (drive sector : Nat) (data : Block)

/-- The controller and the drives. `command` is what it is busy with, `fetched` what
`insl` would read, and `failed` is `IDE_DF|IDE_ERR`. -/
structure Controller where
  regs : Registers
  command : Option Command
  fetched : Block
  failed : Bool
  irq : Bool
  media : Nat → Nat → Block

def store (media : Nat → Nat → Block) (drive sector : Nat) (data : Block) : Nat → Nat → Block :=
  Function.update media drive (Function.update (media drive) sector data)

/-- The controller comes to the end of its command, well or not, and interrupts
unless the control register forbids it. -/
def Controller.serve (c : Controller) (ok : Bool) : Option Controller :=
  match c.command with
  | none => none
  | some cmd =>
      let c := { c with command := none, failed := !ok, irq := c.regs.control &&& 2 = 0 }
      if ok = true then
        match cmd with
        | .read drive sector => some { c with fetched := c.media drive sector }
        | .write drive sector data => some { c with media := store c.media drive sector data }
      else some c

/-! ## The code -/

/-- `struct buf`, but for its links; `lock` is who holds the sleep lock. -/
structure Buf (ι : Type) where
  valid : Bool
  dirty : Bool
  dev : Nat
  blockno : Nat
  data : Block
  lock : Option ι

/-- `(b->flags & (B_VALID|B_DIRTY)) == B_VALID`. -/
def Buf.done {ι : Type} (b : Buf ι) : Bool := b.valid && !b.dirty

/-- What `idestart` writes to the ports before the command. -/
def ports (dev sector : Nat) : Registers where
  control := 0
  count := (BSIZE / SECTOR_SIZE).toUInt8
  low := (sector &&& 0xff).toUInt8
  mid := ((sector >>> 8) &&& 0xff).toUInt8
  high := ((sector >>> 16) &&& 0xff).toUInt8
  select := (0xe0 ||| ((dev &&& 1) <<< 4) ||| ((sector >>> 24) &&& 0x0f)).toUInt8

/-- `idestart`; `none` is a panic, or an `idewait` for a controller that is busy. -/
def idestart {ι : Type} (c : Controller) (b : Buf ι) : Option Controller :=
  if b.blockno ≥ FSSIZE then none
  else if c.command.isSome = true then none
  else
    let sector := b.blockno * (BSIZE / SECTOR_SIZE)
    let regs := ports b.dev sector
    let cmd :=
      if b.dirty = true then Command.write regs.drive regs.sector b.data
      else Command.read regs.drive regs.sector
    some { c with regs := regs, command := some cmd }

/-- Where a thread stands. -/
inductive Pc (β : Type)
  | user
  /-- in the `sleep(b, &idelock)` of `iderw(b)`, asleep or not -/
  | wait (asleep : Bool) (b : β)
  deriving DecidableEq

/-- `wakeup(b)`. -/
def Pc.woken {β : Type} [DecidableEq β] (b : β) : Pc β → Pc β
  | .user => .user
  | .wait a c => .wait (a && c ≠ b) c

/-- A thread that is killed is woken, wherever it sleeps. -/
def Pc.roused {β : Type} : Pc β → Pc β
  | .user => .user
  | .wait _ c => .wait false c

/-- The driver, `n` buffers, and the threads of type `ι`. -/
structure State (ι : Type) (n : Nat) where
  ctl : Controller
  havedisk1 : Bool
  buf : Fin n → Buf ι
  idequeue : Option (Fin n)
  qnext : Fin n → Option (Fin n)
  pc : ι → Pc (Fin n)

variable {ι : Type} [DecidableEq ι] {n : Nat}

/-- The end of `iderw`: `while(...) sleep(b, &idelock);`. -/
def State.await (s : State ι n) (t : ι) (b : Fin n) : State ι n :=
  { s with pc := Function.update s.pc t (if (s.buf b).done = true then .user else .wait true b) }

/-- `iderw(b)`, up to where the thread sleeps; `none` is a panic. -/
def iderw (s : State ι n) (t : ι) (b : Fin n) : Option (State ι n) :=
  if (s.buf b).lock ≠ some t then none
  else if (s.buf b).done = true then none
  else if (s.buf b).dev ≠ 0 ∧ s.havedisk1 = false then none
  else
    (append s.qnext n s.idequeue b).bind fun x =>
      let s := { s with qnext := x.1, idequeue := x.2 }
      if s.idequeue = some b then
        (idestart s.ctl (s.buf b)).map fun c => { s with ctl := c }.await t b
      else some (s.await t b)

/-- `ideintr`. -/
def ideintr (s : State ι n) : Option (State ι n) :=
  match s.idequeue with
  | none => some s
  | some b =>
      if (s.buf b).dirty = false ∧ s.ctl.command.isSome = true then none
      else
        let x := s.buf b
        let data := if x.dirty = false ∧ s.ctl.failed = false then s.ctl.fetched else x.data
        let s := { s with
          idequeue := s.qnext b
          buf := Function.update s.buf b { x with data := data, valid := true, dirty := false }
          pc := fun t => (s.pc t).woken b }
        match s.idequeue with
        | none => some s
        | some c => (idestart s.ctl (s.buf c)).map fun ctl => { s with ctl := ctl }

/-! ## The system -/

/-- What the code above the driver may set in a buffer. -/
structure Fields where
  valid : Bool
  dirty : Bool
  dev : Nat
  blockno : Nat
  data : Block

def Buf.fill (b : Buf ι) (x : Fields) : Buf ι :=
  { b with valid := x.valid, dirty := x.dirty, dev := x.dev, blockno := x.blockno, data := x.data }

inductive Event (ι : Type) (n : Nat)
  | acquiresleep (t : ι) (b : Fin n)
  | releasesleep (t : ι) (b : Fin n)
  /-- whatever a thread does to a buffer that nobody else holds -/
  | fill (t : ι) (b : Fin n) (x : Fields)
  | iderw (t : ι) (b : Fin n)
  /-- a thread that has been woken gets `idelock` again -/
  | run (t : ι)
  | kill (t : ι)
  | serve (ok : Bool)
  | ideintr

def next (s : State ι n) : Event ι n → Option (State ι n)
  | .acquiresleep t b =>
      if s.pc t = .user ∧ (s.buf b).lock = none then
        some { s with buf := Function.update s.buf b { s.buf b with lock := some t } }
      else none
  | .releasesleep t b =>
      if s.pc t = .user ∧ (s.buf b).lock = some t then
        some { s with buf := Function.update s.buf b { s.buf b with lock := none } }
      else none
  | .fill t b x =>
      if s.pc t = .user ∧ ((s.buf b).lock = none ∨ (s.buf b).lock = some t) then
        some { s with buf := Function.update s.buf b ((s.buf b).fill x) }
      else none
  | .iderw t b => if s.pc t = .user then iderw s t b else none
  | .run t =>
      match s.pc t with
      | .wait false b => some (s.await t b)
      | _ => none
  | .kill t => some { s with pc := Function.update s.pc t (s.pc t).roused }
  | .serve ok => (s.ctl.serve ok).map fun c => { s with ctl := c }
  | .ideintr =>
      if s.ctl.irq = true then ideintr { s with ctl := { s.ctl with irq := false } } else none

/-- After `ideinit`: nothing is queued, and no thread is in the driver. -/
def Start (s : State ι n) : Prop :=
  s.ctl.command = none ∧ s.ctl.irq = false ∧ s.idequeue = none ∧ ∀ t, s.pc t = .user

/-- The controller makes no errors, and nobody asks for a block past the end. -/
def Sound (s : State ι n) : Event ι n → Prop
  | .serve ok => ok = true
  | .iderw _ b => (s.buf b).blockno < FSSIZE
  | _ => True

/-! ## A disk that serves requests at once -/

namespace Atomic

inductive Pc (n : Nat)
  | user
  /-- a request has been made for `b`, and served or not -/
  | asked (served : Bool) (b : Fin n)
  deriving DecidableEq

/-- `todo` are the buffers with requests not served yet. -/
@[ext] structure State (ι : Type) (n : Nat) where
  media : Nat → Nat → Block
  buf : Fin n → Buf ι
  todo : List (Fin n)
  pc : ι → Pc n

inductive Event (ι : Type) (n : Nat)
  | acquiresleep (t : ι) (b : Fin n)
  | releasesleep (t : ι) (b : Fin n)
  | fill (t : ι) (b : Fin n) (x : Fields)
  | call (t : ι) (b : Fin n)
  | serve
  | ret (t : ι)

/-- Write a dirty buffer to the disk, or read a clean one from it. -/
def transfer (media : Nat → Nat → Block) (x : Buf ι) : (Nat → Nat → Block) × Buf ι :=
  if x.dirty = true then
    (store media (x.dev % 2) x.blockno x.data, { x with valid := true, dirty := false })
  else (media, { x with data := media (x.dev % 2) x.blockno, valid := true, dirty := false })

def Pc.serve (b : Fin n) : Pc n → Pc n
  | .user => .user
  | .asked served c => .asked (served || c = b) c

def next (s : State ι n) : Event ι n → Option (State ι n)
  | .acquiresleep t b =>
      if s.pc t = .user ∧ (s.buf b).lock = none then
        some { s with buf := Function.update s.buf b { s.buf b with lock := some t } }
      else none
  | .releasesleep t b =>
      if s.pc t = .user ∧ (s.buf b).lock = some t then
        some { s with buf := Function.update s.buf b { s.buf b with lock := none } }
      else none
  | .fill t b x =>
      if s.pc t = .user ∧ ((s.buf b).lock = none ∨ (s.buf b).lock = some t) then
        some { s with buf := Function.update s.buf b ((s.buf b).fill x) }
      else none
  | .call t b =>
      if s.pc t = .user ∧ (s.buf b).lock = some t ∧ (s.buf b).done = false then
        some { s with todo := s.todo ++ [b], pc := Function.update s.pc t (.asked false b) }
      else none
  | .serve =>
      match s.todo with
      | [] => none
      | b :: todo =>
          let x := transfer s.media (s.buf b)
          some { s with
            media := x.1
            buf := Function.update s.buf b x.2
            todo := todo
            pc := fun t => (s.pc t).serve b }
  | .ret t =>
      match s.pc t with
      | .asked true _ => some { s with pc := Function.update s.pc t .user }
      | _ => none

end Atomic

/-! ## The request in the registers -/

/-- The command that serves a request for a buffer. -/
def Buf.command (x : Buf ι) : Command :=
  if x.dirty = true then .write (x.dev % 2) x.blockno x.data else .read (x.dev % 2) x.blockno

theorem select_bits : ∀ d < 2, ∀ k < 16,
    (0xe0 ||| (d <<< 4) ||| k) % 16 = k ∧ (0xe0 ||| (d <<< 4) ||| k) / 16 % 2 = d ∧
      (0xe0 ||| (d <<< 4) ||| k) < 256 := by
  decide

/-- A sector number of 28 bits comes out of the registers as it went in. -/
theorem ports_decode (dev sector : Nat) (h : sector < 2 ^ 28) :
    (ports dev sector).sector = sector ∧ (ports dev sector).drive = dev % 2 := by
  have hdev : dev &&& 1 = dev % 2 := Nat.and_one_is_mod dev
  have hbyte : ∀ k, k &&& 0xff = k % 2 ^ 8 := fun k => Nat.and_two_pow_sub_one_eq_mod k 8
  have hnib : ∀ k, k &&& 0x0f = k % 2 ^ 4 := fun k => Nat.and_two_pow_sub_one_eq_mod k 4
  have hsel := select_bits (dev % 2) (Nat.mod_lt _ (by decide)) (sector / 2 ^ 24 % 2 ^ 4)
    (Nat.mod_lt _ (by decide))
  have hselect : (ports dev sector).select.toNat =
      0xe0 ||| ((dev % 2) <<< 4) ||| (sector / 2 ^ 24 % 2 ^ 4) := by
    unfold ports
    simp only [hdev, hnib, Nat.shiftRight_eq_div_pow]
    exact Nat.mod_eq_of_lt hsel.2.2
  constructor
  · unfold Registers.sector
    rw [hselect, hsel.1]
    simp only [ports, hbyte, Nat.shiftRight_eq_div_pow, Nat.toUInt8, UInt8.toNat_ofNat']
    omega
  · unfold Registers.drive
    rw [hselect, hsel.2.1]

omit [DecidableEq ι] in
/-- A controller that is free starts on the request for the buffer. -/
theorem idestart_iff {c c' : Controller} {x : Buf ι} : idestart c x = some c' ↔
    x.blockno < FSSIZE ∧ c.command = none ∧
      c' = { c with regs := ports x.dev x.blockno, command := some x.command } := by
  unfold idestart
  by_cases hb : x.blockno ≥ FSSIZE
  -- a block behind the disk panics
  · rw [if_pos hb]
    constructor
    · intro h
      cases h
    · rintro ⟨h, -⟩
      omega
  rw [if_neg hb]
  cases hc : c.command with
  | some cmd =>
      -- a controller that is busy takes no command
      constructor
      · intro h
        cases h
      · rintro ⟨-, h, -⟩
        cases h
  | none =>
      have hlt : x.blockno < 2 ^ 28 := by
        unfold FSSIZE at hb
        omega
      have hmul : x.blockno * (BSIZE / SECTOR_SIZE) = x.blockno := Nat.mul_one _
      -- the ports name the sector and the drive
      rcases ports_decode x.dev x.blockno hlt with ⟨hsector, hdrive⟩
      simp only [Option.isSome_none, Bool.false_eq_true, if_false, hmul, hsector, hdrive,
        Option.some.injEq]
      constructor
      · rintro rfl
        exact ⟨Nat.lt_of_not_le hb, trivial, rfl⟩
      · rintro ⟨-, -, rfl⟩
        rfl

/-! ## What the driver keeps -/

/-- The buffers that are queued, the one being transferred first. -/
def State.queue (s : State ι n) : List (Fin n) := follow s.qnext n s.idequeue

/-- The queue is a chain of buffers with one thread waiting for each; the controller is
busy with the first of them, or has just served it. -/
structure Inv (s : State ι n) : Prop where
  chain : Chain s.qnext s.idequeue s.queue
  queued : ∀ b ∈ s.queue, (s.buf b).done = false ∧
    ∃ t a, (s.buf b).lock = some t ∧ s.pc t = .wait a b
  waiting : ∀ t a b, s.pc t = .wait a b → (s.buf b).lock = some t ∧
    (b ∈ s.queue ∨ (s.buf b).done = true ∧ a = false)
  idle : s.idequeue = none → s.ctl.command = none ∧ s.ctl.irq = false
  active : ∀ b, s.idequeue = some b →
    s.ctl.command = some (s.buf b).command ∧ s.ctl.irq = false ∧ s.ctl.regs.control = 0 ∨
      s.ctl.command = none ∧ s.ctl.irq = true ∧ s.ctl.failed = false

omit [DecidableEq ι] in
/-- A chain is the queue: it has no more elements than there are buffers. -/
theorem queue_eq {s : State ι n} {l : List (Fin n)} (h : Chain s.qnext s.idequeue l) :
    s.queue = l := by
  refine h.follow ?_
  have hlen := h.nodup.length_le_card
  rwa [Fintype.card_fin] at hlen

/-! ## What a state of the driver stands for -/

/-- The first in the queue has been served as soon as the controller has nothing to do. -/
def State.served (s : State ι n) (b : Fin n) : Bool :=
  s.idequeue = some b && s.ctl.command.isNone

/-- A buffer as its thread will find it. -/
def State.viewBuf (s : State ι n) (b : Fin n) : Buf ι :=
  if s.served b = true then
    { s.buf b with
      data := if (s.buf b).dirty = true then (s.buf b).data else s.ctl.fetched
      valid := true
      dirty := false }
  else s.buf b

def State.viewPc (s : State ι n) : Pc (Fin n) → Atomic.Pc n
  | .user => .user
  | .wait _ b => .asked (s.viewBuf b).done b

def State.view (s : State ι n) : Atomic.State ι n where
  media := s.ctl.media
  buf := s.viewBuf
  todo := if s.ctl.command.isNone = true then s.queue.tail else s.queue
  pc := fun t => s.viewPc (s.pc t)

/-- The interrupt handler does nothing that can be seen, and a thread that finds its
buffer not ready goes back to sleep. -/
def shows (s : State ι n) : Event ι n → List (Atomic.Event ι n)
  | .acquiresleep t b => [.acquiresleep t b]
  | .releasesleep t b => [.releasesleep t b]
  | .fill t b x => [.fill t b x]
  | .iderw t b => [.call t b]
  | .run t =>
      match s.pc t with
      | .wait _ b => if (s.buf b).done = true then [.ret t] else []
      | _ => []
  | .kill _ => []
  | .serve _ => [.serve]
  | .ideintr => []

section

omit [DecidableEq ι]

variable {s s' : State ι n} {t : ι} {b c : Fin n} {x : Buf ι}

theorem viewBuf_of_ne (h : s.idequeue ≠ some b) : s.viewBuf b = s.buf b := by
  unfold State.viewBuf State.served
  rw [if_neg]
  simp [h]

theorem viewBuf_of_busy (h : s.ctl.command.isNone = false) : s.viewBuf b = s.buf b := by
  unfold State.viewBuf State.served
  rw [if_neg]
  simp [h]

/-- The buffer that the disk works on is in the queue. -/
theorem Inv.head_mem (h : Inv s) (hb : s.idequeue = some b) : b ∈ s.queue := by
  have hc := h.chain
  rw [hb] at hc
  cases hq : s.queue with
  | nil =>
      rw [hq] at hc
      cases hc
  | cons c l =>
      rw [hq] at hc
      cases hc.1
      exact List.mem_cons_self

theorem Inv.queue_nil (h : Inv s) (hb : s.idequeue = none) : s.queue = [] := by
  have hc := h.chain
  rw [hb] at hc
  exact hc.unique rfl

/-- The queue begins with that buffer, and the others are linked behind it. -/
theorem Inv.queue_cons (h : Inv s) (hb : s.idequeue = some b) :
    ∃ l, s.queue = b :: l ∧ Chain s.qnext (s.qnext b) l ∧ b ∉ l := by
  have hc := h.chain
  have hnd := hc.nodup
  rw [hb] at hc
  cases hq : s.queue with
  | nil =>
      rw [hq] at hc
      cases hc
  | cons c l =>
      rw [hq] at hc hnd
      rcases hc with ⟨hbc, hc⟩
      cases hbc
      exact ⟨l, rfl, hc, (List.nodup_cons.1 hnd).1⟩

/-- A buffer in the queue has a thread that waits for it. -/
theorem Inv.notMem (h : Inv s) (hw : ∀ u a, s.pc u ≠ .wait a b) : b ∉ s.queue := by
  intro hb
  rcases (h.queued b hb).2 with ⟨u, a, -, hu⟩
  exact hw u a hu

/-- A buffer that nobody waits for is as it is, and whatever happens to it does not
touch the driver. -/
theorem setBuf_view (h : Inv s) (hw : ∀ u a, s.pc u ≠ .wait a b) (x : Buf ι) :
    State.view { s with buf := Function.update s.buf b x } =
      { s.view with buf := Function.update s.view.buf b x } ∧
      Inv { s with buf := Function.update s.buf b x } ∧ s.view.buf b = s.buf b := by
  -- nobody waits for the buffer, so it is not on the queue
  have hnot := h.notMem hw
  have hhead : s.idequeue ≠ some b := fun hb => hnot (h.head_mem hb)
  have hbuf : State.viewBuf { s with buf := Function.update s.buf b x } =
      Function.update s.viewBuf b x := by
    funext c
    by_cases hc : c = b
    · subst hc
      rw [Function.update_self]
      exact (viewBuf_of_ne (s := { s with buf := Function.update s.buf c x }) hhead).trans
        (Function.update_self ..)
    · rw [Function.update_of_ne hc]
      unfold State.viewBuf State.served
      simp only [Function.update_of_ne hc]
  refine ⟨?_, ?_, viewBuf_of_ne hhead⟩
  · refine Atomic.State.ext rfl hbuf rfl ?_
    funext t
    show State.viewPc _ (s.pc t) = s.viewPc (s.pc t)
    cases hpc : s.pc t with
    | user => rfl
    | wait a c =>
        have hc : c ≠ b := by
          rintro rfl
          exact hw t a hpc
        simp only [State.viewPc, hbuf, Function.update_of_ne hc]
  -- the queue and its owners are untouched
  · refine ⟨h.chain, ?_, ?_, h.idle, ?_⟩
    · intro c hc
      have hcb : c ≠ b := by
        rintro rfl
        exact hnot hc
      simp only [Function.update_of_ne hcb]
      exact h.queued c hc
    · intro u a c hu
      have hcb : c ≠ b := by
        rintro rfl
        exact hw u a hu
      simp only [Function.update_of_ne hcb]
      exact h.waiting u a c hu
    · intro c hc
      have hcb : c ≠ b := by
        rintro rfl
        exact hhead hc
      simp only [Function.update_of_ne hcb]
      exact h.active c hc

/-- Who waits for a buffer holds its lock. -/
theorem Inv.nobody_waits (h : Inv s) (hl : (s.buf b).lock = none ∨ (s.buf b).lock = some t)
    (ht : s.pc t = .user) : ∀ u a, s.pc u ≠ .wait a b := by
  intro u a hu
  have hlock := (h.waiting u a b hu).1
  rcases hl with hl | hl
  · cases hl.symm.trans hlock
  · cases hl.symm.trans hlock
    cases ht.symm.trans hu

end

/-! ## Every step -/

section

variable {s s' : State ι n} {t : ι} {b : Fin n}

/-- Who waits for a buffer after `iderw` has waited before, or has just called. -/
theorem await_wait (s : State ι n) {u : ι} {a : Bool} {c : Fin n}
    (h : (s.await t b).pc u = .wait a c) :
    u = t ∧ a = true ∧ c = b ∧ (s.buf b).done = false ∨ u ≠ t ∧ s.pc u = .wait a c := by
  unfold State.await at h
  by_cases hu : u = t
  · subst hu
    simp only [Function.update_self] at h
    by_cases hd : (s.buf b).done = true
    · rw [if_pos hd] at h
      cases h
    · rw [if_neg hd] at h
      cases h
      exact .inl ⟨rfl, rfl, rfl, by simpa using hd⟩
  · simp only [Function.update_of_ne hu] at h
    exact .inr ⟨hu, h⟩

/-- What `iderw` does: it appends the buffer, and starts the disk if the queue was empty. -/
theorem iderw_some (hs : iderw s t b = some s') : (s.buf b).lock = some t ∧
    (s.buf b).done = false ∧ ∃ x, append s.qnext n s.idequeue b = some x ∧
      (x.2 = some b ∧ (∃ c, idestart s.ctl (s.buf b) = some c ∧
          s' = { s with qnext := x.1, idequeue := x.2, ctl := c }.await t b) ∨
        x.2 ≠ some b ∧ s' = { s with qnext := x.1, idequeue := x.2 }.await t b) := by
  unfold iderw at hs
  -- the three panics of `iderw`
  by_cases hlock : (s.buf b).lock ≠ some t
  · rw [if_pos hlock] at hs
    cases hs
  rw [if_neg hlock] at hs
  by_cases hdone : (s.buf b).done = true
  · rw [if_pos hdone] at hs
    cases hs
  rw [if_neg hdone] at hs
  by_cases hdisk : (s.buf b).dev ≠ 0 ∧ s.havedisk1 = false
  · rw [if_pos hdisk] at hs
    cases hs
  rw [if_neg hdisk, Option.bind_eq_some_iff] at hs
  rcases hs with ⟨x, hx, hs⟩
  refine ⟨not_not.1 hlock, by simpa using hdone, x, hx, ?_⟩
  -- the queue was empty: the command is given at once
  by_cases hhead : x.2 = some b
  · simp only [if_pos hhead, Option.map_eq_some_iff] at hs
    rcases hs with ⟨c, hc, hs⟩
    exact .inl ⟨hhead, c, hc, hs.symm⟩
  · simp only [if_neg hhead, Option.some.injEq] at hs
    exact .inr ⟨hhead, hs.symm⟩

/-- What a call does: the buffer is the last of the queue, and the thread sleeps. -/
theorem iderw_view (h : Inv s) (ht : s.pc t = .user) (hs : iderw s t b = some s') :
    Atomic.next s.view (.call t b) = some s'.view ∧ Inv s' := by
  rcases iderw_some hs with ⟨hlock, hdone, x, hx, hcase⟩
  have hnot : b ∉ s.queue := h.notMem (h.nobody_waits (.inr hlock) ht)
  have hlen : s.queue.length ≤ n := by
    have := h.chain.nodup.length_le_card
    rwa [Fintype.card_fin] at this
  rcases h.chain.append hnot hlen with ⟨y, hy, hchain⟩
  cases hx.symm.trans hy
  have hhead : s.idequeue ≠ some b := fun hb => hnot (h.head_mem hb)
  -- the queue is empty exactly when the buffer comes to its head
  have hfirst : x.2 = some b ↔ s.queue = [] := by
    cases hq : s.queue with
    | nil =>
        rw [hq] at hchain
        exact ⟨fun _ => rfl, fun _ => hchain.1⟩
    | cons c l =>
        rw [hq] at hchain hnot
        have hc : x.2 = some c := hchain.1
        constructor
        · intro hb
          cases hc.symm.trans hb
          exact absurd List.mem_cons_self hnot
        · intro hnil
          cases hnil
  have hcall : Atomic.next s.view (.call t b) = some { s.view with
      todo := s.view.todo ++ [b]
      pc := Function.update s.view.pc t (.asked false b) } := by
    have hbuf : s.view.buf b = s.buf b := viewBuf_of_ne hhead
    have hpc : s.view.pc t = .user := by
      show s.viewPc (s.pc t) = .user
      rw [ht]
      rfl
    simp only [Atomic.next, hbuf]
    rw [if_pos ⟨hpc, hlock, hdone⟩]
  rw [hcall]
  -- both ways on, from the queue and the buffers that they leave
  have hmain : ∀ c : Controller, c.media = s.ctl.media →
      (s.queue = [] → c.command = some (s.buf b).command ∧ c.irq = false ∧ c.regs.control = 0) →
      (s.queue ≠ [] → c = s.ctl) →
      s' = { s with qnext := x.1, idequeue := x.2, ctl := c }.await t b →
      some { s.view with
        todo := s.view.todo ++ [b]
        pc := Function.update s.view.pc t (.asked false b) } = some s'.view ∧ Inv s' := by
    intro c hmedia hnew hold hs'
    have hqueue : s'.queue = s.queue ++ [b] := by
      rw [hs']
      exact queue_eq hchain
    have hbuf' : s'.buf = s.buf := by rw [hs']; rfl
    have hctl : s'.ctl = c := by rw [hs']; rfl
    have hidq : s'.idequeue = x.2 := by rw [hs']; rfl
    have hmedia' : s'.ctl.media = s.ctl.media := by rw [hctl, hmedia]
    have hpc : ∀ u a d, s'.pc u = .wait a d →
        u = t ∧ a = true ∧ d = b ∧ (s.buf b).done = false ∨ u ≠ t ∧ s.pc u = .wait a d := by
      intro u a d hu
      rw [hs'] at hu
      exact await_wait _ hu
    have hpct : s'.pc t = .wait true b := by
      rw [hs']
      simp [State.await, hdone]
    have hpcu : ∀ u, u ≠ t → s'.pc u = s.pc u := by
      intro u hu
      rw [hs']
      simp [State.await, Function.update_of_ne hu]
    -- behind an old queue, its head stays
    have hsame : s.queue ≠ [] → x.2 = s.idequeue := by
      intro hq
      have hold := h.chain
      cases hl : s.queue with
      | nil => exact absurd hl hq
      | cons d l =>
          rw [hl] at hold hchain
          exact hchain.1.trans hold.1.symm
    have hnone : s.queue = [] → s.idequeue = none := by
      intro hq
      have hold := h.chain
      rwa [hq] at hold
    have hview : s'.viewBuf = s.viewBuf := by
      funext d
      by_cases hq : s.queue = []
      · have hne : s.idequeue ≠ some d := by
          rw [hnone hq]
          simp
        have hbusy : s'.ctl.command.isNone = false := by
          rw [hctl, (hnew hq).1]
          rfl
        rw [viewBuf_of_ne hne, viewBuf_of_busy hbusy, hbuf']
      · unfold State.viewBuf State.served
        rw [hidq, hctl, hbuf', hsame hq, hold hq]
    have hbufb : s.viewBuf b = s.buf b := viewBuf_of_ne hhead
    constructor
    · refine congrArg some (Atomic.State.ext hmedia'.symm hview.symm ?_ ?_)
      · show (if s.ctl.command.isNone = true then s.queue.tail else s.queue) ++ [b] =
          if s'.ctl.command.isNone = true then s'.queue.tail else s'.queue
        rw [hqueue, hctl]
        by_cases hq : s.queue = []
        · rw [(h.idle (hnone hq)).1, (hnew hq).1, hq]
          rfl
        · rw [hold hq]
          by_cases hn : s.ctl.command.isNone = true
          · rw [if_pos hn, if_pos hn, List.tail_append_of_ne_nil hq]
          · rw [if_neg hn, if_neg hn]
      · funext u
        show Function.update s.view.pc t (.asked false b) u = s'.viewPc (s'.pc u)
        by_cases hu : u = t
        · subst hu
          rw [Function.update_self, hpct]
          simp only [State.viewPc, hview, hbufb, hdone]
        · rw [Function.update_of_ne hu, hpcu u hu]
          show s.viewPc (s.pc u) = _
          cases s.pc u with
          | user => rfl
          | wait a d => simp only [State.viewPc, hview]
    · refine ⟨?_, ?_, ?_, ?_, ?_⟩
      · rw [hqueue, hs']
        exact hchain
      · intro d hd
        rw [hqueue, List.mem_append] at hd
        rw [hbuf']
        rcases hd with hd | hd
        · rcases h.queued d hd with ⟨hdd, u, a, hl, hu⟩
          refine ⟨hdd, u, a, hl, ?_⟩
          rw [hpcu u (by rintro rfl; cases ht.symm.trans hu), hu]
        · rw [List.mem_singleton.1 hd]
          exact ⟨hdone, t, true, hlock, hpct⟩
      · intro u a d hu
        rw [hbuf', hqueue, List.mem_append]
        rcases hpc u a d hu with ⟨rfl, -, rfl, -⟩ | ⟨-, hu⟩
        · exact ⟨hlock, .inl (.inr (List.mem_singleton_self _))⟩
        · rcases h.waiting u a d hu with ⟨hl, hd | hd⟩
          · exact ⟨hl, .inl (.inl hd)⟩
          · exact ⟨hl, .inr hd⟩
      · intro hn
        rw [hidq] at hn
        rw [hn] at hchain
        have hnil : s.queue ++ [b] = [] := hchain.unique rfl
        simp at hnil
      · intro d hd
        rw [hidq] at hd
        rw [hctl, hbuf']
        by_cases hq : s.queue = []
        · cases hd.symm.trans (hfirst.2 hq)
          exact .inl (hnew hq)
        · rw [hold hq]
          exact h.active d ((hsame hq).symm.trans hd)
  rcases hcase with ⟨hb, c, hc, hs'⟩ | ⟨hb, hs'⟩
  · -- the queue was empty, and the controller gets the command
    rw [idestart_iff] at hc
    rcases hc with ⟨-, -, hc⟩
    have hirq : s.ctl.irq = false := by
      have hold := h.chain
      rw [hfirst.1 hb] at hold
      exact (h.idle hold).2
    refine hmain c (by rw [hc]) (fun _ => ?_) (fun hq => absurd (hfirst.1 hb) hq) hs'
    rw [hc]
    exact ⟨rfl, hirq, rfl⟩
  · exact hmain s.ctl rfl (fun hq => absurd (hfirst.2 hq) hb) (fun _ => rfl) hs'

omit [DecidableEq ι] in
theorem view_done (h : Inv s) (hd : (s.buf b).done = true) : s.viewBuf b = s.buf b := by
  refine viewBuf_of_ne fun hb => ?_
  rw [(h.queued b (h.head_mem hb)).1] at hd
  cases hd

/-- A thread that has been woken returns if its request has been served. -/
theorem run_view {a : Bool} (h : Inv s) (ht : s.pc t = .wait a b) :
    exec Atomic.next s.view (if (s.buf b).done = true then [.ret t] else []) =
      some (s.await t b).view ∧ Inv (s.await t b) := by
  rcases h.waiting t a b ht with ⟨hlock, hmem⟩
  have hpcu : ∀ u, u ≠ t → (s.await t b).pc u = s.pc u := by
    intro u hu
    simp [State.await, Function.update_of_ne hu]
  constructor
  -- the transfer is done and the call returns, or the process sleeps again
  · by_cases hd : (s.buf b).done = true
    · have hpct : (s.await t b).pc t = .user := by simp [State.await, hd]
      have hv : s.view.pc t = .asked true b := by
        show s.viewPc (s.pc t) = _
        rw [ht]
        simp only [State.viewPc, view_done h hd, hd]
      rw [if_pos hd]
      simp only [exec_cons, exec_nil, Atomic.next, hv, Option.bind_some]
      refine congrArg some (Atomic.State.ext rfl rfl rfl ?_)
      funext u
      show Function.update s.view.pc t .user u = s.viewPc ((s.await t b).pc u)
      by_cases hu : u = t
      · subst hu
        rw [Function.update_self, hpct]
        rfl
      · rw [Function.update_of_ne hu, hpcu u hu]
        rfl
    · have hpct : (s.await t b).pc t = .wait true b := by simp [State.await, hd]
      rw [if_neg hd, exec_nil]
      refine congrArg some (Atomic.State.ext rfl rfl rfl ?_)
      funext u
      show s.viewPc (s.pc u) = s.viewPc ((s.await t b).pc u)
      by_cases hu : u = t
      · subst hu
        rw [hpct, ht]
        rfl
      · rw [hpcu u hu]
  -- the queue is as before; `t` alone may have left it
  · refine ⟨h.chain, ?_, ?_, h.idle, h.active⟩
    · intro c hc
      rcases h.queued c hc with ⟨hcd, u, a', hl, hu⟩
      refine ⟨hcd, ?_⟩
      by_cases hut : u = t
      · subst hut
        cases hu.symm.trans ht
        exact ⟨u, true, hl, by simp [State.await, hcd]⟩
      · exact ⟨u, a', hl, (hpcu u hut).trans hu⟩
    · intro u a' c hu
      rcases await_wait s hu with ⟨rfl, rfl, rfl, hd⟩ | ⟨-, hu⟩
      · refine ⟨hlock, .inl ?_⟩
        rcases hmem with hm | ⟨hd', -⟩
        · exact hm
        · have hd : (s.buf c).done = false := hd
          rw [hd] at hd'
          cases hd'
      · exact h.waiting u a' c hu

/-- A `kill` cannot be seen at the atomic disk. -/
theorem kill_view (h : Inv s) :
    State.view { s with pc := Function.update s.pc t (s.pc t).roused } = s.view ∧
      Inv { s with pc := Function.update s.pc t (s.pc t).roused } := by
  -- a kill wakes a sleeper, which will look at its buffer and sleep again
  have hpc : ∀ u a c, Function.update s.pc t (s.pc t).roused u = .wait a c →
      ∃ a', s.pc u = .wait a' c ∧ (a' = false → a = false) := by
    intro u a c hu
    by_cases hut : u = t
    · subst hut
      rw [Function.update_self] at hu
      cases hp : s.pc u with
      | user =>
          rw [hp] at hu
          cases hu
      | wait a' d =>
          rw [hp] at hu
          cases hu
          exact ⟨a', rfl, fun _ => rfl⟩
    · rw [Function.update_of_ne hut] at hu
      exact ⟨a, hu, id⟩
  constructor
  · refine Atomic.State.ext rfl rfl rfl ?_
    funext u
    show s.viewPc (Function.update s.pc t (s.pc t).roused u) = s.viewPc (s.pc u)
    by_cases hut : u = t
    · subst hut
      rw [Function.update_self]
      cases s.pc u <;> rfl
    · rw [Function.update_of_ne hut]
  · refine ⟨h.chain, ?_, ?_, h.idle, h.active⟩
    · intro c hc
      rcases h.queued c hc with ⟨hcd, u, a, hl, hu⟩
      refine ⟨hcd, u, ?_⟩
      by_cases hut : u = t
      · subst hut
        refine ⟨false, hl, ?_⟩
        show Function.update s.pc u (s.pc u).roused u = _
        rw [Function.update_self, hu]
        rfl
      · exact ⟨a, hl, (Function.update_of_ne hut ..).trans hu⟩
    · intro u a c hu
      rcases hpc u a c hu with ⟨a', hu, ha⟩
      rcases h.waiting u a' c hu with ⟨hl, hm | ⟨hd, ha'⟩⟩
      · exact ⟨hl, .inl hm⟩
      · exact ⟨hl, .inr ⟨hd, ha ha'⟩⟩

omit [DecidableEq ι] in
/-- The controller is busy with the first of the queue. -/
theorem Inv.busy (h : Inv s) (hc : s.ctl.command ≠ none) : ∃ b, s.idequeue = some b ∧
    s.ctl.command = some (s.buf b).command ∧ s.ctl.regs.control = 0 := by
  have hq : s.idequeue ≠ none := fun hq => hc (h.idle hq).1
  rcases Option.ne_none_iff_exists'.1 hq with ⟨b, hb⟩
  rcases h.active b hb with ⟨hcmd, -, hcontrol⟩ | ⟨hcmd, -⟩
  · exact ⟨b, hb, hcmd, hcontrol⟩
  · exact absurd hcmd hc

omit [DecidableEq ι] in
/-- An interrupt is about the first of the queue. -/
theorem Inv.interrupted (h : Inv s) (hi : s.ctl.irq = true) : ∃ b, s.idequeue = some b ∧
    s.ctl.command = none ∧ s.ctl.failed = false := by
  have hq : s.idequeue ≠ none := by
    intro hq
    cases hi.symm.trans (h.idle hq).2
  rcases Option.ne_none_iff_exists'.1 hq with ⟨b, hb⟩
  rcases h.active b hb with ⟨-, hirq, -⟩ | ⟨hcmd, -, hfailed⟩
  · cases hi.symm.trans hirq
  · exact ⟨b, hb, hcmd, hfailed⟩

/-- The disk serves a command. -/
theorem Controller.serve_command {c c' : Controller} {ok : Bool} (hs : c.serve ok = some c') :
    c.command ≠ none := by
  intro hc
  unfold Controller.serve at hs
  rw [hc] at hs
  cases hs

/-- The controller finishes the first request of the queue: this is when it counts as
served. -/
theorem serve_view {c : Controller} (h : Inv s) (hs : s.ctl.serve true = some c) :
    Atomic.next s.view .serve = some (State.view { s with ctl := c }) ∧
      Inv { s with ctl := c } := by
  rcases h.busy (Controller.serve_command hs) with ⟨b, hq, hcmd, hcontrol⟩
  rcases h.queue_cons hq with ⟨l, hl, -⟩
  have hbusy : s.ctl.command.isNone = false := by
    rw [hcmd]
    rfl
  have hvb : ∀ d, s.viewBuf d = s.buf d := fun d => viewBuf_of_busy hbusy
  -- what the controller does is the transfer between the buffer and the disk
  have hc : c = { s.ctl with
      command := none
      failed := false
      irq := true
      fetched := if (s.buf b).dirty = true then s.ctl.fetched
        else (Atomic.transfer s.ctl.media (s.buf b)).2.data
      media := (Atomic.transfer s.ctl.media (s.buf b)).1 } := by
    unfold Controller.serve at hs
    rw [hcmd, hcontrol] at hs
    unfold Buf.command at hs
    unfold Atomic.transfer
    by_cases hd : (s.buf b).dirty = true
    · simp only [if_pos hd] at hs ⊢
      cases hs
      rfl
    · simp only [if_neg hd] at hs ⊢
      cases hs
      rfl
  have hfields : c.command = none ∧ c.failed = false ∧ c.irq = true := by
    rw [hc]
    exact ⟨rfl, rfl, rfl⟩
  have hview : State.viewBuf { s with ctl := c } =
      Function.update s.buf b (Atomic.transfer s.ctl.media (s.buf b)).2 := by
    funext d
    by_cases hd : d = b
    · subst hd
      have hserved : State.served { s with ctl := c } d = true := by
        simp [State.served, hq, hfields.1]
      unfold State.viewBuf
      rw [if_pos hserved, Function.update_self, hc]
      unfold Atomic.transfer
      by_cases hdirty : (s.buf d).dirty = true
      · simp only [if_pos hdirty]
      · simp only [if_neg hdirty]
    · have hne : s.idequeue ≠ some d := by
        rw [hq]
        rintro ⟨⟩
        exact hd rfl
      rw [Function.update_of_ne hd]
      exact viewBuf_of_ne (s := { s with ctl := c }) hne
  constructor
  · have htodo : s.view.todo = b :: l := by
      show (if s.ctl.command.isNone = true then s.queue.tail else s.queue) = _
      rw [hbusy, hl]
      rfl
    have hbuf : s.view.buf = s.buf := funext hvb
    simp only [Atomic.next, htodo, hbuf]
    refine congrArg some (Atomic.State.ext ?_ hview.symm ?_ ?_)
    · show (Atomic.transfer s.ctl.media (s.buf b)).1 = c.media
      rw [hc]
    · show l = if c.command.isNone = true then s.queue.tail else s.queue
      rw [hfields.1, hl]
      rfl
    · funext u
      show (s.viewPc (s.pc u)).serve b = State.viewPc { s with ctl := c } (s.pc u)
      cases s.pc u with
      | user => rfl
      | wait a d =>
          simp only [State.viewPc, hvb, hview, Atomic.Pc.serve]
          by_cases hd : d = b
          · subst hd
            rw [Function.update_self]
            unfold Atomic.transfer Buf.done
            by_cases hdirty : (s.buf d).dirty = true
            · simp [hdirty]
            · simp [hdirty]
          · rw [Function.update_of_ne hd]
            simp [hd]
  · refine ⟨h.chain, h.queued, h.waiting, ?_, ?_⟩
    · intro hn
      cases hq.symm.trans hn
    · intro d _
      exact .inr ⟨hfields.1, hfields.2.2, hfields.2.1⟩

omit [DecidableEq ι] in
/-- The interrupt handler takes the request off the queue and starts the next one.
Nothing of this can be seen. -/
theorem ideintr_view (h : Inv s) (hi : s.ctl.irq = true)
    (hs : ideintr { s with ctl := { s.ctl with irq := false } } = some s') :
    s'.view = s.view ∧ Inv s' ∧ s'.queue = s.queue.tail ∧
      (s'.queue ≠ [] → s'.ctl.command.isNone = false) := by
  rcases h.interrupted hi with ⟨b, hq, hcmd, hfailed⟩
  rcases h.queue_cons hq with ⟨l, hl, hchain, hbl⟩
  -- the buffer that the handler leaves is the one that counts already
  have hserved : s.served b = true := by simp [State.served, hq, hcmd]
  have hbuf : s.viewBuf b = { s.buf b with
      data := if (s.buf b).dirty = false then s.ctl.fetched else (s.buf b).data
      valid := true
      dirty := false } := by
    unfold State.viewBuf
    rw [if_pos hserved]
    cases (s.buf b).dirty <;> rfl
  have hne : ∀ d, d ≠ b → s.viewBuf d = s.buf d := by
    intro d hd
    refine viewBuf_of_ne ?_
    rw [hq]
    rintro ⟨⟩
    exact hd rfl
  have hstate : ∃ c : Controller, c.media = s.ctl.media ∧ s' = { s with
      ctl := c
      idequeue := s.qnext b
      buf := Function.update s.buf b (s.viewBuf b)
      pc := fun t => (s.pc t).woken b } ∧
      (s.qnext b = none → c.command = none ∧ c.irq = false) ∧
      ∀ d, s.qnext b = some d → c.command = some (s.buf d).command ∧ c.irq = false ∧
        c.regs.control = 0 := by
    unfold ideintr at hs
    simp only [hq, hcmd, hfailed, Option.isSome_none, Bool.false_eq_true, and_false, if_false,
      and_true] at hs
    rw [hbuf]
    cases hn : s.qnext b with
    | none =>
        rw [hn] at hs
        cases hs
        refine ⟨{ s.ctl with irq := false, command := none, failed := false }, rfl, ?_,
          fun _ => ⟨rfl, rfl⟩, fun d hd => by cases hd⟩
        rfl
    | some d =>
        have hdb : d ≠ b := by
          rintro rfl
          rw [hn] at hchain
          cases l with
          | nil => cases hchain
          | cons e l =>
              cases hchain.1
              exact hbl List.mem_cons_self
        rw [hn] at hs
        simp only [Function.update_of_ne hdb, Option.map_eq_some_iff] at hs
        rcases hs with ⟨c, hc, rfl⟩
        rw [idestart_iff] at hc
        rcases hc with ⟨-, -, rfl⟩
        refine ⟨_, ?_, rfl, fun hd => (by cases hd), ?_⟩
        · rfl
        intro e he
        cases he
        exact ⟨rfl, rfl, rfl⟩
  rcases hstate with ⟨c, hmedia, rfl, hlast, hnext⟩
  set s' : State ι n := { s with
    ctl := c
    idequeue := s.qnext b
    buf := Function.update s.buf b (s.viewBuf b)
    pc := fun t => (s.pc t).woken b } with hs'
  have hqueue : s'.queue = l := queue_eq hchain
  have hdone : (s.viewBuf b).done = true := by
    rw [hbuf]
    rfl
  have hview : s'.viewBuf = s.viewBuf := by
    funext d
    have hreal : s'.viewBuf d = s'.buf d := by
      cases hn : s.qnext b with
      | none =>
          refine viewBuf_of_ne ?_
          show s.qnext b ≠ some d
          rw [hn]
          simp
      | some e =>
          refine viewBuf_of_busy ?_
          show c.command.isNone = false
          rw [(hnext e hn).1]
          rfl
    rw [hreal]
    show Function.update s.buf b (s.viewBuf b) d = s.viewBuf d
    by_cases hd : d = b
    · subst hd
      rw [Function.update_self]
    · rw [Function.update_of_ne hd, hne d hd]
  refine ⟨?_, ?_, by rw [hqueue, hl]; rfl, ?_⟩
  · refine Atomic.State.ext hmedia hview ?_ ?_
    · show (if c.command.isNone = true then s'.queue.tail else s'.queue) =
        if s.ctl.command.isNone = true then s.queue.tail else s.queue
      rw [hqueue, hcmd, hl]
      cases hn : s.qnext b with
      | none =>
          rw [hn] at hchain
          have hnil : l = [] := hchain.unique rfl
          rw [hnil]
          simp
      | some e =>
          rw [(hnext e hn).1]
          rfl
    · funext u
      show s'.viewPc ((s.pc u).woken b) = s.viewPc (s.pc u)
      cases s.pc u with
      | user => rfl
      | wait a d => simp only [Pc.woken, State.viewPc, hview]
  · refine ⟨?_, ?_, ?_, ?_, ?_⟩
    · rw [hqueue]
      exact hchain
    · intro d hd
      rw [hqueue] at hd
      have hdb : d ≠ b := by
        rintro rfl
        exact hbl hd
      rcases h.queued d (by rw [hl]; exact List.mem_cons_of_mem _ hd) with ⟨hdd, u, a, hlock, hu⟩
      show (Function.update s.buf b (s.viewBuf b) d).done = false ∧ _
      rw [Function.update_of_ne hdb]
      refine ⟨hdd, u, a && d ≠ b, ?_, ?_⟩
      · show (Function.update s.buf b (s.viewBuf b) d).lock = some u
        rw [Function.update_of_ne hdb]
        exact hlock
      · show (s.pc u).woken b = _
        rw [hu]
        rfl
    · intro u a d hu
      have hu : (s.pc u).woken b = .wait a d := hu
      cases hp : s.pc u with
      | user =>
          rw [hp] at hu
          cases hu
      | wait a' e =>
          rw [hp] at hu
          cases hu
          rcases h.waiting u a' d hp with ⟨hlock, hm⟩
          rw [hqueue]
          show (Function.update s.buf b (s.viewBuf b) d).lock = some u ∧
            (_ ∨ (Function.update s.buf b (s.viewBuf b) d).done = true ∧ _)
          by_cases hd : d = b
          · subst hd
            rw [Function.update_self]
            refine ⟨?_, .inr ⟨hdone, by simp⟩⟩
            rw [hbuf]
            exact hlock
          · rw [Function.update_of_ne hd]
            refine ⟨hlock, ?_⟩
            rw [hl, List.mem_cons] at hm
            rcases hm with (hm | hm) | ⟨hm, ha⟩
            · exact absurd hm hd
            · exact .inl hm
            · exact .inr ⟨hm, by simp [ha]⟩
    · exact hlast
    · intro d hd
      have hd : s.qnext b = some d := hd
      have hdb : d ≠ b := by
        rintro rfl
        rw [hd] at hchain
        cases l with
        | nil => cases hchain
        | cons e l =>
            cases hchain.1
            exact hbl List.mem_cons_self
      show c.command = some (Function.update s.buf b (s.viewBuf b) d).command ∧ _ ∨ _
      rw [Function.update_of_ne hdb]
      exact .inl (hnext d hd)
  · intro hne
    rw [hqueue] at hne
    cases hn : s.qnext b with
    | none =>
        rw [hn] at hchain
        have hnil : l = [] := hchain.unique rfl
        exact absurd hnil hne
    | some e =>
        show c.command.isNone = false
        rw [(hnext e hn).1]
        rfl

/-- What a step of the driver or of the controller shows is what it does. -/
theorem step_view {e : Event ι n} (h : Inv s) (hok : ∀ ok, e = .serve ok → ok = true)
    (hs : next s e = some s') :
    exec Atomic.next s.view (shows s e) = some s'.view ∧ Inv s' := by
  have hone : ∀ {f : Atomic.Event ι n}, Atomic.next s.view f = some s'.view →
      exec Atomic.next s.view [f] = some s'.view := by
    intro f hf
    rw [exec_cons, hf]
    rfl
  -- a thread in user code does something to a buffer that nobody waits for
  have hset : ∀ (u : ι) (b : Fin n) (x : Buf ι), s.pc u = .user →
      (s.buf b).lock = none ∨ (s.buf b).lock = some u →
      s.view.pc u = .user ∧ s.view.buf b = s.buf b ∧
        State.view { s with buf := Function.update s.buf b x } =
          { s.view with buf := Function.update s.view.buf b x } ∧
        Inv { s with buf := Function.update s.buf b x } := by
    intro u b x hu hl
    have hx := setBuf_view h (h.nobody_waits hl hu) x
    refine ⟨?_, hx.2.2, hx.1, hx.2.1⟩
    show s.viewPc (s.pc u) = .user
    rw [hu]
    rfl
  cases e with
  | acquiresleep t b =>
      simp only [next] at hs
      split at hs
      · next hc =>
          cases hs
          rcases hset t b { s.buf b with lock := some t } hc.1 (.inl hc.2) with ⟨h1, h2, h3, h4⟩
          refine ⟨hone ?_, h4⟩
          simp only [Atomic.next, h2]
          rw [if_pos ⟨h1, hc.2⟩, h3]
      · cases hs
  | releasesleep t b =>
      simp only [next] at hs
      split at hs
      · next hc =>
          cases hs
          rcases hset t b { s.buf b with lock := none } hc.1 (.inr hc.2) with ⟨h1, h2, h3, h4⟩
          refine ⟨hone ?_, h4⟩
          simp only [Atomic.next, h2]
          rw [if_pos ⟨h1, hc.2⟩, h3]
      · cases hs
  | fill t b x =>
      simp only [next] at hs
      split at hs
      · next hc =>
          cases hs
          rcases hset t b ((s.buf b).fill x) hc.1 hc.2 with ⟨h1, h2, h3, h4⟩
          refine ⟨hone ?_, h4⟩
          simp only [Atomic.next, h2]
          rw [if_pos ⟨h1, hc.2⟩, h3]
      · cases hs
  | iderw t b =>
      simp only [next] at hs
      split at hs
      · next hc =>
          have hx := iderw_view h hc hs
          exact ⟨hone hx.1, hx.2⟩
      · cases hs
  | run t =>
      simp only [next] at hs
      cases hp : s.pc t with
      | user =>
          rw [hp] at hs
          cases hs
      | wait a b =>
          cases a with
          | true =>
              rw [hp] at hs
              cases hs
          | false =>
              rw [hp] at hs
              cases hs
              simp only [shows, hp]
              exact run_view h hp
  | kill t =>
      cases hs
      have hx := kill_view (t := t) h
      refine ⟨?_, hx.2⟩
      rw [hx.1]
      rfl
  | serve ok =>
      have hok := hok ok rfl
      subst hok
      simp only [next, Option.map_eq_some_iff] at hs
      rcases hs with ⟨c, hc, rfl⟩
      have hx := serve_view h hc
      exact ⟨hone hx.1, hx.2⟩
  | ideintr =>
      simp only [next] at hs
      split at hs
      · next hi =>
          have hx := ideintr_view h hi hs
          refine ⟨?_, hx.2.1⟩
          rw [hx.1]
          rfl
      · cases hs

omit [DecidableEq ι] in
/-- The queue is empty at the start. -/
theorem Start.inv (h : Start s) : Inv s := by
  rcases h with ⟨hcmd, hirq, hq, hpc⟩
  have hqueue : s.queue = [] := by
    apply queue_eq
    exact hq
  refine ⟨?_, ?_, ?_, fun _ => ⟨hcmd, hirq⟩, ?_⟩
  · rw [hqueue]
    exact hq
  · intro b hb
    rw [hqueue] at hb
    cases hb
  · intro t a b ht
    cases (hpc t).symm.trans ht
  · intro b hb
    cases hq.symm.trans hb

/-- As long as the controller makes no errors, the driver is a disk that serves its
requests at once, in the order of the calls and between call and return: what a run
of the driver shows is a run of that disk. -/
theorem ide_refines_atomic (s s' : State ι n) (es : List (Event ι n)) (h : Start s)
    (hok : ∀ e ∈ es, ∀ ok, e = .serve ok → ok = true) (hs : exec next s es = some s') :
    exec Atomic.next s.view (shown next shows s es) = some s'.view := by
  have hstep : ∀ (s : State ι n) e s', Inv s → (∀ ok, e = Event.serve ok → ok = true) →
      next s e = some s' → exec Atomic.next s.view (shows s e) = some s'.view ∧ Inv s' :=
    fun _ _ _ h hok hs => step_view h hok hs
  exact (exec_shown State.view Inv hstep h.inv hok hs).1

/-- Two drives of zeros, two free buffers and two threads. -/
def twoThreads : State (Fin 2) 2 where
  ctl :=
    { regs := ⟨0, 0, 0, 0, 0, 0⟩, command := none, fetched := fun _ => 0, failed := false,
      irq := false, media := fun _ _ _ => 0 }
  havedisk1 := true
  buf _ := ⟨false, false, 0, 0, fun _ => 0, none⟩
  idequeue := none
  qnext _ := none
  pc _ := .user

theorem twoThreads_start : Start twoThreads := ⟨rfl, rfl, rfl, fun _ => rfl⟩

/-- A thread writes a block, and another that asks for the block meanwhile reads what has
been written. -/
theorem ide_refines_atomic_two : ∃ (es : List (Event (Fin 2) 2)) (s : State (Fin 2) 2),
    exec Atomic.next twoThreads.view (shown next shows twoThreads es) = some s.view ∧
      s.pc 1 = .user ∧ ∃ i, (s.buf 1).data i = 7 := by
  let es : List (Event (Fin 2) 2) :=
    [.acquiresleep 0 0, .fill 0 0 ⟨true, true, 1, 70000, fun _ => 7⟩, .iderw 0 0,
      .acquiresleep 1 1, .fill 1 1 ⟨false, false, 1, 70000, fun _ => 0⟩, .iderw 1 1,
      .serve true, .ideintr, .run 0, .serve true, .ideintr, .run 1]
  have hrun : (exec next twoThreads es).map (fun s => (s.pc 1, (s.buf 1).data ⟨3, by decide⟩)) =
      some (.user, 7) := by
    decide +kernel
  rcases Option.map_eq_some_iff.1 hrun with ⟨s, hs, hv⟩
  have hok : ∀ e ∈ es, ∀ ok, e = .serve ok → ok = true := by
    intro e he ok hserve
    subst hserve
    simpa [es] using he
  exact ⟨es, s, ide_refines_atomic twoThreads s es twoThreads_start hok hs, congrArg Prod.fst hv,
    _, congrArg Prod.snd hv⟩

/-! ## Progress -/

/-- Who has asked for a buffer holds its lock, and it is a buffer of the file system. -/
def Atomic.Owned (v : Atomic.State ι n) : Prop :=
  ∀ t served b, v.pc t = .asked served b →
    (v.buf b).lock = some t ∧ (v.buf b).blockno < FSSIZE

/-- At the atomic disk a buffer that has been asked for stays locked by its thread. -/
theorem Atomic.Owned.next {v v' : Atomic.State ι n} {e : Atomic.Event ι n} (h : Owned v)
    (hok : ∀ t b, e = .call t b → (v.buf b).blockno < FSSIZE) (hs : Atomic.next v e = some v') :
    Owned v' := by
  -- whoever sets a buffer that somebody has asked for would have asked itself
  have hset : ∀ (u : ι) (b : Fin n) (x : Buf ι), v.pc u = .user →
      (v.buf b).lock = none ∨ (v.buf b).lock = some u →
      Owned { v with buf := Function.update v.buf b x } := by
    intro u b x hu hl t served c ht
    have hc : c ≠ b := by
      rintro rfl
      rcases h t served c ht with ⟨hlock, -⟩
      rcases hl with hl | hl
      · cases hl.symm.trans hlock
      · cases hl.symm.trans hlock
        cases hu.symm.trans ht
    show (Function.update v.buf b x c).lock = some t ∧ _
    simp only [Function.update_of_ne hc]
    exact h t served c ht
  cases e with
  | acquiresleep t b =>
      simp only [Atomic.next] at hs
      split at hs
      · next hc =>
          cases hs
          exact hset t b _ hc.1 (.inl hc.2)
      · cases hs
  | releasesleep t b =>
      simp only [Atomic.next] at hs
      split at hs
      · next hc =>
          cases hs
          exact hset t b _ hc.1 (.inr hc.2)
      · cases hs
  | fill t b x =>
      simp only [Atomic.next] at hs
      split at hs
      · next hc =>
          cases hs
          exact hset t b _ hc.1 hc.2
      · cases hs
  | call t b =>
      simp only [Atomic.next] at hs
      split at hs
      · next hc =>
          cases hs
          intro u served c hu
          by_cases hut : u = t
          · subst hut
            simp only [Function.update_self] at hu
            cases hu
            exact ⟨hc.2.1, hok u b rfl⟩
          · simp only [Function.update_of_ne hut] at hu
            exact h u served c hu
      · cases hs
  | serve =>
      simp only [Atomic.next] at hs
      cases htodo : v.todo with
      | nil =>
          rw [htodo] at hs
          cases hs
      | cons b todo =>
          rw [htodo] at hs
          cases hs
          intro u served c hu
          have hfields : ∀ x : Buf ι, (transfer v.media x).2.lock = x.lock ∧
              (transfer v.media x).2.blockno = x.blockno := by
            intro x
            unfold transfer
            split <;> exact ⟨rfl, rfl⟩
          have hu : (v.pc u).serve b = .asked served c := hu
          have hold : ∃ served', v.pc u = .asked served' c := by
            cases hp : v.pc u with
            | user =>
                rw [hp] at hu
                cases hu
            | asked served' d =>
                rw [hp] at hu
                cases hu
                exact ⟨served', rfl⟩
          rcases hold with ⟨served', hold⟩
          have hc := h u served' c hold
          show (Function.update v.buf b _ c).lock = some u ∧
            (Function.update v.buf b _ c).blockno < FSSIZE
          by_cases hcb : c = b
          · subst hcb
            rw [Function.update_self, (hfields _).1, (hfields _).2]
            exact hc
          · rw [Function.update_of_ne hcb]
            exact hc
  | ret t =>
      simp only [Atomic.next] at hs
      split at hs
      · cases hs
        intro u served c hu
        by_cases hut : u = t
        · subst hut
          simp only [Function.update_self] at hu
          cases hu
        · simp only [Function.update_of_ne hut] at hu
          exact h u served c hu
      · cases hs

omit [DecidableEq ι] in
theorem viewBuf_blockno (s : State ι n) (b : Fin n) :
    (s.viewBuf b).blockno = (s.buf b).blockno := by
  unfold State.viewBuf
  split <;> rfl

/-- In a sound run, every request waited for can be served. -/
theorem sound_inv (hr : ReachOk Start next Sound s) : Inv s ∧ Atomic.Owned s.view := by
  refine hr.invariant (fun s => Inv s ∧ Atomic.Owned s.view) ?_ ?_
  · intro s h
    refine ⟨h.inv, ?_⟩
    intro t served b ht
    have hu : s.view.pc t = .user := by
      show s.viewPc (s.pc t) = .user
      rw [h.2.2.2 t]
      rfl
    cases hu.symm.trans ht
  · rintro s e s' ⟨h, ho⟩ hok hs
    have hx : exec Atomic.next s.view (shows s e) = some s'.view ∧ Inv s' := by
      refine step_view h ?_ hs
      rintro ok rfl
      exact hok
    refine ⟨hx.2, ?_⟩
    -- a step shows as at most one
    have hlist : shows s e = [] ∨ ∃ f, shows s e = [f] ∧
        ∀ t b, f = .call t b → (s.view.buf b).blockno < FSSIZE := by
      cases e with
      | iderw t b =>
          refine .inr ⟨_, rfl, ?_⟩
          rintro _ _ ⟨⟩
          exact (viewBuf_blockno s b).symm ▸ hok
      | run t =>
          simp only [shows]
          cases s.pc t with
          | user => exact .inl rfl
          | wait a b =>
              by_cases hd : (s.buf b).done = true
              · exact .inr ⟨.ret t, if_pos hd, fun _ _ hf => by cases hf⟩
              · exact .inl (if_neg hd)
      | kill t => exact .inl rfl
      | ideintr => exact .inl rfl
      | acquiresleep t b => exact .inr ⟨_, rfl, fun _ _ hf => by cases hf⟩
      | releasesleep t b => exact .inr ⟨_, rfl, fun _ _ hf => by cases hf⟩
      | fill t b x => exact .inr ⟨_, rfl, fun _ _ hf => by cases hf⟩
      | serve ok => exact .inr ⟨_, rfl, fun _ _ hf => by cases hf⟩
    rcases hlist with hf | ⟨f, hf, hcall⟩
    · rw [hf, exec_nil, Option.some.injEq] at hx
      rw [← hx.1]
      exact ho
    · rw [hf, exec_cons, Option.bind_eq_some_iff] at hx
      rcases hx.1 with ⟨v, hv, hv'⟩
      cases hv'
      exact ho.next hcall hv

/-- What the controller and the handler have left to do. -/
def State.work (s : State ι n) : Nat :=
  2 * s.queue.length - if s.ctl.command.isNone = true then 1 else 0

/-- A thread asleep in `iderw` is never forgotten: its request is in the queue, and
the controller or the interrupt handler has a step to take that brings the end of
the queue nearer. -/
theorem ide_progress (s : State ι n) (hr : ReachOk Start next Sound s) (t : ι) (b : Fin n)
    (hpc : s.pc t = .wait true b) :
    b ∈ s.queue ∧ ∃ e s', (e = .serve true ∨ e = .ideintr) ∧ next s e = some s' ∧
      s'.work + 1 = s.work := by
  rcases sound_inv hr with ⟨h, ho⟩
  have hb : b ∈ s.queue := by
    rcases (h.waiting t true b hpc).2 with hb | ⟨-, ha⟩
    · exact hb
    · cases ha
  have hpos : 0 < s.queue.length := List.length_pos_of_mem hb
  refine ⟨hb, ?_⟩
  cases hcmd : s.ctl.command with
  | some cmd =>
      -- the controller can finish
      have hserve : ∃ c, s.ctl.serve true = some c ∧ c.command = none := by
        unfold Controller.serve
        rw [hcmd]
        cases cmd <;> exact ⟨_, rfl, rfl⟩
      rcases hserve with ⟨c, hc, hnone⟩
      refine ⟨_, _, .inl rfl, congrArg (Option.map _) hc, ?_⟩
      show 2 * s.queue.length - (if c.command.isNone = true then 1 else 0) + 1 =
        2 * s.queue.length - if s.ctl.command.isNone = true then 1 else 0
      rw [hnone, hcmd]
      simp only [Option.isNone_none, if_true, Option.isNone_some, Bool.false_eq_true, if_false]
      omega
  | none =>
      -- it has, and the handler can run
      have hq : s.idequeue ≠ none := by
        intro hq
        rw [h.queue_nil hq] at hb
        cases hb
      rcases Option.ne_none_iff_exists'.1 hq with ⟨d, hd⟩
      rcases h.active d hd with ⟨hbusy, -⟩ | ⟨-, hirq, -⟩
      · cases hcmd.symm.trans hbusy
      · have hrun : ∃ s', ideintr { s with ctl := { s.ctl with irq := false } } = some s' := by
          unfold ideintr
          simp only [hd, hcmd, Option.isSome_none, Bool.false_eq_true, and_false, if_false]
          cases hn : s.qnext d with
          | none => exact ⟨_, rfl⟩
          | some c =>
              rcases h.queue_cons hd with ⟨l, hl, hchain, hdl⟩
              have hc : c ∈ l := by
                rw [hn] at hchain
                cases l with
                | nil => cases hchain
                | cons e l =>
                    cases hchain.1
                    exact List.mem_cons_self
              have hcd : c ≠ d := by
                rintro rfl
                exact hdl hc
              rcases (h.queued c (by rw [hl]; exact List.mem_cons_of_mem _ hc)).2 with
                ⟨u, a, -, hu⟩
              have hv : s.view.pc u = .asked (s.viewBuf c).done c := by
                show s.viewPc (s.pc u) = _
                rw [hu]
                rfl
              have hroom : (s.buf c).blockno < FSSIZE := by
                rw [← viewBuf_blockno]
                exact (ho u _ c hv).2
              simp only [Function.update_of_ne hcd]
              exact ⟨_, congrArg (Option.map _) (idestart_iff.2 ⟨hroom, rfl, rfl⟩)⟩
        rcases hrun with ⟨s', hs'⟩
        have hx := (ideintr_view h hirq hs').2.2
        refine ⟨.ideintr, s', .inr rfl, (if_pos hirq).trans hs', ?_⟩
        have hlen : s'.queue.length = s.queue.length - 1 := by rw [hx.1, List.length_tail]
        unfold State.work
        rw [hcmd, hlen]
        by_cases hnil : s'.queue = []
        · rw [hnil, List.length_nil] at hlen
          simp only [Option.isNone_none, if_true]
          omega
        · rw [hx.2 hnil]
          have hne : 0 < s'.queue.length := List.length_pos_iff.2 hnil
          simp only [Option.isNone_none, if_true, Bool.false_eq_true, if_false]
          omega

/-- A read has just been asked for. -/
theorem ide_progress_read : ∃ s : State (Fin 2) 2, s.pc 0 = .wait true 0 ∧
    ∃ e s', (e = .serve true ∨ e = .ideintr) ∧ next s e = some s' ∧ s'.work + 1 = s.work := by
  have hrun : ((next twoThreads (.acquiresleep 0 0)).bind fun s =>
      (next s (.iderw 0 0)).map fun s' => (s'.pc 0, (s.buf 0).blockno)) =
        some (.wait true 0, 0) := by
    decide +kernel
  rcases Option.bind_eq_some_iff.1 hrun with ⟨s1, hs1, hrun⟩
  rcases Option.map_eq_some_iff.1 hrun with ⟨s2, hs2, hv⟩
  have hblock : (s1.buf 0).blockno < FSSIZE := by
    rw [show (s1.buf 0).blockno = 0 from congrArg Prod.snd hv]
    decide
  have hsound : Sound twoThreads (.acquiresleep 0 0) := trivial
  have hsound1 : Sound s1 (.iderw 0 0) := hblock
  have h1 : ReachOk Start next Sound s1 := .step (.init twoThreads_start) hsound hs1
  have h2 : ReachOk Start next Sound s2 := .step h1 hsound1 hs2
  have hpc : s2.pc 0 = .wait true 0 := congrArg Prod.fst hv
  exact ⟨s2, hpc, (ide_progress s2 h2 0 0 hpc).2⟩

end

/-! ## The driver below the buffer cache -/

section

variable {x : Buf ι}

/-- A buffer as the buffer cache knows it. -/
structure Same (b : Log.Buf) (x : Buf ι) : Prop where
  valid : x.valid = b.valid
  dirty : x.dirty = b.dirty
  dev : x.dev = b.dev
  blockno : x.blockno = b.blockno
  data : x.data = b.data

omit [DecidableEq ι] in
/-- The `iderw` that the buffer cache and the log rest on is what the driver does when it
serves a request. -/
theorem transfer_iderw {s : Log.St} {i : Log.Bidx} {media : Nat → Nat → Block}
    (hx : Same (s.buf i) x) (hdisk : media (x.dev % 2) = s.disk) (hl : (s.buf i).locked = true)
    (hd : x.done = false) (hb : x.blockno < FSSIZE) :
    Prog.Ends (Log.iderw i) s fun _ s' =>
      (Atomic.transfer media x).1 (x.dev % 2) = s'.disk ∧
        Same (s'.buf i) (Atomic.transfer media x).2 := by
  have hb' : (s.buf i).blockno < FSSIZE := hx.blockno ▸ hb
  unfold Atomic.transfer
  -- a dirty buffer is written, and an invalid one is read
  by_cases hdirty : x.dirty = true
  · rw [if_pos hdirty, Prog.Ends, Log.wp_iderw_write hl (hx.dirty ▸ hdirty) hb']
    constructor
    · show store media (x.dev % 2) x.blockno x.data (x.dev % 2) =
        Function.update s.disk (s.buf i).blockno (s.buf i).data
      rw [store, Function.update_self, hdisk, hx.blockno, hx.data]
    · constructor <;> simp [Log.St.setBuf, hx.dev, hx.blockno, hx.data]
  · have hclean : (s.buf i).dirty = false := by
      rw [← hx.dirty]
      simpa using hdirty
    have hinvalid : (s.buf i).valid = false := by
      unfold Buf.done at hd
      rw [← hx.valid]
      simpa [hdirty] using hd
    rw [if_neg hdirty, Prog.Ends, Log.wp_iderw_read hl hinvalid hclean hb']
    refine ⟨hdisk, ?_⟩
    rw [hdisk]
    constructor <;> simp [Log.St.setBuf, hx.dev, hx.blockno]

end

end Xv6.Dev.Ide
