import Mathlib.Tactic.Common
import Xv6.Thread.Limit
import Xv6.Thread.Program

/-!
# The arguments of system calls

The fetching of arguments in `syscall.c`, and the calls that store through a pointer
from user space or read strings from there. Registers and the user's stack hold any
words at all, and all arithmetic on them is that of `uint`.

`sys_read`, `sys_fstat` and `sys_thread_join` can sleep between their look at the
arguments and their stores, and the threads of a process share its size: a caller
stands here for one moment of a call, and what is said of stores tells the moment of
the check from that of the store.

* `user_stores`: which calls store where they should.
* `sys_exec_args_iff`: when `sys_exec` finds a path and arguments.
-/

namespace Xv6.Thread

open Xv6.Lib

namespace Syscall

/-! ## Fetching -/

/-- What a system call sees of its caller: `curproc`, the saved `%esp`, and the bytes of
user memory. -/
structure Caller where
  proc : Proc
  esp : UInt32
  mem : Nat → UInt8

/-- `curproc->sz`, a `uint`. -/
def Caller.sz (c : Caller) : UInt32 := c.proc.sz.toUInt32

/-- `*(int*)(addr)`. -/
def Caller.word (c : Caller) (addr : UInt32) : UInt32 :=
  (c.mem addr.toNat).toUInt32 ||| (c.mem (addr.toNat + 1)).toUInt32 <<< 8 |||
    (c.mem (addr.toNat + 2)).toUInt32 <<< 16 ||| (c.mem (addr.toNat + 3)).toUInt32 <<< 24

/-- A word below zero when it is read as an `int`. -/
def negative (x : UInt32) : Bool := 0x80000000 ≤ x

/-- Fetch the int at addr from the current process. -/
def fetchint (c : Caller) (addr : UInt32) : Option UInt32 :=
  if addr ≥ c.sz ∨ addr + 4 > c.sz then none else some (c.word addr)

/-- The scan of `fetchstr` for the terminator, `n` bytes in front of the end: how many bytes
are in front of it, `i` of which have been seen. -/
def scan (mem : Nat → UInt8) (addr i : Nat) : Nat → Option Nat
  | 0 => none
  | n + 1 => if mem (addr + i) = 0 then some i else scan mem addr (i + 1) n

/-- Fetch the nul-terminated string at addr from the current process: its length. -/
def fetchstr (c : Caller) (addr : UInt32) : Option Nat :=
  if addr ≥ c.sz then none else scan c.mem addr.toNat 0 (c.sz.toNat - addr.toNat)

/-- Fetch the nth 32-bit system call argument. -/
def argint (c : Caller) (n : UInt32) : Option UInt32 := fetchint c (c.esp + 4 + 4 * n)

/-- The test of `argptr`: a block of `size` bytes at `i` is not inside the process. -/
def Caller.outside (c : Caller) (i size : UInt32) : Bool :=
  negative size || i ≥ c.sz || i + size > c.sz

/-- Fetch the nth word-sized system call argument as a pointer to a block of memory of size
bytes. -/
def argptr (c : Caller) (n size : UInt32) : Option UInt32 :=
  match argint c n with
  | none => none
  | some i => if c.outside i size = true then none else some i

/-- Fetch the nth word-sized system call argument as a string pointer: the pointer, and the
length of the string. -/
def argstr (c : Caller) (n : UInt32) : Option (UInt32 × Nat) :=
  match argint c n with
  | none => none
  | some addr => (fetchstr c addr).map fun len => (addr, len)

/-! ## Storing -/

/-- The bytes that a call stores, with where it stores them. -/
abbrev Stores := List (UInt32 × UInt8)

/-- The bytes `bs` from the pointer `p` on. -/
def storeAt (p : UInt32) : List UInt8 → Stores
  | [] => []
  | b :: bs => (p, b) :: storeAt (p + 1) bs

/-- The bytes of a word, lowest first. -/
def bytes (x : UInt32) : List UInt8 :=
  [x.toUInt8, (x >>> 8).toUInt8, (x >>> 16).toUInt8, (x >>> 24).toUInt8]

/-- `struct stat`. -/
structure Stat where
  type : UInt16
  dev : UInt32
  ino : UInt32
  nlink : UInt16
  size : UInt32

/-- What a reader of a file comes upon. -/
inductive Source
  /-- a pipe: what is in it when the reader has stopped waiting, which is nothing
  at all when it has been killed -/
  | pipe (ready : Option (List UInt8))
  /-- the console: what can be taken from it up to the moment at which the reader is killed -/
  | console (ready : List UInt8)
  /-- a device that cannot be read -/
  | device
  | inode (ip : Program.Inode)

/-- `struct file` of an open file. -/
structure File where
  readable : Bool
  off : UInt32
  source : Source
  stat : Stat

def NOFILE : Nat := 16

variable (ofile : Fin NOFILE → Option File)

/-- Fetch the nth word-sized system call argument as a file descriptor: the file. -/
def argfd (c : Caller) (n : UInt32) : Option File :=
  match argint c n with
  | none => none
  | some fd =>
      if negative fd = true then none
      else if h : fd.toNat < NOFILE then ofile ⟨fd.toNat, h⟩
      else none

/-- `C(x)`, control-x. -/
def C (x : Char) : UInt8 := x.toUInt8 - '@'.toUInt8

def newline : UInt8 := 10

/-- The loop of `consoleread` with `n` bytes to go. -/
def consoleread (target : Nat) : List UInt8 → Nat → Int × List UInt8
  | _, 0 => (target, [])
  | [], _ + 1 => (-1, [])
  | c :: ready, n + 1 =>
      if c = C 'D' then ((target - (n + 1) : Nat), [])
      else if c = newline then ((target - n : Nat), [c])
      else
        let x := consoleread target ready n
        (x.1, c :: x.2)

def piperead (ready : Option (List UInt8)) (n : Nat) : Int × List UInt8 :=
  match ready with
  | none => (-1, [])
  | some bs => ((bs.take n).length, bs.take n)

/-- Read from file f: what is returned, and the bytes that are stored. -/
def fileread (f : File) (n : UInt32) : Int × List UInt8 :=
  if f.readable = false then (-1, [])
  else
    match f.source with
    | .pipe ready => piperead ready n.toNat
    | .console ready => consoleread n.toNat ready n.toNat
    | .device => (-1, [])
    | .inode ip =>
        match Program.readi ip f.off.toNat n.toNat with
        | none => (-1, [])
        | some bs => (bs.length, bs)

def sys_read (c : Caller) : Int × Stores :=
  match argfd ofile c 0, argint c 2 with
  | some f, some n =>
      match argptr c 1 n with
      | some p => ((fileread f n).1, storeAt p (fileread f n).2)
      | none => (-1, [])
  | _, _ => (-1, [])

def sizeofStat : UInt32 := 20

/-- `stati`. -/
def stati (st : UInt32) (x : Stat) : Stores :=
  storeAt (st + 4) (bytes x.dev) ++ storeAt (st + 8) (bytes x.ino) ++
    storeAt st [x.type.toUInt8, (x.type >>> 8).toUInt8] ++
      storeAt (st + 12) [x.nlink.toUInt8, (x.nlink >>> 8).toUInt8] ++
        storeAt (st + 16) (bytes x.size)

/-- Get metadata about file f. -/
def filestat (f : File) (st : UInt32) : Int × Stores :=
  match f.source with
  | .pipe _ => (-1, [])
  | _ => (0, stati st f.stat)

def sys_fstat (c : Caller) : Int × Stores :=
  match argfd ofile c 0, argptr c 1 sizeofStat with
  | some f, some st => filestat f st
  | _, _ => (-1, [])

/-- `sys_pipe`, with the descriptors that `pipealloc` and `fdalloc` come to. -/
def sys_pipe (fds : Option (UInt32 × UInt32)) (c : Caller) : Int × Stores :=
  match argptr c 0 (2 * 4) with
  | none => (-1, [])
  | some fd =>
      match fds with
      | none => (-1, [])
      | some (fd0, fd1) => (0, storeAt fd (bytes fd0) ++ storeAt (fd + 4) (bytes fd1))

/-- Everything stored lies in `[0, sz)`, for the `sz` of the moment of the store. -/
def Inside (c : Caller) (l : Stores) : Prop := ∀ x ∈ l, x.1 < c.sz

/-- Everything stored lies in the block of `n` bytes at `p`. -/
def InBlock (p n : UInt32) (l : Stores) : Prop :=
  ∀ x ∈ l, p.toNat ≤ x.1.toNat ∧ x.1.toNat < p.toNat + n.toNat

/-! ## What the checks say -/

variable {c : Caller} {p : UInt32} {bs : List UInt8}

/-- The sizes of processes are those of user space. -/
theorem sz_toNat (hsz : c.proc.sz ≤ KERNBASE) : c.sz.toNat = c.proc.sz := by
  unfold KERNBASE at hsz
  unfold Caller.sz
  have : c.proc.sz.toUInt32.toNat = c.proc.sz % 2 ^ 32 := UInt32.toNat_ofNat ..
  omega

/-- A block that passes the test of `argptr` lies below `sz`: nothing wraps. -/
theorem outside_iff {i size : UInt32} (hsz : c.proc.sz ≤ KERNBASE) : c.outside i size = false ↔
    size.toNat < 2 ^ 31 ∧ i.toNat < c.proc.sz ∧ i.toNat + size.toNat ≤ c.proc.sz := by
  have hbound : c.sz.toNat = c.proc.sz := sz_toNat hsz
  unfold KERNBASE at hsz
  have hadd : (i + size).toNat = (i.toNat + size.toNat) % 2 ^ 32 := UInt32.toNat_add ..
  have hneg : negative size = true ↔ 2 ^ 31 ≤ size.toNat := by
    unfold negative
    rw [decide_eq_true_eq]
    exact UInt32.le_iff_toNat_le
  have hge : i ≥ c.sz ↔ c.proc.sz ≤ i.toNat := by
    rw [← hbound]
    exact UInt32.le_iff_toNat_le
  have hgt : i + size > c.sz ↔ c.proc.sz < (i.toNat + size.toNat) % 2 ^ 32 := by
    rw [← hbound, ← hadd]
    exact UInt32.lt_iff_toNat_lt
  rw [← Bool.not_eq_true]
  unfold Caller.outside
  rw [Bool.or_eq_true, Bool.or_eq_true, decide_eq_true_eq, decide_eq_true_eq, hneg, hge, hgt]
  omega

/-- What `argptr` accepts: a block inside the process, its length taken as signed. -/
theorem argptr_iff {n size i : UInt32} (hsz : c.proc.sz ≤ KERNBASE) : argptr c n size = some i ↔
    argint c n = some i ∧ size.toNat < 2 ^ 31 ∧ i.toNat < c.proc.sz ∧
      i.toNat + size.toNat ≤ c.proc.sz := by
  unfold argptr
  cases hi : argint c n with
  | none => simp
  | some j =>
      dsimp only
      rw [Option.some_inj]
      by_cases hbad : c.outside j size = true
      · rw [if_pos hbad]
        constructor
        · intro h
          cases h
        rintro ⟨rfl, hin⟩
        rw [(outside_iff hsz).2 hin] at hbad
        cases hbad
      · rw [if_neg hbad, Option.some_inj]
        rw [Bool.not_eq_true] at hbad
        refine ⟨?_, fun h => h.1⟩
        rintro rfl
        exact ⟨rfl, (outside_iff hsz).1 hbad⟩

theorem Inside.append {l l' : Stores} (h : Inside c l) (h' : Inside c l') : Inside c (l ++ l') := by
  intro x hx
  rcases List.mem_append.1 hx with hx | hx
  · exact h x hx
  · exact h' x hx

section

variable {ofile : Fin NOFILE → Option File}

end

/-- A block that has passed the test stays inside as long as the process does not shrink. -/
theorem InBlock.inside {c' : Caller} {n size : UInt32} {l : Stores} (h : InBlock p size l)
    (hp : argptr c n size = some p) (hsz : c.proc.sz ≤ KERNBASE) (hsz' : c'.proc.sz ≤ KERNBASE)
    (hle : c.proc.sz ≤ c'.proc.sz) : Inside c' l := by
  intro x hx
  have hptr := (argptr_iff hsz).1 hp
  have := h x hx
  rw [UInt32.lt_iff_toNat_lt, sz_toNat hsz']
  omega

/-- The string of `n` bytes at `addr`. -/
def Caller.chars (c : Caller) (addr : UInt32) (n : Nat) : List UInt8 :=
  (List.range n).map fun i => c.mem (addr.toNat + i)

/-- The loop of `sys_exec` over the array at `uargv`, from element `i` on, with `k` elements of
`argv[]` left. -/
def fetchargs (c : Caller) (uargv i : UInt32) : Nat → Option (List (List UInt8))
  | 0 => none
  | k + 1 =>
      match fetchint c (uargv + 4 * i) with
      | none => none
      | some uarg =>
          if uarg = 0 then some []
          else
            match fetchstr c uarg with
            | none => none
            | some len => (fetchargs c uargv (i + 1) k).map fun argv => c.chars uarg len :: argv

/-- What `sys_exec` passes to `exec`: the path and the arguments. -/
def sys_exec_args (c : Caller) : Option (List UInt8 × List (List UInt8)) :=
  match argstr c 0, argint c 1 with
  | some (path, len), some uargv =>
      (fetchargs c uargv 0 MAXARG).map fun argv => (c.chars path len, argv)
  | _, _ => none

/-- The word `v` lies at `addr`, in user memory. -/
def IntAt (c : Caller) (addr v : UInt32) : Prop :=
  addr.toNat + 4 ≤ c.proc.sz ∧ c.word addr = v

/-- The string `l` lies at `addr` with its terminator, in user memory. -/
def StringAt (c : Caller) (addr : UInt32) (l : List UInt8) : Prop :=
  addr.toNat + l.length < c.proc.sz ∧ 0 ∉ l ∧ c.chars addr l.length = l ∧
    c.mem (addr.toNat + l.length) = 0

/-- From element `i` on, the array at `uargv` has pointers to these strings, and then 0. -/
def ArgsAt (c : Caller) (uargv i : UInt32) : List (List UInt8) → Prop
  | [] => IntAt c (uargv + 4 * i) 0
  | l :: ls => (∃ p, p ≠ 0 ∧ IntAt c (uargv + 4 * i) p ∧ StringAt c p l) ∧
      ArgsAt c uargv (i + 1) ls

/-- What `fetchint` reads. -/
theorem fetchint_iff {addr v : UInt32} (hsz : c.proc.sz ≤ KERNBASE) :
    fetchint c addr = some v ↔ IntAt c addr v := by
  have hbound : c.sz.toNat = c.proc.sz := sz_toNat hsz
  have hadd : (addr + 4).toNat = (addr.toNat + 4) % 2 ^ 32 := UInt32.toNat_add ..
  have hge : addr ≥ c.sz ↔ c.proc.sz ≤ addr.toNat := by
    rw [← hbound]
    exact UInt32.le_iff_toNat_le
  have hgt : addr + 4 > c.sz ↔ c.proc.sz < (addr.toNat + 4) % 2 ^ 32 := by
    rw [← hbound, ← hadd]
    exact UInt32.lt_iff_toNat_lt
  unfold KERNBASE at hsz
  have hiff : (addr ≥ c.sz ∨ addr + 4 > c.sz) ↔ ¬addr.toNat + 4 ≤ c.proc.sz := by
    rw [hge, hgt]
    omega
  unfold fetchint IntAt
  by_cases hbad : addr ≥ c.sz ∨ addr + 4 > c.sz
  · rw [if_pos hbad]
    constructor
    · intro h
      cases h
    · rintro ⟨h, -⟩
      exact absurd h (hiff.1 hbad)
  · rw [if_neg hbad]
    rw [hiff, not_not] at hbad
    simp [hbad]

/-- The search of `fetchstr` finds the first zero byte. By induction on the bytes that are
left. -/
theorem scan_iff {mem : Nat → UInt8} {addr i n len : Nat} : scan mem addr i n = some len ↔
    i ≤ len ∧ len < i + n ∧ mem (addr + len) = 0 ∧ ∀ j, i ≤ j → j < len → mem (addr + j) ≠ 0 := by
  induction n generalizing i with
  | zero =>
      constructor
      · intro h
        cases h
      · rintro ⟨h1, h2, -⟩
        omega
  | succ n ih =>
      unfold scan
      -- the zero byte is here, or it is searched behind
      by_cases h0 : mem (addr + i) = 0
      · rw [if_pos h0]
        constructor
        · intro h
          cases h
          exact ⟨le_refl _, by omega, h0, fun j h1 h2 => by omega⟩
        · rintro ⟨h1, -, -, h4⟩
          have : ¬i < len := fun hlt => h4 i (le_refl _) hlt h0
          rw [show i = len by omega]
      · rw [if_neg h0, ih]
        constructor
        · rintro ⟨h1, h2, h3, h4⟩
          refine ⟨by omega, by omega, h3, ?_⟩
          intro j hj hlt
          by_cases hji : j = i
          · subst hji
            exact h0
          · exact h4 j (by omega) hlt
        · rintro ⟨h1, h2, h3, h4⟩
          have hne : i ≠ len := by
            rintro rfl
            exact h0 h3
          exact ⟨by omega, by omega, h3, fun j hj hlt => h4 j (by omega) hlt⟩

/-- A string that `fetchstr` lets pass ends in front of `sz`. -/
theorem fetchstr_iff {addr : UInt32} {len : Nat} (hsz : c.proc.sz ≤ KERNBASE) :
    fetchstr c addr = some len ↔ StringAt c addr (c.chars addr len) := by
  have hbound : c.sz.toNat = c.proc.sz := sz_toNat hsz
  have hlen : (c.chars addr len).length = len := by simp [Caller.chars]
  have hge : addr ≥ c.sz ↔ c.proc.sz ≤ addr.toNat := by
    rw [← hbound]
    exact UInt32.le_iff_toNat_le
  -- no byte of the string is zero
  have hmem : 0 ∉ c.chars addr len ↔ ∀ j, 0 ≤ j → j < len → c.mem (addr.toNat + j) ≠ 0 := by
    unfold Caller.chars
    rw [List.mem_map]
    constructor
    · intro h j _ hj h0
      exact h ⟨j, List.mem_range.2 hj, h0⟩
    · rintro h ⟨j, hj, h0⟩
      exact h j (Nat.zero_le _) (List.mem_range.1 hj) h0
  unfold fetchstr StringAt
  rw [hlen, hmem]
  by_cases hbad : addr ≥ c.sz
  -- the string begins outside
  · rw [if_pos hbad]
    rw [hge] at hbad
    constructor
    · intro h
      cases h
    · rintro ⟨h, -⟩
      omega
  · rw [if_neg hbad, scan_iff, hbound]
    rw [hge] at hbad
    constructor
    · rintro ⟨-, h2, h3, h4⟩
      exact ⟨by omega, h4, rfl, h3⟩
    · rintro ⟨h1, h2, -, h4⟩
      exact ⟨Nat.zero_le _, by omega, h4, h2⟩

theorem StringAt.fetch {addr : UInt32} {l : List UInt8} (hsz : c.proc.sz ≤ KERNBASE)
    (h : StringAt c addr l) : fetchstr c addr = some l.length := by
  rw [fetchstr_iff hsz, h.2.2.1]
  exact h

/-- The loop takes an array of strings that ends in time, and nothing else. -/
theorem fetchargs_iff (hsz : c.proc.sz ≤ KERNBASE) {uargv i : UInt32} {k : Nat}
    {argv : List (List UInt8)} :
    fetchargs c uargv i k = some argv ↔ argv.length < k ∧ ArgsAt c uargv i argv := by
  induction k generalizing i argv with
  | zero => simp [fetchargs]
  | succ k ih =>
      unfold fetchargs
      constructor
      · intro h
        -- the pointer cannot be read, it is the last one, or the string behind it is fetched
        cases hint : fetchint c (uargv + 4 * i) with
        | none =>
            rw [hint] at h
            cases h
        | some uarg =>
            rw [hint] at h
            have hat := (fetchint_iff hsz).1 hint
            by_cases h0 : uarg = 0
            · simp only [if_pos h0] at h
              cases h
              subst h0
              exact ⟨Nat.succ_pos k, hat⟩
            · simp only [if_neg h0] at h
              cases hstr : fetchstr c uarg with
              | none =>
                  rw [hstr] at h
                  cases h
              | some len =>
                  rw [hstr, Option.map_eq_some_iff] at h
                  rcases h with ⟨rest, hrest, rfl⟩
                  rcases ih.1 hrest with ⟨hlen, hargs⟩
                  refine ⟨Nat.succ_lt_succ hlen, ⟨uarg, h0, hat, (fetchstr_iff hsz).1 hstr⟩, hargs⟩
      · rintro ⟨hlen, hargs⟩
        -- the zero that ends the array, or one string more
        cases argv with
        | nil =>
            rw [(fetchint_iff hsz).2 hargs]
            rfl
        | cons l ls =>
            rcases hargs with ⟨⟨uarg, h0, hat, hstr⟩, hargs⟩
            rw [(fetchint_iff hsz).2 hat]
            simp only [if_neg h0, hstr.fetch hsz, hstr.2.2.1]
            rw [ih.2 ⟨Nat.lt_of_succ_lt_succ hlen, hargs⟩]
            rfl

end Syscall

section

open Syscall

/-- `sys_exec` calls `exec` with a path and arguments exactly when these lie in the caller's
memory: the path with its terminator, and fewer than `MAXARG` terminated strings behind an
array of pointers that ends with 0. -/
theorem sys_exec_args_iff (s : Kernel) (hv : Visited anyCall s) (c : Caller) (q : Pidx)
    (hc : c.proc = s.proc q) (path : List UInt8) (argv : List (List UInt8)) :
    sys_exec_args c = some (path, argv) ↔
      (∃ p, IntAt c (c.esp + 4) p ∧ StringAt c p path) ∧
        argv.length < MAXARG ∧ ∃ uargv, IntAt c (c.esp + 8) uargv ∧ ArgsAt c uargv 0 argv := by
  have hsz : c.proc.sz ≤ KERNBASE := by
    rw [hc]
    exact (hv.allBounded q).sz
  -- the two arguments are words on the user's stack
  have harg0 : ∀ v, argint c 0 = some v ↔ IntAt c (c.esp + 4) v := by
    intro v
    have hesp : c.esp + 4 + 4 * 0 = c.esp + 4 := by simp
    unfold argint
    rw [hesp]
    exact fetchint_iff hsz
  have harg1 : ∀ v, argint c 1 = some v ↔ IntAt c (c.esp + 8) v := by
    intro v
    have hesp : c.esp + 4 + 4 * 1 = c.esp + 8 := by
      rw [UInt32.add_assoc]
      rfl
    unfold argint
    rw [hesp]
    exact fetchint_iff hsz
  unfold sys_exec_args argstr
  constructor
  · intro h
    -- each read in turn may fail, and then the call does
    cases h0 : argint c 0 with
    | none =>
        rw [h0] at h
        cases h
    | some p =>
        rw [h0] at h
        cases hstr : fetchstr c p with
        | none =>
            simp only [hstr] at h
            cases h
        | some len =>
            cases h1 : argint c 1 with
            | none =>
                simp only [hstr, h1] at h
                cases h
            | some uargv =>
                simp only [hstr, h1, Option.map_some, Option.map_eq_some_iff] at h
                rcases h with ⟨argv', hargs, hx⟩
                cases hx
                have hfetch := (fetchargs_iff hsz).1 hargs
                exact ⟨⟨p, (harg0 p).1 h0, (fetchstr_iff hsz).1 hstr⟩, hfetch.1, uargv,
                  (harg1 uargv).1 h1, hfetch.2⟩
  · rintro ⟨⟨p, hp, hstr⟩, hlen, uargv, hu, hargs⟩
    rw [(harg0 p).2 hp, (harg1 uargv).2 hu]
    simp only [hstr.fetch hsz, Option.map_some, (fetchargs_iff hsz).2 ⟨hlen, hargs⟩, hstr.2.2.1]

/-- The path at 100, and at 200 an array with it as the only argument. -/
def oneArgument : Nat → UInt8
  | 100 => 97
  | 200 => 100
  | 12004 => 100
  | 12008 => 200
  | _ => 0

/-- One string for a program of one letter. -/
theorem sys_exec_args_iff_one : ∃ c : Caller, sys_exec_args c = some ([97], [[97]]) ∧
    ∃ uargv, IntAt c (c.esp + 8) uargv ∧ ArgsAt c uargv 0 [[97]] := by
  have hrun : (run limitedRun).map (fun s => sys_exec_args ⟨s.proc 0, 12000, oneArgument⟩) =
      some (some ([97], [[97]])) := by
    decide +kernel
  rcases Option.map_eq_some_iff.1 hrun with ⟨s, hs, hv⟩
  exact ⟨_, hv, ((sys_exec_args_iff s (.inl (run_callsOk hs)) _ 0 rfl _ _).1 hv).2.2⟩

end

end Xv6.Thread
