import Xv6.Lib.Zoom
import Xv6.Thread.Exec

/-!
# exec and exec2 of Project02 down to the bytes

What `Exec.lean` leaves out: the program file, the bytes of the user pages, the
name of a process and its trap frame. `exec` and `exec2` are two copies of one
text with their statements in different orders; each is written out here as it
stands.

Limits of the model:

* the bytes of a page that is not in use are left out, since nothing reads them
  before they are written. What `kfree` fills a page with matters only where the
  page is the kernel stack in use, and freeing that one is a stop;
* `uva2ka` of a page without a page table is a stop, though the code reads the word
  at user address 0 and may go on. Both copies of `exec` copy out to pages that they
  have just mapped, or to the guard page below them.
-/

namespace Xv6.Thread.Program

open Xv6.Lib Prog

/-! ## Memory -/

/-- The bytes of the pages, by page and offset. -/
abbrev Memory := Nat → Nat → UInt8

/-- `bs` at offset `off` of page `a`. -/
def Memory.put (mem : Memory) (a off : Nat) (bs : List UInt8) : Memory := fun b o =>
  if b = a ∧ off ≤ o then (bs[o - off]?).getD (mem b o) else mem b o

structure Ram where
  kmem : Kmem
  mem : Memory

/-- Code that runs on the free list and on user pages. -/
abbrev RM (α : Type) := Prog Stop Ram α

def Ram.part : Part Ram Kmem where
  get := Ram.kmem
  put := fun r m => { r with kmem := m }
  get_put := fun _ _ => rfl
  put_put := fun _ _ _ => rfl

def onList {α : Type} (x : KM α) : RM α := zoom Ram.part x

/-- `memset` of a page to zero. -/
def memset (a : Nat) : RM Unit :=
  modify fun r => { r with mem := fun b o => if b = a then 0 else r.mem b o }

/-- `memmove` to offset `off` of page `a`. -/
def memmove (a off : Nat) (bs : List UInt8) : RM Unit :=
  modify fun r => { r with mem := r.mem.put a off bs }

/-! ## Strings and words -/

/-- A string in user memory, all of which lies below `KERNBASE`. -/
structure CString where
  chars : List UInt8
  noNul : 0 ∉ chars
  fits : chars.length + 1 < KERNBASE

def CString.strlen (s : CString) : Nat := s.chars.length

/-- The string with its NUL. -/
def CString.bytes (s : CString) : List UInt8 := s.chars ++ [0]

/-- The bytes of a `uint`. -/
def le32 (n : Nat) : List UInt8 :=
  [UInt8.ofNat n, UInt8.ofNat (n / 256), UInt8.ofNat (n / 65536), UInt8.ofNat (n / 16777216)]

/-- The unsigned integer in the `k` bytes of `bs` at `off`. -/
def fieldAt (bs : List UInt8) (off : Nat) : Nat → Nat
  | 0 => 0
  | k + 1 => (bs[off]?.getD 0).toNat + 256 * fieldAt bs (off + 1) k

/-! ## The program file -/

/-- An inode that is not a device. -/
structure Inode where
  data : List UInt8

/-- What `readi` reads; nothing stands for -1. -/
def readi (ip : Inode) (off n : Nat) : Option (List UInt8) :=
  if off > ip.data.length ∨ toUint (off + n) < off then none
  else some ((ip.data.drop off).take n)

/-- `readi` of a whole struct. -/
def readStruct (ip : Inode) (off n : Nat) : Option (List UInt8) :=
  (readi ip off n).filter fun bs => bs.length = n

def SIZEOF_ELFHDR : Nat := 52
def SIZEOF_PROGHDR : Nat := 32
def ELF_MAGIC : Nat := 0x464C457F
def ELF_PROG_LOAD : Nat := 1

/-- `struct elfhdr`, as far as `exec` looks at it. -/
structure ElfHdr where
  magic : Nat
  entry : Nat
  phoff : Nat
  phnum : Nat

def ElfHdr.ofBytes (bs : List UInt8) : ElfHdr where
  magic := fieldAt bs 0 4
  entry := fieldAt bs 24 4
  phoff := fieldAt bs 28 4
  phnum := fieldAt bs 44 2

/-- `struct proghdr`, as far as `exec` looks at it. -/
structure SegHdr where
  type : Nat
  off : Nat
  vaddr : Nat
  filesz : Nat
  memsz : Nat

def SegHdr.ofBytes (bs : List UInt8) : SegHdr where
  type := fieldAt bs 0 4
  off := fieldAt bs 4 4
  vaddr := fieldAt bs 8 4
  filesz := fieldAt bs 16 4
  memsz := fieldAt bs 20 4

/-! ## vm.c, with the bytes -/

/-- The loop of `allocuvm` at page `v`. -/
def allocFrom (oldsz newsz : Nat) : Nat → Nat → PageDir → RM (PageDir × Nat)
  | 0, _, pd => return (pd, newsz)
  | n + 1, v, pd => do
      if ¬ v * PGSIZE < newsz then return (pd, newsz)
      match ← onList kalloc with
      | none => do
          let (pd, _) ← onList (deallocuvm pd newsz oldsz)
          return (pd, 0)
      | some mem => do
          memset mem
          let (pd, ok) ← onList (mappages pd v ⟨V2P mem, true⟩)
          if ok = false then
            let (pd, _) ← onList (deallocuvm pd newsz oldsz)
            onList (kfree mem)
            return (pd, 0)
          allocFrom oldsz newsz n (v + 1) pd

def allocuvm (pd : PageDir) (oldsz newsz : Nat) : RM (PageDir × Nat) := do
  if newsz ≥ KERNBASE then return (pd, 0)
  if newsz < oldsz then return (pd, oldsz)
  allocFrom oldsz newsz (newsz / PGSIZE + 1) (pgUp oldsz) pd

/-- How many bytes of page `i` of the segment the file has. -/
def SegHdr.chunk (ph : SegHdr) (i : Nat) : Nat := min (ph.filesz - i * PGSIZE) PGSIZE

/-- The loop of `loaduvm` from page `i` of the segment on. -/
def loadFrom (pd : PageDir) (ip : Inode) (ph : SegHdr) : Nat → Nat → RM Bool
  | 0, _ => return true
  | n + 1, i => do
      let v := ph.vaddr / PGSIZE + i
      let (_, found) ← onList (walkpgdir pd v false)
      if found = false then throw (.panic "loaduvm: address should exist")
      let pa := ((pd.entry v).map Pte.pa).getD 0
      match readi ip (toUint (ph.off + i * PGSIZE)) (ph.chunk i) with
      | none => return false
      | some bs => do
          memmove (P2V pa) 0 bs
          if bs.length ≠ ph.chunk i then return false
          loadFrom pd ip ph n (i + 1)

def loaduvm (pd : PageDir) (ip : Inode) (ph : SegHdr) : RM Bool := do
  if ph.vaddr % PGSIZE ≠ 0 then throw (.panic "loaduvm: addr must be page aligned")
  loadFrom pd ip ph (pages ph.filesz) 0

/-- The kernel address of user page `v`, if there is one. As in `Vm.lean`, the read through
the null pointer that stands for a missing page table is a stop. -/
def uva2ka (pd : PageDir) (v : Nat) : KM (Option Nat) := do
  if kmapped v = true then return none
  let (_, found) ← walkpgdir pd v false
  if found = false then throw .fault
  return ((pd.entry v).filter Pte.user).map fun e => P2V e.pa

/-- The loop of `copyout`; it runs at most once a byte. -/
def copyoutFrom (pd : PageDir) : Nat → Nat → List UInt8 → RM Bool
  | 0, _, _ => return true
  | n + 1, va, buf => do
      if buf = [] then return true
      match ← onList (uva2ka pd (va / PGSIZE)) with
      | none => return false
      | some pa0 => do
          let k := PGSIZE - va % PGSIZE
          memmove pa0 (va % PGSIZE) (buf.take k)
          copyoutFrom pd n ((va / PGSIZE + 1) % 2 ^ 20 * PGSIZE) (buf.drop k)

def copyout (pd : PageDir) (va : Nat) (buf : List UInt8) : RM Bool :=
  copyoutFrom pd buf.length va buf

/-! ## The loops of exec.c -/

/-- Load program into memory; no size stands for `goto bad`. -/
def loadProgram (ip : Inode) : Nat → Nat → PageDir → Nat → RM (PageDir × Option Nat)
  | 0, _, pd, sz => return (pd, some sz)
  | n + 1, off, pd, sz => do
      match readStruct ip off SIZEOF_PROGHDR with
      | none => return (pd, none)
      | some bs => do
          let ph := SegHdr.ofBytes bs
          let off := toUint (off + SIZEOF_PROGHDR)
          if ph.type ≠ ELF_PROG_LOAD then
            loadProgram ip n off pd sz
          else if ph.memsz < ph.filesz then return (pd, none)
          else if toUint (ph.vaddr + ph.memsz) < ph.vaddr then return (pd, none)
          else
            let (pd, sz) ← allocuvm pd sz (toUint (ph.vaddr + ph.memsz))
            if sz = 0 then return (pd, none)
            if ph.vaddr % PGSIZE ≠ 0 then return (pd, none)
            if (← loaduvm pd ip ph) = false then return (pd, none)
            loadProgram ip n off pd sz

/-- Push argument strings, with `ustack[3 ..]` so far in `ustack`; nothing stands
for `goto bad`. -/
def pushArgs (pd : PageDir) : List CString → Nat → List Nat → RM (Option (Nat × List Nat))
  | [], sp, ustack => return some (sp, ustack)
  | s :: argv, sp, ustack => do
      if ustack.length ≥ MAXARG then return none
      let sp := toUint (sp - (s.strlen + 1)) / 4 * 4
      if (← copyout pd sp s.bytes) = false then return none
      pushArgs pd argv sp (ustack ++ [sp])

/-- What is in `ustack` after the strings are pushed. -/
def ustackOf (argc sp : Nat) (ptrs : List Nat) : List Nat :=
  [0xffffffff, argc, toUint (sp - (argc + 1) * 4)] ++ ptrs ++ [0]

def wordBytes (ws : List Nat) : List UInt8 := ws.flatMap le32

/-! ## exec and exec2 -/

/-- The part of a trap frame that `exec` sets. -/
structure TrapFrame where
  eip : Nat
  esp : Nat

/-- The kernel with what `Kernel` leaves out. -/
structure World where
  kernel : Kernel
  mem : Memory
  /-- `name`, by character -/
  name : Pidx → Nat → UInt8
  /-- the trap frame at an address -/
  trapframe : Nat → TrapFrame

abbrev WM (α : Type) := Prog Stop World α

def World.part : Part World Kernel where
  get := World.kernel
  put := fun w s => { w with kernel := s }
  get_put := fun _ _ => rfl
  put_put := fun _ _ _ => rfl

def World.ram : Part World Ram where
  get := fun w => ⟨w.kernel.kmem, w.mem⟩
  put := fun w r => { w with kernel := w.kernel.setKmem r.kmem, mem := r.mem }
  get_put := fun _ _ => rfl
  put_put := fun _ _ _ => rfl

def onKernel {α : Type} (x : M α) : WM α := zoom World.part x
def onRam {α : Type} (x : RM α) : WM α := zoom World.ram x

/-- Assign to fields of `ptable.proc[p]`. -/
def setProc (p : Pidx) (f : Proc → Proc) : WM Unit :=
  modify fun w => { w with kernel := w.kernel.setProc p f }

/-- Assign to fields of `ptable.proc[p].tf`. -/
def setTf (p : Pidx) (f : TrapFrame → TrapFrame) : WM Unit :=
  modify fun w =>
    let a := (w.kernel.proc p).tf
    { w with trapframe := Function.update w.trapframe a (f (w.trapframe a)) }

/-- What `safestrcpy` writes to 16 characters: its loop copies the NUL of a short
string too, and goes past it. -/
def nameOf (s : List UInt8) : List UInt8 :=
  if s.length < 15 then s ++ [0, 0] else s.take 15 ++ [0]

/-- `safestrcpy` to `ptable.proc[p].name`. -/
def safestrcpy (p : Pidx) (s : List UInt8) : WM Unit :=
  modify fun w =>
    { w with
      name := Function.update w.name p fun i => ((nameOf s)[i]?).getD (w.name p i) }

/-- The part of a path after its last slash. -/
def lastOf : List UInt8 → List UInt8 → List UInt8
  | [], last => last
  | c :: s, last => lastOf s (if c = 47 then s else last)

/-- `freevm` of the directory that the new one replaces. -/
def freeOld : Option PageDir → WM Unit
  | none => throw (.panic "freevm: no pgdir")
  | some pd => onRam (onList (freevm pd))

/-- What `bad:` does once there is a directory. -/
def bad (pgdir : PageDir) : WM Int := do
  onRam (onList (freevm pgdir))
  return -1

/-- The file system, as far as `namei` looks for programs in it. -/
structure FileSystem where
  namei : List UInt8 → Option Inode

def exec (fs : FileSystem) (p : Pidx) (path : CString) (argv : List CString) : WM Int := do
  match fs.namei path.chars with
  | none => return -1
  | some ip => do
      -- curproc must be scheduled.
      setProc p fun x => { x with state := .RUNNING }
      -- Check ELF header
      match (readStruct ip 0 SIZEOF_ELFHDR).map ElfHdr.ofBytes with
      | none => return -1
      | some elf => do
          if elf.magic ≠ ELF_MAGIC then return -1
          match ← onRam (onList setupkvm) with
          | none => return -1
          | some pgdir => do
              -- Load program into memory.
              match ← onRam (loadProgram ip elf.phnum elf.phoff pgdir 0) with
              | (pgdir, none) => bad pgdir
              | (pgdir, some sz) => do
                  -- Allocate two pages at the next page boundary.
                  let sz := PGROUNDUP sz
                  let (pgdir, sz) ← onRam (allocuvm pgdir sz (toUint (sz + (2 * PGSIZE : Nat))))
                  if sz = 0 then bad pgdir
                  else
                    let pgdir ← onRam (onList
                      (clearpteu pgdir (toUint (sz - (2 * PGSIZE : Nat)) / PGSIZE)))
                    -- Push argument strings, prepare rest of stack in ustack.
                    match ← onRam (pushArgs pgdir argv sz []) with
                    | none => bad pgdir
                    | some (sp, ptrs) => do
                        let argc := ptrs.length
                        let ustack := ustackOf argc sp ptrs
                        let sp := toUint (sp - ((3 + argc + 1) * 4 : Nat))
                        let copied ← onRam (copyout pgdir sp (wordBytes ustack))
                        if copied = false then bad pgdir
                        else
                          -- Save program name for debugging.
                          safestrcpy p (lastOf path.chars path.chars)
                          -- Clean up other sibling threads.
                          onKernel (deleteThreads p)
                          setProc p fun x => { x with freed_sz := noFreed }
                          -- Commit to the user image.
                          let w ← get
                          let oldpgdir := (w.kernel.proc p).pgdir
                          setProc p fun x =>
                            { x with
                              pgdir := some pgdir, sz := sz, th_sz := sz, memlimit := 0
                              thread_assign := 1, stacksz := 1, thread_id := MAINTH
                              main_thread_idx := x.thread_idx }
                          setTf p fun f => { f with eip := elf.entry, esp := sp }
                          onKernel (switchuvm p)
                          freeOld oldpgdir
                          return 0

def exec2 (fs : FileSystem) (p : Pidx) (path : CString) (argv : List CString) (stacksize : Int) :
    WM Int := do
  if stacksize < 1 ∨ stacksize > 100 then return -1
  match fs.namei path.chars with
  | none => return -1
  | some ip => do
      -- curproc must be scheduled.
      setProc p fun x => { x with state := .RUNNING }
      -- Check ELF header
      match (readStruct ip 0 SIZEOF_ELFHDR).map ElfHdr.ofBytes with
      | none => return -1
      | some elf => do
          if elf.magic ≠ ELF_MAGIC then return -1
          match ← onRam (onList setupkvm) with
          | none => return -1
          | some pgdir => do
              -- Load program into memory.
              match ← onRam (loadProgram ip elf.phnum elf.phoff pgdir 0) with
              | (pgdir, none) => bad pgdir
              | (pgdir, some sz) => do
                  let stack := (stacksize + 1) * PGSIZE
                  let sz := PGROUNDUP sz
                  let (pgdir, sz) ← onRam (allocuvm pgdir sz (toUint (sz + stack)))
                  if sz = 0 then bad pgdir
                  else
                    let pgdir ← onRam (onList (clearpteu pgdir (toUint (sz - stack) / PGSIZE)))
                    -- Push argument strings, prepare rest of stack in ustack.
                    match ← onRam (pushArgs pgdir argv sz []) with
                    | none => bad pgdir
                    | some (sp, ptrs) => do
                        let argc := ptrs.length
                        let ustack := ustackOf argc sp ptrs
                        let sp := toUint (sp - ((3 + argc + 1) * 4 : Nat))
                        let copied ← onRam (copyout pgdir sp (wordBytes ustack))
                        if copied = false then bad pgdir
                        else
                          -- Save program name for debugging.
                          safestrcpy p (lastOf path.chars path.chars)
                          -- Clean up other sibling threads.
                          onKernel (deleteThreads p)
                          setProc p fun x => { x with freed_sz := noFreed }
                          -- Commit to the user image.
                          let w ← get
                          let oldpgdir := (w.kernel.proc p).pgdir
                          setProc p fun x => { x with pgdir := some pgdir, sz := sz, th_sz := sz }
                          setTf p fun f => { f with eip := elf.entry, esp := sp }
                          setProc p fun x =>
                            { x with
                              memlimit := 0, thread_assign := 1, stacksz := stacksize.toNat
                              thread_id := MAINTH, main_thread_idx := x.thread_idx }
                          onKernel (switchuvm p)
                          freeOld oldpgdir
                          return 0

/-! ## One page of stack -/

/-- Assignments to a process on both sides of one to its trap frame are one
assignment before it. -/
theorem setProc_setTf_setProc {α : Type} {p : Pidx} {f g : Proc → Proc} {t : TrapFrame → TrapFrame}
    (hg : ∀ x, (g x).tf = x.tf) (k : WM α) :
    (do setProc p f; setTf p t; setProc p g; k) =
    (do setProc p fun x => g (f x); setTf p t; k) := by
  funext w
  show k _ = k _
  simp [Kernel.setProc, hg]

/-- `exec` is `exec2` with one page of stack. -/
theorem exec_is_exec2 (fs : FileSystem) (p : Pidx) (path : CString) (argv : List CString) :
    exec fs p path argv = exec2 fs p path argv 1 := by
  unfold exec exec2
  rw [if_neg (by decide)]
  -- what is left to compare is the order of the assignments of the commit
  simp only [setProc_setTf_setProc, implies_true]
  rfl

/-! ## The common form -/

/-- What `newImage` leaves for the commit. -/
structure Built where
  pgdir : PageDir
  sz : Nat
  sp : Nat
  entry : Nat

/-- The stack with its guard page, the strings and `ustack` on it. -/
def buildStack (pgdir : PageDir) (argv : List CString) (sz stack : Nat) :
    RM (PageDir × Option (Nat × Nat)) := do
  let (pgdir, sz) ← allocuvm pgdir sz (toUint (sz + stack))
  if sz = 0 then return (pgdir, none)
  let pgdir ← onList (clearpteu pgdir (toUint (sz - stack) / PGSIZE))
  match ← pushArgs pgdir argv sz [] with
  | none => return (pgdir, none)
  | some (sp, ptrs) => do
      let argc := ptrs.length
      let ustack := ustackOf argc sp ptrs
      let sp := toUint (sp - ((3 + argc + 1) * 4 : Nat))
      let copied ← copyout pgdir sp (wordBytes ustack)
      if copied = false then return (pgdir, none)
      return (pgdir, some (sz, sp))

/-- The new image, or nothing after what was built has been given back. -/
def newImage (ip : Inode) (argv : List CString) (stacksize : Nat) : RM (Option Built) := do
  match (readStruct ip 0 SIZEOF_ELFHDR).map ElfHdr.ofBytes with
  | none => return none
  | some elf => do
      if elf.magic ≠ ELF_MAGIC then return none
      match ← onList setupkvm with
      | none => return none
      | some pgdir => do
          match ← loadProgram ip elf.phnum elf.phoff pgdir 0 with
          | (pgdir, none) => do
              onList (freevm pgdir)
              return none
          | (pgdir, some sz) => do
              match ← buildStack pgdir argv (PGROUNDUP sz) ((stacksize + 1) * PGSIZE) with
              | (pgdir, none) => do
                  onList (freevm pgdir)
                  return none
              | (pgdir, some (sz, sp)) => return some ⟨pgdir, sz, sp, elf.entry⟩

/-- From the name on. -/
def install (p : Pidx) (path : CString) (stacksize : Nat) (img : Built) : WM Int := do
  safestrcpy p (lastOf path.chars path.chars)
  onKernel (deleteThreads p)
  setProc p fun x => { x with freed_sz := noFreed }
  let w ← get
  let oldpgdir := (w.kernel.proc p).pgdir
  setProc p fun x =>
    { x with
      pgdir := some img.pgdir, sz := img.sz, th_sz := img.sz, memlimit := 0
      thread_assign := 1, stacksz := stacksize, thread_id := MAINTH
      main_thread_idx := x.thread_idx }
  setTf p fun f => { f with eip := img.entry, esp := img.sp }
  onKernel (switchuvm p)
  freeOld oldpgdir
  return 0

/-- What `exec` and `exec2` share. -/
def execWith (fs : FileSystem) (p : Pidx) (path : CString) (argv : List CString) (stacksize : Nat) :
    WM Int := do
  match fs.namei path.chars with
  | none => return -1
  | some ip => do
      setProc p fun x => { x with state := .RUNNING }
      match ← onRam (newImage ip argv stacksize) with
      | none => return -1
      | some img => install p path stacksize img

theorem wp_bad {pgdir : PageDir} {w : World} {Q : Int → World → Prop} {E : Stop → Prop} :
    wp (bad pgdir) w Q E ↔
      wp (onList (freevm pgdir)) (World.ram.get w) (fun _ r => Q (-1) (World.ram.put w r)) E := by
  simp only [bad, onRam, wp_bind, wp_zoom, wp_pure]

/-- `exec2` is `execWith` on the stack sizes that it accepts; the order of its statements
makes no difference. -/
theorem exec2_eq {fs : FileSystem} {p : Pidx} {path : CString} {argv : List CString} {n : Nat}
    (hn : 1 ≤ n ∧ n ≤ 100) : exec2 fs p path argv n = execWith fs p path argv n := by
  funext w
  show (exec2 fs p path argv n).run w = (execWith fs p path argv n).run w
  apply run_eq_of_wp
  intro Q E h
  unfold execWith at h
  unfold exec2
  -- the size of the stack is the same number in both
  have hstack : ((n : Int) + 1) * PGSIZE = ((n + 1) * PGSIZE : Nat) := by push_cast; rfl
  rw [if_neg (by omega), hstack]
  cases hip : fs.namei path.chars with
  -- the path leads nowhere
  | none => simpa only [hip] using h
  | some ip =>
      simp only [hip] at h ⊢
      rw [wp_bind] at h ⊢
      refine h.mono (fun _ w1 h => ?_) fun _ he => he
      unfold newImage onRam at h
      rw [wp_bind, wp_zoom] at h
      cases helf : (readStruct ip 0 SIZEOF_ELFHDR).map ElfHdr.ofBytes with
      -- no program: the inode is put in both
      | none =>
          simp only [helf, wp_pure] at h ⊢
          exact h
      | some elf =>
          simp only [helf] at h ⊢
          by_cases hm : elf.magic ≠ ELF_MAGIC
          · simp only [if_pos hm, wp_pure] at h ⊢
            exact h
          rw [if_neg hm] at h ⊢
          simp only [onRam, wp_bind, wp_zoom] at h ⊢
          refine h.mono (fun r r1 h => ?_) fun _ he => he
          cases r with
          | none =>
              simp only [wp_pure] at h ⊢
              exact h
          | some pd =>
              simp only [wp_bind, wp_zoom, Part.get_put, Part.put_put] at h ⊢
              refine h.mono (fun r r2 h => ?_) fun _ he => he
              rcases r with ⟨pd1, _ | sz⟩
              · rw [wp_bad, Part.get_put]
                rw [wp_bind] at h
                simp only [wp_pure] at h
                exact h
              · unfold buildStack at h
                simp only [wp_bind, wp_zoom, Part.get_put, Part.put_put] at h ⊢
                refine h.mono (fun r r3 h => ?_) fun _ he => he
                rcases r with ⟨pd2, sz2⟩
                by_cases hsz : sz2 = 0
                · simp only [if_pos hsz, wp_pure, wp_bind, wp_bad, Part.get_put, Part.put_put]
                    at h ⊢
                  exact h
                simp only [if_neg hsz, wp_bind, wp_zoom, Part.get_put, Part.put_put] at h ⊢
                refine h.mono (fun pd3 r4 h => ?_) fun _ he => he
                refine h.mono (fun r r5 h => ?_) fun _ he => he
                cases r with
                | none =>
                    simp only [wp_pure, wp_bind, wp_bad, Part.get_put, Part.put_put] at h ⊢
                    exact h
                | some r =>
                    rcases r with ⟨sp, ptrs⟩
                    simp only [wp_bind, wp_zoom, Part.get_put, Part.put_put] at h ⊢
                    refine h.mono (fun copied r6 h => ?_) fun _ he => he
                    by_cases hc : copied = false
                    · simp only [if_pos hc, wp_pure, wp_bind, wp_bad, Part.get_put, Part.put_put]
                        at h ⊢
                      exact h
                    simp only [if_neg hc, wp_pure] at h ⊢
                    unfold install at h
                    simp only [setProc_setTf_setProc, implies_true] at h ⊢
                    exact h

end Xv6.Thread.Program
