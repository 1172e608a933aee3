import Mathlib.Algebra.Group.Nat.Defs
import Xv6.Lib.Prog

/-!
# Page tables of Project02

`kalloc.c` and the user half of `vm.c`. A user address is split as the hardware
does: `va / PGSIZE` is a page number `v`, and `v / NPTENTRIES` and
`v % NPTENTRIES` are `PDX` and `PTX`. The contents of user pages are left out,
and so are the entries of the kernel half, which no user operation changes; its
page tables are kept, since they are pages `kalloc` has to find.

The free list is kept in its order, and pages have their kernel addresses, with
`V2P` where the source takes the physical one. `kfree` refuses a page as the source
does; that it fills the page matters where the page is the kernel stack in use, and
`kfreeStack` stops there. The loops over pages are recursions on their number.
-/

namespace Xv6.Thread

open Xv6.Lib

def PGSIZE : Nat := 4096
def NPTENTRIES : Nat := 1024
def KERNBASE : Nat := 0x80000000
def PHYSTOP : Nat := 0xE000000

/-- Why the code does not go on: `panic`, a null pointer is followed, or the kernel
stack that the code runs on has been overwritten. -/
inductive Stop
  | panic (msg : String)
  | fault
  | stack
  deriving DecidableEq

/-! ## kalloc.c -/

/-- `kmem`, with the linker's `end`. A free page lies above it, so its address is
not null. -/
structure Kmem where
  kend : Nat
  kend_pos : 0 < kend
  freelist : List { v : Nat // kend ≤ v }

/-- Code that runs on the free list alone. -/
abbrev KM (α : Type) := Prog Stop Kmem α

def V2P (a : Nat) : Nat := a - KERNBASE
def P2V (a : Nat) : Nat := a + KERNBASE

/-- The junk that `kfree` fills the page with matters where the page is the kernel
stack that the code runs on: `kfreeStack` sees to that. -/
def kfree (v : Nat) : KM Unit := do
  let m ← get
  if h : v % PGSIZE ≠ 0 ∨ v < m.kend ∨ PHYSTOP ≤ V2P v then throw (.panic "kfree")
  else set { m with freelist := ⟨v, by omega⟩ :: m.freelist }

def kalloc : KM (Option Nat) := do
  let m ← get
  match m.freelist with
  | [] => return none
  | r :: l => do
      set { m with freelist := l }
      return some r.1

/-! ## Page tables -/

/-- A present PTE. User pages are always writable. -/
structure Pte where
  pa : Nat
  user : Bool
  deriving DecidableEq

structure PageTable where
  page : Nat
  pte : Nat → Option Pte

/-- A page directory: the page it is in, the page tables of the kernel half and
those of the user half. -/
structure PageDir where
  page : Nat
  ktabs : List Nat
  pde : Nat → Option PageTable

/-- `PGROUNDUP(sz) / PGSIZE`. The sum is a `uint`. -/
def pgUp (sz : Nat) : Nat := (sz + (PGSIZE - 1)) % 2 ^ 32 / PGSIZE

def PGROUNDUP (sz : Nat) : Nat := pgUp sz * PGSIZE

/-- The PTE of page `v`, if it is present. -/
def PageDir.entry (pd : PageDir) (v : Nat) : Option Pte :=
  (pd.pde (v / NPTENTRIES)).bind fun t => t.pte (v % NPTENTRIES)

/-- `*pte = e`; nothing where the page table is missing. -/
def PageDir.setEntry (pd : PageDir) (v : Nat) (e : Option Pte) : PageDir :=
  match pd.pde (v / NPTENTRIES) with
  | none => pd
  | some t =>
      let t := { t with pte := Function.update t.pte (v % NPTENTRIES) e }
      { pd with pde := Function.update pd.pde (v / NPTENTRIES) (some t) }

/-- Install an empty page table for page `v`. -/
def PageDir.setTable (pd : PageDir) (v page : Nat) : PageDir :=
  { pd with pde := Function.update pd.pde (v / NPTENTRIES) (some ⟨page, fun _ => none⟩) }

/-- Whether the page table of page `v` exists afterwards, and the directory. -/
def walkpgdir (pd : PageDir) (v : Nat) (alloc : Bool) : KM (PageDir × Bool) := do
  if (pd.pde (v / NPTENTRIES)).isSome then return (pd, true)
  if alloc = false then return (pd, false)
  match ← kalloc with
  | none => return (pd, false)
  | some page => return (pd.setTable v page, true)

/-- `mappages` for one page, as every mapping of a user page calls it. -/
def mappages (pd : PageDir) (v : Nat) (e : Pte) : KM (PageDir × Bool) := do
  let (pd, found) ← walkpgdir pd v true
  if found = false then return (pd, false)
  if (pd.entry v).isSome then throw (.panic "remap")
  return (pd.setEntry v (some e), true)

/-! ## Sizing the user part -/

/-- The loop of `deallocuvm` at page `v`; where the page table is missing it
goes on with the next one. -/
def deallocFrom (oldsz : Nat) : Nat → Nat → PageDir → KM PageDir
  | 0, _, pd => return pd
  | n + 1, v, pd => do
      if ¬ v * PGSIZE < oldsz then return pd
      let (_, found) ← walkpgdir pd v false
      if found = false then
        deallocFrom oldsz n ((v / NPTENTRIES + 1) * NPTENTRIES) pd
      else match pd.entry v with
        | none => deallocFrom oldsz n (v + 1) pd
        | some e => do
            if e.pa = 0 then throw (.panic "kfree")
            kfree (P2V e.pa)
            deallocFrom oldsz n (v + 1) (pd.setEntry v none)

def deallocuvm (pd : PageDir) (oldsz newsz : Nat) : KM (PageDir × Nat) := do
  if newsz ≥ oldsz then return (pd, oldsz)
  -- the loop runs at most once a page
  let pd ← deallocFrom oldsz (oldsz / PGSIZE + 1) (pgUp newsz) pd
  return (pd, newsz)

/-- The loop of `allocuvm` at page `v`. -/
def allocFrom (oldsz newsz : Nat) : Nat → Nat → PageDir → KM (PageDir × Nat)
  | 0, _, pd => return (pd, newsz)
  | n + 1, v, pd => do
      if ¬ v * PGSIZE < newsz then return (pd, newsz)
      match ← kalloc with
      | none => do
          let (pd, _) ← deallocuvm pd newsz oldsz
          return (pd, 0)
      | some mem => do
          let (pd, ok) ← mappages pd v ⟨V2P mem, true⟩
          if ok = false then
            let (pd, _) ← deallocuvm pd newsz oldsz
            kfree mem
            return (pd, 0)
          allocFrom oldsz newsz n (v + 1) pd

def allocuvm (pd : PageDir) (oldsz newsz : Nat) : KM (PageDir × Nat) := do
  if newsz ≥ KERNBASE then return (pd, 0)
  if newsz < oldsz then return (pd, oldsz)
  allocFrom oldsz newsz (newsz / PGSIZE + 1) (pgUp oldsz) pd

/-- `clearpteu` of page `v`. -/
def clearpteu (pd : PageDir) (v : Nat) : KM PageDir := do
  let (_, found) ← walkpgdir pd v false
  if found = false then throw (.panic "clearpteu")
  return pd.setEntry v ((pd.entry v).map fun e => { e with user := false })

/-! ## Whole page directories -/

def kfreeAll : List Nat → KM Unit
  | [] => pure ()
  | v :: vs => do
      kfree v
      kfreeAll vs

/-- The pages of the page tables of the user half, in the order of the loop. -/
def PageDir.utabs (pd : PageDir) : List Nat :=
  (List.range (KERNBASE / PGSIZE / NPTENTRIES)).filterMap fun i => (pd.pde i).map PageTable.page

def freevm (pd : PageDir) : KM Unit := do
  let (pd, _) ← deallocuvm pd KERNBASE 0
  kfreeAll pd.utabs
  kfreeAll pd.ktabs
  kfree pd.page

/-- The page tables that the mappings of `kmap` need: physical memory up to
`PHYSTOP` from `KERNBASE` on, and the devices from `DEVSPACE` on. -/
def NKTABS : Nat := PHYSTOP / PGSIZE / NPTENTRIES + 8

/-- The calls of `mappages` in `setupkvm`, a page table at a time. -/
def mapKernel : Nat → PageDir → KM (PageDir × Bool)
  | 0, pd => return (pd, true)
  | n + 1, pd => do
      match ← kalloc with
      | none => return (pd, false)
      | some page => mapKernel n { pd with ktabs := pd.ktabs ++ [page] }

def setupkvm : KM (Option PageDir) := do
  match ← kalloc with
  | none => return none
  | some page => do
      let (pd, ok) ← mapKernel NKTABS ⟨page, [], fun _ => none⟩
      if ok = false then
        freevm pd
        return none
      return some pd

/-- The loop of `copyuvm` at page `v`, with `n` pages to go. -/
def copyFrom (pd : PageDir) : Nat → Nat → PageDir → KM (Option PageDir)
  | 0, _, d => return some d
  | n + 1, v, d => do
      let (_, found) ← walkpgdir pd v false
      if found = false then throw (.panic "copyuvm: pte should exist")
      match pd.entry v with
      | none => throw (.panic "copyuvm: page not present")
      | some e =>
          match ← kalloc with
          | none => do
              freevm d
              return none
          | some mem => do
              let (d, ok) ← mappages d v ⟨V2P mem, e.user⟩
              if ok = false then
                kfree mem
                freevm d
                return none
              copyFrom pd n (v + 1) d

/-- The number of `i = 0, PGSIZE, ...` below `sz`. -/
def pages (sz : Nat) : Nat := (sz + (PGSIZE - 1)) / PGSIZE

def copyuvm (pd : PageDir) (sz : Nat) : KM (Option PageDir) := do
  match ← setupkvm with
  | none => return none
  | some d => copyFrom pd (pages sz) 0 d

/-- The page table of page `v` is one of those of the kernel half. -/
def kmapped (v : Nat) : Bool :=
  (KERNBASE / PGSIZE ≤ v && v < (KERNBASE + PHYSTOP) / PGSIZE) || 0xFE000000 / PGSIZE ≤ v

/-- Whether `uva2ka` of page `v` succeeds. The code follows the pointer that `walkpgdir`
returns without a look at it. Where there is no page table it reads the word at user
address 0 of the process that is running, and may go on; that is a stop here. -/
def uva2ka (pd : PageDir) (v : Nat) : KM Bool := do
  if kmapped v = true then return false
  let (_, found) ← walkpgdir pd v false
  if found = false then throw .fault
  return (pd.entry v).any fun e => e.user

/-- The loop of `copyout`, by the pages that `[va, va + len)` touches. -/
def copyoutFrom (pd : PageDir) : Nat → Nat → KM Bool
  | 0, _ => return true
  | n + 1, v => do
      if (← uva2ka pd v) = false then return false
      copyoutFrom pd n ((v + 1) % 2 ^ 20)

/-- Whether `copyout` of `len` bytes to `va` succeeds. -/
def copyout (pd : PageDir) (va len : Nat) : KM Bool := do
  if len = 0 then return true
  copyoutFrom pd (pages (va % PGSIZE + len)) (va / PGSIZE)

end Xv6.Thread
