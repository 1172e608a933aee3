import Xv6.Thread.Program
import Xv6.Thread.Spec

/-!
# Forgetting the bytes

Each function of `Program.lean` does to the kernel what the function of the same
name does in `Vm.lean` and `Exec.lean`, so that what is proved there of the page
tables and the slots holds with the bytes as well.

The relation is `Covers` of `Lib.Zoom`, with the tables as the part and the bytes,
names and trap frames as the rest. `execWith_covers` is the result for both calls.
It goes one way: whenever the call with the bytes returns, so does the other, with
the same result and the same tables; it can stop where the bytes matter.
-/

namespace Xv6.Thread.Program

open Xv6.Lib Prog

variable {pd : PageDir} {ip : Inode}

theorem onList_covers {α : Type} (x : KM α) : Covers Ram.part Eq (onList x) x := Covers.zoom x

/-- The loop of `allocuvm`, with the memory and without. -/
theorem allocFrom_covers {oldsz newsz n v : Nat} :
    Covers Ram.part Eq (allocFrom oldsz newsz n v pd) (Thread.allocFrom oldsz newsz n v pd) := by
  induction n generalizing v pd with
  | zero => exact .pure rfl
  | succ n ih =>
      unfold allocFrom Thread.allocFrom
      refine .ite (fun _ => .pure rfl) fun _ => (onList_covers _).bind ?_
      rintro r _ rfl
      cases r with
      | none =>
          refine (onList_covers _).bind ?_
          rintro r _ rfl
          exact .pure rfl
      | some mem =>
          refine .modify (fun _ => rfl) ((onList_covers _).bind ?_)
          rintro ⟨pd', ok⟩ _ rfl
          refine .ite (fun _ => ?_) fun _ => ih
          refine (onList_covers _).bind ?_
          rintro r _ rfl
          refine (onList_covers _).bind ?_
          rintro _ _ rfl
          exact .pure rfl

theorem allocuvm_covers {oldsz newsz : Nat} :
    Covers Ram.part Eq (allocuvm pd oldsz newsz) (Thread.allocuvm pd oldsz newsz) := by
  unfold allocuvm Thread.allocuvm
  exact .ite (fun _ => .pure rfl) fun _ => .ite (fun _ => .pure rfl) fun _ => allocFrom_covers

/-- A program header as `Exec.lean` has it. -/
def SegHdr.toProgHdr (ip : Inode) (ph : SegHdr) : ProgHdr where
  load := ph.type = ELF_PROG_LOAD
  vaddr := ph.vaddr
  memsz := ph.memsz
  filesz := ph.filesz
  reads := fun i => (readi ip (toUint (ph.off + i * PGSIZE)) (ph.chunk i)).any
    fun bs => bs.length = ph.chunk i

/-- The loop of `loaduvm`. By induction on the pages. -/
theorem loadFrom_covers {ph : SegHdr} {n i : Nat} :
    Covers Ram.part Eq (loadFrom pd ip ph n i) (Thread.loadFrom pd (ph.toProgHdr ip) n i) := by
  induction n generalizing i with
  | zero => exact .pure rfl
  | succ n ih =>
      unfold loadFrom Thread.loadFrom
      refine (onList_covers _).bind ?_
      rintro ⟨_, found⟩ _ rfl
      by_cases hf : found = false
      · simp only [if_pos hf]
        exact .throw _
      simp only [if_neg hf]
      cases hr : readi ip (toUint (ph.off + i * PGSIZE)) (ph.chunk i) with
      | none =>
        have : (ph.toProgHdr ip).reads i = false := by simp [SegHdr.toProgHdr, hr]
        simp only [this, if_true]
        exact .pure rfl
      | some bs =>
        have : (ph.toProgHdr ip).reads i = decide (bs.length = ph.chunk i) :=
          by simp [SegHdr.toProgHdr, hr]
        simp only [this, decide_eq_false_iff_not]
        exact .modify (fun _ => rfl) (.ite (fun _ => .pure rfl) fun _ => ih)

/-- `loaduvm` takes the header as the other model has it. -/
theorem loaduvm_covers {ph : SegHdr} :
    Covers Ram.part Eq (loaduvm pd ip ph) (Thread.loaduvm pd (ph.toProgHdr ip)) := by
  unfold loaduvm Thread.loaduvm
  by_cases ha : ph.vaddr % PGSIZE ≠ 0
  · rw [if_pos ha]
    exact .throw _
  · rw [if_neg ha, if_neg (by simpa [SegHdr.toProgHdr] using ha)]
    exact loadFrom_covers

/-- The program headers of the file, `n` of them from offset `off` on. -/
def phdrsOf (ip : Inode) : Nat → Nat → List (Option ProgHdr)
  | 0, _ => []
  | n + 1, off =>
      ((readStruct ip off SIZEOF_PROGHDR).map fun bs => (SegHdr.ofBytes bs).toProgHdr ip) ::
        phdrsOf ip n (toUint (off + SIZEOF_PROGHDR))

/-- Loading the segments. By induction on the headers. -/
theorem loadProgram_covers {n off sz : Nat} :
    Covers Ram.part Eq (loadProgram ip n off pd sz)
      (Thread.loadProgram (phdrsOf ip n off) pd sz) := by
  induction n generalizing off pd sz with
  | zero => exact .pure rfl
  | succ n ih =>
      unfold loadProgram phdrsOf
      cases hr : readStruct ip off SIZEOF_PROGHDR with
      | none => exact .pure rfl
      | some bs =>
          have hload : ((SegHdr.ofBytes bs).toProgHdr ip).load =
              decide ((SegHdr.ofBytes bs).type = ELF_PROG_LOAD) := rfl
          rw [Option.map_some, Thread.loadProgram]
          simp only [hload, decide_eq_false_iff_not]
          refine .ite (fun _ => ih) fun _ => .ite (fun _ => .pure rfl) fun _ => ?_
          refine .ite (fun _ => .pure rfl) fun _ => allocuvm_covers.bind ?_
          rintro ⟨pd', sz'⟩ _ rfl
          refine .ite (fun _ => .pure rfl) fun _ => .ite (fun _ => .pure rfl) fun _ => ?_
          refine loaduvm_covers.bind ?_
          rintro b _ rfl
          exact .ite (fun _ => .pure rfl) fun _ => ih

/-- `uva2ka` gives an address where the other model says that there is one. -/
theorem uva2ka_isSome {v : Nat} {m : Kmem} {Q : Bool → Kmem → Prop} {E : Stop → Prop}
    (h : wp (Thread.uva2ka pd v) m Q E) :
    wp (uva2ka pd v) m (fun r m' => Q r.isSome m') E := by
  unfold Thread.uva2ka at h
  unfold uva2ka
  by_cases hk : kmapped v = true
  · rw [if_pos hk, wp_pure] at h ⊢
    exact h
  rw [if_neg hk, wp_bind] at h ⊢
  refine h.mono ?_ fun _ he => he
  rintro ⟨_, found⟩ m' h
  dsimp only at h ⊢
  by_cases hf : found = false
  · rw [if_pos hf] at h ⊢
    rw [wp_bind, wp_throw] at h ⊢
    exact h
  · rw [if_neg hf, wp_pure] at h ⊢
    have hu : (((pd.entry v).filter Pte.user).map fun e => P2V e.pa).isSome =
        (pd.entry v).any fun e => e.user := by
      cases pd.entry v with
      | none => rfl
      | some e => cases hu : e.user <;> simp [hu]
    rwa [hu]

theorem copyoutFrom_nil {n va : Nat} : copyoutFrom pd n va [] = pure true := by
  cases n <;> rfl

/-- The loop of `copyout`: one page of the other model for each piece. -/
theorem copyoutFrom_covers {n va : Nat} {buf : List UInt8} (hn : buf.length ≤ n) (hbuf : buf ≠ []) :
    Covers Ram.part Eq (copyoutFrom pd n va buf)
      (Thread.copyoutFrom pd (pages (va % PGSIZE + buf.length)) (va / PGSIZE)) := by
  induction n generalizing va buf with
  | zero => exact absurd (List.length_eq_zero_iff.1 (by omega)) hbuf
  | succ n ih =>
      have h0 : 0 < buf.length := List.length_pos_iff.2 hbuf
      have hm : va % PGSIZE < PGSIZE := Nat.mod_lt _ (by decide)
      -- the first page, and what is left for the pages after it
      obtain ⟨k, hk⟩ : ∃ k, pages (va % PGSIZE + buf.length) = k + 1 := by
        refine ⟨pages (va % PGSIZE + buf.length) - 1, ?_⟩
        unfold pages PGSIZE at *
        omega
      rw [hk]
      unfold copyoutFrom Thread.copyoutFrom
      rw [if_neg hbuf]
      intro r Q hQ
      rw [wp_bind] at hQ ⊢
      refine (onList_covers _ r _ (uva2ka_isSome hQ)).mono ?_ fun _ he => he
      rintro pa0 r1 ⟨_, rfl, hQ⟩
      cases pa0 with
      | none =>
          rw [Option.isSome_none, if_pos rfl, wp_pure] at hQ
          exact (wp_pure ..).2 ⟨false, rfl, hQ⟩
      | some pa0 =>
          rw [Option.isSome_some, if_neg (by decide)] at hQ
          suffices hrest : Covers Ram.part Eq
              (copyoutFrom pd n ((va / PGSIZE + 1) % 2 ^ 20 * PGSIZE)
                (buf.drop (PGSIZE - va % PGSIZE)))
              (Thread.copyoutFrom pd k ((va / PGSIZE + 1) % 2 ^ 20)) by
            refine Covers.modify ?_ hrest r1 Q hQ
            exact fun _ => rfl
          by_cases hlast : buf.length ≤ PGSIZE - va % PGSIZE
          · have hk0 : k = 0 := by
              unfold pages PGSIZE at *
              omega
            rw [List.drop_eq_nil_of_le hlast, copyoutFrom_nil, hk0]
            exact .pure rfl
          · have hne : buf.drop (PGSIZE - va % PGSIZE) ≠ [] := by
              simpa using hlast
            have hlen : (buf.drop (PGSIZE - va % PGSIZE)).length ≤ n := by
              rw [List.length_drop]
              omega
            have hva := @ih ((va / PGSIZE + 1) % 2 ^ 20 * PGSIZE) _ hlen hne
            have hpages : pages ((va / PGSIZE + 1) % 2 ^ 20 * PGSIZE % PGSIZE +
                (buf.drop (PGSIZE - va % PGSIZE)).length) = k := by
              rw [List.length_drop, Nat.mul_mod_left]
              unfold pages PGSIZE at *
              omega
            rwa [hpages, Nat.mul_div_cancel _ (by decide : 0 < PGSIZE)] at hva

/-- `copyout` depends on the length of its bytes alone, as far as the allocator goes. -/
theorem copyout_covers {va : Nat} {buf : List UInt8} :
    Covers Ram.part Eq (copyout pd va buf) (Thread.copyout pd va buf.length) := by
  unfold copyout Thread.copyout
  by_cases hbuf : buf = []
  · subst hbuf
    exact .pure rfl
  · rw [if_neg (by simpa using hbuf)]
    exact copyoutFrom_covers le_rfl hbuf

theorem CString.length_bytes (s : CString) : s.bytes.length = s.strlen + 1 := by
  simp [CString.bytes, CString.strlen]

/-- Pushing the strings. By induction on them. -/
theorem pushArgs_covers {argv : List CString} {sp : Nat} {ustack : List Nat} :
    Covers Ram.part
      (fun a b => a.map Prod.fst = b ∧ ∀ r ∈ a, r.2.length = ustack.length + argv.length)
      (pushArgs pd argv sp ustack)
      (Thread.pushArgs pd (argv.map CString.strlen) ustack.length sp) := by
  induction argv generalizing sp ustack with
  | nil => exact .pure ⟨rfl, by simp⟩
  | cons s argv ih =>
      unfold pushArgs
      rw [List.map_cons, Thread.pushArgs]
      refine .ite (fun _ => .pure ⟨rfl, by simp⟩) fun _ => ?_
      generalize toUint (sp - (s.strlen + 1)) / 4 * 4 = sp'
      have hcopy : Covers Ram.part Eq (copyout pd sp' s.bytes)
        (Thread.copyout pd sp' (s.strlen + 1)) := by
        rw [← s.length_bytes]
        exact copyout_covers
      refine hcopy.bind ?_
      rintro b _ rfl
      refine .ite (fun _ => .pure ⟨rfl, by simp⟩) fun _ => ?_
      have hrest := @ih sp' (ustack ++ [sp'])
      rw [List.length_append] at hrest
      rwa [List.length_cons, Nat.add_comm argv.length, ← Nat.add_assoc]

/-- Four bytes a word. -/
theorem length_wordBytes (ws : List Nat) : (wordBytes ws).length = ws.length * 4 := by
  induction ws with
  | nil => rfl
  | cons w ws ih =>
      rw [wordBytes, List.flatMap_cons, List.length_append, ← wordBytes, ih, List.length_cons,
        Nat.succ_mul,
        Nat.add_comm]
      rfl

theorem length_ustackOf (argc sp : Nat) (ptrs : List Nat) :
    (ustackOf argc sp ptrs).length = 3 + ptrs.length + 1 := by
  simp [ustackOf]
  omega

/-- The program that the file holds, as `Exec.lean` has it. -/
def elfOf (ip : Inode) : Option Elf :=
  (((readStruct ip 0 SIZEOF_ELFHDR).map ElfHdr.ofBytes).filter fun elf => elf.magic = ELF_MAGIC).map
    fun elf => ⟨phdrsOf ip elf.phnum elf.phoff⟩

/-- What `Exec.lean` keeps of an image. -/
def Built.image (i : Built) : PageDir × Nat := (i.pgdir, i.sz)

/-- `freevm` on the way out. -/
theorem freevm_none :
    Covers Ram.part (fun a b => a.map Built.image = b) (do onList (freevm pd); return none)
      (do freevm pd; return none) := by
  refine (onList_covers _).bind ?_
  rintro _ _ rfl
  exact .pure rfl

/-- Building an image, with its bytes and without. -/
theorem newImage_covers {argv : List CString} {n : Nat} :
    Covers Ram.part (fun a b => a.map Built.image = b) (newImage ip argv n)
      (Thread.newImage (elfOf ip) (argv.map CString.strlen) n) := by
  unfold newImage Thread.newImage elfOf
  cases helf : (readStruct ip 0 SIZEOF_ELFHDR).map ElfHdr.ofBytes with
  | none => exact .pure rfl
  | some elf =>
      dsimp only
      -- the magic number decides in both
      by_cases hm : elf.magic = ELF_MAGIC
      swap
      · rw [if_pos hm, Option.filter_some, decide_eq_false hm]
        exact .pure rfl
      rw [if_neg (not_not.2 hm), Option.filter_some, decide_eq_true hm]
      refine (onList_covers _).bind ?_
      rintro pd _ rfl
      cases pd with
      -- no memory for the page table
      | none => exact .pure rfl
      | some pd =>
          dsimp only
          unfold buildImage
          intro r Q hQ
          simp only [wp_bind] at hQ
          rw [wp_bind]
          refine (loadProgram_covers r _ hQ).mono ?_ fun _ he => he
          rintro ⟨pd1, sz1⟩ r1 ⟨_, rfl, hQ⟩
          cases sz1 with
          | none =>
              simp only [wp_pure] at hQ
              exact freevm_none r1 Q hQ
          | some sz1 =>
              unfold buildStack
              simp only [wp_bind] at hQ ⊢
              refine (allocuvm_covers r1 _ hQ).mono ?_ fun _ he => he
              rintro ⟨pd2, sz2⟩ r2 ⟨_, rfl, hQ⟩
              by_cases hsz : sz2 = 0
              · simp only [if_pos hsz, wp_pure] at hQ ⊢
                exact freevm_none r2 Q hQ
              simp only [if_neg hsz, wp_bind] at hQ ⊢
              refine (onList_covers _ r2 _ hQ).mono ?_ fun _ he => he
              rintro pd3 r3 ⟨_, rfl, hQ⟩
              unfold pushStack at hQ
              simp only [wp_bind] at hQ
              refine (pushArgs_covers r3 _ hQ).mono ?_ fun _ he => he
              rintro r r4 ⟨_, ⟨rfl, hlen⟩, hQ⟩
              cases r with
              | none =>
                  simp only [Option.map_none, wp_pure, if_true] at hQ ⊢
                  exact freevm_none r4 Q hQ
              | some r =>
                  rcases r with ⟨sp, ptrs⟩
                  have hlen : ptrs.length = (argv.map CString.strlen).length := by
                    simpa using hlen _ rfl
                  simp only [Option.map_some, ← hlen, wp_bind] at hQ ⊢
                  have hbuf : (wordBytes (ustackOf ptrs.length sp ptrs)).length =
                    (3 + ptrs.length + 1) * 4 := by
                    rw [length_wordBytes, length_ustackOf]
                  rw [← hbuf] at hQ
                  refine (copyout_covers r4 _ hQ).mono ?_ fun _ he => he
                  rintro copied r5 ⟨_, rfl, hQ⟩
                  by_cases hc : copied = false
                  · simp only [if_pos hc, wp_pure] at hQ ⊢
                    exact freevm_none r5 Q hQ
                  simp only [if_neg hc, wp_pure] at hQ ⊢
                  exact ⟨_, rfl, hQ⟩

/-- A piece on the memory, within the kernel. -/
theorem onRam_covers {α β : Type} {R : α → β → Prop} {x : RM α} {y : KM β}
    (h : Covers Ram.part R x y) : Covers World.part R (onRam x) (onKmem y) := by
  intro w Q hQ
  rw [wp_onKmem] at hQ
  rw [onRam, wp_zoom]
  exact h (World.ram.get w) (fun b m => Q b (w.kernel.setKmem m)) hQ

theorem onKernel_covers {α : Type} (x : M α) : Covers World.part Eq (onKernel x) x := Covers.zoom x

theorem setProc_covers {p : Pidx} {f : Proc → Proc} :
    Covers World.part Eq (setProc p f) (Thread.setProc p f) := by
  intro w Q hQ
  rw [wp_setProc] at hQ
  exact (wp_modify ..).2 ⟨_, rfl, hQ⟩

theorem wp_assign {p : Pidx} {f : Proc → Proc} {w : World} {Q : Unit → World → Prop}
    {E : Stop → Prop} :
    wp (setProc p f) w Q E ↔ Q () { w with kernel := w.kernel.setProc p f } := wp_modify ..

/-- Setting the trap frame. -/
theorem wp_setTf {p : Pidx} {f : TrapFrame → TrapFrame} {w : World} {Q : Unit → World → Prop}
    {E : Stop → Prop} :
    wp (setTf p f) w Q E ↔
      Q () { w with
        trapframe := Function.update w.trapframe (w.kernel.proc p).tf
          (f (w.trapframe (w.kernel.proc p).tf)) } := wp_modify ..

/-- The commit, as `Exec.lean` has it. -/
def commit (p : Pidx) (n : Nat) (i : Built) : M Int := do
  deleteThreads p
  let oldpgdir ← getPgdir p
  Thread.setProc p fun x =>
    { x with
      freed_sz := noFreed, pgdir := some i.pgdir, sz := i.sz, th_sz := i.sz, memlimit := 0
      thread_assign := 1, stacksz := n, thread_id := MAINTH
      main_thread_idx := x.thread_idx }
  Thread.switchuvm p
  onKmem (freevm oldpgdir)
  return 0

/-- Installing the image is the commit of the other model. -/
theorem install_covers {p : Pidx} {path : CString} {n : Nat} {i : Built} :
    Covers World.part Eq (install p path n i) (commit p n i) := by
  unfold install commit
  refine .modify (fun _ => rfl) ((onKernel_covers _).bind ?_)
  rintro _ _ rfl w Q hQ
  unfold getPgdir at hQ
  simp only [wp_bind, wp_get] at hQ
  simp only [wp_bind, wp_get, wp_assign, Kernel.setProc_self, Kernel.setProc_setProc]
  simp only [wp_setTf, onKernel, wp_zoom]
  cases hpd : (w.kernel.proc p).pgdir with
  | none =>
      refine switchuvm_wp ?_ trivial trivial
      rw [freeOld, wp_throw]
      trivial
  | some pd =>
      have hpd' : (World.part.get w).proc p = w.kernel.proc p := rfl
      simp only [hpd', hpd, wp_pure] at hQ
      rw [wp_setProc] at hQ
      refine hQ.mono (fun _ s1 hQ => ?_) fun _ he => he
      refine (onRam_covers (onList_covers _) _ _ hQ).mono ?_ fun _ he => he
      rintro _ w2 ⟨_, rfl, hQ⟩
      exact (wp_pure ..).2 ⟨_, rfl, hQ⟩

/-- `exec2`, once the program is found, is what `Exec.lean` says. -/
theorem execWith_covers {fs : FileSystem} {p : Pidx} {path : CString} {argv : List CString}
    {n : Nat}
    (hip : fs.namei path.chars = some ip) :
    Covers World.part Eq (execWith fs p path argv n) (do
      Thread.setProc p fun x => { x with state := .RUNNING }
      Thread.execWith p (elfOf ip) (argv.map CString.strlen) n) := by
  unfold execWith
  rw [hip]
  refine setProc_covers.bind ?_
  rintro _ _ rfl
  unfold Thread.execWith
  refine (onRam_covers newImage_covers).bind ?_
  rintro img _ rfl
  cases img with
  | none => exact .pure rfl
  | some img => exact install_covers

end Xv6.Thread.Program
