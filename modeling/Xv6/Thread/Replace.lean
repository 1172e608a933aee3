import Xv6.Thread.Args
import Xv6.Thread.Effect

/-!
# exec replaces the whole process or nothing

A call that fails has written to free pages only. A call that succeeds leaves
the caller alone in its process, provided that the id of the caller tells its
slot from all others: `deleteThreads` spares every slot with that id and takes
apart the slots that do not have it, the caller's own among them.

* `exec_replaces_iff`: a call of `exec` or `exec2` leaves the process as it was
  and returns -1; or it returns 0 with the process replaced, and does so exactly
  when the id tells the slots apart and no sibling has the caller's stack;
* `exec_spares_sibling`: two calls in one time slice, and the second takes the
  caller's own stack.

A call in which the stack is freed that it runs on does not return (`kfree` fills
the page with 1). The states reached by several calls of one slice are connected
with the runs of `Thread.System` by `onCpu_inARow`.
-/

namespace Xv6.Thread.Program

open Xv6.Lib Prog

variable {pd : PageDir} {r : Ram} {F : Nat → Prop} {ip : Inode} {argv : List CString}

/-! ## Only free pages are written -/

/-- The pages `F` have kept their bytes. -/
def Spares (F : Nat → Prop) (r r' : Ram) : Prop := ∀ a, F a → r'.mem a = r.mem a

theorem Spares.rfl' : Spares F r r := fun _ _ => rfl

theorem Spares.trans {r1 r2 r3 : Ram} (h : Spares F r1 r2) (h' : Spares F r2 r3) : Spares F r1 r3 :=
  fun a ha => (h' a ha).trans (h a ha)

/-- The pages of others are not those of the directory. -/
theorem not_frame (h : Owned F pd r.kmem) {a : Nat} (ha : F a) (v : Nat) (e : Pte)
    (he : pd.entry v = some e) : P2V e.pa ≠ a := by
  rintro rfl
  have hheld : pd.pageAt (.page v) = some (P2V e.pa) := by simp [PageDir.pageAt, he]
  cases h.ledger.apart none (some (.page v)) _ ha hheld

/-- A field of some bytes is below their power. -/
theorem fieldAt_lt (bs : List UInt8) (off k : Nat) : fieldAt bs off k < 256 ^ k := by
  induction k generalizing off with
  | zero => exact Nat.one_pos
  | succ k ih =>
      have h1 := (bs[off]?.getD 0).toNat_lt
      have h2 := ih (off + 1)
      rw [fieldAt, Nat.pow_succ]
      omega

/-- Loading a segment writes pages of the new table alone. -/
theorem loadFrom_spares {ph : SegHdr} {n i : Nat} (h : Owned F pd r.kmem)
    (hhas : ∀ j, j < i + n → pd.Has (ph.vaddr / PGSIZE + j)) :
    wp (loadFrom pd ip ph n i) r (fun _ r' => r'.kmem = r.kmem ∧ Spares F r r') fun _ => True := by
  induction n generalizing i r with
  | zero => exact (wp_pure ..).2 ⟨rfl, .rfl'⟩
  | succ n ih =>
      unfold loadFrom
      dsimp only
      rw [wp_bind]
      apply onList_mem
      refine walkpgdir_look fun found _ => ?_
      refine wp_ite (fun _ => (wp_throw ..).2 trivial) fun _ => ?_
      -- the page is there, since the segment was allocated first
      rcases Option.isSome_iff_exists.1 (hhas i (by omega)) with ⟨e, he⟩
      cases readi ip (toUint (ph.off + i * PGSIZE)) (ph.chunk i) with
      | none => exact (wp_pure ..).2 ⟨rfl, .rfl'⟩
      | some bs =>
          dsimp only
          rw [wp_bind, memmove, wp_modify, he, Option.map_some, Option.getD_some]
          have hput : ∀ {r' : Ram}, Spares F { r with mem := r.mem.put (P2V e.pa) 0 bs } r' →
              Spares F r r' := by
            intro r' hr' a ha
            rw [hr' a ha]
            funext o
            apply if_neg
            rintro ⟨rfl, -⟩
            exact not_frame h ha _ e he rfl
          refine wp_ite (fun _ => (wp_pure ..).2 ⟨rfl, hput .rfl'⟩) fun _ => ?_
          have hrest := ih (i := i + 1) (r := ⟨r.kmem, r.mem.put (P2V e.pa) 0 bs⟩) h
            fun j hj => hhas j (by omega)
          refine hrest.mono ?_ fun _ he => he
          rintro _ r' ⟨hk, hs⟩
          exact ⟨hk, hput hs⟩

/-- So does loading all of them. -/
theorem loadProgram_spares {n off sz : Nat} (h : Owned F pd r.kmem) (hi : Image pd sz) :
    wp (loadProgram ip n off pd sz) r
      (fun res r' => Owned F res.1 r'.kmem ∧ Spares F r r' ∧ ∀ sz', res.2 = some sz' →
        Image res.1 sz')
      fun _ => True := by
  induction n generalizing off pd sz r with
  | zero =>
      refine (wp_pure ..).2 ⟨h, .rfl', fun sz' hs => ?_⟩
      cases hs
      exact hi
  | succ n ih =>
      unfold loadProgram
      cases readStruct ip off SIZEOF_PROGHDR with
      | none => exact (wp_pure ..).2 ⟨h, .rfl', by simp⟩
      | some bs =>
          dsimp only
          generalize hph : SegHdr.ofBytes bs = ph
          have hv : ph.vaddr < 2 ^ 32 := by
            rw [← hph]
            exact fieldAt_lt bs 8 4
          have hm : ph.memsz < 2 ^ 32 := by
            rw [← hph]
            exact fieldAt_lt bs 20 4
          refine wp_ite (fun _ => ih h hi) fun _ => ?_
          refine wp_ite (fun _ => (wp_pure ..).2 ⟨h, .rfl', by simp⟩) fun hfile => ?_
          refine wp_ite (fun _ => (wp_pure ..).2 ⟨h, .rfl', by simp⟩) fun hwrap => ?_
          have hend : toUint (ph.vaddr + ph.memsz) = ph.vaddr + ph.memsz := by
            unfold toUint at *
            omega
          rw [hend, wp_bind]
          refine (wp.and (allocuvm_covers r _ (wp.and (allocuvm_own h)
            (allocuvm_any.mono (fun _ _ hr => hr) fun _ _ => trivial))) allocuvm_spares).mono ?_
            fun _ he => he
          rintro ⟨pd1, sz1⟩ r1 ⟨⟨_, rfl, h1, hr⟩, hsp⟩
          have hsp1 : Spares F r r1 := fun a ha => hsp a fun hfree => h.ledger.idle a hfree none ha
          dsimp only at h1 hr ⊢
          refine wp_ite (fun _ => (wp_pure ..).2 ⟨h1, hsp1, by simp⟩) fun hsz1 => ?_
          refine wp_ite (fun _ => (wp_pure ..).2 ⟨h1, hsp1, by simp⟩) fun hal => ?_
          -- whether or not the program grew, its new size covers the segment
          have him : Image pd1 sz1 ∧ ph.vaddr + ph.memsz ≤ sz1 := by
            have hsz := hi.sz_lt
            rcases hr with ⟨hle, hlt, rfl, hg⟩ | ⟨hlt, heq⟩ | ⟨h0, -⟩
            · refine ⟨hi.grown hg (pgUp_eq (by omega)) ?_ hlt, le_rfl⟩
              unfold pages
              exact Nat.div_le_div_right (by omega)
            · cases heq
              exact ⟨hi, by omega⟩
            · exact absurd h0 hsz1
          have hhas : ∀ j, j < 0 + pages ph.filesz → pd1.Has (ph.vaddr / PGSIZE + j) := by
            intro j hj
            rw [him.1.has]
            have := him.2
            unfold pages PGSIZE at *
            omega
          rw [wp_bind, loaduvm, if_neg hal]
          refine (loadFrom_spares h1 hhas).mono ?_ fun _ he => he
          rintro b r2 ⟨hk, hsp2⟩
          have h2 : Owned F pd1 r2.kmem := by
            rw [hk]
            exact h1
          refine wp_ite (fun _ => (wp_pure ..).2 ⟨h2, hsp1.trans hsp2, by simp⟩) fun _ => ?_
          refine (ih h2 him.1).mono ?_ fun _ he => he
          rintro res r3 ⟨h3, hsp3, hi3⟩
          exact ⟨h3, (hsp1.trans hsp2).trans hsp3, hi3⟩

/-- So does pushing the strings. -/
theorem pushArgs_spares {sp : Nat} {ustack : List Nat} (h : Owned F pd r.kmem) :
    wp (pushArgs pd argv sp ustack) r (fun _ r' => r'.kmem = r.kmem ∧ Spares F r r')
      fun _ => True := by
  induction argv generalizing sp ustack r with
  | nil => exact (wp_pure ..).2 ⟨rfl, .rfl'⟩
  | cons s argv ih =>
      unfold pushArgs
      refine wp_ite (fun _ => (wp_pure ..).2 ⟨rfl, .rfl'⟩) fun _ => ?_
      generalize ha : toUint (sp - (s.strlen + 1)) / 4 * 4 = a
      have hlt : a < 2 ^ 32 := by
        unfold toUint at ha
        omega
      dsimp only
      rw [wp_bind]
      refine (copyout_spec hlt).mono ?_ fun _ he => he
      rintro ok r1 ⟨hkm, hoth, -, -⟩
      have hsp1 : Spares F r r1 := fun b hb => hoth b (not_frame h hb)
      refine wp_ite (fun _ => (wp_pure ..).2 ⟨hkm, hsp1⟩) fun _ => ?_
      refine (ih (r := r1) (by rw [hkm]; exact h)).mono ?_ fun _ he => he
      rintro _ r2 ⟨hkm2, hsp2⟩
      exact ⟨hkm2.trans hkm, hsp1.trans hsp2⟩

/-- So does building the stack. -/
theorem buildStack_spares {sz stack : Nat} (h : Owned F pd r.kmem) :
    wp (buildStack pd argv sz stack) r (fun _ r' => Spares F r r') fun _ => True := by
  unfold buildStack
  rw [wp_bind]
  -- the pages for the stack were free, so nobody owned them
  refine (wp.and (allocuvm_covers r _ (allocuvm_own h)) allocuvm_spares).mono ?_ fun _ he => he
  rintro ⟨pd1, sz1⟩ r1 ⟨⟨_, rfl, h1⟩, hsp⟩
  have hsp1 : Spares F r r1 := fun a ha => hsp a fun hfree => h.ledger.idle a hfree none ha
  dsimp only at h1 ⊢
  refine wp_ite (fun _ => (wp_pure ..).2 hsp1) fun _ => ?_
  rw [wp_bind]
  apply onList_mem
  refine (clearpteu_own h1).mono (fun pd2 m h2 => ?_) fun _ he => he
  rw [wp_bind]
  -- the strings go to pages of the new table
  refine (pushArgs_spares (r := ⟨m, r1.mem⟩) h2).mono ?_ fun _ he => he
  rintro res r3 ⟨hkm, hsp3⟩
  have hsp3 : Spares F r r3 := hsp1.trans hsp3
  have h3 : Owned F pd2 r3.kmem := by
    rw [hkm]
    exact h2
  cases res with
  | none => exact (wp_pure ..).2 hsp3
  | some x =>
      rcases x with ⟨sp, ptrs⟩
      dsimp only
      generalize hesp : toUint (sp - ((3 + ptrs.length + 1) * 4 : Nat)) = esp
      have hlt : esp < 2 ^ 32 := by
        unfold toUint at hesp
        omega
      rw [wp_bind]
      -- and so do the words above them
      refine (copyout_spec hlt).mono ?_ fun _ he => he
      rintro ok r4 ⟨-, hoth, -, -⟩
      have hsp4 : Spares F r r4 := hsp3.trans fun b hb => hoth b (not_frame h3 hb)
      exact wp_ite (fun _ => (wp_pure ..).2 hsp4) fun _ => (wp_pure ..).2 hsp4

/-- So does building the image. -/
theorem newImage_spares {n : Nat} (h : Apart F r.kmem) :
    wp (newImage ip argv n) r (fun _ r' => Spares F r r') fun _ => True := by
  -- a failed image is freed, which writes no page that is owned
  have hfree : ∀ {α : Type} {pd : PageDir} {r1 : Ram} (res : α), Spares F r r1 →
      wp (do onList (freevm pd); return res) r1 (fun _ r' => Spares F r r') fun _ => True := by
    intro α pd r1 res h1
    rw [wp_bind]
    apply onList_mem
    exact wp_any fun _ _ => (wp_pure ..).2 h1
  unfold newImage
  cases (readStruct ip 0 SIZEOF_ELFHDR).map ElfHdr.ofBytes with
  | none => exact (wp_pure ..).2 .rfl'
  | some elf =>
      dsimp only
      refine wp_ite (fun _ => (wp_pure ..).2 .rfl') fun _ => ?_
      rw [wp_bind]
      apply onList_mem
      refine (wp.and (setupkvm_own h) (setupkvm_wp.mono (fun _ _ hpd => hpd) fun _ _ =>
        trivial)).mono
        ?_ fun _ he => he
      rintro pgdir m1 ⟨hown, hnil⟩
      cases pgdir with
      | none => exact (wp_pure ..).2 .rfl'
      | some pgdir =>
          have h0 : Image pgdir 0 :=
            ⟨by decide, fun v => by simp [PageDir.Has, hnil pgdir rfl v, pages, PGSIZE]⟩
          dsimp only
          rw [wp_bind]
          refine (loadProgram_spares (r := ⟨m1, r.mem⟩) hown h0).mono ?_ fun _ he => he
          rintro ⟨pd, sz⟩ r2 ⟨hown2, hsp2, -⟩
          cases sz with
          | none => exact hfree none hsp2
          | some sz =>
              dsimp only
              rw [wp_bind]
              refine (buildStack_spares hown2).mono ?_ fun _ he => he
              rintro ⟨pd3, x⟩ r3 hsp3
              have hsp3 : Spares F r r3 := Spares.trans hsp2 hsp3
              cases x with
              | none => exact hfree none hsp3
              | some x => exact (wp_pure ..).2 hsp3

/-! ## What stops the call -/

theorem onList_offStack {α : Type} {x : KM α} (h : Tame x) : OffStack (onList x) := by
  intro r
  unfold onList
  rw [wp_zoom]
  exact (h r.kmem).mono (fun _ _ _ => trivial) fun _ he => he

/-- The loop of `allocuvm` frees no stack that is stood on. -/
theorem allocFrom_offStack {oldsz newsz n v : Nat} :
    OffStack (allocFrom oldsz newsz n v pd) := by
  induction n generalizing v pd with
  | zero => exact .pure _
  | succ n ih =>
      unfold allocFrom
      refine .ite (.pure _) ((onList_offStack kalloc_tame).bind fun mem => ?_)
      cases mem with
      | none => exact (onList_offStack deallocuvm_tame).bind fun _ => .pure _
      | some mem =>
          refine (OffStack.modify _).bind fun _ => (onList_offStack mappages_tame).bind fun x => ?_
          refine .ite ?_ ih
          exact (onList_offStack deallocuvm_tame).bind fun _ =>
            (onList_offStack kfree_tame).bind fun _ => .pure _

theorem allocuvm_offStack {oldsz newsz : Nat} : OffStack (allocuvm pd oldsz newsz) := by
  unfold allocuvm
  exact .ite (.pure _) (.ite (.pure _) allocFrom_offStack)

/-- Nor does loading a segment. -/
theorem loadFrom_offStack {ph : SegHdr} {n i : Nat} : OffStack (loadFrom pd ip ph n i) := by
  induction n generalizing i with
  | zero => exact .pure _
  | succ n ih =>
      unfold loadFrom
      refine (onList_offStack walkpgdir_tame).bind fun x => .ite (.panic _) ?_
      cases readi ip (toUint (ph.off + i * PGSIZE)) (ph.chunk i) with
      | none => exact .pure _
      | some bs => exact (OffStack.modify _).bind fun _ => .ite (.pure _) ih

/-- Nor loading all of them. -/
theorem loadProgram_offStack {n off sz : Nat} : OffStack (loadProgram ip n off pd sz) := by
  induction n generalizing off pd sz with
  | zero => exact .pure _
  | succ n ih =>
      unfold loadProgram
      cases readStruct ip off SIZEOF_PROGHDR with
      | none => exact .pure _
      | some bs =>
          refine .ite ih (.ite (.pure _) (.ite (.pure _) (allocuvm_offStack.bind fun x => ?_)))
          refine .ite (.pure _) (.ite (.pure _) (OffStack.bind ?_ fun _ => .ite (.pure _) ih))
          unfold loaduvm
          exact .ite (.panic _) loadFrom_offStack

/-- Nor `copyout`. -/
theorem copyout_offStack {va : Nat} {buf : List UInt8} : OffStack (copyout pd va buf) := by
  unfold copyout
  generalize buf.length = n
  induction n generalizing va buf with
  | zero => exact .pure _
  | succ n ih =>
      unfold copyoutFrom
      have hpage : Tame (uva2ka pd (va / PGSIZE)) := by
        unfold uva2ka
        exact .ite (.pure _) (walkpgdir_tame.bind fun _ => .ite .fault (.pure _))
      refine .ite (.pure _) ((onList_offStack hpage).bind fun pa0 => ?_)
      cases pa0 with
      | none => exact .pure _
      | some pa0 => exact (OffStack.modify _).bind fun _ => ih

/-- Nor pushing the strings. -/
theorem pushArgs_offStack {sp : Nat} {ustack : List Nat} :
    OffStack (pushArgs pd argv sp ustack) := by
  induction argv generalizing sp ustack with
  | nil => exact .pure _
  | cons s argv ih =>
      unfold pushArgs
      exact .ite (.pure _) (copyout_offStack.bind fun _ => .ite (.pure _) ih)

/-- Nor building the stack. -/
theorem buildStack_offStack {sz stack : Nat} : OffStack (buildStack pd argv sz stack) := by
  unfold buildStack
  refine allocuvm_offStack.bind fun x => .ite (.pure _) ?_
  refine (onList_offStack clearpteu_tame).bind fun _ => pushArgs_offStack.bind fun res => ?_
  cases res with
  | none => exact .pure _
  | some y => exact copyout_offStack.bind fun _ => .ite (.pure _) (.pure _)

/-- Nor building the image. -/
theorem newImage_offStack {n : Nat} : OffStack (newImage ip argv n) := by
  unfold newImage
  cases (readStruct ip 0 SIZEOF_ELFHDR).map ElfHdr.ofBytes with
  | none => exact .pure _
  | some elf =>
      refine .ite (.pure _) ((onList_offStack setupkvm_tame).bind fun pgdir => ?_)
      cases pgdir with
      | none => exact .pure _
      | some pgdir =>
          refine loadProgram_offStack.bind fun x => ?_
          rcases x with ⟨pd, _ | sz⟩
          · exact (onList_offStack freevm_tame).bind fun _ => .pure _
          · refine buildStack_offStack.bind fun y => ?_
            rcases y with ⟨pd, _ | x⟩
            · exact (onList_offStack freevm_tame).bind fun _ => .pure _
            · exact .pure _

/-! ## What the call promises -/

/-- A failed call has left the process as it was, but for `state`, and the bytes
of all pages that were in use. -/
structure Kept (p : Pidx) (w w' : World) : Prop where
  proc : ∃ st, w'.kernel.proc =
    Function.update w.kernel.proc p { w.kernel.proc p with state := st }
  pthread : w'.kernel.pthread = w.kernel.pthread
  name : w'.name = w.name
  trapframe : w'.trapframe = w.trapframe
  mem : ∀ a, a ∉ w.kernel.kmem.pages → w'.mem a = w.mem a

/-- The slots of the other threads of process `p`. -/
def siblings (s : Kernel) (p : Pidx) : List Tidx :=
  (List.finRange NTHRD).filter fun i =>
    (s.pthread i).pid = (s.proc p).pid ∧ i ≠ (s.proc p).thread_idx

/-- The free list once an image is built. -/
def Builds (w : World) (m : Kmem) : Prop :=
  ∃ ip argv n img mem,
    (newImage ip argv n).run ⟨w.kernel.kmem, w.mem⟩ = .ok (some img, ⟨m, mem⟩)

/-- A successful call has left the caller alone in its process. Between the
pages of the new image and those of the old one it has freed the kernel stacks
of the siblings, each once. -/
structure Replaced (p : Pidx) (w w' : World) : Prop where
  alone : ∀ i, (w'.kernel.pthread i).pid = (w.kernel.proc p).pid ↔ i = (w.kernel.proc p).thread_idx
  main : (w'.kernel.proc p).thread_id = MAINTH
  slot : ∀ s, (mvProcToThread p (w.kernel.proc p).thread_idx).run w'.kernel = .ok ((), s) →
    (s.pthread (w.kernel.proc p).thread_idx).thread_id = MAINTH
  thread_assign : (w'.kernel.proc p).thread_assign = 1
  freed_sz : (w'.kernel.proc p).freed_sz = noFreed
  memlimit : (w'.kernel.proc p).memlimit = 0
  gone : ∀ i ∈ siblings w.kernel p, (w'.kernel.pthread i).state = .UNUSED
  freed : ∃ m m' old, Builds w m ∧
    m'.pages = ((siblings w.kernel p).map fun i => (w.kernel.pthread i).kstack).reverse ++ m.pages ∧
    (freevm old).run m' = .ok ((), w'.kernel.kmem)
  children : ∀ q, ∀ i ∈ siblings w.kernel p, (w.kernel.proc q).parent_pthread = some i →
    (w'.kernel.proc q).parent_pthread = some (w.kernel.proc p).thread_idx

/-- The caller's id tells its slot from all others of its process. -/
def Told (s : Kernel) (p : Pidx) : Prop :=
  ∀ i, ((s.pthread i).pid = (s.proc p).pid ∧ (s.pthread i).thread_id = (s.proc p).thread_id) ↔
    i = (s.proc p).thread_idx

/-- No slot that is taken for a sibling's has the stack of the caller. -/
def Unshared (s : Kernel) (p : Pidx) : Prop :=
  ∀ i, sibling (s.proc p).pid (s.proc p).thread_id (s.pthread i) = true →
    (s.pthread i).kstack ≠ (s.proc p).kstack

/-! ## The siblings -/

variable {p : Pidx} {s : Kernel}

/-- The call stops on its own stack only if a slot taken for a sibling's has it. -/
theorem deleteOthers_stops {ths : List Tidx} (hnd : ths.Nodup) :
    wp (deleteOthers p ths) s (fun _ _ => True) (fun e => e = .stack → ∃ i ∈ ths,
      sibling (s.proc p).pid (s.proc p).thread_id (s.pthread i) = true ∧
        (s.pthread i).kstack = (s.proc p).kstack) := by
  induction ths generalizing s with
  | nil => exact (wp_pure ..).2 trivial
  | cons d ths ih =>
      rcases List.nodup_cons.1 hnd with ⟨hd, hnd⟩
      unfold deleteOthers deleteOther
      simp only [wp_bind, wp_get]
      refine wp_ite (fun hsib => ?_) fun _ => ?_
      · unfold deleteThread
        simp only [wp_bind, wp_modify, wp_get]
        -- giving a dead thread's children to the caller changes no identity
        have hsame : ∀ x : Proc, (reparent d (s.proc p).thread_idx x).pid = x.pid ∧
            (reparent d (s.proc p).thread_idx x).thread_id = x.thread_id ∧
              (reparent d (s.proc p).thread_idx x).kstack = x.kstack := by
          intro x
          unfold reparent
          split <;> exact ⟨rfl, rfl, rfl⟩
        rcases hsame (s.proc p) with ⟨h1, h2, h3⟩
        unfold kfreeStack
        rw [wp_bind, wp_onKmem]
        refine kfree_wp (fun m => ?_) ?_
        · rw [wp_bind, wp_get]
          refine wp_ite (fun heq => (wp_throw ..).2 fun _ => ?_) fun _ => ?_
          · exact ⟨d, List.mem_cons_self, by simpa [sibling] using hsib, (h3.symm.trans heq).symm⟩
          · refine (wp_pure ..).2 ((wp_setTh ..).2 ((ih hnd).mono (fun _ _ _ => trivial) ?_))
            intro e he hstack
            rcases he hstack with ⟨i, hi, hsi, hk⟩
            have hid : i ≠ d := by
              rintro rfl
              exact hd hi
            rw [Kernel.setTh_ne hid] at hsi hk
            have hpp : ∀ (m : Kmem) (f : Pthread → Pthread), (((Kernel.setKmem
                { s with proc := fun c => reparent d (s.proc p).thread_idx (s.proc c) } m).setTh
                  d f).proc
                  p) = reparent d (s.proc p).thread_idx (s.proc p) := fun _ _ => rfl
            rw [hpp, h1, h2] at hsi
            rw [hpp, h3] at hk
            exact ⟨i, List.mem_cons_of_mem d hi, hsi, hk⟩
        · rintro e he rfl
          cases he
      -- a slot that is passed over
      · refine (wp_pure ..).2 ((ih hnd).mono (fun _ _ _ => trivial) ?_)
        intro e he hstack
        rcases he hstack with ⟨i, hi, hsi, hk⟩
        exact ⟨i, List.mem_cons_of_mem d hi, hsi, hk⟩

/-! ## The commit -/

/-- Deleting the siblings frees the stack that the call stands on only where a slot that it
deletes has it. -/
theorem deleteThreads_stops :
    wp (deleteThreads p) s (fun _ _ => True) (fun e => e = .stack →
      ∃ i, sibling (s.proc p).pid (s.proc p).thread_id (s.pthread i) = true ∧
        (s.pthread i).kstack = (s.proc p).kstack) := by
  unfold deleteThreads
  rw [wp_bind]
  refine (deleteOthers_stops (List.nodup_finRange _)).mono
    (fun _ _ _ => (wp_setProc ..).2 trivial) ?_
  intro e he hstack
  rcases he hstack with ⟨i, -, hi⟩
  exact ⟨i, hi⟩

/-- Freeing the old page table frees no kernel stack. -/
theorem freeOld_offStack {old : Option PageDir} : OffStack (freeOld old) := by
  cases old with
  | none => exact .panic _
  | some pd =>
      intro w
      unfold freeOld onRam
      rw [wp_zoom]
      exact (onList_offStack freevm_tame _).mono (fun _ _ _ => trivial) fun _ he => he

/-- The assignments of the commit to the process. -/
def committed (n : Nat) (img : Built) (x : Proc) : Proc :=
  { x with
    freed_sz := noFreed, pgdir := some img.pgdir, sz := img.sz, th_sz := img.sz, memlimit := 0
    thread_assign := 1, stacksz := n, thread_id := MAINTH, main_thread_idx := x.thread_idx }

/-- Installing the image: the siblings are deleted and the old table is freed. -/
theorem install_kernel {path : CString} {n : Nat} {img : Built} {w : World} :
    wp (install p path n img) w
      (fun res w' => res = 0 ∧ ∃ s1 old m, (deleteThreads p).run w.kernel = .ok ((), s1) ∧
        (freevm old).run s1.kmem = .ok ((), m) ∧
        w'.kernel = (s1.setProc p (committed n img)).setKmem m)
      fun e => e = .stack → ¬ Unshared w.kernel p := by
  unfold install
  rw [wp_bind, safestrcpy, wp_modify, wp_bind, onKernel, wp_zoom]
  refine (deleteThreads_stops.inter (wp_run fun _ _ hrun => hrun)).mono ?_ ?_
  swap
  · rintro e ⟨he, -⟩ hstack hun
    rcases he hstack with ⟨i, hsib, hk⟩
    exact hun i hsib hk
  rintro _ s1 ⟨-, hdel⟩
  simp only [wp_bind, wp_get, wp_assign, wp_setTf, onKernel, wp_zoom]
  refine switchuvm_wp ?_ (by simp) (by simp)
  refine (freeOld_spec.inter (freeOld_offStack _)).mono ?_ fun e he hstack => absurd hstack he.2
  rintro _ w2 ⟨⟨old, m, -, hfree, rfl⟩, -⟩
  refine (wp_pure ..).2 ⟨rfl, s1, old, m, hdel, hfree, ?_⟩
  show ((s1.setProc p _).setProc p _).setKmem m = _
  rw [Kernel.setProc_setProc]
  rfl

/-- What the deletion of the siblings leaves, if the caller's id tells its slot. -/
theorem deleteThreads_told {s1 : Kernel} (ht : Told s p)
    (hrun : (deleteThreads p).run s = .ok ((), s1)) :
    ∀ q, (s1.proc q).parent_pthread =
      (heir s (s.proc p).pid (s.proc p).thread_id (List.finRange NTHRD) (s.proc p).thread_idx
        (s.proc q)).parent_pthread := by
  have hi : sibling (s.proc p).pid (s.proc p).thread_id
    (s.pthread (s.proc p).thread_idx) = false := by
    have hown := (ht _).2 rfl
    simp [sibling, hown.2]
  have hspec : wp (deleteThreads p) s (fun _ s1 => ∀ q, (s1.proc q).parent_pthread =
      (heir s (s.proc p).pid (s.proc p).thread_id (List.finRange NTHRD) (s.proc p).thread_idx
        (s.proc q)).parent_pthread) fun _ => True := by
    unfold deleteThreads
    rw [wp_bind]
    refine (deleteOthers_heir (List.nodup_finRange _) hi).mono ?_ fun _ he => he
    intro _ s2 hheir
    rw [wp_setProc]
    intro q
    rw [← hheir q]
    by_cases hq : q = p
    · subst hq
      rw [Kernel.setProc_self]
    · rw [Kernel.setProc_ne hq]
  exact hspec.of_ok hrun

/-- The slots after the siblings are deleted. -/
theorem deleteThreads_slots :
    wp (deleteThreads p) s
      (fun _ s' => (∀ j, s'.pthread j =
          if sibling (s.proc p).pid (s.proc p).thread_id (s.pthread j) = true then
            emptied (s.pthread j) else s.pthread j) ∧ Unshared s p ∧
        s'.kmem.pages = (stacksOf s p (List.finRange NTHRD)).reverse ++ s.kmem.pages ∧
        (s'.proc p).thread_idx = (s.proc p).thread_idx) fun _ => True := by
  unfold deleteThreads
  rw [wp_bind]
  refine (deleteOthers_slots (List.nodup_finRange _)).mono ?_ fun _ he => he
  rintro _ s2 ⟨hcl, hpages, hidx⟩
  rw [wp_setProc]
  refine ⟨fun j => ?_, fun j hj => hcl.stack j (List.mem_finRange j) hj, hpages, ?_⟩
  · rw [Kernel.setProc_pthread, hcl.th]
    simp
  · rw [Kernel.setProc_self]
    exact hidx

/-- Only the caller's slot is spared exactly if its id tells it. -/
theorem alone_iff {s1 : Kernel} (hpid : (s.proc p).pid ≠ 0)
    (hth : ∀ j, s1.pthread j =
      if sibling (s.proc p).pid (s.proc p).thread_id (s.pthread j) = true then
        emptied (s.pthread j) else s.pthread j) :
    (∀ i, (s1.pthread i).pid = (s.proc p).pid ↔ i = (s.proc p).thread_idx) ↔ Told s p := by
  have hpidj : ∀ j, (s1.pthread j).pid = (s.proc p).pid ↔
      (s.pthread j).pid = (s.proc p).pid ∧ (s.pthread j).thread_id = (s.proc p).thread_id := by
    intro j
    rw [hth j]
    by_cases hj : sibling (s.proc p).pid (s.proc p).thread_id (s.pthread j) = true
    · rw [if_pos hj]
      simp only [sibling, decide_eq_true_eq] at hj
      constructor
      · intro h0
        exact absurd h0.symm hpid
      · rintro ⟨-, hid⟩
        exact absurd hid hj.2
    · rw [if_neg hj]
      simp only [sibling, decide_eq_true_eq, not_and, not_not] at hj
      exact ⟨fun h => ⟨h, hj h⟩, fun h => h.1⟩
  unfold Told
  simp only [hpidj]

/-! ## All or nothing -/

/-- Where the ids tell the threads apart, the siblings are those that the loop deletes. -/
theorem siblings_eq (ht : Told s p) :
    siblings s p = (List.finRange NTHRD).filter fun i =>
      sibling (s.proc p).pid (s.proc p).thread_id (s.pthread i) := by
  apply List.filter_congr
  intro i _
  have hi := ht i
  unfold sibling
  rw [decide_eq_decide]
  constructor
  · rintro ⟨hpid, hne⟩
    exact ⟨hpid, fun hid => hne (hi.1 ⟨hpid, hid⟩)⟩
  · rintro ⟨hpid, hne⟩
    refine ⟨hpid, ?_⟩
    intro heq
    exact hne (hi.2 heq).2

/-- A call that succeeds replaces the process exactly if the caller's id tells it. -/
theorem replaced_iff {n : Nat} {img : Built} {w w' : World} {s1 : Kernel} {old : PageDir} {m : Kmem}
    {k : Kernel} (hpid : (w.kernel.proc p).pid ≠ 0) (hpth : k.pthread = w.kernel.pthread)
    (hproc : ∃ st, k.proc = Function.update w.kernel.proc p { w.kernel.proc p with state := st })
    (hb : Builds w k.kmem) (hdel : (deleteThreads p).run k = .ok ((), s1))
    (hfree : (freevm old).run s1.kmem = .ok ((), m))
    (hw' : w'.kernel = (s1.setProc p (committed n img)).setKmem m) :
    Unshared w.kernel p ∧ (Replaced p w w' ↔ Told w.kernel p) := by
  rcases hproc with ⟨st, hproc⟩
  -- building the image has changed no slot
  have hp : (k.proc p).pid = (w.kernel.proc p).pid ∧
      (k.proc p).thread_id = (w.kernel.proc p).thread_id ∧
        (k.proc p).thread_idx = (w.kernel.proc p).thread_idx := by
    rw [hproc]
    simp
  have hks : (k.proc p).kstack = (w.kernel.proc p).kstack := by
    rw [hproc]
    simp
  have hpar : ∀ q, (k.proc q).parent_pthread = (w.kernel.proc q).parent_pthread := by
    intro q
    rw [hproc]
    by_cases hq : q = p
    · subst hq
      simp
    · rw [Function.update_of_ne hq]
  rcases deleteThreads_slots.of_ok hdel with ⟨hth, hun, hpages, hidx⟩
  refine ⟨fun i hi => ?_, ?_⟩
  · rw [← hp.1, ← hp.2.1, ← hpth] at hi
    rw [← hks, ← hpth]
    exact hun i hi
  -- the process is alone afterwards exactly where its ids told the threads apart
  have halone := alone_iff (by rw [hp.1]; exact hpid) hth
  have htold : Told k p ↔ Told w.kernel p := by
    unfold Told
    rw [hpth, hp.1, hp.2.1, hp.2.2]
  have hpth' : w'.kernel.pthread = s1.pthread := by
    rw [hw']
    rfl
  have hself : w'.kernel.proc p = committed n img (s1.proc p) := by
    rw [hw', Kernel.setKmem_proc, Kernel.setProc_self]
  constructor
  · intro h
    rw [← htold, ← halone]
    intro i
    rw [hp.1, hp.2.2, ← hpth']
    exact h.alone i
  intro ht
  have ht' := htold.2 ht
  have hsib : ∀ i ∈ siblings w.kernel p,
      sibling (k.proc p).pid (k.proc p).thread_id (k.pthread i) = true := by
    intro i hi
    rw [siblings_eq ht] at hi
    rw [hp.1, hp.2.1, hpth]
    exact (List.mem_filter.1 hi).2
  -- the clauses of `Replaced`, in their order
  refine ⟨?_, ?_, ?_, ?_, ?_, ?_, ?_, ?_, ?_⟩
  · intro i
    have hi := halone.2 ht' i
    rwa [hp.1, hp.2.2, ← hpth'] at hi
  · rw [hself]
    rfl
  · intro s hs
    have hspec : wp (mvProcToThread p (w.kernel.proc p).thread_idx) w'.kernel
        (fun _ s => (s.pthread (w.kernel.proc p).thread_idx).thread_id = MAINTH) fun _ => True := by
      rw [mvProcToThread_wp, Kernel.setTh_self, hself]
      rfl
    exact hspec.of_ok hs
  · rw [hself]
    rfl
  · rw [hself]
    rfl
  · rw [hself]
    rfl
  · intro i hi
    rw [hpth', hth i, if_pos (hsib i hi)]
    rfl
  · refine ⟨k.kmem, s1.kmem, old, hb, ?_, ?_⟩
    · rw [hpages, siblings_eq ht, stacksOf, hp.1, hp.2.1, hpth]
    · rw [hw']
      exact hfree
  · intro q i hi hq
    have hch : (s1.proc q).parent_pthread = some (k.proc p).thread_idx := by
      have hi' := hsib i hi
      rw [deleteThreads_told ht' hdel q, heir, hpar, hq]
      simp [hi']
    rw [← hp.2.2, ← hch, hw', Kernel.setKmem_proc]
    by_cases hqp : q = p
    · subst hqp
      rw [Kernel.setProc_self]
      rfl
    · rw [Kernel.setProc_ne hqp]

/-- Nothing has changed. -/
theorem Kept.refl (p : Pidx) (w : World) : Kept p w w where
  proc := by
    refine ⟨(w.kernel.proc p).state, ?_⟩
    exact (Function.update_eq_self p w.kernel.proc).symm
  pthread := rfl
  name := rfl
  trapframe := rfl
  mem := fun _ _ => rfl

/-- A call that returns -1 has changed nothing that the process sees. One that returns 0 has
replaced everything exactly where the ids tell the threads apart; a call that shares its
stack with a slot it deletes does not return. -/
theorem execWith_all_or_nothing {fs : FileSystem} {path : CString} {n : Nat} {w : World}
    (hpid : (w.kernel.proc p).pid ≠ 0) (hfree : FreeSound w.kernel.kmem) :
    wp (execWith fs p path argv n) w
      (fun res w' => (res = -1 ∧ Kept p w w') ∨
        (res = 0 ∧ Unshared w.kernel p ∧ (Replaced p w w' ↔ Told w.kernel p)))
      fun e => e = .stack → ¬ Unshared w.kernel p := by
  unfold execWith
  cases hip : fs.namei path.chars with
  | none => exact (wp_pure ..).2 (.inl ⟨rfl, .refl p w⟩)
  | some ip =>
      dsimp only
      rw [wp_bind, wp_assign, wp_bind, onRam, wp_zoom]
      refine ((wp.and (newImage_spares hfree.apart) (wp_run fun _ _ hrun => hrun)).inter
        (newImage_offStack _)).mono ?_ fun e he hstack => absurd hstack he.2
      rintro img r ⟨⟨hsp, himg⟩, -⟩
      cases img with
      -- no image: nothing is installed
      | none =>
          refine (wp_pure ..).2 (.inl ⟨rfl, ?_⟩)
          exact ⟨⟨.RUNNING, rfl⟩, rfl, rfl, rfl, hsp⟩
      -- the image is installed, unless a deleted slot has the stack of the call
      | some img =>
          refine install_kernel.mono ?_ ?_
          · rintro res w' ⟨rfl, s1, old, m, hdel, hfr, hw'⟩
            refine .inr ⟨rfl, replaced_iff hpid ?_ ⟨.RUNNING, ?_⟩ ?_ hdel hfr hw'⟩
            · rfl
            · rfl
            · exact ⟨ip, argv, n, img, r.mem, himg⟩
          · intro e he hstack hun
            refine he hstack fun i hi => ?_
            have hself : (World.ram.put { w with kernel := w.kernel.setProc p fun x =>
                { x with state := .RUNNING } } r).kernel.proc p =
                  { w.kernel.proc p with state := .RUNNING } := by
              simp [World.ram]
            rw [hself] at hi ⊢
            exact hun i hi

/-- A call that does not fail replaces the process exactly if the caller's id tells its
slot from all others, and no sibling has its stack. A call that fails leaves the process
as it was. Where the caller's stack is freed under its feet, it does neither. -/
theorem exec_replaces_iff {fs : FileSystem} {path : CString} {call : WM Int}
    (hcall : call = exec fs p path argv ∨ ∃ n, call = exec2 fs p path argv n) {w : World}
    (hpid : (w.kernel.proc p).pid ≠ 0) (hfree : FreeSound w.kernel.kmem)
    (hends : wp call w (fun _ _ => True) fun e => e = .stack) :
    (∃ w', call.run w = .ok (-1, w') ∧ Kept p w w') ∨
      ((∃ w', call.run w = .ok (0, w') ∧ Replaced p w w') ↔
        Told w.kernel p ∧ Unshared w.kernel p) := by
  obtain ⟨n, rfl⟩ : ∃ n, call = exec2 fs p path argv n := by
    rcases hcall with rfl | h
    · exact ⟨1, exec_is_exec2 fs p path argv⟩
    · exact h
  by_cases hn : n < 1 ∨ n > 100
  -- the stack size is refused
  · refine .inl ⟨w, ?_, .refl p w⟩
    rw [exec2, if_pos hn]
    rfl
  obtain ⟨k, rfl⟩ : ∃ k : Nat, n = k := ⟨n.toNat, by omega⟩
  rw [exec2_eq (by omega)] at hends ⊢
  have hspec : wp (execWith fs p path argv k) w _ _ := execWith_all_or_nothing hpid hfree
  cases hrun : (execWith fs p path argv k).run w with
  | error e =>
      -- the call does not return, and a slot shared its stack
      obtain rfl : e = .stack := hends.of_error hrun
      refine .inr ⟨?_, fun h => absurd h.2 (hspec.of_error hrun rfl)⟩
      rintro ⟨w', h, -⟩
      cases h
  | ok x =>
      rcases x with ⟨res, w'⟩
      rcases hspec.of_ok hrun with ⟨rfl, h⟩ | ⟨rfl, hun, h⟩
      · exact .inl ⟨w', rfl, h⟩
      · refine .inr ⟨?_, fun ht => ⟨w', rfl, h.2 ht.1⟩⟩
        rintro ⟨w1, h1, hrep⟩
        cases h1
        exact ⟨h.1 hrep, hun⟩

/-! ## A process of two threads -/

/-- The second thread of the first process has a child. -/
def twoThreads : World :=
  { firstWorld with
    kernel := (firstWorld.kernel.setTh 1 fun t =>
        { t with pid := 1, thread_id := 2, kstack := KERNBASE + 0x502000, state :=
          .RUNNABLE }).setProc 1
      fun x => { x with
        state := .SLEEPING, pid := 2, parent_proc := some 0, parent_pthread := some 1 } }

theorem twoThreads_told : Told twoThreads.kernel 0 := by
  unfold Told
  decide +kernel

theorem twoThreads_unshared : Unshared twoThreads.kernel 0 := by
  unfold Unshared
  decide +kernel

theorem twoThreads_free : FreeSound twoThreads.kernel.kmem := firstWorld_free

/-- The first thread calls `exec`: the second is gone, and its child has a new parent. -/
theorem exec_replaces_two : ∃ w', (exec oneFile 0 ls [ls, minusL]).run twoThreads = .ok (0, w') ∧
    siblings twoThreads.kernel 0 = [1] ∧ Replaced 0 twoThreads w' ∧
      (w'.kernel.proc 1).parent_pthread = some 0 := by
  have hends : ((exec oneFile 0 ls [ls, minusL]).run twoThreads).toOption.map (fun r =>
      (r.1, (r.2.kernel.proc 1).parent_pthread)) = some (0, some 0) := by decide +kernel
  cases hrun : (exec oneFile 0 ls [ls, minusL]).run twoThreads with
  | error e =>
      rw [hrun] at hends
      cases hends
  | ok res =>
      rcases res with ⟨v, w'⟩
      rw [hrun] at hends
      have hends : (v, (w'.kernel.proc 1).parent_pthread) = (0, some 0) := Option.some.inj hends
      rcases Prod.mk.inj hends with ⟨rfl, hpar⟩
      have hsib : siblings twoThreads.kernel 0 = [1] := by decide +kernel
      have hpid : (twoThreads.kernel.proc 0).pid ≠ 0 := by decide
      have hret : wp (exec oneFile 0 ls [ls, minusL]) twoThreads (fun _ _ => True)
          (fun e => e = .stack) := wp_of_ok hrun trivial
      rcases exec_replaces_iff (.inl rfl) hpid twoThreads_free hret with ⟨w1, h1, -⟩ | h
      · rw [hrun] at h1
        cases h1
      · rcases h.2 ⟨twoThreads_told, twoThreads_unshared⟩ with ⟨w1, h1, hrep⟩
        rw [hrun] at h1
        cases h1
        exact ⟨w', rfl, hsib, hrep, hpar⟩

/-! ## Calls in a row -/

/-- What calls in a row leave, if all return. -/
def inARow (p : Pidx) : List Call → Kernel → Option Kernel
  | [], s => some s
  | c :: cs, s => if c.fits .user = true then (returned p .user c s).bind (inARow p cs) else none

/-- Calls in a row keep the thread on its CPU. -/
theorem onCpu_inARow {p : Pidx} {i : Tidx} {cs : List Call} {s s' : Kernel}
    (h : OnCpu anyCall p i .user s) (hrun : inARow p cs s = some s') :
    OnCpu anyCall p i .user s' := by
  induction cs generalizing s with
  | nil =>
      cases hrun
      exact h
  | cons c cs ih =>
      unfold inARow at hrun
      split at hrun
      · next hc =>
        rcases Option.bind_eq_some_iff.1 hrun with ⟨s1, h1, h2⟩
        exact ih (.returned h trivial hc h1) h2
      · cases hrun

/-- Thread `i` of process `p` after some slices of all threads and the calls `cs` of its own. -/
def afterSlices (as : List Slice) (p : Pidx) (i : Tidx) (cs : List Call) : Option Kernel :=
  (start.bind fun s => Lib.exec sliceNext s as).bind fun s =>
    if Pickable s p i ∧ s.cont i = .user then inARow p cs (s.dressed p i) else none

/-- A thread in the middle of its time slice is on the CPU. -/
theorem afterSlices_onCpu {as : List Slice} {p : Pidx} {i : Tidx} {cs : List Call} {s : Kernel}
    (h : afterSlices as p i cs = some s) : OnCpu anyCall p i .user s := by
  rcases Option.bind_eq_some_iff.1 h with ⟨s1, h1, h⟩
  rcases Option.bind_eq_some_iff.1 h1 with ⟨s0, h0, h1⟩
  split at h
  · next hp =>
    have hcpu := OnCpu.picked (Reachable.anyCall (reachable_exec (.init (start_init h0)) h1)) hp.1
    rw [hp.2] at hcpu
    exact onCpu_inARow hcpu h
  · cases h

def worldOf (s : Kernel) : World := ⟨s, fun _ _ => 0, fun _ _ => 0, fun _ => ⟨0, 0⟩⟩

/-- The second thread executes a program that creates a thread, with id 2 again, and
forks: both threads with that id are copied. -/
def twice : List Slice :=
  [⟨⟨0, 0, .thread_create, 0, 0⟩, []⟩,
    ⟨⟨0, 1, .exec (some ⟨[]⟩) [1], 3796, 3816⟩, [.thread_create, .fork]⟩]

/-- A copy that calls `exec` spares the other one. And the slot of a thread that has called
`exec` still has the id of before, so a second call in the same slice frees the stack of
the thread itself. -/
theorem exec_spares_sibling :
    (∃ w w' : World, OnCpu anyCall 1 3 .user w.kernel ∧
      (exec oneFile 1 ls [ls]).run w = .ok (0, w') ∧ ¬ Replaced 1 w w') ∧
    ∃ w : World, OnCpu anyCall 0 1 .user w.kernel ∧
      (exec oneFile 0 ls [ls]).run w = .error .stack := by
  constructor
  · have hrun : (afterSlices twice 1 3 []).bind (fun s =>
        ((exec oneFile 1 ls [ls]).run (worldOf s)).toOption.map fun r =>
          (r.1, (s.proc 1).pid, (s.proc 1).thread_idx, (r.2.kernel.pthread 4).pid)) =
        some (0, 2, 3, 2) := by decide +kernel
    -- slot 4, the other copy, still has the pid of the process
    rcases Option.bind_eq_some_iff.1 hrun with ⟨s, hs, hrun⟩
    cases hexec : (exec oneFile 1 ls [ls]).run (worldOf s) with
    | error e =>
        rw [hexec] at hrun
        cases hrun
    | ok r =>
        rcases r with ⟨v, w'⟩
        rw [hexec] at hrun
        have hrun : (v, (s.proc 1).pid, (s.proc 1).thread_idx, (w'.kernel.pthread 4).pid) =
            (0, 2, 3, 2) := Option.some.inj hrun
        simp only [Prod.mk.injEq] at hrun
        rcases hrun with ⟨rfl, hpid, hidx, hspared⟩
        refine ⟨worldOf s, w', afterSlices_onCpu hs, hexec, fun h => ?_⟩
        have halone := (h.alone 4).1 (hspared.trans hpid.symm)
        rw [show ((worldOf s).kernel.proc 1).thread_idx = 3 from hidx] at halone
        cases halone
  -- slot 1 still has the id of before the first `exec`, so the loop frees the stack of the call
  · have hrun : (afterSlices [⟨⟨0, 0, .thread_create, 0, 0⟩, []⟩] 0 1
        [.exec (some ⟨[]⟩) [1], .thread_create]).map (fun s =>
          stopped ((exec oneFile 0 ls [ls]).run (worldOf s)) .stack) = some true :=
            by decide +kernel
    rcases Option.map_eq_some_iff.1 hrun with ⟨s, hs, hstop⟩
    exact ⟨worldOf s, afterSlices_onCpu hs, eq_of_stopped hstop⟩

end Xv6.Thread.Program
