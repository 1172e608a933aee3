import Xv6.Fs.File

/-!
# What the code can change

Work on the blocks of one inode changes the disk and the copy of that inode, and
nothing else in the cache: neither counts nor locks.

`Touch` is that relation between two states, and each function has the lemma that
it stays inside it, `Works` (`Lib.Prog.Within`): `itrunc_works`,
`readContent_works`, `writeContent_works`, and the loops over directory entries.
They hold without any invariant of the disk, so a proof about references or locks
needs to know nothing about contents.
-/

namespace Xv6.Fs

open Xv6.Lib Prog

variable {s s' s1 : Kernel} {ip : Entry}

/-- Only the disk and the copy of the inode at `ip` have changed, and the inode still has
its type. -/
structure Touch (ip : Entry) (s s' : Kernel) : Prop where
  sb : s'.sb = s.sb
  ftable : s'.ftable = s.ftable
  task : s'.task = s.task
  others : ∀ j, j ≠ ip → s'.icache j = s.icache j
  entry : s'.icache ip = { s.icache ip with din := (s'.icache ip).din }
  type : (s'.icache ip).din.type = (s.icache ip).din.type

namespace Touch

theorem refl (s : Kernel) : Touch ip s s := ⟨rfl, rfl, rfl, fun _ _ => rfl, rfl, rfl⟩

/-- What two calls on one inode in a row touch. -/
theorem trans (s s1 s' : Kernel) (h : Touch ip s s1) (h' : Touch ip s1 s') : Touch ip s s' where
  sb := h'.sb.trans h.sb
  ftable := h'.ftable.trans h.ftable
  task := h'.task.trans h.task
  others := fun j hj => (h'.others j hj).trans (h.others j hj)
  entry := by
    rw [h'.entry, h.entry]
  type := h'.type.trans h.type

theorem setBlock (b : Nat) (v : Block) : Touch ip s (s.setBlock b v) :=
  ⟨rfl, rfl, rfl, fun _ _ => rfl, rfl, rfl⟩

end Touch

/-- Neither a lock nor a missing lock nor the end of an array is in the way. -/
def Inner (e : Stop) : Prop := e ≠ .deadlock ∧ e ≠ .panic "iunlock" ∧ e ≠ .overrun

theorem Inner.panic {msg : String} (h : msg ≠ "iunlock") : Inner (.panic msg) := by
  refine ⟨nofun, ?_, nofun⟩
  intro heq
  cases heq
  exact h rfl

theorem Inner.fault : Inner .fault := ⟨nofun, nofun, nofun⟩

/-- Work on the inode at `ip`. -/
def Works (ip : Entry) {α : Type} (x : FM α) : Prop := Within (Touch ip) Inner x

section

variable {α β : Type} {x : FM α} {f : α → FM β}

theorem Works.bind (hx : Works ip x) (hf : ∀ a, Works ip (f a)) : Works ip (x >>= f) :=
  Within.bind Touch.trans hx hf

theorem Works.pure (a : α) : Works ip (pure a : FM α) := Within.pure Touch.refl a

theorem Works.get : Works ip (get : FM Kernel) := Within.get Touch.refl

theorem Works.ite {c : Prop} [Decidable c] {y : FM α} (hx : c → Works ip x)
    (hy : ¬ c → Works ip y) : Works ip (if c then x else y) := Within.ite hx hy

theorem Works.halt {msg : String} (h : msg ≠ "iunlock") : Works ip (halt msg : FM α) :=
  Within.throw (.panic h)

end

theorem bread_works (b : Nat) : Works ip (bread b) := by
  refine Works.get.bind fun s => ?_
  exact Works.ite (fun _ => .pure _) fun _ => .halt (by decide)

theorem bwrite_works (b : Nat) (v : Block) : Works ip (bwrite b v) :=
  Within.modify fun _ => Touch.setBlock b v

/-- Assigning to fields of the copy, but for the type. -/
theorem setDin_works {f : Dinode → Dinode} (hf : ∀ d : Dinode, (f d).type = d.type) :
    Works ip (setDin ip f) := by
  refine Within.modify fun s => ⟨rfl, rfl, rfl, ?_, ?_, ?_⟩
  · intro j hj
    exact Function.update_of_ne hj _ _
  · unfold Kernel.setInode
    simp
  · unfold Kernel.setInode
    simpa using hf _

/-- `balloc` works under the lock of any inode. -/
theorem balloc_works : Works ip balloc := by
  have hfrom : ∀ n b, Works ip (ballocFrom n b) := by
    intro n
    induction n with
    | zero => exact fun b => .halt (by decide)
    | succ n ih =>
        intro b
        refine Works.get.bind fun s => (bread_works _).bind fun bp => ?_
        refine Works.ite (fun _ => ?_) fun _ => ih _
        refine (bwrite_works _ _).bind fun _ => ?_
        refine ((bread_works _).bind fun _ => bwrite_works _ _).bind fun _ => .pure _
  exact Works.get.bind fun s => hfrom _ _

theorem bfree_works (b : Nat) : Works ip (bfree b) := by
  refine Works.get.bind fun s => (bread_works _).bind fun bp => ?_
  exact Works.ite (fun _ => (Works.halt (by decide)).bind fun _ => bwrite_works _ _) fun _ =>
    bwrite_works _ _

theorem iupdate_works : Works ip (iupdate ip) :=
  Works.get.bind fun _ => (bread_works _).bind fun _ => bwrite_works _ _

/-! ## The blocks of the inode -/

theorem addrSlot_works (k : Nat) : Works ip (addrSlot ip k) := by
  refine Works.get.bind fun s => Works.ite (fun _ => ?_) fun _ => .pure _
  refine balloc_works.bind fun addr => (setDin_works ?_).bind fun _ => .pure _
  intro d
  exact d.type_setAddr _

theorem indirectSlot_works (b i : Nat) : Works ip (indirectSlot b i) := by
  refine (bread_works _).bind fun bp => Works.ite (fun _ => ?_) fun _ => .pure _
  exact balloc_works.bind fun addr => Works.get.bind fun s =>
    (bwrite_works _ _).bind fun _ => .pure _

/-- `bmap` works under the lock of its inode. -/
theorem bmap_works (bn : Nat) : Works ip (bmap ip bn) := by
  unfold bmap
  refine Works.ite (fun _ => addrSlot_works _) fun _ => ?_
  refine Works.ite (fun _ => (addrSlot_works _).bind fun _ => indirectSlot_works _ _) fun _ => ?_
  refine Works.ite (fun _ => ?_) fun _ => ?_
  · exact (addrSlot_works _).bind fun _ => (indirectSlot_works _ _).bind fun _ =>
      indirectSlot_works _ _
  refine Works.ite (fun _ => ?_) fun _ => .halt (by decide)
  exact (addrSlot_works _).bind fun _ => (indirectSlot_works _ _).bind fun _ =>
    (indirectSlot_works _ _).bind fun _ => indirectSlot_works _ _

/-- Freeing a tree of blocks works under the lock of its inode. By induction on the levels. -/
theorem freeTree_works (k b : Nat) : Works ip (freeTree k b) := by
  induction k generalizing b with
  | zero => exact bfree_works b
  | succ k ih =>
      have heach : ∀ l, Works ip (eachWord (freeTree k) l) := by
        intro l
        induction l with
        | nil => exact .pure _
        | cons a l ihl => exact Works.ite (fun _ => (ih a).bind fun _ => ihl) fun _ => ihl
      exact (bread_works _).bind fun _ => (heach _).bind fun _ => bfree_works b

theorem truncSlot_works (depth k : Nat) : Works ip (truncSlot ip depth k) := by
  refine Works.get.bind fun s => Works.ite (fun _ => ?_) fun _ => .pure _
  refine (freeTree_works _ _).bind fun _ => setDin_works ?_
  intro d
  exact d.type_setAddr _

/-- `itrunc` works under the lock of its inode. -/
theorem itrunc_works : Works ip (itrunc ip) := by
  have hdirect : ∀ ks, Works ip (truncDirect ip ks) := by
    intro ks
    induction ks with
    | nil => exact .pure _
    | cons k ks ih => exact (truncSlot_works _ _).bind fun _ => ih
  refine (hdirect _).bind fun _ => (truncSlot_works _ _).bind fun _ => ?_
  refine (truncSlot_works _ _).bind fun _ => (truncSlot_works _ _).bind fun _ => ?_
  refine (setDin_works ?_).bind fun _ => iupdate_works
  intro d
  exact d.type_setSize _

/-! ## The content of the inode -/

/-- Reading works under the lock of the inode. -/
theorem readContent_works (off n : Nat) : Works ip (readContent ip off n) := by
  have hfrom : ∀ fuel off n, Works ip (readFrom ip fuel off n) := by
    intro fuel
    induction fuel with
    | zero => exact fun _ _ => .pure _
    | succ fuel ih =>
        intro off n
        refine Works.ite (fun _ => .pure _) fun _ => (bmap_works _).bind fun _ => ?_
        exact (bread_works _).bind fun _ => (ih _ _).bind fun _ => .pure _
  refine Works.get.bind fun s => Works.ite (fun _ => .pure _) fun _ => ?_
  exact (hfrom _ _ _).bind fun _ => .pure _

/-- Writing works under the lock of the inode. -/
theorem writeContent_works (src : List UInt8) (off : Nat) : Works ip (writeContent ip src off) := by
  have hfrom : ∀ fuel off src, Works ip (writeFrom ip fuel off src) := by
    intro fuel
    induction fuel with
    | zero => exact fun _ _ => .pure _
    | succ fuel ih =>
        intro off src
        refine Works.ite (fun _ => .pure _) fun _ => (bmap_works _).bind fun _ => ?_
        exact (bread_works _).bind fun _ => (bwrite_works _ _).bind fun _ => ih _ _
  refine Works.get.bind fun s => Works.ite (fun _ => .pure _) fun _ => ?_
  refine Works.ite (fun _ => .pure _) fun _ => (hfrom _ _ _).bind fun off =>
    Works.get.bind fun s => ?_
  refine Works.ite (fun _ => ?_) fun _ => .pure _
  refine (setDin_works ?_).bind fun _ => iupdate_works.bind fun _ => .pure _
  intro d
  exact d.type_setSize _

/-- Reading an entry of a directory works under its lock. -/
theorem readDirent_works (off : Nat) {msg : String} (h : msg ≠ "iunlock") :
    Works ip (readDirent ip off msg) := by
  refine (readContent_works _ _).bind fun r => ?_
  cases r with
  | none => exact .halt h
  | some de => exact Works.ite (fun _ => .halt h) fun _ => .pure _

/-- So does looking for a name. -/
theorem lookupFrom_works (name : List UInt8) (offs : List Nat) :
    Works ip (lookupFrom ip name offs) := by
  induction offs with
  | nil => exact .pure _
  | cons off offs ih =>
      exact (readDirent_works _ (by decide)).bind fun _ => Works.ite (fun _ => .pure _) fun _ => ih

theorem emptyFrom_works (size : Nat) (offs : List Nat) : Works ip (emptyFrom ip size offs) := by
  induction offs with
  | nil => exact .pure _
  | cons off offs ih =>
      exact (readDirent_works _ (by decide)).bind fun _ => Works.ite (fun _ => .pure _) fun _ => ih

/-- So does the test whether it is empty. -/
theorem isdirempty_works : Works ip (isdirempty ip) := by
  have hfrom : ∀ offs, Works ip (isdiremptyFrom ip offs) := by
    intro offs
    induction offs with
    | nil => exact .pure _
    | cons off offs ih =>
        exact (readDirent_works _ (by decide)).bind fun _ =>
          Works.ite (fun _ => .pure _) fun _ => ih
  exact Works.get.bind fun s => hfrom _

end Xv6.Fs
