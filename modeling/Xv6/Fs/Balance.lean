import Mathlib.Algebra.Group.Pi.Lemmas
import Mathlib.Tactic.Abel
import Xv6.Fs.Follow
import Xv6.Lib.Tally

/-!
# The accounts of a running call

While a call runs, the counts of files and inodes are those of the descriptors, open
files and current directories that there are, and what the call itself has taken. The
rules below say how the operations on the cache and on files change the accounts.

`Balanced g a h s` has the accounts as three maps: references to files, references
to inodes and locks that the code holds at this point (`Lib.Tally`). `iget` and
`idup` add to them, `iput` takes away, and a call that gives back what it took
leaves all three at zero: `sys_dup`, `sys_close` and `sys_fstat`. `sys_read` and
`sys_write` may have followed a link, and say what is left of that.
-/

namespace Xv6.Fs

open Xv6.Lib Prog

/-! ## Who refers to what -/

/-- The references of a file structure. -/
def File.refers (x : File) (j : Entry) : Nat := if x.type = .FD_INODE then given x.ip j else 0

/-- The references of a process that are not those of its files. -/
def Task.refers (t : Task) (j : Entry) : Nat := given t.cwd j

/-- One descriptor for `f`, or none. -/
def pointsTo (v : Option (Fin NFILE)) (f : Fin NFILE) : Nat := if v = some f then 1 else 0

/-- The descriptors of a process. -/
def Task.uses (t : Task) : Fin NFILE → Nat := tally pointsTo t.ofile

/-- The number of descriptors for a file structure. -/
def descriptors (s : Kernel) : Fin NFILE → Nat := tally Task.uses s.task

/-- The number of open files and current directories of an entry. -/
def holders (s : Kernel) (j : Entry) : Nat :=
    tally File.refers s.ftable j + tally Task.refers s.task j

/-- No inode is in two entries. -/
def Unique (s : Kernel) : Prop :=
  ∀ j j', 1 ≤ (s.icache j).ref → 1 ≤ (s.icache j').ref →
    (s.icache j).inum = (s.icache j').inum → j = j'

/-- The counts, when the running call has `g` references to files and `a` references to
inodes of its own, and holds the locks `h`. -/
structure Balanced (g : Fin NFILE → Int) (a h : Entry → Int) (s : Kernel) : Prop where
  files : ∀ f, ((s.ftable f).ref : Int) = descriptors s f + g f
  refs : ∀ j, ((s.icache j).ref : Int) = holders s j + a j
  locks : ∀ j, (lockN (s.icache j) : Int) = h j
  free : ∀ f, (s.ftable f).ref = 0 → (s.ftable f).type = .FD_NONE
  unique : Unique s

/-- One of `i`, and none of the others. -/
def single {ι : Type} [DecidableEq ι] (i : ι) : ι → Int := Pi.single i 1

theorem single_self {ι : Type} [DecidableEq ι] (i : ι) : single i i = 1 := Pi.single_eq_same ..

/-- Only the cache and the disk have changed; there are `b` more references, and `k` more
locks. -/
structure Shift (b k : Entry → Int) (s s' : Kernel) : Prop where
  ftable : s'.ftable = s.ftable
  task : s'.task = s.task
  refs : ∀ j, ((s'.icache j).ref : Int) = (s.icache j).ref + b j
  locks : ∀ j, (lockN (s'.icache j) : Int) = lockN (s.icache j) + k j
  unique : Unique s → Unique s'

/-- The current directory of the process is in the cache. -/
def Anchored (p : Fin NPROC) (s : Kernel) : Prop :=
  ∀ ip, (s.task p).cwd = some ip → 1 ≤ (s.icache ip).ref

variable {s s' s1 s2 : Kernel} {p : Fin NPROC} {ip jp dp : Entry} {f : Fin NFILE}
variable {g g' : Fin NFILE → Int} {a a' b b' h h' k k' : Entry → Int}

theorem Shift.refl (s : Kernel) : Shift 0 0 s s :=
  ⟨rfl, rfl, fun _ => (add_zero _).symm, fun _ => (add_zero _).symm, id⟩

/-- The shifts of two calls in a row add up. -/
theorem Shift.trans (hm : Shift b k s s1) (hm' : Shift b' k' s1 s') :
    Shift (b + b') (k + k') s s' where
  ftable := hm'.ftable.trans hm.ftable
  task := hm'.task.trans hm.task
  refs := by
    intro j
    rw [hm'.refs, hm.refs, Pi.add_apply, add_assoc]
  locks := by
    intro j
    rw [hm'.locks, hm.locks, Pi.add_apply, add_assoc]
  unique := fun h => hm'.unique (hm.unique h)

theorem Shift.congr (hm : Shift b k s s') (hb : b = b') (hk : k = k') : Shift b' k' s s' := by
  rw [← hb, ← hk]
  exact hm

theorem Balanced.congr (hs : Balanced g a h s) (hg : g = g') (ha : a = a') (hh : h = h') :
    Balanced g' a' h' s := by
  rw [← hg, ← ha, ← hh]
  exact hs

/-- A shift moves the two allowances and keeps the balance. -/
theorem Balanced.shift (hs : Balanced g a h s) (hm : Shift b k s s') :
    Balanced g (a + b) (h + k) s' where
  files := by
    intro f
    unfold descriptors
    rw [hm.ftable, hm.task]
    exact hs.files f
  refs := by
    intro j
    unfold holders
    rw [hm.refs, hm.ftable, hm.task, hs.refs, Pi.add_apply, add_assoc]
    rfl
  locks := by
    intro j
    rw [hm.locks, hs.locks, Pi.add_apply]
  free := by
    intro f
    rw [hm.ftable]
    exact hs.free f
  unique := hm.unique hs.unique

/-- References are only taken. -/
theorem Shift.anchored (hm : Shift b k s s') (hb : 0 ≤ b) (hcwd : Anchored p s) :
    Anchored p s' := by
  intro ip hip
  rw [hm.task] at hip
  have h1 := hcwd ip hip
  have h2 := hm.refs ip
  have h3 : 0 ≤ b ip := hb ip
  omega

/-- What the call has a reference to is in the cache. -/
theorem Balanced.ref_pos (hs : Balanced g a h s) (ha : 1 ≤ a ip) : 1 ≤ (s.icache ip).ref := by
  have hr := hs.refs ip
  omega

/-! ## The cache -/

theorem one_eq_single (j : Entry) : ((one ip j : Nat) : Int) = single ip j := by
  unfold one single
  rw [Pi.single_apply]
  split <;> rfl

/-- One reference to the entry that is returned. -/
def gift : Option Entry → Entry → Int
  | none => 0
  | some ip => single ip

theorem gift_none : gift none = 0 := rfl

theorem gift_some (ip : Entry) : gift (some ip) = single ip := rfl

theorem given_eq_gift (r : Option Entry) (j : Entry) : ((given r j : Nat) : Int) = gift r j := by
  cases r with
  | none => rfl
  | some ip => exact one_eq_single j

theorem single_nonneg (ip : Entry) : 0 ≤ single ip := by
  intro j
  rw [← one_eq_single]
  exact Int.natCast_nonneg _

theorem add_single_nonneg (ha : 0 ≤ a) : 0 ≤ a + single ip :=
  fun j => Int.add_nonneg (ha j) (single_nonneg ip j)

/-- A reference of the running call. -/
theorem add_single_pos (ha : 0 ≤ a) : 1 ≤ (a + single ip) ip := by
  have h0 : 0 ≤ a ip := ha ip
  rw [Pi.add_apply, single_self]
  omega

theorem gift_nonneg (r : Option Entry) : 0 ≤ gift r := by
  intro j
  rw [← given_eq_gift]
  exact Int.natCast_nonneg _

/-- The current directory of a process is in the cache. -/
theorem Balanced.cwd_pos (hs : Balanced g a h s) (ha : 0 ≤ a) (hcwd : (s.task p).cwd = some ip) :
    1 ≤ (s.icache ip).ref := by
  have hr := hs.refs ip
  have h0 : 0 ≤ a ip := ha ip
  have hle := @refers_le_tally _ _ _ _ Task.refers s.task p ip
  have hone : (s.task p).refers ip = 1 := by
    unfold Task.refers
    rw [hcwd, given_some, one_self]
  unfold holders at hr
  omega

theorem Balanced.anchored (hs : Balanced g a h s) (ha : 0 ≤ a) : Anchored p s :=
  fun _ hip => hs.cwd_pos ha hip

/-- Entries that were not in use are not, and the others stand for what they did. -/
theorem unique_of_entries (h : ∀ j, 1 ≤ (s'.icache j).ref →
    1 ≤ (s.icache j).ref ∧ (s'.icache j).inum = (s.icache j).inum) (hu : Unique s) : Unique s' := by
  intro j j' hj hj' heq
  have h1 := h j hj
  have h2 := h j' hj'
  exact hu j j' h1.1 h2.1 (h1.2.symm.trans (heq.trans h2.2))

/-- A call that works under a lock shifts nothing. -/
theorem Touch.shift (ht : Touch ip s s') : Shift 0 0 s s' := by
  have hentry : ∀ j, (s'.icache j).ref = (s.icache j).ref ∧
      (s'.icache j).inum = (s.icache j).inum ∧ (s'.icache j).locked = (s.icache j).locked := by
    intro j
    by_cases hj : j = ip
    · rw [hj, ht.entry]
      exact ⟨rfl, rfl, rfl⟩
    · rw [ht.others j hj]
      exact ⟨rfl, rfl, rfl⟩
  constructor
  · exact ht.ftable
  · exact ht.task
  · intro j
    rw [(hentry j).1, Pi.zero_apply, add_zero]
  · intro j
    unfold lockN
    rw [(hentry j).2.2, Pi.zero_apply, add_zero]
  · refine unique_of_entries fun j hj => ⟨?_, (hentry j).2.1⟩
    rw [← (hentry j).1]
    exact hj

/-- An entry is changed that was in use, or is not. -/
theorem shift_setInode {x : Inode → Inode} (hr :
      ((x (s.icache ip)).ref : Int) = (s.icache ip).ref + b ip)
    (hl : (lockN (x (s.icache ip)) : Int) = lockN (s.icache ip) + k ip)
    (hu : 1 ≤ (x (s.icache ip)).ref → 1 ≤ (s.icache ip).ref ∧
      (x (s.icache ip)).inum = (s.icache ip).inum)
    (hb : ∀ j, j ≠ ip → b j = 0) (hk : ∀ j, j ≠ ip → k j = 0) : Shift b k s (s.setInode ip x) where
  ftable := rfl
  task := rfl
  refs := by
    intro j
    by_cases hj : j = ip
    · rw [hj, setInode_self, hr]
    · rw [setInode_of_ne hj, hb j hj, add_zero]
  locks := by
    intro j
    by_cases hj : j = ip
    · rw [hj, setInode_self, hl]
    · rw [setInode_of_ne hj, hk j hj, add_zero]
  unique := by
    refine unique_of_entries fun j href => ?_
    by_cases hj : j = ip
    · rw [hj, setInode_self] at href ⊢
      exact hu href
    · rw [setInode_of_ne hj] at href ⊢
      exact ⟨href, rfl⟩

theorem single_of_ne {ι : Type} [DecidableEq ι] {i j : ι} (h : j ≠ i) : single i j = 0 :=
  Pi.single_eq_of_ne h _

/-- An entry is changed that is in use. -/
theorem shift_entry {x : Inode → Inode} (href : (x (s.icache ip)).ref = (s.icache ip).ref)
    (hinum : (x (s.icache ip)).inum = (s.icache ip).inum)
    (hl : (lockN (x (s.icache ip)) : Int) = lockN (s.icache ip) + k ip)
    (hk : ∀ j, j ≠ ip → k j = 0) :
    Shift 0 k s (s.setInode ip x) := by
  refine shift_setInode (by rw [href]; exact (add_zero _).symm) hl ?_ (fun _ _ => rfl) hk
  rw [href]
  exact fun h => ⟨h, hinum⟩

/-- Code that returns does so with `Q`. -/
abbrev Returns {α : Type} (x : FM α) (s : Kernel) (Q : α → Kernel → Prop) : Prop :=
  wp x s Q fun _ => True

theorem Returns.halt {α : Type} {msg : String} {Q : α → Kernel → Prop} :
    Returns (halt msg) s Q := by
  unfold Fs.halt
  exact (wp_throw ..).2 trivial

section cache

variable {Q : Unit → Kernel → Prop}

theorem setDin_shift {x : Dinode → Dinode} (hQ : ∀ s', Shift 0 0 s s' → Q () s') :
    Returns (setDin ip x) s Q := by
  rw [Returns, setDin_wp]
  exact hQ _ (shift_entry rfl rfl (add_zero _).symm fun _ _ => rfl)

theorem Works.shift {α : Type} {x : FM α} {Q : α → Kernel → Prop} (hx : Works ip x)
    (hQ : ∀ r s', Shift 0 0 s s' → Q r s') : Returns x s Q :=
  wp.mono (hx s) (fun r s' ht => hQ r s' ht.shift) fun _ _ => trivial

/-- `ilock` checks that there is a reference. -/
theorem ilock_shift (hQ : ∀ s', 1 ≤ (s.icache ip).ref → Entered ip (loaded s ip) s s' →
      Shift 0 (single ip) s s' → Q () s') : Returns (ilock ip) s Q := by
  refine ilock_wp ?_ (fun _ => trivial) fun _ _ => trivial
  intro hfree href s' he
  refine hQ s' href he ?_
  rw [he]
  refine shift_entry rfl rfl ?_ fun j hj => single_of_ne hj
  rw [lockN_false.2 hfree, lockN_true.2 rfl, single_self]
  rfl

/-- `iput` takes one reference. -/
theorem iput_shift (href : 1 ≤ (s.icache ip).ref) (hQ : ∀ s', Shift (-single ip) 0 s s' → Q () s') :
    Returns (iput ip) s Q := by
  refine iput_wp ?_ (fun _ => trivial) fun _ _ => trivial
  intro hfree s' hp
  refine hQ s' ⟨hp.ftable, hp.task, ?_, ?_, ?_⟩
  · intro j
    by_cases hj : j = ip
    · rw [hj, hp.ref, Pi.neg_apply, single_self]
      omega
    · rw [hp.others j hj, Pi.neg_apply, single_of_ne hj]
      rfl
  · intro j
    by_cases hj : j = ip
    · rw [hj, lockN_false.2 hp.locked, lockN_false.2 hfree]
      rfl
    · rw [hp.others j hj]
      exact (add_zero _).symm
  · refine unique_of_entries fun j hj => ?_
    by_cases hjp : j = ip
    · rw [hjp]
      exact ⟨href, hp.inum⟩
    · rw [hp.others j hjp] at hj ⊢
      exact ⟨hj, rfl⟩

/-- `iunlock` checks that the lock is held and that there is a reference. -/
theorem iunlock_shift (hQ : (s.icache ip).locked = true → 1 ≤ (s.icache ip).ref →
      Shift 0 (-single ip) s (s.setInode ip fun x => { x with locked := false }) →
      Q () (s.setInode ip fun x => { x with locked := false })) :
    Returns (iunlock ip) s Q := by
  by_cases hbad : (s.icache ip).locked = false ∨ (s.icache ip).ref < 1
  · unfold iunlock
    simp only [Returns, wp_bind, wp_get]
    rw [if_pos hbad, wp_bind]
    exact Returns.halt
  · have hlock : (s.icache ip).locked = true := Bool.not_eq_false _ ▸ fun hl => hbad (.inl hl)
    have href : 1 ≤ (s.icache ip).ref := Nat.not_lt.1 fun hr => hbad (.inr hr)
    refine iunlock_wp hlock href (hQ hlock href (shift_entry rfl rfl ?_ fun j hj => ?_))
    · rw [lockN_true.2 hlock, Pi.neg_apply, single_self]
      rfl
    · rw [Pi.neg_apply, single_of_ne hj]
      rfl

/-- `iunlockput` takes one reference and one lock. -/
theorem iunlockput_shift (hQ : ∀ s', Shift (-single ip) (-single ip) s s' → Q () s') :
    Returns (iunlockput ip) s Q := by
  unfold iunlockput
  rw [Returns, wp_bind]
  refine iunlock_shift ?_
  intro _ href hm
  refine iput_shift (by rw [setInode_self]; exact href) ?_
  intro s' hm'
  exact hQ s' ((hm.trans hm').congr (zero_add _) (add_zero _))

/-- One more reference to what is in the cache. -/
theorem idup_shift (href : 1 ≤ (s.icache ip).ref) :
    Shift (single ip) 0 s (s.setInode ip fun x => { x with ref := x.ref + 1 }) := by
  refine shift_setInode ?_ (add_zero _).symm (fun _ => ⟨href, rfl⟩) (fun j hj => single_of_ne hj)
    fun _ _ => rfl
  rw [single_self]
  push_cast
  rfl

end cache

/-- An inode is brought in only if no entry in use has its number. -/
theorem iget_shift {inum : Nat} {Q : Entry → Kernel → Prop}
    (hQ : ∀ ip s', Shift (single ip) 0 s s' → Q ip s') : Returns (iget inum) s Q := by
  refine iget_rule ?_ fun _ => trivial
  intro ip s' hg hfresh
  have hrefs : ∀ j, ((s'.icache j).ref : Int) = (s.icache j).ref + single ip j := by
    intro j
    have hj := hg.moved.refs j
    have hone := @one_eq_single ip j
    simp only [Pi.zero_apply] at hj
    omega
  have hlocks : ∀ j, (lockN (s'.icache j) : Int) = lockN (s.icache j) + (0 : Entry → Int) j := by
    intro j
    exact congrArg Nat.cast (hg.moved.locks j)
  refine hQ ip s' ⟨hg.moved.ftable, hg.moved.task, hrefs, hlocks, ?_⟩
  cases hg with
  | found href hinum he =>
      -- an entry that was in use has the number it had
      refine unique_of_entries fun j hj => ?_
      by_cases hjp : j = ip
      · rw [hjp, he.self]
        exact ⟨href, rfl⟩
      · rw [he.other hjp] at hj ⊢
        exact ⟨hj, rfl⟩
  | taken href he =>
      -- the recycled entry has a number that no other entry in use has
      have hnew := hfresh href
      intro hu j j' hj hj' heq
      by_cases hjp : j = ip
      · by_cases hjp' : j' = ip
        · exact hjp.trans hjp'.symm
        · rw [hjp, he.self, he.other hjp'] at heq
          rw [he.other hjp'] at hj'
          exact absurd heq.symm (hnew j' hj')
      · by_cases hjp' : j' = ip
        · rw [hjp', he.self, he.other hjp] at heq
          rw [he.other hjp] at hj
          exact absurd heq (hnew j hj)
        · rw [he.other hjp, he.other hjp'] at heq
          rw [he.other hjp] at hj
          rw [he.other hjp'] at hj'
          exact hu j j' hj hj' heq

/-- `dirlookup` gives a reference to what it finds. -/
theorem dirlookup_shift {name : List UInt8} {Q : Option (Entry × Nat) → Kernel → Prop}
    (hQ : ∀ r s', Shift (gift (r.map Prod.fst)) 0 s s' → Q r s') :
    Returns (dirlookup ip name) s Q := by
  unfold dirlookup
  rw [Returns, wp_bind, wp_get]
  refine wp_ite (fun _ => ?_) fun _ => ?_
  · rw [wp_bind]
    exact Returns.halt
  rw [wp_bind]
  refine (lookupFrom_works name _).shift ?_
  rintro (_ | ⟨inum, off⟩) s1 hm1
  · exact (wp_pure ..).2 (hQ none s1 hm1)
  · dsimp only
    rw [wp_bind]
    refine iget_shift ?_
    intro jp s2 hm2
    exact (wp_pure ..).2 (hQ (some (jp, off)) s2 ((hm1.trans hm2).congr (zero_add _) (add_zero 0)))

/-- `dirlink` shifts nothing: what its lookup gives it puts back. -/
theorem dirlink_shift {name : List UInt8} {inum : Nat} {Q : Bool → Kernel → Prop}
    (hQ : ∀ r s', Shift 0 0 s s' → Q r s') : Returns (dirlink ip name inum) s Q := by
  unfold dirlink
  rw [Returns, wp_bind]
  refine dirlookup_shift ?_
  rintro (_ | ⟨jp, off⟩) s1 hm1
  · -- the entry is written
    have hm1' : Shift 0 0 s s1 := hm1
    simp only [wp_bind, wp_get]
    refine (emptyFrom_works _ _).shift ?_
    intro off s2 hm2
    refine (writeContent_works _ off).shift ?_
    intro ok s3 hm3
    refine wp_ite (fun _ => ?_) fun _ => ?_
    · rw [wp_bind]
      exact Returns.halt
    · exact (wp_pure ..).2 (hQ true s3 (((hm1'.trans hm2).trans hm3).congr (by abel) (by abel)))
  · -- the name is there
    have hm1' : Shift (single jp) 0 s s1 := hm1
    dsimp only
    rw [wp_bind]
    have href : 1 ≤ (s1.icache jp).ref := by
      have h := hm1'.refs jp
      rw [single_self] at h
      omega
    refine iput_shift href ?_
    intro s2 hm2
    exact (wp_pure ..).2 (hQ false s2 ((hm1'.trans hm2).congr (by abel) (add_zero 0)))

/-- `ialloc` gives a reference to the new inode. -/
theorem ialloc_shift {type : Nat} {Q : Entry → Kernel → Prop}
    (hQ : ∀ ip s', Shift (single ip) 0 s s' → Q ip s') : Returns (ialloc type) s Q := by
  have hfrom : ∀ n inum, Returns (iallocFrom type n inum) s Q := by
    intro n
    induction n with
    | zero => exact fun _ => Returns.halt
    | succ n ih =>
        intro inum
        unfold iallocFrom
        rw [Returns, wp_bind, wp_get, wp_bind]
        unfold bread bwrite
        rw [wp_bind, wp_get]
        refine wp_ite (fun _ => ?_) fun _ => Returns.halt
        rw [wp_pure]
        refine wp_ite (fun _ => ?_) fun _ => ih _
        rw [wp_bind, wp_modify]
        refine iget_shift ?_
        intro ip s' hm
        exact hQ ip s' ⟨hm.ftable, hm.task, hm.refs, hm.locks, hm.unique⟩
  unfold ialloc
  rw [Returns, wp_bind, wp_get]
  exact hfrom _ _

/-- A path is walked with the reference to where it starts. -/
theorem walk_shift {parent : Bool} {names : List (List UInt8)}
    {Q : Option (Entry × List UInt8) → Kernel → Prop} (href : 1 ≤ (s.icache ip).ref)
    (hQ : ∀ r s', Shift (gift (r.map Prod.fst) - single ip) 0 s s' → Q r s') :
    Returns (walk parent ip names) s Q := by
  induction names generalizing s ip with
  | nil =>
      unfold walk
      refine wp_ite (fun _ => ?_) fun _ => ?_
      · rw [wp_bind]
        refine iput_shift href ?_
        intro s' hm
        exact (wp_pure ..).2 (hQ none s' (hm.congr (zero_sub _).symm rfl))
      · exact (wp_pure ..).2 (hQ _ s ((Shift.refl s).congr (sub_self _).symm rfl))
  | cons name names ih =>
      unfold walk
      rw [Returns, wp_bind]
      refine ilock_shift ?_
      intro s1 _ _ hm1
      -- nothing is found
      have hput : ∀ {s2 : Kernel}, Shift 0 (single ip) s s2 →
          Returns (iunlockput ip >>= fun _ => pure none) s2 Q := by
        intro s2 hm2
        rw [Returns, wp_bind]
        refine iunlockput_shift ?_
        intro s3 hm3
        exact (wp_pure ..).2 (hQ none s3 ((hm2.trans hm3).congr
          (by rw [zero_add]; exact (zero_sub _).symm)
          (add_neg_cancel _)))
      rw [wp_bind, wp_get]
      refine wp_ite (fun _ => hput hm1) fun _ => ?_
      refine wp_ite (fun _ => ?_) fun _ => ?_
      · -- nameiparent stops one level early
        rw [wp_bind]
        refine iunlock_shift ?_
        intro _ _ hm2
        exact (wp_pure ..).2 (hQ _ _ ((hm1.trans hm2).congr
          (by rw [zero_add]; exact (sub_self _).symm)
          (add_neg_cancel _)))
      rw [wp_bind]
      refine dirlookup_shift ?_
      rintro (_ | ⟨next, off⟩) s2 hm2
      · exact hput ((hm1.trans hm2).congr (add_zero 0) (add_zero _))
      · have hm2' : Shift (single next) 0 s1 s2 := hm2
        dsimp only
        rw [wp_bind]
        refine iunlockput_shift ?_
        intro s3 hm3
        have hm : Shift (single next - single ip) 0 s s3 :=
          ((hm1.trans hm2').trans hm3).congr (by abel) (by abel)
        have hnext : 1 ≤ (s3.icache next).ref := by
          have h := hm.refs next
          rw [Pi.sub_apply, single_self] at h
          by_cases heq : next = ip
          · rw [heq, single_self] at h
            rw [heq]
            omega
          · rw [single_of_ne heq] at h
            omega
        refine ih hnext ?_
        intro r s4 hm4
        exact hQ r s4 ((hm.trans hm4).congr (by abel) (add_zero 0))

/-- A walk begins with one reference. -/
theorem startInode_shift {path : List UInt8} {Q : Entry → Kernel → Prop} (hcwd : Anchored p s)
    (hQ : ∀ ip s', Shift (single ip) 0 s s' → Q ip s') : Returns (startInode p path) s Q := by
  unfold startInode
  refine wp_ite (fun _ => iget_shift hQ) fun _ => ?_
  rw [wp_bind, wp_get]
  cases hip : (s.task p).cwd with
  | none => exact (wp_throw ..).2 trivial
  | some cwd =>
      dsimp only [idup]
      rw [wp_bind, setInode_wp, wp_pure]
      exact hQ cwd _ (idup_shift (hcwd cwd hip))

/-- `namex` gives a reference to what it returns. -/
theorem namex_shift {path : List UInt8} {parent : Bool}
    {Q : Option (Entry × List UInt8) → Kernel → Prop}
    (hcwd : Anchored p s) (hQ : ∀ r s', Shift (gift (r.map Prod.fst)) 0 s s' → Q r s') :
    Returns (namex p path parent) s Q := by
  unfold namex
  rw [Returns, wp_bind]
  refine startInode_shift hcwd ?_
  intro ip s1 hm1
  have href : 1 ≤ (s1.icache ip).ref := by
    have h := hm1.refs ip
    rw [single_self] at h
    omega
  refine walk_shift href ?_
  intro r s2 hm2
  exact hQ r s2 ((hm1.trans hm2).congr (by abel) (add_zero 0))

/-- `namei` gives a reference to the inode of the path. -/
theorem namei_shift {path : List UInt8} {Q : Option Entry → Kernel → Prop} (hcwd : Anchored p s)
    (hQ : ∀ r s', (namei p path).run s = .ok (r, s') → Shift (gift r) 0 s s' → Q r s') :
    Returns (namei p path) s Q := by
  have hshift : Returns (namei p path) s fun r s' => Shift (gift r) 0 s s' := by
    unfold namei
    rw [Returns, wp_bind]
    exact namex_shift hcwd fun r s' hm => (wp_pure ..).2 hm
  refine wp.mono (hshift.and (wp_run fun _ _ hrun => hrun)) ?_ fun _ _ => trivial
  rintro r s' ⟨hm, hrun⟩
  exact hQ r s' hrun hm

theorem nameiparent_shift {path : List UInt8} {Q : Option (Entry × List UInt8) → Kernel → Prop}
    (hcwd : Anchored p s) (hQ : ∀ r s', Shift (gift (r.map Prod.fst)) 0 s s' → Q r s') :
    Returns (nameiparent p path) s Q := namex_shift hcwd hQ

/-! ## Files and descriptors -/

/-- A file structure is changed. -/
theorem Balanced.setFile (hs : Balanced g a h s) {x : File → File} {d : Int}
    (href : ((x (s.ftable f)).ref : Int) = (s.ftable f).ref + d)
    (hrefers : ∀ j, ((x (s.ftable f)).refers j : Int) = (s.ftable f).refers j + b j)
    (hfree : (x (s.ftable f)).ref = 0 → (x (s.ftable f)).type = .FD_NONE) :
    Balanced (g + d • single f) (a - b) h (s.setFile f x) where
  files := by
    intro j
    have hj := hs.files j
    show ((Function.update s.ftable f (x (s.ftable f)) j).ref : Int) =
      descriptors s j + (g j + d * single f j)
    -- the file that changes, and the others
    by_cases hjf : j = f
    · subst hjf
      rw [Function.update_self, href, hj, single_self, mul_one, add_assoc]
    · rw [Function.update_of_ne hjf, hj, single_of_ne hjf, mul_zero, add_zero]
  refs := by
    intro j
    have hj := hs.refs j
    -- one file's pointers are replaced in the sum
    have ht := @tally_update _ _ _ _ File.refers s.ftable f (x (s.ftable f)) j _
    have hx := hrefers j
    unfold holders at hj ⊢
    show ((s.icache j).ref : Int) = ((tally File.refers
      (Function.update s.ftable f (x (s.ftable f))) j +
      tally Task.refers s.task j : Nat) : Int) + (a j - b j)
    omega
  locks := hs.locks
  unique := hs.unique
  free := by
    intro j
    show (Function.update s.ftable f (x (s.ftable f)) j).ref = 0 →
      (Function.update s.ftable f (x (s.ftable f)) j).type = .FD_NONE
    by_cases hjf : j = f
    · subst hjf
      rw [Function.update_self]
      exact hfree
    · rw [Function.update_of_ne hjf]
      exact hs.free j

/-- The files or the directory of a process are changed. -/
theorem Balanced.setTask (hs : Balanced g a h s) {x : Task → Task} {d : Fin NFILE → Int}
    (huses : ∀ f, ((x (s.task p)).uses f : Int) = (s.task p).uses f + d f)
    (hrefers : ∀ j, ((x (s.task p)).refers j : Int) = (s.task p).refers j + b j) :
    Balanced (g - d) (a - b) h (s.setTask p x) where
  files := by
    intro j
    have hj := hs.files j
    have ht := @tally_update _ _ _ _ Task.uses s.task p (x (s.task p)) j _
    have hx := huses j
    unfold descriptors at hj ⊢
    show ((s.ftable j).ref : Int) =
      (tally Task.uses (Function.update s.task p (x (s.task p))) j : Nat) + (g j - d j)
    omega
  refs := by
    intro j
    have hj := hs.refs j
    have ht := @tally_update _ _ _ _ Task.refers s.task p (x (s.task p)) j _
    have hx := hrefers j
    unfold holders at hj ⊢
    show ((s.icache j).ref : Int) = ((tally File.refers s.ftable j +
      tally Task.refers (Function.update s.task p (x (s.task p))) j : Nat) : Int) + (a j - b j)
    omega
  locks := hs.locks
  free := hs.free
  unique := hs.unique

/-- One reference to the file that a descriptor is for. -/
def pointer : Option (Fin NFILE) → Fin NFILE → Int
  | none => 0
  | some f => single f

/-- Counting pointers in `Nat` and in `Int`. -/
theorem pointsTo_eq_pointer (v : Option (Fin NFILE)) (j : Fin NFILE) :
    ((pointsTo v j : Nat) : Int) = pointer v j := by
  cases v with
  | none => rfl
  | some f =>
      show ((pointsTo (some f) j : Nat) : Int) = single f j
      unfold pointsTo single
      rw [Pi.single_apply]
      by_cases hj : j = f
      · rw [if_pos hj, if_pos (congrArg some hj.symm)]
        rfl
      · rw [if_neg hj, if_neg fun heq => hj (Option.some.inj heq).symm]
        rfl

/-- Setting a descriptor moves one file reference. -/
theorem Balanced.setFd (hs : Balanced g a h s) (fd : Fin NOFILE) (v : Option (Fin NFILE)) :
    Balanced (g + pointer ((s.task p).ofile fd) - pointer v) a h (s.setFd p fd v) := by
  have hset := @Balanced.setTask s p g a 0 h hs
    (fun t => { t with ofile := Function.update t.ofile fd v })
    (pointer v - pointer ((s.task p).ofile fd)) ?_ fun _ => (add_zero _).symm
  · exact hset.congr (by abel) (sub_zero a) rfl
  · intro f
    have ht := @tally_update _ _ _ _ pointsTo (s.task p).ofile fd v f _
    have h1 := pointsTo_eq_pointer v f
    have h2 := pointsTo_eq_pointer ((s.task p).ofile fd) f
    show ((tally pointsTo (Function.update (s.task p).ofile fd v) f : Nat) : Int) =
      (tally pointsTo (s.task p).ofile f : Nat) +
        (pointer v f - pointer ((s.task p).ofile fd) f)
    omega

theorem refers_none {x : File} (h : x.type ≠ .FD_INODE) : x.refers = 0 := by
  unfold File.refers
  funext j
  rw [if_neg h]
  rfl

theorem refers_inode {x : File} (h : x.type = .FD_INODE) : x.refers = given x.ip := by
  unfold File.refers
  funext j
  rw [if_pos h]

/-- `filealloc` gives a free file, or none. -/
theorem filealloc_balanced {Q : Option (Fin NFILE) → Kernel → Prop}
    (hnone : Q none s)
    (hsome : ∀ f, (s.ftable f).ref = 0 → Q (some f) (s.setFile f fun x => { x with ref := 1 })) :
    Returns filealloc s Q := by
  unfold filealloc Fs.setFile
  rw [Returns, wp_bind, wp_get]
  cases hfind : (List.finRange NFILE).find? fun f => decide ((s.ftable f).ref = 0) with
  | none => exact (wp_pure ..).2 hnone
  | some f =>
      dsimp only
      rw [wp_bind, wp_modify, wp_pure]
      have hp := List.find?_some hfind
      exact hsome f (of_decide_eq_true hp)

/-- A file structure that was free. -/
theorem Balanced.alloc (hs : Balanced g a h s) (hf : (s.ftable f).ref = 0) :
    Balanced (g + single f) a h (s.setFile f fun x => { x with ref := 1 }) := by
  have hset := @Balanced.setFile s f g a 0 h hs (fun x => { x with ref := 1 }) 1
    (by rw [hf]; rfl) (fun _ => (add_zero _).symm) fun h0 => absurd h0 (by simp)
  exact hset.congr (by abel) (sub_zero a) rfl

/-- `filedup` adds a file reference that no descriptor holds yet. -/
theorem filedup_balanced {Q : Unit → Kernel → Prop} (hs : Balanced g a h s)
    (hQ : Balanced (g + single f) a h (s.setFile f fun x => { x with ref := x.ref + 1 }) →
      Q () (s.setFile f fun x => { x with ref := x.ref + 1 })) : Returns (filedup f) s Q := by
  unfold filedup Fs.setFile
  simp only [Returns, wp_bind, wp_get]
  refine wp_ite (fun _ => ?_) fun _ => ?_
  · rw [wp_bind]
    exact Returns.halt
  · rw [wp_modify]
    apply hQ
    have hset := @Balanced.setFile s f g a 0 h hs (fun x => { x with ref := x.ref + 1 }) 1
      (by push_cast; rfl) (fun _ => (add_zero _).symm) fun h0 => absurd h0 (Nat.succ_ne_zero _)
    exact hset.congr (by abel) (sub_zero a) rfl

/-- `fileclose` takes a file reference, and with the last one that of its inode. -/
theorem fileclose_balanced {Q : Unit → Kernel → Prop} (hs : Balanced g a h s) (ha : 0 ≤ a)
    (hQ : ∀ s', Balanced (g - single f) a h s' → s'.task = s.task →
      (∀ j, j ≠ f → s'.ftable j = s.ftable j) → Q () s') : Returns (fileclose f) s Q := by
  unfold fileclose Fs.setFile
  simp only [Returns, wp_bind, wp_get]
  refine wp_ite (fun _ => ?_) fun href => ?_
  · rw [wp_bind]
    exact Returns.halt
  have hother : ∀ {x : File → File} j, j ≠ f → (s.setFile f x).ftable j = s.ftable j :=
    fun j hj => Function.update_of_ne hj _ _
  refine wp_ite (fun hmore => ?_) fun hlast => ?_
  · -- other descriptors are left
    rw [wp_modify]
    refine hQ _ ?_ rfl hother
    have hset := @Balanced.setFile s f g a 0 h hs (fun x => { x with ref := x.ref - 1 }) (-1)
      (by dsimp only; omega) (fun _ => (add_zero _).symm) fun h0 => absurd h0 (by dsimp only; omega)
    exact hset.congr (by abel) (sub_zero a) rfl
  rw [wp_bind, wp_modify]
  have hset := @Balanced.setFile s f g a (fun j => -((s.ftable f).refers j : Int)) h hs
    (fun x => { x with ref := 0, type := .FD_NONE }) (-1) (by dsimp only; omega)
    (fun j => by rw [refers_none (by simp)]; simp) fun _ => rfl
  refine wp_ite (fun htype => ?_) fun htype => ?_
  · cases hip : (s.ftable f).ip with
    | none => exact (wp_throw ..).2 trivial
    | some ip =>
        -- the reference of the file is the call's now
        have hput : Balanced (g - single f) (a + single ip) h
            (s.setFile f fun x => { x with ref := 0, type := .FD_NONE }) := by
          refine hset.congr (by abel) ?_ rfl
          funext j
          have hj := @one_eq_single ip j
          rw [refers_inode htype, hip]
          simp only [given_some, Pi.sub_apply, Pi.add_apply]
          omega
        dsimp only
        refine iput_shift (hput.ref_pos (add_single_pos ha)) ?_
        intro s' hm
        refine hQ s' ((hput.shift hm).congr rfl (by abel) (add_zero h)) hm.task ?_
        intro j hj
        rw [hm.ftable]
        exact hother j hj
  · refine (wp_pure ..).2 (hQ _ (hset.congr (by abel) ?_ rfl) rfl hother)
    funext j
    rw [refers_none htype]
    simp

/-- `fdalloc` puts the file behind a free descriptor. -/
theorem fdalloc_balanced {Q : Option (Fin NOFILE) → Kernel → Prop} (hs : Balanced g a h s)
    (hnone : Q none s)
    (hsome : ∀ fd, (s.task p).ofile fd = none →
      Balanced (g - single f) a h (s.setFd p fd (some f)) →
      Q (some fd) (s.setFd p fd (some f))) : Returns (fdalloc p f) s Q := by
  unfold fdalloc
  rw [Returns, wp_bind, wp_get]
  cases hfind : (List.finRange NOFILE).find? fun fd => decide ((s.task p).ofile fd = none) with
  | none => exact (wp_pure ..).2 hnone
  | some fd =>
      dsimp only
      have hp := List.find?_some hfind
      have hfd : (s.task p).ofile fd = none := of_decide_eq_true hp
      rw [wp_bind, wp_modify, wp_pure]
      refine hsome fd hfd ?_
      have hset := @Balanced.setFd s p g a h hs fd (some f)
      rw [hfd] at hset
      exact hset.congr (by rw [show pointer none = 0 from rfl, add_zero]; rfl) rfl rfl

/-! ## Symbolic links -/

/-- The way back from a followed link. -/
theorem unfollow_shift {Q : Unit → Kernel → Prop}
    (hQ : ∀ s', Shift 0 (single ip - single jp) s s' → Q () s') : Returns (unfollow ip jp) s Q := by
  unfold unfollow
  refine wp_ite (fun _ => ?_) fun heq => ?_
  · rw [wp_bind]
    refine iunlock_shift ?_
    intro _ _ hm
    refine ilock_shift ?_
    intro s' _ _ hm'
    exact hQ s' ((hm.trans hm').congr (add_zero 0) (by abel))
  · rw [not_not.1 heq] at hQ
    exact (wp_pure ..).2 (hQ s ((Shift.refl s).congr rfl (sub_self _).symm))

section atEnd

variable {α : Type} {bad con : α} {content : Entry → FM α}

/-- A console unlocks the inode and locks it again. -/
theorem console_shift {Q : α → Kernel → Prop} (hQ : ∀ s', Shift 0 0 s s' → Q con s') :
    Returns (console jp con) s Q := by
  unfold console
  simp only [Returns, wp_bind]
  refine iunlock_shift ?_
  intro _ _ hm
  refine ilock_shift ?_
  intro s' _ _ hm'
  exact (wp_pure ..).2 (hQ s' ((hm.trans hm').congr (add_zero 0) (by abel)))

/-- Every link that is followed leaves a reference behind. -/
theorem follow_shift {turns : Nat} {Q : Option Entry → Kernel → Prop} (hcwd : Anchored p s)
    (hsome : ∀ jp s' b, 0 ≤ b → Shift b (single jp - single ip) s s' → Q (some jp) s')
    (hnone : ∀ s' b, 0 ≤ b → Shift b (single dp - single ip) s s' → Q none s') :
    Returns (follow p dp turns ip) s Q := by
  induction turns generalizing s ip with
  | zero =>
      unfold follow
      rw [Returns, wp_bind, wp_get]
      refine wp_ite (fun _ => ?_) fun _ => ?_
      · exact (wp_pure ..).2 (hsome ip s 0 (le_refl 0) ((Shift.refl s).congr rfl (sub_self _).symm))
      rw [wp_bind]
      refine unfollow_shift ?_
      intro s1 hm1
      exact (wp_pure ..).2 (hnone s1 0 (le_refl 0) hm1)
  | succ turns ih =>
      unfold follow
      rw [Returns, wp_bind, wp_get]
      refine wp_ite (fun _ => ?_) fun _ => ?_
      · exact (wp_pure ..).2 (hsome ip s 0 (le_refl 0) ((Shift.refl s).congr rfl (sub_self _).symm))
      unfold linkText
      rw [wp_bind]
      refine wp_ite (fun _ => ?_) fun _ => ?_
      · rw [wp_bind]
        exact (wp_throw ..).2 trivial
      rw [wp_pure, wp_bind]
      refine iunlock_shift ?_
      intro _ _ hm1
      rw [wp_bind]
      refine namei_shift (hm1.anchored (le_refl 0) hcwd) ?_
      rintro (_ | jp) s2 _ hm2
      · dsimp only
        rw [wp_bind]
        refine ilock_shift ?_
        intro s3 _ _ hm3
        refine (wp_pure ..).2 (hnone s3 0 (le_refl 0)
          (((hm1.trans hm2).trans hm3).congr ?_ (by abel)))
        rw [gift_none, add_zero, add_zero]
      · dsimp only
        rw [wp_bind]
        refine ilock_shift ?_
        intro s3 _ _ hm3
        -- the reference to the link's inode is kept
        have hm : Shift (single jp) (single jp - single ip) s s3 :=
          ((hm1.trans hm2).trans hm3).congr (by rw [gift_some]; abel) (by abel)
        refine ih (hm.anchored (single_nonneg jp) hcwd) ?_ ?_
        · intro kp s' b hb hm'
          exact hsome kp s' (single jp + b) (fun j => Int.add_nonneg (single_nonneg jp j) (hb j))
            ((hm.trans hm').congr rfl (by abel))
        · intro s' b hb hm'
          exact hnone s' (single jp + b) (fun j => Int.add_nonneg (single_nonneg jp j) (hb j))
            ((hm.trans hm').congr rfl (by abel))

/-- Reading or writing through a link leaves references behind and takes none. -/
theorem atEnd_leaks (hcwd : Anchored p s) (hcontent : ∀ jp, Works jp (content jp)) :
    Returns (follow p ip 10 ip >>= atEnd ip bad con content) s
      fun _ s' => ∃ b, 0 ≤ b ∧ Shift b 0 s s' := by
  rw [Returns, wp_bind]
  refine follow_shift hcwd ?_ ?_
  · intro jp s1 b hb hm1
    -- the way back takes the lock of the link again and moves no reference
    have hback : ∀ s', Shift 0 (single ip - single jp) s1 s' → ∃ b, 0 ≤ b ∧ Shift b 0 s s' :=
      fun s' hm' => ⟨b, hb, (hm1.trans hm').congr (add_zero _) (by abel)⟩
    unfold atEnd
    rw [wp_bind, wp_get]
    refine wp_ite (fun _ => ?_) fun _ => ?_
    · refine wp_ite (fun _ => ?_) fun _ => ?_
      · rw [wp_bind]
        refine unfollow_shift ?_
        intro s2 hm2
        exact (wp_pure ..).2 (hback s2 hm2)
      · rw [wp_bind]
        refine unfollow_shift ?_
        intro s2 hm2
        refine console_shift ?_
        intro s3 hm3
        exact hback s3 ((hm2.trans hm3).congr (add_zero 0) (add_zero _))
    · rw [wp_bind]
      refine (hcontent jp).shift ?_
      intro r s2 hm2
      rw [wp_bind]
      refine unfollow_shift ?_
      intro s3 hm3
      exact (wp_pure ..).2 (hback s3 ((hm2.trans hm3).congr (add_zero 0) (zero_add _)))
  -- the chain was too long: the call fails with the references it has taken
  · intro s1 b hb hm
    exact (wp_pure ..).2 ⟨b, hb, hm.congr rfl (sub_self _)⟩

/-- Without a link the inode is the one that is read or written. -/
theorem atEnd_touch (hvalid : (s.icache ip).valid = true)
    (htype : (s.icache ip).din.type ≠ T_SYMLINK)
    (hcontent : ∀ jp, Works jp (content jp)) :
    Returns (follow p ip 10 ip >>= atEnd ip bad con content) s fun _ s' => Touch ip s s' := by
  rw [Returns, wp_bind]
  refine wp_of_ok (Leads.follow .here (Nat.zero_le 10) htype) ?_
  have hstay : ∀ {Q : Unit → Kernel → Prop}, Q () s → wp (unfollow ip ip) s Q fun _ => True := by
    intro Q hQ
    unfold unfollow
    rw [if_neg (not_not.2 rfl)]
    exact (wp_pure ..).2 hQ
  unfold atEnd
  simp only [wp_bind, wp_get]
  refine wp_ite (fun _ => ?_) fun _ => ?_
  · refine wp_ite (fun _ => ?_) fun _ => ?_
    · rw [wp_bind]
      exact hstay ((wp_pure ..).2 (Touch.refl s))
    · rw [wp_bind]
      apply hstay
      unfold console
      simp only [wp_bind]
      refine iunlock_shift ?_
      intro hlock _ _
      refine ilock_shift ?_
      intro s' _ he _
      -- locked again, the entry is what it was
      have hsame : s'.icache ip = s.icache ip := by
        rw [he.self]
        unfold loaded
        rw [setInode_self, if_pos hvalid]
        cases hx : s.icache ip with
        | mk inum ref locked valid din =>
            rw [hx] at hvalid hlock
            simp only at hvalid hlock
            rw [hvalid, hlock]
      refine (wp_pure ..).2 ⟨?_, ?_, ?_, ?_, ?_, ?_⟩
      · rw [he]; rfl
      · rw [he]; rfl
      · rw [he]; rfl
      · intro j hj
        rw [he.other hj, setInode_of_ne hj]
      · rw [hsame]
      · rw [hsame]
  · rw [wp_bind]
    refine wp.mono (hcontent ip s) ?_ fun _ _ => trivial
    intro r s1 ht
    rw [wp_bind]
    unfold unfollow
    rw [if_neg (not_not.2 rfl), wp_pure]
    exact (wp_pure ..).2 ht

end atEnd

/-! ## Calls on a descriptor -/

/-- The inode is not a symbolic link. -/
def Plain (ip : Entry) (s : Kernel) : Prop := (loaded s ip).din.type ≠ T_SYMLINK

/-- The counts after a call, which may have left references behind, but not if `direct`. -/
def Left (a : Entry → Int) (direct : Prop) (s' : Kernel) : Prop :=
  ∃ b, 0 ≤ b ∧ Balanced 0 (a + b) 0 s' ∧ (direct → b = 0)

theorem Balanced.left {direct : Prop} (hs : Balanced 0 a 0 s) : Left a direct s :=
  ⟨0, le_refl 0, hs.congr rfl (add_zero a).symm rfl, fun _ => rfl⟩

theorem Balanced.setOff (hs : Balanced g a h s) (n : Nat) :
    Balanced g a h (s.setFile f fun x => { x with off := n }) := by
  have hset := @Balanced.setFile s f g a 0 h hs (fun x => { x with off := n }) 0
    (add_zero _).symm (fun _ => (add_zero _).symm) (hs.free f)
  exact hset.congr (by simp) (sub_zero a) rfl

section io

variable {α : Type} {bad con : α} {content : Entry → FM α} {off n : Nat} {src : List UInt8}

/-- The inode `ip` is locked, and read or written. -/
theorem io_balanced {Q : α → Kernel → Prop} (hs : Balanced g a (single ip) s) (hcwd : Anchored p s)
    (hvalid : (s.icache ip).valid = true) (hcontent : ∀ jp, Works jp (content jp))
    (hQ : ∀ r s' b, 0 ≤ b → Balanced g (a + b) (single ip) s' → s'.ftable = s.ftable →
      s'.task = s.task →
      ((s.icache ip).din.type ≠ T_SYMLINK → b = 0 ∧ (s'.icache ip).valid = true ∧
        (s'.icache ip).din.type ≠ T_SYMLINK) → Q r s') :
    Returns (follow p ip 10 ip >>= atEnd ip bad con content) s Q := by
  by_cases htype : (s.icache ip).din.type = T_SYMLINK
  · refine wp.mono (atEnd_leaks hcwd hcontent) ?_ fun _ _ => trivial
    rintro r s' ⟨b, hb, hm⟩
    exact hQ r s' b hb ((hs.shift hm).congr rfl rfl (add_zero _)) hm.ftable hm.task
      fun hne => absurd htype hne
  · refine wp.mono (atEnd_touch hvalid htype hcontent) ?_ fun _ _ => trivial
    intro r s' ht
    refine hQ r s' 0 (le_refl 0) ((hs.shift ht.shift).congr rfl rfl (add_zero _)) ht.ftable
      ht.task ?_
    intro _
    refine ⟨rfl, ?_, by rw [ht.type]; exact htype⟩
    rw [ht.entry]
    exact hvalid

end io

/-- An entry with its content keeps it when it is locked. -/
theorem plain_of_valid (hvalid : (s.icache ip).valid = true) :
    Plain ip s ↔ (s.icache ip).din.type ≠ T_SYMLINK := by
  unfold Plain loaded
  rw [if_pos hvalid]

/-- `fileread` of a file that is no link keeps the balance; of a link it leaves references. -/
theorem fileread_left {con : Option (List UInt8)} {n : Nat} (hs : Balanced 0 a 0 s) (ha : 0 ≤ a) :
    Returns (fileread p f con n) s fun _ s' =>
      Left a (∀ ip, (s.ftable f).type = .FD_INODE → (s.ftable f).ip = some ip → Plain ip s) s' := by
  unfold fileread Fs.setFile
  simp only [Returns, wp_bind, wp_get]
  refine wp_ite (fun _ => (wp_pure ..).2 hs.left) fun _ => ?_
  cases htype : (s.ftable f).type with
  | FD_NONE => exact Returns.halt
  | FD_PIPE => exact (wp_pure ..).2 hs.left
  | FD_INODE =>
      cases hip : (s.ftable f).ip with
      | none => exact (wp_throw ..).2 trivial
      -- an inode: the read itself works under its lock, and a link leaks what it follows
      | some ip =>
          dsimp only
          rw [wp_bind]
          refine ilock_shift ?_
          intro s1 _ he hm1
          have hs1 := (hs.shift hm1).congr rfl (add_zero a) (zero_add _)
          rw [wp_bind, readi_eq]
          refine io_balanced hs1 (hs1.anchored ha) (by rw [he.self]; rfl)
            (fun jp => readContent_works _ n) ?_
          intro r s2 b hb hs2 _ _ hdirect
          have hend : ∀ {s3 : Kernel}, Balanced 0 (a + b) (single ip) s3 →
              Returns (iunlock ip >>= fun _ => pure r) s3 fun _ s' =>
                Left a (∀ jp, FileType.FD_INODE = .FD_INODE → some ip = some jp → Plain jp s)
                  s' := by
            intro s3 hs3
            rw [Returns, wp_bind]
            refine iunlock_shift ?_
            intro _ _ hm4
            refine (wp_pure ..).2 ⟨b, hb, (hs3.shift hm4).congr rfl (add_zero _) (by abel), ?_⟩
            intro hplain
            refine (hdirect ?_).1
            rw [he.self]
            exact hplain ip rfl rfl
          refine wp_ite (fun _ => ?_) fun _ => ?_
          · rw [wp_bind, wp_modify]
            exact hend (hs2.setOff _)
          · exact hend hs2

/-- The loop of `filewrite`, by induction on the fuel. -/
theorem writeLoop_left {fuel : Nat} {src : List UInt8} (hs : Balanced 0 a 0 s) (ha : 0 ≤ a) :
    Returns (writeLoop p f ip fuel src) s fun _ s' => Left a (Plain ip s) s' := by
  induction fuel generalizing s a src with
  | zero => exact (wp_pure ..).2 hs.left
  | succ fuel ih =>
      unfold writeLoop Fs.setFile
      refine wp_ite (fun _ => (wp_pure ..).2 hs.left) fun _ => ?_
      rw [wp_bind]
      refine ilock_shift ?_
      intro s1 _ he hm1
      have hs1 := (hs.shift hm1).congr rfl (add_zero a) (zero_add _)
      rw [wp_bind, wp_get, wp_bind, writei_eq]
      refine io_balanced hs1 (hs1.anchored ha) (by rw [he.self]; rfl)
        (fun jp => writeContent_works _ _) ?_
      intro ok s2 b hb hs2 _ _ hdirect
      have hplain : Plain ip s → b = 0 ∧ (s2.icache ip).valid = true ∧
          (s2.icache ip).din.type ≠ T_SYMLINK := by
        intro hp
        apply hdirect
        rw [he.self]
        exact hp
      -- the offset has been moved on, or not; the lock is given back
      have hend : ∀ {s3 : Kernel}, Balanced 0 (a + b) (single ip) s3 → s3.icache = s2.icache →
          Returns (iunlock ip >>= fun _ => if ok = false then pure false
            else writeLoop p f ip fuel (src.drop (min src.length MAXWRITE))) s3 fun _ s' =>
              Left a (Plain ip s) s' := by
        intro s3 hs3 hcache
        rw [Returns, wp_bind]
        refine iunlock_shift ?_
        intro _ _ hm4
        have hs4 := (hs3.shift hm4).congr rfl (add_zero _) (add_neg_cancel _)
        refine wp_ite (fun _ => ?_) fun _ => ?_
        · exact (wp_pure ..).2 ⟨b, hb, hs4, fun hp => (hplain hp).1⟩
        · refine wp.mono (ih hs4 fun j => Int.add_nonneg (ha j) (hb j)) ?_ fun _ _ => trivial
          rintro r s' ⟨b', hb', hs', hdirect'⟩
          refine ⟨b + b', fun j => Int.add_nonneg (hb j) (hb' j),
            hs'.congr rfl (add_assoc _ _ _) rfl, ?_⟩
          intro hp
          rcases hplain hp with ⟨h0, hvalid, htype⟩
          rw [h0, hdirect' ?_, add_zero]
          rw [plain_of_valid, setInode_self, hcache]
          · exact htype
          · rw [setInode_self, hcache]
            exact hvalid
      refine wp_ite (fun _ => ?_) fun _ => ?_
      · rw [wp_bind, wp_modify]
        exact hend (hs2.setOff _) rfl
      · exact hend hs2 rfl

/-- `filewrite` of a file that is no link keeps the balance; of a link it leaves references. -/
theorem filewrite_left {con : Bool} {src : List UInt8} (hs : Balanced 0 a 0 s) (ha : 0 ≤ a) :
    Returns (filewrite p f con src) s fun _ s' =>
      Left a (∀ ip, (s.ftable f).type = .FD_INODE → (s.ftable f).ip = some ip → Plain ip s) s' := by
  unfold filewrite
  simp only [Returns, wp_bind, wp_get]
  refine wp_ite (fun _ => (wp_pure ..).2 hs.left) fun _ => ?_
  cases htype : (s.ftable f).type with
  | FD_NONE => exact Returns.halt
  | FD_PIPE => exact (wp_pure ..).2 hs.left
  | FD_INODE =>
      cases hip : (s.ftable f).ip with
      | none => exact (wp_throw ..).2 trivial
      | some ip =>
          refine wp.mono (writeLoop_left hs ha) ?_ fun _ _ => trivial
          rintro r s' ⟨b, hb, hs', hdirect⟩
          exact ⟨b, hb, hs', fun hplain => hdirect (hplain ip rfl rfl)⟩

/-- What a descriptor is for is no symbolic link. -/
def Direct (p : Fin NPROC) (fd : Fin NOFILE) (s : Kernel) : Prop :=
  ∀ f ip, (s.task p).ofile fd = some f → (s.ftable f).type = .FD_INODE → (s.ftable f).ip = some ip →
    Plain ip s

/-- `read` leaves what `fileread` leaves. -/
theorem sys_read_left {fd : Fin NOFILE} {con : Option (List UInt8)} {n : Nat}
    (hs : Balanced 0 a 0 s)
    (ha : 0 ≤ a) : Returns (sys_read p fd con n) s fun _ s' => Left a (Direct p fd s) s' := by
  unfold sys_read argfd
  simp only [Returns, wp_bind, wp_get, wp_pure]
  cases hfd : (s.task p).ofile fd with
  | none => exact (wp_pure ..).2 hs.left
  | some f =>
      refine wp.mono (fileread_left hs ha) ?_ fun _ _ => trivial
      rintro r s' ⟨b, hb, hs', hdirect⟩
      exact ⟨b, hb, hs', fun hd => hdirect fun ip => hd f ip hfd⟩

/-- `write` leaves what `filewrite` leaves. -/
theorem sys_write_left {fd : Fin NOFILE} {con : Bool} {src : List UInt8} (hs : Balanced 0 a 0 s)
    (ha : 0 ≤ a) : Returns (sys_write p fd con src) s fun _ s' => Left a (Direct p fd s) s' := by
  unfold sys_write argfd
  simp only [Returns, wp_bind, wp_get, wp_pure]
  cases hfd : (s.task p).ofile fd with
  | none => exact (wp_pure ..).2 hs.left
  | some f =>
      refine wp.mono (filewrite_left hs ha) ?_ fun _ _ => trivial
      rintro r s' ⟨b, hb, hs', hdirect⟩
      exact ⟨b, hb, hs', fun hd => hdirect fun ip => hd f ip hfd⟩

/-- `dup` keeps the balance. -/
theorem sys_dup_balanced {fd : Fin NOFILE} (hs : Balanced 0 a 0 s) :
    Returns (sys_dup p fd) s fun _ s' => Balanced 0 a 0 s' := by
  unfold sys_dup argfd
  simp only [Returns, wp_bind, wp_get, wp_pure]
  cases hfd : (s.task p).ofile fd with
  | none => exact (wp_pure ..).2 hs
  | some f =>
      dsimp only
      rw [wp_bind]
      refine fdalloc_balanced hs ((wp_pure ..).2 hs) ?_
      intro fd' _ hs1
      dsimp only
      rw [wp_bind]
      refine filedup_balanced hs1 ?_
      intro hs2
      exact (wp_pure ..).2 (hs2.congr (by abel) rfl rfl)

/-- `close` keeps the balance. -/
theorem sys_close_balanced {fd : Fin NOFILE} (hs : Balanced 0 a 0 s) (ha : 0 ≤ a) :
    Returns (sys_close p fd) s fun _ s' => Balanced 0 a 0 s' := by
  unfold sys_close argfd
  simp only [Returns, wp_bind, wp_get, wp_pure]
  cases hfd : (s.task p).ofile fd with
  | none => exact (wp_pure ..).2 hs
  | some f =>
      dsimp only
      rw [wp_bind, wp_modify, wp_bind]
      have hs1 := @Balanced.setFd s p 0 a 0 hs fd none
      rw [hfd] at hs1
      refine fileclose_balanced hs1 ha ?_
      intro s2 hs2 _ _
      refine (wp_pure ..).2 (hs2.congr ?_ rfl rfl)
      show (0 + single f - 0 - single f : Fin NFILE → Int) = 0
      abel

/-- `fstat` keeps the balance. -/
theorem sys_fstat_balanced {fd : Fin NOFILE} (hs : Balanced 0 a 0 s) :
    Returns (sys_fstat p fd) s fun _ s' => Balanced 0 a 0 s' := by
  unfold sys_fstat argfd
  simp only [Returns, wp_bind, wp_get, wp_pure]
  cases hfd : (s.task p).ofile fd with
  | none => exact (wp_pure ..).2 hs
  | some f =>
      dsimp only
      rw [wp_bind, wp_get]
      cases htype : (s.ftable f).type with
      | FD_NONE => exact (wp_pure ..).2 hs
      | FD_PIPE => exact (wp_pure ..).2 hs
      | FD_INODE =>
          cases hip : (s.ftable f).ip with
          | none => exact (wp_throw ..).2 trivial
          | some ip =>
              dsimp only
              rw [wp_bind]
              refine ilock_shift ?_
              intro s1 _ _ hm1
              rw [wp_bind, wp_get, wp_bind]
              refine iunlock_shift ?_
              intro _ _ hm2
              exact (wp_pure ..).2 ((hs.shift (hm1.trans hm2)).congr rfl (by abel) (by abel))

end Xv6.Fs
