import Xv6.Fs.Effect

/-!
# References and locks

What the operations on the inode cache do to the entries, and how many references
and locks they take and give back. A path is walked with one reference, and no lock
is kept.

* `walk_wp`, `namex_wp`, `namei_wp`: the walk returns an inode with one more
  reference, or none and leaves the counts as they were;
* `ialloc_wp`, `dirlink_wp`: the same for new entries.

The rules are written with the state that follows as a variable, so a caller
composes them along its text. What is found on the disk is left open here; it
matters in `Fs.Race` and `Fs.Reach`.
-/

namespace Xv6.Fs

open Xv6.Lib Prog

variable {s s' s1 : Kernel} {ip jp : Entry} {E : Stop → Prop} {Q : Unit → Kernel → Prop}

/-! ## One operation on the cache -/

/-- Only the entry `ip` of the cache has changed. -/
def Entered (ip : Entry) (x : Inode) (s s' : Kernel) : Prop := s' = s.setInode ip fun _ => x

theorem Entered.self {x : Inode} (h : Entered ip x s s') : s'.icache ip = x := by
  rw [h]
  exact Function.update_self ..

theorem Entered.other {x : Inode} (h : Entered ip x s s') (hj : jp ≠ ip) :
    s'.icache jp = s.icache jp := by
  rw [h]
  exact Function.update_of_ne hj _ _

theorem entered_setInode (f : Inode → Inode) :
    Entered ip (f (s.icache ip)) s (s.setInode ip f) := rfl

/-- `iget` has found or taken the entry `ip`. -/
inductive Got (inum : Nat) (ip : Entry) (s s' : Kernel) : Prop
  | found (href : 1 ≤ (s.icache ip).ref) (hinum : (s.icache ip).inum = inum)
      (h : Entered ip { s.icache ip with ref := (s.icache ip).ref + 1 } s s')
  | taken (href : (s.icache ip).ref = 0)
      (h : Entered ip { s.icache ip with inum := inum, ref := 1, valid := false } s s')

/-- An entry is taken only if no other has the number, and there may be none to take. -/
theorem iget_rule {inum : Nat} {Q : Entry → Kernel → Prop}
    (hQ : ∀ ip s', Got inum ip s s' → ((s.icache ip).ref = 0 →
      ∀ j, 1 ≤ (s.icache j).ref → (s.icache j).inum ≠ inum) → Q ip s')
    (hE : (∀ j, 1 ≤ (s.icache j).ref ∧ (s.icache j).inum ≠ inum) → E (.panic "iget: no inodes")) :
    wp (iget inum) s Q E := by
  unfold iget
  simp only [wp_bind, wp_get]
  cases hfind : (List.finRange NINODE).find? fun ip =>
      decide (0 < (s.icache ip).ref ∧ (s.icache ip).inum = inum) with
  -- the inode is in the cache: one reference more
  | some ip =>
      have hp := List.find?_some hfind
      rcases of_decide_eq_true hp with ⟨href, hinum⟩
      dsimp only
      rw [wp_bind, setInode_wp, wp_pure]
      exact hQ ip _ (.found href hinum rfl) fun h0 => absurd href (by rw [h0]; decide)
  | none =>
      dsimp only
      -- it is not there, so a free entry is recycled
      have hno : ∀ j, 1 ≤ (s.icache j).ref → (s.icache j).inum ≠ inum := by
        intro j hj hinum
        exact List.find?_eq_none.1 hfind j (List.mem_finRange j) (decide_eq_true ⟨hj, hinum⟩)
      cases hfree : (List.finRange NINODE).find? fun ip => decide ((s.icache ip).ref = 0) with
      | none =>
          have hall : ∀ j, 1 ≤ (s.icache j).ref := fun j => Nat.pos_of_ne_zero fun h0 =>
            List.find?_eq_none.1 hfree j (List.mem_finRange j) (decide_eq_true h0)
          exact (wp_throw ..).2 (hE fun j => ⟨hall j, hno j (hall j)⟩)
      | some ip =>
          have hp := List.find?_some hfree
          dsimp only
          rw [wp_bind, setInode_wp, wp_pure]
          exact hQ ip _ (.taken (of_decide_eq_true hp) rfl) fun _ => hno

theorem iget_wp {inum : Nat} {Q : Entry → Kernel → Prop} (hQ : ∀ ip s', Got inum ip s s' → Q ip s')
    (hE : E (.panic "iget: no inodes")) : wp (iget inum) s Q E :=
  iget_rule (fun ip s' hg _ => hQ ip s' hg) fun _ => hE

/-- The entry after `ilock`. -/
def loaded (s : Kernel) (ip : Entry) : Inode :=
  { s.icache ip with
    locked := true
    valid := true
    din := if (s.icache ip).valid = true then (s.icache ip).din
      else s.disk.dinode s.sb (s.icache ip).inum }

/-- `ilock` takes a free lock and loads the inode, and deadlocks on one that is held. -/
theorem ilock_wp (hQ : (s.icache ip).locked = false → 1 ≤ (s.icache ip).ref →
      ∀ s', Entered ip (loaded s ip) s s' → Q () s')
    (hdead : (s.icache ip).locked = true → E .deadlock) (hE : ∀ e, Inner e → E e) :
    wp (ilock ip) s Q E := by
  have hpanic : ∀ msg, msg ≠ "iunlock" → E (.panic msg) := fun _ h => hE _ (.panic h)
  unfold ilock acquiresleep halt
  simp only [wp_bind, wp_get]
  -- no reference: panic
  by_cases href : (s.icache ip).ref < 1
  · rw [if_pos href]
    simp only [wp_bind, wp_throw]
    exact hpanic _ (by decide)
  rw [if_neg href]
  simp only [wp_bind, wp_get]
  -- the lock is held: the process sleeps for ever
  by_cases hlock : (s.icache ip).locked = true
  · rw [if_pos hlock]
    simp only [wp_bind, wp_throw]
    exact hdead hlock
  rw [if_neg hlock]
  have hfree : (s.icache ip).locked = false := by simpa using hlock
  have hone : 1 ≤ (s.icache ip).ref := Nat.not_lt.1 href
  rw [setInode_wp]
  -- an entry that is not valid is loaded from disk
  refine wp_ite (fun hvalid => ?_) fun hvalid => ?_
  · unfold bread halt
    simp only [wp_bind, wp_get, setInode_wp]
    refine wp_ite (fun _ => ?_) fun _ => (wp_throw ..).2 (hpanic _ (by decide))
    rw [wp_pure, setInode_setInode]
    refine wp_ite (fun _ => (wp_throw ..).2 (hpanic _ (by decide))) fun _ => (wp_pure ..).2 ?_
    apply hQ hfree hone
    unfold Entered Kernel.setInode loaded
    simp [hvalid, Disk.dinode]
  · refine (wp_pure ..).2 (hQ hfree hone _ ?_)
    unfold Entered Kernel.setInode loaded
    simp [hvalid]

/-- `iunlock` of an inode that is locked and referenced. -/
theorem iunlock_wp (hlock : (s.icache ip).locked = true) (href : 1 ≤ (s.icache ip).ref)
    (hQ : Q () (s.setInode ip fun x => { x with locked := false })) : wp (iunlock ip) s Q E := by
  unfold iunlock releasesleep
  simp only [wp_bind, wp_get]
  rw [if_neg (by rw [hlock]; simp; omega), setInode_wp]
  exact hQ

/-- `iput` frees the inode. -/
def Last (x : Inode) : Prop := x.valid = true ∧ x.din.nlink = 0 ∧ x.ref = 1

instance (x : Inode) : Decidable (Last x) :=
  inferInstanceAs (Decidable (x.valid = true ∧ x.din.nlink = 0 ∧ x.ref = 1))

/-- The entry `ip` has lost a reference; the inode is freed with the last one. -/
structure Put (ip : Entry) (s s' : Kernel) : Prop where
  sb : s'.sb = s.sb
  ftable : s'.ftable = s.ftable
  task : s'.task = s.task
  others : ∀ j, j ≠ ip → s'.icache j = s.icache j
  inum : (s'.icache ip).inum = (s.icache ip).inum
  ref : (s'.icache ip).ref = (s.icache ip).ref - 1
  locked : (s'.icache ip).locked = false
  keep : ¬ Last (s.icache ip) →
    s' = s.setInode ip fun x => { x with locked := false, ref := x.ref - 1 }
  last : Last (s.icache ip) → (s'.icache ip).valid = false

/-- `iput` drops a reference, and frees the inode with the last one. -/
theorem iput_wp (hQ : (s.icache ip).locked = false → ∀ s', Put ip s s' → Q () s')
    (hdead : (s.icache ip).locked = true → E .deadlock) (hE : ∀ e, Inner e → E e) :
    wp (iput ip) s Q E := by
  unfold iput acquiresleep releasesleep
  simp only [wp_bind, wp_get]
  refine wp_ite (fun hlock => ?_) fun hlock => ?_
  · simp only [wp_bind, wp_throw]
    exact hdead hlock
  -- the sleep lock is taken to look at the inode
  have hfree : (s.icache ip).locked = false := by simpa using hlock
  rw [setInode_wp]
  have hentry : (s.setInode ip fun x => { x with locked := true }).icache ip =
      { s.icache ip with locked := true } := setInode_self
  rw [hentry]
  refine wp_ite (fun hlast => ?_) fun hlast => ?_
  · -- the inode is freed
    simp only [wp_bind]
    refine wp.mono (itrunc_works _) ?_ hE
    intro _ s1 h1
    rw [setDin_wp]
    refine wp.mono (@iupdate_works ip _) ?_ hE
    intro _ s2 h2
    simp only [setInode_wp, setInode_setInode]
    have hr2 : s2.icache ip = { s.icache ip with
        locked := true, din := (s2.icache ip).din } := by
      rw [h2.entry, setInode_self, h1.entry, hentry]
    refine hQ hfree _ ⟨h2.sb.trans h1.sb, h2.ftable.trans h1.ftable, h2.task.trans h1.task, ?_, ?_,
      ?_, ?_, fun hn => absurd hlast hn, ?_⟩
    · intro j hj
      rw [setInode_of_ne hj, h2.others j hj, setInode_of_ne hj, h1.others j hj, setInode_of_ne hj]
    · rw [setInode_self, hr2]
    · rw [setInode_self, hr2]
    · rw [setInode_self]
    · intro _
      rw [setInode_self]
  -- another reference is left, or a link
  · simp only [wp_bind, setInode_wp, setInode_setInode]
    refine hQ hfree _ ⟨rfl, rfl, rfl, fun j hj => setInode_of_ne hj, ?_, ?_, ?_, fun _ => rfl,
      fun hl => absurd hl hlast⟩
    · rw [setInode_self]
    · rw [setInode_self]
    · rw [setInode_self]

/-- A reference is dropped that is not the last one of an inode without links. -/
theorem iput_keep_wp (hfree : (s.icache ip).locked = false) (hlast : ¬ Last (s.icache ip))
    (hQ : Q () (s.setInode ip fun x => { x with locked := false, ref := x.ref - 1 })) :
    wp (iput ip) s Q E := by
  unfold iput acquiresleep releasesleep
  simp only [wp_bind, wp_get]
  rw [if_neg (by rw [hfree]; exact Bool.false_ne_true), setInode_wp]
  have hentry : (s.setInode ip fun x => { x with locked := true }).icache ip =
      { s.icache ip with locked := true } := setInode_self
  rw [hentry]
  refine wp_ite (fun hl => absurd hl hlast) fun _ => ?_
  simp only [wp_bind, setInode_wp, setInode_setInode]
  exact hQ

/-! ## What is taken and given back -/

/-- One of the entry `ip`, and none of the others. -/
def one (ip : Entry) (j : Entry) : Nat := if j = ip then 1 else 0

@[simp] theorem one_self (ip : Entry) : one ip ip = 1 := if_pos rfl

theorem one_of_ne (h : jp ≠ ip) : one ip jp = 0 := if_neg h

/-- The number of locks of an entry that are held. -/
def lockN (x : Inode) : Nat := if x.locked = true then 1 else 0

theorem lockN_true {x : Inode} : lockN x = 1 ↔ x.locked = true := by
  unfold lockN
  split <;> simp_all

theorem lockN_false {x : Inode} : lockN x = 0 ↔ x.locked = false := by
  unfold lockN
  split <;> simp_all

/-- The entry stands for the same inode, and has its content unless it is a directory. -/
structure Same (x x' : Inode) : Prop where
  inum : x'.inum = x.inum
  valid : x.valid = true → x'.valid = true
  type : x.valid = true → x'.din.type = x.din.type
  din : x.valid = true → x.din.type ≠ T_DIR → x'.din = x.din

theorem Same.refl (x : Inode) : Same x x := ⟨rfl, id, fun _ => rfl, fun _ _ => rfl⟩

theorem Same.trans {x y z : Inode} (h : Same x y) (h' : Same y z) : Same x z where
  inum := h'.inum.trans h.inum
  valid := fun hv => h'.valid (h.valid hv)
  type := fun hv => (h'.type (h.valid hv)).trans (h.type hv)
  din := fun hv ht => (h'.din (h.valid hv) (by rwa [h.type hv])).trans (h.din hv ht)

/-- The references `a` and locks `h` have been given up for `b` and `k`. The entries to
which there are other references are the same. -/
structure Moved (a b h k : Entry → Nat) (s s' : Kernel) : Prop where
  sb : s'.sb = s.sb
  ftable : s'.ftable = s.ftable
  task : s'.task = s.task
  refs : ∀ j, (s'.icache j).ref + a j = (s.icache j).ref + b j
  locks : ∀ j, lockN (s'.icache j) + h j = lockN (s.icache j) + k j
  held : ∀ j, a j < (s.icache j).ref → Same (s.icache j) (s'.icache j)

variable {a b c h k l : Entry → Nat}

namespace Moved

theorem refl (s : Kernel) : Moved a a h h s s :=
  ⟨rfl, rfl, rfl, fun _ => rfl, fun _ => rfl, fun _ _ => .refl _⟩

/-- The references and locks moved by two calls in a row. -/
theorem trans (hm : Moved a b h k s s1) (hm' : Moved b c k l s1 s') : Moved a c h l s s' where
  sb := hm'.sb.trans hm.sb
  ftable := hm'.ftable.trans hm.ftable
  task := hm'.task.trans hm.task
  refs := by
    intro j
    have h1 := hm.refs j
    have h2 := hm'.refs j
    omega
  locks := by
    intro j
    have h1 := hm.locks j
    have h2 := hm'.locks j
    omega
  held := by
    intro j hj
    have h1 := hm.refs j
    exact (hm.held j hj).trans (hm'.held j (by omega))

/-- What else is held stays. -/
theorem frame (hm : Moved a b h k s s') (c l : Entry → Nat) :
    Moved (a + c) (b + c) (h + l) (k + l) s s' where
  sb := hm.sb
  ftable := hm.ftable
  task := hm.task
  refs := by
    intro j
    have h1 := hm.refs j
    show _ + (a j + c j) = _ + (b j + c j)
    omega
  locks := by
    intro j
    have h1 := hm.locks j
    show _ + (h j + l j) = _ + (k j + l j)
    omega
  held := by
    intro j hj
    have hj' : a j + c j < (s.icache j).ref := hj
    exact hm.held j (by omega)

/-- One entry has changed. -/
theorem entry {x : Inode} (he : Entered ip x s s') (hr : x.ref + a ip = (s.icache ip).ref + b ip)
    (hl : lockN x + h ip = lockN (s.icache ip) + k ip)
    (hs : a ip < (s.icache ip).ref → Same (s.icache ip) x)
    (ha : ∀ j, j ≠ ip → a j = b j) (hh : ∀ j, j ≠ ip → h j = k j) : Moved a b h k s s' where
  sb := by rw [he]; rfl
  ftable := by rw [he]; rfl
  task := by rw [he]; rfl
  refs := by
    intro j
    by_cases hj : j = ip
    · rw [hj, he.self]
      exact hr
    · rw [he.other hj, ha j hj]
  locks := by
    intro j
    by_cases hj : j = ip
    · rw [hj, he.self]
      exact hl
    · rw [he.other hj, hh j hj]
  held := by
    intro j hlt
    by_cases hj : j = ip
    · subst hj
      rw [he.self]
      exact hs hlt
    · rw [he.other hj]
      exact .refl _

/-- The locks that are given up are taken again. -/
theorem relocked (hm : Moved a b h h s s') : Moved a b 0 0 s s' where
  sb := hm.sb
  ftable := hm.ftable
  task := hm.task
  refs := hm.refs
  locks := fun j => Nat.add_right_cancel (hm.locks j)
  held := hm.held

/-- Nobody holds more locks afterwards. -/
theorem unlocked (hm : Moved a b 0 0 s s') (j : Entry) :
    (s'.icache j).locked = (s.icache j).locked := by
  have hl : lockN (s'.icache j) = lockN (s.icache j) := hm.locks j
  cases hs : (s.icache j).locked with
  | true => exact lockN_true.1 (hl.trans (lockN_true.2 hs))
  | false => exact lockN_false.1 (hl.trans (lockN_false.2 hs))

end Moved

/-- `iget` moves in one reference. -/
theorem Got.moved {inum : Nat} (hg : Got inum ip s s') : Moved 0 (one ip) 0 0 s s' := by
  cases hg with
  | found href hinum he =>
      refine Moved.entry he ?_ rfl (fun _ => ⟨rfl, id, fun _ => rfl, fun _ _ => rfl⟩) ?_ fun _
        _ => rfl
      · rw [one_self]
        rfl
      · intro j hj
        rw [one_of_ne hj]
        rfl
  | taken href he =>
      refine Moved.entry he ?_ rfl (fun hlt => ?_) ?_ fun _ _ => rfl
      · rw [one_self, href]
        rfl
      · rw [href] at hlt
        cases hlt
      · intro j hj
        rw [one_of_ne hj]
        rfl

/-- `ilock` moves in one lock. -/
theorem loaded_moved (hlock : (s.icache ip).locked = false) (he : Entered ip (loaded s ip) s s') :
    Moved 0 0 0 (one ip) s s' := by
  refine Moved.entry he rfl ?_ (fun _ => ⟨rfl, fun _ => rfl, ?_, ?_⟩) (fun _ _ => rfl) ?_
  · rw [one_self, lockN_false.2 hlock, lockN_true.2 rfl]
    rfl
  · intro hv
    unfold loaded
    rw [if_pos hv]
  · intro hv _
    unfold loaded
    rw [if_pos hv]
  · intro j hj
    rw [one_of_ne hj]
    rfl

/-- `iunlock` moves one lock out. -/
theorem unlock_moved (hlock : (s.icache ip).locked = true) :
    Moved 0 0 (one ip) 0 s (s.setInode ip fun x => { x with locked := false }) := by
  refine Moved.entry (entered_setInode _) rfl ?_ (fun _ => ⟨rfl, id, fun _ => rfl, fun _ _ => rfl⟩)
    (fun _ _ => rfl) ?_
  · rw [one_self, lockN_true.2 hlock, lockN_false.2 rfl]
    rfl
  · intro j hj
    rw [one_of_ne hj]
    rfl

/-- `iput` moves one reference out. -/
theorem Put.moved (hp : Put ip s s') (hlock : (s.icache ip).locked = false)
    (href : 1 ≤ (s.icache ip).ref) : Moved (one ip) 0 0 0 s s' where
  sb := hp.sb
  ftable := hp.ftable
  task := hp.task
  refs := by
    intro j
    -- the entry that is put loses one reference
    by_cases hj : j = ip
    · rw [hj, hp.ref, one_self]
      show _ = _ + 0
      omega
    · rw [hp.others j hj, one_of_ne hj]
      rfl
  locks := by
    intro j
    by_cases hj : j = ip
    · rw [hj, lockN_false.2 hlock, lockN_false.2 hp.locked]
    · rw [hp.others j hj]
  held := by
    intro j hlt
    by_cases hj : j = ip
    · subst hj
      rw [one_self] at hlt
      -- another reference is left, so the entry is not freed while somebody holds it
      have hnot : ¬ Last (s.icache j) := fun hl => absurd hl.2.2 (by omega)
      rw [hp.keep hnot, setInode_self]
      exact ⟨rfl, id, fun _ => rfl, fun _ _ => rfl⟩
    · rw [hp.others j hj]
      exact .refl _

/-- A call that works under the lock of a directory moves nothing. -/
theorem Touch.moved (ht : Touch ip s s') (htype : (s.icache ip).din.type = T_DIR) :
    Moved 0 0 0 0 s s' where
  sb := ht.sb
  ftable := ht.ftable
  task := ht.task
  refs := by
    intro j
    by_cases hj : j = ip
    · rw [hj, ht.entry]
    · rw [ht.others j hj]
  locks := by
    intro j
    by_cases hj : j = ip
    · rw [hj, ht.entry]
      rfl
    · rw [ht.others j hj]
  held := by
    intro j _
    by_cases hj : j = ip
    · subst hj
      rw [ht.entry]
      exact ⟨rfl, id, fun _ => ht.type, fun _ hn => absurd htype hn⟩
    · rw [ht.others j hj]
      exact .refl _

/-! ## Walking a path -/

/-- One reference to the entry that is returned. -/
def given : Option Entry → Entry → Nat
  | none => 0
  | some ip => one ip

@[simp] theorem given_none : given none = 0 := rfl

@[simp] theorem given_some : given (some ip) = one ip := rfl

/-- `iunlockput` moves out a lock and a reference. -/
theorem iunlockput_wp (hlock : (s.icache ip).locked = true) (href : 1 ≤ (s.icache ip).ref)
    (hQ : ∀ s', Moved (one ip) 0 (one ip) 0 s s' → Q () s') (hE : ∀ e, Inner e → E e) :
    wp (iunlockput ip) s Q E := by
  unfold iunlockput
  rw [wp_bind]
  have hun := unlock_moved hlock
  have hfree := (@entered_setInode s ip fun x => { x with locked := false }).self
  refine iunlock_wp hlock href (iput_wp ?_ ?_ hE)
  · intro hfree s' hp
    apply hQ
    have hput := hp.moved hfree (by rw [setInode_self]; exact href)
    exact Moved.trans (by simpa using hun.frame (one ip) 0) hput
  · intro hl
    rw [hfree] at hl
    cases hl

/-- `dirlookup` has looked through the directory, and taken what it has found. -/
structure Looked (ip : Entry) (r : Option (Entry × Nat)) (s s' : Kernel) : Prop where
  dir : (s.icache ip).din.type = T_DIR
  run : ∃ s1, Touch ip s s1 ∧ match r with
    | none => s' = s1
    | some (jp, _) => ∃ inum, Got inum jp s1 s'

/-- `dirlookup` moves in a reference to what it finds. -/
theorem Looked.moved {r : Option (Entry × Nat)} (hl : Looked ip r s s') :
    Moved 0 (given (r.map Prod.fst)) 0 0 s s' := by
  rcases hl with ⟨hdir, s1, ht, hr⟩
  have hm := ht.moved hdir
  cases r with
  | none =>
      subst hr
      exact hm
  | some r =>
      rcases hr with ⟨inum, hg⟩
      exact hm.trans hg.moved

/-- `dirlookup` finds what it looks for or stops within. -/
theorem dirlookup_wp {name : List UInt8} {Q : Option (Entry × Nat) → Kernel → Prop}
    (hQ : ∀ r s', Looked ip r s s' → Q r s') (hE : ∀ e, Inner e → E e) :
    wp (dirlookup ip name) s Q E := by
  unfold dirlookup halt
  simp only [wp_bind, wp_get]
  by_cases htype : (s.icache ip).din.type ≠ T_DIR
  · rw [if_pos htype]
    simp only [wp_bind, wp_throw]
    exact hE _ (.panic (by decide))
  rw [if_neg htype]
  have hdir : (s.icache ip).din.type = T_DIR := not_not.1 htype
  simp only [wp_bind]
  refine wp.mono (lookupFrom_works name _ s) ?_ hE
  intro r s1 ht
  cases r with
  | none => exact (wp_pure ..).2 (hQ none s1 ⟨hdir, s1, ht, rfl⟩)
  | some r =>
      dsimp only
      rw [wp_bind]
      refine iget_wp ?_ (hE _ (.panic (by decide)))
      intro jp s2 hg
      exact (wp_pure ..).2 (hQ (some (jp, r.2)) s2 ⟨hdir, s1, ht, _, hg⟩)

/-- A path is walked with the reference to where it starts; every directory on it is
locked for itself. -/
theorem walk_wp {parent : Bool} {names : List (List UInt8)}
    {Q : Option (Entry × List UInt8) → Kernel → Prop} (href : 1 ≤ (s.icache ip).ref)
    (hQ : ∀ r s', Moved (one ip) (given (r.map Prod.fst)) 0 0 s s' → Q r s')
    (hdead : (∃ j, (s.icache j).locked = true) → E .deadlock) (hE : ∀ e, Inner e → E e) :
    wp (walk parent ip names) s Q E := by
  induction names generalizing s ip with
  | nil =>
      unfold walk
      refine wp_ite (fun _ => ?_) fun _ => (wp_pure ..).2 (hQ _ _ (Moved.refl s))
      rw [wp_bind]
      refine iput_wp ?_ (fun hl => hdead ⟨ip, hl⟩) hE
      intro hfree s' hp
      exact (wp_pure ..).2 (hQ none s' (hp.moved hfree href))
  | cons name names ih =>
      unfold walk
      rw [wp_bind]
      refine ilock_wp ?_ (fun hl => hdead ⟨ip, hl⟩) hE
      intro hfree _ s1 he1
      have hm1 := loaded_moved hfree he1
      have hlock1 : (s1.icache ip).locked = true := by rw [he1.self]; rfl
      have href1 : 1 ≤ (s1.icache ip).ref := by rw [he1.self]; exact href
      -- the directory is given up with its lock
      have hput : ∀ {s2 : Kernel} {b : Entry → Nat} {Q : Unit → Kernel → Prop},
          Moved 0 b 0 0 s1 s2 → (∀ s', Moved (one ip) b 0 0 s s' → Q () s') →
          wp (iunlockput ip) s2 Q E := by
        intro s2 b Q hm2 hQ
        have hlock2 := (hm2.unlocked ip).trans hlock1
        have href2 : 1 ≤ (s2.icache ip).ref := by
          have h := hm2.refs ip
          simp only [Pi.zero_apply] at h
          omega
        refine iunlockput_wp hlock2 href2 ?_ hE
        intro s3 hm3
        apply hQ
        have h12 : Moved 0 b 0 (one ip) s s2 :=
          hm1.trans (by simpa using hm2.frame 0 (one ip))
        have h12' : Moved (one ip) (one ip + b) 0 (one ip) s s2 := by
          simpa [add_comm] using h12.frame (one ip) 0
        exact h12'.trans (by simpa using hm3.frame b 0)
      simp only [wp_bind, wp_get]
      refine wp_ite (fun _ => ?_) fun _ => ?_
      · simp only [wp_bind]
        refine hput (Moved.refl (a := 0) s1) ?_
        intro s' hm
        exact (wp_pure ..).2 (hQ none s' hm)
      refine wp_ite (fun _ => ?_) fun _ => ?_
      · -- nameiparent stops one level early
        simp only [wp_bind]
        refine iunlock_wp hlock1 href1 ((wp_pure ..).2 (hQ _ _ ?_))
        have h := hm1.trans (unlock_moved hlock1)
        simpa using h.frame (one ip) 0
      simp only [wp_bind]
      refine dirlookup_wp ?_ hE
      intro r s2 hl2
      have hm2 := hl2.moved
      cases r with
      | none =>
          simp only [wp_bind]
          refine hput hm2 ?_
          intro s' hm
          exact (wp_pure ..).2 (hQ none s' hm)
      | some r =>
          rcases r with ⟨next, off⟩
          simp only [wp_bind]
          refine hput hm2 ?_
          intro s3 hm3
          have hnext : 1 ≤ (s3.icache next).ref := by
            have h := hm3.refs next
            simp only [Option.map_some, given_some, one_self] at h
            have hp := hm3.refs ip
            by_cases hn : next = ip
            · subst hn
              rw [one_self] at h
              omega
            · rw [one_of_ne hn] at h
              omega
          refine ih hnext ?_ ?_
          · intro r s4 hm4
            exact hQ r s4 (hm3.trans hm4)
          · rintro ⟨j, hj⟩
            exact hdead ⟨j, (hm3.unlocked j).symm.trans hj⟩

/-- The walk starts with a reference to the root or to the cwd. -/
theorem startInode_wp {p : Fin NPROC} {path : List UInt8} {Q : Entry → Kernel → Prop}
    (hQ : ∀ ip s', Moved 0 (one ip) 0 0 s s' → Q ip s') (hE : ∀ e, Inner e → E e) :
    wp (startInode p path) s Q E := by
  unfold startInode
  refine wp_ite (fun _ => ?_) fun _ => ?_
  · refine iget_wp (fun ip s' hg => hQ ip s' hg.moved) (hE _ (.panic (by decide)))
  simp only [wp_bind, wp_get]
  cases hcwd : (s.task p).cwd with
  | none => exact (wp_throw ..).2 (hE _ .fault)
  | some cwd =>
      dsimp only [idup]
      rw [wp_bind, setInode_wp, wp_pure]
      apply hQ
      refine Moved.entry (entered_setInode _) ?_ rfl
        (fun _ => ⟨rfl, id, fun _ => rfl, fun _ _ => rfl⟩)
        ?_ fun _ _ => rfl
      · rw [one_self]
        rfl
      · intro j hj
        rw [one_of_ne hj]
        rfl

/-- `namex` moves in a reference to what it returns, and deadlocks only on a lock held before. -/
theorem namex_wp {p : Fin NPROC} {path : List UInt8} {parent : Bool}
    {Q : Option (Entry × List UInt8) → Kernel → Prop}
    (hQ : ∀ r s', Moved 0 (given (r.map Prod.fst)) 0 0 s s' → Q r s')
    (hdead : (∃ j, (s.icache j).locked = true) → E .deadlock) (hE : ∀ e, Inner e → E e) :
    wp (namex p path parent) s Q E := by
  unfold namex
  rw [wp_bind]
  refine startInode_wp ?_ hE
  intro ip s1 hm1
  refine walk_wp ?_ ?_ ?_ hE
  · have h := hm1.refs ip
    rw [one_self] at h
    simp only [Pi.zero_apply] at h
    omega
  · intro r s2 hm2
    exact hQ r s2 (hm1.trans hm2)
  · rintro ⟨j, hj⟩
    exact hdead ⟨j, (hm1.unlocked j).symm.trans hj⟩

/-- `namei` likewise. -/
theorem namei_wp {p : Fin NPROC} {path : List UInt8} {Q : Option Entry → Kernel → Prop}
    (hQ : ∀ r s', Moved 0 (given r) 0 0 s s' → Q r s')
    (hdead : (∃ j, (s.icache j).locked = true) → E .deadlock) (hE : ∀ e, Inner e → E e) :
    wp (namei p path) s Q E := by
  unfold namei
  rw [wp_bind]
  exact namex_wp (fun r s' hm => (wp_pure ..).2 (hQ _ s' hm)) hdead hE

/-! ## New entries -/

/-- The kernel's `ialloc` moves in a reference to the new inode. -/
theorem ialloc_wp {type : Nat} {Q : Entry → Kernel → Prop}
    (hQ : ∀ ip s', Moved 0 (one ip) 0 0 s s' → Q ip s') (hE : ∀ e, Inner e → E e) :
    wp (ialloc type) s Q E := by
  have hfrom : ∀ n inum, wp (iallocFrom type n inum) s Q E := by
    intro n
    induction n with
    | zero => exact fun _ => (wp_throw ..).2 (hE _ (.panic (by decide)))
    | succ n ih =>
        intro inum
        unfold iallocFrom bread bwrite halt
        simp only [wp_bind, wp_get]
        by_cases hb : IBLOCK inum s.sb < FSSIZE
        · rw [if_pos hb, wp_pure]
          refine wp_ite (fun _ => ?_) fun _ => ih _
          simp only [wp_bind, wp_modify]
          refine iget_wp ?_ (hE _ (.panic (by decide)))
          intro ip s' hg
          have hm := hg.moved
          exact hQ ip s' ⟨hm.sb, hm.ftable, hm.task, hm.refs, hm.locks, hm.held⟩
        · rw [if_neg hb]
          exact (wp_throw ..).2 (hE _ (.panic (by decide)))
  unfold ialloc
  simp only [wp_bind, wp_get]
  exact hfrom _ _

/-- A directory that gets a new entry. -/
theorem dirlink_wp {name : List UInt8} {inum : Nat} {Q : Bool → Kernel → Prop}
    (hQ : ∀ r s', Moved 0 0 0 0 s s' → Q r s')
    (hdead : (∃ j, (s.icache j).locked = true) → E .deadlock) (hE : ∀ e, Inner e → E e) :
    wp (dirlink ip name inum) s Q E := by
  unfold dirlink
  rw [wp_bind]
  refine dirlookup_wp ?_ hE
  intro r s1 hl
  have hm := hl.moved
  cases r with
  | some r =>
      -- the name is there: its inode is put, and the call fails
      rcases r with ⟨jp, off⟩
      simp only [wp_bind]
      refine iput_wp ?_ ?_ hE
      · intro hfree s2 hp
        have href : 1 ≤ (s1.icache jp).ref := by
          have h := hm.refs jp
          simp only [Option.map_some, given_some, one_self, Pi.zero_apply] at h
          omega
        exact (wp_pure ..).2 (hQ false s2 (hm.trans (hp.moved hfree href)))
      · intro hlock
        exact hdead ⟨jp, (hm.unlocked jp).symm.trans hlock⟩
  | none =>
      -- the name is not there: an entry is written
      rcases hl with ⟨hdir, _, ht, rfl⟩
      have hdir1 := ht.type.trans hdir
      simp only [wp_bind, wp_get]
      refine wp.mono (emptyFrom_works _ _ s1) ?_ hE
      intro off s2 ht2
      refine wp.mono (writeContent_works _ off s2) ?_ hE
      intro ok s3 ht3
      refine wp_ite (fun _ => ?_) fun _ => ?_
      · rw [wp_bind]
        exact (wp_throw ..).2 (hE _ (.panic (by decide)))
      · refine (wp_pure ..).2 (hQ true s3 (hm.trans ?_))
        exact (ht2.moved hdir1).trans (ht3.moved (ht2.type.trans hdir1))

end Xv6.Fs
