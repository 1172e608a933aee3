import Xv6.Fs.Follow
import Xv6.Fs.Race

/-!
# What a symbolic link means

The text of a link is looked up when it is read or written through, by the process
that does so. An absolute text leads all of them to one inode; a relative one starts
at the directory that the process is in.

* `same_file_iff`: a process reads and writes the file that the creator of the
  link meant if and only if the text is absolute, or leads from its own directory
  to the same inode;
* `relative_link`: a process elsewhere reads another file.

`Way` is the walk along the directories of the disk, written as a relation and not
as the code, and `Reaches` says what `sys_read` and `sys_write` of the process end
up with. Between the making of the link and its use the disk may change, as long
as the inode of the link and the way to the file are kept.
-/

namespace Xv6.Fs

open Xv6.Lib Prog
open Mkfs (sb nmeta)

namespace Reach

variable {s s' t : Kernel} {p q : Fin NPROC} {ip jp lp c : Entry} {i k : Nat}
variable {name old : List UInt8} {names : List (List UInt8)} {r : Option Nat}

/-! ## The cache and the directories -/

/-- The cache has one entry for an inode, and what it has read is what is on the disk. -/
structure Coherent (s : Kernel) : Prop where
  sb : s.sb = sb
  super : ∀ b, b < nmeta → s.disk.used Mkfs.sb b = true
  agrees : ∀ j, 1 ≤ (s.icache j).ref → (s.icache j).valid = true →
    (s.icache j).din = s.disk.dinode Mkfs.sb (s.icache j).inum
  unique : ∀ j j', 1 ≤ (s.icache j).ref → 1 ≤ (s.icache j').ref →
    (s.icache j).inum = (s.icache j').inum → j = j'

/-- Inode `i` is a directory with the bytes `c`. -/
structure DirOf (d : Disk) (i : Nat) (c : List UInt8) : Prop where
  type : (d.dinode sb i).type = T_DIR
  filled : ∃ m, Bytes d (d.dinode sb i) m c ∧ ∀ x, m x ≠ 0 → d.used sb (m x) = true
  whole : SIZEOF_DIRENT ∣ c.length

/-- A reference to inode `i` is not the last one to an inode without links. -/
def Stays (s : Kernel) (i : Nat) : Prop :=
  (s.disk.dinode sb i).nlink ≠ 0 ∨ ∃ j, 1 ≤ (s.icache j).ref ∧ (s.icache j).inum = i

/-- From inode `i` the entries for the names lead to `r`, or to nothing. -/
inductive Way (s : Kernel) : Nat → List (List UInt8) → Option Nat → Prop
  | here {i : Nat} (lt : i < sb.ninodes) (type : (s.disk.dinode sb i).type ≠ 0) :
      Way s i [] (some i)
  | file {i : Nat} {name : List UInt8} {names : List (List UInt8)} (lt : i < sb.ninodes)
      (stays : Stays s i) (type : (s.disk.dinode sb i).type ≠ 0)
      (file : (s.disk.dinode sb i).type ≠ T_DIR) : Way s i (name :: names) none
  | missing {i : Nat} {name c : List UInt8} {names : List (List UInt8)} (lt : i < sb.ninodes)
      (stays : Stays s i) (dir : DirOf s.disk i c) (entry : (Dir.slots c).lookup name = none) :
      Way s i (name :: names) none
  | entry {i j n : Nat} {name c : List UInt8} {names : List (List UInt8)} {r : Option Nat}
      (lt : i < sb.ninodes) (stays : Stays s i) (dir : DirOf s.disk i c)
      (entry : (Dir.slots c).lookup name = some (j, n)) (rest : Way s j names r) :
      Way s i (name :: names) r

/-! ## One operation on the cache -/

/-- An entry has changed that is still what is on the disk, for an inode that no other entry
is for. -/
theorem Coherent.entered {x : Inode} (hc : Coherent s) (he : Entered ip x s s')
    (hdin : 1 ≤ x.ref → x.valid = true → x.din = s.disk.dinode Mkfs.sb x.inum)
    (hother : 1 ≤ x.ref → ∀ j, j ≠ ip → 1 ≤ (s.icache j).ref → (s.icache j).inum ≠ x.inum) :
    Coherent s' where
  sb := by
    rw [he]
    exact hc.sb
  super := by
    rw [he]
    exact hc.super
  agrees := by
    intro j href hvalid
    have hdisk : s'.disk = s.disk := by
      rw [he]
      rfl
    rw [hdisk]
    -- the entry that was loaded agrees with the disk, and the others do as before
    by_cases hj : j = ip
    · subst hj
      rw [he.self] at href hvalid ⊢
      exact hdin href hvalid
    · rw [he.other hj] at href hvalid ⊢
      exact hc.agrees j href hvalid
  unique := by
    intro j j' href href' hinum
    -- no two entries have one number
    by_cases hj : j = ip
    · by_cases hj' : j' = ip
      · exact hj.trans hj'.symm
      · subst hj
        rw [he.self] at href hinum
        rw [he.other hj'] at href' hinum
        exact absurd hinum.symm (hother href j' hj' href')
    · by_cases hj' : j' = ip
      · subst hj'
        rw [he.self] at href' hinum
        rw [he.other hj] at href hinum
        exact absurd hinum (hother href' j hj href)
      · rw [he.other hj] at href hinum
        rw [he.other hj'] at href' hinum
        exact hc.unique j j' href href' hinum

/-- The entry is for the same inode as before. -/
theorem Coherent.changed {x : Inode} (hc : Coherent s) (he : Entered ip x s s')
    (href : 1 ≤ (s.icache ip).ref) (hinum : x.inum = (s.icache ip).inum)
    (hdin : x.valid = true → x.din = s.disk.dinode Mkfs.sb x.inum) : Coherent s' := by
  refine hc.entered he (fun _ => hdin) fun _ j hj hrefj heq => ?_
  exact hj (hc.unique j ip hrefj href (heq.trans hinum))

/-- `iget` keeps the cache coherent. -/
theorem Coherent.got (hc : Coherent s) (hg : Got k ip s s')
    (hnew : (s.icache ip).ref = 0 → ∀ j, 1 ≤ (s.icache j).ref → (s.icache j).inum ≠ k) :
    Coherent s' := by
  cases hg with
  | found href hinum he =>
      exact hc.changed he href rfl fun hvalid => hc.agrees ip href hvalid
  | taken href he =>
      exact hc.entered he (fun _ => nofun) fun _ j _ hj => hnew href j hj

/-- The inode is locked, and read if it was not. -/
theorem ilock_rule {Q : Unit → Kernel → Prop} {E : Stop → Prop} (hc : Coherent s)
    (hfree : (s.icache ip).locked = false) (href : 1 ≤ (s.icache ip).ref)
    (hlt : (s.icache ip).inum < sb.ninodes)
    (htype : (s.disk.dinode sb (s.icache ip).inum).type ≠ 0)
    (hQ : ∀ s', Entered ip { s.icache ip with
        locked := true
        valid := true
        din := s.disk.dinode sb (s.icache ip).inum } s s' → Q () s') : wp (ilock ip) s Q E := by
  have hblock : IBLOCK (s.icache ip).inum sb < FSSIZE := by
    have := IBLOCK_lt hlt
    have := bmapstart_lt
    have := nmeta_lt_FSSIZE
    omega
  unfold ilock acquiresleep
  simp only [wp_bind, wp_get]
  rw [if_neg (Nat.not_lt.2 href)]
  simp only [wp_bind, wp_get]
  rw [if_neg (by rw [hfree]; exact Bool.false_ne_true), setInode_wp, hc.sb]
  refine wp_ite (fun _ => ?_) fun hvalid => ?_
  -- the inode is loaded; its type is not 0, so the panic is not taken
  · simp only [wp_bind, setInode_wp]
    refine bread_wp hblock ?_
    rw [setInode_setInode]
    refine wp_ite (fun h0 => absurd h0 htype) fun _ => (wp_pure ..).2 ?_
    exact hQ _ rfl
  -- it was loaded before
  · have hv : (s.icache ip).valid = true := by simpa using hvalid
    refine (wp_pure ..).2 (hQ _ ?_)
    unfold Entered Kernel.setInode
    rw [← hc.agrees ip href hv, ← hv]

/-- The lock and the reference are given back, and the inode is not freed. -/
theorem iunlockput_keep {Q : Unit → Kernel → Prop} {E : Stop → Prop}
    (hlock : (s.icache ip).locked = true) (href : 1 ≤ (s.icache ip).ref)
    (hlast : ¬ Last (s.icache ip))
    (hQ : ∀ s', Entered ip { s.icache ip with
        locked := false
        ref := (s.icache ip).ref - 1 } s s' → Moved (one ip) 0 (one ip) 0 s s' → Q () s') :
    wp (iunlockput ip) s Q E := by
  unfold iunlockput
  rw [wp_bind]
  refine iunlock_wp hlock href (iput_keep_wp ?_ ?_ ?_)
  · rw [setInode_self]
  · rw [setInode_self]
    exact hlast
  rw [setInode_setInode]
  refine hQ _ rfl (Moved.entry rfl ?_ ?_ (fun _ => ⟨rfl, id, fun _ => rfl, fun _ _ => rfl⟩) ?_ ?_)
  · rw [one_self]
    show (s.icache ip).ref - 1 + 1 = (s.icache ip).ref + 0
    omega
  · rw [one_self, lockN_true.2 hlock, lockN_false.2 rfl]
    rfl
  · intro j hj
    rw [one_of_ne hj]
    rfl
  · intro j hj
    rw [one_of_ne hj]
    rfl

/-! ## Walking along the names -/

/-- Two entries of the cache are free. -/
def Room (t : Kernel) : Prop := ∃ j j', j ≠ j' ∧ (t.icache j).ref = 0 ∧ (t.icache j').ref = 0

section moved

variable {b h l : Entry → Nat}

/-- One of them is left when a reference has been taken. -/
theorem Room.left (hroom : Room t) (hm : Moved 0 (one ip) h l t s) : ∃ j, (s.icache j).ref = 0 := by
  rcases hroom with ⟨j, j', hne, hj, hj'⟩
  have hrefs : ∀ j, (s.icache j).ref + 0 = (t.icache j).ref + one ip j := hm.refs
  by_cases heq : j = ip
  · refine ⟨j', ?_⟩
    have h' := hrefs j'
    rw [one_of_ne fun he => hne (heq.trans he.symm)] at h'
    omega
  · refine ⟨j, ?_⟩
    have h' := hrefs j
    rw [one_of_ne heq] at h'
    omega

/-- A reference that has been taken is not the last one to an inode without links. -/
theorem Stays.not_last (hstays : Stays t (s.icache ip).inum) (hc : Coherent s)
    (hdisk : s.disk = t.disk) (hm : Moved 0 (one ip + b) h l t s) : ¬ Last (s.icache ip) := by
  rintro ⟨hvalid, hnlink, hone⟩
  have hrefs : ∀ j, (s.icache j).ref + 0 = (t.icache j).ref + (one ip j + b j) := hm.refs
  rcases hstays with hlinks | ⟨j, hj, hinum⟩
  · rw [hc.agrees ip (by omega) hvalid, hdisk] at hnlink
    exact hlinks hnlink
  · -- somebody else has the entry
    have hsame := (hm.held j hj).inum
    have hjip : j = ip := by
      refine hc.unique j ip ?_ (by omega) (hsame.trans hinum)
      have h' := hrefs j
      omega
    have h' := hrefs ip
    rw [one_self] at h'
    rw [hjip] at hj
    omega

end moved

/-- On a walk from `t`, with the reference to `ip`. -/
structure Walking (t : Kernel) (ip : Entry) (s : Kernel) : Prop where
  coherent : Coherent s
  disk : s.disk = t.disk
  moved : Moved 0 (one ip) 0 0 t s

/-- On a walk from `t`, with the lock of `ip` and the references `b` to other entries. -/
structure Inside (t : Kernel) (ip : Entry) (b : Entry → Nat) (s : Kernel) : Prop where
  coherent : Coherent s
  disk : s.disk = t.disk
  moved : Moved 0 (one ip + b) 0 (one ip) t s
  locked : (s.icache ip).locked = true
  din : (s.icache ip).din = t.disk.dinode sb (s.icache ip).inum

theorem Walking.ref (h : Walking t ip s) : 1 ≤ (s.icache ip).ref := by
  have hrefs : (s.icache ip).ref + 0 = (t.icache ip).ref + one ip ip := h.moved.refs ip
  rw [one_self] at hrefs
  omega

theorem Inside.ref {b : Entry → Nat} (h : Inside t ip b s) : 1 ≤ (s.icache ip).ref := by
  have hrefs : (s.icache ip).ref + 0 = (t.icache ip).ref + (one ip ip + b ip) := h.moved.refs ip
  rw [one_self] at hrefs
  omega

/-- The inode that the walk has come to is locked. -/
theorem Walking.lock {Q : Unit → Kernel → Prop} {E : Stop → Prop} (h : Walking t ip s)
    (hun : ∀ j, (t.icache j).locked = false) (hlt : (s.icache ip).inum < sb.ninodes)
    (htype : (t.disk.dinode sb (s.icache ip).inum).type ≠ 0)
    (hQ : ∀ s', Inside t ip 0 s' → (s'.icache ip).inum = (s.icache ip).inum → Q () s') :
    wp (ilock ip) s Q E := by
  have hfree := (h.moved.unlocked ip).trans (hun ip)
  rw [← h.disk] at htype
  refine ilock_rule h.coherent hfree h.ref hlt htype ?_
  intro s1 he
  -- one lock more than at the start of the walk
  have hm : Moved 0 0 0 (one ip) s s1 := by
    refine Moved.entry he rfl ?_ (fun _ => ⟨rfl, fun _ => rfl, ?_, ?_⟩) (fun _ _ => rfl) ?_
    · rw [one_self, lockN_false.2 hfree, lockN_true.2 rfl]
      rfl
    · intro hv
      rw [h.coherent.agrees ip h.ref hv]
    · intro hv _
      rw [h.coherent.agrees ip h.ref hv]
    · intro j hj
      rw [one_of_ne hj]
      rfl
  have hdisk : s1.disk = s.disk := by
    rw [he]
    rfl
  refine hQ s1 ⟨?_, hdisk.trans h.disk, ?_, ?_, ?_⟩ ?_
  · exact h.coherent.changed he h.ref rfl fun _ => rfl
  · exact h.moved.trans (by simpa using hm.frame (one ip) 0)
  · rw [he.self]
  · rw [he.self, h.disk]
  · rw [he.self]

/-- The directory is given back; the references `b` are kept. -/
theorem Inside.put {b : Entry → Nat} {Q : Unit → Kernel → Prop} {E : Stop → Prop}
    (h : Inside t ip b s) (hstays : Stays t (s.icache ip).inum)
    (hQ : ∀ s', Coherent s' → s'.disk = t.disk → Moved 0 b 0 0 t s' →
      (∀ j, (s'.icache j).inum = (s.icache j).inum) → Q () s') : wp (iunlockput ip) s Q E := by
  refine iunlockput_keep h.locked h.ref (hstays.not_last h.coherent h.disk h.moved) ?_
  intro s1 he hm
  have hdisk : s1.disk = s.disk := by
    rw [he]
    rfl
  refine hQ s1 ?_ (hdisk.trans h.disk) ?_ ?_
  · refine h.coherent.changed he h.ref rfl fun _ => ?_
    rw [h.disk]
    exact h.din
  · exact h.moved.trans (by simpa using hm.frame b 0)
  · intro j
    by_cases hj : j = ip
    · rw [hj, he.self]
    · rw [he.other hj]

/-- The table of the directory that has been locked. -/
theorem DirOf.table {c : List UInt8} (hd : DirOf s.disk i c) (hlt : i < sb.ninodes)
    (hsb : s.sb = sb) (hsuper : ∀ b, b < nmeta → s.disk.used sb b = true)
    (hinum : (s.icache ip).inum = i) (hdin : (s.icache ip).din = s.disk.dinode sb i) :
    ∃ U m, Dir.Table U s ip m c := by
  rcases hd.filled with ⟨m, hb, hused⟩
  rw [← hdin] at hb
  refine ⟨_, m, ⟨hb.tree.mapped hsb hsuper hused, hb, ?_⟩, ?_, hd.whole⟩
  · rw [hinum]
    exact hlt
  · rw [hdin]
    exact hd.type

/-- `dirlookup` in the directory that is locked. -/
theorem Inside.lookup {c : List UInt8} {Q : Option (Entry × Nat) → Kernel → Prop} {E : Stop → Prop}
    (h : Inside t ip 0 s) (hroom : Room t) (hlt : (s.icache ip).inum < sb.ninodes)
    (hdir : DirOf t.disk (s.icache ip).inum c)
    (hnone : (Dir.slots c).lookup name = none → Q none s)
    (hsome : ∀ k n jp s', (Dir.slots c).lookup name = some (k, n) → Inside t ip (one jp) s' →
      (s'.icache ip).inum = (s.icache ip).inum → (s'.icache jp).inum = k →
      Q (some (jp, n * SIZEOF_DIRENT)) s') : wp (dirlookup ip name) s Q E := by
  rw [← h.disk] at hdir
  obtain ⟨U, m, htable⟩ := hdir.table hlt h.coherent.sb h.coherent.super rfl (by rw [h.din, h.disk])
  have hroom' : ∃ j, (s.icache j).ref = 0 := hroom.left (by simpa using h.moved)
  refine Dir.lookup_wp htable hnone ?_ ?_
  · intro k n jp s1 hl hg hnew
    -- the directory's own entry is as it was
    have hsame : (s1.icache ip).inum = (s.icache ip).inum ∧
      (s1.icache ip).din = (s.icache ip).din := by
      have href := h.ref
      by_cases hne : ip = jp
      · subst hne
        cases hg with
        | found _ _ he => exact ⟨by rw [he.self], by rw [he.self]⟩
        | taken h0 _ => omega
      · cases hg with
        | found _ _ he => exact ⟨by rw [he.other hne], by rw [he.other hne]⟩
        | taken _ he => exact ⟨by rw [he.other hne], by rw [he.other hne]⟩
    have hk : (s1.icache jp).inum = k := by
      cases hg with
      | found _ hinum he => rw [he.self, ← hinum]
      | taken _ he => rw [he.self]
    have hdisk : s1.disk = s.disk := (Race.Got.quiet hg).disk
    refine hsome k n jp s1 hl ⟨?_, hdisk.trans h.disk, ?_, ?_, ?_⟩ hsame.1 hk
    · exact h.coherent.got hg hnew
    · exact h.moved.trans (by simpa [add_comm] using hg.moved.frame (one ip) (one ip))
    · exact (hg.moved.unlocked ip).trans h.locked
    · rw [hsame.1, hsame.2]
      exact h.din
  -- the cache has room, so `iget` does not panic
  · intro k n _ hall
    rcases hroom' with ⟨j, hj⟩
    have hone := (hall j).1
    omega

/-- The entry that a walk from `t` has come to is for inode `r`, or there is none. -/
def Arrived (t : Kernel) (r : Option Nat) : Option Entry → Kernel → Prop
  | none, _ => r = none
  | some jp, s' => r = some (s'.icache jp).inum ∧ Walking t jp s'

/-- The names are walked along, from entry to entry. -/
theorem walk_rule (hun : ∀ j, (t.icache j).locked = false) (hroom : Room t) (hway : Way t i names r)
    (h : Walking t ip s) (hi : (s.icache ip).inum = i) :
    Ends (walk false ip names) s fun r' s' => Arrived t r (r'.map Prod.fst) s' := by
  have htype0 : ∀ {i : Nat} {c : List UInt8}, DirOf t.disk i c → (t.disk.dinode sb i).type ≠ 0 := by
    intro i c hd
    rw [hd.type]
    decide
  -- along the way: the end, a file in the middle, a name that is missing, and one more
  -- directory
  induction hway generalizing s ip with
  | @here i lt type =>
      unfold walk
      rw [if_neg Bool.false_ne_true, Ends, wp_pure]
      exact ⟨congrArg some hi.symm, h⟩
  | @file i name names lt stays type file =>
      subst hi
      unfold walk
      simp only [Ends, wp_bind]
      refine h.lock hun lt type ?_
      intro s1 h1 hi1
      rw [← hi1] at stays file
      simp only [wp_get]
      rw [if_pos (by rw [h1.din]; exact file)]
      simp only [wp_bind]
      exact h1.put stays fun _ _ _ _ _ => (wp_pure ..).2 rfl
  | @missing i name c names lt stays dir entry =>
      subst hi
      unfold walk
      simp only [Ends, wp_bind]
      refine h.lock hun lt (htype0 dir) ?_
      intro s1 h1 hi1
      rw [← hi1] at stays dir lt
      simp only [wp_get]
      rw [if_neg (by rw [h1.din, dir.type]; exact not_not.2 rfl), if_neg fun hp =>
        absurd hp.1 Bool.false_ne_true]
      rw [wp_bind]
      refine h1.lookup hroom lt dir ?_ ?_
      · intro _
        simp only [wp_bind]
        exact h1.put stays fun _ _ _ _ _ => (wp_pure ..).2 rfl
      · intro k n jp s2 hl
        rw [entry] at hl
        cases hl
  | @entry i j n name c names r lt stays dir entry rest ih =>
      subst hi
      unfold walk
      simp only [Ends, wp_bind]
      refine h.lock hun lt (htype0 dir) ?_
      intro s1 h1 hi1
      rw [← hi1] at stays dir lt
      simp only [wp_get]
      rw [if_neg (by rw [h1.din, dir.type]; exact not_not.2 rfl), if_neg fun hp =>
        absurd hp.1 Bool.false_ne_true]
      rw [wp_bind]
      refine h1.lookup hroom lt dir ?_ ?_
      · intro hl
        rw [entry] at hl
        cases hl
      · intro k m jp s2 hl h2 hi2 hjp
        rw [entry] at hl
        cases hl
        rw [← hi2] at stays
        simp only [wp_bind]
        refine h2.put stays ?_
        intro s3 hc hdisk hm hinums
        exact ih ⟨hc, hdisk, hm⟩ ((hinums jp).trans hjp)

/-- The inode where a path starts. -/
def startInum (s : Kernel) (p : Fin NPROC) (path : List UInt8) : Option Nat :=
  if path.head? = some SLASH then some ROOTINO
  else (s.task p).cwd.map fun cwd => (s.icache cwd).inum

/-- The process holds its current directory. -/
def HoldsCwd (s : Kernel) (p : Fin NPROC) : Prop :=
  ∀ cwd, (s.task p).cwd = some cwd → 1 ≤ (s.icache cwd).ref

/-- The walk starts at the root, or at the cwd for a relative path. -/
theorem startInode_rule {path : List UInt8} (hc : Coherent t) (hroom : Room t) (hcwd : HoldsCwd t p)
    (hstart : startInum t p path = some i) :
    Ends (startInode p path) t fun ip s' => Walking t ip s' ∧ (s'.icache ip).inum = i := by
  unfold startInum at hstart
  unfold startInode
  by_cases hroot : path.head? = some SLASH
  -- an absolute path: the root
  · rw [if_pos hroot] at hstart ⊢
    cases hstart
    refine iget_rule ?_ ?_
    · intro ip s' hg hnew
      refine ⟨⟨hc.got hg hnew, (Race.Got.quiet hg).disk, hg.moved⟩, ?_⟩
      cases hg with
      | found _ hinum he => rw [he.self, ← hinum]
      | taken _ he => rw [he.self]
    · intro hall
      rcases hroom with ⟨j, -, -, h0, -⟩
      have hone := (hall j).1
      omega
  -- a relative one: the cwd, which holds a reference
  · rw [if_neg hroot] at hstart ⊢
    rcases Option.map_eq_some_iff.1 hstart with ⟨cwd, hsome, hinum⟩
    have href := hcwd cwd hsome
    simp only [Ends, wp_bind, wp_get]
    rw [hsome]
    dsimp only [idup]
    rw [wp_bind, setInode_wp, wp_pure]
    have hg : Got i cwd t (t.setInode cwd fun x => { x with ref := x.ref + 1 }) :=
      .found href hinum rfl
    refine ⟨⟨hc.got hg fun h0 => ?_, rfl, hg.moved⟩, ?_⟩
    · omega
    · rw [setInode_self]
      exact hinum

/-- `namei` leads where the entries lead from the inode where the path starts. -/
theorem namei_rule {path : List UInt8} (hc : Coherent t) (hun : ∀ j, (t.icache j).locked = false)
    (hroom : Room t) (hcwd : HoldsCwd t p) (hstart : startInum t p path = some i)
    (hway : Way t i (elems path) r) : Ends (namei p path) t (Arrived t r) := by
  unfold namei namex
  simp only [Ends, wp_bind]
  refine wp.mono (startInode_rule hc hroom hcwd hstart) ?_ fun _ he => he
  rintro ip s1 ⟨hw, hi⟩
  refine wp.mono (walk_rule hun hroom hway hw hi) ?_ fun _ he => he
  exact fun _ _ hr => (wp_pure ..).2 hr

/-! ## Reading and writing through a link -/

/-- The same references and inodes on the disk. -/
theorem Way.congr (h : Way s i names r) (hdisk : s'.disk = s.disk)
    (hcache : ∀ j, 1 ≤ (s.icache j).ref → 1 ≤ (s'.icache j).ref ∧
      (s'.icache j).inum = (s.icache j).inum) : Way s' i names r := by
  have hstays : ∀ {i : Nat}, Stays s i → Stays s' i := by
    rintro i (hlinks | ⟨j, hj, hinum⟩)
    · rw [← hdisk] at hlinks
      exact .inl hlinks
    · exact .inr ⟨j, (hcache j hj).1, (hcache j hj).2.trans hinum⟩
  induction h with
  | here lt type => exact .here lt (by rw [hdisk]; exact type)
  | file lt stays type file =>
      exact .file lt (hstays stays) (by rw [hdisk]; exact type) (by rw [hdisk]; exact file)
  | missing lt stays dir entry => exact .missing lt (hstays stays) (by rw [hdisk]; exact dir) entry
  | entry lt stays dir entry rest ih =>
      exact .entry lt (hstays stays) (by rw [hdisk]; exact dir) entry ih

/-- The inode at the end is allocated. -/
theorem Way.target (h : Way s i names (some k)) :
    k < sb.ninodes ∧ (s.disk.dinode sb k).type ≠ 0 := by
  generalize hr : some k = r at h
  induction h with
  | here lt type =>
      cases hr
      exact ⟨lt, type⟩
  | file => cases hr
  | missing => cases hr
  | entry _ _ _ _ _ ih => exact ih hr

/-- Behind a link goes on what is left of the loop. -/
theorem follow_of_leads {n : Nat} (h : Leads p 1 s ip s' jp) :
    (follow p lp (n + 1) ip).run s = (follow p lp n jp).run s' := by
  cases h with
  | link type text unlock name lock rest =>
      cases rest
      have hrun : (follow p lp (n + 1) ip).run s =
          ((set s' : FM PUnit) >>= fun _ => follow p lp n jp).run s := by
        refine run_eq_of_wp fun Q E hwp => ?_
        rw [wp_bind, wp_set] at hwp
        rw [Fs.follow]
        simp only [wp_bind, wp_get]
        rw [if_neg (not_not.2 type)]
        simp only [wp_bind]
        refine wp_of_ok text (wp_of_ok unlock (wp_of_ok name ?_))
        simp only [wp_bind]
        exact wp_of_ok lock hwp
      exact hrun

/-- What `p` reads and writes at the link `lp` is read and written at inode `k`, with the
lock of that inode; it may be a link again. -/
def Reaches (p : Fin NPROC) (s : Kernel) (lp : Entry) (k : Nat) : Prop :=
  ∃ s' jp, Leads p 1 s lp s' jp ∧ (s'.icache jp).inum = k ∧
    (∀ con off n, (readi p con lp off n).run s =
      (follow p lp 9 jp >>= atEnd lp none con fun jp => readContent jp off n).run s') ∧
    ∀ src off, (writei p lp src off).run s =
      (follow p lp 9 jp >>= atEnd lp false true fun jp => writeContent jp src off).run s'

/-- A chain of one link reaches the inode at its end. -/
theorem reaches_of_leads (h : Leads p 1 s lp s' jp) (hk : (s'.icache jp).inum = k) :
    Reaches p s lp k := by
  refine ⟨s', jp, h, hk, ?_, ?_⟩
  · intro con off n
    rw [readi_eq, StateT.run_bind, StateT.run_bind, follow_of_leads h]
  · intro src off
    rw [writei_eq, StateT.run_bind, StateT.run_bind, follow_of_leads h]

/-- Process `p` has locked the link at `lp`, and nothing else is locked. -/
structure Opened (s : Kernel) (p : Fin NPROC) (lp : Entry) : Prop where
  coherent : Coherent s
  locked : (s.icache lp).locked = true
  valid : (s.icache lp).valid = true
  ref : 1 ≤ (s.icache lp).ref
  alone : ∀ j, j ≠ lp → (s.icache j).locked = false
  room : Room s
  cwd : HoldsCwd s p

/-- Without the lock. -/
abbrev dropped (s : Kernel) (lp : Entry) : Kernel := s.setInode lp fun x =>
    { x with locked := false }

theorem dropped_ref (s : Kernel) (lp j : Entry) :
    ((dropped s lp).icache j).ref = (s.icache j).ref := by
  by_cases hj : j = lp
  · rw [hj, setInode_self]
  · rw [setInode_of_ne hj]

theorem dropped_inum (s : Kernel) (lp j : Entry) :
    ((dropped s lp).icache j).inum = (s.icache j).inum := by
  by_cases hj : j = lp
  · rw [hj, setInode_self]
  · rw [setInode_of_ne hj]

/-- The text is looked up from where the reader is. -/
theorem reaches_iff_way (ho : Opened t p lp) (hreads : Reads (t.icache lp).din old)
    (hstart : startInum t p old = some i) (hway : Way t i (elems old) r) :
    Reaches p t lp k ↔ r = some k := by
  -- the reader unlocks the link first; the walk begins in that state
  have hc : Coherent (dropped t lp) :=
    ho.coherent.changed rfl ho.ref rfl fun hv => ho.coherent.agrees lp ho.ref hv
  have hun : ∀ j, ((dropped t lp).icache j).locked = false := by
    intro j
    by_cases hj : j = lp
    · rw [hj, setInode_self]
    · rw [setInode_of_ne hj]
      exact ho.alone j hj
  have hroom : Room (dropped t lp) := by
    rcases ho.room with ⟨j, j', hne, hj, hj'⟩
    exact ⟨j, j', hne, (dropped_ref ..).trans hj, (dropped_ref ..).trans hj'⟩
  have hcwd : HoldsCwd (dropped t lp) p := by
    intro cwd hsome
    rw [dropped_ref]
    exact ho.cwd cwd hsome
  have hstart' : startInum (dropped t lp) p old = some i := by
    rw [← hstart]
    unfold startInum
    split
    · rfl
    · show (t.task p).cwd.map _ = _
      simp only [dropped_inum]
  have hway' : Way (dropped t lp) i (elems old) r := by
    refine hway.congr rfl fun j hj => ?_
    rw [dropped_ref, dropped_inum]
    exact ⟨hj, rfl⟩
  have hunlock : (iunlock lp).run t = .ok ((), dropped t lp) := by
    have h : Ends (iunlock lp) t fun _ t' => t' = dropped t lp := iunlock_wp ho.locked ho.ref rfl
    rcases Ends.exists h with ⟨_, _, hrun, rfl⟩
    exact hrun
  -- the walk has one result, by the way it takes
  rcases Ends.exists (namei_rule hc hun hroom hcwd hstart' hway') with ⟨r', t2, hname, harr⟩
  constructor
  · -- the one place that the link leads to
    rintro ⟨s', jp, hl, hk, -, -⟩
    cases hl with
    | link _ text unlock name lock rest =>
        cases rest
        rw [hreads.2] at text
        cases text
        rw [hunlock] at unlock
        cases unlock
        rw [hname] at name
        cases name
        have hsame : wp (ilock jp) t2 (fun _ s' => (s'.icache jp).inum = (t2.icache jp).inum)
            fun _ => True := by
          refine ilock_wp ?_ (fun _ => trivial) fun _ _ => trivial
          intro _ _ s' he
          rw [he.self]
          rfl
        rw [harr.1, ← hsame.of_ok lock, hk]
  · intro hr
    -- a way that leads to an inode leads the loop there
    cases r' with
    | none =>
        rw [hr] at harr
        cases harr
    | some jp =>
        rcases harr with ⟨hinum, hw⟩
        rw [hr] at hinum hway'
        have hk : (t2.icache jp).inum = k := (Option.some.inj hinum).symm
        rcases hway'.target with ⟨hlt, htype⟩
        have hlock : Ends (ilock jp) t2 fun _ s' => (s'.icache jp).inum = k := by
          refine hw.lock hun (by rw [hk]; exact hlt) (by rw [hk]; exact htype) ?_
          intro s' _ hsame
          exact hsame.trans hk
        rcases Ends.exists hlock with ⟨_, s', hrun, hk'⟩
        exact reaches_of_leads (.link hreads.1 (hreads.2 t) hunlock hname hrun .here) hk'

/-! ## The same file -/

/-- The inode that `sys_symlink` has made, and its number afterwards. -/
def MadeInode (p : Fin NPROC) (old new : List UInt8) (s s' : Kernel) (n : Nat) : Prop :=
  ∃ ip s0, (linkInode p old new).run s = .ok (some ip, s0) ∧ (s'.icache ip).inum = n

/-- `namei` finds inode `k`. -/
def Finds (p : Fin NPROC) (s : Kernel) (path : List UInt8) (k : Nat) : Prop :=
  ∃ jp s', (namei p path).run s = .ok (some jp, s') ∧ (s'.icache jp).inum = k

/-- When process `p` makes the link, the entries for `old` lead to inode `k` from inode `i`. -/
structure Creating (s : Kernel) (p : Fin NPROC) (old : List UInt8) (i k : Nat) : Prop where
  coherent : Coherent s
  unlocked : ∀ j, (s.icache j).locked = false
  room : Room s
  cwd : HoldsCwd s p
  start : startInum s p old = some i
  way : Way s i (elems old) (some k)

/-- A link that has been made has a text that fits. -/
theorem symlink_fits {new : List UInt8} (hmade : (sys_symlink p old new).run s = .ok (true, s')) :
    old.length + 1 ≤ SIZEOF_ADDRS := by
  have h : wp (sys_symlink p old new) s (fun r _ => r = true → old.length + 1 ≤ SIZEOF_ADDRS)
      fun _ => True := by
    unfold sys_symlink
    rw [wp_bind]
    refine wp_any fun r s1 => ?_
    cases r with
    | none => exact (wp_pure ..).2 nofun
    | some ip =>
        unfold putText
        simp only [wp_bind, setDin_wp]
        refine wp_ite (fun _ => (wp_throw ..).2 trivial) fun hfit => ?_
        rw [setDin_wp]
        refine wp_any fun _ _ => wp_any fun _ _ => (wp_pure ..).2 fun _ => ?_
        exact Nat.not_lt.1 hfit
  exact h.of_ok hmade rfl

/-- The inode of the link reads as the text, on the disk. -/
theorem made_reads {new : List UInt8} {n : Nat} (h0 : ∀ c ∈ old, c ≠ 0)
    (hmade : (sys_symlink p old new).run s = .ok (true, s')) (hnew : MadeInode p old new s s' n) :
    Reads (s'.disk.dinode s'.sb n) old := by
  have hsurv := (survives_iff p old new s h0).2 (.inl (symlink_fits hmade))
  rcases hsurv.of_ok hmade rfl with ⟨-, ip, s1, hrun, hst⟩
  rcases hnew with ⟨ip', s1', hrun', hinum⟩
  rw [hrun] at hrun'
  cases hrun'
  rw [← hinum, hst.disk]
  exact hst.reads

/-- Process `q` reads and writes the creator's file through the link if and only if the text is
absolute, or leads from where `q` is to the same inode. -/
theorem same_file_iff {new : List UInt8} {n i0 : Nat} {s1 : Kernel} (h0 : ∀ c ∈ old, c ≠ 0)
    (hcreating : Creating s p old i0 k) (hmade : (sys_symlink p old new).run s = .ok (true, s1))
    (hnew : MadeInode p old new s s1 n) (ho : Opened t q lp) (hinum : (t.icache lp).inum = n)
    (hkept : t.disk.dinode sb n = s1.disk.dinode s1.sb n)
    (hentries : Way t i0 (elems old) (some k)) (hstart : startInum t q old = some i)
    (hsound : ∃ r, Way t i (elems old) r) :
    Finds p s old k ∧
      (Reaches q t lp k ↔ old.head? = some SLASH ∨ Way t i (elems old) (some k)) := by
  have hreads : Reads (t.icache lp).din old := by
    rw [ho.coherent.agrees lp ho.ref ho.valid, hinum, hkept]
    exact made_reads h0 hmade hnew
  constructor
  · -- what the creator has found
    obtain ⟨r, s', hrun, harr⟩ := Ends.exists (namei_rule hcreating.coherent hcreating.unlocked
      hcreating.room hcreating.cwd hcreating.start hcreating.way)
    cases r with
    | none => cases harr
    | some jp => exact ⟨jp, s', hrun, (Option.some.inj harr.1).symm⟩
  constructor
  · intro hreach
    -- the reader's own way decides
    rcases hsound with ⟨r, hway⟩
    rw [(reaches_iff_way ho hreads hstart hway).1 hreach] at hway
    exact .inr hway
  · rintro (habs | hway)
    -- the two walks begin at one directory: both at the root, or both at the creator's cwd
    · have hroot : i = i0 := by
        have hs := hcreating.start
        unfold startInum at hs hstart
        rw [if_pos habs] at hs hstart
        exact Option.some.inj (hstart.symm.trans hs)
      rw [← hroot] at hentries
      exact (reaches_iff_way ho hreads hstart hentries).2 rfl
    · exact (reaches_iff_way ho hreads hstart hway).2 rfl

/-! ## A relative text -/

/-- The number of the inode behind the link at `lp`. -/
def behind (p : Fin NPROC) (lp : Entry) : FM (Option Nat) := do
  let s ← get
  let path ← linkText (s.icache lp).din
  iunlock lp
  match ← namei p path with
  | none => return none
  | some jp => do
      ilock jp
      let s ← get
      return some (s.icache jp).inum

/-- What a link reaches is what one turn of the loop gives. -/
theorem behind_of_reaches (h : Reaches p t lp k) :
    ∃ s', (behind p lp).run t = .ok (some k, s') := by
  rcases h with ⟨s', jp, hl, hk, -⟩
  cases hl with
  | link type text unlock name lock rest =>
      cases rest
      have hwp : Ends (behind p lp) t fun r _ => r = some k := by
        unfold behind
        simp only [Ends, wp_bind, wp_get]
        refine wp_of_ok text (wp_of_ok unlock (wp_of_ok name ?_))
        simp only [wp_bind]
        refine wp_of_ok lock ?_
        rw [wp_get, wp_pure, hk]
      rcases Ends.exists hwp with ⟨_, t', hrun, rfl⟩
      exact ⟨t', hrun⟩

/-- And the other way round. -/
theorem reaches_of_behind (htype : (t.icache lp).din.type = T_SYMLINK)
    (hrun : (behind p lp).run t = .ok (some k, s')) : Reaches p t lp k := by
  have hwp : wp (behind p lp) t (fun r _ => r = some k → Reaches p t lp k) fun _ => True := by
    unfold behind
    simp only [wp_bind, wp_get]
    refine wp_run fun path s1 htext => ?_
    have hsame : s1 = t := by
      unfold linkText at htext
      split at htext
      · cases htext
      · cases htext
        rfl
    subst hsame
    refine wp_run fun _ s2 hunlock => wp_run fun r s3 hname => ?_
    cases r with
    | none => exact (wp_pure ..).2 (by simp)
    | some jp =>
        simp only [wp_bind]
        refine wp_run fun _ s4 hlock => ?_
        rw [wp_get, wp_pure]
        intro hk
        exact reaches_of_leads (.link htype htext hunlock hname hlock .here) (Option.some.inj hk)
  exact hwp.of_ok hrun rfl

theorem ok_of_toOption {α : Type} {x : Except Stop α} {a : α} (h : x.toOption = some a) :
    x = .ok a := by
  cases x with
  | error e => cases h
  | ok b => exact congrArg Except.ok (Option.some.inj h)

/-- A root with the file `/f` and the directory `/d`, and a process in each of the two
directories. -/
def twoDirs : Kernel where
  disk := fun b =>
    if b = IBLOCK ROOTINO sb then
      putDinode (putDinode (putDinode zeroes 1
          ((((Dinode.zero.setType T_DIR).setNlink 2).setSize (4 * SIZEOF_DIRENT)).setAddr 0 nmeta))
        2 ((Dinode.zero.setType T_FILE).setNlink 1))
        3 ((((Dinode.zero.setType T_DIR).setNlink 1).setSize (2 * SIZEOF_DIRENT)).setAddr 0
          (nmeta + 1))
    else if b = nmeta then
      patch zeroes 0 (4 * SIZEOF_DIRENT) fun i =>
        (dirent 1 [DOT] ++ dirent 1 [DOT, DOT] ++ dirent 2 [102] ++ dirent 3 [100]).getD i 0
    else if b = nmeta + 1 then
      patch zeroes 0 (2 * SIZEOF_DIRENT) fun i => (dirent 3 [DOT] ++ dirent 1 [DOT, DOT]).getD i 0
    else if b = sb.bmapstart then Mkfs.marked (nmeta + 2)
    else zeroes
  sb := sb
  icache := fun j =>
    if j = 0 then ⟨ROOTINO, 1, false, false, Dinode.zero⟩
    else if j = 1 then ⟨3, 1, false, false, Dinode.zero⟩
    else ⟨0, 0, false, false, Dinode.zero⟩
  ftable := fun _ => ⟨.FD_NONE, 0, false, false, none, 0⟩
  task := fun p => ⟨some (if p = 0 then 0 else 1), fun _ => none⟩

/-- `symlink("f", "/l")` by the process in the root, and `open("/l")` by the other. -/
def openLink : FM (Option Entry) := do
  let _ ← sys_symlink 0 [102] [SLASH, 108]
  match ← namei 1 [SLASH, 108] with
  | none => return none
  | some lp => do
      ilock lp
      return some lp

/-- The link is `/f` for the one, and nothing for the other. -/
theorem relative_link : Finds 0 twoDirs [102] 2 ∧ ∃ lp t, openLink.run twoDirs = .ok (some lp, t) ∧
    (t.icache lp).din.type = T_SYMLINK ∧ Reaches 0 t lp 2 ∧ ∀ k, ¬ Reaches 1 t lp k := by
  have hfinds : ((namei 0 [102]).run twoDirs).toOption.map
    (fun x => x.1.map fun jp => (x.2.icache jp).inum) =
      some (some 2) := by decide +kernel
  have hopen : (openLink.run twoDirs).toOption.map (fun x => x.1.map fun lp =>
      ((x.2.icache lp).din.type, ((behind 0 lp).run x.2).toOption.map Prod.fst,
        ((behind 1 lp).run x.2).toOption.map Prod.fst)) =
      some (some (T_SYMLINK, some (some 2), some none)) := by decide +kernel
  constructor
  · rcases Option.map_eq_some_iff.1 hfinds with ⟨⟨r, s'⟩, hrun, hview⟩
    rcases Option.map_eq_some_iff.1 hview with ⟨jp, rfl, hinum⟩
    exact ⟨jp, s', ok_of_toOption hrun, hinum⟩
  · rcases Option.map_eq_some_iff.1 hopen with ⟨⟨r, t⟩, hrun, hview⟩
    rcases Option.map_eq_some_iff.1 hview with ⟨lp, rfl, hview⟩
    rcases Prod.mk.inj hview with ⟨htype, hview⟩
    rcases Prod.mk.inj hview with ⟨hroot, hdir⟩
    refine ⟨lp, t, ok_of_toOption hrun, htype, ?_, fun k hk => ?_⟩
    · rcases Option.map_eq_some_iff.1 hroot with ⟨⟨r, s'⟩, hrun, rfl⟩
      exact reaches_of_behind htype (ok_of_toOption hrun)
    · rcases behind_of_reaches hk with ⟨s', hrun⟩
      rw [hrun] at hdir
      cases hdir

/-! ## An absolute text -/

/-- The bytes `c` are in the one block `b` of the inode. -/
def inOneBlock (d : Disk) (din : Dinode) (b : Nat) (c : List UInt8) : Prop :=
  din.size = c.length ∧ c.length ≤ BSIZE ∧ nmeta ≤ b ∧ b < FSSIZE ∧
    (∀ k, k < NDIRECT + 3 → din.addr k = if k = 0 then b else 0) ∧
    (List.range c.length).map (byteAt (d b)) = c

instance (d : Disk) (din : Dinode) (b : Nat) (c : List UInt8) : Decidable (inOneBlock d din b c) :=
  inferInstanceAs (Decidable (_ ∧ _ ∧ _ ∧ _ ∧ _ ∧ _))

/-- A file of one block is laid out as `bmap` looks for it. -/
theorem bytes_of_inOneBlock {d : Disk} {din : Dinode} {b : Nat} {c : List UInt8}
    (h : inOneBlock d din b c) : Bytes d din (fun x => if x = leaf 0 then b else 0) c := by
  rcases h with ⟨hsize, hfit, hlow, hhigh, haddr, hbytes⟩
  have hpos : b ≠ 0 := Nat.ne_of_gt (Nat.lt_of_lt_of_le (by decide : 0 < nmeta) hlow)
  have hleaf : leaf 0 = ⟨0, []⟩ := rfl
  -- one leaf is mapped and nothing else
  have honly : ∀ x, (if x = leaf 0 then b else 0) ≠ 0 → x = leaf 0 := by
    intro x hx
    by_contra hne
    rw [if_neg hne] at hx
    exact hx rfl
  refine ⟨⟨?_, ?_, ?_, ?_, ?_⟩, hsize, Nat.le_trans hfit (by decide), ?_⟩
  · rintro ⟨k, _ | ⟨i, p⟩⟩ hv hl
    · refine (haddr k hv.slot).trans ?_
      by_cases hk : k = 0
      · rw [if_pos hk, if_pos (by rw [hk]; rfl)]
      · have hne : (⟨k, []⟩ : Node) ≠ leaf 0 := fun he => hk (congrArg Node.slot he)
        rw [if_neg hk, if_neg hne]
    · -- the place above is the block itself, at depth zero
      have habove := honly _ hl
      rw [hleaf] at habove
      rcases Node.mk.inj habove with ⟨rfl, rfl⟩
      exact absurd hv.length (by simp [depth, NDIRECT])
  · intro x hx
    rw [honly x hx]
    exact leaf_valid (by decide)
  · intro x hx
    rw [honly x hx]
    trivial
  · intro x y hx hxy
    rw [hxy] at hx
    rw [honly x (hxy ▸ hx), honly y hx]
  · intro x hx
    rw [honly x hx, if_pos rfl]
    exact ⟨hlow, hhigh⟩
  · intro o ho
    have hlt : o < BSIZE := Nat.lt_of_lt_of_le ho hfit
    dsimp only
    rw [Nat.div_eq_of_lt hlt, Nat.mod_eq_of_lt hlt, if_pos rfl]
    refine ⟨hpos, ?_⟩
    have hget := congrArg (fun l => l.getD o 0) hbytes
    rw [← hget]
    simp [ho]

/-- Inode `i` is a directory in the block `b`, which is marked as used. -/
def oneBlockDir (d : Disk) (i b : Nat) (c : List UInt8) : Prop :=
  (d.dinode sb i).type = T_DIR ∧ SIZEOF_DIRENT ∣ c.length ∧ d.used sb b = true ∧
    inOneBlock d (d.dinode sb i) b c

instance (d : Disk) (i b : Nat) (c : List UInt8) : Decidable (oneBlockDir d i b c) :=
  inferInstanceAs (Decidable (_ ∧ _ ∧ _ ∧ _))

/-- A directory in one block is a directory. -/
theorem dirOf_of_oneBlockDir {d : Disk} {b : Nat} {c : List UInt8} (h : oneBlockDir d i b c) :
    DirOf d i c where
  type := h.1
  filled := by
    refine ⟨_, bytes_of_inOneBlock h.2.2.2, fun x hx => ?_⟩
    by_cases hne : x = leaf 0
    · rw [if_pos hne]
      exact h.2.2.1
    · rw [if_neg hne] at hx
      exact absurd rfl hx
  whole := h.2.1

/-- In the root directory, of one block, the name `f` is inode `2`. -/
structure RootHasFile (s : Kernel) (c : List UInt8) : Prop where
  dir : oneBlockDir s.disk ROOTINO nmeta c
  links : (s.disk.dinode sb ROOTINO).nlink ≠ 0
  entry : (Dir.slots c).lookup [102] = some (2, 2)
  file : (s.disk.dinode sb 2).type ≠ 0

/-- The way to a file in the root. -/
theorem RootHasFile.way {c : List UInt8} (h : RootHasFile s c) :
    Way s ROOTINO (elems [SLASH, 102]) (some 2) := by
  have hpath : elems [SLASH, 102] = [[102]] := by decide +kernel
  rw [hpath]
  exact .entry (by decide) (.inl h.links) (dirOf_of_oneBlockDir h.dir) h.entry
    (.here (by decide) h.file)

/-- The entries of the root directory of `twoDirs`. -/
def rootEntries : List UInt8 :=
  dirent 1 [DOT] ++ dirent 1 [DOT, DOT] ++ dirent 2 [102] ++ dirent 3 [100]

/-- `twoDirs` on a disk without a free block. -/
def fullDirs : Kernel :=
  { twoDirs with disk := fun b => if b = sb.bmapstart then fun _ => 255 else twoDirs.disk b }

/-- A process in `/d` has locked the link, inode `4`, and has read nothing else. -/
def reading (d : Disk) : Kernel :=
  { twoDirs with
    disk := d
    icache := fun j =>
      if j = 0 then ⟨4, 1, true, true, d.dinode sb 4⟩
      else if j = 1 then ⟨3, 1, false, false, Dinode.zero⟩
      else ⟨0, 0, false, false, Dinode.zero⟩ }


/-- Two entries of the cache are in use. -/
theorem fullDirs_ref {j : Entry} (h : 1 ≤ (fullDirs.icache j).ref) : j = 0 ∨ j = 1 := by
  by_contra hne
  have hfree : fullDirs.icache j = ⟨0, 0, false, false, Dinode.zero⟩ :=
    (if_neg fun he => hne (.inl he)).trans (if_neg fun he => hne (.inr he))
  rw [hfree] at h
  exact Nat.not_succ_le_zero 0 h

/-- Two entries are in use while the link is read. -/
theorem reading_ref {d : Disk} {j : Entry} (h : 1 ≤ ((reading d).icache j).ref) :
    j = 0 ∨ j = 1 := by
  by_contra hne
  have hfree : (reading d).icache j = ⟨0, 0, false, false, Dinode.zero⟩ :=
    (if_neg fun he => hne (.inl he)).trans (if_neg fun he => hne (.inr he))
  rw [hfree] at h
  exact Nat.not_succ_le_zero 0 h

/-- The state in which the link is made. -/
theorem fullDirs_creating : Creating fullDirs 0 [SLASH, 102] ROOTINO 2 where
  coherent :=
    { sb := rfl
      super := by decide +kernel
      agrees := by
        intro j href hvalid
        rcases fullDirs_ref href with rfl | rfl
        · cases hvalid
        · cases hvalid
      unique := by
        intro j j' href href' hinum
        rcases fullDirs_ref href with rfl | rfl <;> rcases fullDirs_ref href' with rfl | rfl
        · rfl
        · cases hinum
        · cases hinum
        · rfl }
  unlocked := by
    intro j
    show (if j = 0 then _ else if j = 1 then _ else _ : Inode).locked = false
    split
    · rfl
    · split <;> rfl
  room := ⟨2, 3, by decide, rfl, rfl⟩
  cwd := by
    intro c hc
    cases hc
    decide
  start := rfl
  way := by
    have hslots : Dir.slots rootEntries =
        [some ([DOT], 1), some ([DOT, DOT], 1), some ([102], 2), some ([100], 3)] := by
      decide +kernel
    have hentry : (Dir.slots rootEntries).lookup [102] = some (2, 2) := by
      rw [hslots]
      decide
    exact RootHasFile.way (c := rootEntries) ⟨by decide +kernel, by decide +kernel, hentry,
      by decide +kernel⟩

/-- The state in which it is opened. -/
theorem reading_opened {d : Disk} (hsuper : ∀ b, b < nmeta → d.used sb b = true) :
    Opened (reading d) 1 0 := by
  refine ⟨⟨rfl, hsuper, ?_, ?_⟩, rfl, rfl, Nat.le_refl 1, ?_, ⟨2, 3, by decide, rfl, rfl⟩, ?_⟩
  · intro j href hvalid
    rcases reading_ref href with rfl | rfl
    · rfl
    · cases hvalid
  · intro j j' href href' hinum
    rcases reading_ref href with rfl | rfl <;> rcases reading_ref href' with rfl | rfl
    · rfl
    · cases hinum
    · cases hinum
    · rfl
  · intro j hj
    show (if j = 0 then _ else if j = 1 then _ else _ : Inode).locked = false
    rw [if_neg hj]
    split <;> rfl
  · intro c hc
    cases hc
    exact Nat.le_refl 1

/-- A process in `/d` reads the file `/f` through the absolute link `/l`. -/
theorem same_file_absolute : ∃ s1,
    (sys_symlink 0 [SLASH, 102] [SLASH, 108]).run fullDirs = .ok (true, s1) ∧
    MadeInode 0 [SLASH, 102] [SLASH, 108] fullDirs s1 4 ∧ Finds 0 fullDirs [SLASH, 102] 2 ∧
    Reaches 1 (reading s1.disk) 0 2 := by
  -- the link is made, and what it leaves on disk
  have hmade : ((sys_symlink 0 [SLASH, 102] [SLASH, 108]).run fullDirs).toOption.map (fun x =>
      (x.1, decide (x.2.sb = sb ∧ (x.2.icache 3).inum = 4 ∧
        (∀ b, b < nmeta → x.2.disk.used sb b = true) ∧
        oneBlockDir x.2.disk ROOTINO nmeta (rootEntries ++ dirent 4 [108]) ∧
        (x.2.disk.dinode sb ROOTINO).nlink ≠ 0 ∧ (x.2.disk.dinode sb 2).type ≠ 0))) =
      some (true, true) := by decide +kernel
  have hnew : ((linkInode 0 [SLASH, 102] [SLASH, 108]).run fullDirs).toOption.map Prod.fst =
      some (some 3) := by decide +kernel
  rcases Option.map_eq_some_iff.1 hmade with ⟨⟨ok, s1⟩, hrun, hview⟩
  rcases Prod.mk.inj hview with ⟨hok, hview⟩
  have hok : ok = true := hok
  subst hok
  rcases of_decide_eq_true hview with ⟨hsb, hinum, hsuper, hdir, hlinks, hfile⟩
  have hslots : Dir.slots (rootEntries ++ dirent 4 [108]) =
      [some ([DOT], 1), some ([DOT, DOT], 1), some ([102], 2), some ([100], 3),
        some ([108], 4)] := by
    decide +kernel
  have hentry : (Dir.slots (rootEntries ++ dirent 4 [108])).lookup [102] = some (2, 2) := by
    rw [hslots]
    decide
  -- the file is still in the root
  have hroot : RootHasFile (reading s1.disk) (rootEntries ++ dirent 4 [108]) :=
    ⟨hdir, hlinks, hentry, hfile⟩
  have hmadeInode : MadeInode 0 [SLASH, 102] [SLASH, 108] fullDirs s1 4 := by
    rcases Option.map_eq_some_iff.1 hnew with ⟨⟨r, s0⟩, hlink, hr⟩
    have hr : r = some 3 := hr
    subst hr
    exact ⟨3, s0, ok_of_toOption hlink, hinum⟩
  have hkept : (reading s1.disk).disk.dinode sb 4 = s1.disk.dinode s1.sb 4 := by
    rw [show s1.sb = sb from hsb]
    rfl
  obtain ⟨hfinds, hreaches⟩ := same_file_iff (by simp [SLASH]) fullDirs_creating
    (ok_of_toOption hrun)
    hmadeInode (reading_opened hsuper) rfl hkept hroot.way rfl ⟨_, hroot.way⟩
  exact ⟨s1, ok_of_toOption hrun, hmadeInode, hfinds, hreaches.2 (.inl rfl)⟩

end Reach

end Xv6.Fs
