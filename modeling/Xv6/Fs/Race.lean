import Xv6.Fs.Sections
import Xv6.Fs.Symlink

/-!
# Links and the inodes that are there

`sys_symlink` looks `new` up, and then makes it: between these sections the other
process makes, links and unlinks what it wants. A section of `sys_symlink` changes
no inode that has a link, unless `create` finds a name that was not there before.

* `symlink_keeps`: in every reachable state with sound directories in which
  `create` will not find the name, the next section of the call changes no inode
  that is there, and nothing is stored behind `addrs[]`;
* `file_retyped`: the other process makes the name in between, and its file
  becomes a link.

There are two processes; what the second one calls is open. Sound directories are
those whose entries name inodes that are in use.
-/

namespace Xv6.Fs

open Xv6.Lib Prog
open Mkfs (sb nmeta)

namespace Race

variable {s s' s1 : Kernel} {ip jp dp : Entry} {i inum : Nat} {E : Stop → Prop}
    {old name : List UInt8}

/-! ## Inodes on the disk -/

/-- Work on the inode at `ip`: no other inode is written. -/
structure Spares (ip : Entry) (s s' : Kernel) : Prop where
  sb : s'.sb = s.sb
  inum : (s'.icache ip).inum = (s.icache ip).inum
  dinodes : s.sb = Mkfs.sb → ∀ i, i < Mkfs.sb.ninodes → i ≠ (s.icache ip).inum →
    s'.disk.dinode Mkfs.sb i = s.disk.dinode Mkfs.sb i

theorem Spares.refl (s : Kernel) : Spares ip s s := ⟨rfl, rfl, fun _ _ _ _ => rfl⟩

/-- What two calls in a row spare. -/
theorem Spares.trans (s s1 s' : Kernel) (h : Spares ip s s1) (h' : Spares ip s1 s') :
    Spares ip s s' where
  sb := h'.sb.trans h.sb
  inum := h'.inum.trans h.inum
  dinodes := by
    intro hsb i hi hne
    refine (h'.dinodes (h.sb.trans hsb) i hi ?_).trans (h.dinodes hsb i hi hne)
    rwa [h.inum]

/-- A block behind the inodes is written. -/
theorem Spares.setBlock {b : Nat} {v : Block} (hb : s.sb = Mkfs.sb → Mkfs.sb.bmapstart ≤ b) :
    Spares ip s (s.setBlock b v) := by
  refine ⟨rfl, rfl, fun hsb i hi _ => ?_⟩
  show dinodeAt (s.disk.put b v (IBLOCK i Mkfs.sb)) (i % IPB) = _
  rw [Disk.put_of_ne _ _ _ (ne_IBLOCK hi (hb hsb)).symm]
  rfl

/-- Work that writes no other inode. -/
def Sparing (ip : Entry) {α : Type} (x : FM α) : Prop := Within (Spares ip) (fun _ => True) x

section

variable {α β : Type} {x : FM α} {f : α → FM β}

theorem Sparing.bind (hx : Sparing ip x) (hf : ∀ a, Sparing ip (f a)) : Sparing ip (x >>= f) :=
  Within.bind Spares.trans hx hf

theorem Sparing.pure (a : α) : Sparing ip (pure a : FM α) := Within.pure Spares.refl a

theorem Sparing.get : Sparing ip (get : FM Kernel) := Within.get Spares.refl

theorem Sparing.ite {c : Prop} [Decidable c] {y : FM α} (hx : c → Sparing ip x)
    (hy : ¬ c → Sparing ip y) : Sparing ip (if c then x else y) := Within.ite hx hy

theorem Sparing.halt {msg : String} : Sparing ip (halt msg : FM α) := Within.throw trivial

end

theorem bread_spares (b : Nat) : Sparing ip (bread b) :=
  Sparing.get.bind fun _ => Sparing.ite (fun _ => .pure _) fun _ => .halt

theorem setDin_spares (f : Dinode → Dinode) : Sparing ip (setDin ip f) := by
  refine Within.modify fun s => ⟨rfl, ?_, fun _ _ _ _ => rfl⟩
  unfold Kernel.setInode
  simp

/-- `bfree` spares the other inodes. -/
theorem bfree_spares (b : Nat) : Sparing ip (bfree b) := by
  intro s
  have hlow : s.sb = sb → sb.bmapstart ≤ BBLOCK b s.sb := by
    intro hsb
    rw [hsb]
    exact Nat.le_add_left _ _
  have hclear : ∀ bp, wp (do
      if getBit bp (b % BPB) = false then halt "freeing free block"
      bwrite (BBLOCK b s.sb) (clearBit bp (b % BPB)) : FM Unit) s (fun _ s' => Spares ip s s')
      fun _ => True := by
    intro bp
    refine wp_ite (fun _ => ?_) fun _ => ?_
    · rw [wp_bind]
      exact (wp_throw ..).2 trivial
    · exact (wp_modify ..).2 (.setBlock hlow)
  unfold bfree bread
  simp only [wp_bind, wp_get]
  by_cases hb : BBLOCK b s.sb < FSSIZE
  · rw [if_pos hb, wp_pure]
    exact hclear _
  · rw [if_neg hb]
    exact (wp_throw ..).2 trivial

/-- `iupdate` spares the inodes with other numbers. -/
theorem iupdate_spares : Sparing ip (iupdate ip) := by
  intro s
  unfold iupdate bread
  simp only [wp_bind, wp_get]
  by_cases hb : IBLOCK (s.icache ip).inum s.sb < FSSIZE
  · rw [if_pos hb, wp_pure]
    refine (wp_modify ..).2 ⟨rfl, rfl, fun hsb i _ hne => ?_⟩
    show (s.disk.put _ _).dinode sb i = _
    rw [hsb]
    exact Disk.dinode_put_ne hne _
  · rw [if_neg hb]
    exact (wp_throw ..).2 trivial

/-- Freeing a tree spares them. By induction on the levels. -/
theorem freeTree_spares (k b : Nat) : Sparing ip (freeTree k b) := by
  induction k generalizing b with
  | zero => exact bfree_spares b
  | succ k ih =>
      have heach : ∀ l, Sparing ip (eachWord (freeTree k) l) := by
        intro l
        induction l with
        | nil => exact .pure _
        | cons a l ihl => exact Sparing.ite (fun _ => (ih a).bind fun _ => ihl) fun _ => ihl
      exact (bread_spares _).bind fun _ => (heach _).bind fun _ => bfree_spares b

theorem truncSlot_spares (depth k : Nat) : Sparing ip (truncSlot ip depth k) :=
  Sparing.get.bind fun _ => Sparing.ite
    (fun _ => (freeTree_spares _ _).bind fun _ => setDin_spares _) fun _ => .pure _

/-- `itrunc` spares them. -/
theorem itrunc_spares : Sparing ip (itrunc ip) := by
  have hdirect : ∀ ks, Sparing ip (truncDirect ip ks) := by
    intro ks
    induction ks with
    | nil => exact .pure _
    | cons k ks ih => exact (truncSlot_spares _ _).bind fun _ => ih
  refine (hdirect _).bind fun _ => (truncSlot_spares _ _).bind fun _ => ?_
  refine (truncSlot_spares _ _).bind fun _ => (truncSlot_spares _ _).bind fun _ => ?_
  exact (setDin_spares _).bind fun _ => iupdate_spares

theorem setInode_spares {f : Inode → Inode} (hf : ∀ x, (f x).inum = x.inum) :
    Sparing ip (setInode ip f) := by
  refine Within.modify fun s => ⟨rfl, ?_, fun _ _ _ _ => rfl⟩
  rw [setInode_self]
  exact hf _

/-- Taking a lock spares every inode. -/
theorem acquiresleep_spares : Sparing ip (acquiresleep ip) := by
  have hlock : Sparing ip (setInode ip fun x => { x with locked := true }) := by
    apply setInode_spares
    exact fun _ => rfl
  refine Sparing.get.bind fun s => Sparing.ite (fun _ => ?_) fun _ => hlock
  exact Sparing.bind (Within.throw trivial) fun _ => hlock

/-- `iput` spares the other inodes, also where it frees its own. -/
theorem iput_spares : Sparing ip (iput ip) := by
  have hrest : Sparing ip (do
      releasesleep ip
      setInode ip fun x => { x with ref := x.ref - 1 }) := by
    refine Sparing.bind ?_ fun _ => ?_
    · apply setInode_spares
      exact fun _ => rfl
    · apply setInode_spares
      exact fun _ => rfl
  have hvalid : Sparing ip (setInode ip fun x => { x with valid := false }) := by
    apply setInode_spares
    exact fun _ => rfl
  refine acquiresleep_spares.bind fun _ => Sparing.get.bind fun s => ?_
  refine Sparing.ite (fun _ => ?_) fun _ => hrest
  refine itrunc_spares.bind fun _ => (setDin_spares _).bind fun _ => iupdate_spares.bind fun _ => ?_
  exact hvalid.bind fun _ => hrest

/-! ## Inodes that are there -/

/-- The entry `j` of the cache is a copy of inode `i`. -/
structure Copy (s : Kernel) (j : Entry) (i : Nat) : Prop where
  ref : 1 ≤ (s.icache j).ref
  valid : (s.icache j).valid = true
  inum : (s.icache j).inum = i

/-- Inode `i` is allocated, and has links: every copy says so. -/
structure Linked (s : Kernel) (i : Nat) : Prop where
  lt : i < sb.ninodes
  type : (s.disk.dinode sb i).type ≠ 0
  nlink : (s.disk.dinode sb i).nlink ≠ 0
  copy : ∀ j, Copy s j i → (s.icache j).din.nlink ≠ 0

/-- Inode `i` and the copies of it are as they were. -/
structure Same (i : Nat) (s s' : Kernel) : Prop where
  disk : s'.disk.dinode sb i = s.disk.dinode sb i
  copy : ∀ j, Copy s j i → Copy s' j i → (s'.icache j).din = (s.icache j).din

/-- A directory whose blocks are there, in the data area, and marked. -/
def Filled (d : Disk) (din : Dinode) : Prop :=
  ∃ m c, Bytes d din m c ∧ (∀ x, m x ≠ 0 → d.used sb (m x) = true) ∧ SIZEOF_DIRENT ∣ c.length

/-- The free map and the directories are sound. -/
structure Sound (s : Kernel) : Prop where
  sb : s.sb = sb
  super : ∀ b, b < nmeta → s.disk.used Mkfs.sb b = true
  inum : ∀ j, 1 ≤ (s.icache j).ref → (s.icache j).inum < Mkfs.sb.ninodes
  dirs : ∀ i, i < Mkfs.sb.ninodes → (s.disk.dinode Mkfs.sb i).type = T_DIR →
    Filled s.disk (s.disk.dinode Mkfs.sb i)
  copies : ∀ j i, Copy s j i → (s.icache j).din.type = T_DIR →
    (s.disk.dinode Mkfs.sb i).type = T_DIR ∧ Filled s.disk (s.icache j).din

/-- Nothing on the disk has changed, and every copy is still there. -/
structure Quiet (s s' : Kernel) : Prop where
  disk : s'.disk = s.disk
  copy : ∀ j i, Copy s j i → Copy s' j i ∧ (s'.icache j).din = (s.icache j).din

/-- Two quiet steps are one. -/
theorem Quiet.trans (h : Quiet s s1) (h' : Quiet s1 s') : Quiet s s' where
  disk := h'.disk.trans h.disk
  copy := by
    intro j i hj
    rcases h.copy j i hj with ⟨hj1, hdin⟩
    rcases h'.copy j i hj1 with ⟨hj', hdin'⟩
    exact ⟨hj', hdin'.trans hdin⟩

theorem Quiet.same (h : Quiet s s') : Same i s s' :=
  ⟨by rw [h.disk], fun j hj _ => (h.copy j i hj).2⟩

/-- An entry of the cache has changed that stays a copy if it was one. -/
theorem Entered.quiet {x : Inode} (he : Entered ip x s s')
    (hx : 1 ≤ (s.icache ip).ref → (s.icache ip).valid = true →
      1 ≤ x.ref ∧ x.valid = true ∧ x.inum = (s.icache ip).inum ∧ x.din = (s.icache ip).din) :
    Quiet s s' := by
  refine ⟨by rw [he]; rfl, fun j i hj => ?_⟩
  by_cases hji : j = ip
  · subst hji
    rcases hx hj.ref hj.valid with ⟨href, hvalid, hinum, hdin⟩
    have hself := he.self
    rw [← hself] at href hvalid hinum hdin
    exact ⟨⟨href, hvalid, hinum.trans hj.inum⟩, hdin⟩
  · have hother := he.other hji
    refine ⟨⟨?_, ?_, ?_⟩, by rw [hother]⟩
    · rw [hother]
      exact hj.ref
    · rw [hother]
      exact hj.valid
    · rw [hother]
      exact hj.inum

/-- `iget` writes nothing to the disk. -/
theorem Got.quiet (hg : Got inum ip s s') : Quiet s s' := by
  cases hg with
  | found _ _ he => exact Entered.quiet he fun _ hv => ⟨Nat.le_add_left _ _, hv, rfl, rfl⟩
  | taken href he =>
      refine Entered.quiet he fun hr => ?_
      rw [href] at hr
      cases hr

theorem loaded_quiet (he : Entered ip (loaded s ip) s s') : Quiet s s' := by
  refine Entered.quiet he fun href hv => ⟨href, rfl, rfl, ?_⟩
  unfold loaded
  exact if_pos hv

theorem unlock_quiet (s : Kernel) (ip : Entry) :
    Quiet s (s.setInode ip fun x => { x with locked := false }) :=
  Entered.quiet (entered_setInode _) fun href hv => ⟨href, hv, rfl, rfl⟩

/-- Where a path starts. -/
theorem start_same {p : Fin NPROC} {path : List UInt8} :
    wp (startInode p path) s (fun _ s' => ∀ i, Same i s s') (fun e => e ≠ .overrun) := by
  unfold startInode
  refine wp_ite (fun _ => ?_) fun _ => ?_
  · exact iget_wp (fun _ _ hg _ => (Got.quiet hg).same) (by simp)
  · simp only [wp_bind, wp_get]
    cases (s.task p).cwd with
    | none => exact (wp_throw ..).2 (by simp)
    | some cwd =>
        dsimp only [idup]
        rw [wp_bind, setInode_wp, wp_pure]
        refine fun i => Quiet.same (Entered.quiet (entered_setInode _) fun _ hv => ?_)
        exact ⟨Nat.le_add_left _ _, hv, rfl, rfl⟩

/-- A reference is given back; if the inode is freed with it, it has no links. -/
theorem iput_same (hsb : s.sb = sb) :
    wp (iput ip) s (fun _ s' => ∀ i, Linked s i → Same i s s') (fun e => e ≠ .overrun) := by
  have hput : wp (iput ip) s (fun _ s' => Put ip s s') (fun e => e ≠ .overrun) :=
    iput_wp (fun _ _ hp => hp) (fun _ => nofun) fun _ he => he.2.2
  refine wp.mono (hput.inter (iput_spares s)) ?_ fun _ he => he.1
  rintro _ s' ⟨hp, hsp⟩ i hi
  by_cases hlast : Last (s.icache ip)
  · have hne : i ≠ (s.icache ip).inum := by
      rintro rfl
      exact hi.copy ip ⟨by rw [hlast.2.2], hlast.1, rfl⟩ hlast.2.1
    refine ⟨hsp.dinodes hsb i hi.lt hne, fun j hj _ => ?_⟩
    have hj' : j ≠ ip := by
      rintro rfl
      exact hne hj.inum.symm
    rw [hp.others j hj']
  · rw [hp.keep hlast]
    refine ⟨rfl, fun j hj _ => ?_⟩
    by_cases hji : j = ip
    · rw [hji, setInode_self]
    · rw [setInode_of_ne hji]

/-! ## Looking up -/

/-- The inode that `ilock` finds in the directory. -/
theorem loaded_filled (hs : Sound s) (href : 1 ≤ (s.icache ip).ref)
    (htype : (loaded s ip).din.type = T_DIR) :
    (s.disk.dinode sb (s.icache ip).inum).type = T_DIR ∧ Filled s.disk (loaded s ip).din := by
  unfold loaded at htype ⊢
  dsimp only at htype ⊢
  by_cases hv : (s.icache ip).valid = true
  · rw [if_pos hv] at htype ⊢
    exact hs.copies ip _ ⟨href, hv, rfl⟩ htype
  · rw [if_neg hv, hs.sb] at htype ⊢
    exact ⟨htype, hs.dirs _ (hs.inum ip href) htype⟩

/-- The directory that has been locked. -/
theorem locked_table (hs : Sound s) (href : 1 ≤ (s.icache ip).ref)
    (he : Entered ip (loaded s ip) s s1) (htype : (s1.icache ip).din.type = T_DIR) :
    ∃ U m c, Dir.Table U s1 ip m c := by
  have hself := he.self
  have hdisk : s1.disk = s.disk := by
    rw [he]
    rfl
  have hsb : s1.sb = sb := by
    rw [he]
    exact hs.sb
  rw [hself] at htype
  rcases loaded_filled hs href htype with ⟨-, m, c, hb, hused, hwhole⟩
  rw [← hdisk, ← hself] at hb
  refine ⟨_, m, c, ⟨hb.tree.mapped hsb ?_ ?_, hb, ?_⟩, by rw [hself]; exact htype, hwhole⟩
  · rw [hdisk]
    exact hs.super
  · rw [hdisk]
    exact hused
  · rw [hself]
    exact hs.inum ip href

/-- A turn of the loop of `namex` changes nothing. -/
theorem visit_same {parent last : Bool} (hs : Sound s) :
    wp (visit parent ip name last) s (fun _ s' => ∀ i, Same i s s') (fun e => e ≠ .overrun) := by
  unfold visit
  rw [wp_bind]
  refine ilock_wp ?_ (fun _ => by simp) fun _ he => he.2.2
  intro _ href s1 he
  have hr1 := loaded_quiet he
  have hlock1 : (s1.icache ip).locked = true := by
    rw [he.self]
    rfl
  have href1 : 1 ≤ (s1.icache ip).ref := by
    rw [he.self]
    exact href
  -- the directory is unlocked at the end
  have hdone : ∀ {s2 : Kernel} {v : Visit}, Quiet s1 s2 → (s2.icache ip).locked = true →
      1 ≤ (s2.icache ip).ref → wp (do
        iunlock ip
        pure v : FM Visit) s2 (fun _ s' => ∀ i, Same i s s') (fun e => e ≠ .overrun) := by
    intro s2 v hr2 hlock2 href2
    rw [wp_bind]
    refine iunlock_wp hlock2 href2 ((wp_pure ..).2 fun i => ?_)
    exact ((hr1.trans hr2).trans (unlock_quiet s2 ip)).same
  have hrefl : Quiet s1 s1 := ⟨rfl, fun _ _ hj => ⟨hj, rfl⟩⟩
  simp only [wp_bind, wp_get]
  by_cases htype : (s1.icache ip).din.type ≠ T_DIR
  · rw [if_pos htype]
    exact hdone hrefl hlock1 href1
  rw [if_neg htype]
  refine wp_ite (fun _ => hdone hrefl hlock1 href1) fun _ => ?_
  rcases locked_table hs href he (not_not.1 htype) with ⟨U, m, c, ht⟩
  rw [wp_bind]
  refine Dir.lookup_wp ht (fun _ => hdone hrefl hlock1 href1) ?_ fun _ _ _ _ => by simp
  intro v k next s2 _ hg _
  have hm := hg.moved
  refine hdone (Got.quiet hg) ((hm.unlocked ip).trans hlock1) ?_
  have hrefs : (s2.icache ip).ref + 0 = (s1.icache ip).ref + one next ip := hm.refs ip
  omega

/-! ## Making the link -/

/-- Inode `k` has been allocated on the disk. -/
def allocated (s : Kernel) (k type : Nat) : Kernel :=
  s.setBlock (IBLOCK k sb) (putDinode (s.disk (IBLOCK k sb)) (k % IPB) (Dinode.zero.setType type))

/-- `ialloc` gives an inode that was free on disk. -/
theorem ialloc_wp {type : Nat} {Q : Entry → Kernel → Prop} (hsb : s.sb = sb)
    (hQ : ∀ k ip s', k ≠ 0 → k < sb.ninodes → (s.disk.dinode sb k).type = 0 →
      Got k ip (allocated s k type) s' → Q ip s')
    (hE : ∀ msg, E (.panic msg)) : wp (ialloc type) s Q E := by
  have hfrom : ∀ n k, k ≠ 0 → k + n ≤ sb.ninodes → wp (iallocFrom type n k) s Q E := by
    intro n
    induction n with
    | zero => exact fun _ _ _ => (wp_throw ..).2 (hE _)
    | succ n ih =>
        intro k hk hn
        have hlt : IBLOCK k sb < FSSIZE := by
          have := @IBLOCK_lt k (by omega)
          have := bmapstart_lt
          have := nmeta_lt_FSSIZE
          omega
        unfold iallocFrom
        simp only [wp_bind, wp_get, hsb]
        refine bread_wp hlt (wp_ite (fun hfree => ?_) fun _ => ih (k + 1) (by omega) (by omega))
        rw [wp_bind, bwrite_wp]
        exact iget_wp (fun ip s' hg => hQ k ip s' hk (by omega) hfree hg) (hE _)
  unfold ialloc
  simp only [wp_bind, wp_get, hsb]
  exact hfrom _ 1 Nat.one_ne_zero (by decide)

/-- The new inode `k`, before there is an entry for it in the directory. -/
structure Entering (dp ip : Entry) (k : Nat) (s s' : Kernel) : Prop where
  sb : s'.sb = sb
  ne : ip ≠ dp
  pos : k ≠ 0
  lt : k < Mkfs.sb.ninodes
  fresh : (s.disk.dinode Mkfs.sb k).type = 0
  inum : (s'.icache ip).inum = k
  locked : (s'.icache ip).locked = true
  ref : 1 ≤ (s'.icache ip).ref
  type : (s'.icache ip).din.type = T_SYMLINK
  others : ∀ j, j ≠ ip → s'.icache j = s.icache j
  gone : ∀ i, Copy s ip i → i = k
  high : ∀ b, Mkfs.sb.bmapstart ≤ b → s'.disk b = s.disk b
  dinodes : ∀ i, i < Mkfs.sb.ninodes → i ≠ k →
    s'.disk.dinode Mkfs.sb i = s.disk.dinode Mkfs.sb i

/-- The end of `create`. -/
def enter (dp ip : Entry) (name : List UInt8) : FM Entry := do
  let s ← get
  if (← dirlink dp name (s.icache ip).inum) = false then halt "create: dirlink"
  iunlockput dp
  return ip

/-- `create` of a new link: the inode is allocated and typed, and then entered in its
directory. -/
theorem createNew_wp {Q : Entry → Kernel → Prop} (hsb : s.sb = sb)
    (hlock : (s.icache dp).locked = true)
    (hQ : ∀ k ip s', Entering dp ip k s s' → wp (enter dp ip name) s' Q E)
    (hE : ∀ e, e ≠ .overrun → E e) : wp (createNew dp name T_SYMLINK 0 0) s Q E := by
  unfold createNew
  rw [wp_bind]
  refine ialloc_wp hsb ?_ fun _ => hE _ nofun
  intro k ip s2 hk hlt hfresh hg
  rw [wp_bind]
  refine ilock_wp ?_ (fun _ => hE _ nofun) fun _ he => hE _ he.2.2
  intro hfree href s3 he
  have hm := hg.moved
  -- the directory is locked, and the inode is not
  have hne : ip ≠ dp := by
    rintro rfl
    have h : (s2.icache ip).locked = (s.icache ip).locked := hm.unlocked ip
    rw [hfree, hlock] at h
    cases h
  have hsb2 : s2.sb = sb := hm.sb.trans hsb
  have hdisk2 : s2.disk = (allocated s k T_SYMLINK).disk := (Got.quiet hg).disk
  have hgot : (s2.icache ip).inum = k ∧ (∀ i, Copy s ip i → i = k) ∧
      ∀ j, j ≠ ip → s2.icache j = s.icache j := by
    cases hg with
    | found _ hinum heg =>
        refine ⟨?_, fun i hi => hi.inum.symm.trans hinum, fun j hj => heg.other hj⟩
        rw [heg.self]
        exact hinum
    | taken hzero heg =>
        refine ⟨by rw [heg.self], fun i hi => ?_, fun j hj => heg.other hj⟩
        have hone := hi.ref
        have hz : (s.icache ip).ref = 0 := hzero
        omega
  rcases hgot with ⟨hinum, hgone, hothers⟩
  -- and then it is written with any fields
  have hwrite : ∀ {f : Dinode → Dinode}, (f (s3.icache ip).din).type = T_SYMLINK →
      Entering dp ip k s
        { s3.setInode ip (fun x => { x with din := f x.din }) with
          disk := written (s3.setInode ip fun x => { x with din := f x.din }) ip } := by
    intro f htype
    have hip : (s3.setInode ip fun x => { x with din := f x.din }).icache ip =
        { s3.icache ip with din := f (s3.icache ip).din } := setInode_self
    have hk3 : ((s3.setInode ip fun x => { x with din := f x.din }).icache ip).inum = k := by
      rw [hip, he.self]
      exact hinum
    have hdisk3 : (s3.setInode ip fun x => { x with din := f x.din }).disk = s2.disk := by
      rw [he]
      rfl
    refine ⟨?_, hne, hk, hlt, hfresh, hk3, ?_, ?_, ?_, ?_, hgone, ?_, ?_⟩
    · rw [he]
      exact hsb2
    · rw [hip, he.self]
      rfl
    · rw [hip, he.self]
      exact href
    · rw [hip]
      exact htype
    · intro j hj
      show (s3.setInode ip fun x => { x with din := f x.din }).icache j = _
      rw [setInode_of_ne hj, he.other hj, hothers j hj]
    · intro b hb
      have hbk := ne_IBLOCK hlt hb
      refine (written_of_ne ?_).trans ?_
      · rw [hk3]
        exact hbk
      · rw [hdisk3, hdisk2]
        exact Disk.put_of_ne _ _ _ hbk
    · intro i hi hik
      refine (Disk.dinode_put_ne ?_ _).trans ?_
      · rw [hk3]
        exact hik
      · rw [hdisk3, hdisk2]
        exact Disk.dinode_put_ne hik _
  have hnot : ¬ T_SYMLINK = T_DIR := by decide
  have hsb3 : ∀ {f : Inode → Inode}, (s3.setInode ip f).sb = sb := by
    intro f
    rw [he]
    exact hsb2
  have hlt3 : ∀ {f : Dinode → Dinode},
      ((s3.setInode ip fun x => { x with din := f x.din }).icache ip).inum < sb.ninodes := by
    intro f
    rw [setInode_self, he.self]
    exact hinum ▸ hlt
  simp only [wp_bind, setDin_wp, wp_get]
  refine wp_ite (fun _ => ?_) fun htype => ?_
  · simp only [wp_bind, setDin_wp, setInode_setInode]
    refine iupdate_wp hsb3 (@hlt3 fun d => (((d.setMajor 0).setMinor 0).setNlink 1).setType
      T_SYMLINK) ?_
    rw [if_neg hnot]
    have h := hQ k ip _ (@hwrite (fun d => (((d.setMajor 0).setMinor 0).setNlink 1).setType
      T_SYMLINK)
      (Dinode.type_setType _ _ (by decide)))
    unfold enter at h
    simpa only [wp_bind, wp_get] using h
  · simp only [wp_bind]
    refine iupdate_wp hsb3 (@hlt3 fun d => ((d.setMajor 0).setMinor 0).setNlink 1) ?_
    rw [if_neg hnot]
    have h := hQ k ip _ (@hwrite (fun d => ((d.setMajor 0).setMinor 0).setNlink 1) ?_)
    · unfold enter at h
      simpa only [wp_bind, wp_get] using h
    · rw [setInode_self] at htype
      by_contra hn
      exact htype ⟨trivial, hn⟩

/-- The directory at `dp` has no entry with the name. -/
def Absent (s : Kernel) (dp : Entry) (name : List UInt8) : Prop :=
  ∀ m c, Bytes s.disk (loaded s dp).din m c → (Dir.slots c).lookup name = none

/-- A link has been made in the directory `dp`: its inode was free, and the inodes that were
there, but for the directory, are as they were. -/
structure Made (dp : Entry) (name : List UInt8) (s s' : Kernel) : Prop where
  inode : ∃ k, k ≠ 0 ∧ (s.disk.dinode sb k).type = 0 ∧ (s'.disk.dinode sb k).type = T_SYMLINK ∧
    (Dir.key name = name → (loaded s dp).din.nlink ≠ 0 →
      ∃ m c n, Bytes s'.disk (s'.icache dp).din m c ∧ (Dir.slots c).At n name k)
  others : ∀ i, Linked s i → i ≠ (s.icache dp).inum → Same i s s'

theorem Bytes.congr {d d' : Disk} {din : Dinode} {m : Node → Nat} {c : List UInt8}
    (h : Bytes d din m c) (hd : ∀ b, sb.bmapstart ≤ b → d' b = d b) : Bytes d' din m c := by
  have hm : ∀ x, m x ≠ 0 → d' (m x) = d (m x) := fun x hx =>
    hd _ (Nat.le_trans (Nat.le_of_lt bmapstart_lt) (h.tree.range x hx).1)
  exact ⟨h.tree.congr (fun _ _ => rfl) fun x hx _ => hm x hx, h.size, h.fits, h.stores.congr hm⟩

/-- The directory and the inode after the entry has been made. -/
structure Named (dp ip : Entry) (name : List UInt8) (k : Nat) (s s' : Kernel) : Prop where
  sb : s'.sb = sb
  entry : s'.icache ip = s.icache ip
  others : ∀ j, j ≠ dp → s'.icache j = s.icache j
  dinodes : ∀ i, i < Mkfs.sb.ninodes → i ≠ (s.icache dp).inum →
    s'.disk.dinode Mkfs.sb i = s.disk.dinode Mkfs.sb i
  linked : Dir.key name = name → (s.icache dp).din.nlink ≠ 0 →
    ∃ m c n, Bytes s'.disk (s'.icache dp).din m c ∧ (Dir.slots c).At n name k

/-- Entering a name that the directory has not: one entry more, and nothing else changed. -/
theorem enter_wp {U : Nat → Prop} {m : Node → Nat} {c : List UInt8} {Q : Entry → Kernel → Prop}
    {k : Nat} (ht : Dir.Table U s dp m c) (habs : (Dir.slots c).lookup name = none)
    (hne : ip ≠ dp) (hk : (s.icache ip).inum = k) (h0 : k ≠ 0) (hlt : k < sb.ninodes)
    (hlock : (s.icache dp).locked = true) (href : 1 ≤ (s.icache dp).ref)
    (hQ : ∀ s', Named dp ip name k s s' → Q ip s') (hE : ∀ e, e ≠ .overrun → E e) :
    wp (enter dp ip name) s Q E := by
  classical
  unfold enter
  simp only [wp_bind, wp_get, hk]
  have hfin := Dir.tree_finite ht.bytes.bytes.tree
  refine wp.mono (@Dir.link_wp c name k U s dp m E
    (hfin.toFinset ∪ (leaf ((Dir.slots c).free * SIZEOF_DIRENT / BSIZE)).ups) ht habs
    (fun y hy => Finset.mem_union_left _ (hfin.mem_toFinset.2 hy))
    (fun y hy => Finset.mem_union_right _ (Node.mem_ups.2 hy))
    (fun _ => hE _ (by simp)) fun _ => hE _ (by simp)) ?_ fun _ he => he
  rintro r s1 ⟨rfl, hkept, hnlink, hslots, m1, ht1, -⟩
  refine wp_ite (fun hf => Bool.noConfusion hf) fun _ => ?_
  unfold iunlockput
  simp only [wp_bind]
  have hentry := hkept.frame.entry
  refine iunlock_wp (by rw [hentry]; exact hlock) (by rw [hentry]; exact href) ?_
  -- the directory is given back; without links it is freed
  generalize hs2 : s1.setInode dp (fun x => { x with locked := false }) = s2
  have hdp2 : s2.icache dp = { s1.icache dp with locked := false } := by
    rw [← hs2]
    exact setInode_self
  have hoth2 : ∀ j, j ≠ dp → s2.icache j = s.icache j := by
    intro j hj
    rw [← hs2, setInode_of_ne hj]
    exact hkept.frame.others j hj
  have hdisk2 : s2.disk = s1.disk := by
    rw [← hs2]
    rfl
  have hsb2 : s2.sb = sb := by
    rw [← hs2]
    exact hkept.frame.sb.trans ht.bytes.mapped.sb
  have hinum2 : (s2.icache dp).inum = (s.icache dp).inum := by
    rw [hdp2]
    exact hkept.frame.inum
  have hput : wp (iput dp) s2 (fun _ s' => Put dp s2 s') (fun e => e ≠ .overrun) :=
    iput_wp (fun _ _ hp => hp) (fun _ => by simp) fun _ he => he.2.2
  refine wp.mono (hput.inter (iput_spares s2)) ?_ fun e he => hE e he.1
  rintro _ s3 ⟨hp, hsp⟩
  refine (wp_pure ..).2 (hQ s3 ⟨hp.sb.trans hsb2, ?_, ?_, ?_, ?_⟩)
  · rw [hp.others ip hne, hoth2 ip hne]
  · intro j hj
    rw [hp.others j hj, hoth2 j hj]
  · intro i hi hidp
    rw [hsp.dinodes hsb2 i hi (hinum2 ▸ hidp), hdisk2]
    exact hkept.dinodes i hi hidp
  · intro hname hlinks
    have hlast : ¬ Last (s2.icache dp) := by
      rw [hdp2]
      intro hl
      exact hlinks (hnlink.symm.trans hl.2.1)
    have hat : (Dir.slots (splice c ((Dir.slots c).free * SIZEOF_DIRENT) (dirent k name))).At
        (Dir.slots c).free name k := by
      have hcut : dirent k name = Dir.dirent k name := by
        have h := Dir.dirent_eq k name
        rwa [hname] at h
      have hlt' : k < 65536 := Nat.lt_trans hlt (by decide)
      rw [hslots, Slots.put_at (Slots.free_le _), if_pos rfl, hcut,
        Dir.decode_dirent h0 hlt', hname]
    refine ⟨m1, _, _, ?_, hat⟩
    rw [hp.keep hlast, setInode_self, hdp2]
    show Bytes s2.disk (s1.icache dp).din m1 _
    rw [hdisk2]
    exact ht1.bytes.bytes

/-- A name that is not there gets a new inode. -/
theorem linkIn_absent (hs : Sound s) (habs : Absent s dp name) (hfit : old.length < SIZEOF_ADDRS) :
    wp (linkIn dp name old) s (fun r s' => r = true ∧ Made dp name s s')
      (fun e => e ≠ .overrun) := by
  unfold linkIn createIn
  simp only [wp_bind]
  refine ilock_wp ?_ (fun _ => by simp) fun _ he => he.2.2
  intro _ href s1 he
  have hdisk1 : s1.disk = s.disk := by
    rw [he]
    rfl
  have hsb1 : s1.sb = sb := by
    rw [he]
    exact hs.sb
  have hlock1 : (s1.icache dp).locked = true := by
    rw [he.self]
    rfl
  by_cases htype : (s1.icache dp).din.type ≠ T_DIR
  · unfold dirlookup halt
    simp only [wp_bind, wp_get]
    rw [if_pos htype, wp_bind]
    exact (wp_throw ..).2 (by simp)
  have hdir := not_not.1 htype
  rcases locked_table hs href he hdir with ⟨U, m, c, ht⟩
  have hbytes : Bytes s.disk (loaded s dp).din m c := by
    have h := ht.bytes.bytes
    rwa [hdisk1, he.self] at h
  have hnone := habs m c hbytes
  refine Dir.lookup_wp ht ?_ ?_ ?_
  rotate_left
  · intro v n ip s2 hl
    rw [hnone] at hl
    cases hl
  · intro v n hl
    rw [hnone] at hl
    cases hl
  intro _
  simp only [wp_bind]
  refine createNew_wp hsb1 hlock1 ?_ fun _ he => he
  intro k ip s5 hen
  -- the directory is what it was
  have hdp5 : s5.icache dp = s1.icache dp := hen.others dp (Ne.symm hen.ne)
  have ht5 : Dir.Table U s5 dp m c := by
    refine ⟨⟨ht.bytes.mapped.congr (hen.sb.trans hsb1.symm) ?_ hen.high, ?_, ?_⟩, ?_, ht.whole⟩
    · intro n _
      rw [hdp5]
    · rw [hdp5]
      exact Bytes.congr ht.bytes.bytes hen.high
    · rw [hdp5]
      exact ht.bytes.inum
    · rw [hdp5]
      exact ht.type
  refine enter_wp ht5 hnone hen.ne hen.inum hen.pos hen.lt (by rw [hdp5]; exact hlock1)
    (by rw [hdp5, he.self]; exact href) ?_ fun _ he => he
  intro s7 hna
  simp only [wp_pure, wp_bind, setDin_wp]
  unfold putText
  rw [if_neg (by omega)]
  simp only [setDin_wp, setInode_setInode]
  -- the text is written
  generalize hs8 : s7.setInode ip _ = s8
  have hip8 : s8.icache ip = { s5.icache ip with din := withText (s5.icache ip).din old } := by
    rw [← hs8, setInode_self, hna.entry]
    rfl
  have hoth8 : ∀ j, j ≠ ip → s8.icache j = s7.icache j := by
    intro j hj
    rw [← hs8]
    exact setInode_of_ne hj
  have hdisk8 : s8.disk = s7.disk := by
    rw [← hs8]
    rfl
  have hsb8 : s8.sb = sb := by
    rw [← hs8]
    exact hna.sb
  have hinum8 : (s8.icache ip).inum = k := by
    rw [hip8]
    exact hen.inum
  refine iupdate_wp hsb8 (by rw [hinum8]; exact hen.lt) ?_
  refine iunlock_wp ?_ ?_ ⟨trivial, ⟨k, hen.pos, ?_, ?_, ?_⟩, ?_⟩
  · show (s8.icache ip).locked = true
    rw [hip8]
    exact hen.locked
  · show 1 ≤ (s8.icache ip).ref
    rw [hip8]
    exact hen.ref
  · rw [← hdisk1]
    exact hen.fresh
  · show (Disk.dinode (written s8 ip) sb k).type = T_SYMLINK
    have hself : Disk.dinode (written s8 ip) sb k = (s8.icache ip).din := by
      rw [← hinum8]
      exact Disk.dinode_put_self _
    rw [hself, hip8]
    exact type_withText.trans hen.type
  · intro hname hlinks
    have hlinks5 : (s5.icache dp).din.nlink ≠ 0 := by
      rw [hdp5, he.self]
      exact hlinks
    rcases hna.linked hname hlinks5 with ⟨m', c', n, hb, hat⟩
    refine ⟨m', c', n, ?_, hat⟩
    have hdp : (Kernel.setInode { s8 with disk := written s8 ip } ip
        fun x => { x with locked := false }).icache dp = s7.icache dp := by
      rw [setInode_of_ne (Ne.symm hen.ne)]
      exact hoth8 dp (Ne.symm hen.ne)
    rw [hdp]
    refine Bytes.congr hb fun b hb' => ?_
    show written s8 ip b = _
    rw [written_of_ne (by rw [hinum8]; exact ne_IBLOCK hen.lt hb'), hdisk8]
  · intro i hi hidp
    have hik : i ≠ k := by
      rintro rfl
      exact hi.type (hdisk1 ▸ hen.fresh)
    have hinum5 : (s5.icache dp).inum = (s.icache dp).inum := by
      rw [hdp5, he.self]
      rfl
    refine ⟨?_, fun j hj _ => ?_⟩
    · show Disk.dinode (written s8 ip) sb i = _
      refine (Disk.dinode_put_ne (by rw [hinum8]; exact hik) _).trans ?_
      rw [hdisk8, hna.dinodes i hi.lt (hinum5 ▸ hidp), hen.dinodes i hi.lt hik, hdisk1]
    · have hjdp : j ≠ dp := by
        rintro rfl
        exact hidp hj.inum.symm
      have hjip : j ≠ ip := by
        rintro rfl
        exact hik (hen.gone i ⟨by rw [he.other hjdp]; exact hj.ref,
          by rw [he.other hjdp]; exact hj.valid, by rw [he.other hjdp]; exact hj.inum⟩)
      rw [setInode_of_ne hjip]
      show (s8.icache j).din = _
      rw [hoth8 j hjip, hna.others j hjdp, hen.others j hjip, he.other hjdp]

/-! ## Runs of two processes -/

/-- What is left of `sys_symlink`. -/
inductive Links (old : List UInt8) : SysCall Bool → Prop
  | failed : Links old (.ret false)
  | start {p : Fin NPROC} {path : List UInt8} {k : Entry → SysCall Bool}
    (h : ∀ ip, Links old (k ip)) :
      Links old (.sect (.start p path) k)
  | visit {parent last : Bool} {ip : Entry} {name : List UInt8} {k : Visit → SysCall Bool}
      (h : ∀ v, Links old (k v)) : Links old (.sect (.visit parent ip name last) k)
  | iput {ip : Entry} {k : Unit → SysCall Bool} (h : ∀ u, Links old (k u)) :
      Links old (.sect (.iput ip) k)
  | link (dp : Entry) (name : List UInt8) : Links old (.sect (.linkIn dp name old) .ret)

/-- A walk makes a link only where what follows does. -/
theorem links_walk {parent : Bool} {names : List (List UInt8)}
    {f : Option (Entry × List UInt8) → SysCall Bool} (hf : ∀ r, Links old (f r)) :
    Links old ((SysCall.walk parent ip names).bind f) := by
  induction names generalizing ip with
  | nil =>
      cases parent with
      | true => exact .iput fun _ => hf none
      | false => exact hf _
  | cons name names ih =>
      refine .visit fun v => ?_
      cases v with
      | stop => exact .iput fun _ => hf none
      | parent => exact hf _
      | next next => exact .iput fun _ => ih

/-- Every section of `symlink` is of the links of its text. -/
theorem links_symlink (p : Fin NPROC) (old new : List UInt8) :
    Links old (SysCall.symlink p old new) := by
  have hnamei : ∀ {path : List UInt8} {f : Option Entry → SysCall Bool}, (∀ r, Links old (f r)) →
      Links old ((SysCall.namei p path).bind f) := by
    intro path f hf
    unfold SysCall.namei SysCall.namex
    rw [Resumption.bind_bind]
    exact .start fun ip => links_walk fun r => hf (r.map Prod.fst)
  refine hnamei fun r => ?_
  cases r with
  | none => exact .failed
  | some _ =>
      refine hnamei fun r => ?_
      cases r with
      | some _ => exact .failed
      | none =>
          refine .start fun ip => links_walk fun r => ?_
          cases r with
          | none => exact .failed
          | some r => exact .link r.1 r.2

/-- A section of `sys_symlink` and what is left behind it. -/
theorem Links.step {β : Type} {x : Sec β} {k : β → SysCall Bool} (h : Links old (.sect x k))
    (b : β) :
    Links old (k b) ∨ ∃ r, k b = .ret r := by
  cases h with
  | start h => exact .inl (h b)
  | visit h => exact .inl (h b)
  | iput h => exact .inl (h b)
  | link dp name => exact .inr ⟨b, rfl⟩

/-- One process begins `sys_symlink`; the other is anywhere. -/
def Starts (p : Fin NPROC) (old new : List UInt8) (w : World Sec Kernel Bool) : Prop :=
  w.call 0 = SysCall.symlink p old new

/-- The states that the two processes reach, in any order of their sections. -/
abbrev Reached (p : Fin NPROC) (old new : List UInt8) : World Sec Kernel Bool → Prop :=
  Reachable (Starts p old new) (World.turn Sec.code)

variable {p : Fin NPROC} {new : List UInt8} {w w' : World Sec Kernel Bool}

/-- The first process is in its `symlink`, or has returned. -/
theorem reached_links (hr : Reached p old new w) :
    Links old (w.call 0) ∨ ∃ r, w.call 0 = .ret r := by
  refine World.reachable_call (P := fun c => Links old c ∨ ∃ r, c = .ret r) ?_ ?_ hr
  · intro w hw
    rw [show w.call 0 = _ from hw]
    exact .inl (links_symlink p old new)
  · rintro β x k b (h | ⟨r, h⟩)
    · exact h.step b
    · cases h

/-- The directory and the name that the next section makes a link for. -/
def creates : SysCall Bool → Option (Entry × List UInt8)
  | .sect (.linkIn dp name _) _ => some (dp, name)
  | _ => none

/-- The next section writes beyond the end of `addrs[]`. -/
def Overruns (w : World Sec Kernel Bool) : Prop :=
  ∃ (β : Type) (x : Sec β) (k : β → SysCall Bool), w.call 0 = .sect x k ∧
    x.code.run w.state = .error .overrun

/-- A section of `sys_symlink` has changed no inode that has a link, and the call has not
returned 0; or it has made the link, and the call has returned 0. -/
def Harmless (w w' : World Sec Kernel Bool) : Prop :=
  match creates (w.call 0) with
  | none => (∀ i, Linked w.state i → Same i w.state w'.state) ∧ w'.call 0 ≠ .ret true
  | some (dp, name) => w'.call 0 = .ret true ∧ Made dp name w.state w'.state

/-- The next section from what it does to the state. -/
theorem harmless_of_wp {β : Type} {x : Sec β} {k : β → SysCall Bool} {Q : β → Kernel → Prop}
    (hc : w.call 0 = .sect x k) (hx : wp x.code w.state Q fun e => e ≠ .overrun)
    (hQ : ∀ b w', Q b w'.state → w'.call 0 = k b → Harmless w w') :
    (∀ w', w.turn Sec.code 0 = some w' → Harmless w w') ∧ ¬ Overruns w := by
  constructor
  · intro w' hturn
    rcases World.turn_cases hturn with ⟨β', x', k', b, hc', hrun, hcall⟩
    rw [hc] at hc'
    cases hc'
    refine hQ b w' (hx.of_ok hrun) ?_
    rw [hcall, Function.update_self]
  · rintro ⟨β', x', k', hc', hrun⟩
    rw [hc] at hc'
    cases hc'
    exact hx.of_error hrun rfl

/-- Who has returned does no harm. -/
theorem harmless_of_ret {r : Bool} (h : w.call 0 = .ret r) :
    (∀ w', w.turn Sec.code 0 = some w' → Harmless w w') ∧ ¬ Overruns w := by
  constructor
  · intro w' hturn
    rcases World.turn_cases hturn with ⟨_, _, _, _, hc, -⟩
    rw [h] at hc
    cases hc
  · rintro ⟨_, _, _, hc, -⟩
    rw [h] at hc
    cases hc

/-- Whatever the other process does, and wherever: a section of `sys_symlink` changes no
inode that is there, if the directories are sound and `create` does not find the name. -/
theorem symlink_keeps (hfit : old.length < SIZEOF_ADDRS) (hr : Reached p old new w)
    (hs : Sound w.state) (habs : ∀ dp name, creates (w.call 0) = some (dp, name) →
      Absent w.state dp name) :
    (∀ w', w.turn Sec.code 0 = some w' → Harmless w w') ∧ ¬ Overruns w := by
  -- a section that only looks up
  have hlooks : ∀ {β : Type} {x : Sec β} {k : β → SysCall Bool}, w.call 0 = .sect x k →
      creates (w.call 0) = none → (∀ b, Links old (k b)) →
      wp x.code w.state (fun _ s' => ∀ i, Linked w.state i → Same i w.state s')
        (fun e => e ≠ .overrun) →
      (∀ w', w.turn Sec.code 0 = some w' → Harmless w w') ∧ ¬ Overruns w := by
    intro β x k hc hcr hk hx
    refine harmless_of_wp hc hx fun b w' hQ hcall => ?_
    unfold Harmless
    rw [hcr]
    refine ⟨hQ, fun htrue => ?_⟩
    have hb := hk b
    rw [← hcall, htrue] at hb
    cases hb
  rcases reached_links hr with hl | ⟨r, hret⟩
  · generalize hc : w.call 0 = c at hl
    cases hl with
    | failed => exact harmless_of_ret hc
    | start h =>
        refine hlooks hc (by rw [hc]; rfl) h ?_
        exact wp.mono start_same (fun _ _ hsame i _ => hsame i) fun _ he => he
    | visit h =>
        refine hlooks hc (by rw [hc]; rfl) h ?_
        exact wp.mono (visit_same hs) (fun _ _ hsame i _ => hsame i) fun _ he => he
    | iput h => exact hlooks hc (by rw [hc]; rfl) h (iput_same hs.sb)
    | link dp name =>
        have hcr : creates (w.call 0) = some (dp, name) := by
          rw [hc]
          rfl
        refine harmless_of_wp hc (linkIn_absent hs (habs dp name hcr) hfit) ?_
        rintro b w' ⟨rfl, hmade⟩ hcall
        unfold Harmless
        rw [hcr]
        exact ⟨hcall, hmade⟩
  · exact harmless_of_ret hret

/-- A root directory with the file `/f`, and nothing in the cache. -/
def withFile : Kernel where
  disk := fun b =>
    if b = IBLOCK ROOTINO sb then
      putDinode (putDinode zeroes 1
          ((((Dinode.zero.setType T_DIR).setNlink 1).setSize SIZEOF_DIRENT).setAddr 0 nmeta))
        2 ((Dinode.zero.setType T_FILE).setNlink 1)
    else if b = nmeta then patch zeroes 0 SIZEOF_DIRENT fun i => (dirent 2 [102]).getD i 0
    else if b = sb.bmapstart then Mkfs.marked (nmeta + 1)
    else zeroes
  sb := sb
  icache := fun _ => ⟨0, 0, false, false, Dinode.zero⟩
  ftable := fun _ => ⟨.FD_NONE, 0, false, false, none, 0⟩
  task := fun _ => ⟨none, fun _ => none⟩

/-- `symlink("/", "/b")` by one process, and `link("/f", "/b")` by the other. -/
def twoCalls : World Sec Kernel Bool where
  state := withFile
  call := fun i => if i = 0 then SysCall.symlink 0 [SLASH] [SLASH, 98]
    else SysCall.link 1 [SLASH, 102] [SLASH, 98]

/-- The other process links the file between the sections of `sys_symlink`: it becomes a
symbolic link. -/
theorem file_retyped : ∃ w w' : World Sec Kernel Bool, Reached 0 [SLASH] [SLASH, 98] w ∧
    w.turn Sec.code 0 = some w' ∧ Linked w.state 2 ∧
    (w.state.disk.dinode sb 2).type = T_FILE ∧ (w'.state.disk.dinode sb 2).type = T_SYMLINK := by
  -- before the section the inode is a file with an entry in the root
  have hbefore : (Lib.exec (World.turn Sec.code) twoCalls
    [0, 0, 0, 0, 1, 1, 1, 1, 1, 1, 1, 1, 1, 0, 0]).map
      (fun w => ((w.state.disk.dinode sb 2).type, (w.state.disk.dinode sb 2).nlink,
        (List.finRange NINODE).all fun j =>
          (w.state.icache j).ref = 0 ∨ (w.state.icache j).din.nlink ≠ 0)) =
      some (T_FILE, 2, true) := by decide +kernel
  -- and after it a symbolic link
  have hafter : ((Lib.exec (World.turn Sec.code) twoCalls
      [0, 0, 0, 0, 1, 1, 1, 1, 1, 1, 1, 1, 1, 0, 0]).bind fun w => w.turn Sec.code 0).map
      (fun w => (w.state.disk.dinode sb 2).type) = some T_SYMLINK := by decide +kernel
  rcases Option.map_eq_some_iff.1 hbefore with ⟨w, hexec, hview⟩
  rw [hexec, Option.bind_some] at hafter
  rcases Option.map_eq_some_iff.1 hafter with ⟨w', hturn, htype'⟩
  rcases Prod.mk.inj hview with ⟨htype, hview⟩
  rcases Prod.mk.inj hview with ⟨hnlink, hall⟩
  have hstart : Reached 0 [SLASH] [SLASH, 98] twoCalls := by
    apply ReachOk.init
    rfl
  have hreached := hstart.exec (fun _ _ _ => trivial) hexec
  refine ⟨w, w', hreached, hturn, ⟨by decide, ?_, ?_, fun j hj => ?_⟩, htype, htype'⟩
  · rw [htype]
    decide
  · rw [hnlink]
    decide
  · rcases of_decide_eq_true (List.all_eq_true.1 hall j (List.mem_finRange j)) with h0 | hn
    · exact absurd hj.ref (by rw [h0]; decide)
    · exact hn

/-- An empty root directory, and nothing in the cache. -/
def emptyRoot : Kernel where
  disk := fun b =>
    if b = IBLOCK ROOTINO sb then putDinode zeroes 1 ((Dinode.zero.setType T_DIR).setNlink 1)
    else if b = sb.bmapstart then Mkfs.marked nmeta
    else zeroes
  sb := sb
  icache := fun _ => ⟨0, 0, false, false, Dinode.zero⟩
  ftable := fun _ => ⟨.FD_NONE, 0, false, false, none, 0⟩
  task := fun _ => ⟨none, fun _ => none⟩

/-- A directory without bytes. -/
theorem filled_nil {din : Dinode} (hsb : s.sb = sb)
    (hsuper : ∀ b, b < nmeta → s.disk.used sb b = true) (hsize : din.size = 0)
    (haddr : ∀ k, k < NDIRECT + 3 → din.addr k = 0) : Filled s.disk din := by
  have htree := (@mapped_empty 0 { s with icache := fun _ => ⟨0, 0, false, false, din⟩ } hsb hsuper
    haddr).tree
  exact ⟨fun _ => 0, [], ⟨htree, hsize, Nat.zero_le _, nofun⟩, fun x hx => absurd rfl hx,
    Nat.dvd_zero _⟩

/-- The blocks of the file system itself are in use. -/
theorem emptyRoot_super {b : Nat} (hb : b < nmeta) : emptyRoot.disk.used sb b = true := by
  have hlt := Nat.lt_trans hb nmeta_lt_FSSIZE
  have hsame : emptyRoot.disk.used sb b = fresh.disk.used sb b := by
    refine used_congr (fun c hc => ?_) (BBLOCK_inMap hlt)
    have hne : c ≠ IBLOCK ROOTINO sb := ne_IBLOCK (by decide) hc.1
    show (if c = IBLOCK ROOTINO sb then _ else _ : Block) = _
    rw [if_neg hne]
    rfl
  rw [hsame, used_fresh _]
  exact decide_eq_true hb

/-- The root directory is the only one, and it has no bytes. -/
theorem emptyRoot_sound (hdisk : s.disk = emptyRoot.disk) (hsb : s.sb = sb)
    (hinum : (s.icache 0).inum = ROOTINO) (hdin :
      (s.icache 0).din = emptyRoot.disk.dinode sb ROOTINO)
    (hother : ∀ j, j ≠ 0 → (s.icache j).ref = 0) : Sound s := by
  have hroot : emptyRoot.disk.dinode sb ROOTINO = (Dinode.zero.setType T_DIR).setNlink 1 :=
    dinodeAt_put _ _ (by decide)
  have htype : ∀ i, i < sb.ninodes → i ≠ ROOTINO → (emptyRoot.disk.dinode sb i).type ≠ T_DIR := by
    decide +kernel
  -- the blocks of the file system itself are in use, and the root is empty
  have hsuper : ∀ b, b < nmeta → s.disk.used sb b = true := by
    intro b hb
    rw [hdisk]
    exact emptyRoot_super hb
  have hfilled : Filled s.disk (emptyRoot.disk.dinode sb ROOTINO) := by
    rw [hroot]
    refine filled_nil hsb hsuper ?_ fun k _ => ?_
    · rw [Dinode.size_setNlink, Dinode.size_setType, Dinode.zero_size]
    · rw [Dinode.addr_setNlink, Dinode.addr_setType, Dinode.zero_addr]
  -- the root alone is in the cache
  have hzero : ∀ j, 1 ≤ (s.icache j).ref → j = 0 := by
    intro j hj
    by_contra hne
    rw [hother j hne] at hj
    cases hj
  refine ⟨hsb, hsuper, ?_, ?_, ?_⟩
  · intro j hj
    rw [hzero j hj, hinum]
    decide
  -- every other inode on disk is free
  · intro i hi hdir
    rw [hdisk] at hdir
    by_cases hne : i = ROOTINO
    · rw [hne, show s.disk.dinode sb ROOTINO = _ by rw [hdisk]]
      exact hfilled
    · exact absurd hdir (htype i hi hne)
  · intro j i hj _
    have h0 := hzero j hj.ref
    subst h0
    rw [← hj.inum, hinum, hdin]
    refine ⟨?_, hfilled⟩
    rw [hdisk, hroot, Dinode.type_setNlink]
    exact Dinode.type_setType _ _ (by decide)

/-- `symlink("/", "/b")` by one process, and by the other `link("/", "/c")`, which fails since the
root is a directory. -/
def refusedLink : World Sec Kernel Bool where
  state := emptyRoot
  call := fun i => if i = 0 then SysCall.symlink 0 [SLASH] [SLASH, 98]
    else SysCall.link 1 [SLASH] [SLASH, 99]

/-- The calls take turns up to the section that makes the link. -/
def takingTurns : List (Fin 2) := [1, 0, 0, 1, 0, 0, 1, 0, 0]

/-- Nobody makes the name, and the link gets an inode of its own. -/
theorem symlink_keeps_root : ∃ w : World Sec Kernel Bool, Reached 0 [SLASH] [SLASH, 98] w ∧
    (∀ w', w.turn Sec.code 0 = some w' → w'.call 0 = .ret true ∧ Made 0 [98] w.state w'.state) ∧
    ¬ Overruns w := by
  -- the two calls take turns up to the section that makes the link
  have hdisk : (Lib.exec (World.turn Sec.code) refusedLink takingTurns).map
      (fun w => (w.state.disk, w.state.sb, (w.state.icache 0).din)) =
      some (emptyRoot.disk, sb, emptyRoot.disk.dinode sb ROOTINO) := rfl
  have hcache : (Lib.exec (World.turn Sec.code) refusedLink takingTurns).map
      (fun w => ((w.state.icache 0).inum, creates (w.call 0),
        (List.finRange NINODE).all fun j => j = 0 ∨ (w.state.icache j).ref = 0)) =
      some (ROOTINO, some (0, [98]), true) := by decide +kernel
  rcases Option.map_eq_some_iff.1 hdisk with ⟨w, hexec, hview⟩
  rw [hexec, Option.map_some] at hcache
  rcases Prod.mk.inj hview with ⟨hdisk, hview⟩
  rcases Prod.mk.inj hview with ⟨hsb, hdin⟩
  rcases Prod.mk.inj (Option.some.inj hcache) with ⟨hinum, hview⟩
  rcases Prod.mk.inj hview with ⟨hcreates, hall⟩
  have hstart : Reached 0 [SLASH] [SLASH, 98] refusedLink := by
    apply ReachOk.init
    rfl
  have hother : ∀ j, j ≠ 0 → (w.state.icache j).ref = 0 := by
    intro j hne
    rcases of_decide_eq_true (List.all_eq_true.1 hall j (List.mem_finRange j)) with h0 | href
    · exact absurd h0 hne
    · exact href
  have hr := hstart.exec (fun _ _ _ => trivial) hexec
  obtain ⟨hkeeps, hfits⟩ := symlink_keeps (by decide) hr
    (emptyRoot_sound hdisk hsb hinum hdin hother)
    (by
      intro dp name hc
      rw [hcreates] at hc
      cases hc
      intro m c hb
      -- the root is still empty on disk, so the name is not there
      have hroot : (loaded w.state 0).din = emptyRoot.disk.dinode sb ROOTINO := by
        show (if (w.state.icache 0).valid = true then (w.state.icache 0).din
          else w.state.disk.dinode w.state.sb (w.state.icache 0).inum) = _
        rw [hdisk, hsb, hinum, hdin, ite_self]
      have hsize : (emptyRoot.disk.dinode sb ROOTINO).size = 0 := by decide +kernel
      have hnil : c = [] := by
        rw [← List.length_eq_zero_iff, ← hb.size, hroot, hsize]
      rw [hnil]
      rfl)
  refine ⟨w, hr, fun w' hturn => ?_, hfits⟩
  have hh := hkeeps w' hturn
  unfold Harmless at hh
  rw [hcreates] at hh
  exact hh

end Race

end Xv6.Fs
