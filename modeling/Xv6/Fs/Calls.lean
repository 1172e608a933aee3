import Xv6.Fs.Balance

/-!
# What every call leaves

Each system call takes references and locks and gives them back. The calls that follow
or make symbolic links may leave references to inodes behind, and the others do not.

There is one lemma for each call of `Fs.File`: the calls on a path, `sys_pipe`, and
`fork`, `exit` and `exec` as far as they deal with files. The loops over descriptors
(`forkFds_balanced`, `exitFds_balanced`) carry the accounts of `Fs.Balance` from one
descriptor to the next. A call that panics or sleeps for ever says nothing.
-/

namespace Xv6.Fs

open Xv6.Lib Prog

variable {s s' : Kernel} {p : Fin NPROC} {ip dp : Entry} {f : Fin NFILE}
variable {g : Fin NFILE → Int} {a h : Entry → Int}

/-! ## Calls on paths -/

/-- `create` of a new name: the directory is put and the new inode given, locked. -/
theorem createNew_shift {name : List UInt8} {type major minor : Nat} {Q : Entry → Kernel → Prop}
    (hQ : ∀ ip s', Shift (single ip - single dp) (single ip - single dp) s s' → Q ip s') :
    Returns (createNew dp name type major minor) s Q := by
  unfold createNew
  rw [Returns, wp_bind]
  refine ialloc_shift ?_
  intro ip s1 hm1
  rw [wp_bind]
  refine ilock_shift ?_
  intro s2 _ _ hm2
  rw [wp_bind]
  refine setDin_shift ?_
  intro s3 hm3
  have hm : Shift (single ip) (single ip) s s3 :=
    ((hm1.trans hm2).trans hm3).congr (by abel) (by abel)
  -- the new inode is linked, and the directory given up
  have hlink : ∀ {s4 : Kernel}, Shift (single ip) (single ip) s s4 →
      Returns (do
        let s ← get
        if (← dirlink dp name (s.icache ip).inum) = false then halt "create: dirlink"
        iunlockput dp
        return ip) s4 Q := by
    intro s4 hm4
    simp only [Returns, wp_bind, wp_get]
    refine dirlink_shift ?_
    intro ok s5 hm5
    refine wp_ite (fun _ => ?_) fun _ => ?_
    · rw [wp_bind]
      exact Returns.halt
    · rw [wp_bind]
      refine iunlockput_shift ?_
      intro s6 hm6
      exact (wp_pure ..).2 (hQ ip s6 (((hm4.trans hm5).trans hm6).congr (by abel) (by abel)))
  have hnew : ∀ {s4 : Kernel}, Shift (single ip) (single ip) s s4 →
      Returns (do
        iupdate ip
        if type = T_DIR then
          setDin dp fun d => d.setNlink (d.nlink + 1)
          iupdate dp
          let s ← get
          if (← dirlink ip [DOT] (s.icache ip).inum) = false then halt "create dots"
          if (← dirlink ip [DOT, DOT] (s.icache dp).inum) = false then halt "create dots"
        let s ← get
        if (← dirlink dp name (s.icache ip).inum) = false then halt "create: dirlink"
        iunlockput dp
        return ip) s4 Q := by
    intro s4 hm4
    rw [Returns, wp_bind]
    refine iupdate_works.shift ?_
    intro _ s5 hm5
    have hm5' := (hm4.trans hm5).congr (add_zero _) (add_zero _)
    refine wp_ite (fun _ => ?_) fun _ => hlink hm5'
    rw [wp_bind]
    refine setDin_shift ?_
    intro s6 hm6
    rw [wp_bind]
    refine iupdate_works.shift ?_
    intro _ s7 hm7
    simp only [wp_bind, wp_get]
    refine dirlink_shift ?_
    intro ok s8 hm8
    refine wp_ite (fun _ => ?_) fun _ => ?_
    · simp only [wp_bind]
      exact Returns.halt
    simp only [wp_bind]
    refine dirlink_shift ?_
    intro ok s9 hm9
    refine wp_ite (fun _ => ?_) fun _ => ?_
    · simp only [wp_bind]
      exact Returns.halt
    refine hlink ?_
    exact ((((hm5'.trans hm6).trans hm7).trans hm8).trans hm9).congr (by abel) (by abel)
  rw [wp_bind, wp_get]
  refine wp_ite (fun _ => ?_) fun _ => hnew hm
  rw [wp_bind]
  refine setDin_shift ?_
  intro s4 hm4
  exact hnew ((hm.trans hm4).congr (add_zero _) (add_zero _))

/-- `create` gives its inode locked, found or made. -/
theorem create_shift {path : List UInt8} {type major minor : Nat} {Q : Option Entry → Kernel → Prop}
    (hcwd : Anchored p s) (hQ : ∀ r s', Shift (gift r) (gift r) s s' → Q r s') :
    Returns (create p path type major minor) s Q := by
  unfold create
  rw [Returns, wp_bind]
  refine nameiparent_shift hcwd ?_
  rintro (_ | ⟨dp, name⟩) s1 hm1
  -- no parent directory
  · exact (wp_pure ..).2 (hQ none s1 hm1)
  dsimp only
  rw [wp_bind]
  refine ilock_shift ?_
  intro s2 _ _ hm2
  rw [wp_bind]
  refine dirlookup_shift ?_
  have hm12 : Shift (single dp) (single dp) s s2 := (hm1.trans hm2).congr (add_zero _) (zero_add _)
  rintro (_ | ⟨ip, off⟩) s3 hm3
  · -- a new inode
    dsimp only
    rw [wp_bind]
    refine createNew_shift ?_
    intro ip s4 hm4
    refine (wp_pure ..).2 (hQ (some ip) s4 (((hm12.trans hm3).trans hm4).congr ?_ ?_)) <;>
    · show (single dp + 0 + (single ip - single dp) : Entry → Int) = single ip
      abel
  · -- the name is there
    dsimp only
    rw [wp_bind]
    refine ilock_shift ?_
    intro s4 _ _ hm4
    rw [wp_bind]
    refine iunlockput_shift ?_
    intro s5 hm5
    have hm : Shift (single ip) (single ip) s s5 := by
      refine (((hm12.trans hm3).trans hm4).trans hm5).congr ?_ ?_
      · show (single dp + single ip + 0 + -single dp : Entry → Int) = single ip
        abel
      · abel
    rw [wp_bind, wp_get]
    -- a file is opened as it is, a link is retyped, and anything else fails
    refine wp_ite (fun _ => (wp_pure ..).2 (hQ (some ip) s5 hm)) fun _ => ?_
    refine wp_ite (fun _ => ?_) fun _ => ?_
    · rw [wp_bind]
      refine setDin_shift ?_
      intro s6 hm6
      exact (wp_pure ..).2 (hQ (some ip) s6 ((hm.trans hm6).congr (add_zero _) (add_zero _)))
    · rw [wp_bind]
      refine iunlockput_shift ?_
      intro s6 hm6
      exact (wp_pure ..).2 (hQ none s6 ((hm.trans hm6).congr (add_neg_cancel _) (add_neg_cancel _)))

/-- A call that only has what it has given back. -/
theorem Balanced.done (hs : Balanced g a h s) (hm : Shift 0 0 s s') : Balanced g a h s' :=
  (hs.shift hm).congr rfl (add_zero a) (add_zero h)

/-- `mkdir` and `mknod` put what `create` gives. -/
theorem made_balanced {path : List UInt8} {type major minor : Nat} (hs : Balanced 0 a 0 s)
    (ha : 0 ≤ a) : Returns (create p path type major minor >>= fun r => match r with
      | none => pure false
      | some ip => do
          iunlockput ip
          return true) s fun _ s' => Balanced 0 a 0 s' := by
  rw [Returns, wp_bind]
  refine create_shift (hs.anchored ha) ?_
  rintro (_ | ip) s1 hm1
  · exact (wp_pure ..).2 (hs.done hm1)
  · dsimp only
    rw [wp_bind]
    refine iunlockput_shift ?_
    intro s2 hm2
    exact (wp_pure ..).2 (hs.done ((hm1.trans hm2).congr (add_neg_cancel _) (add_neg_cancel _)))

/-- `link` keeps the balance on each of its ways out. -/
theorem sys_link_balanced {old new : List UInt8} (hs : Balanced 0 a 0 s) (ha : 0 ≤ a) :
    Returns (sys_link p old new) s fun _ s' => Balanced 0 a 0 s' := by
  unfold sys_link
  rw [Returns, wp_bind]
  refine namei_shift (hs.anchored ha) ?_
  rintro (_ | ip) s1 _ hm1
  · exact (wp_pure ..).2 (hs.done hm1)
  dsimp only
  rw [wp_bind]
  refine ilock_shift ?_
  intro s2 _ _ hm2
  rw [wp_bind, wp_get]
  refine wp_ite (fun _ => ?_) fun _ => ?_
  · rw [wp_bind]
    refine iunlockput_shift ?_
    intro s3 hm3
    exact (wp_pure ..).2 (hs.done (((hm1.trans hm2).trans hm3).congr (by rw [gift_some]; abel)
      (by abel)))
  rw [wp_bind]
  refine setDin_shift ?_
  intro s3 hm3
  rw [wp_bind]
  refine iupdate_works.shift ?_
  intro _ s4 hm4
  rw [wp_bind]
  refine iunlock_shift ?_
  intro _ _ hm5
  -- the call has its reference, and no lock
  have hm : Shift (single ip) 0 s (s4.setInode ip fun x => { x with locked := false }) :=
    ((((hm1.trans hm2).trans hm3).trans hm4).trans hm5).congr (by rw [gift_some]; abel) (by abel)
  have hbad : ∀ {s5 : Kernel}, Shift (single ip) 0 s s5 →
      Returns (do
        ilock ip
        setDin ip fun d => d.setNlink (d.nlink + 65535)
        iupdate ip
        iunlockput ip
        return false) s5 fun _ s' => Balanced 0 a 0 s' := by
    intro s5 hm5
    rw [Returns, wp_bind]
    refine ilock_shift ?_
    intro s6 _ _ hm6
    rw [wp_bind]
    refine setDin_shift ?_
    intro s7 hm7
    rw [wp_bind]
    refine iupdate_works.shift ?_
    intro _ s8 hm8
    rw [wp_bind]
    refine iunlockput_shift ?_
    intro s9 hm9
    refine (wp_pure ..).2 (hs.done ?_)
    exact ((((hm5.trans hm6).trans hm7).trans hm8).trans hm9).congr (by abel) (by abel)
  rw [wp_bind]
  refine nameiparent_shift ((hs.shift hm).anchored (add_single_nonneg ha)) ?_
  rintro (_ | ⟨dp, name⟩) s6 hm6
  · exact hbad ((hm.trans hm6).congr (add_zero _) (add_zero _))
  dsimp only
  rw [wp_bind]
  refine ilock_shift ?_
  intro s7 _ _ hm7
  simp only [wp_bind, wp_get]
  refine dirlink_shift ?_
  intro ok s8 hm8
  have hdir : Shift (single ip + single dp) (single dp) s s8 := by
    refine (((hm.trans hm6).trans hm7).trans hm8).congr ?_ (by abel)
    show (single ip + single dp + 0 + 0 : Entry → Int) = _
    abel
  refine wp_ite (fun _ => ?_) fun _ => ?_
  · rw [wp_bind]
    refine iunlockput_shift ?_
    intro s9 hm9
    exact hbad ((hdir.trans hm9).congr (by abel) (by abel))
  · rw [wp_bind]
    refine iunlockput_shift ?_
    intro s9 hm9
    have hm10 : Shift (single ip) 0 s s9 := (hdir.trans hm9).congr (by abel) (by abel)
    rw [wp_bind]
    refine iput_shift ((hs.shift hm10).ref_pos (add_single_pos ha)) ?_
    intro s11 hm11
    exact (wp_pure ..).2 (hs.done ((hm10.trans hm11).congr (by abel) (by abel)))

theorem isdiremptyOr_works {type : Nat} : Works ip (isdiremptyOr ip type) :=
  Works.ite (fun _ => isdirempty_works) fun _ => .pure _

/-- `unlink` keeps the balance on each of its ways out. -/
theorem sys_unlink_balanced {path : List UInt8} (hs : Balanced 0 a 0 s) (ha : 0 ≤ a) :
    Returns (sys_unlink p path) s fun _ s' => Balanced 0 a 0 s' := by
  unfold sys_unlink
  rw [Returns, wp_bind]
  refine nameiparent_shift (hs.anchored ha) ?_
  rintro (_ | ⟨dp, name⟩) s1 hm1
  · exact (wp_pure ..).2 (hs.done hm1)
  dsimp only
  rw [wp_bind]
  refine ilock_shift ?_
  intro s2 _ _ hm2
  have hm12 : Shift (single dp) (single dp) s s2 := (hm1.trans hm2).congr (add_zero _) (zero_add _)
  -- the directory is given up with its lock
  have hput : ∀ {s3 : Kernel} {r : Bool}, Shift (single dp) (single dp) s s3 →
      Returns (iunlockput dp >>= fun _ => pure r) s3 fun _ s' => Balanced 0 a 0 s' := by
    intro s3 r hm3
    rw [Returns, wp_bind]
    refine iunlockput_shift ?_
    intro s4 hm4
    exact (wp_pure ..).2 (hs.done ((hm3.trans hm4).congr (add_neg_cancel _) (add_neg_cancel _)))
  refine wp_ite (fun _ => hput hm12) fun _ => ?_
  rw [wp_bind]
  refine dirlookup_shift ?_
  rintro (_ | ⟨ip, off⟩) s3 hm3
  · exact hput ((hm12.trans hm3).congr (add_zero _) (add_zero _))
  dsimp only
  rw [wp_bind]
  refine ilock_shift ?_
  intro s4 _ _ hm4
  have hboth : Shift (single dp + single ip) (single dp + single ip) s s4 := by
    refine ((hm12.trans hm3).trans hm4).congr ?_ (by abel)
    show (single dp + single ip + 0 : Entry → Int) = _
    abel
  rw [wp_bind, wp_get]
  refine wp_ite (fun _ => ?_) fun _ => ?_
  · rw [wp_bind]
    exact Returns.halt
  rw [wp_bind]
  refine isdiremptyOr_works.shift ?_
  intro empty s5 hm5
  refine wp_ite (fun _ => ?_) fun _ => ?_
  · rw [wp_bind]
    refine iunlockput_shift ?_
    intro s6 hm6
    exact hput (((hboth.trans hm5).trans hm6).congr (by abel) (by abel))
  rw [wp_bind]
  refine (writeContent_works _ off).shift ?_
  intro ok s6 hm6
  refine wp_ite (fun _ => ?_) fun _ => ?_
  · rw [wp_bind]
    exact Returns.halt
  have hend : ∀ {s7 : Kernel}, Shift (single dp + single ip) (single dp + single ip) s s7 →
      Returns (do
        iunlockput dp
        setDin ip fun d => d.setNlink (d.nlink + 65535)
        iupdate ip
        iunlockput ip
        return true) s7 fun _ s' => Balanced 0 a 0 s' := by
    intro s7 hm7
    rw [Returns, wp_bind]
    refine iunlockput_shift ?_
    intro s8 hm8
    rw [wp_bind]
    refine setDin_shift ?_
    intro s9 hm9
    rw [wp_bind]
    refine iupdate_works.shift ?_
    intro _ s10 hm10
    rw [wp_bind]
    refine iunlockput_shift ?_
    intro s11 hm11
    refine (wp_pure ..).2 (hs.done ?_)
    exact ((((hm7.trans hm8).trans hm9).trans hm10).trans hm11).congr (by abel) (by abel)
  have hboth' : Shift (single dp + single ip) (single dp + single ip) s s6 :=
    ((hboth.trans hm5).trans hm6).congr (by abel) (by abel)
  refine wp_ite (fun _ => ?_) fun _ => hend hboth'
  rw [wp_bind]
  refine setDin_shift ?_
  intro s7 hm7
  rw [wp_bind]
  refine iupdate_works.shift ?_
  intro _ s8 hm8
  exact hend (((hboth'.trans hm7).trans hm8).congr (by abel) (by abel))

theorem sys_mkdir_balanced {path : List UInt8} (hs : Balanced 0 a 0 s) (ha : 0 ≤ a) :
    Returns (sys_mkdir p path) s fun _ s' => Balanced 0 a 0 s' := made_balanced hs ha

theorem sys_mknod_balanced {path : List UInt8} {major minor : Nat} (hs : Balanced 0 a 0 s)
    (ha : 0 ≤ a) : Returns (sys_mknod p path major minor) s fun _ s' => Balanced 0 a 0 s' :=
  made_balanced hs ha

/-- `open` gets its inode locked. -/
theorem openInode_shift {path : List UInt8} {omode : Nat} {Q : Option Entry → Kernel → Prop}
    (hcwd : Anchored p s) (hQ : ∀ r s', Shift (gift r) (gift r) s s' → Q r s') :
    Returns (openInode p path omode) s Q := by
  unfold openInode
  refine wp_ite (fun _ => create_shift hcwd hQ) fun _ => ?_
  rw [wp_bind]
  refine namei_shift hcwd ?_
  rintro (_ | ip) s1 _ hm1
  · exact (wp_pure ..).2 (hQ none s1 hm1)
  dsimp only
  rw [wp_bind]
  refine ilock_shift ?_
  intro s2 _ _ hm2
  have hm : Shift (single ip) (single ip) s s2 := (hm1.trans hm2).congr (add_zero _) (zero_add _)
  rw [wp_bind, wp_get]
  refine wp_ite (fun _ => ?_) fun _ => (wp_pure ..).2 (hQ (some ip) s2 hm)
  rw [wp_bind]
  refine iunlockput_shift ?_
  intro s3 hm3
  exact (wp_pure ..).2 (hQ none s3 ((hm.trans hm3).congr (add_neg_cancel _) (add_neg_cancel _)))

/-- A file structure that stood for nothing is opened; it takes the reference over. -/
theorem Balanced.opened (hs : Balanced g (a + single ip) h s) (hnone : (s.ftable f).type = .FD_NONE)
    {x : File → File} (hip : (x (s.ftable f)).ip = some ip)
    (htype : (x (s.ftable f)).type = .FD_INODE)
    (href : (x (s.ftable f)).ref = (s.ftable f).ref) (h0 : (s.ftable f).ref ≠ 0) :
    Balanced g a h (s.setFile f x) := by
  have hset := @Balanced.setFile s f g (a + single ip) (single ip) h hs x 0
    (by rw [href]; exact (add_zero _).symm) ?_ fun hz => absurd (href.symm.trans hz) h0
  · exact hset.congr (by simp) (add_sub_cancel_right _ _) rfl
  · intro j
    rw [refers_inode htype, hip, refers_none (by rw [hnone]; simp), given_some, one_eq_single]
    simp

/-- `open` keeps the balance: its file holds the reference of the inode. -/
theorem sys_open_balanced {path : List UInt8} {omode : Nat} (hs : Balanced 0 a 0 s) (ha : 0 ≤ a) :
    Returns (sys_open p path omode) s fun _ s' => Balanced 0 a 0 s' := by
  unfold sys_open
  rw [Returns, wp_bind]
  refine openInode_shift (hs.anchored ha) ?_
  rintro (_ | ip) s1 hm1
  · exact (wp_pure ..).2 (hs.done hm1)
  have hs1 : Balanced 0 (a + single ip) (single ip) s1 := (hs.shift hm1).congr rfl rfl (zero_add _)
  dsimp only
  rw [wp_bind]
  -- the file takes over the reference of the inode
  refine filealloc_balanced ?_ ?_
  · dsimp only
    rw [wp_bind]
    refine iunlockput_shift ?_
    intro s2 hm2
    exact (wp_pure ..).2 ((hs1.shift hm2).congr rfl (by abel) (by abel))
  intro f hf
  have hs2 := hs1.alloc hf
  have hnone : ((s1.setFile f fun x => { x with ref := 1 }).ftable f).type = .FD_NONE := by
    show (Function.update s1.ftable f _ f).type = _
    rw [Function.update_self]
    exact hs1.free f hf
  have hone : ((s1.setFile f fun x => { x with ref := 1 }).ftable f).ref = 1 := by
    show (Function.update s1.ftable f _ f).ref = _
    rw [Function.update_self]
  dsimp only
  rw [wp_bind]
  refine fdalloc_balanced hs2 ?_ ?_
  · -- no descriptor is left
    dsimp only
    rw [wp_bind]
    refine fileclose_balanced hs2 (add_single_nonneg ha) ?_
    intro s3 hs3 _ _
    rw [wp_bind]
    refine iunlockput_shift ?_
    intro s4 hm4
    exact (wp_pure ..).2 ((hs3.shift hm4).congr (by abel) (by abel) (by abel))
  -- a descriptor points to it
  · intro fd _ hs3
    dsimp only
    rw [wp_bind]
    refine iunlock_shift ?_
    intro _ _ hm4
    have hs4 : Balanced 0 (a + single ip) 0 _ :=
      (hs3.shift hm4).congr (by abel) (by abel) (by abel)
    unfold Fs.setFile
    rw [wp_bind, wp_modify]
    refine (wp_pure ..).2 (hs4.opened hnone rfl rfl rfl ?_)
    show ((s1.setFile f fun x => { x with ref := 1 }).ftable f).ref ≠ 0
    rw [hone]
    decide

/-- Setting the cwd moves one reference. -/
theorem Balanced.setCwd (hs : Balanced g a h s) (v : Option Entry) :
    Balanced g (a + gift (s.task p).cwd - gift v) h (s.setTask p fun t => { t with cwd := v }) := by
  have hset := @Balanced.setTask s p g a (gift v - gift (s.task p).cwd) h hs
    (fun t => { t with cwd := v }) 0 (fun _ => (add_zero _).symm) ?_
  · exact hset.congr (sub_zero g) (by abel) rfl
  · intro j
    have h1 := given_eq_gift v j
    have h2 := given_eq_gift (s.task p).cwd j
    show ((given v j : Nat) : Int) = (given (s.task p).cwd j : Nat) +
      (gift v j - gift (s.task p).cwd j)
    omega

/-- `chdir` keeps the balance: the new cwd holds the reference of `namei`. -/
theorem sys_chdir_balanced {path : List UInt8} (hs : Balanced 0 a 0 s) (ha : 0 ≤ a) :
    Returns (sys_chdir p path) s fun _ s' => Balanced 0 a 0 s' := by
  unfold sys_chdir
  rw [Returns, wp_bind]
  refine namei_shift (hs.anchored ha) ?_
  rintro (_ | ip) s1 _ hm1
  · exact (wp_pure ..).2 (hs.done hm1)
  dsimp only
  rw [wp_bind]
  refine ilock_shift ?_
  intro s2 _ _ hm2
  rw [wp_bind, wp_get]
  -- no directory: the inode is put and the call fails
  refine wp_ite (fun _ => ?_) fun _ => ?_
  · rw [wp_bind]
    refine iunlockput_shift ?_
    intro s3 hm3
    exact (wp_pure ..).2 (hs.done (((hm1.trans hm2).trans hm3).congr (by rw [gift_some]; abel)
      (by abel)))
  rw [wp_bind]
  refine iunlock_shift ?_
  intro _ _ hm3
  have htask2 : s2.task = s.task := hm2.task.trans hm1.task
  -- the reference of `namei` becomes that of the cwd, and the old cwd is put
  have hs3 : Balanced 0 (a + single ip) 0 _ :=
    (hs.shift ((hm1.trans hm2).trans hm3)).congr rfl (by rw [gift_some]; abel) (by abel)
  cases hcwd : (s2.task p).cwd with
  | none => exact (wp_throw ..).2 trivial
  | some cwd =>
      dsimp only
      rw [wp_bind]
      have hcwd3 : ((s2.setInode ip fun x => { x with locked := false }).task p).cwd =
        some cwd := hcwd
      refine iput_shift (hs3.cwd_pos (add_single_nonneg ha) hcwd3) ?_
      intro s4 hm4
      rw [wp_bind, wp_modify]
      have hs5 := @Balanced.setCwd s4 p _ _ _ (hs3.shift hm4) (some ip)
      rw [hm4.task, hcwd3] at hs5
      refine (wp_pure ..).2 (hs5.congr rfl ?_ (add_zero 0))
      show (a + single ip + -single cwd + single cwd - single ip : Entry → Int) = a
      abel

/-- Every read leaves the inode locked. -/
theorem readAll_leaks {con : Option (List UInt8)} {reads : List (Nat × Nat)}
    (hs : Balanced g a (single ip) s) (ha : 0 ≤ a) :
    Returns (readAll p con ip reads) s fun _ s' =>
      ∃ b, 0 ≤ b ∧ Balanced g (a + b) (single ip) s' := by
  induction reads generalizing s a with
  | nil => exact (wp_pure ..).2 ⟨0, le_refl 0, hs.congr rfl (add_zero a).symm rfl⟩
  | cons r reads ih =>
      rcases r with ⟨off, n⟩
      unfold readAll
      rw [Returns, wp_bind, readi_eq]
      refine wp.mono (atEnd_leaks (hs.anchored ha) fun jp => readContent_works off n) ?_
        fun _ _ => trivial
      rintro r s1 ⟨b, hb, hm⟩
      refine wp.mono (ih ((hs.shift hm).congr rfl rfl (add_zero _)) fun j =>
        Int.add_nonneg (ha j) (hb j)) ?_
        fun _ _ => trivial
      rintro _ s2 ⟨b', hb', hs2⟩
      exact ⟨b + b', fun j => Int.add_nonneg (hb j) (hb' j), hs2.congr rfl (add_assoc _ _ _) rfl⟩

/-- The reads of `exec` work under the lock of the program's inode. -/
theorem readAll_touch {con : Option (List UInt8)} {reads : List (Nat × Nat)}
    (hvalid : (s.icache ip).valid = true) (htype : (s.icache ip).din.type ≠ T_SYMLINK) :
    Returns (readAll p con ip reads) s fun _ s' => Touch ip s s' := by
  induction reads generalizing s with
  | nil => exact (wp_pure ..).2 (Touch.refl s)
  | cons r reads ih =>
      rcases r with ⟨off, n⟩
      unfold readAll
      rw [Returns, wp_bind, readi_eq]
      refine wp.mono (atEnd_touch hvalid htype fun jp => readContent_works off n) ?_ fun _
        _ => trivial
      intro r s1 ht
      refine wp.mono (ih ?_ ?_) ?_ fun _ _ => trivial
      · rw [ht.entry]
        exact hvalid
      · rw [ht.type]
        exact htype
      · intro _ s2 ht2
        exact ht.trans s s1 s2 ht2

/-- `exec` of a program that is no link keeps the balance. -/
theorem exec_left {path : List UInt8} {con : Option (List UInt8)} {reads : List (Nat × Nat)}
    (hs : Balanced 0 a 0 s) (ha : 0 ≤ a) : Returns (exec p path con reads) s fun _ s' =>
      Left a (∀ ip s1, (namei p path).run s = .ok (some ip, s1) → Plain ip s1) s' := by
  unfold exec
  rw [Returns, wp_bind]
  refine namei_shift (hs.anchored ha) ?_
  rintro (_ | ip) s1 hrun hm1
  · exact (wp_pure ..).2 (hs.done hm1).left
  dsimp only
  rw [wp_bind]
  refine ilock_shift ?_
  intro s2 _ he hm2
  have hs2 : Balanced 0 (a + single ip) (single ip) s2 :=
    (hs.shift (hm1.trans hm2)).congr rfl (by rw [gift_some]; abel) (by abel)
  have hplain : Plain ip s1 ↔ (s2.icache ip).din.type ≠ T_SYMLINK := by
    rw [he.self]
    rfl
  -- the inode is given back
  have hend : ∀ {s3 : Kernel} {b : Entry → Int}, 0 ≤ b → (Plain ip s1 → b = 0) →
      Balanced 0 (a + single ip + b) (single ip) s3 →
      Returns (iunlockput ip >>= fun _ => pure true) s3 fun _ s' =>
        Left a (∀ ip s1, (namei p path).run s = .ok (some ip, s1) → Plain ip s1) s' := by
    intro s3 b hb hzero hs3
    rw [Returns, wp_bind]
    refine iunlockput_shift ?_
    intro s4 hm4
    refine (wp_pure ..).2 ⟨b, hb, (hs3.shift hm4).congr rfl (by abel) (by abel), ?_⟩
    exact fun hd => hzero (hd ip s1 hrun)
  rw [wp_bind]
  by_cases htype : (s2.icache ip).din.type = T_SYMLINK
  · refine wp.mono (readAll_leaks hs2 (add_single_nonneg ha)) ?_ fun _ _ => trivial
    rintro _ s3 ⟨b, hb, hs3⟩
    exact hend hb (fun hp => absurd htype (hplain.1 hp)) hs3
  · refine wp.mono (readAll_touch (by rw [he.self]; rfl) htype) ?_ fun _ _ => trivial
    intro _ s3 ht
    refine hend (le_refl 0) (fun _ => rfl) ((hs2.shift ht.shift).congr rfl rfl (add_zero _))

/-- Whatever `sys_symlink` looks up stays referred to. -/
theorem linkInode_shift {old new : List UInt8} {Q : Option Entry → Kernel → Prop}
    (hcwd : Anchored p s)
    (hnone : ∀ s' b, 0 ≤ b → Shift b 0 s s' → Q none s')
    (hsome : ∀ ip s' b, 0 ≤ b → Shift b (single ip) s s' → Q (some ip) s') :
    Returns (linkInode p old new) s Q := by
  unfold linkInode
  rw [Returns, wp_bind]
  refine namei_shift hcwd ?_
  rintro (_ | ip) s1 _ hm1
  · exact (wp_pure ..).2 (hnone s1 0 (le_refl 0) hm1)
  dsimp only
  rw [wp_bind]
  have hcwd1 := hm1.anchored (gift_nonneg _) hcwd
  refine namei_shift hcwd1 ?_
  rintro (_ | jp) s2 _ hm2
  · refine create_shift (hm2.anchored (gift_nonneg _) hcwd1) ?_
    rintro (_ | kp) s3 hm3
    · exact hnone s3 (single ip) (single_nonneg ip)
        (((hm1.trans hm2).trans hm3).congr (by rw [gift_some, gift_none]; abel)
          (by rw [gift_none]; abel))
    · refine hsome kp s3 (single ip + single kp) (add_single_nonneg (single_nonneg ip)) ?_
      refine ((hm1.trans hm2).trans hm3).congr ?_ ?_
      · show (single ip + 0 + single kp : Entry → Int) = single ip + single kp
        abel
      · rw [gift_some]
        abel
  · refine (wp_pure ..).2 (hnone s2 (single ip + single jp)
      (add_single_nonneg (single_nonneg ip)) ?_)
    exact (hm1.trans hm2).congr rfl (add_zero 0)

/-- `symlink` leaves the references of its store behind. -/
theorem sys_symlink_left {old new : List UInt8} (hs : Balanced 0 a 0 s) (ha : 0 ≤ a) :
    Returns (sys_symlink p old new) s fun _ s' => Left a False s' := by
  unfold sys_symlink
  rw [Returns, wp_bind]
  refine linkInode_shift (hs.anchored ha) ?_ ?_
  · intro s1 b hb hm1
    exact (wp_pure ..).2 ⟨b, hb, (hs.shift hm1).congr rfl rfl (add_zero 0), False.elim⟩
  · intro ip s1 b hb hm1
    dsimp only
    rw [wp_bind]
    refine setDin_shift ?_
    intro s2 hm2
    unfold putText
    rw [wp_bind]
    refine wp_ite (fun _ => ?_) fun _ => ?_
    · rw [wp_bind]
      exact (wp_throw ..).2 trivial
    refine setDin_shift ?_
    intro s3 hm3
    rw [wp_bind]
    refine iupdate_works.shift ?_
    intro _ s4 hm4
    rw [wp_bind]
    refine iunlock_shift ?_
    intro _ _ hm5
    refine (wp_pure ..).2 ⟨b, hb, ?_, False.elim⟩
    exact (hs.shift ((((hm1.trans hm2).trans hm3).trans hm4).trans hm5)).congr rfl (by abel)
      (by abel)

/-! ## Pipes and processes -/

/-- A file structure that stood for nothing is the end of a pipe. -/
theorem Balanced.piped (hs : Balanced g a h s) (hnone : (s.ftable f).type = .FD_NONE)
    (h0 : (s.ftable f).ref ≠ 0) (r w : Bool) : Balanced g a h
      (s.setFile f fun x => { x with type := .FD_PIPE, readable := r, writable := w }) := by
  have hset := @Balanced.setFile s f g a 0 h hs
    (fun x => { x with type := .FD_PIPE, readable := r, writable := w }) 0 (add_zero _).symm ?_
    fun hz => absurd hz h0
  · exact hset.congr (by simp) (sub_zero a) rfl
  · intro j
    rw [refers_none (by simp), refers_none (by rw [hnone]; simp)]
    simp

theorem Kernel.setFile_self {x : File → File} : (s.setFile f x).ftable f = x (s.ftable f) :=
  Function.update_self ..

theorem Kernel.setFile_of_ne {x : File → File} {j : Fin NFILE} (hj : j ≠ f) :
    (s.setFile f x).ftable j = s.ftable j := Function.update_of_ne hj _ _

/-- `pipealloc` gives two files, or closes what it has. -/
theorem pipealloc_balanced {mem : Bool} {Q : Option (Fin NFILE × Fin NFILE) → Kernel → Prop}
    (hs : Balanced g a h s) (ha : 0 ≤ a)
    (hnone : ∀ s', Balanced g a h s' → Q none s')
    (hsome : ∀ f0 f1 s', Balanced (g + single f0 + single f1) a h s' → Q (some (f0, f1)) s') :
    Returns (pipealloc mem) s Q := by
  unfold pipealloc
  rw [Returns, wp_bind]
  refine filealloc_balanced ((wp_pure ..).2 (hnone s hs)) ?_
  intro f0 hf0
  have hs1 := hs.alloc hf0
  have htype1 : ((s.setFile f0 fun x => { x with ref := 1 }).ftable f0).type = .FD_NONE := by
    rw [Kernel.setFile_self]
    exact hs.free f0 hf0
  have href1 : ((s.setFile f0 fun x => { x with ref := 1 }).ftable f0).ref = 1 := by
    rw [Kernel.setFile_self]
  generalize s.setFile f0 (fun x => { x with ref := 1 }) = s1 at hs1 htype1 href1
  dsimp only
  rw [wp_bind]
  refine filealloc_balanced ?_ ?_
  · -- one is not enough
    dsimp only
    rw [wp_bind]
    refine fileclose_balanced hs1 ha ?_
    intro s2 hs2 _ _
    exact (wp_pure ..).2 (hnone s2 (hs2.congr (by abel) rfl rfl))
  intro f1 hf1
  -- the second file is another one, for the first is taken
  have hne : f0 ≠ f1 := by
    intro heq
    rw [← heq, href1] at hf1
    exact absurd hf1 (by decide)
  have hs2 := hs1.alloc hf1
  have h0 : (s1.setFile f1 fun x => { x with ref := 1 }).ftable f0 = s1.ftable f0 :=
    Kernel.setFile_of_ne hne
  have htype2 : ((s1.setFile f1 fun x => { x with ref := 1 }).ftable f1).type = .FD_NONE := by
    rw [Kernel.setFile_self]
    exact hs1.free f1 hf1
  have href2 : ((s1.setFile f1 fun x => { x with ref := 1 }).ftable f1).ref = 1 := by
    rw [Kernel.setFile_self]
  generalize s1.setFile f1 (fun x => { x with ref := 1 }) = s2 at hs2 h0 htype2 href2
  dsimp only
  refine wp_ite (fun _ => ?_) fun _ => ?_
  · -- no page for the pipe
    rw [wp_bind]
    refine fileclose_balanced hs2 ha ?_
    intro s3 hs3 _ _
    rw [wp_bind]
    refine fileclose_balanced hs3 ha ?_
    intro s4 hs4 _ _
    exact (wp_pure ..).2 (hnone s4 (hs4.congr (by abel) rfl rfl))
  -- two ends of one pipe
  · unfold Fs.setFile
    rw [wp_bind, wp_modify, wp_bind, wp_modify]
    have hs3 := hs2.piped (h0 ▸ htype1) (by rw [h0, href1]; decide) true false
    refine (wp_pure ..).2 (hsome f0 f1 _ (hs3.piped ?_ ?_ false true))
    · rw [Kernel.setFile_of_ne (Ne.symm hne)]
      exact htype2
    · rw [Kernel.setFile_of_ne (Ne.symm hne), href2]
      decide

theorem Kernel.setFd_self {fd : Fin NOFILE} {v : Option (Fin NFILE)} :
    ((s.setFd p fd v).task p).ofile fd = v := by
  unfold Kernel.setFd Kernel.setTask
  simp only [Function.update_self]

/-- `pipe` keeps the balance. -/
theorem sys_pipe_balanced {mem : Bool} (hs : Balanced 0 a 0 s) (ha : 0 ≤ a) :
    Returns (sys_pipe p mem) s fun _ s' => Balanced 0 a 0 s' := by
  unfold sys_pipe
  rw [Returns, wp_bind]
  refine pipealloc_balanced hs ha (fun s1 hs1 => (wp_pure ..).2 hs1) ?_
  intro rf wf s1 hs1
  -- both files are closed again
  have hclose : ∀ {s2 : Kernel}, Balanced (0 + single rf + single wf) a 0 s2 →
      Returns (do
        fileclose rf
        fileclose wf
        return none) s2 fun (_ : Option (Fin NOFILE × Fin NOFILE)) s' => Balanced 0 a 0 s' := by
    intro s2 hs2
    rw [Returns, wp_bind]
    refine fileclose_balanced hs2 ha ?_
    intro s3 hs3 _ _
    rw [wp_bind]
    refine fileclose_balanced hs3 ha ?_
    intro s4 hs4 _ _
    exact (wp_pure ..).2 (hs4.congr (by abel) rfl rfl)
  dsimp only
  rw [wp_bind]
  refine fdalloc_balanced hs1 (hclose hs1) ?_
  intro fd0 _ hs2
  dsimp only
  rw [wp_bind]
  refine fdalloc_balanced hs2 ?_ ?_
  · dsimp only
    rw [wp_bind, wp_modify]
    have hs3 := @Balanced.setFd _ p _ a 0 hs2 fd0 none
    rw [Kernel.setFd_self] at hs3
    refine hclose (hs3.congr ?_ rfl rfl)
    show (0 + single rf + single wf - single rf + single rf - 0 : Fin NFILE → Int) = _
    abel
  · intro fd1 _ hs3
    exact (wp_pure ..).2 (hs3.congr (by abel) rfl rfl)

theorem Kernel.setFd_task_of_ne {q : Fin NPROC} {fd : Fin NOFILE} {v : Option (Fin NFILE)}
    (hq : q ≠ p) :
    (s.setFd p fd v).task q = s.task q := Function.update_of_ne hq _ _

theorem Kernel.setFd_cwd {fd : Fin NOFILE} {v : Option (Fin NFILE)} :
    ((s.setFd p fd v).task p).cwd = (s.task p).cwd := by
  unfold Kernel.setFd Kernel.setTask
  simp only [Function.update_self]

theorem Kernel.setFd_of_ne {fd fd' : Fin NOFILE} {v : Option (Fin NFILE)} (h : fd' ≠ fd) :
    ((s.setFd p fd v).task p).ofile fd' = (s.task p).ofile fd' := by
  unfold Kernel.setFd Kernel.setTask
  simp only [Function.update_self]
  exact Function.update_of_ne h _ _

/-- The child gets the descriptors of its parent. -/
theorem forkFds_balanced {child : Fin NPROC} {fds : List (Fin NOFILE)} {Q : Unit → Kernel → Prop}
    (hne : child ≠ p) (hs : Balanced 0 a 0 s) (hnodup : fds.Nodup)
    (hfree : ∀ fd ∈ fds, (s.task child).ofile fd = none)
    (hQ : ∀ s', Balanced 0 a 0 s' → s'.task p = s.task p →
      (s'.task child).cwd = (s.task child).cwd → Q () s') : Returns (forkFds p child fds) s Q := by
  induction fds generalizing s with
  | nil => exact (wp_pure ..).2 (hQ s hs rfl rfl)
  | cons fd fds ih =>
      rw [List.nodup_cons] at hnodup
      rw [List.forall_mem_cons] at hfree
      unfold forkFds
      rw [Returns, wp_bind, wp_get]
      -- an open descriptor is copied with one reference more
      cases hfd : (s.task p).ofile fd with
      | none => exact ih hs hnodup.2 hfree.2 hQ
      | some f =>
          dsimp only
          rw [wp_bind]
          refine filedup_balanced hs ?_
          intro hs1
          rw [wp_bind, wp_modify]
          have hs2 := @Balanced.setFd _ child _ a 0 hs1 fd (some f)
          have hold : ((s.setFile f fun x => { x with ref := x.ref + 1 }).task child).ofile
            fd = none :=
            hfree.1
          rw [hold] at hs2
          refine ih (hs2.congr ?_ rfl rfl) hnodup.2 ?_ ?_
          · show (0 + single f + 0 - single f : Fin NFILE → Int) = 0
            abel
          · intro fd' hmem
            have hfd' : fd' ≠ fd := by
              rintro rfl
              exact hnodup.1 hmem
            rw [Kernel.setFd_of_ne hfd']
            exact hfree.2 fd' hmem
          · intro s' hs' htask hcwd
            refine hQ s' hs' (htask.trans ?_) (hcwd.trans ?_)
            · rw [Kernel.setFd_task_of_ne (Ne.symm hne)]
              rfl
            · rw [Kernel.setFd_cwd]
              rfl

/-- `fork` keeps the balance: every descriptor of the child holds a reference of its own. -/
theorem fork_balanced {child : Fin NPROC} (hs : Balanced 0 a 0 s) (ha : 0 ≤ a)
    (hcwd : (s.task p).cwd ≠ none)
    (hchild : s.task child = ⟨none, fun _ => none⟩) :
    Returns (fork p child) s fun _ s' => Balanced 0 a 0 s' := by
  -- the child has no cwd, and the parent has one
  have hne : child ≠ p := by
    rintro rfl
    rw [hchild] at hcwd
    exact hcwd rfl
  unfold Fs.fork
  rw [Returns, wp_bind]
  refine forkFds_balanced hne hs (List.nodup_finRange _) ?_ ?_
  · intro fd _
    rw [hchild]
  intro s1 hs1 htask hcwd1
  rw [wp_bind, wp_get]
  cases hip : (s1.task p).cwd with
  | none => exact (wp_throw ..).2 trivial
  | some cwd =>
      dsimp only [idup]
      rw [wp_bind, wp_bind, setInode_wp, wp_pure, wp_modify]
      -- the reference of `idup` is that of the child's cwd
      have hdup := idup_shift (hs1.cwd_pos ha hip)
      have hs2 := @Balanced.setCwd _ child _ _ _ (hs1.shift hdup) (some cwd)
      have hold : ((s1.setInode cwd fun x => { x with ref := x.ref + 1 }).task child).cwd =
        none := by
        show (s1.task child).cwd = none
        rw [hcwd1, hchild]
      rw [hold] at hs2
      refine hs2.congr rfl ?_ (add_zero 0)
      show (a + single cwd + 0 - single cwd : Entry → Int) = a
      abel

/-- Closing the descriptors one by one. -/
theorem exitFds_balanced {fds : List (Fin NOFILE)} {Q : Unit → Kernel → Prop}
    (hs : Balanced 0 a 0 s)
    (ha : 0 ≤ a) (hQ : ∀ s', Balanced 0 a 0 s' → (s'.task p).cwd = (s.task p).cwd → Q () s') :
    Returns (exitFds p fds) s Q := by
  induction fds generalizing s with
  | nil => exact (wp_pure ..).2 (hQ s hs rfl)
  | cons fd fds ih =>
      unfold exitFds
      rw [Returns, wp_bind, wp_get]
      cases hfd : (s.task p).ofile fd with
      | none => exact ih hs hQ
      | some f =>
          dsimp only
          rw [wp_bind]
          refine fileclose_balanced hs ha ?_
          intro s1 hs1 htask _
          rw [wp_bind, wp_modify]
          -- the descriptor goes after the reference of the file
          have hs2 := @Balanced.setFd s1 p _ a 0 hs1 fd none
          rw [htask, hfd] at hs2
          refine ih (hs2.congr ?_ rfl rfl) ?_
          · show (0 - single f + single f - 0 : Fin NFILE → Int) = 0
            abel
          · intro s' hs' hcwd
            refine hQ s' hs' (hcwd.trans ?_)
            rw [Kernel.setFd_cwd, htask]

/-- `exit` keeps the balance. -/
theorem exit_balanced (hs : Balanced 0 a 0 s) (ha : 0 ≤ a) :
    Returns (exit p) s fun _ s' => Balanced 0 a 0 s' := by
  unfold Fs.exit
  rw [Returns, wp_bind]
  refine exitFds_balanced hs ha ?_
  intro s1 hs1 hcwd1
  rw [wp_bind, wp_get]
  cases hcwd : (s1.task p).cwd with
  | none => exact (wp_throw ..).2 trivial
  | some cwd =>
      dsimp only
      rw [wp_bind]
      refine iput_shift (hs1.cwd_pos ha hcwd) ?_
      intro s2 hm2
      rw [wp_modify]
      have hs3 := @Balanced.setCwd s2 p _ _ _ (hs1.shift hm2) none
      rw [hm2.task, hcwd] at hs3
      refine hs3.congr rfl ?_ (add_zero 0)
      show (a + -single cwd + single cwd - 0 : Entry → Int) = a
      abel

end Xv6.Fs
