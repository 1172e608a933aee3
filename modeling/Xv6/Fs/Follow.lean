import Xv6.Fs.Symlink

/-!
# Locks and symbolic links

`readi` and `writei` of an inode that is locked give up its lock to follow a link,
and take it again. The console deals with the inode the links lead to when it is
the first one that is locked.

`locks_iff_not_toConsole` says when a call leaves the locks and the references as
it found them: for every chain of links, offset and length, exactly if the links
do not lead to the console. `consoleread` and `consolewrite` release the lock of
the inode they are given and take it again, and that is not the one the caller
holds (`linked_unlocks`). `Leads` takes the links one by one, with the states in
between, and the code is shown to follow them.
-/

namespace Xv6.Fs

open Xv6.Lib Prog

variable {s s' s0 s1 : Kernel} {p : Fin NPROC} {ip jp oip : Entry} {E : Stop → Prop}
variable {a b c h k l : Entry → Nat}

/-! ## Where links lead -/

/-- From the locked inode `ip` a number of links lead to `jp`, which is locked then. -/
inductive Leads (p : Fin NPROC) : Nat → Kernel → Entry → Kernel → Entry → Prop
  | here {s : Kernel} {ip : Entry} : Leads p 0 s ip s ip
  | link {n : Nat} {s s1 s2 s3 s' : Kernel} {ip jp kp : Entry} {path : List UInt8}
      (type : (s.icache ip).din.type = T_SYMLINK)
      (text : (linkText (s.icache ip).din).run s = .ok (path, s))
      (unlock : (iunlock ip).run s = .ok ((), s1))
      (name : (namei p path).run s1 = .ok (some jp, s2))
      (lock : (ilock jp).run s2 = .ok ((), s3))
      (rest : Leads p n s3 jp s' kp) : Leads p (n + 1) s ip s' kp

/-- At least one link, and not more than are followed, leads to the console. -/
def ToConsole (p : Fin NPROC) (s : Kernel) (ip : Entry) : Prop :=
  ∃ n s' jp, 1 ≤ n ∧ n ≤ 10 ∧ Leads p n s ip s' jp ∧
    (s'.icache jp).din.type = T_DEV ∧ (s'.icache jp).din.major = CONSOLE

/-- A chain that ends within the turns is followed to its end. By induction on its length. -/
theorem Leads.follow {n turns : Nat} (hl : Leads p n s ip s' jp) (hn : n ≤ turns)
    (hend : (s'.icache jp).din.type ≠ T_SYMLINK) :
    (follow p oip turns ip).run s = .ok (some jp, s') := by
  induction hl generalizing turns with
  | here =>
      -- the end of the chain: no turn of the loop is made
      cases turns with
      | zero =>
          apply run_eq_of_wp (x := (pure (some _) : FM (Option Entry)))
          intro Q E hQ
          unfold Fs.follow
          simp only [wp_bind, wp_get]
          rw [if_pos hend]
          exact hQ
      | succ turns =>
          apply run_eq_of_wp (x := (pure (some _) : FM (Option Entry)))
          intro Q E hQ
          unfold Fs.follow
          simp only [wp_bind, wp_get]
          rw [if_pos hend]
          exact hQ
  | @link n s s1 s2 s3 s' ip jp kp path type text unlock name lock rest ih =>
      -- one link and one turn
      cases turns with
      | zero => exact absurd hn (Nat.not_succ_le_zero n)
      | succ turns =>
          have hrest := ih (Nat.le_of_succ_le_succ hn) hend
          have hwp : wp (Fs.follow p oip (turns + 1) ip) s
              (fun r t => r = some kp ∧ t = s') fun _ => False := by
            unfold Fs.follow
            simp only [wp_bind, wp_get]
            rw [if_neg (not_not.2 type)]
            simp only [wp_bind]
            refine wp_of_ok text (wp_of_ok unlock (wp_of_ok name ?_))
            simp only [wp_bind]
            exact wp_of_ok lock (wp_of_ok hrest ⟨rfl, rfl⟩)
          rcases Ends.exists hwp with ⟨r, t, hrun, rfl, rfl⟩
          exact hrun

/-! ## Following the links -/

/-- Back to the first inode. -/
theorem unfollow_locks {Q : Unit → Kernel → Prop} (hlock : (s.icache ip).locked = true)
    (href : 1 ≤ (s.icache ip).ref) (hfree : oip ≠ ip → (s.icache oip).locked = false)
    (hQ : ∀ s', Moved 0 0 (one ip) (one oip) s s' → Q () s') (hE : ∀ e, Inner e → E e) :
    wp (unfollow oip ip) s Q E := by
  unfold unfollow
  refine wp_ite (fun hne => ?_) fun heq => ?_
  · rw [wp_bind]
    refine iunlock_wp hlock href (ilock_wp ?_ ?_ hE)
    · intro hl _ s' he
      exact hQ s' ((unlock_moved hlock).trans (loaded_moved hl he))
    · intro hl
      rw [setInode_of_ne hne, hfree hne] at hl
      cases hl
  · have heq : oip = ip := not_not.1 heq
    rw [heq] at hQ
    exact (wp_pure ..).2 (hQ s (Moved.refl s))

/-- Which inode is locked while links are followed. -/
theorem Moved.swap_locked (hm : Moved a b (one oip) (one ip) s0 s)
    (hlock : (s0.icache oip).locked = true) : (s.icache ip).locked = true := by
  have h := hm.locks ip
  rw [one_self] at h
  by_cases heq : ip = oip
  · rw [heq, one_self, lockN_true.2 hlock] at h
    rw [heq]
    exact lockN_true.1 (by omega)
  · rw [one_of_ne heq] at h
    unfold lockN at h
    cases hl : (s.icache ip).locked with
    | true => rfl
    | false =>
        rw [hl] at h
        simp at h

/-- The first inode is not locked while another is. -/
theorem Moved.swap_free (hm : Moved a b (one oip) (one ip) s0 s)
    (hlock : (s0.icache oip).locked = true) (hne : oip ≠ ip) : (s.icache oip).locked = false := by
  have h := hm.locks oip
  rw [one_self, one_of_ne hne, lockN_true.2 hlock] at h
  exact lockN_false.1 (by omega)

/-- What is locked while none is locked on the way was locked before. -/
theorem Moved.drop_locked (hm : Moved a b (one oip) 0 s0 s) (hlock : (s0.icache oip).locked = true)
    (hj : (s.icache jp).locked = true) : jp ≠ oip ∧ (s0.icache jp).locked = true := by
  have h := hm.locks jp
  rw [lockN_true.2 hj] at h
  by_cases heq : jp = oip
  · rw [heq, one_self, lockN_true.2 hlock] at h
    simp at h
  · rw [one_of_ne heq] at h
    exact ⟨heq, lockN_true.1 h.symm⟩

/-- The links are followed from `ip`, where `oip` was locked first. -/
theorem follow_locks {turns : Nat} {Q : Option Entry → Kernel → Prop}
    (hlock : (s0.icache oip).locked = true)
    (hm : Moved 0 b (one oip) (one ip) s0 s) (href : 1 ≤ (s.icache ip).ref)
    (hsome : ∀ n s' jp b', n ≤ turns → Leads p n s ip s' jp → Moved 0 b' (one oip) (one jp) s0 s' →
      1 ≤ (s'.icache jp).ref → (s'.icache jp).din.type ≠ T_SYMLINK → Q (some jp) s')
    (hnone : ∀ s' b', Moved 0 b' 0 0 s0 s' → Q none s')
    (hdead : (∃ j, j ≠ oip ∧ (s0.icache j).locked = true) → E .deadlock)
    (hover : E .overrun) (hE : ∀ e, Inner e → E e) : wp (follow p oip turns ip) s Q E := by
  induction turns generalizing b s ip with
  | zero =>
      have hlocked := hm.swap_locked hlock
      unfold follow
      simp only [wp_bind, wp_get]
      refine wp_ite (fun htype => ?_) fun _ => ?_
      · exact (wp_pure ..).2 (hsome 0 s ip b (Nat.le_refl 0) .here hm href htype)
      simp only [wp_bind]
      refine unfollow_locks hlocked href (hm.swap_free hlock) ?_ hE
      intro s' hm'
      refine (wp_pure ..).2 (hnone s' b ?_)
      exact (hm.trans (by simpa using hm'.frame b 0)).relocked
  | succ turns ih =>
      have hlocked := hm.swap_locked hlock
      unfold follow
      simp only [wp_bind, wp_get]
      refine wp_ite (fun htype => ?_) fun htype => ?_
      · exact (wp_pure ..).2 (hsome 0 s ip b (Nat.zero_le _) .here hm href htype)
      have hlink : (s.icache ip).din.type = T_SYMLINK := not_not.1 htype
      simp only [wp_bind]
      unfold linkText
      by_cases hlong : 4 * (NDIRECT + 3) < (s.icache ip).din.size ∧
          cstr (addrBytes (s.icache ip).din) = addrBytes (s.icache ip).din
      · rw [if_pos hlong]
        simp only [wp_bind, wp_throw]
        exact hover
      have htext : (linkText (s.icache ip).din).run s =
          .ok (cstr ((addrBytes (s.icache ip).din).take (s.icache ip).din.size), s) := by
        unfold linkText
        rw [if_neg hlong]
        rfl
      rw [if_neg hlong, wp_pure]
      -- the lock is given up, and the path of the link is looked up without a lock
      have hunlock : (iunlock ip).run s =
          .ok ((), s.setInode ip fun x => { x with locked := false }) := by
        have h : wp (iunlock ip) s (fun _ t => t = s.setInode ip fun x =>
          { x with locked := false })
            fun _ => False := iunlock_wp hlocked href rfl
        rcases Ends.exists h with ⟨_, _, hrun, rfl⟩
        exact hrun
      refine wp_of_ok hunlock ?_
      have hm1 := hm.trans (by simpa using (unlock_moved hlocked).frame b 0)
      have hname := @namei_wp (s.setInode ip fun x => { x with locked := false })
        (fun e => Inner e ∨ e = .deadlock ∧ ∃ j, j ≠ oip ∧ (s0.icache j).locked = true) p
        (cstr ((addrBytes (s.icache ip).din).take (s.icache ip).din.size))
        (fun r s2 => Moved 0 (given r) 0 0 (s.setInode ip fun x => { x with locked := false }) s2)
        (fun _ _ h => h)
        (fun hl => .inr ⟨rfl, hl.imp fun _ hj => hm1.drop_locked hlock hj⟩) fun _ he => .inl he
      have hstop : ∀ e, (Inner e ∨ e = .deadlock ∧ ∃ j, j ≠ oip ∧ (s0.icache j).locked = true) →
          E e := by
        rintro e (he | ⟨rfl, hj⟩)
        · exact hE e he
        · exact hdead hj
      refine wp.mono (hname.inter (wp_run fun _ _ hrun => hrun)) ?_ fun e he => hstop e he.1
      rintro r s2 ⟨hm2, hrun2⟩
      have hm2' : Moved 0 (b + given r) (one oip) 0 s0 s2 := by
        refine hm1.trans ?_
        simpa [add_comm] using hm2.frame b 0
      cases r with
      | none =>
          simp only [wp_bind]
          refine ilock_wp ?_ ?_ hE
          · intro hfree _ s' he
            refine (wp_pure ..).2 (hnone s' (b + given none) ?_)
            exact (hm2'.trans (by
              simpa using (loaded_moved hfree he).frame (b + given none) 0)).relocked
          · intro hl
            exact absurd rfl (hm2'.drop_locked hlock hl).1
      | some jp =>
          simp only [wp_bind]
          have hlockjp := @ilock_wp s2 jp
            (fun e => Inner e ∨ e = .deadlock ∧ ∃ j, j ≠ oip ∧ (s0.icache j).locked = true)
            (fun _ s3 => Entered jp (loaded s2 jp) s2 s3 ∧ (s2.icache jp).locked = false)
            (fun hfree _ _ he => ⟨he, hfree⟩)
            (fun hl => .inr ⟨rfl, jp, hm2'.drop_locked hlock hl⟩) fun _ he => .inl he
          refine wp.mono (hlockjp.inter (wp_run fun _ _ hrun => hrun)) ?_ fun e he => hstop e he.1
          rintro _ s3 ⟨⟨he, hfree⟩, hrun3⟩
          have hm3 := hm2'.trans (by
            simpa using (loaded_moved hfree he).frame (b + given (some jp)) 0)
          have href3 : 1 ≤ (s3.icache jp).ref := by
            have h := hm2.refs jp
            simp only [given_some, one_self, Pi.zero_apply] at h
            rw [he.self]
            show 1 ≤ (s2.icache jp).ref
            omega
          refine ih hm3 href3 ?_
          intro n s' kp b' hn hl
          exact hsome (n + 1) s' kp b' (Nat.succ_le_succ hn)
            (.link hlink htext hunlock hrun2 hrun3 hl)

/-! ## Reading and writing -/

/-- The locks are as they were when the call returns. It does not unlock what is not
locked, and does not wait for a lock when no other one was held. -/
def KeepsLocks (ip : Entry) (s : Kernel) {α : Type} (x : FM α) : Prop :=
  wp x s (fun _ s' => ∀ j, (s'.icache j).locked = (s.icache j).locked) fun e =>
    e ≠ .panic "iunlock" ∧ ((∀ j, j ≠ ip → (s.icache j).locked = false) → e ≠ .deadlock)

/-- What `readi` and `writei` do at the end of the links. -/
def atEnd {α : Type} (oip : Entry) (bad con : α) (content : Entry → FM α) : Option Entry → FM α
  | none => return bad
  | some ip => do
      let s ← get
      if (s.icache ip).din.type = T_DEV then
        if (s.icache ip).din.major ≠ CONSOLE then
          unfollow oip ip
          return bad
        unfollow oip ip
        console ip con
      else
        let r ← content ip
        unfollow oip ip
        return r

theorem readi_eq (con : Option (List UInt8)) (off n : Nat) :
    readi p con ip off n =
      (follow p ip 10 ip >>= atEnd ip none con fun jp => readContent jp off n) := by
  unfold readi
  congr 1

theorem writei_eq (src : List UInt8) (off : Nat) :
    writei p ip src off =
      (follow p ip 10 ip >>= atEnd ip false true fun jp => writeContent jp src off) := by
  unfold writei
  congr 1

section atEnd

variable {α : Type} {bad con : α} {content : Entry → FM α}

/-- Where the chain leads to no console, every way through the loop gives back the locks it
took. -/
theorem keepsLocks_of_not (hlock : (s.icache ip).locked = true) (href : 1 ≤ (s.icache ip).ref)
    (hcontent : ∀ jp, Works jp (content jp)) (hnot : ¬ ToConsole p s ip) :
    KeepsLocks ip s (follow p ip 10 ip >>= atEnd ip bad con content) := by
  have hE : ∀ e, Inner e → e ≠ .panic "iunlock" ∧
      ((∀ j, j ≠ ip → (s.icache j).locked = false) → e ≠ .deadlock) :=
    fun e he => ⟨he.2.1, fun _ => he.1⟩
  unfold KeepsLocks
  rw [wp_bind]
  refine follow_locks hlock (Moved.refl s) href ?_ ?_ ?_ ⟨by simp, fun _ => by simp⟩ hE
  · intro n s1 jp b hn hl hm href1 _
    have hlock1 := hm.swap_locked hlock
    have hfree1 := hm.swap_free hlock
    unfold atEnd
    simp only [wp_bind, wp_get]
    -- back to the first inode with the locks as they were
    have hback : ∀ s2 s3, (∀ j, lockN (s2.icache j) = lockN (s1.icache j)) →
        Moved 0 0 (one jp) (one ip) s2 s3 → ∀ j, (s3.icache j).locked = (s.icache j).locked := by
      intro s2 s3 h12 h23 j
      have h1 := hm.locks j
      have h2 := h12 j
      have h3 := h23.locks j
      have hj : lockN (s3.icache j) = lockN (s.icache j) := by omega
      cases hs : (s.icache j).locked with
      | true => exact lockN_true.1 (hj.trans (lockN_true.2 hs))
      | false => exact lockN_false.1 (hj.trans (lockN_false.2 hs))
    refine wp_ite (fun hdev => ?_) fun _ => ?_
    · refine wp_ite (fun _ => ?_) fun hcon => ?_
      · simp only [wp_bind]
        refine unfollow_locks hlock1 href1 hfree1 ?_ hE
        intro s2 hm2
        exact (wp_pure ..).2 (hback s1 s2 (fun _ => rfl) hm2)
      -- the console without a link
      have hsame : jp = ip := by
        cases hl with
        | here => rfl
        | link type text unlock name lock rest =>
            exact absurd ⟨_, _, _, Nat.succ_pos _, hn, .link type text unlock name lock rest, hdev,
              not_not.1 hcon⟩ hnot
      subst hsame
      unfold unfollow
      rw [wp_bind, if_neg (not_not.2 rfl), wp_pure]
      unfold console
      simp only [wp_bind]
      refine iunlock_wp hlock1 href1 (ilock_wp ?_ ?_ hE)
      · intro hfree _ s2 he
        refine (wp_pure ..).2 (hback s1 s2 (fun _ => rfl) ?_)
        exact (unlock_moved hlock1).trans (loaded_moved hfree he)
      · intro hl
        rw [setInode_self] at hl
        cases hl
    · simp only [wp_bind]
      refine wp.mono (hcontent jp s1) ?_ hE
      intro r s2 ht
      have hjp : s2.icache jp = { s1.icache jp with din := (s2.icache jp).din } := ht.entry
      refine unfollow_locks ?_ ?_ ?_ ?_ hE
      · rw [hjp]
        exact hlock1
      · rw [hjp]
        exact href1
      · intro hne
        rw [ht.others ip hne]
        exact hfree1 hne
      · intro s3 hm3
        refine (wp_pure ..).2 (hback s2 s3 ?_ hm3)
        intro j
        by_cases hj : j = jp
        · rw [hj, hjp]
          rfl
        · rw [ht.others j hj]
  · intro s1 b hm
    exact (wp_pure ..).2 hm.unlocked
  · rintro ⟨j, hne, hj⟩
    refine ⟨by simp, fun hall => ?_⟩
    rw [hall j hne] at hj
    cases hj

/-- The console is unlocked once more after the first inode has been locked. -/
theorem unlocks_console (hlock : (s.icache ip).locked = true) (href : 1 ≤ (s.icache ip).ref)
    (hvalid : (s.icache ip).valid = true) (hto : ToConsole p s ip) :
    wp (follow p ip 10 ip >>= atEnd ip bad con content) s (fun _ _ => False)
      fun e => e = .panic "iunlock" := by
  rcases hto with ⟨n, s1, jp, hpos, hn, hl, hdev, hcon⟩
  have hrun := @Leads.follow _ _ _ _ _ ip _ _ hl hn (by rw [hdev]; decide)
  -- what is known where the links end
  obtain ⟨b, hm, href1⟩ : ∃ b, Moved 0 b (one ip) (one jp) s s1 ∧ 1 ≤ (s1.icache jp).ref := by
    have h : wp (follow p ip 10 ip) s (fun r t => ∀ j, r = some j →
        ∃ b, Moved 0 b (one ip) (one j) s t ∧ 1 ≤ (t.icache j).ref) fun _ => True := by
      refine follow_locks hlock (Moved.refl s) href ?_ (fun _ _ _ _ => nofun) (fun _ => trivial)
        trivial fun _ _ => trivial
      rintro n t j b - - hm href1 - _ heq
      cases heq
      exact ⟨b, hm, href1⟩
    exact h.of_ok hrun jp rfl
  have hsame : Same (s.icache ip) (s1.icache ip) := hm.held ip href
  have hne : ip ≠ jp := by
    intro heq
    have htype : (s.icache ip).din.type = T_SYMLINK := by
      cases hl with
      | here => cases hpos
      | link type => exact type
    rw [← heq, hsame.type hvalid, htype] at hdev
    exact absurd hdev (by decide)
  have hlock1 := hm.swap_locked hlock
  rw [wp_bind]
  refine wp_of_ok hrun ?_
  unfold atEnd
  simp only [wp_bind, wp_get]
  rw [if_pos hdev, if_neg (not_not.2 hcon)]
  simp only [wp_bind]
  unfold unfollow
  rw [if_pos hne, wp_bind]
  refine iunlock_wp hlock1 href1 ?_
  -- the first inode is still there, and is not read again
  have hentry := setInode_of_ne (s := s1) (f := fun x => { x with locked := false }) hne
  have hvalid1 := hsame.valid hvalid
  have href0 : ¬ (s1.icache ip).ref < 1 := by
    have h := hm.refs ip
    simp only [Pi.zero_apply] at h
    omega
  unfold ilock acquiresleep
  simp only [wp_bind, wp_get]
  rw [hentry, if_neg href0]
  simp only [wp_bind, wp_get]
  rw [hentry, if_neg (by rw [hm.swap_free hlock hne]; decide), setInode_wp,
    if_neg (by rw [hvalid1]; decide), wp_pure]
  unfold console iunlock halt
  simp only [wp_bind, wp_get]
  rw [if_pos]
  · simp only [wp_bind, wp_throw]
  · rw [setInode_of_ne hne.symm, setInode_self]
    exact .inl rfl

/-- The locks are kept exactly when the chain does not lead to the console. -/
theorem keepsLocks_iff (hlock : (s.icache ip).locked = true) (href : 1 ≤ (s.icache ip).ref)
    (hvalid : (s.icache ip).valid = true) (hcontent : ∀ jp, Works jp (content jp)) :
    KeepsLocks ip s (follow p ip 10 ip >>= atEnd ip bad con content) ↔ ¬ ToConsole p s ip := by
  refine ⟨?_, keepsLocks_of_not hlock href hcontent⟩
  intro hkeep hto
  have h := wp.inter (@unlocks_console _ _ _ _ bad con content
    hlock href hvalid hto) hkeep
  have hfalse : wp (follow p ip 10 ip >>= atEnd ip bad con content) s (fun _ _ => False)
      fun _ => False := wp.mono h (fun _ _ hQ => hQ.1) fun e he => he.2.1 he.1
  rcases Ends.exists hfalse with ⟨_, _, _, hf⟩
  exact hf

end atEnd

/-- `readi` and `writei` keep to the locks unless links lead to the console. -/
theorem locks_iff_not_toConsole (p : Fin NPROC) (s : Kernel) (ip : Entry)
    (hlock : (s.icache ip).locked = true) (href : 1 ≤ (s.icache ip).ref)
    (hvalid : (s.icache ip).valid = true) :
    (∀ con off n, KeepsLocks ip s (readi p con ip off n) ↔ ¬ ToConsole p s ip) ∧
      ∀ src off, KeepsLocks ip s (writei p ip src off) ↔ ¬ ToConsole p s ip := by
  constructor
  · intro con off n
    rw [readi_eq]
    exact keepsLocks_iff hlock href hvalid fun jp => readContent_works off n
  · intro src off
    rw [writei_eq]
    exact keepsLocks_iff hlock href hvalid fun jp => writeContent_works src off

/-- A link to the console that a process has locked is at entry 1. -/
def linked : Kernel :=
  rooted.setInode 1 fun _ => ⟨3, 1, true, true,
    withText (Dinode.zero.setType T_SYMLINK) [SLASH, 99]⟩

/-- The device is unlocked by the console and was not locked any more. -/
theorem linked_unlocks : (linked.icache 1).locked = true ∧ (linked.icache 1).valid = true ∧
    ¬ KeepsLocks 1 linked (readi 0 none 1 0 1) ∧ ¬ KeepsLocks 1 linked (writei 0 1 [0] 0) := by
  have hread : (readi 0 none 1 0 1).run linked = .error (.panic "iunlock") :=
    eq_of_stopped (by decide +kernel)
  have hwrite : (writei 0 1 [0] 0).run linked = .error (.panic "iunlock") :=
    eq_of_stopped (by decide +kernel)
  refine ⟨rfl, rfl, fun h => ?_, fun h => ?_⟩
  · exact (h.of_error hread).1 rfl
  · exact (h.of_error hwrite).1 rfl

theorem locks_iff_not_toConsole_linked :
    (∀ con off n, KeepsLocks 1 linked (readi 0 con 1 off n) ↔ ¬ ToConsole 0 linked 1) ∧
      ∀ src off, KeepsLocks 1 linked (writei 0 1 src off) ↔ ¬ ToConsole 0 linked 1 :=
  locks_iff_not_toConsole 0 linked 1 rfl (by decide) rfl

end Xv6.Fs
