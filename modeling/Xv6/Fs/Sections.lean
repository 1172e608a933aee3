import Xv6.Fs.Dir
import Xv6.Lib.Sections

/-!
# System calls of two processes

The calls that look up and make directory entries, cut where a lock is given up: a
section runs from taking the first lock to releasing the last one. Without the
other process they are the calls of `sysfile.c`.

Each call is a tree of sections (`Lib.Sections`), and `run_symlink`, `run_link`,
`run_unlink`, `run_mknod` and `run_mkdir` prove that running the tree is running
the definition of `Fs.File`, so there is one text of each call that counts. Each
turn of the loop of `namex` is a section, as it locks one directory. Calls on
descriptors are not cut up; they take no part in the races of `Fs.Race`.
-/

namespace Xv6.Fs

open Xv6.Lib Prog

/-! ## Sections -/

/-- What a turn of the loop of `namex` leads to. -/
inductive Visit
  | stop
  | parent
  | next (ip : Entry)

/-- A turn of the loop, while the directory is locked. -/
def visit (parent : Bool) (ip : Entry) (name : List UInt8) (last : Bool) : FM Visit := do
  ilock ip
  let s ← get
  if (s.icache ip).din.type ≠ T_DIR then
    iunlock ip
    return .stop
  if parent = true ∧ last = true then
    -- Stop one level early.
    iunlock ip
    return .parent
  match ← dirlookup ip name with
  | none => do
      iunlock ip
      return .stop
  | some (next, _) => do
      iunlock ip
      return .next next

/-- `create` from locking the directory on. -/
def createIn (dp : Entry) (name : List UInt8) (type major minor : Nat) : FM (Option Entry) := do
  ilock dp
  match ← dirlookup dp name with
  | some (ip, _) => do
      ilock ip
      iunlockput dp
      let s ← get
      if type = T_FILE ∧ (s.icache ip).din.type = T_FILE then return some ip
      if type = T_SYMLINK then
        -- new T_SYMLINK inode
        setDin ip fun d => d.setType T_SYMLINK
        return some ip
      iunlockput ip
      return none
  | none => return some (← createNew dp name type major minor)

/-- `sys_symlink` from locking the directory in `create` to unlocking the inode. -/
def linkIn (dp : Entry) (name old : List UInt8) : FM Bool := do
  match ← createIn dp name T_SYMLINK 0 0 with
  | none => return false
  | some ip => do
      setDin ip fun d => d.setSize old.length
      putText ip old
      iupdate ip
      iunlock ip
      return true

/-- The sections of paths and of `sys_symlink`, and those of other calls. -/
inductive Sec : Type → Type 1
  | start (p : Fin NPROC) (path : List UInt8) : Sec Entry
  | visit (parent : Bool) (ip : Entry) (name : List UInt8) (last : Bool) : Sec Visit
  | iput (ip : Entry) : Sec Unit
  | linkIn (dp : Entry) (name old : List UInt8) : Sec Bool
  | other {β : Type} (x : FM β) : Sec β

def Sec.code : {β : Type} → Sec β → FM β
  | _, .start p path => startInode p path
  | _, .visit parent ip name last => Fs.visit parent ip name last
  | _, .iput ip => Fs.iput ip
  | _, .linkIn dp name old => Fs.linkIn dp name old
  | _, .other x => x

abbrev SysCall (α : Type) := Resumption Sec α

/-! ## Calls -/

namespace SysCall

def walk (parent : Bool) : Entry → List (List UInt8) → SysCall (Option (Entry × List UInt8))
  | ip, [] =>
      if parent = true then .sect (.iput ip) fun _ => .ret none
      else .ret (some (ip, []))
  | ip, name :: names =>
      .sect (.visit parent ip name names.isEmpty) fun
        | .stop => .sect (.iput ip) fun _ => .ret none
        | .parent => .ret (some (ip, name))
        | .next next => .sect (.iput ip) fun _ => walk parent next names

def namex (p : Fin NPROC) (path : List UInt8) (parent : Bool) :
    SysCall (Option (Entry × List UInt8)) :=
  .sect (.start p path) fun ip => walk parent ip (elems path)

def namei (p : Fin NPROC) (path : List UInt8) : SysCall (Option Entry) :=
  (namex p path false).bind fun r => .ret (r.map Prod.fst)

def nameiparent (p : Fin NPROC) (path : List UInt8) : SysCall (Option (Entry × List UInt8)) :=
  namex p path true

/-- `create` in `new`, and what follows it up to unlocking the inode. -/
def inParent (p : Fin NPROC) (new : List UInt8) (f : Entry → List UInt8 → SysCall Bool) :
    SysCall Bool :=
  (nameiparent p new).bind fun
    | none => .ret false
    | some (dp, name) => f dp name

def symlink (p : Fin NPROC) (old new : List UInt8) : SysCall Bool :=
  (namei p old).bind fun
    | none => .ret false
    | some _ => (namei p new).bind fun
        | some _ => .ret false
        | none => inParent p new fun dp name => .sect (.linkIn dp name old) .ret

/-- `sys_mknod` and `sys_mkdir`, from locking the directory to unlocking the inode. -/
def makeIn (dp : Entry) (name : List UInt8) (type major minor : Nat) : FM (Option Entry) := do
  match ← createIn dp name type major minor with
  | none => return none
  | some ip => do
      iunlock ip
      return some ip

/-- `sys_mknod`, and `sys_mkdir` with the type of a directory. -/
def make (p : Fin NPROC) (path : List UInt8) (type major minor : Nat) : SysCall Bool :=
  inParent p path fun dp name =>
    .sect (.other (makeIn dp name type major minor)) fun
      | none => .ret false
      | some ip => .sect (.iput ip) fun _ => .ret true

/-- `sys_link` while `ip` is locked; nothing is done to a directory. -/
def countIn (ip : Entry) : FM Bool := do
  ilock ip
  let s ← get
  if (s.icache ip).din.type = T_DIR then
    iunlock ip
    return false
  setDin ip fun d => d.setNlink (d.nlink + 1)
  iupdate ip
  iunlock ip
  return true

/-- `sys_link` while the directory is locked. -/
def enterIn (dp : Entry) (name : List UInt8) (ip : Entry) : FM Bool := do
  ilock dp
  let s ← get
  if (← dirlink dp name (s.icache ip).inum) = false then
    iunlock dp
    return false
  else
    iunlock dp
    return true

/-- `sys_link` behind `bad`, while `ip` is locked. -/
def discountIn (ip : Entry) : FM Unit := do
  ilock ip
  setDin ip fun d => d.setNlink (d.nlink + 65535)
  iupdate ip
  iunlock ip

def linkBad (ip : Entry) : SysCall Bool :=
  .sect (.other (discountIn ip)) fun _ => .sect (.iput ip) fun _ => .ret false

/-- `sys_link` -/
def link (p : Fin NPROC) (old new : List UInt8) : SysCall Bool :=
  (namei p old).bind fun
    | none => .ret false
    | some ip => .sect (.other (countIn ip)) fun
        | false => .sect (.iput ip) fun _ => .ret false
        | true => (nameiparent p new).bind fun
            | none => linkBad ip
            | some (dp, name) => .sect (.other (enterIn dp name ip)) fun
                | false => .sect (.iput dp) fun _ => linkBad ip
                | true => .sect (.iput dp) fun _ => .sect (.iput ip) fun _ => .ret true

/-- `sys_unlink` from locking the directory to unlocking the inode that is unlinked. -/
def removeIn (dp : Entry) (name : List UInt8) : FM (Option Entry) := do
  ilock dp
  -- Cannot unlink "." or "..".
  if name = [DOT] ∨ name = [DOT, DOT] then
    iunlock dp
    return none
  match ← dirlookup dp name with
  | none => do
      iunlock dp
      return none
  | some (ip, off) => do
      ilock ip
      let s ← get
      let d := (s.icache ip).din
      if d.nlink = 0 ∨ 2 ^ 15 ≤ d.nlink then halt "unlink: nlink < 1"
      let empty ← isdiremptyOr ip d.type
      if empty = false then
        iunlockput ip
        iunlock dp
        return none
      if (← writeContent dp (List.replicate SIZEOF_DIRENT 0) off) = false then
        halt "unlink: writei"
      if d.type = T_DIR then
        setDin dp fun d => d.setNlink (d.nlink + 65535)
        iupdate dp
      iunlockput dp
      setDin ip fun d => d.setNlink (d.nlink + 65535)
      iupdate ip
      iunlock ip
      return some ip

/-- `sys_unlink` -/
def unlink (p : Fin NPROC) (path : List UInt8) : SysCall Bool :=
  inParent p path fun dp name => .sect (.other (removeIn dp name)) fun
    | none => .sect (.iput dp) fun _ => .ret false
    | some ip => .sect (.iput ip) fun _ => .ret true

end SysCall

/-! ## Without the other process -/

/-- The walk in sections is `namex`. -/
theorem run_walk (parent : Bool) (ip : Entry) (names : List (List UInt8)) :
    (SysCall.walk parent ip names).run Sec.code = walk parent ip names := by
  induction names generalizing ip with
  | nil =>
      cases parent with
      | true => rfl
      | false => rfl
  | cons name names ih =>
      funext s
      refine (run_eq_of_wp fun Q E h => ?_ :
        ((SysCall.walk parent ip (name :: names)).run Sec.code).run s =
          (walk parent ip (name :: names)).run s)
      unfold walk iunlockput at h
      unfold SysCall.walk Resumption.run
      show wp (visit parent ip name names.isEmpty >>= _) s Q E
      unfold visit
      simp only [wp_bind, wp_get] at h ⊢
      refine wp.mono h ?_ fun _ he => he
      rintro _ s1 h1
      -- no directory: the walk fails
      by_cases hdir : (s1.icache ip).din.type ≠ T_DIR
      · rw [if_pos hdir] at h1 ⊢
        simp only [wp_bind, wp_pure, Resumption.run, Sec.code] at h1 ⊢
        exact h1
      rw [if_neg hdir] at h1 ⊢
      -- the last element of a walk to the parent
      by_cases hlast : parent = true ∧ names = []
      · rw [if_pos hlast] at h1
        rw [if_pos ⟨hlast.1, List.isEmpty_iff.2 hlast.2⟩]
        simp only [wp_bind, wp_pure, Resumption.run] at h1 ⊢
        exact h1
      rw [if_neg hlast] at h1
      rw [if_neg fun h => hlast ⟨h.1, List.isEmpty_iff.1 h.2⟩]
      simp only [wp_bind] at h1 ⊢
      refine wp.mono h1 ?_ fun _ he => he
      rintro r s2 h2
      -- the name is not there, or the walk goes on with its inode
      cases r with
      | none =>
          simp only [wp_bind, wp_pure, Resumption.run, Sec.code] at h2 ⊢
          exact h2
      | some r =>
          simp only [wp_bind, wp_pure, Resumption.run, Sec.code, ih] at h2 ⊢
          exact h2

theorem run_namex (p : Fin NPROC) (path : List UInt8) (parent : Bool) :
    (SysCall.namex p path parent).run Sec.code = namex p path parent := by
  unfold SysCall.namex Resumption.run namex
  simp only [run_walk]
  rfl

theorem run_namei (p : Fin NPROC) (path : List UInt8) :
    (SysCall.namei p path).run Sec.code = namei p path := by
  unfold SysCall.namei namei
  rw [Resumption.run_bind, run_namex]
  rfl

/-- `create` is what its sections are. -/
theorem create_eq (p : Fin NPROC) (path : List UInt8) (type major minor : Nat) :
    create p path type major minor = nameiparent p path >>= fun
      | none => pure none
      | some (dp, name) => createIn dp name type major minor := by
  unfold create createIn
  rfl

/-- A call on the parent directory, in sections and whole. -/
theorem run_inParent (p : Fin NPROC) (new : List UInt8) (f : Entry → List UInt8 → SysCall Bool) :
    (SysCall.inParent p new f).run Sec.code = nameiparent p new >>= fun
      | none => pure false
      | some (dp, name) => (f dp name).run Sec.code := by
  unfold SysCall.inParent SysCall.nameiparent nameiparent
  rw [Resumption.run_bind, run_namex]
  congr 1
  funext r
  cases r with
  | none => rfl
  | some r => rfl

/-- `symlink` in sections is `sys_symlink`. -/
theorem run_symlink (p : Fin NPROC) (old new : List UInt8) :
    (SysCall.symlink p old new).run Sec.code = sys_symlink p old new := by
  funext s
  refine (run_eq_of_wp fun Q E h => ?_ : ((SysCall.symlink p old new).run Sec.code).run s =
    (sys_symlink p old new).run s)
  unfold sys_symlink linkInode at h
  unfold SysCall.symlink
  rw [Resumption.run_bind, run_namei]
  simp only [wp_bind] at h ⊢
  refine wp.mono h ?_ fun _ he => he
  intro r s1 h1
  cases r with
  -- the old path is looked at first
  | none =>
      simp only [wp_pure, Resumption.run] at h1 ⊢
      exact h1
  | some ip =>
      dsimp only at h1 ⊢
      rw [Resumption.run_bind, run_namei]
      simp only [wp_bind] at h1 ⊢
      refine wp.mono h1 ?_ fun _ he => he
      intro r s2 h2
      cases r with
      | some jp =>
          simp only [wp_pure, Resumption.run] at h2 ⊢
          exact h2
      | none =>
          dsimp only at h2 ⊢
          rw [create_eq, wp_bind] at h2
          rw [run_inParent, wp_bind]
          refine wp.mono h2 ?_ fun _ he => he
          intro r s3 h3
          cases r with
          | none =>
              simp only [wp_pure] at h3 ⊢
              exact h3
          | some r =>
              dsimp only [Resumption.run, Sec.code, linkIn] at h3 ⊢
              simp only [wp_bind] at h3 ⊢
              refine wp.mono h3 ?_ fun _ he => he
              intro r s4 h4
              cases r with
              | none =>
                  simp only [wp_pure] at h4 ⊢
                  exact h4
              | some ip =>
                  simp only [wp_bind, wp_pure] at h4 ⊢
                  exact h4

/-- `mkdir` and `mknod` in sections are `create` and `iunlockput`. -/
theorem run_make (p : Fin NPROC) (path : List UInt8) (type major minor : Nat) :
    (SysCall.make p path type major minor).run Sec.code = do
      match ← create p path type major minor with
      | none => return false
      | some ip => do
          iunlockput ip
          return true := by
  funext s
  refine (run_eq_of_wp fun Q E h => ?_ :
    ((SysCall.make p path type major minor).run Sec.code).run s = StateT.run _ s)
  unfold iunlockput at h
  rw [create_eq] at h
  unfold SysCall.make
  rw [run_inParent]
  simp only [wp_bind] at h ⊢
  refine wp.mono h ?_ fun _ he => he
  intro r s1 h1
  cases r with
  -- no parent directory
  | none =>
      simp only [wp_pure] at h1 ⊢
      exact h1
  | some r =>
      dsimp only [Resumption.run, Sec.code, SysCall.makeIn] at h1 ⊢
      simp only [wp_bind] at h1 ⊢
      refine wp.mono h1 ?_ fun _ he => he
      intro r s2 h2
      cases r with
      -- `create` has failed, or its inode is unlocked and put
      | none =>
          simp only [wp_pure, Resumption.run] at h2 ⊢
          exact h2
      | some ip =>
          simp only [wp_bind, wp_pure, Resumption.run, Sec.code] at h2 ⊢
          exact h2

/-- The way out of `link` in sections. -/
theorem run_linkBad (ip : Entry) : (SysCall.linkBad ip).run Sec.code = do
    ilock ip
    setDin ip fun d => d.setNlink (d.nlink + 65535)
    iupdate ip
    iunlockput ip
    return false := by
  unfold SysCall.linkBad SysCall.discountIn iunlockput
  simp only [Resumption.run, Sec.code, bind_assoc]

/-- `link` in sections is `sys_link`. -/
theorem run_link (p : Fin NPROC) (old new : List UInt8) :
    (SysCall.link p old new).run Sec.code = sys_link p old new := by
  funext s
  refine (run_eq_of_wp fun Q E h => ?_ : ((SysCall.link p old new).run Sec.code).run s =
    (sys_link p old new).run s)
  unfold sys_link at h
  unfold SysCall.link
  rw [Resumption.run_bind, run_namei]
  simp only [wp_bind] at h ⊢
  refine wp.mono h ?_ fun _ he => he
  intro r s1 h1
  cases r with
  -- the old path leads nowhere
  | none =>
      simp only [wp_pure, Resumption.run] at h1 ⊢
      exact h1
  | some ip =>
      dsimp only [Resumption.run, Sec.code, SysCall.countIn] at h1 ⊢
      simp only [wp_bind, wp_get] at h1 ⊢
      refine wp.mono h1 ?_ fun _ he => he
      intro _ s2 h2
      -- a directory is not linked
      by_cases hdir : (s2.icache ip).din.type = T_DIR
      · unfold iunlockput at h2
        rw [if_pos hdir] at h2 ⊢
        simp only [wp_bind, wp_pure, Resumption.run, Sec.code] at h2 ⊢
        exact h2
      rw [if_neg hdir] at h2 ⊢
      simp only [wp_bind, wp_pure, Resumption.run_bind] at h2 ⊢
      refine wp.mono h2 ?_ fun _ he => he
      intro _ s3 h3
      refine wp.mono h3 ?_ fun _ he => he
      intro _ s4 h4
      refine wp.mono h4 ?_ fun _ he => he
      intro _ s5 h5
      unfold SysCall.nameiparent
      rw [run_namex]
      refine wp.mono h5 ?_ fun _ he => he
      intro r s6 h6
      cases r with
      -- no parent directory: the link count is taken back
      | none =>
          dsimp only at h6 ⊢
          rw [run_linkBad]
          exact h6
      | some r =>
          dsimp only [Resumption.run, Sec.code, SysCall.enterIn] at h6 ⊢
          simp only [wp_bind, wp_get] at h6 ⊢
          refine wp.mono h6 ?_ fun _ he => he
          intro _ s7 h7
          refine wp.mono h7 ?_ fun _ he => he
          intro ok s8 h8
          unfold iunlockput at h8
          cases ok with
          | false =>
              simp only [if_true, wp_bind, wp_pure, Resumption.run, Sec.code, run_linkBad,
                iunlockput] at h8 ⊢
              exact h8
          | true =>
              simp only [Bool.true_eq_false, if_false, wp_bind, wp_pure, Resumption.run, Sec.code]
                at h8 ⊢
              exact h8

/-- `unlink` in sections is `sys_unlink`. -/
theorem run_unlink (p : Fin NPROC) (path : List UInt8) :
    (SysCall.unlink p path).run Sec.code = sys_unlink p path := by
  funext s
  refine (run_eq_of_wp fun Q E h => ?_ : ((SysCall.unlink p path).run Sec.code).run s =
    (sys_unlink p path).run s)
  unfold sys_unlink at h
  unfold SysCall.unlink
  rw [run_inParent]
  simp only [wp_bind] at h ⊢
  refine wp.mono h ?_ fun _ he => he
  intro r s1 h1
  cases r with
  -- no parent directory
  | none => exact h1
  | some r =>
      dsimp only [Resumption.run, Sec.code, SysCall.removeIn] at h1 ⊢
      simp only [wp_bind] at h1 ⊢
      refine wp.mono h1 ?_ fun _ he => he
      intro _ s2 h2
      -- `.` and `..` are not unlinked
      by_cases hdots : r.2 = [DOT] ∨ r.2 = [DOT, DOT]
      · unfold iunlockput at h2
        rw [if_pos hdots] at h2 ⊢
        simp only [wp_bind, wp_pure, Resumption.run, Sec.code] at h2 ⊢
        exact h2
      rw [if_neg hdots] at h2 ⊢
      simp only [wp_bind] at h2 ⊢
      refine wp.mono h2 ?_ fun _ he => he
      intro e s3 h3
      cases e with
      -- the name is not there
      | none =>
          unfold iunlockput at h3
          simp only [wp_bind, wp_pure, Resumption.run, Sec.code] at h3 ⊢
          exact h3
      | some e =>
          simp only [wp_bind, wp_get] at h3 ⊢
          refine wp.mono h3 ?_ fun _ he => he
          intro _ s4 h4
          by_cases hnlink : (s4.icache e.1).din.nlink = 0 ∨ 2 ^ 15 ≤ (s4.icache e.1).din.nlink
          · unfold halt at h4 ⊢
            rw [if_pos hnlink, wp_bind, wp_throw] at h4
            rw [if_pos hnlink, wp_bind, wp_throw]
            exact h4
          rw [if_neg hnlink] at h4 ⊢
          simp only [wp_bind] at h4 ⊢
          refine wp.mono h4 ?_ fun _ he => he
          intro empty s5 h5
          by_cases hempty : empty = false
          · unfold iunlockput at h5 ⊢
            rw [if_pos hempty] at h5 ⊢
            simp only [wp_bind, wp_pure, Resumption.run, Sec.code] at h5 ⊢
            exact h5
          rw [if_neg hempty] at h5 ⊢
          simp only [wp_bind] at h5 ⊢
          refine wp.mono h5 ?_ fun _ he => he
          intro ok s6 h6
          by_cases hok : ok = false
          · unfold halt at h6 ⊢
            rw [if_pos hok, wp_bind, wp_throw] at h6
            rw [if_pos hok, wp_bind, wp_throw]
            exact h6
          rw [if_neg hok] at h6 ⊢
          by_cases hdir : (s4.icache e.1).din.type = T_DIR
          · rw [if_pos hdir] at h6 ⊢
            simp only [wp_bind, wp_pure, Resumption.run, Sec.code, iunlockput] at h6 ⊢
            exact h6
          · rw [if_neg hdir] at h6 ⊢
            simp only [wp_bind, wp_pure, Resumption.run, Sec.code, iunlockput] at h6 ⊢
            exact h6

theorem run_mknod (p : Fin NPROC) (path : List UInt8) (major minor : Nat) :
    (SysCall.make p path T_DEV major minor).run Sec.code = sys_mknod p path major minor :=
  run_make p path T_DEV major minor

theorem run_mkdir (p : Fin NPROC) (path : List UInt8) :
    (SysCall.make p path T_DIR 0 0).run Sec.code = sys_mkdir p path :=
  run_make p path T_DIR 0 0

end Xv6.Fs
