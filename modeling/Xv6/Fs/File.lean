import Xv6.Fs.Inode

/-!
# The system calls of Project03

`file.c` and `sysfile.c`, and what `fork`, `exit` and `exec` do to files. The
strings that a call gets have been fetched from the process already. A pipe has no
inode, and what it or the console returns is given with the call.

Each system call is a definition under its source name, on the state of
`Fs.Inode`; descriptors are the array `ofile` of a process, files the entries of
`ftable`. `Call.run` is one call of one process from its beginning to its end, and
`boot` the state in which the first process runs. The bytes of a pipe are the
subject of `Dev.Pipe`, its ends that of `Dev.Ends`.
-/

namespace Xv6.Fs

open Xv6.Lib Prog

/-! ## File structures -/

namespace Kernel

def setFile (s : Kernel) (f : Fin NFILE) (g : File → File) : Kernel :=
  { s with ftable := Function.update s.ftable f (g (s.ftable f)) }

def setTask (s : Kernel) (p : Fin NPROC) (g : Task → Task) : Kernel :=
  { s with task := Function.update s.task p (g (s.task p)) }

/-- `myproc()->ofile[fd] = v` -/
def setFd (s : Kernel) (p : Fin NPROC) (fd : Fin NOFILE) (v : Option (Fin NFILE)) : Kernel :=
  s.setTask p fun t => { t with ofile := Function.update t.ofile fd v }

end Kernel

def setFile (f : Fin NFILE) (g : File → File) : FM Unit := modify fun s => s.setFile f g

/-- Allocate a file structure. -/
def filealloc : FM (Option (Fin NFILE)) := do
  let s ← get
  match (List.finRange NFILE).find? fun f => (s.ftable f).ref = 0 with
  | none => return none
  | some f => do
      setFile f fun x => { x with ref := 1 }
      return some f

/-- Increment ref count for file f. -/
def filedup (f : Fin NFILE) : FM Unit := do
  let s ← get
  if (s.ftable f).ref < 1 then halt "filedup"
  setFile f fun x => { x with ref := x.ref + 1 }

/-- Close file f. (Decrement ref count, close when reaches 0.) -/
def fileclose (f : Fin NFILE) : FM Unit := do
  let s ← get
  let ff := s.ftable f
  if ff.ref < 1 then halt "fileclose"
  if 1 < ff.ref then setFile f fun x => { x with ref := x.ref - 1 }
  else
    setFile f fun x => { x with ref := 0, type := .FD_NONE }
    if ff.type = .FD_INODE then
      match ff.ip with
      | none => throw .fault
      | some ip => iput ip

/-- Read from file f; nothing stands for -1. -/
def fileread (p : Fin NPROC) (f : Fin NFILE) (con : Option (List UInt8)) (n : Nat) :
    FM (Option (List UInt8)) := do
  let s ← get
  let x := s.ftable f
  if x.readable = false then return none
  match x.type, x.ip with
  | .FD_PIPE, _ => return con
  | .FD_INODE, some ip => do
      ilock ip
      let r ← readi p con ip x.off n
      let k := (r.getD []).length
      if 0 < k then setFile f fun y => { y with off := (y.off + k) % 2 ^ 32 }
      iunlock ip
      return r
  | .FD_INODE, none => throw .fault
  | .FD_NONE, _ => halt "fileread"

/-- `max` in `filewrite` -/
def MAXWRITE : Nat := (10 - 1 - 1 - 2) / 2 * 512

/-- The loop of `filewrite`; every turn writes at least one byte. -/
def writeLoop (p : Fin NPROC) (f : Fin NFILE) (ip : Entry) : Nat → List UInt8 → FM Bool
  | 0, _ => return true
  | fuel + 1, src => do
      if src = [] then return true
      let n1 := min src.length MAXWRITE
      ilock ip
      let s ← get
      let ok ← writei p ip (src.take n1) (s.ftable f).off
      if ok = true then setFile f fun y => { y with off := (y.off + n1) % 2 ^ 32 }
      iunlock ip
      if ok = false then return false
      writeLoop p f ip fuel (src.drop n1)

/-- Write to file f; false stands for -1. -/
def filewrite (p : Fin NPROC) (f : Fin NFILE) (con : Bool) (src : List UInt8) : FM Bool := do
  let s ← get
  let x := s.ftable f
  if x.writable = false then return false
  match x.type, x.ip with
  | .FD_PIPE, _ => return con
  | .FD_INODE, some ip => writeLoop p f ip src.length src
  | .FD_INODE, none => throw .fault
  | .FD_NONE, _ => halt "filewrite"

/-! ## Descriptors -/

/-- Fetch the file that the process has at `fd`. -/
def argfd (p : Fin NPROC) (fd : Fin NOFILE) : FM (Option (Fin NFILE)) := do
  let s ← get
  return (s.task p).ofile fd

/-- Allocate a file descriptor for the given file. -/
def fdalloc (p : Fin NPROC) (f : Fin NFILE) : FM (Option (Fin NOFILE)) := do
  let s ← get
  match (List.finRange NOFILE).find? fun fd => (s.task p).ofile fd = none with
  | none => return none
  | some fd => do
      modify fun s => s.setFd p fd (some f)
      return some fd

def sys_dup (p : Fin NPROC) (fd : Fin NOFILE) : FM (Option (Fin NOFILE)) := do
  match ← argfd p fd with
  | none => return none
  | some f => do
      match ← fdalloc p f with
      | none => return none
      | some fd => do
          filedup f
          return some fd

def sys_read (p : Fin NPROC) (fd : Fin NOFILE) (con : Option (List UInt8)) (n : Nat) :
    FM (Option (List UInt8)) := do
  match ← argfd p fd with
  | none => return none
  | some f => fileread p f con n

def sys_write (p : Fin NPROC) (fd : Fin NOFILE) (con : Bool) (src : List UInt8) : FM Bool := do
  match ← argfd p fd with
  | none => return false
  | some f => filewrite p f con src

def sys_close (p : Fin NPROC) (fd : Fin NOFILE) : FM Bool := do
  match ← argfd p fd with
  | none => return false
  | some f => do
      modify fun s => s.setFd p fd none
      fileclose f
      return true

/-- `sys_fstat`: the type, the number and the count of links. -/
def sys_fstat (p : Fin NPROC) (fd : Fin NOFILE) : FM (Option (Nat × Nat × Nat)) := do
  match ← argfd p fd with
  | none => return none
  | some f => do
      let s ← get
      match (s.ftable f).type, (s.ftable f).ip with
      | .FD_INODE, some ip => do
          ilock ip
          let s ← get
          iunlock ip
          return some ((s.icache ip).din.type, (s.icache ip).inum, (s.icache ip).din.nlink)
      | .FD_INODE, none => throw .fault
      | _, _ => return none

/-! ## Directory entries -/

/-- `'.'` -/
def DOT : UInt8 := 46

/-- Create the path new as a link to the same inode as old. -/
def sys_link (p : Fin NPROC) (old new : List UInt8) : FM Bool := do
  match ← namei p old with
  | none => return false
  | some ip => do
      ilock ip
      let s ← get
      if (s.icache ip).din.type = T_DIR then
        iunlockput ip
        return false
      setDin ip fun d => d.setNlink (d.nlink + 1)
      iupdate ip
      iunlock ip
      let bad : FM Bool := do
        ilock ip
        setDin ip fun d => d.setNlink (d.nlink + 65535)
        iupdate ip
        iunlockput ip
        return false
      match ← nameiparent p new with
      | none => bad
      | some (dp, name) => do
          ilock dp
          let s ← get
          if (← dirlink dp name (s.icache ip).inum) = false then
            iunlockput dp
            bad
          else
            iunlockput dp
            iput ip
            return true

/-- The loop of `isdirempty`. -/
def isdiremptyFrom (dp : Entry) : List Nat → FM Bool
  | [] => return true
  | off :: offs => do
      let de ← readDirent dp off "isdirempty: readi"
      if deInum de ≠ 0 then return false
      isdiremptyFrom dp offs

/-- Is the directory dp empty except for "." and ".." ? -/
def isdirempty (dp : Entry) : FM Bool := do
  let s ← get
  isdiremptyFrom dp ((entryOffs (s.icache dp).din.size).drop 2)

/-- `ip->type != T_DIR || isdirempty(ip)` -/
def isdiremptyOr (ip : Entry) (type : Nat) : FM Bool := do
  if type = T_DIR then isdirempty ip
  else return true

def sys_unlink (p : Fin NPROC) (path : List UInt8) : FM Bool := do
  match ← nameiparent p path with
  | none => return false
  | some (dp, name) => do
      ilock dp
      -- Cannot unlink "." or "..".
      if name = [DOT] ∨ name = [DOT, DOT] then
        iunlockput dp
        return false
      match ← dirlookup dp name with
      | none => do
          iunlockput dp
          return false
      | some (ip, off) => do
          ilock ip
          let s ← get
          let d := (s.icache ip).din
          if d.nlink = 0 ∨ 2 ^ 15 ≤ d.nlink then halt "unlink: nlink < 1"
          let empty ← isdiremptyOr ip d.type
          if empty = false then
            iunlockput ip
            iunlockput dp
            return false
          if (← writeContent dp (List.replicate SIZEOF_DIRENT 0) off) = false then
            halt "unlink: writei"
          if d.type = T_DIR then
            setDin dp fun d => d.setNlink (d.nlink + 65535)
            iupdate dp
          iunlockput dp
          setDin ip fun d => d.setNlink (d.nlink + 65535)
          iupdate ip
          iunlockput ip
          return true

/-- The part of `create` that makes a new inode in the locked directory `dp`. -/
def createNew (dp : Entry) (name : List UInt8) (type major minor : Nat) : FM Entry := do
  let ip ← ialloc type
  ilock ip
  setDin ip fun d => ((d.setMajor major).setMinor minor).setNlink 1
  let s ← get
  if type = T_SYMLINK ∧ (s.icache ip).din.type ≠ T_SYMLINK then
    setDin ip fun d => d.setType T_SYMLINK
  iupdate ip
  if type = T_DIR then
    -- Create . and .. entries.
    setDin dp fun d => d.setNlink (d.nlink + 1)
    iupdate dp
    let s ← get
    if (← dirlink ip [DOT] (s.icache ip).inum) = false then halt "create dots"
    if (← dirlink ip [DOT, DOT] (s.icache dp).inum) = false then halt "create dots"
  let s ← get
  if (← dirlink dp name (s.icache ip).inum) = false then halt "create: dirlink"
  iunlockput dp
  return ip

def create (p : Fin NPROC) (path : List UInt8) (type major minor : Nat) : FM (Option Entry) := do
  match ← nameiparent p path with
  | none => return none
  | some (dp, name) => do
      ilock dp
      match ← dirlookup dp name with
      | some (ip, _) => do
          ilock ip
          iunlockput dp
          let s ← get
          if type = T_FILE ∧ (s.icache ip).din.type = T_FILE then return some ip
          if type = T_SYMLINK then
            -- new T_SYMLINK inode
            setDin ip fun d => d.setType T_SYMLINK
            return some ip
          iunlockput ip
          return none
      | none => return some (← createNew dp name type major minor)

def O_WRONLY : Nat := 0x001
def O_RDWR : Nat := 0x002
def O_CREATE : Nat := 0x200

/-- The inode that `sys_open` opens, locked. -/
def openInode (p : Fin NPROC) (path : List UInt8) (omode : Nat) : FM (Option Entry) := do
  if omode &&& O_CREATE ≠ 0 then create p path T_FILE 0 0
  else
    match ← namei p path with
    | none => return none
    | some ip => do
        ilock ip
        let s ← get
        if (s.icache ip).din.type = T_DIR ∧ omode ≠ 0 then
          iunlockput ip
          return none
        return some ip

def sys_open (p : Fin NPROC) (path : List UInt8) (omode : Nat) : FM (Option (Fin NOFILE)) := do
  match ← openInode p path omode with
  | none => return none
  | some ip => do
      match ← filealloc with
      | none => do
          iunlockput ip
          return none
      | some f => do
          match ← fdalloc p f with
          | none => do
              fileclose f
              iunlockput ip
              return none
          | some fd => do
              iunlock ip
              setFile f fun x => { x with
                type := .FD_INODE
                ip := some ip
                off := 0
                readable := omode &&& O_WRONLY = 0
                writable := omode &&& O_WRONLY ≠ 0 ∨ omode &&& O_RDWR ≠ 0 }
              return some fd

def sys_mkdir (p : Fin NPROC) (path : List UInt8) : FM Bool := do
  match ← create p path T_DIR 0 0 with
  | none => return false
  | some ip => do
      iunlockput ip
      return true

def sys_mknod (p : Fin NPROC) (path : List UInt8) (major minor : Nat) : FM Bool := do
  match ← create p path T_DEV major minor with
  | none => return false
  | some ip => do
      iunlockput ip
      return true

def sys_chdir (p : Fin NPROC) (path : List UInt8) : FM Bool := do
  match ← namei p path with
  | none => return false
  | some ip => do
      ilock ip
      let s ← get
      if (s.icache ip).din.type ≠ T_DIR then
        iunlockput ip
        return false
      iunlock ip
      match (s.task p).cwd with
      | none => throw .fault
      | some cwd => do
          iput cwd
          modify fun s => s.setTask p fun t => { t with cwd := some ip }
          return true

/-- `sizeof(ip->addrs)` -/
def SIZEOF_ADDRS : Nat := 4 * (NDIRECT + 3)

/-- `memmove((char*)(ip->addrs), old, len + 1)`; what follows `addrs[]` in memory is
another inode. -/
def putText (ip : Entry) (old : List UInt8) : FM Unit := do
  if SIZEOF_ADDRS < old.length + 1 then throw .overrun
  setDin ip fun d => patch d 12 (old.length + 1) fun i => old.getD i 0

/-- The inode that `sys_symlink` makes for the link, locked. -/
def linkInode (p : Fin NPROC) (old new : List UInt8) : FM (Option Entry) := do
  match ← namei p old with
  | none => return none
  | some _ =>
      match ← namei p new with
      | some _ => return none
      | none => create p new T_SYMLINK 0 0

/-- Create the path new as a link to the redirect inode as old. -/
def sys_symlink (p : Fin NPROC) (old new : List UInt8) : FM Bool := do
  match ← linkInode p old new with
  | none => return false
  | some ip => do
      setDin ip fun d => d.setSize old.length
      putText ip old
      iupdate ip
      iunlock ip
      return true

/-- `pipealloc`; `mem` says whether `kalloc` has a page. -/
def pipealloc (mem : Bool) : FM (Option (Fin NFILE × Fin NFILE)) := do
  match ← filealloc with
  | none => return none
  | some f0 => do
      match ← filealloc with
      | none => do
          fileclose f0
          return none
      | some f1 => do
          if mem = false then
            fileclose f0
            fileclose f1
            return none
          setFile f0 fun x => { x with type := .FD_PIPE, readable := true, writable := false }
          setFile f1 fun x => { x with type := .FD_PIPE, readable := false, writable := true }
          return some (f0, f1)

def sys_pipe (p : Fin NPROC) (mem : Bool) : FM (Option (Fin NOFILE × Fin NOFILE)) := do
  match ← pipealloc mem with
  | none => return none
  | some (rf, wf) => do
      match ← fdalloc p rf with
      | none => do
          fileclose rf
          fileclose wf
          return none
      | some fd0 => do
          match ← fdalloc p wf with
          | none => do
              modify fun s => s.setFd p fd0 none
              fileclose rf
              fileclose wf
              return none
          | some fd1 => return some (fd0, fd1)

/-! ## Processes -/

/-- The loop of `fork` over the descriptors. -/
def forkFds (p child : Fin NPROC) : List (Fin NOFILE) → FM Unit
  | [] => return ()
  | fd :: fds => do
      let s ← get
      match (s.task p).ofile fd with
      | none => forkFds p child fds
      | some f => do
          filedup f
          modify fun s => s.setFd child fd (some f)
          forkFds p child fds

/-- What `fork` does to files, once the child has been allocated. -/
def fork (p child : Fin NPROC) : FM Unit := do
  forkFds p child (List.finRange NOFILE)
  let s ← get
  match (s.task p).cwd with
  | none => throw .fault
  | some cwd => do
      let cwd ← idup cwd
      modify fun s => s.setTask child fun t => { t with cwd := some cwd }

/-- The loop of `exit` over the descriptors. -/
def exitFds (p : Fin NPROC) : List (Fin NOFILE) → FM Unit
  | [] => return ()
  | fd :: fds => do
      let s ← get
      match (s.task p).ofile fd with
      | none => exitFds p fds
      | some f => do
          fileclose f
          modify fun s => s.setFd p fd none
          exitFds p fds

/-- What `exit` does to files. -/
def exit (p : Fin NPROC) : FM Unit := do
  exitFds p (List.finRange NOFILE)
  let s ← get
  match (s.task p).cwd with
  | none => throw .fault
  | some cwd => do
      iput cwd
      modify fun s => s.setTask p fun t => { t with cwd := none }

/-- Reads at the given offsets. -/
def readAll (p : Fin NPROC) (con : Option (List UInt8)) (ip : Entry) : List (Nat × Nat) → FM Unit
  | [] => return ()
  | (off, n) :: rs => do
      let _ ← readi p con ip off n
      readAll p con ip rs

/-- What `exec` does to inodes: it reads the headers and segments, at offsets that
depend on what it has read. -/
def exec (p : Fin NPROC) (path : List UInt8) (con : Option (List UInt8))
    (reads : List (Nat × Nat)) :
    FM Bool := do
  match ← namei p path with
  | none => return false
  | some ip => do
      ilock ip
      readAll p con ip reads
      iunlockput ip
      return true

/-! ## The system -/

inductive Call
  | open (path : List UInt8) (omode : Nat)
  | read (fd : Fin NOFILE) (con : Option (List UInt8)) (n : Nat)
  | write (fd : Fin NOFILE) (con : Bool) (src : List UInt8)
  | close (fd : Fin NOFILE)
  | dup (fd : Fin NOFILE)
  | fstat (fd : Fin NOFILE)
  | link (old new : List UInt8)
  | unlink (path : List UInt8)
  | mkdir (path : List UInt8)
  | mknod (path : List UInt8) (major minor : Nat)
  | symlink (old new : List UInt8)
  | chdir (path : List UInt8)
  | pipe (mem : Bool)
  | fork (child : Fin NPROC)
  | exit
  | exec (path : List UInt8) (con : Option (List UInt8)) (reads : List (Nat × Nat))
  | sync

/-- A complete call by process `p`, without its result. The log makes `sync` a call that
does nothing here. -/
def Call.run (p : Fin NPROC) : Call → FM Unit
  | .open path omode => do let _ ← sys_open p path omode
  | .read fd con n => do let _ ← sys_read p fd con n
  | .write fd con src => do let _ ← sys_write p fd con src
  | .close fd => do let _ ← sys_close p fd
  | .dup fd => do let _ ← sys_dup p fd
  | .fstat fd => do let _ ← sys_fstat p fd
  | .link old new => do let _ ← sys_link p old new
  | .unlink path => do let _ ← sys_unlink p path
  | .mkdir path => do let _ ← sys_mkdir p path
  | .mknod path major minor => do let _ ← sys_mknod p path major minor
  | .symlink old new => do let _ ← sys_symlink p old new
  | .chdir path => do let _ ← sys_chdir p path
  | .pipe mem => do let _ ← sys_pipe p mem
  | .fork child => Fs.fork p child
  | .exit => Fs.exit p
  | .exec path con reads => do let _ ← Fs.exec p path con reads
  | .sync => return ()

/-- A process that is there, and a child that is not, yet. -/
def Call.Allowed (s : Kernel) (p : Fin NPROC) : Call → Prop
  | .fork child => (s.task p).cwd ≠ none ∧ s.task child = ⟨none, fun _ => none⟩
  | _ => (s.task p).cwd ≠ none

/-- One complete call. -/
def Step (s s' : Kernel) : Prop :=
  ∃ (p : Fin NPROC) (c : Call), c.Allowed s p ∧ (c.run p).run s = .ok ((), s')

/-- The kernel when the first process runs in `/`. -/
def boot (d : Disk) : Kernel where
  disk := d
  sb := readsb d
  icache := fun ip => if ip = 0 then ⟨ROOTINO, 1, false, false, Dinode.zero⟩
    else ⟨0, 0, false, false, Dinode.zero⟩
  ftable := fun _ => ⟨.FD_NONE, 0, false, false, none, 0⟩
  task := fun p => ⟨if p = 0 then some 0 else none, fun _ => none⟩

end Xv6.Fs
