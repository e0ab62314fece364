import Xv6.Fs.Dir
import Xv6.Lib.Run

/-!
# `file.c` and `sysfile.c`: open files and the file-system system calls

* `File`, the file table and each process's `ofile` and `cwd` (`FsSys`), and `SysM`, the
  state monad of the system calls;
* `filealloc`, `filedup`, `fileclose`, `fdalloc`;
* `create`, `sys_open`, `sys_close`, `sys_dup`, `sys_pipe`, `sys_mkdir`, `sys_mknod`,
  `sys_link`, `sys_unlink`, `sys_chdir`, the inode work of `exec`, and the file part of
  `fork` and `exit`;
* `fsStep` : one system call of one process, between transactions; `fsInit` : the image with
  `initproc` in `/`.

`create` looks the name up in the parent and never looks at the parent's link count, so a
process whose current directory was unlinked can still create files in it
(`unlinked_cwd_orphan`).
-/

namespace Xv6

inductive FdType where
  | none
  | pipe
  | inode
  deriving DecidableEq

/-- `struct file`: its type, `ref`, and for `FD_INODE` the inode. The pipe and the offset are
not kept. -/
structure File where
  type : FdType
  ref : Nat
  ip : Nat

/-- The processes' file-system state: the inodes, `ftable`, and each process's `ofile[]` and
`cwd`, `none` for a slot with no process. -/
structure FsSys (ι : Type) where
  itable : Itable
  file : Fin NFILE → File
  ofile : ι → Fin NOFILE → Option (Fin NFILE)
  cwd : ι → Option Nat

/-- The code of the system calls: `none` is a `panic`. -/
abbrev SysM (ι : Type) := StateT (FsSys ι) Option

variable {ι : Type} [DecidableEq ι]

/-- Run code of `fs.c` on the inodes. -/
def onInodes {α : Type} (x : FsM α) : SysM ι α := fun s =>
  (x s.itable).map fun (a, t) => (a, { s with itable := t })

/-! ## `file.c` -/

/-- Allocate a file structure. -/
def filealloc : SysM ι (Option (Fin NFILE)) := do
  let s ← get
  match (List.finRange NFILE).find? (fun f => (s.file f).ref = 0) with
  | some f =>
    set { s with file := Function.update s.file f { s.file f with ref := 1 } }
    pure (some f)
  | none => pure none

/-- Increment ref count for file `f`. -/
def filedup (f : Fin NFILE) : SysM ι Unit := do
  let s ← get
  if (s.file f).ref < 1 then failure  -- panic("filedup")
  set { s with file := Function.update s.file f { s.file f with ref := (s.file f).ref + 1 } }

/-- Close file `f`: decrement its ref count, and at `0` release what it holds. -/
def fileclose (f : Fin NFILE) : SysM ι Unit := do
  let s ← get
  let ff := s.file f
  if ff.ref < 1 then failure  -- panic("fileclose")
  if 0 < ff.ref - 1 then
    set { s with file := Function.update s.file f { ff with ref := ff.ref - 1 } }
  else
    set { s with file := Function.update s.file f { ff with ref := 0, type := .none } }
    -- an FD_PIPE file calls pipeclose, on the pipe of Xv6.File.Pipe
    if ff.type = .inode then onInodes (iput ff.ip)

/-- Allocate a file descriptor of process `p` for the file `f`. -/
def fdalloc (p : ι) (f : Fin NFILE) : SysM ι (Option (Fin NOFILE)) := do
  let s ← get
  match (List.finRange NOFILE).find? (fun fd => s.ofile p fd = none) with
  | some fd =>
    set { s with ofile := Function.update s.ofile p (Function.update (s.ofile p) fd (some f)) }
    pure (some fd)
  | none => pure none

/-- `argfd`: the descriptor `fd` of `p` and its file, if it is open. -/
def argfd (s : FsSys ι) (p : ι) (fd : Nat) : Option (Fin NOFILE × Fin NFILE) :=
  if h : fd < NOFILE then (s.ofile p ⟨fd, h⟩).map fun f => (⟨fd, h⟩, f) else none

/-- `myproc()->ofile[fd] = 0`. -/
def clearFd (p : ι) (fd : Fin NOFILE) : SysM ι Unit :=
  modify fun s => { s with ofile := Function.update s.ofile p (Function.update (s.ofile p) fd none) }

/-! ## `sysfile.c` -/

def O_RDONLY : Int32 := 0x000
def O_CREATE : Int32 := 0x200

/-- Is the directory empty except for `.` and `..`? -/
def isdirempty (dp : Inode) : Bool := (dp.dirents.drop 2).all fun e => e.1 = 0

/-- The new inode `path` names, of the type, locked and referenced; or, for `T_FILE`, the file
already there. -/
def create (cwd : Nat) (path : Path) (type : Int) : FsM (Option Nat) := do
  match ← nameiparent path cwd with
  | none => pure none
  | some (dp, name) =>
    ilock dp
    match ← dirlookup dp name with
    | some (ip, _) =>
      iput dp
      ilock ip
      if type = T_FILE ∧ ((← get).ino ip).type = T_FILE then pure (some ip)
      else
        iput ip
        pure none
    | none =>
      let ip ← ialloc type
      ilock ip
      setNlink ip 1
      if type = T_DIR then
        -- for ".."
        setNlink dp (((← get).ino dp).nlink + 1)
        -- No ip->nlink++ for ".": avoid cyclic ref count.
        if !(← dirlink ip dot ip) then failure  -- panic("create dots")
        if !(← dirlink ip dotdot dp) then failure
      if !(← dirlink dp name ip) then failure  -- panic("create: dirlink")
      iput dp
      pure (some ip)

def sys_open (p : ι) (cwd : Nat) (path : Path) (omode : Int32) : SysM ι Int := do
  let ip ← (if omode &&& O_CREATE ≠ 0 then onInodes (create cwd path T_FILE)
    else onInodes do
      match ← namei path cwd with
      | none => pure none
      | some ip =>
        ilock ip
        if ((← get).ino ip).type = T_DIR ∧ omode ≠ O_RDONLY then
          iput ip
          pure none
        else pure (some ip))
  match ip with
  | none => pure (-1)
  | some ip =>
    match ← filealloc with
    | none =>
      onInodes (iput ip)
      pure (-1)
    | some f =>
      match ← fdalloc p f with
      | none =>
        fileclose f
        onInodes (iput ip)
        pure (-1)
      | some fd =>
        modify fun s => { s with file := Function.update s.file f { s.file f with type := .inode, ip := ip } }
        pure fd.val

def sys_close (p : ι) (fd : Nat) : SysM ι Int := do
  match argfd (← get) p fd with
  | none => pure (-1)
  | some (fd, f) =>
    clearFd p fd
    fileclose f
    pure 0

def sys_dup (p : ι) (fd : Nat) : SysM ι Int := do
  match argfd (← get) p fd with
  | none => pure (-1)
  | some (_, f) =>
    match ← fdalloc p f with
    | none => pure (-1)
    | some fd =>
      filedup f
      pure fd.val

/-- `sys_pipe` with `pipealloc`; `kallocOk` is whether `kalloc` finds a page for the pipe. -/
def sys_pipe (p : ι) (kallocOk : Bool) : SysM ι Int := do
  let rf ← filealloc
  let wf ← match rf with
    | some _ => filealloc
    | none => pure none
  match rf, wf with
  | some rf, some wf =>
    if kallocOk then
      modify fun s =>
        let file := Function.update s.file rf { s.file rf with type := .pipe }
        { s with file := Function.update file wf { file wf with type := .pipe } }
      match ← fdalloc p rf with
      | none =>
        fileclose rf
        fileclose wf
        pure (-1)
      | some fd0 =>
        match ← fdalloc p wf with
        | none =>
          clearFd p fd0
          fileclose rf
          fileclose wf
          pure (-1)
        | some _ => pure 0
    else
      fileclose rf
      fileclose wf
      pure (-1)
  | some rf, none =>
    fileclose rf
    pure (-1)
  | none, _ => pure (-1)

def sys_mkdir (cwd : Nat) (path : Path) : FsM Int := do
  match ← create cwd path T_DIR with
  | none => pure (-1)
  | some ip =>
    iput ip
    pure 0

/-- `sys_mknod`; the device numbers are not kept. -/
def sys_mknod (cwd : Nat) (path : Path) : FsM Int := do
  match ← create cwd path T_DEV with
  | none => pure (-1)
  | some ip =>
    iput ip
    pure 0

/-- The `bad:` path of `sys_link`: undo the `nlink++`. -/
def linkBad (ip : Nat) : FsM Int := do
  ilock ip
  setNlink ip (((← get).ino ip).nlink - 1)
  iput ip
  pure (-1)

/-- Create the path `new` as a link to the same inode as `old`. -/
def sys_link (cwd : Nat) (old new : Path) : FsM Int := do
  match ← namei old cwd with
  | none => pure (-1)
  | some ip =>
    ilock ip
    if ((← get).ino ip).type = T_DIR then
      iput ip
      pure (-1)
    else
      setNlink ip (((← get).ino ip).nlink + 1)
      match ← nameiparent new cwd with
      | none => linkBad ip
      | some (dp, name) =>
        ilock dp
        if ← dirlink dp name ip then
          iput dp
          iput ip
          pure 0
        else
          iput dp
          linkBad ip

/-- `writei` of an empty `dirent` over entry `off` of `dp`. -/
def clearEntry (dp off : Nat) : FsM Unit :=
  modify fun t =>
    let d := t.ino dp
    { t with ino := Function.update t.ino dp { d with dirents := d.dirents.set off (0, []) } }

def sys_unlink (cwd : Nat) (path : Path) : FsM Int := do
  match ← nameiparent path cwd with
  | none => pure (-1)
  | some (dp, name) =>
    ilock dp
    -- Cannot unlink "." or "..".
    if name = dot ∨ name = dotdot then
      iput dp
      pure (-1)
    else
      match ← dirlookup dp name with
      | none =>
        iput dp
        pure (-1)
      | some (ip, off) =>
        ilock ip
        let t ← get
        if (t.ino ip).nlink < 1 then failure  -- panic("unlink: nlink < 1")
        if (t.ino ip).type = T_DIR ∧ !isdirempty (t.ino ip) then
          iput ip
          iput dp
          pure (-1)
        else
          clearEntry dp off
          if (t.ino ip).type = T_DIR then
            setNlink dp (((← get).ino dp).nlink - 1)
          iput dp
          setNlink ip (((← get).ino ip).nlink - 1)
          iput ip
          pure 0

def sys_chdir (p : ι) (cwd : Nat) (path : Path) : SysM ι Int := do
  match ← onInodes (namei path cwd) with
  | none => pure (-1)
  | some ip =>
    onInodes (ilock ip)
    if ((← get).itable.ino ip).type ≠ T_DIR then
      onInodes (iput ip)
      pure (-1)
    else
      onInodes (iput cwd)
      modify fun s => { s with cwd := Function.update s.cwd p (some ip) }
      pure 0

/-- What `exec` does to the inodes: `namei` of the program, then `ilock` and `iunlockput`
on every path past it. -/
def execInode (cwd : Nat) (path : Path) : FsM Unit := do
  match ← namei path cwd with
  | none => pure ()
  | some ip =>
    ilock ip
    iput ip

/-- The file part of `fork`: the child `q` gets `filedup` of each open file and `idup(cwd)`. -/
def forkFiles (p q : ι) (cwd : Nat) : SysM ι Unit := do
  for fd in List.finRange NOFILE do
    match (← get).ofile p fd with
    | some f => filedup f
    | none => pure ()
  onInodes (idup cwd)
  modify fun s => { s with ofile := Function.update s.ofile q (s.ofile p),
                           cwd := Function.update s.cwd q (some cwd) }

/-- The file part of `exit`: close all open files, then `iput(cwd)`. -/
def exitFiles (p : ι) (cwd : Nat) : SysM ι Unit := do
  for fd in List.finRange NOFILE do
    match (← get).ofile p fd with
    | some f =>
      fileclose f
      clearFd p fd
    | none => pure ()
  onInodes (iput cwd)
  modify fun s => { s with cwd := Function.update s.cwd p none }

/-! ## The system calls as a transition system -/

/-- A file-system system call. -/
inductive FsCall (ι : Type) where
  | open (path : Path) (omode : Int32)
  | close (fd : Nat)
  | dup (fd : Nat)
  | pipe (kallocOk : Bool)
  | mkdir (path : Path)
  | mknod (path : Path)
  | link (old new : Path)
  | unlink (path : Path)
  | chdir (path : Path)
  | exec (path : Path)
  | fork (child : ι)
  | exit

/-- The system call `c` of the process `p`, a whole transaction; `fork` needs a free slot. -/
def fsCall (p : ι) (cwd : Nat) : FsCall ι → SysM ι Unit
  | .open path omode => discard (sys_open p cwd path omode)
  | .close fd => discard (sys_close p fd)
  | .dup fd => discard (sys_dup p fd)
  | .pipe ok => discard (sys_pipe p ok)
  | .mkdir path => discard (onInodes (sys_mkdir cwd path))
  | .mknod path => discard (onInodes (sys_mknod cwd path))
  | .link old new => discard (onInodes (sys_link cwd old new))
  | .unlink path => discard (onInodes (sys_unlink cwd path))
  | .chdir path => discard (sys_chdir p cwd path)
  | .exec path => onInodes (execInode cwd path)
  | .fork q => do
    if ((← get).cwd q).isSome then failure
    forkFiles p q cwd
  | .exit => exitFiles p cwd

/-- One system call by a process with a current directory. -/
def fsStep (s : FsSys ι) : ι × FsCall ι → Option (FsSys ι)
  | (p, c) =>
    match s.cwd p with
    | some cwd => (fsCall p cwd c s).map Prod.snd
    | none => none

/-- The image `mkfs` writes for the files `names`, with `initproc` in `/` (`userinit`'s
`namei("/")`), every file closed. -/
def fsInit (names : List Name) (init : ι) : FsSys ι where
  itable := { Itable.image names with ref := Function.update (fun _ => 0) ROOTINO 1 }
  file _ := ⟨.none, 0, 0⟩
  ofile _ _ := none
  cwd := Function.update (fun _ => none) init (some ROOTINO)

/-! ## A file created in a removed directory -/

/-- `mkdir /d`, `chdir /d`, `unlink /d` (the directory is empty), `open f` with `O_CREATE`
relative to the current directory, `close` of it, and `chdir /`. -/
def orphanRun : List (Fin NPROC × FsCall (Fin NPROC)) :=
  [(0, .mkdir ⟨true, [[100]]⟩), (0, .chdir ⟨true, [[100]]⟩), (0, .unlink ⟨true, [[100]]⟩),
    (0, .open ⟨false, [[102]]⟩ O_CREATE), (0, .close 0), (0, .chdir ⟨true, []⟩)]

/-- From the image with no files: `unlink /d` leaves `d` (inode `2`) with no link, held by the
current directory; `create` links the new file `f` (inode `3`) into `d` with `nlink = 1`, and
leaving `d` frees it. Then `f` is allocated with one link, named by no entry of an allocated
directory, unreachable from the root, and referenced by no one, so no `iput` will ever free it. -/
theorem unlinked_cwd_orphan :
    ∃ s, Run.run fsStep (fsInit [] (0 : Fin NPROC)) orphanRun = some s ∧
      (s.itable.ino 3).type = T_FILE ∧ (s.itable.ino 3).nlink = 1 ∧ s.itable.ref 3 = 0 ∧
      s.itable.linksTo 3 = 0 ∧ ¬ s.itable.Reachable 3 := by
  obtain ⟨s, hs⟩ : ∃ s, Run.run fsStep (fsInit [] (0 : Fin NPROC)) orphanRun = some s :=
    Option.isSome_iff_exists.mp (by decide +kernel)
  have h : (Run.run fsStep (fsInit [] (0 : Fin NPROC)) orphanRun).map
      (fun s => (s.itable.ino 1, s.itable.ino 3, s.itable.ref 3, s.itable.linksTo 3)) =
      some (⟨T_DIR, 1, [(1, dot), (1, dotdot), (0, [])]⟩, ⟨T_FILE, 1, []⟩, 0, 0) := by
    decide +kernel
  rw [hs] at h
  simp only [Option.map_some, Option.some.injEq, Prod.mk.injEq] at h
  obtain ⟨hroot, hf, href, hlinks⟩ := h
  refine ⟨s, hs, by rw [hf], by rw [hf], href, hlinks, fun hr => ?_⟩
  -- the root's entries name only the root, so only the root is reachable
  have hclosed := Itable.Reachable.mem_of_closed (S := fun i => i = ROOTINO) rfl
    (fun d i name hd _ hmem hi => by
      rw [hd, ROOTINO, hroot] at hmem
      simp only [List.mem_cons, Prod.mk.injEq, List.not_mem_nil, or_false] at hmem
      show i = 1
      omega) hr
  simp [ROOTINO] at hclosed

end Xv6
