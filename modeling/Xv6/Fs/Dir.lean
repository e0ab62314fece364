import Xv6.Fs.Mkfs

/-!
# `fs.c`: inodes, directories and path names

The file system at the level of its namespace: an inode is its type, its link count and, for a
directory, its array of `dirent`s in order (an entry with `inum = 0` is free); the blocks that
hold them are `Xv6.Fs.Blocks`' concern. The icache is one entry per inode number, with its
`ref` and `valid`; every change to an inode is written through (`iupdate`), so the copy on disk
and the cached one agree.

* `Itable`, and `FsM`, the state monad of the code, `failure` being a `panic`;
* `iget`, `idup`, `ilock`, `iput`, `ialloc`;
* `dirlookup`, `dirlink` (`findEntry`, `putEntry`);
* `namex`, `namei`, `nameiparent` over a path `skipelem` has split (`Path`);
* `Itable.image` : the inodes of the image `mkfs` writes;
* what the namespace should be: `Itable.Reachable` from `ROOTINO` through entries, and
  `linksTo`, the entries other than `.` naming an inode in allocated, linked directories.
-/

namespace Xv6

/-- A path element as `namecmp` compares it: the bytes up to the first zero, at most `DIRSIZ`. -/
abbrev Name := List UInt8

/-- An inode: `type` (`0` when free), `nlink`, and the entries of a directory. -/
structure Inode where
  type : Int
  nlink : Int
  dirents : List (Nat × Name)
  deriving DecidableEq

/-- A free inode: the state `itrunc` and `ip->type = 0` leave. -/
def Inode.free : Inode := ⟨0, 0, []⟩

/-- The inodes and the icache. -/
structure Itable where
  ino : Nat → Inode
  ref : Nat → Nat
  valid : Nat → Bool

/-- The code of `fs.c` on the inodes: `none` is a `panic`. -/
abbrev FsM := StateT Itable Option

/-! ## Inodes -/

/-- The number of icache entries in use. -/
def Itable.active (t : Itable) : Nat := ((List.range NINODES).filter fun i => 0 < t.ref i).length

/-- Find the inode with number `inum` and return the in-memory copy: the entry in use for it,
or an empty one, not yet valid. -/
def iget (inum : Nat) : FsM Unit := do
  let t ← get
  if 0 < t.ref inum then set { t with ref := Function.update t.ref inum (t.ref inum + 1) }
  else if t.active < NINODE then
    set { t with ref := Function.update t.ref inum 1, valid := Function.update t.valid inum false }
  else failure  -- panic("iget: no inodes")

/-- Increment reference count for `ip`. -/
def idup (ip : Nat) : FsM Unit :=
  modify fun t => { t with ref := Function.update t.ref ip (t.ref ip + 1) }

/-- Lock the given inode, reading it from disk if necessary. -/
def ilock (ip : Nat) : FsM Unit := do
  let t ← get
  if t.ref ip < 1 then failure  -- panic("ilock")
  if !t.valid ip then
    if (t.ino ip).type = 0 then failure  -- panic("ilock: no type")
    set { t with valid := Function.update t.valid ip true }

/-- Drop a reference to an in-memory inode; the last reference to an inode with no links
truncates and frees it. -/
def iput (ip : Nat) : FsM Unit := modify fun t =>
  let t :=
    if t.valid ip ∧ (t.ino ip).nlink = 0 ∧ t.ref ip = 1 then
      -- inode has no links and no other references: truncate and free.
      { t with ino := Function.update t.ino ip Inode.free,
               valid := Function.update t.valid ip false }
    else t
  { t with ref := Function.update t.ref ip (t.ref ip - 1) }

/-- Allocate an inode: the first free one from `1` below `sb.ninodes`, zeroed with the type. -/
def ialloc (type : Int) : FsM Nat := do
  let t ← get
  match (List.range' 1 (NINODES - 1)).find? (fun inum => (t.ino inum).type = 0) with
  | some inum =>
    set { t with ino := Function.update t.ino inum ⟨type, 0, []⟩ }
    iget inum
    pure inum
  | none => failure  -- panic("ialloc: no inodes")

/-- `ip->nlink = v` and `iupdate(ip)`. -/
def setNlink (ip : Nat) (v : Int) : FsM Unit :=
  modify fun t => { t with ino := Function.update t.ino ip { t.ino ip with nlink := v } }

/-! ## Directories -/

/-- The first entry in use named `name`, with its index (its offset over `sizeof(de)`). -/
def findEntry (des : List (Nat × Name)) (name : Name) : Option (Nat × Nat) :=
  (des.zipIdx.find? fun (e, _) => e.1 ≠ 0 ∧ e.2 = name).map fun (e, k) => (e.1, k)

/-- The entries after `dirlink` writes `e`: in the first free entry, or past the end. -/
def putEntry (des : List (Nat × Name)) (e : Nat × Name) : List (Nat × Name) :=
  match des.findIdx? (fun d => d.1 = 0) with
  | some k => des.set k e
  | none => des ++ [e]

/-- Look for a directory entry in a directory: the inode number found, referenced, and the
entry's index. -/
def dirlookup (dp : Nat) (name : Name) : FsM (Option (Nat × Nat)) := do
  let t ← get
  if (t.ino dp).type ≠ T_DIR then failure  -- panic("dirlookup not DIR")
  match findEntry (t.ino dp).dirents name with
  | some (inum, off) =>
    iget inum
    pure (some (inum, off))
  | none => pure none

/-- Write a new directory entry `(name, inum)` into the directory `dp`; `false` is `-1`, the
name being present. A directory has room for `MAXFILE * BSIZE / 16` entries, past which
`writei` fails and `dirlink` panics. -/
def dirlink (dp : Nat) (name : Name) (inum : Nat) : FsM Bool := do
  -- Check that name is not present.
  match ← dirlookup dp name with
  | some (ip, _) =>
    iput ip
    pure false
  | none =>
    let t ← get
    let des := putEntry (t.ino dp).dirents (inum, name)
    if MAXFILE * BSIZE < des.length * 16 then failure  -- panic("dirlink")
    set { t with ino := Function.update t.ino dp { t.ino dp with dirents := des } }
    pure true

/-! ## Paths -/

/-- A path as `skipelem` takes it apart: whether it starts with `/`, and its elements. -/
structure Path where
  abs : Bool
  elems : List Name

/-- The loop of `namex` from the directory `ip`, which it holds a reference to. With
`nameiparent` it stops one level early, returning the parent and the last element. -/
def namexLoop (nameiparent : Bool) : Nat → List Name → FsM (Option (Nat × Name))
  | ip, [] =>
    if nameiparent then do
      iput ip
      pure none
    else pure (some (ip, []))
  | ip, name :: rest => do
    ilock ip
    let t ← get
    if (t.ino ip).type ≠ T_DIR then
      iput ip
      pure none
    else if nameiparent ∧ rest = [] then
      -- Stop one level early.
      pure (some (ip, name))
    else
      match ← dirlookup ip name with
      | none =>
        iput ip
        pure none
      | some (next, _) =>
        iput ip
        namexLoop nameiparent next rest

/-- Look up and return the inode for a path name, from the root or from `cwd`. -/
def namex (path : Path) (nameiparent : Bool) (cwd : Nat) : FsM (Option (Nat × Name)) := do
  if path.abs then iget ROOTINO else idup cwd
  namexLoop nameiparent (if path.abs then ROOTINO else cwd) path.elems

def namei (path : Path) (cwd : Nat) : FsM (Option Nat) := do
  let r ← namex path false cwd
  pure (r.map Prod.fst)

def nameiparent (path : Path) (cwd : Nat) : FsM (Option (Nat × Name)) := namex path true cwd

/-! ## The image -/

/-- `"."` and `".."`. -/
def dot : Name := [46]

def dotdot : Name := [46, 46]

/-- The inodes of the image `mkfs` writes for files with the names `names`: the root, with `.`,
`..` and one entry per file, the files from inode `2` on, each with one link; no icache entry
is in use. -/
def Itable.image (names : List Name) : Itable where
  ino i :=
    if i = ROOTINO then
      ⟨T_DIR, 1, (ROOTINO, dot) :: (ROOTINO, dotdot) :: names.zipIdx.map fun (n, k) => (k + 2, n)⟩
    else if 2 ≤ i ∧ i < names.length + 2 then ⟨T_FILE, 1, []⟩
    else Inode.free
  ref _ := 0
  valid _ := false

/-! ## The namespace -/

/-- The inodes reachable from `ROOTINO` through the entries of directories. -/
inductive Itable.Reachable (t : Itable) : Nat → Prop where
  | root : t.Reachable ROOTINO
  | entry {d i : Nat} {name : Name} : t.Reachable d → (t.ino d).type = T_DIR →
      (i, name) ∈ (t.ino d).dirents → i ≠ 0 → t.Reachable i

/-- Every inode reachable lies in a set holding the root and closed under entries. -/
theorem Itable.Reachable.mem_of_closed {t : Itable} {S : Nat → Prop} (hroot : S ROOTINO)
    (hclosed : ∀ d i name, S d → (t.ino d).type = T_DIR → (i, name) ∈ (t.ino d).dirents →
      i ≠ 0 → S i) {i : Nat} (h : t.Reachable i) : S i := by
  induction h with
  | root => exact hroot
  | entry _ hdir hmem hi ih => exact hclosed _ _ _ ih hdir hmem hi

/-- The entries other than `.` that name `i` in allocated, linked directories; the inodes are
those `ialloc` hands out, below `NINODES`. -/
def Itable.linksTo (t : Itable) (i : Nat) : Nat :=
  ((List.range NINODES).map fun d =>
    if (t.ino d).type = T_DIR ∧ 0 < (t.ino d).nlink then
      ((t.ino d).dirents.filter fun e => e.1 = i ∧ e.2 ≠ dot).length
    else 0).sum

end Xv6
