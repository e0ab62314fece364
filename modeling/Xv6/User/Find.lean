import Xv6.Fs.Path
import Xv6.User.Ulib

/-!
# `find.c`

`find(path, ...)` opens `path`, and for a file or a directory whose name (`fmtname`) is the
`-name` value and that passes `-type` and `-inum`, prints its path. In a directory it reads the
entries in order and, for each entry in use other than `.` and `..`, `stat`s `path/name` and
searches it, keeping the directory open meanwhile. The file system is the namespace of
`Xv6.Fs.Dir`, which `find` does not change; `open` reaches what `namei` reaches
(`namex_splits_path`), and fails when the process has no free descriptor.

* `fmtname`, `FindArgs`, `inumTest`, `report`, `findEntries`, `findRec`, `find` : the code, with
  what it writes as a list of `(fd, bytes)`;
* `findRec_isSome` : `find` returns on every file system, cycles included: each level of the
  search adds a byte to the path, and the path buffer bounds it;
* `dfs`, `findOut`, `Searchable`, `findRec_searchable` : when every `open` and `stat` of the
  search succeeds and no path is too long, `find` prints, depth first in entry order, the lines
  `report` makes for each file and directory reached, and nothing for any other inode;
* `find_skips_device` : a device is never printed, whatever its name.
-/

namespace Xv6

/-- A write: the file descriptor and the bytes. -/
abbrev Write := Nat × List UInt8

/-- `fmtname(path)`: the bytes after the last `/`; a name shorter than `DIRSIZ` is padded with
blanks to `DIRSIZ` bytes, and then the blanks at its end are cut. -/
def fmtname (path : List UInt8) : List UInt8 :=
  -- Find first character after last slash.
  let p := (path.reverse.takeWhile (· ≠ SLASH)).reverse
  -- Return blank-padded name
  if DIRSIZ ≤ p.length then p
  else ((p ++ List.replicate (DIRSIZ - p.length) 32).reverse.dropWhile (· = 32)).reverse

/-- The arguments `main` passes on: the `-name` value, `-type` with its letter, `-inum` (`1` for
`N`, `2` for `+N`, `3` for `-N`) with its value, and `-printi`. -/
structure FindArgs where
  look : List UInt8
  type_flag : Bool
  type_val : UInt8
  inum_flag : Nat
  printi_flag : Bool
  inum_val : Int32

/-- The `-inum` test, the `uint` `ino` against the `int` `inum_val` taken as a `uint`. -/
def inumTest (inum_flag : Nat) (ino : UInt32) (inum_val : Int32) : Bool :=
  inum_flag == 0 || (inum_flag == 1 && ino == inum_val.toUInt32) ||
    (inum_flag == 2 && decide (ino > inum_val.toUInt32)) ||
    (inum_flag == 3 && decide (ino < inum_val.toUInt32))

/-- The case of the `switch` for the inode `ino` at `path`, of type letter `t` (`'f'` for
`T_FILE`, `'d'` for `T_DIR`): what it prints. -/
def report (a : FindArgs) (t : UInt8) (ino : Nat) (path : List UInt8) : Option (List Write) :=
  if (!a.type_flag || a.type_val == t) && inumTest a.inum_flag (UInt32.ofNat ino) a.inum_val then
    if strcmp a.look (fmtname path) = 0 then do
      let i ← if a.printi_flag then
          (fun b => [(1, b)]) <$> printf (bytes "%d ") [.int (Int32.ofNat ino)]
        else some []
      let l ← printf (bytes "%s\n") [.str (some path)]
      return i ++ [(1, l)]
    else some []
  else some []

/-- What `open(path, O_RDONLY)` opens: the inode `namei` reaches from the root or from `cwd`. -/
def openPath (ino : Nat → Inode) (cwd : Nat) (path : List UInt8) : Option Nat :=
  walk ino (if path.head? = some SLASH then ROOTINO else cwd) (components path)

/-- `while (read(fd, &de, sizeof(de)) == sizeof(de)) {...}` over the entries of the directory at
`path` still to read, with `nfree` descriptors free besides the directory's, and `findChild` the
recursive call of `find`. -/
def findEntries (ino : Nat → Inode) (cwd nfree : Nat) (path : List UInt8)
    (findChild : List UInt8 → Option (List Write)) : List (Nat × Name) → Option (List Write)
  | [] => some []
  | (inum, name) :: des =>
    if inum = 0 then findEntries ino cwd nfree path findChild des
    else if strcmp name dot = 0 ∨ strcmp name dotdot = 0 then
      findEntries ino cwd nfree path findChild des
    else
      -- memmove(p, de.name, DIRSIZ); p[DIRSIZ] = 0;
      let buf := path ++ SLASH :: cstr name
      -- stat(buf, &targetinfo) opens and closes buf
      if nfree = 0 ∨ openPath ino cwd buf = none then do
        let m ← printf (bytes "find: cannot stat %s\n") [.str (some buf)]
        let rest ← findEntries ino cwd nfree path findChild des
        return (1, m) :: rest
      else do
        let out ← findChild buf
        let rest ← findEntries ino cwd nfree path findChild des
        return out ++ rest

/-- `find(path, ...)` with `nfree` descriptors free, for at most `fuel` levels. -/
def findRec (ino : Nat → Inode) (cwd : Nat) (a : FindArgs) :
    Nat → Nat → List UInt8 → Option (List Write)
  | 0, _, _ => none
  | fuel + 1, nfree, path =>
    match nfree, openPath ino cwd path with
    | nfree + 1, some i =>
      -- fstat(fd, &targetinfo)
      if (ino i).type = T_FILE then report a 102 i path
      else if (ino i).type = T_DIR then do
        let out ← report a 100 i path
        if path.length + 1 + DIRSIZ + 1 > 512 then do
          let m ← printf (bytes "find: path too long\n") []
          return out ++ [(2, m)]
        else do
          let rest ← findEntries ino cwd nfree path (findRec ino cwd a fuel nfree) (ino i).dirents
          return out ++ rest
      else some []
    | _, _ => do
      let m ← printf (bytes "find: cannot open %s\n") [.str (some path)]
      return [(1, m)]

/-- `find(path, look, type_flag, type_val, inum_flag, printi_flag, inum_val)`, with `nfree`
descriptors free: what it writes. -/
def find (ino : Nat → Inode) (cwd nfree : Nat) (path : List UInt8) (a : FindArgs) :
    Option (List Write) :=
  findRec ino cwd a 512 nfree path

/-! ## `find` returns -/

theorem report_isSome (a : FindArgs) (t : UInt8) (ino : Nat) (path : List UInt8) :
    (report a t ino path).isSome := by
  have hd : printf (bytes "%d ") [.int (Int32.ofNat ino)] =
      some (Decimal.intText (Int32.ofNat ino).toInt ++ [32]) := printf_int_space _
  have hs : printf (bytes "%s\n") [.str (some path)] = some (cstr path ++ [10]) :=
    printf_str_newline _
  unfold report
  split
  · split
    · cases a.printi_flag <;> simp [hd, hs]
    · rfl
  · rfl

theorem printf_cannot_stat (buf : List UInt8) :
    printf (bytes "find: cannot stat %s\n") [.str (some buf)] =
      some (bytes "find: cannot stat " ++ cstr buf ++ [10]) := by
  have hfmt : bytes "find: cannot stat %s\n" = bytes "find: cannot stat " ++ 37 :: 115 :: [10] := by
    decide +kernel
  have ht : ∀ c ∈ bytes "find: cannot stat ", c ≠ 0 ∧ c ≠ 37 := by decide +kernel
  rw [hfmt]
  exact printf_text_str _ [10] _ ht (by decide +kernel)

theorem printf_cannot_open (path : List UInt8) :
    printf (bytes "find: cannot open %s\n") [.str (some path)] =
      some (bytes "find: cannot open " ++ cstr path ++ [10]) := by
  have hfmt : bytes "find: cannot open %s\n" = bytes "find: cannot open " ++ 37 :: 115 :: [10] := by
    decide +kernel
  have ht : ∀ c ∈ bytes "find: cannot open ", c ≠ 0 ∧ c ≠ 37 := by decide +kernel
  rw [hfmt]
  exact printf_text_str _ [10] _ ht (by decide +kernel)

theorem printf_too_long :
    printf (bytes "find: path too long\n") [] = some (bytes "find: path too long\n") :=
  printf_text _ (by decide +kernel)

/-- The entry loop returns when every search it starts does. -/
theorem findEntries_isSome (ino : Nat → Inode) (cwd nfree : Nat) {path : List UInt8}
    {findChild : List UInt8 → Option (List Write)}
    (hchild : ∀ name : Name, (findChild (path ++ SLASH :: cstr name)).isSome) (des : List (Nat × Name)) :
    (findEntries ino cwd nfree path findChild des).isSome := by
  induction des with
  | nil => rfl
  | cons e des ih =>
    obtain ⟨inum, name⟩ := e
    obtain ⟨rest, hrest⟩ := Option.isSome_iff_exists.mp ih
    unfold findEntries
    split
    · rw [hrest]; rfl
    split
    · rw [hrest]; rfl
    dsimp only
    split
    · simp [printf_cannot_stat, hrest]
    · obtain ⟨out, hout⟩ := Option.isSome_iff_exists.mp (hchild name)
      simp [hout, hrest]

/-- Each level of the search adds at least a byte to the path, and a directory is searched only
while its path leaves room for an entry in the 512-byte buffer: `find` returns on every file
system, whatever its directories link to. -/
theorem findRec_isSome (ino : Nat → Inode) (cwd : Nat) (a : FindArgs) (fuel : Nat) :
    ∀ (nfree : Nat) (path : List UInt8), 0 < fuel → 512 ≤ fuel + path.length + DIRSIZ →
      (findRec ino cwd a fuel nfree path).isSome := by
  induction fuel with
  | zero => intro _ _ h; omega
  | succ fuel ih =>
    intro nfree path _ hlen
    unfold findRec
    split
    · -- `open` succeeded: the `switch` on the type
      rename_i n i hopen
      split
      · exact report_isSome a 102 i path
      split
      · obtain ⟨out, hout⟩ := Option.isSome_iff_exists.mp (report_isSome a 100 i path)
        split
        · simp [hout, printf_too_long]
        · -- room for an entry: each search below starts one byte further
          rename_i hroom
          have hchild : ∀ name : Name,
              (findRec ino cwd a fuel n (path ++ SLASH :: cstr name)).isSome := fun name =>
            ih n _ (by simp only [DIRSIZ] at hroom hlen; omega)
              (by simp only [List.length_append, List.length_cons]; omega)
          obtain ⟨rest, hr⟩ := Option.isSome_iff_exists.mp
            (findEntries_isSome ino cwd n hchild (ino i).dirents)
          simp [hout, hr]
      · rfl
    · simp [printf_cannot_open]

/-- `find` returns on every file system and path. -/
theorem find_isSome (ino : Nat → Inode) (cwd nfree : Nat) (path : List UInt8) (a : FindArgs) :
    (find ino cwd nfree path a).isSome :=
  findRec_isSome ino cwd a 512 nfree path (by decide) (by omega)

/-! ## What `find` prints when nothing fails -/

/-- Depth first from the inode `i` at `path`, through the entries in use other than `.` and `..`
in their order, for at most `fuel` levels: each inode reached, with its path. -/
def dfs (ino : Nat → Inode) : Nat → Nat → List UInt8 → List (Nat × List UInt8)
  | 0, _, _ => []
  | fuel + 1, i, path =>
    (i, path) ::
      if (ino i).type = T_DIR then
        (ino i).dirents.flatMap fun e =>
          if e.1 = 0 ∨ e.2 = dot ∨ e.2 = dotdot then [] else dfs ino fuel e.1 (path ++ SLASH :: e.2)
      else []

/-- What `find` prints for the inode `i` at `path`: the lines of `report` for a file or a
directory, nothing for any other inode. -/
def findOut (ino : Nat → Inode) (a : FindArgs) : Nat × List UInt8 → List Write
  | (i, path) =>
    if (ino i).type = T_FILE then (report a 102 i path).getD []
    else if (ino i).type = T_DIR then (report a 100 i path).getD []
    else []

/-- Every `open` and `stat` of the search from the inode `i` at `path` succeeds and reaches the
inode the entry names, entry names are C strings, and no directory's path is too long for the
buffer. -/
def Searchable (ino : Nat → Inode) (cwd : Nat) : Nat → Nat → Nat → List UInt8 → Prop
  | 0, _, _, _ => False
  | fuel + 1, nfree, i, path =>
    0 < nfree ∧ openPath ino cwd path = some i ∧
      ((ino i).type = T_DIR →
        path.length + 1 + DIRSIZ + 1 ≤ 512 ∧
          ∀ e ∈ (ino i).dirents, e.1 ≠ 0 → e.2 ≠ dot → e.2 ≠ dotdot →
            cstr e.2 = e.2 ∧ Searchable ino cwd fuel (nfree - 1) e.1 (path ++ SLASH :: e.2))

/-- A searchable path opens, with a descriptor to spare. -/
theorem Searchable.opens {ino : Nat → Inode} {cwd fuel nfree i : Nat} {path : List UInt8}
    (h : Searchable ino cwd fuel nfree i path) : 0 < nfree ∧ openPath ino cwd path = some i := by
  cases fuel with
  | zero => exact h.elim
  | succ fuel => exact ⟨h.1, h.2.1⟩

theorem report_eq (a : FindArgs) (t : UInt8) (ino : Nat) (path : List UInt8) :
    report a t ino path = some ((report a t ino path).getD []) := by
  obtain ⟨r, hr⟩ := Option.isSome_iff_exists.mp (report_isSome a t ino path)
  rw [hr]
  rfl

theorem cstr_dot : cstr dot = dot := rfl

theorem cstr_dotdot : cstr dotdot = dotdot := rfl

/-- The entry loop, when every `stat` succeeds, prints what the searches it starts print. -/
theorem findEntries_eq {ino : Nat → Inode} {cwd nfree : Nat} {path : List UInt8}
    {findChild : List UInt8 → Option (List Write)} (g : Nat × Name → List Write)
    (des : List (Nat × Name))
    (h : ∀ e ∈ des, e.1 ≠ 0 → e.2 ≠ dot → e.2 ≠ dotdot →
      cstr e.2 = e.2 ∧ 0 < nfree ∧ openPath ino cwd (path ++ SLASH :: e.2) ≠ none ∧
        findChild (path ++ SLASH :: e.2) = some (g e)) :
    findEntries ino cwd nfree path findChild des =
      some (des.flatMap fun e => if e.1 = 0 ∨ e.2 = dot ∨ e.2 = dotdot then [] else g e) := by
  induction des with
  | nil => rfl
  | cons e des ih =>
    obtain ⟨inum, name⟩ := e
    have ih' := ih fun e he => h e (List.mem_cons_of_mem _ he)
    rw [findEntries, List.flatMap_cons]
    by_cases h0 : inum = 0
    · simp [h0, ih']
    by_cases hdots : name = dot ∨ name = dotdot
    · -- `.` and `..` are skipped
      have hskip : strcmp name dot = 0 ∨ strcmp name dotdot = 0 := by
        rcases hdots with rfl | rfl
        · exact Or.inl ((strcmp_eq_zero_iff _ _).mpr rfl)
        · exact Or.inr ((strcmp_eq_zero_iff _ _).mpr rfl)
      simp [h0, hskip, hdots, ih']
    · -- another entry: `stat` succeeds, and the search below prints `g e`
      have hd : name ≠ dot := fun h' => hdots (Or.inl h')
      have hdd : name ≠ dotdot := fun h' => hdots (Or.inr h')
      obtain ⟨hc, hfree, hstat, hchild⟩ := h (inum, name) List.mem_cons_self h0 hd hdd
      have hc' : cstr name = name := hc
      have hkeep : ¬(strcmp name dot = 0 ∨ strcmp name dotdot = 0) := by
        rw [strcmp_eq_zero_iff, strcmp_eq_zero_iff, cstr_dot, cstr_dotdot, hc']
        exact hdots
      have hstat' : ¬(nfree = 0 ∨ openPath ino cwd (path ++ SLASH :: name) = none) := by
        rw [not_or]
        exact ⟨by omega, hstat⟩
      simp only [if_neg h0, if_neg hkeep, hc', if_neg hstat', hchild, ih']
      simp [h0, hd, hdd]

/-- When every `open` and `stat` of the search succeeds and no path is too long, `find` prints,
depth first in entry order, the lines `report` makes for each file and directory it reaches,
and nothing for any other inode. -/
theorem findRec_searchable (ino : Nat → Inode) (cwd : Nat) (a : FindArgs) (fuel : Nat) :
    ∀ (nfree i : Nat) (path : List UInt8), Searchable ino cwd fuel nfree i path →
      findRec ino cwd a fuel nfree path = some ((dfs ino fuel i path).flatMap (findOut ino a)) := by
  induction fuel with
  | zero => intro _ _ _ h; exact h.elim
  | succ fuel ih =>
    intro nfree i path h
    obtain ⟨hfree, hopen, hdir⟩ := h
    obtain ⟨n, rfl⟩ : ∃ n, nfree = n + 1 := ⟨nfree - 1, by omega⟩
    unfold findRec
    rw [hopen]
    dsimp only
    by_cases hf : (ino i).type = T_FILE
    · -- a file: its own line
      have hnd : (ino i).type ≠ T_DIR := by rw [hf]; decide
      rw [if_pos hf, dfs, if_neg hnd, List.flatMap_singleton, findOut, if_pos hf]
      exact report_eq a 102 i path
    by_cases hd : (ino i).type = T_DIR
    · -- a directory: its line, then the searches of its entries in order
      obtain ⟨hroom, hentries⟩ := hdir hd
      have hchildren : findEntries ino cwd n path (findRec ino cwd a fuel n) (ino i).dirents =
          some ((ino i).dirents.flatMap fun e => if e.1 = 0 ∨ e.2 = dot ∨ e.2 = dotdot then []
            else (dfs ino fuel e.1 (path ++ SLASH :: e.2)).flatMap (findOut ino a)) :=
        findEntries_eq _ _ fun e he h0 hd hdd => by
          obtain ⟨hc, hs⟩ := hentries e he h0 hd hdd
          rw [Nat.add_sub_cancel] at hs
          obtain ⟨hfree', hopen'⟩ := hs.opens
          exact ⟨hc, hfree', by rw [hopen']; simp, ih n e.1 _ hs⟩
      rw [if_neg hf, if_pos hd, report_eq]
      simp only [Option.bind_eq_bind, Option.bind_some]
      rw [if_neg (by omega), hchildren]
      simp only [Option.bind_some, Option.pure_def, Option.some.injEq]
      -- the directory's own line, then its entries' searches in order
      rw [dfs, if_pos hd, List.flatMap_cons, findOut, if_neg hf, if_pos hd, List.flatMap_assoc]
      congr 2
      funext e
      split <;> simp
    · -- any other inode: nothing
      rw [if_neg hf, if_neg hd, dfs, if_neg hd, List.flatMap_singleton, findOut, if_neg hf,
        if_neg hd]

/-! ## Devices -/

/-- A root directory holding the console device, as `init`'s `mknod("console", 1, 1)` makes
it. -/
def consoleFs (i : Nat) : Inode :=
  if i = ROOTINO then ⟨T_DIR, 1, [(ROOTINO, dot), (ROOTINO, dotdot), (2, bytes "console")]⟩
  else if i = 2 then ⟨T_DEV, 1, []⟩
  else Inode.free

/-- `find / -name console`: the console is reached from `/` through its entry, its name is
`console`, and there is no type or number test, but the `switch` has no case for `T_DEV`, so
`find` prints nothing. -/
theorem find_skips_device :
    dfs consoleFs 2 ROOTINO [SLASH] = [(ROOTINO, [SLASH]), (2, [SLASH, SLASH] ++ bytes "console")] ∧
      (consoleFs 2).type = T_DEV ∧ fmtname ([SLASH, SLASH] ++ bytes "console") = bytes "console" ∧
      find consoleFs ROOTINO (NOFILE - 3) [SLASH] ⟨bytes "console", false, 0, 0, false, 0⟩ =
        some [] := by
  decide +kernel

end Xv6
