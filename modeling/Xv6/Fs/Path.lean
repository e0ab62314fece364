import Xv6.Fs.Dir
import Xv6.Lib.StateOpt

/-!
# `fs.c`: `skipelem` and `namex` over the bytes of a path

`Xv6.Fs.Dir` resolves a `Path`, a path already taken apart. Here `namex` runs on the bytes of
the path as the C does, calling `skipelem` for each element and stopping one level early for
`nameiparent` when nothing follows the element.

* `skipelem`, `elements` : the elements the successive calls of `skipelem` copy out;
* `elements_eq_components` : they are the non-empty segments between slashes, each cut to
  `DIRSIZ` bytes;
* `namexLoopC`, `namexC` : the loop of `namex` over the bytes; `namexC_eq` : it resolves the
  path `⟨starts with '/', elements⟩` as `Xv6.namex` does;
* `Itable.Freed` : `namex` changes an inode only when an `iput` frees it, and `ilock` panics on a
  freed inode;
* `walk`, `parentOf` : what the lookups should reach, read off the inodes alone;
  `namexLoop_walk`, `namexLoop_parent` : the loop reaches it in the inodes it started from, whatever
  their links and references (an unlinked directory still open or some process's cwd included);
* `namex_splits_path` : all of it for the bytes of a path.
-/

namespace Xv6

open StateOpt

/-- `'/'`. -/
def SLASH : UInt8 := 47

/-- `skipelem(path, name)`: the next path element, cut to `DIRSIZ` bytes, and the path after it
with its slashes skipped; `none` (`0`) when only slashes remain. -/
def skipelem (path : List UInt8) : Option (Name × List UInt8) :=
  let path := path.dropWhile (· = SLASH)
  if path = [] then none
  else
    let s := path.takeWhile (· ≠ SLASH)
    let name := if DIRSIZ ≤ s.length then s.take DIRSIZ else s
    some (name, (path.dropWhile (· ≠ SLASH)).dropWhile (· = SLASH))

/-- The path after its leading slashes starts with a byte that is not a slash. -/
theorem dropWhile_slash_cons :
    ∀ {path p : List UInt8} {c : UInt8}, path.dropWhile (· = SLASH) = c :: p → c ≠ SLASH
  | [], _, _, h => by simp at h
  | a :: as, p, c, h => by
    by_cases ha : a = SLASH
    · rw [List.dropWhile_cons_of_pos (by simpa using ha)] at h
      exact dropWhile_slash_cons h
    · rw [List.dropWhile_cons_of_neg (by simpa using ha)] at h
      obtain ⟨rfl, -⟩ := List.cons_eq_cons.mp h
      exact ha

/-- Skipping slashes twice skips them once. -/
theorem dropWhile_slash_idem (x : List UInt8) :
    (x.dropWhile (· = SLASH)).dropWhile (· = SLASH) = x.dropWhile (· = SLASH) := by
  cases hq : x.dropWhile (· = SLASH) with
  | nil => rfl
  | cons c p => rw [List.dropWhile_cons_of_neg (by simpa using dropWhile_slash_cons hq)]

theorem skipelem_of_nil {path : List UInt8} (h : path.dropWhile (· = SLASH) = []) :
    skipelem path = none := by
  unfold skipelem
  dsimp only
  rw [if_pos h]

/-- With an element left, `skipelem` copies its first `DIRSIZ` bytes (all of it when shorter). -/
theorem skipelem_of_cons {path p : List UInt8} {c : UInt8} (h : path.dropWhile (· = SLASH) = c :: p) :
    skipelem path = some (((c :: p).takeWhile (· ≠ SLASH)).take DIRSIZ,
      ((c :: p).dropWhile (· ≠ SLASH)).dropWhile (· = SLASH)) := by
  unfold skipelem
  dsimp only
  rw [if_neg (by rw [h]; simp), h]
  split_ifs with hd
  · rfl
  · rw [List.take_of_length_le (by omega)]

theorem skipelem_length {path rest : List UInt8} {name : Name}
    (h : skipelem path = some (name, rest)) : rest.length < path.length := by
  cases hq : path.dropWhile (· = SLASH) with
  | nil => rw [skipelem_of_nil hq] at h; cases h
  | cons c p =>
    rw [skipelem_of_cons hq, Option.some.injEq, Prod.mk.injEq] at h
    obtain ⟨-, rfl⟩ := h
    -- the element skipped starts with `c`, not a slash
    have hc := dropWhile_slash_cons hq
    calc (((c :: p).dropWhile (· ≠ SLASH)).dropWhile (· = SLASH)).length
        ≤ ((c :: p).dropWhile (· ≠ SLASH)).length := List.length_dropWhile_le _ _
      _ ≤ p.length := by
          rw [List.dropWhile_cons_of_pos (by simpa using hc)]
          exact List.length_dropWhile_le _ _
      _ < (c :: p).length := by simp
      _ = (path.dropWhile (· = SLASH)).length := by rw [hq]
      _ ≤ path.length := List.length_dropWhile_le _ _

/-- The elements the successive calls of `skipelem` copy out of `path`. -/
def elements (path : List UInt8) : List Name :=
  match h : skipelem path with
  | none => []
  | some (name, rest) => name :: elements rest
termination_by path.length
decreasing_by exact skipelem_length h

theorem elements_of_none {path : List UInt8} (h : skipelem path = none) : elements path = [] := by
  rw [elements]
  split
  · rfl
  · rename_i h'
    rw [h] at h'
    cases h'

theorem elements_of_some {path rest : List UInt8} {name : Name}
    (h : skipelem path = some (name, rest)) : elements path = name :: elements rest := by
  rw [elements]
  split
  · rename_i h'
    rw [h] at h'
    cases h'
  · rename_i name' rest' h'
    rw [h, Option.some.injEq, Prod.mk.injEq] at h'
    obtain ⟨rfl, rfl⟩ := h'
    rfl

/-- No element is left exactly when only slashes are. -/
theorem skipelem_eq_none_iff {path : List UInt8} :
    skipelem path = none ↔ path.dropWhile (· = SLASH) = [] := by
  constructor
  · intro h
    cases hq : path.dropWhile (· = SLASH) with
    | nil => rfl
    | cons c p => rw [skipelem_of_cons hq] at h; cases h
  · exact skipelem_of_nil

theorem elements_eq_nil_iff {path : List UInt8} :
    elements path = [] ↔ path.dropWhile (· = SLASH) = [] := by
  rw [← skipelem_eq_none_iff]
  constructor
  · intro h
    cases hs : skipelem path with
    | none => rfl
    | some e =>
      obtain ⟨name, rest⟩ := e
      rw [elements_of_some hs] at h
      cases h
  · exact elements_of_none

/-- The path `skipelem` leaves has no leading slash: it is empty exactly when no element is
left in it. -/
theorem elements_rest_eq_nil_iff {path rest : List UInt8} {name : Name}
    (h : skipelem path = some (name, rest)) : elements rest = [] ↔ rest = [] := by
  rw [elements_eq_nil_iff]
  cases hq : path.dropWhile (· = SLASH) with
  | nil => rw [skipelem_of_nil hq] at h; cases h
  | cons c p =>
    rw [skipelem_of_cons hq, Option.some.injEq, Prod.mk.injEq] at h
    obtain ⟨-, rfl⟩ := h
    rw [dropWhile_slash_idem]

/-! ## The elements are the segments between slashes -/

/-- The elements of a path as `skipelem`'s comment describes them: the segments between slashes,
the empty ones dropped, each cut to `DIRSIZ` bytes. -/
def components (path : List UInt8) : List Name :=
  ((path.splitOn SLASH).filter (· ≠ [])).map (·.take DIRSIZ)

theorem components_slash (p : List UInt8) : components (SLASH :: p) = components p := by
  have h : ([] ++ SLASH :: p).splitOn SLASH = [] :: p.splitOn SLASH :=
    List.splitOn_append_cons_self_of_not_mem List.not_mem_nil p
  rw [List.nil_append] at h
  simp [components, h]

theorem components_dropWhile : ∀ x : List UInt8, components (x.dropWhile (· = SLASH)) = components x
  | [] => rfl
  | a :: x => by
    by_cases ha : a = SLASH
    · rw [List.dropWhile_cons_of_pos (by simpa using ha), components_dropWhile x, ha,
        components_slash]
    · rw [List.dropWhile_cons_of_neg (by simpa using ha)]

theorem skipelem_dropWhile (x : List UInt8) : skipelem (x.dropWhile (· = SLASH)) = skipelem x := by
  cases hq : x.dropWhile (· = SLASH) with
  | nil => rw [skipelem_of_nil hq, skipelem_of_nil rfl]
  | cons c p =>
    rw [skipelem_of_cons hq, skipelem_of_cons (by rw [← hq, dropWhile_slash_idem, hq])]

theorem elements_dropWhile (x : List UInt8) : elements (x.dropWhile (· = SLASH)) = elements x := by
  cases hs : skipelem x with
  | none => rw [elements_of_none hs, elements_of_none (by rw [skipelem_dropWhile, hs])]
  | some e =>
    obtain ⟨name, rest⟩ := e
    rw [elements_of_some hs, elements_of_some (by rw [skipelem_dropWhile, hs])]

/-- After an element the path is empty or goes on with a slash. -/
theorem dropWhile_ne_slash :
    ∀ x : List UInt8, x.dropWhile (· ≠ SLASH) = [] ∨ ∃ r, x.dropWhile (· ≠ SLASH) = SLASH :: r
  | [] => Or.inl rfl
  | a :: x => by
    by_cases ha : a = SLASH
    · right
      refine ⟨x, ?_⟩
      rw [List.dropWhile_cons_of_neg (by simpa using ha), ha]
    · rw [List.dropWhile_cons_of_pos (by simpa using ha)]
      exact dropWhile_ne_slash x

/-- The successive calls of `skipelem` copy out the segments between slashes that are not
empty, each cut to `DIRSIZ` bytes. -/
theorem elements_eq_components (path : List UInt8) : elements path = components path := by
  rw [← elements_dropWhile, ← components_dropWhile]
  cases hq : path.dropWhile (· = SLASH) with
  | nil => rw [elements_of_none (skipelem_of_nil rfl)]; rfl
  | cons c p =>
    have hc := dropWhile_slash_cons hq
    have hq' : (c :: p).dropWhile (· = SLASH) = c :: p :=
      List.dropWhile_cons_of_neg (by simpa using hc)
    rw [elements_of_some (skipelem_of_cons hq')]
    -- the path is the element `e`, then `r`
    have hsplit := List.takeWhile_append_dropWhile (p := fun x => decide (x ≠ SLASH)) (l := c :: p)
    have he : SLASH ∉ (c :: p).takeWhile (· ≠ SLASH) := fun h => by
      simpa using List.mem_takeWhile_imp h
    have hne : 0 < ((c :: p).takeWhile (· ≠ SLASH)).length := by
      rw [List.takeWhile_cons_of_pos (by simpa using hc)]
      simp
    rcases dropWhile_ne_slash (c :: p) with hr | ⟨r', hr⟩
    · -- the element ends the path
      rw [hr] at hsplit ⊢
      generalize (c :: p).takeWhile (· ≠ SLASH) = e at hsplit he hne ⊢
      rw [elements_of_none (skipelem_of_nil rfl), ← hsplit, List.append_nil, components,
        List.splitOn_eq_singleton he]
      simp [List.length_pos_iff.mp hne]
    · -- a slash follows the element: the rest after the slashes is shorter
      rw [hr] at hsplit ⊢
      generalize (c :: p).takeWhile (· ≠ SLASH) = e at hsplit he hne ⊢
      have hlen : (r'.dropWhile (· = SLASH)).length < path.length := by
        have h₁ := List.length_dropWhile_le (· = SLASH) r'
        have h₂ := List.length_dropWhile_le (· = SLASH) path
        have h₃ := congrArg List.length hsplit
        rw [hq] at h₂
        rw [List.length_append, List.length_cons] at h₃
        omega
      rw [List.dropWhile_cons_of_pos (by simp), elements_eq_components (r'.dropWhile (· = SLASH)),
        components_dropWhile, ← hsplit]
      unfold components
      rw [List.splitOn_append_cons_self_of_not_mem he]
      simp [List.length_pos_iff.mp hne]
termination_by path.length

/-! ## `namex` over the bytes of the path -/

/-- The loop of `namex` over the bytes of `path` from the directory `ip`, which it holds a
reference to: `skipelem` copies out the next element, and with `nameiparent` the loop stops one
level early where nothing follows it (`*path == '\x00'`). -/
def namexLoopC (nameiparent : Bool) (ip : Nat) (path : List UInt8) : FsM (Option (Nat × Name)) :=
  match h : skipelem path with
  | none =>
    if nameiparent then do
      iput ip
      pure none
    else pure (some (ip, []))
  | some (name, path') => do
    ilock ip
    let t ← get
    if (t.ino ip).type ≠ T_DIR then
      iput ip
      pure none
    else if nameiparent ∧ path' = [] then
      -- Stop one level early.
      pure (some (ip, name))
    else
      match ← dirlookup ip name with
      | none =>
        iput ip
        pure none
      | some (next, _) =>
        iput ip
        namexLoopC nameiparent next path'
termination_by path.length
decreasing_by exact skipelem_length h

/-- `namex(path, nameiparent, name)` on the bytes of `path` before its `NUL`. -/
def namexC (path : List UInt8) (nameiparent : Bool) (cwd : Nat) : FsM (Option (Nat × Name)) := do
  if path.head? = some SLASH then iget ROOTINO else idup cwd
  namexLoopC nameiparent (if path.head? = some SLASH then ROOTINO else cwd) path

theorem namexLoopC_of_none {np : Bool} {ip : Nat} {path : List UInt8} (h : skipelem path = none) :
    namexLoopC np ip path = namexLoop np ip [] := by
  rw [namexLoopC, namexLoop]
  split
  · rfl
  · rename_i h'
    rw [h] at h'
    cases h'

/-- The loop over the bytes runs the loop over the elements, `skipelem` giving them one by
one. -/
theorem namexLoopC_eq (np : Bool) (ip : Nat) (path : List UInt8) :
    namexLoopC np ip path = namexLoop np ip (elements path) := by
  cases hs : skipelem path with
  | none => rw [namexLoopC_of_none hs, elements_of_none hs]
  | some e =>
    obtain ⟨name, path'⟩ := e
    have ih : ∀ next, namexLoopC np next path' = namexLoop np next (elements path') :=
      fun next => namexLoopC_eq np next path'
    rw [elements_of_some hs, namexLoop, namexLoopC]
    split
    · rename_i h'
      rw [hs] at h'
      cases h'
    · rename_i name₁ path₁ h'
      rw [hs, Option.some.injEq, Prod.mk.injEq] at h'
      obtain ⟨rfl, rfl⟩ := h'
      simp only [ih]
      -- the rest of the path is empty exactly when no element is left in it
      by_cases hp : np = true ∧ path' = []
      · have hp' : np = true ∧ elements path' = [] := ⟨hp.1, (elements_rest_eq_nil_iff hs).mpr hp.2⟩
        rw [if_pos hp, if_pos hp']
      · have hp' : ¬ (np = true ∧ elements path' = []) := by rwa [elements_rest_eq_nil_iff hs]
        -- the two loops match on the lookup with matchers of their own: `rewrite`, then unfold
        rewrite [if_neg hp, if_neg hp']
        rfl
termination_by path.length
decreasing_by exact skipelem_length hs

/-- `namex` on the bytes resolves the path `skipelem` splits it into. -/
theorem namexC_eq (path : List UInt8) (np : Bool) (cwd : Nat) :
    namexC path np cwd = namex ⟨path.head? = some SLASH, elements path⟩ np cwd := by
  simp only [namexC, namex, namexLoopC_eq, decide_eq_true_eq]

/-! ## The inodes the walk reads -/

section Ino

variable {t t' : Itable} {u : Unit}

theorem iget_ino {n : Nat} (h : iget n t = some (u, t')) : t'.ino = t.ino := by
  unfold iget at h
  rw [get_bind_eq_some] at h
  rcases ite_eq_some.mp h with ⟨-, h⟩ | ⟨-, h⟩
  · rw [set_eq_some.mp h]
  · rcases ite_eq_some.mp h with ⟨-, h⟩ | ⟨-, h⟩
    · rw [set_eq_some.mp h]
    · exact absurd h failure_ne_some

theorem idup_ino {n : Nat} (h : idup n t = some (u, t')) : t'.ino = t.ino := by
  unfold idup at h
  rw [modify_eq_some.mp h]

theorem ilock_ino {n : Nat} (h : ilock n t = some (u, t')) : t'.ino = t.ino := by
  unfold ilock at h
  rw [get_bind_eq_some] at h
  dsimp only at h
  rcases ite_eq_some.mp h with ⟨-, h⟩ | ⟨-, h⟩
  · exact absurd h failure_bind_ne_some
  · rcases ite_eq_some.mp h with ⟨-, h⟩ | ⟨-, h⟩
    · rcases ite_eq_some.mp h with ⟨-, h⟩ | ⟨-, h⟩
      · exact absurd h failure_bind_ne_some
      · rw [set_eq_some.mp h]
    · rw [(pure_eq_some.mp h).2]

/-- `dirlookup` finds the entry `findEntry` finds, and changes no inode. -/
theorem dirlookup_spec {dp : Nat} {name : Name} {r : Option (Nat × Nat)}
    (h : dirlookup dp name t = some (r, t')) :
    r = findEntry (t.ino dp).dirents name ∧ t'.ino = t.ino := by
  unfold dirlookup at h
  rw [get_bind_eq_some] at h
  dsimp only at h
  rcases ite_eq_some.mp h with ⟨-, h⟩ | ⟨-, h⟩
  · exact absurd h failure_bind_ne_some
  · cases hf : findEntry (t.ino dp).dirents name with
    | none =>
      rw [hf] at h
      obtain ⟨rfl, rfl⟩ := pure_eq_some.mp h
      exact ⟨rfl, rfl⟩
    | some e =>
      rw [hf] at h
      dsimp only at h
      rw [bind_eq_some] at h
      obtain ⟨u₁, t₁, hi, h⟩ := h
      obtain ⟨rfl, rfl⟩ := pure_eq_some.mp h
      exact ⟨rfl, iget_ino hi⟩

end Ino

/-! ## What the walk does to the inodes

`namex` changes an inode only when an `iput` frees it: its type becomes `0` and it is no longer
valid. `ilock` panics on such an inode, so every inode the walk locks is as it was before the
call, whatever the links and references of the others. -/

/-- The inodes of `t'` are those of `t`, but for some freed ones, which are not valid. -/
def Itable.Freed (t t' : Itable) : Prop :=
  ∀ i, t'.ino i ≠ t.ino i → t'.ino i = Inode.free ∧ t'.valid i = false

section Freed

variable {t t₁ t₂ : Itable} {u : Unit} {n : Nat}

theorem Itable.Freed.refl (t : Itable) : t.Freed t := fun _ h => absurd rfl h

/-- A step that changes no inode and makes valid only inodes that were valid or unchanged. -/
theorem Itable.Freed.of_ino (h : t.Freed t₁) (hino : t₂.ino = t₁.ino)
    (hv : ∀ i, t₂.valid i = true → t₁.valid i = true ∨ t₁.ino i = t.ino i) : t.Freed t₂ := by
  intro i hne
  rw [hino] at hne ⊢
  obtain ⟨hfree, hval⟩ := h i hne
  refine ⟨hfree, ?_⟩
  cases hv2 : t₂.valid i with
  | false => rfl
  | true =>
    rcases hv i hv2 with hv1 | hv1
    · rw [hval] at hv1
      cases hv1
    · exact absurd hv1 hne

theorem Itable.Freed.iget (h : t.Freed t₁) (hs : iget n t₁ = some (u, t₂)) : t.Freed t₂ := by
  refine h.of_ino (iget_ino hs) fun i hi => ?_
  unfold Xv6.iget at hs
  rw [get_bind_eq_some] at hs
  rcases ite_eq_some.mp hs with ⟨-, hs⟩ | ⟨-, hs⟩
  · rw [set_eq_some.mp hs] at hi
    exact .inl hi
  · rcases ite_eq_some.mp hs with ⟨-, hs⟩ | ⟨-, hs⟩
    · -- a fresh entry is not valid
      rw [set_eq_some.mp hs] at hi
      by_cases hin : i = n
      · subst hin
        simp at hi
      · exact .inl (by simpa [Function.update_of_ne hin] using hi)
    · exact absurd hs failure_ne_some

theorem Itable.Freed.idup (h : t.Freed t₁) (hs : idup n t₁ = some (u, t₂)) : t.Freed t₂ := by
  refine h.of_ino (idup_ino hs) fun i hi => ?_
  unfold Xv6.idup at hs
  rw [modify_eq_some.mp hs] at hi
  exact .inl hi

/-- `ilock` succeeds only on an inode that is as it was, and makes only it valid. -/
theorem Itable.Freed.ilock (h : t.Freed t₁) (hs : ilock n t₁ = some (u, t₂)) :
    t.Freed t₂ ∧ t₂.ino = t₁.ino ∧ t₁.ino n = t.ino n := by
  have hino := ilock_ino hs
  unfold Xv6.ilock at hs
  rw [get_bind_eq_some] at hs
  dsimp only at hs
  rcases ite_eq_some.mp hs with ⟨-, hs⟩ | ⟨-, hs⟩
  · exact absurd hs failure_bind_ne_some
  · rcases ite_eq_some.mp hs with ⟨hv, hs⟩ | ⟨hv, hs⟩
    · rcases ite_eq_some.mp hs with ⟨-, hs⟩ | ⟨htype, hs⟩
      · exact absurd hs failure_bind_ne_some
      · -- not valid, with a type: not freed
        have hn : t₁.ino n = t.ino n := by
          by_contra hne
          rw [(h n hne).1] at htype
          exact htype rfl
        refine ⟨h.of_ino hino fun i hi => ?_, hino, hn⟩
        rw [set_eq_some.mp hs] at hi
        by_cases hin : i = n
        · subst hin
          exact .inr hn
        · exact .inl (by simpa [Function.update_of_ne hin] using hi)
    · -- valid: not freed
      have hn : t₁.ino n = t.ino n := by
        by_contra hne
        rw [(h n hne).2] at hv
        exact hv rfl
      obtain ⟨-, rfl⟩ := pure_eq_some.mp hs
      exact ⟨h, rfl, hn⟩

theorem Itable.Freed.iput (h : t.Freed t₁) (hs : iput n t₁ = some (u, t₂)) : t.Freed t₂ := by
  unfold Xv6.iput at hs
  rw [modify_eq_some.mp hs]
  by_cases hfree : t₁.valid n = true ∧ (t₁.ino n).nlink = 0 ∧ t₁.ref n = 1
  · -- the last reference to an inode with no links: it is freed
    intro i hne
    simp only [if_pos hfree] at hne ⊢
    by_cases hin : i = n
    · subst hin
      simp
    · simp only [Function.update_of_ne hin] at hne ⊢
      exact h i hne
  · simp only [if_neg hfree]
    exact h

theorem Itable.Freed.dirlookup {dp : Nat} {name : Name} {r : Option (Nat × Nat)} (h : t.Freed t₁)
    (hs : Xv6.dirlookup dp name t₁ = some (r, t₂)) : t.Freed t₂ := by
  unfold Xv6.dirlookup at hs
  rw [get_bind_eq_some] at hs
  dsimp only at hs
  rcases ite_eq_some.mp hs with ⟨-, hs⟩ | ⟨-, hs⟩
  · exact absurd hs failure_bind_ne_some
  · cases hf : findEntry (t₁.ino dp).dirents name with
    | none =>
      rw [hf] at hs
      obtain ⟨-, rfl⟩ := pure_eq_some.mp hs
      exact h
    | some e =>
      rw [hf] at hs
      dsimp only at hs
      obtain ⟨u₁, t₃, hi, hs⟩ := bind_eq_some.mp hs
      obtain ⟨-, rfl⟩ := pure_eq_some.mp hs
      exact h.iget hi

end Freed

/-! ## What the walk finds -/

/-- The inode reached from `ip` by looking up each of `names` in turn, each in a directory,
by the entry in use with that name. -/
def walk (ino : Nat → Inode) : Nat → List Name → Option Nat
  | ip, [] => some ip
  | ip, name :: rest =>
    if (ino ip).type ≠ T_DIR then none
    else
      match findEntry (ino ip).dirents name with
      | none => none
      | some (next, _) => walk ino next rest

/-- What `nameiparent` is for: the directory that all the elements but the last lead to, with the
last element; nothing for a path with no element. -/
def parentOf (ino : Nat → Inode) (ip : Nat) (names : List Name) : Option (Nat × Name) :=
  names.getLast?.bind fun name =>
    (walk ino ip names.dropLast).bind fun d => if (ino d).type = T_DIR then some (d, name) else none

theorem walk_cons_of_dir {ino : Nat → Inode} {ip next off : Nat} {name : Name} (rest : List Name)
    (hd : (ino ip).type = T_DIR) (hf : findEntry (ino ip).dirents name = some (next, off)) :
    walk ino ip (name :: rest) = walk ino next rest := by
  rw [walk, if_neg (by simpa using hd), hf]

/-- A run of the loop over `name :: rest`, on inodes that are those of `t` but for freed ones: it
stops at a file, stops one level early, finds no entry, or goes on from the entry it finds, each
read off the inodes of `t`. -/
theorem namexLoop_cons {np : Bool} {ip : Nat} {name : Name} {rest : List Name} {t t₁ t' : Itable}
    {r : Option (Nat × Name)} (hf : t.Freed t₁) (h : namexLoop np ip (name :: rest) t₁ = some (r, t')) :
    ((t.ino ip).type ≠ T_DIR ∧ r = none) ∨
      ((t.ino ip).type = T_DIR ∧ np ∧ rest = [] ∧ r = some (ip, name)) ∨
      ((t.ino ip).type = T_DIR ∧ ¬ (np ∧ rest = []) ∧ findEntry (t.ino ip).dirents name = none ∧
        r = none) ∨
      ∃ next off t₃, (t.ino ip).type = T_DIR ∧ ¬ (np ∧ rest = []) ∧
        findEntry (t.ino ip).dirents name = some (next, off) ∧ t.Freed t₃ ∧
        namexLoop np next rest t₃ = some (r, t') := by
  unfold namexLoop at h
  rw [bind_eq_some] at h
  obtain ⟨u₁, t₂, hlk, h⟩ := h
  -- the locked inode is the one of `t`
  obtain ⟨hf₂, h₂, hip⟩ := hf.ilock hlk
  have hino : t₂.ino ip = t.ino ip := by rw [h₂, hip]
  rw [get_bind_eq_some, hino] at h
  rcases ite_eq_some.mp h with ⟨hd, h⟩ | ⟨hd, h⟩
  · -- not a directory: put back, and nothing found
    rw [bind_eq_some] at h
    obtain ⟨u₂, t₃, -, h⟩ := h
    exact Or.inl ⟨hd, (pure_eq_some.mp h).1.symm⟩
  · rw [not_not] at hd
    rcases ite_eq_some.mp h with ⟨hp, h⟩ | ⟨hp, h⟩
    · exact Or.inr (Or.inl ⟨hd, hp.1, hp.2, (pure_eq_some.mp h).1.symm⟩)
    · rw [bind_eq_some] at h
      obtain ⟨r₂, t₃, hdl, h⟩ := h
      have hf₃ := hf₂.dirlookup hdl
      obtain ⟨rfl, -⟩ := dirlookup_spec hdl
      rw [hino] at h
      cases he : findEntry (t.ino ip).dirents name with
      | none =>
        rw [he] at h
        obtain ⟨u₃, t₄, -, h⟩ := bind_eq_some.mp h
        exact Or.inr (Or.inr (Or.inl ⟨hd, hp, rfl, (pure_eq_some.mp h).1.symm⟩))
      | some e =>
        obtain ⟨next, off⟩ := e
        rw [he] at h
        obtain ⟨u₃, t₄, hput, h⟩ := bind_eq_some.mp h
        exact Or.inr (Or.inr (Or.inr ⟨next, off, t₄, hd, hp, rfl, hf₃.iput hput, h⟩))

/-- `namei`'s walk returns what `walk` reaches in the inodes it started from. -/
theorem namexLoop_walk :
    ∀ {names : List Name} {ip : Nat} {t t₁ t' : Itable} {r : Option (Nat × Name)},
      t.Freed t₁ → namexLoop false ip names t₁ = some (r, t') →
        r.map Prod.fst = walk t.ino ip names
  | [], ip, t, t₁, t', r, _, h => by
    unfold namexLoop at h
    obtain ⟨rfl, -⟩ := pure_eq_some.mp h
    rfl
  | name :: rest, ip, t, t₁, t', r, hf, h => by
    rcases namexLoop_cons hf h with ⟨hd, rfl⟩ | ⟨-, hp, -⟩ | ⟨hd, -, he, rfl⟩ |
        ⟨next, off, t₃, hd, -, he, hf₃, h⟩
    · rw [walk, if_pos hd]
      rfl
    · cases hp
    · rw [walk, if_neg (by simpa using hd), he]
      rfl
    · rw [walk_cons_of_dir rest hd he]
      exact namexLoop_walk hf₃ h

/-- `nameiparent`'s walk returns what `parentOf` says of the inodes it started from. -/
theorem namexLoop_parent :
    ∀ {names : List Name} {ip : Nat} {t t₁ t' : Itable} {r : Option (Nat × Name)},
      t.Freed t₁ → namexLoop true ip names t₁ = some (r, t') → r = parentOf t.ino ip names
  | [], ip, t, t₁, t', r, _, h => by
    unfold namexLoop at h
    obtain ⟨u₁, t₂, -, h⟩ := bind_eq_some.mp h
    exact (pure_eq_some.mp h).1.symm
  | name :: rest, ip, t, t₁, t', r, hf, h => by
    rcases namexLoop_cons hf h with ⟨hd, rfl⟩ | ⟨hd, -, rfl, rfl⟩ | ⟨hd, hp, he, rfl⟩ |
        ⟨next, off, t₃, hd, hp, he, hf₃, h⟩
    · -- the walk stops at a file `ip`
      cases rest with
      | nil => simp [parentOf, walk, hd]
      | cons a rest' => simp [parentOf, walk, hd]
    · simp [parentOf, walk, hd]
    · have hne : rest ≠ [] := by simpa using hp
      simp [parentOf, List.getLast?_cons, List.dropLast_cons_of_ne_nil hne, walk, hd, he]
    · -- the walk goes on from `next`
      have hne : rest ≠ [] := by simpa using hp
      rw [namexLoop_parent hf₃ h]
      simp only [parentOf, List.getLast?_cons_of_ne_nil hne, List.dropLast_cons_of_ne_nil hne,
        walk_cons_of_dir _ hd he]

/-- `namex` takes its reference to where the walk starts and changes no inode doing so. -/
theorem namex_start {abs : Bool} {elems : List Name} {np : Bool} {cwd : Nat} {t t' : Itable}
    {r : Option (Nat × Name)} (h : namex ⟨abs, elems⟩ np cwd t = some (r, t')) :
    ∃ t₁ : Itable, t.Freed t₁ ∧ namexLoop np (if abs then ROOTINO else cwd) elems t₁ = some (r, t') := by
  unfold namex at h
  rcases ite_eq_some.mp h with ⟨ha, h⟩ | ⟨ha, h⟩
  · obtain ⟨u₁, t₁, hs, h⟩ := bind_eq_some.mp h
    exact ⟨t₁, (Itable.Freed.refl t).iget hs, by simpa [ha] using h⟩
  · obtain ⟨u₁, t₁, hs, h⟩ := bind_eq_some.mp h
    exact ⟨t₁, (Itable.Freed.refl t).idup hs, by simpa [ha] using h⟩

/-- `namex` on the bytes of a path: `skipelem` yields the segments between slashes, cut to
`DIRSIZ` bytes, and `0` exactly when only slashes remain; `namex` resolves those elements from the
root or from `cwd`; `namei` returns what looking them up one by one in the inodes before the call
reaches, and `nameiparent` the directory holding the last element, with it, or nothing for a path
with no element. -/
theorem namex_splits_path (path : List UInt8) (cwd : Nat) :
    elements path = components path ∧
      (skipelem path = none ↔ ∀ c ∈ path, c = SLASH) ∧
      (∀ np, namexC path np cwd = namex ⟨path.head? = some SLASH, components path⟩ np cwd) ∧
      (∀ t t' r, namexC path false cwd t = some (r, t') →
        r.map Prod.fst =
          walk t.ino (if path.head? = some SLASH then ROOTINO else cwd) (components path)) ∧
      ∀ t t' r, namexC path true cwd t = some (r, t') →
        r = parentOf t.ino (if path.head? = some SLASH then ROOTINO else cwd) (components path) := by
  have hsplit := elements_eq_components path
  have hc : ∀ np, namexC path np cwd = namex ⟨path.head? = some SLASH, components path⟩ np cwd := by
    intro np
    rw [namexC_eq, hsplit]
  refine ⟨hsplit, ?_, hc, ?_, ?_⟩
  · rw [skipelem_eq_none_iff, List.dropWhile_eq_nil_iff]
    simp
  · intro t t' r h
    rw [hc] at h
    obtain ⟨t₁, hf, h⟩ := namex_start h
    simpa using namexLoop_walk hf h
  · intro t t' r h
    rw [hc] at h
    obtain ⟨t₁, hf, h⟩ := namex_start h
    simpa using namexLoop_parent hf h

/-- A process's cwd `3` is a directory unlinked while it was the cwd: no link, the one reference
of the cwd, and the `.` and `..` that `sys_unlink` leaves in it. The root holds the file `x`,
inode `4`. -/
def unlinkedCwd : Itable where
  ino i :=
    if i = ROOTINO then ⟨T_DIR, 1, [(1, dot), (1, dotdot), (4, [120])]⟩
    else if i = 3 then ⟨T_DIR, 0, [(3, dot), (1, dotdot)]⟩
    else if i = 4 then ⟨T_FILE, 1, []⟩
    else Inode.free
  ref i := if i = ROOTINO ∨ i = 3 then 1 else 0
  valid i := i = ROOTINO ∨ i = 3

/-- From there `namei("../x")` returns the file `x`, as looking up `..` and then `x` does. -/
theorem namex_unlinked_cwd :
    (unlinkedCwd.ino 3).type = T_DIR ∧ (unlinkedCwd.ino 3).nlink = 0 ∧
      ∃ r t', namexC [46, 46, 47, 120] false 3 unlinkedCwd = some (r, t') ∧
        r.map Prod.fst = some 4 := by
  obtain ⟨-, -, hc, hwalk, -⟩ := namex_splits_path [46, 46, 47, 120] 3
  -- `namexC` recurses on the length of the path: evaluate the `namex` it equals
  obtain ⟨⟨r, t'⟩, hr⟩ := Option.isSome_iff_exists.mp
    (show (namex ⟨[46, 46, 47, 120].head? = some SLASH, components [46, 46, 47, 120]⟩ false 3
      unlinkedCwd).isSome = true by decide)
  have hr' : namexC [46, 46, 47, 120] false 3 unlinkedCwd = some (r, t') := by
    rw [hc]
    exact hr
  refine ⟨rfl, rfl, r, t', hr', ?_⟩
  rw [hwalk unlinkedCwd t' r hr']
  decide

end Xv6
