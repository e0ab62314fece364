import Xv6.Fs.Dir
import Xv6.Lib.StateOpt

/-!
# `fs.c`: what each function does to the icache's reference counts

`ip->ref` counts the holders of an icache entry. Each function of `Xv6.Fs.Dir` keeps every
`ref` (`ilock`, `setNlink`, `dirlink`, and the inode work of `mkdir`, `mknod`, `link`,
`unlink` and `exec`), or hands its caller one reference to the inode it returns (`iget`,
`idup`, `ialloc`, `dirlookup`, `namex`, `namei`, `nameiparent`, `create`), or drops one its
caller holds (`iput`, `linkBad`). `namexLoop` takes the reference to the directory it starts
from and hands back one to the inode it returns.

`hold r i` is the reference a result `r` carries to `i`. Each lemma is an equation in `ℕ` with
what is dropped on the left, so that no subtraction is left to reason about; a function that
drops a reference asks that it is held (`1 ≤ t.ref ip`).
-/

namespace Xv6

open StateOpt

/-- One if the result `r` is `a`: the reference a returned inode (or a slot pointing to a
file) carries. -/
def hold {α : Type} [DecidableEq α] (r : Option α) (a : α) : Nat := if r = some a then 1 else 0

section Hold

variable {α : Type} [DecidableEq α]

@[simp] theorem hold_none (a : α) : hold none a = 0 := rfl

@[simp] theorem hold_self (a : α) : hold (some a) a = 1 := by simp [hold]

theorem hold_of_ne {a b : α} (h : a ≠ b) : hold (some a) b = 0 := by simp [hold, h]

theorem hold_le_one (r : Option α) (a : α) : hold r a ≤ 1 := by
  unfold hold
  split <;> omega

end Hold

variable {t t' : Itable} {u : Unit}

/-! ## Inodes -/

/-- A write to `ref` at `n`, read at `i`. -/
theorem update_ref_apply (f : Nat → Nat) (n i v : Nat) :
    Function.update f n v i = if n = i then v else f i := by
  by_cases h : n = i
  · subst h
    simp
  · simp [Function.update_of_ne (Ne.symm h), h]

theorem iget_ref {n : Nat} (h : iget n t = some (u, t')) (i : Nat) :
    t'.ref i = t.ref i + hold (some n) i := by
  unfold iget at h
  rw [get_bind_eq_some] at h
  rcases ite_eq_some.mp h with ⟨-, h⟩ | ⟨hpos, h⟩
  · rw [set_eq_some.mp h]
    simp only [update_ref_apply, hold]
    split <;> simp_all
  · rcases ite_eq_some.mp h with ⟨-, h⟩ | ⟨-, h⟩
    · rw [set_eq_some.mp h]
      simp only [update_ref_apply, hold]
      split <;> simp_all
    · exact absurd h failure_ne_some

theorem idup_ref {n : Nat} (h : idup n t = some (u, t')) (i : Nat) :
    t'.ref i = t.ref i + hold (some n) i := by
  unfold idup at h
  rw [modify_eq_some.mp h]
  simp only [update_ref_apply, hold]
  split <;> simp_all

theorem ilock_ref {n : Nat} (h : ilock n t = some (u, t')) : t'.ref = t.ref := by
  unfold ilock at h
  rw [get_bind_eq_some] at h
  dsimp only at h
  rcases ite_eq_some.mp h with ⟨-, h⟩ | ⟨-, h⟩
  · exact absurd h failure_bind_ne_some
  · rcases ite_eq_some.mp h with ⟨-, h⟩ | ⟨-, h⟩
    · rcases ite_eq_some.mp h with ⟨-, h⟩ | ⟨-, h⟩
      · exact absurd h failure_bind_ne_some
      · rw [set_eq_some.mp h]
    · rw [(pure_eq_some.mp h).2]

/-- `iput` drops one reference; truncating a free inode leaves the counts alone. -/
theorem iput_ref {n : Nat} (h : iput n t = some (u, t')) (hn : 1 ≤ t.ref n) (i : Nat) :
    t'.ref i + hold (some n) i = t.ref i := by
  unfold iput at h
  rw [modify_eq_some.mp h]
  -- both branches of the truncation keep `ref`
  have hr : ∀ t₁ : Itable, t₁.ref = t.ref →
      ({ t₁ with ref := Function.update t₁.ref n (t₁.ref n - 1) } : Itable).ref i +
        hold (some n) i = t.ref i := by
    intro t₁ ht₁
    simp only [ht₁, update_ref_apply, hold]
    split <;> simp_all
  split
  · exact hr _ rfl
  · exact hr _ rfl

theorem setNlink_ref {n : Nat} {v : Int} (h : setNlink n v t = some (u, t')) : t'.ref = t.ref := by
  unfold setNlink at h
  rw [modify_eq_some.mp h]

theorem ialloc_ref {type : Int} {n : Nat} (h : ialloc type t = some (n, t')) (i : Nat) :
    t'.ref i = t.ref i + hold (some n) i := by
  unfold ialloc at h
  rw [get_bind_eq_some] at h
  cases hf : (List.range' 1 (NINODES - 1)).find? (fun inum => (t.ino inum).type = 0) with
  | none =>
    rw [hf] at h
    exact absurd h failure_ne_some
  | some inum =>
    rw [hf] at h
    obtain ⟨u₁, t₂, hs, h⟩ := bind_eq_some.mp h
    obtain ⟨u₂, t₃, hi, h⟩ := bind_eq_some.mp h
    obtain ⟨rfl, rfl⟩ := pure_eq_some.mp h
    rw [iget_ref hi i, set_eq_some.mp hs]

/-! ## Directories -/

theorem dirlookup_ref {dp : Nat} {name : Name} {r : Option (Nat × Nat)}
    (h : dirlookup dp name t = some (r, t')) (i : Nat) :
    t'.ref i = t.ref i + hold (r.map Prod.fst) i := by
  unfold dirlookup at h
  rw [get_bind_eq_some] at h
  dsimp only at h
  rcases ite_eq_some.mp h with ⟨-, h⟩ | ⟨-, h⟩
  · exact absurd h failure_bind_ne_some
  · cases hf : findEntry (t.ino dp).dirents name with
    | none =>
      rw [hf] at h
      obtain ⟨rfl, rfl⟩ := pure_eq_some.mp h
      simp
    | some e =>
      rw [hf] at h
      dsimp only at h
      rw [bind_eq_some] at h
      obtain ⟨u₁, t₁, hi, h⟩ := h
      obtain ⟨rfl, rfl⟩ := pure_eq_some.mp h
      exact iget_ref hi i

/-- `dirlink` drops the reference `dirlookup` took when the name is there. -/
theorem dirlink_ref {dp inum : Nat} {name : Name} {b : Bool}
    (h : dirlink dp name inum t = some (b, t')) : t'.ref = t.ref := by
  unfold dirlink at h
  rw [bind_eq_some] at h
  obtain ⟨r, t₁, hl, h⟩ := h
  have h₁ := dirlookup_ref hl
  funext i
  cases r with
  | some e =>
    -- the name is there: the entry's inode is put back
    obtain ⟨ip, off⟩ := e
    dsimp only at h
    rw [bind_eq_some] at h
    obtain ⟨u₁, t₂, hp, h⟩ := h
    obtain ⟨rfl, rfl⟩ := pure_eq_some.mp h
    have hip : 1 ≤ t₁.ref ip := by
      have := h₁ ip
      simp only [Option.map_some, hold_self] at this
      omega
    have h₂ := iput_ref hp hip i
    have := h₁ i
    simp only [Option.map_some] at this
    omega
  | none =>
    dsimp only at h
    rw [get_bind_eq_some] at h
    rcases ite_eq_some.mp h with ⟨-, h⟩ | ⟨-, h⟩
    · exact absurd h failure_bind_ne_some
    · rw [bind_eq_some] at h
      obtain ⟨u₁, t₂, hs, h⟩ := h
      obtain ⟨rfl, rfl⟩ := pure_eq_some.mp h
      rw [set_eq_some.mp hs]
      simpa using h₁ i

/-! ## Paths -/

/-- The walk takes the reference to the directory `ip` it starts from and hands back one to the
inode it returns; along the way it holds one reference at a time. -/
theorem namexLoop_ref {np : Bool} :
    ∀ {elems : List Name} {ip : Nat} {t t' : Itable} {r : Option (Nat × Name)},
      namexLoop np ip elems t = some (r, t') → 1 ≤ t.ref ip →
        ∀ i, t'.ref i + hold (some ip) i = t.ref i + hold (r.map Prod.fst) i
  | [], ip, t, t', r, h, hip, i => by
    unfold namexLoop at h
    rcases ite_eq_some.mp h with ⟨-, h⟩ | ⟨-, h⟩
    · -- `nameiparent` of the root: the root is put back
      rw [bind_eq_some] at h
      obtain ⟨u₁, t₁, hp, h⟩ := h
      obtain ⟨rfl, rfl⟩ := pure_eq_some.mp h
      simpa using iput_ref hp hip i
    · obtain ⟨rfl, rfl⟩ := pure_eq_some.mp h
      rfl
  | name :: rest, ip, t, t', r, h, hip, i => by
    unfold namexLoop at h
    rw [bind_eq_some] at h
    obtain ⟨u₁, t₁, hl, h⟩ := h
    have h₁ := ilock_ref hl
    rw [get_bind_eq_some] at h
    rcases ite_eq_some.mp h with ⟨-, h⟩ | ⟨-, h⟩
    · -- not a directory
      rw [bind_eq_some] at h
      obtain ⟨u₂, t₂, hp, h⟩ := h
      obtain ⟨rfl, rfl⟩ := pure_eq_some.mp h
      simpa [h₁] using iput_ref hp (by rw [h₁]; exact hip) i
    · rcases ite_eq_some.mp h with ⟨-, h⟩ | ⟨-, h⟩
      · -- stop one level early with the parent
        obtain ⟨rfl, rfl⟩ := pure_eq_some.mp h
        simp [h₁]
      · rw [bind_eq_some] at h
        obtain ⟨r₂, t₂, hd, h⟩ := h
        have h₂ := dirlookup_ref hd
        cases r₂ with
        | none =>
          dsimp only at h
          rw [bind_eq_some] at h
          obtain ⟨u₃, t₃, hp, h⟩ := h
          obtain ⟨rfl, rfl⟩ := pure_eq_some.mp h
          have h₃ := iput_ref hp (by simpa [h₂, h₁] using hip) i
          have e₂ := h₂ i
          simp only [Option.map_none, hold_none, Nat.add_zero] at e₂ ⊢
          rw [h₁] at e₂
          omega
        | some e =>
          -- the walk goes on from `next`, holding it and putting `ip` back
          obtain ⟨next, off⟩ := e
          dsimp only at h
          rw [bind_eq_some] at h
          obtain ⟨u₃, t₃, hp, h⟩ := h
          simp only [Option.map_some] at h₂
          have h₃ := iput_ref hp (by have := h₂ ip; rw [h₁] at this; omega)
          have hnext : 1 ≤ t₃.ref next := by
            have e₂ := h₂ next
            have e₃ := h₃ next
            simp only [hold_self] at e₂
            by_cases hn : ip = next
            · subst hn
              rw [h₁] at e₂
              simp only [hold_self] at e₃
              omega
            · rw [hold_of_ne hn] at e₃
              omega
          have h₄ := namexLoop_ref h hnext i
          have e₂ := h₂ i
          have e₃ := h₃ i
          rw [h₁] at e₂
          omega

/-- `namex` takes a reference to where the walk starts and hands back one to what it finds. -/
theorem namex_ref {path : Path} {np : Bool} {cwd : Nat} {r : Option (Nat × Name)}
    (h : namex path np cwd t = some (r, t')) (i : Nat) :
    t'.ref i = t.ref i + hold (r.map Prod.fst) i := by
  unfold namex at h
  -- the walk starts from the root or from `cwd`, with a reference taken to it
  rcases ite_eq_some.mp h with ⟨ha, h⟩ | ⟨ha, h⟩
  · rw [bind_eq_some] at h
    obtain ⟨u₁, t₁, hs, h⟩ := h
    rw [if_pos ha] at h
    have h₂ := namexLoop_ref h (by simp [iget_ref hs]) i
    rw [iget_ref hs i] at h₂
    omega
  · rw [bind_eq_some] at h
    obtain ⟨u₁, t₁, hs, h⟩ := h
    rw [if_neg ha] at h
    have h₂ := namexLoop_ref h (by simp [idup_ref hs]) i
    rw [idup_ref hs i] at h₂
    omega

theorem namei_ref {path : Path} {cwd : Nat} {r : Option Nat}
    (h : namei path cwd t = some (r, t')) (i : Nat) : t'.ref i = t.ref i + hold r i := by
  unfold namei at h
  rw [bind_eq_some] at h
  obtain ⟨r₁, t₁, hn, h⟩ := h
  obtain ⟨rfl, rfl⟩ := pure_eq_some.mp h
  exact namex_ref hn i

theorem nameiparent_ref {path : Path} {cwd : Nat} {r : Option (Nat × Name)}
    (h : nameiparent path cwd t = some (r, t')) (i : Nat) :
    t'.ref i = t.ref i + hold (r.map Prod.fst) i :=
  namex_ref h i

end Xv6
