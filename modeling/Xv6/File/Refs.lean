import Xv6.File.Sysfile
import Xv6.Fs.Iref
import Xv6.Lib.Count

/-!
# `sysfile.c` and `file.c`: reference counts along every run of the system calls

`f->ref` counts the descriptors that point to a file, and `ip->ref` the open files of type
`FD_INODE` on the inode and the processes whose current directory it is. Between system calls
both counts are exact (`refInv_run`). A closed file keeps its `ip` (`fileclose` clears only
`ref` and `type`), and `filealloc` and `pipealloc` reuse the structure as it is, so the inode
files are those of type `FD_INODE`, not every structure whose `ip` points to the inode
(`pipe_reuses_stale_ip`).

* the inode work of the system calls (`create_ref`, ...), from `Xv6.Fs.Iref`;
* `fdCount`, `inodeFileCount`, `cwdCount`, and how one write changes them;
* what each function of `file.c` and each system call does to the counts;
* `RefInv` and its preservation by `fsStep`.
-/

namespace Xv6

open StateOpt

variable {t t' : Itable} {u : Unit}

/-! ## `create` -/

/-- The end of `create` for a new inode `ip`: its entry in `dp`, then `dp` put back. -/
def createLink (dp : Nat) (name : Name) (ip : Nat) : FsM (Option Nat) := do
  if !(← dirlink dp name ip) then failure  -- panic("create: dirlink")
  iput dp
  pure (some ip)

theorem createLink_ref {dp ip : Nat} {name : Name} {r : Option Nat}
    (h : createLink dp name ip t = some (r, t')) (hdp : 1 ≤ t.ref dp) :
    r = some ip ∧ ∀ i, t'.ref i + hold (some dp) i = t.ref i := by
  unfold createLink at h
  rw [bind_eq_some] at h
  obtain ⟨b, t₁, hk, h⟩ := h
  have h₁ := dirlink_ref hk
  dsimp only at h
  rcases ite_eq_some.mp h with ⟨-, h⟩ | ⟨-, h⟩
  · exact absurd h failure_bind_ne_some
  · rw [bind_eq_some] at h
    obtain ⟨u₂, t₂, hp, h⟩ := h
    obtain ⟨rfl, rfl⟩ := pure_eq_some.mp h
    refine ⟨rfl, fun i => ?_⟩
    rw [iput_ref hp (by rw [h₁]; exact hdp) i, h₁]

/-- `create` hands back one reference to the inode it returns, and none to the parent. -/
theorem create_ref {cwd : Nat} {path : Path} {type : Int} {r : Option Nat}
    (h : create cwd path type t = some (r, t')) (i : Nat) : t'.ref i = t.ref i + hold r i := by
  unfold create at h
  rw [bind_eq_some] at h
  obtain ⟨r₁, t₁, hn, h⟩ := h
  have h₁ := nameiparent_ref hn
  cases r₁ with
  | none =>
    obtain ⟨rfl, rfl⟩ := pure_eq_some.mp h
    simpa using h₁ i
  | some e =>
    obtain ⟨dp, name⟩ := e
    simp only [Option.map_some] at h₁
    dsimp only at h
    rw [bind_eq_some] at h
    obtain ⟨u₂, t₂, hl, h⟩ := h
    have h₂ := ilock_ref hl
    have hdp : 1 ≤ t₂.ref dp := by
      have := h₁ dp
      simp only [hold_self] at this
      rw [h₂]
      omega
    rw [bind_eq_some] at h
    obtain ⟨r₃, t₃, hd, h⟩ := h
    have h₃ := dirlookup_ref hd
    cases r₃ with
    | some e =>
      -- the name is there: `dp` is put back, and the inode kept only for a file
      obtain ⟨ip, off⟩ := e
      simp only [Option.map_some] at h₃
      dsimp only at h
      rw [bind_eq_some] at h
      obtain ⟨u₄, t₄, hp, h⟩ := h
      have h₄ := iput_ref hp (by have := h₃ dp; omega)
      rw [bind_eq_some] at h
      obtain ⟨u₅, t₅, hl', h⟩ := h
      have h₅ := ilock_ref hl'
      rw [get_bind_eq_some] at h
      have e₁ := h₁ i
      have e₂ := congrFun h₂ i
      have e₃ := h₃ i
      have e₄ := h₄ i
      have e₅ := congrFun h₅ i
      rcases ite_eq_some.mp h with ⟨-, h⟩ | ⟨-, h⟩
      · obtain ⟨rfl, rfl⟩ := pure_eq_some.mp h
        omega
      · rw [bind_eq_some] at h
        obtain ⟨u₆, t₆, hp', h⟩ := h
        obtain ⟨rfl, rfl⟩ := pure_eq_some.mp h
        have hip : 1 ≤ t₅.ref ip := by
          have := h₃ ip
          have := h₄ ip
          rw [congrFun h₅ ip]
          by_cases hdi : dp = ip
          · subst hdi
            simp only [hold_self] at *
            omega
          · rw [hold_of_ne hdi] at *
            simp only [hold_self] at *
            omega
        have := iput_ref hp' hip i
        simp only [hold_none]
        omega
    | none =>
      -- a new inode, linked into `dp`
      dsimp only at h
      rw [bind_eq_some] at h
      obtain ⟨ip, t₄, ha, h⟩ := h
      have h₄ := ialloc_ref ha
      rw [bind_eq_some] at h
      obtain ⟨u₅, t₅, hl', h⟩ := h
      have h₅ := ilock_ref hl'
      rw [bind_eq_some] at h
      obtain ⟨u₆, t₆, hs, h⟩ := h
      have h₆ := setNlink_ref hs
      have hdp₆ : 1 ≤ t₆.ref dp := by
        have := h₃ dp
        have := h₄ dp
        rw [h₆, h₅]
        omega
      -- the new inode's reference is the one `create` returns
      have hfin : ∀ t₉ : Itable, t₉.ref = t₆.ref → createLink dp name ip t₉ = some (r, t') →
          t'.ref i = t.ref i + hold r i := by
        intro t₉ h₉ hc
        obtain ⟨rfl, hk⟩ := createLink_ref hc (by rw [h₉]; exact hdp₆)
        have e₁ := h₁ i
        have e₂ := congrFun h₂ i
        have e₃ := h₃ i
        have e₄ := h₄ i
        have e₉ := hk i
        rw [congrFun h₉ i, congrFun h₆ i, congrFun h₅ i] at e₉
        simp only [Option.map_none, hold_none, Nat.add_zero] at e₃
        omega
      rcases ite_eq_some.mp h with ⟨-, h⟩ | ⟨-, h⟩
      · -- a directory: `dp`'s link count, and the entries `.` and `..`
        rw [get_bind_eq_some, bind_eq_some] at h
        obtain ⟨u₇, t₇, hs', h⟩ := h
        rw [bind_eq_some] at h
        obtain ⟨b₈, t₈, hk, h⟩ := h
        have hdots : ∀ t₈' : Itable, t₈'.ref = t₆.ref →
            (dirlink ip dotdot dp >>= fun b =>
              if (!b) = true then (failure : FsM Unit) >>= fun _ => createLink dp name ip
              else createLink dp name ip) t₈' = some (r, t') →
            t'.ref i = t.ref i + hold r i := by
          intro t₈' h₈ h
          rw [bind_eq_some] at h
          obtain ⟨b₉, t₉, hk', h⟩ := h
          rcases ite_eq_some.mp h with ⟨-, h⟩ | ⟨-, h⟩
          · exact absurd h failure_bind_ne_some
          · exact hfin t₉ (by rw [← h₈]; exact dirlink_ref hk') h
        rcases ite_eq_some.mp h with ⟨-, h⟩ | ⟨-, h⟩
        · exact absurd h failure_bind_ne_some
        · refine hdots t₈ ?_ h
          rw [← setNlink_ref hs']
          exact dirlink_ref hk
      · exact hfin t₆ rfl h

/-! ## The inode work of the system calls -/

/-- `create` and `iunlockput` of the inode it made: the counts are as before. -/
theorem create_iput_ref {cwd ip : Nat} {path : Path} {type : Int} {t₁ t₂ : Itable}
    (hc : create cwd path type t = some (some ip, t₁)) (hp : iput ip t₁ = some (u, t₂)) :
    t₂.ref = t.ref := by
  have h₁ := create_ref hc
  funext i
  have := iput_ref hp (by simp [h₁]) i
  have := h₁ i
  omega

theorem sys_mkdir_ref {cwd : Nat} {path : Path} {x : Int}
    (h : sys_mkdir cwd path t = some (x, t')) : t'.ref = t.ref := by
  unfold sys_mkdir at h
  rw [bind_eq_some] at h
  obtain ⟨r₁, t₁, hc, h⟩ := h
  cases r₁ with
  | none =>
    obtain ⟨rfl, rfl⟩ := pure_eq_some.mp h
    funext i
    simpa using create_ref hc i
  | some ip =>
    dsimp only at h
    rw [bind_eq_some] at h
    obtain ⟨u₂, t₂, hp, h⟩ := h
    obtain ⟨rfl, rfl⟩ := pure_eq_some.mp h
    exact create_iput_ref hc hp

theorem sys_mknod_ref {cwd : Nat} {path : Path} {x : Int}
    (h : sys_mknod cwd path t = some (x, t')) : t'.ref = t.ref := by
  unfold sys_mknod at h
  rw [bind_eq_some] at h
  obtain ⟨r₁, t₁, hc, h⟩ := h
  cases r₁ with
  | none =>
    obtain ⟨rfl, rfl⟩ := pure_eq_some.mp h
    funext i
    simpa using create_ref hc i
  | some ip =>
    dsimp only at h
    rw [bind_eq_some] at h
    obtain ⟨u₂, t₂, hp, h⟩ := h
    obtain ⟨rfl, rfl⟩ := pure_eq_some.mp h
    exact create_iput_ref hc hp

/-- The `bad:` path of `link` puts back the inode it holds. -/
theorem linkBad_ref {ip : Nat} {x : Int} (h : linkBad ip t = some (x, t')) (hip : 1 ≤ t.ref ip)
    (i : Nat) : t'.ref i + hold (some ip) i = t.ref i := by
  unfold linkBad at h
  rw [bind_eq_some] at h
  obtain ⟨u₁, t₁, hl, h⟩ := h
  rw [get_bind_eq_some, bind_eq_some] at h
  obtain ⟨u₂, t₂, hs, h⟩ := h
  rw [bind_eq_some] at h
  obtain ⟨u₃, t₃, hp, h⟩ := h
  obtain ⟨rfl, rfl⟩ := pure_eq_some.mp h
  have h₂ : t₂.ref = t.ref := by rw [setNlink_ref hs, ilock_ref hl]
  rw [iput_ref hp (by rw [h₂]; exact hip) i, h₂]

theorem sys_link_ref {cwd : Nat} {old new : Path} {x : Int}
    (h : sys_link cwd old new t = some (x, t')) : t'.ref = t.ref := by
  unfold sys_link at h
  rw [bind_eq_some] at h
  obtain ⟨r₁, t₁, hn, h⟩ := h
  have h₁ := namei_ref hn
  funext i
  cases r₁ with
  | none =>
    obtain ⟨rfl, rfl⟩ := pure_eq_some.mp h
    simpa using h₁ i
  | some ip =>
    dsimp only at h
    rw [bind_eq_some] at h
    obtain ⟨u₂, t₂, hl, h⟩ := h
    have h₂ := ilock_ref hl
    have hip : 1 ≤ t₂.ref ip := by
      rw [h₂, h₁ ip]
      simp
    have e₁ := h₁ i
    have e₂ := congrFun h₂ i
    rw [get_bind_eq_some] at h
    rcases ite_eq_some.mp h with ⟨-, h⟩ | ⟨-, h⟩
    · -- a directory cannot be linked
      rw [bind_eq_some] at h
      obtain ⟨u₃, t₃, hp, h⟩ := h
      obtain ⟨rfl, rfl⟩ := pure_eq_some.mp h
      have := iput_ref hp hip i
      omega
    · rw [get_bind_eq_some, bind_eq_some] at h
      obtain ⟨u₃, t₃, hs, h⟩ := h
      have h₃ := setNlink_ref hs
      have e₃ := congrFun h₃ i
      rw [bind_eq_some] at h
      obtain ⟨r₄, t₄, hn', h⟩ := h
      have h₄ := nameiparent_ref hn'
      cases r₄ with
      | none =>
        have := linkBad_ref h (by rw [h₄ ip, h₃]; simp [hip]) i
        have := h₄ i
        simp only [Option.map_none, hold_none, Nat.add_zero] at *
        omega
      | some e =>
        -- the new entry goes into `dp`, which is put back either way
        obtain ⟨dp, name⟩ := e
        simp only [Option.map_some] at h₄
        dsimp only at h
        rw [bind_eq_some] at h
        obtain ⟨u₅, t₅, hl', h⟩ := h
        have h₅ := ilock_ref hl'
        rw [bind_eq_some] at h
        obtain ⟨b, t₆, hk, h⟩ := h
        have h₆ := dirlink_ref hk
        have hdp : 1 ≤ t₆.ref dp := by
          rw [h₆, h₅, h₄ dp]
          simp
        have e₄ := h₄ i
        have e₅ := congrFun h₅ i
        have e₆ := congrFun h₆ i
        have hip₆ : ∀ {t₇ : Itable} {u₇ : Unit}, iput dp t₆ = some (u₇, t₇) → 1 ≤ t₇.ref ip := by
          intro t₇ u₇ hp
          have := iput_ref hp hdp ip
          have := h₄ ip
          have := congrFun h₅ ip
          have := congrFun h₆ ip
          have := congrFun h₃ ip
          have := hold_le_one (some dp) ip
          omega
        rcases ite_eq_some.mp h with ⟨-, h⟩ | ⟨-, h⟩
        · rw [bind_eq_some] at h
          obtain ⟨u₇, t₇, hp, h⟩ := h
          rw [bind_eq_some] at h
          obtain ⟨u₈, t₈, hp', h⟩ := h
          obtain ⟨rfl, rfl⟩ := pure_eq_some.mp h
          have := iput_ref hp hdp i
          have := iput_ref hp' (hip₆ hp) i
          omega
        · rw [bind_eq_some] at h
          obtain ⟨u₇, t₇, hp, h⟩ := h
          have := iput_ref hp hdp i
          have := linkBad_ref h (hip₆ hp) i
          omega

theorem clearEntry_ref {dp off : Nat} (h : clearEntry dp off t = some (u, t')) : t'.ref = t.ref := by
  unfold clearEntry at h
  rw [modify_eq_some.mp h]

/-- The end of `unlink` once the entry is cleared: `dp` put back, `ip`'s link count lowered
and `ip` put back. -/
def unlinkTail (dp ip : Nat) : FsM Int := do
  iput dp
  setNlink ip (((← get).ino ip).nlink - 1)
  iput ip
  pure 0

/-- Two references are put back, one to `dp` and one to `ip` (the same inode, twice, when
`ip = dp`). -/
theorem unlinkTail_ref {dp ip : Nat} {x : Int} (h : unlinkTail dp ip t = some (x, t'))
    (hheld : ∀ j, hold (some dp) j + hold (some ip) j ≤ t.ref j) (i : Nat) :
    t'.ref i + hold (some dp) i + hold (some ip) i = t.ref i := by
  unfold unlinkTail at h
  rw [bind_eq_some] at h
  obtain ⟨u₁, t₁, hp, h⟩ := h
  have h₁ := iput_ref hp (by have := hheld dp; simp only [hold_self] at this; omega)
  rw [get_bind_eq_some, bind_eq_some] at h
  obtain ⟨u₂, t₂, hs, h⟩ := h
  have h₂ := setNlink_ref hs
  rw [bind_eq_some] at h
  obtain ⟨u₃, t₃, hp', h⟩ := h
  obtain ⟨rfl, rfl⟩ := pure_eq_some.mp h
  have hip : 1 ≤ t₂.ref ip := by
    have := hheld ip
    have := h₁ ip
    simp only [hold_self] at *
    rw [h₂]
    omega
  have := iput_ref hp' hip i
  have := h₁ i
  rw [h₂] at *
  omega

theorem sys_unlink_ref {cwd : Nat} {path : Path} {x : Int}
    (h : sys_unlink cwd path t = some (x, t')) : t'.ref = t.ref := by
  unfold sys_unlink at h
  rw [bind_eq_some] at h
  obtain ⟨r₁, t₁, hn, h⟩ := h
  have h₁ := nameiparent_ref hn
  funext i
  cases r₁ with
  | none =>
    obtain ⟨rfl, rfl⟩ := pure_eq_some.mp h
    simpa using h₁ i
  | some e =>
    obtain ⟨dp, name⟩ := e
    simp only [Option.map_some] at h₁
    dsimp only at h
    rw [bind_eq_some] at h
    obtain ⟨u₂, t₂, hl, h⟩ := h
    have h₂ := ilock_ref hl
    have hdp : 1 ≤ t₂.ref dp := by
      rw [h₂, h₁ dp]
      simp
    have e₁ := h₁ i
    have e₂ := congrFun h₂ i
    rcases ite_eq_some.mp h with ⟨-, h⟩ | ⟨-, h⟩
    · -- `.` and `..` are not unlinked
      rw [bind_eq_some] at h
      obtain ⟨u₃, t₃, hp, h⟩ := h
      obtain ⟨rfl, rfl⟩ := pure_eq_some.mp h
      have := iput_ref hp hdp i
      omega
    · rw [bind_eq_some] at h
      obtain ⟨r₃, t₃, hd, h⟩ := h
      have h₃ := dirlookup_ref hd
      cases r₃ with
      | none =>
        dsimp only at h
        rw [bind_eq_some] at h
        obtain ⟨u₄, t₄, hp, h⟩ := h
        obtain ⟨rfl, rfl⟩ := pure_eq_some.mp h
        have := iput_ref hp (by simpa [h₃] using hdp) i
        have := h₃ i
        simp only [Option.map_none, hold_none, Nat.add_zero] at *
        omega
      | some e =>
        -- `dp` and the entry's inode `ip` are held from here on
        obtain ⟨ip, off⟩ := e
        simp only [Option.map_some] at h₃
        dsimp only at h
        rw [bind_eq_some] at h
        obtain ⟨u₄, t₄, hl', h⟩ := h
        have h₄ : t₄.ref = t₃.ref := ilock_ref hl'
        have hheld : ∀ j, hold (some dp) j + hold (some ip) j ≤ t₄.ref j := by
          intro j
          rw [h₄, h₃ j]
          by_cases hj : dp = j
          · subst hj
            simp only [hold_self]
            omega
          · rw [hold_of_ne hj]
            omega
        have e₃ := h₃ i
        have e₄ := congrFun h₄ i
        rw [get_bind_eq_some] at h
        rcases ite_eq_some.mp h with ⟨-, h⟩ | ⟨-, h⟩
        · exact absurd h failure_bind_ne_some
        · rcases ite_eq_some.mp h with ⟨-, h⟩ | ⟨-, h⟩
          · -- a directory with entries: both put back
            rw [bind_eq_some] at h
            obtain ⟨u₅, t₅, hp, h⟩ := h
            rw [bind_eq_some] at h
            obtain ⟨u₆, t₆, hp', h⟩ := h
            obtain ⟨rfl, rfl⟩ := pure_eq_some.mp h
            have h₅ := iput_ref hp (by have := hheld ip; simp only [hold_self] at this; omega)
            have := iput_ref hp' (by have := hheld dp; have := h₅ dp; simp only [hold_self] at *; omega) i
            have := h₅ i
            omega
          · rw [bind_eq_some] at h
            obtain ⟨u₅, t₅, hc, h⟩ := h
            have h₅ : t₅.ref = t₄.ref := clearEntry_ref hc
            have hfin : ∀ t₆ : Itable, t₆.ref = t₄.ref → unlinkTail dp ip t₆ = some (x, t') →
                t'.ref i = t.ref i := by
              intro t₆ h₆ hu
              have := unlinkTail_ref hu (by rw [h₆]; exact hheld) i
              rw [h₆] at this
              omega
            rcases ite_eq_some.mp h with ⟨-, h⟩ | ⟨-, h⟩
            · -- the parent of a removed directory loses the link of `..`
              rw [get_bind_eq_some, bind_eq_some] at h
              obtain ⟨u₆, t₆, hs, h⟩ := h
              exact hfin t₆ (by rw [setNlink_ref hs, h₅]) h
            · exact hfin t₅ h₅ h

theorem execInode_ref {cwd : Nat} {path : Path} (h : execInode cwd path t = some (u, t')) :
    t'.ref = t.ref := by
  unfold execInode at h
  rw [bind_eq_some] at h
  obtain ⟨r₁, t₁, hn, h⟩ := h
  have h₁ := namei_ref hn
  funext i
  cases r₁ with
  | none =>
    obtain ⟨rfl, rfl⟩ := pure_eq_some.mp h
    simpa using h₁ i
  | some ip =>
    dsimp only at h
    rw [bind_eq_some] at h
    obtain ⟨u₂, t₂, hl, h⟩ := h
    have h₂ := ilock_ref hl
    have := iput_ref h (by rw [h₂, h₁ ip]; simp) i
    have := h₁ i
    rw [h₂] at *
    omega

/-! ## The counts -/

section Counts

open Finset

variable {ι : Type} [Fintype ι] [DecidableEq ι]

/-- The descriptors, of all processes, that point to file `f`. -/
def fdCount (ofile : ι → Fin NOFILE → Option (Fin NFILE)) (f : Fin NFILE) : Nat :=
  ∑ p, #{fd | ofile p fd = some f}

/-- The open files of type `FD_INODE` on inode `i`. -/
def inodeFileCount (file : Fin NFILE → File) (i : Nat) : Nat :=
  #{f | (file f).type = .inode ∧ (file f).ip = i}

/-- The processes whose current directory is inode `i`. -/
def cwdCount (cwd : ι → Option Nat) (i : Nat) : Nat := #{p | cwd p = some i}

/-- One if `x` is an open `FD_INODE` file on inode `i`. -/
def File.holds (x : File) (i : Nat) : Nat := if x.type = .inode ∧ x.ip = i then 1 else 0

/-- A write to one descriptor moves one count from the file it pointed to to the new one. -/
theorem fdCount_update (ofile : ι → Fin NOFILE → Option (Fin NFILE)) (p : ι) (fd : Fin NOFILE)
    (v : Option (Fin NFILE)) (f : Fin NFILE) :
    fdCount (Function.update ofile p (Function.update (ofile p) fd v)) f + hold (ofile p fd) f =
      fdCount ofile f + hold v f := by
  unfold fdCount
  have hrow := Count.card_filter_update (fun o => o = some f) (ofile p) fd v
  have hsum := Count.sum_update_add (fun q => #{fd | ofile q fd = some f}) p
    #{x | Function.update (ofile p) fd v x = some f}
  have e : ∀ q, #{x | Function.update ofile p (Function.update (ofile p) fd v) q x = some f} =
      Function.update (fun q => #{x | ofile q x = some f}) p
        #{x | Function.update (ofile p) fd v x = some f} q := by
    intro q
    by_cases hq : q = p
    · subst hq
      simp
    · simp [hq]
  simp only [e]
  simp only [hold] at hrow ⊢
  omega

/-- `fork` gives the child, which had no descriptor, a copy of the parent's. -/
theorem fdCount_copy (ofile : ι → Fin NOFILE → Option (Fin NFILE)) {p q : ι}
    (hq : ∀ fd, ofile q fd = none) (f : Fin NFILE) :
    fdCount (Function.update ofile q (ofile p)) f = fdCount ofile f + #{fd | ofile p fd = some f} := by
  unfold fdCount
  have hsum := Count.sum_update_add (fun q => #{fd | ofile q fd = some f}) q
    #{fd | ofile p fd = some f}
  have e : ∀ q', #{x | Function.update ofile q (ofile p) q' x = some f} =
      Function.update (fun q => #{x | ofile q x = some f}) q #{fd | ofile p fd = some f} q' := by
    intro q'
    by_cases hq' : q' = q
    · subst hq'
      simp
    · simp [hq']
  have h0 : #{x | ofile q x = some f} = 0 := by simp [hq]
  simp only [e]
  simp only [h0, Nat.add_zero] at hsum
  exact hsum

theorem inodeFileCount_update (file : Fin NFILE → File) (f : Fin NFILE) (x : File) (i : Nat) :
    inodeFileCount (Function.update file f x) i + (file f).holds i =
      inodeFileCount file i + x.holds i :=
  Count.card_filter_update (fun y : File => y.type = .inode ∧ y.ip = i) file f x

theorem cwdCount_update (cwd : ι → Option Nat) (p : ι) (v : Option Nat) (i : Nat) :
    cwdCount (Function.update cwd p v) i + hold (cwd p) i = cwdCount cwd i + hold v i :=
  Count.card_filter_update (fun o => o = some i) cwd p v

omit [DecidableEq ι] in
/-- A process whose current directory is `i` is counted on `i`. -/
theorem cwdCount_pos {cwd : ι → Option Nat} {p : ι} {i : Nat} (h : cwd p = some i) :
    1 ≤ cwdCount cwd i :=
  Finset.card_pos.mpr ⟨p, by simp [h]⟩

/-- A loop over descriptors counts one more on `g` for a descriptor that points to it. -/
theorem countP_cons_hold (o : Fin NOFILE → Option (Fin NFILE)) (fd : Fin NOFILE)
    (l : List (Fin NOFILE)) (g : Fin NFILE) :
    (fd :: l).countP (fun fd => o fd = some g) = l.countP (fun fd => o fd = some g) + hold (o fd) g := by
  rw [List.countP_cons]
  simp [hold]

end Counts

/-! ## `file.c` -/

section FileOps

variable {ι : Type} {s s' : FsSys ι}

theorem onInodes_eq_some {α : Type} {x : FsM α} {a : α} :
    onInodes x s = some (a, s') ↔ ∃ t', x s.itable = some (a, t') ∧ s' = { s with itable := t' } := by
  unfold onInodes
  rw [Option.map_eq_some_iff]
  constructor
  · rintro ⟨⟨b, t'⟩, hx, he⟩
    simp only [Prod.mk.injEq] at he
    obtain ⟨rfl, rfl⟩ := he
    exact ⟨t', hx, rfl⟩
  · rintro ⟨t', hx, rfl⟩
    exact ⟨(a, t'), hx, rfl⟩

/-- Files whose types and inodes agree have the same open inode files. -/
theorem inodeFileCount_congr {file file' : Fin NFILE → File}
    (h : ∀ g, (file' g).type = (file g).type ∧ (file' g).ip = (file g).ip) (i : Nat) :
    inodeFileCount file' i = inodeFileCount file i := by
  unfold inodeFileCount
  congr 1
  ext g
  simp [(h g).1, (h g).2]

theorem filealloc_spec {r : Option (Fin NFILE)} (h : filealloc s = some (r, s')) :
    s'.ofile = s.ofile ∧ s'.cwd = s.cwd ∧ s'.itable = s.itable ∧
      ∀ g, (s'.file g).type = (s.file g).type ∧ (s'.file g).ip = (s.file g).ip ∧
        (s'.file g).ref = (s.file g).ref + hold r g ∧ (r = some g → (s.file g).ref = 0) := by
  unfold filealloc at h
  rw [get_bind_eq_some] at h
  cases hf : (List.finRange NFILE).find? (fun f => (s.file f).ref = 0) with
  | none =>
    rw [hf] at h
    obtain ⟨rfl, rfl⟩ := pure_eq_some.mp h
    simp
  | some f =>
    rw [hf] at h
    rw [bind_eq_some] at h
    obtain ⟨u₁, s₁, hs, h⟩ := h
    obtain ⟨rfl, rfl⟩ := pure_eq_some.mp h
    rw [set_eq_some.mp hs]
    have h0 : (s.file f).ref = 0 := by simpa using List.find?_some hf
    refine ⟨rfl, rfl, rfl, fun g => ?_⟩
    by_cases hg : f = g
    · subst hg
      simp [h0]
    · simp [Function.update_of_ne (Ne.symm hg), hold_of_ne hg, hg]

theorem filedup_spec {f : Fin NFILE} {u : Unit} (h : filedup f s = some (u, s')) :
    s'.ofile = s.ofile ∧ s'.cwd = s.cwd ∧ s'.itable = s.itable ∧ 1 ≤ (s.file f).ref ∧
      ∀ g, (s'.file g).type = (s.file g).type ∧ (s'.file g).ip = (s.file g).ip ∧
        (s'.file g).ref = (s.file g).ref + hold (some f) g := by
  unfold filedup at h
  rw [get_bind_eq_some] at h
  dsimp only at h
  rcases ite_eq_some.mp h with ⟨-, h⟩ | ⟨hpos, h⟩
  · exact absurd h failure_bind_ne_some
  · rw [set_eq_some.mp h]
    refine ⟨rfl, rfl, rfl, by omega, fun g => ?_⟩
    by_cases hg : f = g
    · subst hg
      simp
    · simp [Function.update_of_ne (Ne.symm hg), hold_of_ne hg]

/-- `File.holds` of an inode file is the `hold` of its inode. -/
theorem File.holds_of_inode {x : File} (h : x.type = .inode) (i : Nat) :
    x.holds i = hold (some x.ip) i := by
  simp [File.holds, hold, h]

theorem File.holds_of_not_inode {x : File} (h : x.type ≠ .inode) (i : Nat) : x.holds i = 0 := by
  simp [File.holds, h]

/-- `fileclose` drops one reference to `f`; when that was the last one of an inode file, what
`iput` drops from the icache is what the open inode files lose. -/
theorem fileclose_spec {f : Fin NFILE} {u : Unit} (h : fileclose f s = some (u, s'))
    (hip : (s.file f).type = .inode → 1 ≤ s.itable.ref (s.file f).ip) :
    s'.ofile = s.ofile ∧ s'.cwd = s.cwd ∧ (∀ g, g ≠ f → s'.file g = s.file g) ∧
      (s'.file f).ref + 1 = (s.file f).ref ∧ ((s'.file f).ref = 0 → (s'.file f).type = .none) ∧
      ∃ X : Nat → Nat, ∀ i, s'.itable.ref i + X i = s.itable.ref i ∧
        inodeFileCount s'.file i + X i = inodeFileCount s.file i := by
  unfold fileclose at h
  rw [get_bind_eq_some] at h
  dsimp only at h
  rcases ite_eq_some.mp h with ⟨-, h⟩ | ⟨hpos, h⟩
  · exact absurd h failure_bind_ne_some
  · rcases ite_eq_some.mp h with ⟨hgt, h⟩ | ⟨hz, h⟩
    · -- references remain: only the count changes
      rw [set_eq_some.mp h]
      refine ⟨rfl, rfl, fun g hg => by simp [Function.update_of_ne hg], by simp; omega,
        fun h0 => by simp at h0; omega, fun _ => 0, fun i => ⟨rfl, ?_⟩⟩
      refine inodeFileCount_congr (fun g => ?_) i
      by_cases hg : g = f
      · subst hg
        simp
      · simp [Function.update_of_ne hg]
    · -- the last reference: the file is freed, and its inode put back
      rw [bind_eq_some] at h
      obtain ⟨u₁, s₁, hs, h⟩ := h
      rw [set_eq_some.mp hs] at h
      have hcount : ∀ i, inodeFileCount
          (Function.update s.file f { s.file f with ref := 0, type := .none }) i +
            (s.file f).holds i = inodeFileCount s.file i := by
        intro i
        have := inodeFileCount_update s.file f { s.file f with ref := 0, type := .none } i
        rwa [File.holds_of_not_inode (x := { s.file f with ref := 0, type := .none }) (by simp),
          Nat.add_zero] at this
      have hframe : ∀ g, g ≠ f →
          Function.update s.file f { s.file f with ref := 0, type := .none } g = s.file g :=
        fun g hg => Function.update_of_ne hg _ _
      rcases ite_eq_some.mp h with ⟨hino, h⟩ | ⟨hino, h⟩
      · obtain ⟨t', hiput, rfl⟩ := onInodes_eq_some.mp h
        refine ⟨rfl, rfl, hframe, by simp; omega, fun _ => by simp,
          hold (some (s.file f).ip), fun i => ⟨iput_ref hiput (hip hino) i, ?_⟩⟩
        rw [← File.holds_of_inode hino]
        exact hcount i
      · obtain ⟨rfl, rfl⟩ := pure_eq_some.mp h
        refine ⟨rfl, rfl, hframe, by simp; omega, fun _ => by simp, fun _ => 0,
          fun i => ⟨rfl, ?_⟩⟩
        simpa [File.holds_of_not_inode hino] using hcount i

theorem fdalloc_spec [DecidableEq ι] {p : ι} {f : Fin NFILE} {r : Option (Fin NOFILE)}
    (h : fdalloc p f s = some (r, s')) :
    (r = none ∧ s' = s) ∨ ∃ fd, r = some fd ∧ s.ofile p fd = none ∧
      s' = { s with ofile := Function.update s.ofile p (Function.update (s.ofile p) fd (some f)) } := by
  unfold fdalloc at h
  rw [get_bind_eq_some] at h
  cases hf : (List.finRange NOFILE).find? (fun fd => s.ofile p fd = none) with
  | none =>
    rw [hf] at h
    obtain ⟨rfl, rfl⟩ := pure_eq_some.mp h
    exact Or.inl ⟨rfl, rfl⟩
  | some fd =>
    rw [hf] at h
    rw [bind_eq_some] at h
    obtain ⟨u₁, s₁, hs, h⟩ := h
    obtain ⟨rfl, rfl⟩ := pure_eq_some.mp h
    exact Or.inr ⟨fd, rfl, by simpa using List.find?_some hf, set_eq_some.mp hs⟩

end FileOps

/-! ## The balance of references -/

section Balance

open Finset

variable {ι : Type} [Fintype ι] {s s' : FsSys ι}
  {df df' : Fin NFILE → Int} {di di' : Nat → Int}

/-- The references counted, with `df f` more held on file `f` and `di i` on inode `i` than the
descriptors, the open inode files and the current directories account for: what a system call
holds while it runs. A file with no reference is `FD_NONE`, and a slot with no process has no
descriptor. -/
structure Bal (s : FsSys ι) (df : Fin NFILE → Int) (di : Nat → Int) : Prop where
  file_ref : ∀ f, ((s.file f).ref : Int) = fdCount s.ofile f + df f
  inode_ref : ∀ i, (s.itable.ref i : Int) = inodeFileCount s.file i + cwdCount s.cwd i + di i
  closed : ∀ f, (s.file f).ref = 0 → (s.file f).type = .none
  idle : ∀ p, s.cwd p = none → ∀ fd, s.ofile p fd = none

theorem Bal.congr (hb : Bal s df di) (hf : ∀ f, df f = df' f) (hi : ∀ i, di i = di' i) :
    Bal s df' di' where
  file_ref f := by rw [← hf]; exact hb.file_ref f
  inode_ref i := by rw [← hi]; exact hb.inode_ref i
  closed := hb.closed
  idle := hb.idle

/-- The icache after inode code that moved `δ i` references on each inode. -/
theorem Bal.itable (hb : Bal s df di) {t' : Itable} {δ : Nat → Int}
    (hδ : ∀ i, (t'.ref i : Int) = s.itable.ref i + δ i) :
    Bal { s with itable := t' } df fun i => di i + δ i where
  file_ref := hb.file_ref
  inode_ref i := by
    have := hb.inode_ref i
    have := hδ i
    simp only
    omega
  closed := hb.closed
  idle := hb.idle

/-- `iput` of an inode with a reference: one fewer is held on it. -/
theorem Bal.iputRef (hb : Bal s df di) {n : Nat} {u : Unit} (hn : 1 ≤ s.itable.ref n)
    (h : onInodes (iput n) s = some (u, s')) : Bal s' df (fun i => di i - hold (some n) i) := by
  obtain ⟨t', hp, rfl⟩ := onInodes_eq_some.mp h
  exact hb.itable (fun i => by have := iput_ref hp hn i; omega)

/-- `iput` of an inode the code holds a reference to. -/
theorem Bal.iput (hb : Bal s df di) {n : Nat} {u : Unit} (hn : 1 ≤ di n)
    (h : onInodes (iput n) s = some (u, s')) : Bal s' df (fun i => di i - hold (some n) i) := by
  have hpos : 1 ≤ s.itable.ref n := by
    have := hb.inode_ref n
    omega
  exact hb.iputRef hpos h

/-- The current directory of a process has a reference, as long as the code owes none on it. -/
theorem Bal.cwd_ref_pos (hb : Bal s df di) {p : ι} {n : Nat} (hc : s.cwd p = some n)
    (hn : 0 ≤ di n) : 1 ≤ s.itable.ref n := by
  have := hb.inode_ref n
  have := cwdCount_pos hc
  omega

/-- Inode code that keeps every `ref`. -/
theorem Bal.keep (hb : Bal s df di) {α : Type} {x : FsM α} {a : α}
    (h : onInodes x s = some (a, s')) (hx : ∀ t', x s.itable = some (a, t') → t'.ref = s.itable.ref) :
    Bal s' df di := by
  obtain ⟨t', hx', rfl⟩ := onInodes_eq_some.mp h
  exact (hb.itable (δ := fun _ => 0) (fun i => by rw [hx t' hx']; simp)).congr
    (fun _ => rfl) (fun _ => by simp)

theorem Bal.filealloc (hb : Bal s df di) {r : Option (Fin NFILE)}
    (h : filealloc s = some (r, s')) : Bal s' (fun g => df g + hold r g) di := by
  obtain ⟨ho, hc, ht, hg⟩ := filealloc_spec h
  have hcount := inodeFileCount_congr (fun g => ⟨(hg g).1, (hg g).2.1⟩)
  refine ⟨fun g => ?_, fun i => ?_, fun g h0 => ?_, ?_⟩
  · have := hb.file_ref g
    have := (hg g).2.2.1
    rw [ho]
    omega
  · rw [ht, hcount, hc]
    exact hb.inode_ref i
  · obtain ⟨hty, -, href, -⟩ := hg g
    rw [hty]
    apply hb.closed
    omega
  · rw [hc, ho]
    exact hb.idle

theorem Bal.filedup (hb : Bal s df di) {f : Fin NFILE} {u : Unit}
    (h : filedup f s = some (u, s')) : Bal s' (fun g => df g + hold (some f) g) di := by
  obtain ⟨ho, hc, ht, -, hg⟩ := filedup_spec h
  have hcount := inodeFileCount_congr (fun g => ⟨(hg g).1, (hg g).2.1⟩)
  refine ⟨fun g => ?_, fun i => ?_, fun g h0 => ?_, ?_⟩
  · have := hb.file_ref g
    have := (hg g).2.2
    rw [ho]
    omega
  · rw [ht, hcount, hc]
    exact hb.inode_ref i
  · obtain ⟨hty, -, href⟩ := hg g
    rw [hty]
    apply hb.closed
    omega
  · rw [hc, ho]
    exact hb.idle

/-- An open inode file is counted on its inode. -/
theorem inodeFileCount_pos {file : Fin NFILE → File} {f : Fin NFILE}
    (h : (file f).type = .inode) : 1 ≤ inodeFileCount file (file f).ip :=
  Finset.card_pos.mpr ⟨f, by simp [h]⟩

/-- `fileclose` with no inode reference missing: the last reference of an inode file puts back
one the file held. -/
theorem Bal.fileclose (hb : Bal s df di) (hdi : ∀ i, 0 ≤ di i) {f : Fin NFILE} {u : Unit}
    (h : fileclose f s = some (u, s')) : Bal s' (fun g => df g - hold (some f) g) di := by
  have hip : (s.file f).type = .inode → 1 ≤ s.itable.ref (s.file f).ip := by
    intro hino
    have := inodeFileCount_pos hino
    have := hb.inode_ref (s.file f).ip
    have := hdi (s.file f).ip
    omega
  obtain ⟨ho, hc, hframe, href, hfree, X, hX⟩ := fileclose_spec h hip
  refine ⟨fun g => ?_, fun i => ?_, fun g h0 => ?_, ?_⟩
  · have := hb.file_ref g
    rw [ho]
    by_cases hg : f = g
    · subst hg
      simp only [hold_self]
      omega
    · rw [hframe g (Ne.symm hg), hold_of_ne hg]
      omega
  · have := hb.inode_ref i
    obtain ⟨h₁, h₂⟩ := hX i
    rw [hc]
    omega
  · by_cases hg : g = f
    · subst hg
      exact hfree h0
    · rw [hframe g hg] at h0 ⊢
      exact hb.closed g h0
  · rw [hc, ho]
    exact hb.idle

/-- A descriptor of a running process given the file `f`. -/
theorem Bal.setSlot [DecidableEq ι] (hb : Bal s df di) {p : ι} {fd : Fin NOFILE} {f : Fin NFILE}
    (hp : s.cwd p ≠ none) (hfd : s.ofile p fd = none) :
    Bal { s with ofile := Function.update s.ofile p (Function.update (s.ofile p) fd (some f)) }
      (fun g => df g - hold (some f) g) di where
  file_ref g := by
    have := hb.file_ref g
    have := fdCount_update s.ofile p fd (some f) g
    rw [hfd, hold_none] at this
    simp only
    omega
  inode_ref := hb.inode_ref
  closed := hb.closed
  idle q hq fd' := by
    have hqp : q ≠ p := fun e => hp (e ▸ hq)
    simp only [Function.update_of_ne hqp]
    exact hb.idle q hq fd'

/-- A descriptor closed: the reference it held is now held by the code. -/
theorem Bal.clearSlot [DecidableEq ι] (hb : Bal s df di) (p : ι) (fd : Fin NOFILE) :
    Bal { s with ofile := Function.update s.ofile p (Function.update (s.ofile p) fd none) }
      (fun g => df g + hold (s.ofile p fd) g) di where
  file_ref g := by
    have := hb.file_ref g
    have := fdCount_update s.ofile p fd none g
    rw [hold_none] at this
    simp only
    omega
  inode_ref := hb.inode_ref
  closed := hb.closed
  idle q hq fd' := by
    by_cases hqp : q = p
    · subst hqp
      by_cases hfd : fd' = fd
      · subst hfd
        simp
      · simp [Function.update_of_ne hfd, hb.idle q hq fd']
    · simp only [Function.update_of_ne hqp]
      exact hb.idle q hq fd'

/-- `sys_open` makes the file it allocated an inode file on `ip`. -/
theorem Bal.setInode (hb : Bal s df di) {f : Fin NFILE} {ip : Nat}
    (hf : (s.file f).type = .none) (hr : 1 ≤ (s.file f).ref) :
    Bal { s with file := Function.update s.file f { s.file f with type := .inode, ip := ip } } df
      (fun i => di i - hold (some ip) i) where
  file_ref g := by
    by_cases hg : g = f
    · subst hg
      simpa using hb.file_ref g
    · simpa [Function.update_of_ne hg] using hb.file_ref g
  inode_ref i := by
    have := hb.inode_ref i
    have := inodeFileCount_update s.file f { s.file f with type := .inode, ip := ip } i
    rw [File.holds_of_not_inode (x := s.file f) (by simp [hf]),
      File.holds_of_inode (x := { s.file f with type := .inode, ip := ip }) rfl] at this
    dsimp only at this ⊢
    omega
  closed g h0 := by
    by_cases hg : g = f
    · subst hg
      simp at h0
      omega
    · simp only [Function.update_of_ne hg] at h0 ⊢
      exact hb.closed g h0
  idle := hb.idle

/-- `pipealloc` makes a file it allocated an `FD_PIPE` file. -/
theorem Bal.setPipe (hb : Bal s df di) {f : Fin NFILE} (hf : (s.file f).type = .none)
    (hr : 1 ≤ (s.file f).ref) :
    Bal { s with file := Function.update s.file f { s.file f with type := .pipe } } df di where
  file_ref g := by
    by_cases hg : g = f
    · subst hg
      simpa using hb.file_ref g
    · simpa [Function.update_of_ne hg] using hb.file_ref g
  inode_ref i := by
    have := hb.inode_ref i
    have := inodeFileCount_update s.file f { s.file f with type := .pipe } i
    rw [File.holds_of_not_inode (x := s.file f) (by simp [hf]),
      File.holds_of_not_inode (x := { s.file f with type := .pipe }) (by simp)] at this
    dsimp only at this ⊢
    omega
  closed g h0 := by
    by_cases hg : g = f
    · subst hg
      simp at h0
      omega
    · simp only [Function.update_of_ne hg] at h0 ⊢
      exact hb.closed g h0
  idle := hb.idle

/-- A process's current directory set to `v` (`none` when it exits, with no descriptor left). -/
theorem Bal.setCwd [DecidableEq ι] (hb : Bal s df di) (p : ι) (v : Option Nat)
    (hv : v = none → ∀ fd, s.ofile p fd = none) :
    Bal { s with cwd := Function.update s.cwd p v } df
      (fun i => di i + hold (s.cwd p) i - hold v i) where
  file_ref := hb.file_ref
  inode_ref i := by
    have := hb.inode_ref i
    have := cwdCount_update s.cwd p v i
    simp only
    omega
  closed := hb.closed
  idle q hq fd := by
    by_cases hqp : q = p
    · subst hqp
      simp only [Function.update_self] at hq
      exact hv hq fd
    · simp only [Function.update_of_ne hqp] at hq
      exact hb.idle q hq fd

/-- `fork`'s child `q`, a free slot, gets the parent's descriptors and current directory. -/
theorem Bal.forkCopy [DecidableEq ι] (hb : Bal s df di) {p q : ι} {cwd : Nat} (hq : s.cwd q = none) :
    Bal { s with ofile := Function.update s.ofile q (s.ofile p),
                 cwd := Function.update s.cwd q (some cwd) }
      (fun g => df g - #{fd | s.ofile p fd = some g}) (fun i => di i - hold (some cwd) i) where
  file_ref g := by
    have := hb.file_ref g
    have := fdCount_copy s.ofile (hb.idle q hq) (p := p) g
    simp only
    omega
  inode_ref i := by
    have := hb.inode_ref i
    have := cwdCount_update s.cwd q (some cwd) i
    rw [hq, hold_none] at this
    simp only
    omega
  closed := hb.closed
  idle r hr fd := by
    by_cases hrq : r = q
    · subst hrq
      simp at hr
    · simp only [Function.update_of_ne hrq] at hr ⊢
      exact hb.idle r hr fd

end Balance

/-! ## The system calls -/

section Calls

open Finset

variable {ι : Type} [Fintype ι] [DecidableEq ι] {s s' : FsSys ι}

/-- The counts are exact: every reference is a descriptor, an open inode file or a current
directory. -/
def RefInv (s : FsSys ι) : Prop := Bal s (fun _ => 0) (fun _ => 0)

omit [Fintype ι] [DecidableEq ι] in
theorem argfd_some {p : ι} {fd : Nat} {fd' : Fin NOFILE} {f : Fin NFILE}
    (h : argfd s p fd = some (fd', f)) : s.ofile p fd' = some f := by
  unfold argfd at h
  split at h
  · obtain ⟨g, hg, he⟩ := Option.map_eq_some_iff.mp h
    simp only [Prod.mk.injEq] at he
    obtain ⟨rfl, rfl⟩ := he
    exact hg
  · simp at h

omit [Fintype ι] in
theorem clearFd_eq {p : ι} {fd : Fin NOFILE} {u : Unit} (h : clearFd p fd s = some (u, s')) :
    s' = { s with ofile := Function.update s.ofile p (Function.update (s.ofile p) fd none) } := by
  unfold clearFd at h
  exact modify_eq_some.mp h

theorem sys_close_refInv {p : ι} {fd : Nat} {x : Int} (hb : RefInv s)
    (h : sys_close p fd s = some (x, s')) : RefInv s' := by
  unfold sys_close at h
  rw [get_bind_eq_some] at h
  cases ha : argfd s p fd with
  | none =>
    rw [ha] at h
    obtain ⟨rfl, rfl⟩ := pure_eq_some.mp h
    exact hb
  | some e =>
    obtain ⟨fd', f⟩ := e
    rw [ha] at h
    rw [bind_eq_some] at h
    obtain ⟨u₁, s₁, hc, h⟩ := h
    rw [bind_eq_some] at h
    obtain ⟨u₂, s₂, hcl, h⟩ := h
    obtain ⟨rfl, rfl⟩ := pure_eq_some.mp h
    -- the descriptor's reference passes to `fileclose`, which drops it
    have hb₁ := hb.clearSlot p fd'
    rw [← clearFd_eq hc] at hb₁
    have hb₂ := hb₁.fileclose (fun _ => le_refl 0) hcl
    refine hb₂.congr (fun g => ?_) (fun _ => rfl)
    simp [argfd_some ha]

theorem sys_dup_refInv {p : ι} {fd : Nat} {x : Int} (hb : RefInv s) (hp : s.cwd p ≠ none)
    (h : sys_dup p fd s = some (x, s')) : RefInv s' := by
  unfold sys_dup at h
  rw [get_bind_eq_some] at h
  cases ha : argfd s p fd with
  | none =>
    rw [ha] at h
    obtain ⟨rfl, rfl⟩ := pure_eq_some.mp h
    exact hb
  | some e =>
    obtain ⟨fd', f⟩ := e
    rw [ha] at h
    rw [bind_eq_some] at h
    obtain ⟨r, s₁, hfd, h⟩ := h
    rcases fdalloc_spec hfd with ⟨rfl, rfl⟩ | ⟨fd₂, rfl, hfree, rfl⟩
    · obtain ⟨rfl, rfl⟩ := pure_eq_some.mp h
      exact hb
    · -- the new descriptor takes the reference `filedup` adds
      rw [bind_eq_some] at h
      obtain ⟨u₂, s₂, hdup, h⟩ := h
      obtain ⟨rfl, rfl⟩ := pure_eq_some.mp h
      have hb₁ := hb.setSlot hp hfree (f := f)
      have hb₂ := hb₁.filedup hdup
      exact hb₂.congr (fun g => by simp) (fun _ => rfl)

omit [Fintype ι] [DecidableEq ι] in
/-- The inode `open` looks up: one reference to it, or none. -/
theorem openInode_ref {cwd : Nat} {path : Path} {omode : Int32} {r : Option Nat} {s₁ : FsSys ι}
    (h : (if omode &&& O_CREATE ≠ 0 then onInodes (create cwd path T_FILE)
      else onInodes do
        match ← namei path cwd with
        | none => pure none
        | some ip =>
          ilock ip
          if ((← get).ino ip).type = T_DIR ∧ omode ≠ O_RDONLY then
            iput ip
            pure none
          else pure (some ip) : SysM ι (Option Nat)) s = some (r, s₁)) :
    ∃ t₁ : Itable, s₁ = { s with itable := t₁ } ∧ ∀ i, t₁.ref i = s.itable.ref i + hold r i := by
  rcases ite_eq_some.mp h with ⟨-, h⟩ | ⟨-, h⟩
  · obtain ⟨t₁, hc, rfl⟩ := onInodes_eq_some.mp h
    exact ⟨t₁, rfl, create_ref hc⟩
  · obtain ⟨t₁, hx, rfl⟩ := onInodes_eq_some.mp h
    refine ⟨t₁, rfl, fun i => ?_⟩
    rw [bind_eq_some] at hx
    obtain ⟨r₁, t₂, hn, hx⟩ := hx
    have h₂ := namei_ref hn i
    cases r₁ with
    | none =>
      obtain ⟨rfl, rfl⟩ := pure_eq_some.mp hx
      simpa using h₂
    | some ip =>
      dsimp only at hx
      rw [bind_eq_some] at hx
      obtain ⟨u₃, t₃, hl, hx⟩ := hx
      have h₃ := ilock_ref hl
      rw [get_bind_eq_some] at hx
      rcases ite_eq_some.mp hx with ⟨-, hx⟩ | ⟨-, hx⟩
      · -- a directory opened for writing: put back
        rw [bind_eq_some] at hx
        obtain ⟨u₄, t₄, hp, hx⟩ := hx
        obtain ⟨rfl, rfl⟩ := pure_eq_some.mp hx
        have := iput_ref hp (by rw [h₃, namei_ref hn ip]; simp) i
        rw [h₃] at this
        simp only [hold_none]
        omega
      · obtain ⟨rfl, rfl⟩ := pure_eq_some.mp hx
        rw [h₃, h₂]

theorem sys_open_refInv {p : ι} {cwd : Nat} {path : Path} {omode : Int32} {x : Int}
    (hb : RefInv s) (hp : s.cwd p ≠ none) (h : sys_open p cwd path omode s = some (x, s')) :
    RefInv s' := by
  unfold sys_open at h
  rw [bind_eq_some] at h
  obtain ⟨r₁, s₁, hip, h⟩ := h
  obtain ⟨t₁, rfl, h₁⟩ := openInode_ref hip
  have hb₁ := hb.itable (δ := fun i => (hold r₁ i : Int)) (fun i => by rw [h₁]; push_cast; rfl)
  cases r₁ with
  | none =>
    obtain ⟨rfl, rfl⟩ := pure_eq_some.mp h
    exact hb₁.congr (fun _ => rfl) (fun _ => by simp)
  | some ip =>
    -- from here `open` holds a reference to `ip`
    dsimp only at h
    rw [bind_eq_some] at h
    obtain ⟨r₂, s₂, hfa, h⟩ := h
    have hb₂ := hb₁.filealloc hfa
    cases r₂ with
    | none =>
      -- no file: the inode is put back
      dsimp only at h
      rw [bind_eq_some] at h
      obtain ⟨u₃, s₃, hput, h⟩ := h
      obtain ⟨rfl, rfl⟩ := pure_eq_some.mp h
      have hb₃ := hb₂.iput (by simp) hput
      exact hb₃.congr (fun g => by simp) (fun i => by simp)
    | some f =>
      dsimp only at h
      have hf₂ : (s₂.file f).type = .none ∧ (s₂.file f).ref = 1 := by
        obtain ⟨-, -, -, hg₂⟩ := filealloc_spec hfa
        obtain ⟨hty, -, href, hfree⟩ := hg₂ f
        have h0 : (s.file f).ref = 0 := hfree rfl
        refine ⟨?_, by simp [href, h0]⟩
        rw [hty]
        exact hb.closed f h0
      have hp₂ : s₂.cwd p ≠ none := by rw [(filealloc_spec hfa).2.1]; exact hp
      rw [bind_eq_some] at h
      obtain ⟨r₃, s₃, hfd, h⟩ := h
      rcases fdalloc_spec hfd with ⟨rfl, rfl⟩ | ⟨fd, rfl, hfree, rfl⟩
      · -- no descriptor: the file is closed and the inode put back
        dsimp only at h
        rw [bind_eq_some] at h
        obtain ⟨u₄, s₄, hcl, h⟩ := h
        have hb₄ := hb₂.fileclose (fun i => by simp) hcl
        rw [bind_eq_some] at h
        obtain ⟨u₅, s₅, hput, h⟩ := h
        obtain ⟨rfl, rfl⟩ := pure_eq_some.mp h
        have hb₅ := hb₄.iput (by simp) hput
        exact hb₅.congr (fun g => by simp) (fun i => by simp)
      · -- the descriptor takes the file's reference, and the file the inode's
        dsimp only at h
        rw [bind_eq_some] at h
        obtain ⟨u₄, s₄, hset, h⟩ := h
        obtain ⟨rfl, rfl⟩ := pure_eq_some.mp h
        rw [modify_eq_some.mp hset]
        have hb₃ := hb₂.setSlot hp₂ hfree (f := f)
        exact (hb₃.setInode (f := f) hf₂.1 (by simp [hf₂.2])).congr (fun g => by simp)
          (fun i => by simp)

omit [DecidableEq ι] in
/-- A file `filealloc` returns was free: `FD_NONE`, and now with one reference. -/
theorem Bal.filealloc_some (hb : Bal s df di) {f : Fin NFILE}
    (h : Xv6.filealloc s = some (some f, s')) :
    (s'.file f).type = .none ∧ (s'.file f).ref = 1 := by
  obtain ⟨-, -, -, hg⟩ := filealloc_spec h
  obtain ⟨hty, -, href, hfree⟩ := hg f
  have h0 : (s.file f).ref = 0 := hfree rfl
  refine ⟨?_, by simp [href, h0]⟩
  rw [hty]
  exact hb.closed f h0

theorem sys_pipe_refInv {p : ι} {ok : Bool} {x : Int} (hb : RefInv s) (hp : s.cwd p ≠ none)
    (h : sys_pipe p ok s = some (x, s')) : RefInv s' := by
  unfold sys_pipe at h
  rw [bind_eq_some] at h
  obtain ⟨r₁, s₁, hfa, h⟩ := h
  have hb₁ := hb.filealloc hfa
  cases r₁ with
  | none =>
    dsimp only at h
    rw [bind_eq_some] at h
    obtain ⟨r₂, s₂, hpure, h⟩ := h
    obtain ⟨rfl, rfl⟩ := pure_eq_some.mp hpure
    obtain ⟨rfl, rfl⟩ := pure_eq_some.mp h
    exact hb₁.congr (fun _ => by simp) (fun _ => rfl)
  | some rf =>
    dsimp only at h
    rw [bind_eq_some] at h
    obtain ⟨r₂, s₂, hfa', h⟩ := h
    have hrf₁ := hb.filealloc_some hfa
    have hb₂ := hb₁.filealloc hfa'
    have hc₂ : s₂.cwd = s.cwd := by rw [(filealloc_spec hfa').2.1, (filealloc_spec hfa).2.1]
    cases r₂ with
    | none =>
      -- no second file: the first is closed
      dsimp only at h
      rw [bind_eq_some] at h
      obtain ⟨u₃, s₃, hcl, h⟩ := h
      obtain ⟨rfl, rfl⟩ := pure_eq_some.mp h
      exact (hb₂.fileclose (fun _ => le_refl 0) hcl).congr (fun g => by simp) (fun _ => rfl)
    | some wf =>
      have hwf₂ := hb₁.filealloc_some hfa'
      -- the second file was free when the first was not
      have hne : rf ≠ wf := by
        obtain ⟨-, -, -, hg⟩ := filealloc_spec hfa'
        intro e
        subst e
        have := (hg rf).2.2.2 rfl
        omega
      have hrf₂ : (s₂.file rf).type = .none ∧ (s₂.file rf).ref = 1 := by
        obtain ⟨-, -, -, hg⟩ := filealloc_spec hfa'
        obtain ⟨hty, -, href, -⟩ := hg rf
        rw [hty, href, hold_of_ne (Ne.symm hne)]
        exact ⟨hrf₁.1, hrf₁.2⟩
      dsimp only at h
      -- both files are closed on every failure
      have hclose : ∀ {s₃ s₄ : FsSys ι},
          Bal s₃ (fun g => hold (some rf) g + hold (some wf) g) (fun _ => 0) →
          (fileclose rf >>= fun _ => fileclose wf >>= fun _ => pure (-1 : Int)) s₃ =
            some (x, s₄) → RefInv s₄ := by
        intro s₃ s₄ hb₃ h
        rw [bind_eq_some] at h
        obtain ⟨u₄, s₅, hcl, h⟩ := h
        rw [bind_eq_some] at h
        obtain ⟨u₅, s₆, hcl', h⟩ := h
        obtain ⟨rfl, rfl⟩ := pure_eq_some.mp h
        have hb₅ := hb₃.fileclose (fun _ => le_refl 0) hcl
        have hb₆ := hb₅.fileclose (fun _ => le_refl 0) hcl'
        exact hb₆.congr (fun g => by simp) (fun _ => rfl)
      have hb₂' : Bal s₂ (fun g => hold (some rf) g + hold (some wf) g) (fun _ => 0) :=
        hb₂.congr (fun g => by simp) (fun _ => rfl)
      rcases ite_eq_some.mp h with ⟨hok, h⟩ | ⟨hok, h⟩
      · -- `kalloc` found the pipe: both files become `FD_PIPE`
        rw [bind_eq_some] at h
        obtain ⟨u₃, s₃, hset, h⟩ := h
        rw [modify_eq_some.mp hset] at h
        have hb₃ := (hb₂'.setPipe hrf₂.1 (by simp [hrf₂.2])).setPipe (f := wf)
          (by simp [Function.update_of_ne (Ne.symm hne), hwf₂.1])
          (by simp [Function.update_of_ne (Ne.symm hne), hwf₂.2])
        rw [bind_eq_some] at h
        obtain ⟨r₄, s₄, hfd, h⟩ := h
        rcases fdalloc_spec hfd with ⟨rfl, rfl⟩ | ⟨fd₀, rfl, hfree, rfl⟩
        · exact hclose hb₃ h
        · have hb₄ := hb₃.setSlot (p := p) (by simpa [hc₂] using hp) hfree (f := rf)
          dsimp only at h
          rw [bind_eq_some] at h
          obtain ⟨r₅, s₅, hfd', h⟩ := h
          rcases fdalloc_spec hfd' with ⟨rfl, rfl⟩ | ⟨fd₁, rfl, hfree', rfl⟩
          · -- no second descriptor: the first is given back
            dsimp only at h
            rw [bind_eq_some] at h
            obtain ⟨u₆, s₆, hc, h⟩ := h
            rw [clearFd_eq hc] at h
            have hb₆ := hb₄.clearSlot p fd₀
            refine hclose (hb₆.congr (fun g => ?_) (fun _ => rfl)) h
            simp only [Function.update_self]
            omega
          · obtain ⟨rfl, rfl⟩ := pure_eq_some.mp h
            have hb₅ := hb₄.setSlot (p := p) (by simpa [hc₂] using hp) hfree' (f := wf)
            exact hb₅.congr (fun g => by simp) (fun _ => rfl)
      · exact hclose hb₂' h

theorem sys_chdir_refInv {p : ι} {cwd : Nat} {path : Path} {x : Int} (hb : RefInv s)
    (hc : s.cwd p = some cwd) (h : sys_chdir p cwd path s = some (x, s')) : RefInv s' := by
  unfold sys_chdir at h
  rw [bind_eq_some] at h
  obtain ⟨r₁, s₁, hn, h⟩ := h
  obtain ⟨t₁, hn', rfl⟩ := onInodes_eq_some.mp hn
  have hb₁ := hb.itable (δ := fun i => (hold r₁ i : Int))
    (fun i => by rw [namei_ref hn' i]; push_cast; rfl)
  cases r₁ with
  | none =>
    obtain ⟨rfl, rfl⟩ := pure_eq_some.mp h
    exact hb₁.congr (fun _ => rfl) (fun _ => by simp)
  | some ip =>
    -- from here `chdir` holds a reference to `ip`
    dsimp only at h
    rw [bind_eq_some] at h
    obtain ⟨u₂, s₂, hl, h⟩ := h
    have hb₂ := hb₁.keep hl (fun _ ht => ilock_ref ht)
    obtain ⟨t₂, -, rfl⟩ := onInodes_eq_some.mp hl
    rw [get_bind_eq_some] at h
    rcases ite_eq_some.mp h with ⟨-, h⟩ | ⟨-, h⟩
    · -- not a directory: put back
      rw [bind_eq_some] at h
      obtain ⟨u₃, s₃, hp, h⟩ := h
      obtain ⟨rfl, rfl⟩ := pure_eq_some.mp h
      exact (hb₂.iput (by simp) hp).congr (fun _ => rfl) (fun _ => by simp)
    · -- the old directory is put back, and the process takes the reference to `ip`
      rw [bind_eq_some] at h
      obtain ⟨u₃, s₃, hp, h⟩ := h
      have hb₃ := hb₂.iputRef (hb₂.cwd_ref_pos hc (by simp)) hp
      obtain ⟨t₃, -, rfl⟩ := onInodes_eq_some.mp hp
      rw [bind_eq_some] at h
      obtain ⟨u₄, s₄, hset, h⟩ := h
      obtain ⟨rfl, rfl⟩ := pure_eq_some.mp h
      rw [modify_eq_some.mp hset]
      have hb₄ := hb₃.setCwd p (some ip) (fun h => by cases h)
      refine hb₄.congr (fun _ => rfl) (fun i => ?_)
      simp only [hc]
      omega

/-- `fork`: the child's descriptors take the references the loop of `filedup` added, and its
current directory the one of `idup`. -/
theorem forkFiles_refInv {p q : ι} {cwd : Nat} {u : Unit} (hb : RefInv s) (hq : s.cwd q = none)
    (h : forkFiles p q cwd s = some (u, s')) : RefInv s' := by
  unfold forkFiles at h
  rw [bind_eq_some] at h
  obtain ⟨u₁, s₁, hloop, h⟩ := h
  -- the loop holds one reference for each descriptor of `p` passed so far
  obtain ⟨ho, hc, hb₁⟩ := forIn_inv (fun l _ t => t.ofile = s.ofile ∧ t.cwd = s.cwd ∧
      Bal t (fun g => (((List.finRange NOFILE).countP fun fd => s.ofile p fd = some g : Nat) : Int) -
        (l.countP fun fd => s.ofile p fd = some g : Nat)) (fun _ => 0))
    (fun fd l _ t r t' hI hr => by
      obtain ⟨ho, hc, hbt⟩ := hI
      left
      rw [get_bind_eq_some] at hr
      cases hf : t.ofile p fd with
      | none =>
        rw [hf] at hr
        obtain ⟨rfl, rfl⟩ := pure_eq_some.mp hr
        refine ⟨_, rfl, ho, hc, hbt.congr (fun g => ?_) (fun _ => rfl)⟩
        rw [countP_cons_hold, ← ho, hf, hold_none]
        simp
      | some f =>
        rw [hf] at hr
        dsimp only at hr
        rw [bind_eq_some] at hr
        obtain ⟨u₂, t₂, hdup, hr⟩ := hr
        obtain ⟨rfl, rfl⟩ := pure_eq_some.mp hr
        obtain ⟨ho₂, hc₂, -⟩ := filedup_spec hdup
        refine ⟨_, rfl, ho₂.trans ho, hc₂.trans hc,
          (hbt.filedup hdup).congr (fun g => ?_) (fun _ => rfl)⟩
        rw [countP_cons_hold, ← ho, hf]
        push_cast
        ring)
    ⟨rfl, rfl, hb.congr (fun _ => by simp) (fun _ => rfl)⟩ hloop
  rw [bind_eq_some] at h
  obtain ⟨u₂, s₂, hd, h⟩ := h
  obtain ⟨t₂, hd', rfl⟩ := onInodes_eq_some.mp hd
  have hb₂ := hb₁.itable (δ := fun i => (hold (some cwd) i : Int))
    (fun i => by rw [idup_ref hd' i]; push_cast; rfl)
  rw [modify_eq_some.mp h]
  refine (hb₂.forkCopy (p := p) (q := q) (by simp [hc, hq])).congr (fun g => ?_) (fun i => by simp)
  simp [ho, Count.countP_finRange]

/-- `exit`: each descriptor's reference goes to `fileclose`, and the current directory's to
`iput`. -/
theorem exitFiles_refInv {p : ι} {cwd : Nat} {u : Unit} (hb : RefInv s) (hc : s.cwd p = some cwd)
    (h : exitFiles p cwd s = some (u, s')) : RefInv s' := by
  unfold exitFiles at h
  rw [bind_eq_some] at h
  obtain ⟨u₁, s₁, hloop, h⟩ := h
  -- the loop closes every descriptor it passes
  obtain ⟨hc₁, hb₁, hclosed⟩ := forIn_inv (fun l _ t => t.cwd = s.cwd ∧ RefInv t ∧
      ∀ fd, fd ∉ l → t.ofile p fd = none)
    (fun fd l _ t r t' hI hr => by
      obtain ⟨hc, hbt, hcl⟩ := hI
      left
      rw [get_bind_eq_some] at hr
      cases hf : t.ofile p fd with
      | none =>
        rw [hf] at hr
        obtain ⟨rfl, rfl⟩ := pure_eq_some.mp hr
        refine ⟨_, rfl, hc, hbt, fun fd' hfd' => ?_⟩
        by_cases he : fd' = fd
        · rw [he, hf]
        · exact hcl fd' (by simp [he, hfd'])
      | some f =>
        rw [hf] at hr
        dsimp only at hr
        rw [bind_eq_some] at hr
        obtain ⟨u₂, t₂, hcl₂, hr⟩ := hr
        rw [bind_eq_some] at hr
        obtain ⟨u₃, t₃, hfd, hr⟩ := hr
        obtain ⟨rfl, rfl⟩ := pure_eq_some.mp hr
        obtain ⟨ho₂, hc₂, -⟩ := fileclose_spec hcl₂ (fun hino => by
          have := inodeFileCount_pos hino
          have := hbt.inode_ref (t.file f).ip
          omega)
        have hb₂ := hbt.fileclose (fun _ => le_refl 0) hcl₂
        have hb₃ := hb₂.clearSlot p fd
        rw [clearFd_eq hfd]
        refine ⟨_, rfl, hc₂.trans hc, hb₃.congr (fun g => ?_) (fun _ => rfl), fun fd' hfd' => ?_⟩
        · simp [ho₂, hf]
        · by_cases he : fd' = fd
          · simp [he]
          · simp only [Function.update_self, Function.update_of_ne he, ho₂]
            exact hcl fd' (by simp [he, hfd']))
    ⟨rfl, hb, fun fd h => absurd (List.mem_finRange fd) h⟩ hloop
  rw [bind_eq_some] at h
  obtain ⟨u₂, s₂, hp, h⟩ := h
  have hc₁' : s₁.cwd p = some cwd := by rw [hc₁, hc]
  have hb₂ := hb₁.iputRef (hb₁.cwd_ref_pos hc₁' le_rfl) hp
  obtain ⟨t₂, -, rfl⟩ := onInodes_eq_some.mp hp
  rw [modify_eq_some.mp h]
  have hb₃ := hb₂.setCwd p none (fun _ fd => hclosed fd (List.not_mem_nil))
  refine hb₃.congr (fun _ => rfl) (fun i => ?_)
  simp [hc₁, hc]

/-- Every system call of a process with a current directory keeps the counts exact. -/
theorem fsCall_refInv {p : ι} {cwd : Nat} {c : FsCall ι} {u : Unit} (hb : RefInv s)
    (hc : s.cwd p = some cwd) (h : fsCall p cwd c s = some (u, s')) : RefInv s' := by
  have hp : s.cwd p ≠ none := by simp [hc]
  cases c with
  | «open» path omode =>
    obtain ⟨x, hx⟩ := discard_eq_some.mp h
    exact sys_open_refInv hb hp hx
  | close fd =>
    obtain ⟨x, hx⟩ := discard_eq_some.mp h
    exact sys_close_refInv hb hx
  | dup fd =>
    obtain ⟨x, hx⟩ := discard_eq_some.mp h
    exact sys_dup_refInv hb hp hx
  | pipe ok =>
    obtain ⟨x, hx⟩ := discard_eq_some.mp h
    exact sys_pipe_refInv hb hp hx
  | mkdir path =>
    obtain ⟨x, hx⟩ := discard_eq_some.mp h
    exact hb.keep hx (fun _ ht => sys_mkdir_ref ht)
  | mknod path =>
    obtain ⟨x, hx⟩ := discard_eq_some.mp h
    exact hb.keep hx (fun _ ht => sys_mknod_ref ht)
  | link old new =>
    obtain ⟨x, hx⟩ := discard_eq_some.mp h
    exact hb.keep hx (fun _ ht => sys_link_ref ht)
  | unlink path =>
    obtain ⟨x, hx⟩ := discard_eq_some.mp h
    exact hb.keep hx (fun _ ht => sys_unlink_ref ht)
  | chdir path =>
    obtain ⟨x, hx⟩ := discard_eq_some.mp h
    exact sys_chdir_refInv hb hc hx
  | exec path => exact hb.keep h (fun _ ht => execInode_ref ht)
  | fork q =>
    -- `fork` needs a free slot for the child
    unfold fsCall at h
    rw [get_bind_eq_some] at h
    dsimp only at h
    rcases ite_eq_some.mp h with ⟨-, h⟩ | ⟨hq, h⟩
    · exact absurd h failure_bind_ne_some
    · exact forkFiles_refInv hb (by simpa using hq) h
  | exit => exact exitFiles_refInv hb hc h

theorem fsStep_refInv {e : ι × FsCall ι} (hb : RefInv s) (h : fsStep s e = some s') :
    RefInv s' := by
  obtain ⟨p, c⟩ := e
  unfold fsStep at h
  cases hc : s.cwd p with
  | none => simp [hc] at h
  | some cwd =>
    simp only [hc] at h
    obtain ⟨⟨u, s''⟩, hx, rfl⟩ := Option.map_eq_some_iff.mp h
    exact fsCall_refInv hb hc hx

/-- The image `mkfs` writes, with `initproc`'s current directory the only reference. -/
theorem fsInit_refInv (names : List Name) (init : ι) : RefInv (fsInit names init) where
  file_ref f := by simp [fsInit, fdCount]
  inode_ref i := by
    have hcwd := cwdCount_update (fun _ => none) init (some ROOTINO) i
    have h0 : cwdCount (fun _ : ι => (none : Option Nat)) i = 0 := by simp [cwdCount]
    rw [h0, hold_none, Nat.add_zero, Nat.zero_add] at hcwd
    simp only [fsInit, inodeFileCount, update_ref_apply, reduceCtorEq, false_and,
      Finset.filter_false, Finset.card_empty, Nat.cast_zero, zero_add, add_zero]
    rw [hcwd, hold]
    by_cases hi : ROOTINO = i <;> simp [hi]
  closed f _ := rfl
  idle _ _ _ := rfl

/-- Along every run of the system calls, between two calls, the counts are exact. -/
theorem refInv_run {names : List Name} {init : ι} {es : List (ι × FsCall ι)} {s : FsSys ι}
    (h : Run.run fsStep (fsInit names init) es = some s) : RefInv s :=
  Run.run_inv RefInv (fun _ _ _ hb hs => fsStep_refInv hb hs) es _ s (fsInit_refInv names init) h

end Calls

/-! ## Every run -/

section Runs

open Finset

/-- Along every run of the system calls from the image, between two calls: each file's `ref` is
the number of descriptors that point to it, where a slot with no process has none; each inode's
`ref` is the number of open `FD_INODE` files on it and of processes in it; and a file with no
reference is free. -/
theorem file_inode_refs_exact {ι : Type} [Fintype ι] [DecidableEq ι] {names : List Name}
    {init : ι} {es : List (ι × FsCall ι)} {s : FsSys ι}
    (h : Run.run fsStep (fsInit names init) es = some s) :
    (∀ f, (s.file f).ref = ∑ p, #{fd | s.ofile p fd = some f}) ∧
      (∀ p, s.cwd p = none → ∀ fd, s.ofile p fd = none) ∧
      (∀ i, s.itable.ref i =
        #{f | (s.file f).type = .inode ∧ (s.file f).ip = i} + #{p | s.cwd p = some i}) ∧
      (∀ f, (s.file f).ref = 0 → (s.file f).type = .none) := by
  have hb := refInv_run h
  refine ⟨fun f => ?_, hb.idle, fun i => ?_, hb.closed⟩
  · have := hb.file_ref f
    rw [add_zero] at this
    exact_mod_cast this
  · have := hb.inode_ref i
    rw [add_zero] at this
    exact_mod_cast this

/-- `open /f` for reading, `close` of it, and `pipe`. -/
def stalePipeRun : List (Fin NPROC × FsCall (Fin NPROC)) :=
  [(0, .open ⟨true, [[102]]⟩ O_RDONLY), (0, .close 0), (0, .pipe true)]

theorem stalePipeRun_inode_refs :
    ∃ s, Run.run fsStep (fsInit [[102]] (0 : Fin NPROC)) stalePipeRun = some s ∧
      s.itable.ref 2 =
        #{f | (s.file f).type = .inode ∧ (s.file f).ip = 2} + #{p | s.cwd p = some 2} := by
  obtain ⟨s, hs⟩ : ∃ s, Run.run fsStep (fsInit [[102]] (0 : Fin NPROC)) stalePipeRun = some s :=
    Option.isSome_iff_exists.mp (by decide +kernel)
  exact ⟨s, hs, (file_inode_refs_exact hs).2.2.1 2⟩

/-- After the `close`, the first file still names the inode of `f` (inode `2`), and `pipe` takes it as
it is for the read end: an open `FD_PIPE` file whose `ip` is an inode no one holds, so counting
every file structure whose `ip` points to an inode overcounts it. -/
theorem pipe_reuses_stale_ip :
    ∃ s, Run.run fsStep (fsInit [[102]] (0 : Fin NPROC)) stalePipeRun = some s ∧
      (s.file ⟨0, by decide⟩).type = .pipe ∧ (s.file ⟨0, by decide⟩).ref = 1 ∧ (s.file ⟨0, by decide⟩).ip = 2 ∧ s.itable.ref 2 = 0 ∧
      s.itable.ref 2 ≠ #{f | (s.file f).ip = 2} + #{p | s.cwd p = some 2} := by
  obtain ⟨s, hs⟩ : ∃ s, Run.run fsStep (fsInit [[102]] (0 : Fin NPROC)) stalePipeRun = some s :=
    Option.isSome_iff_exists.mp (by decide +kernel)
  have h : (Run.run fsStep (fsInit [[102]] (0 : Fin NPROC)) stalePipeRun).map
      (fun s => ((s.file ⟨0, by decide⟩).type, (s.file ⟨0, by decide⟩).ref, (s.file ⟨0, by decide⟩).ip, s.itable.ref 2)) =
      some (.pipe, 1, 2, 0) := by
    decide +kernel
  rw [hs] at h
  simp only [Option.map_some, Option.some.injEq, Prod.mk.injEq] at h
  obtain ⟨hty, href, hip, hi⟩ := h
  refine ⟨s, hs, hty, href, hip, hi, ?_⟩
  have hstale : 1 ≤ #{f | (s.file f).ip = 2} := Finset.card_pos.mpr ⟨⟨0, by decide⟩, by simp [hip]⟩
  omega

end Runs

end Xv6
