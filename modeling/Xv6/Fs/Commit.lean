import Mathlib.Data.List.GetD
import Xv6.Lib.WriteProg

/-!
# `commit()` and `recover_from_log()` on the disk

The disk is a map from block numbers to contents, each `bwrite` replacing one block atomically, in
the order the code issues them. `commit()` writes the log blocks, the header (the commit point), the
home blocks, and an empty header; `recover_from_log()` at boot reads the header and does the last
two steps again. A crash may stop either after any prefix of its writes.

The header block is read by `read_head` (`get`) and written by `write_head` into the buffer it
holds (`put`); all the proofs need is that a header read back is the one written (`hget`).

* `writeLog_clean`, `writeLog_logged` : the log blocks are written while the header is empty;
* `installTrans_logged`, `installTrans_holds` : installing keeps the log and fills the home blocks;
* `tail_good`, `recoverFromLog_good`, `crashedBoots_good` : every crash point of the install and of
  recovery leaves a disk recovery can finish;
* `commit_crash_recover` : after a crash anywhere in `commit()` and any number of interrupted
  recoveries, a completed recovery leaves every logged home block with its old contents or every one
  with the new, and an empty header.
-/

namespace Xv6

open WriteProg

/-- `struct logheader` as `read_head` and `write_head` see it: `n` and the block numbers. -/
structure LogHeader where
  n : Nat
  block : List Nat
  deriving DecidableEq, Repr

section Disk

variable {β : Type} (get : β → LogHeader) (put : β → LogHeader → β)

/-- `write_head()`: the header buffer gets `n` and the first `n` block numbers. -/
def writeHead (start : Nat) (lh : LogHeader) : Write Nat β :=
  ⟨start, fun d => put (d start) ⟨lh.n, lh.block.take lh.n⟩⟩

/-- `write_log()` at `tail`: log block `tail + 1` gets the cached contents of `lh.block[tail]`. -/
def writeLogAt (start : Nat) (lh : LogHeader) (cache : Nat → β) (tail : Nat) : Write Nat β :=
  ⟨start + tail + 1, fun _ => cache (lh.block.getD tail 0)⟩

def writeLog (start : Nat) (lh : LogHeader) (cache : Nat → β) : List (Write Nat β) :=
  (List.range lh.n).map (writeLogAt start lh cache)

/-- `install_trans()` at `tail`: home block `lh.block[tail]` gets the contents of log block
`tail + 1`. -/
def installAt (start : Nat) (lh : LogHeader) (tail : Nat) : Write Nat β :=
  ⟨lh.block.getD tail 0, fun d => d (start + tail + 1)⟩

def installTrans (start : Nat) (lh : LogHeader) : List (Write Nat β) :=
  (List.range lh.n).map (installAt start lh)

/-- The block writes of `commit()` for the in-memory header `lh`, in order. -/
def commit (start : Nat) (lh : LogHeader) (cache : Nat → β) : List (Write Nat β) :=
  if 0 < lh.n then
    writeLog start lh cache ++ [writeHead put start lh] ++
      (installTrans start lh ++ [writeHead put start { lh with n := 0 }])
  else []

/-- The block writes of `recover_from_log()` on the disk `d`: after `read_head`, `install_trans`
and the `write_head` of `log.lh.n = 0`. -/
def recoverFromLog (start : Nat) (d : Nat → β) : List (Write Nat β) :=
  installTrans start (get (d start)) ++ [writeHead put start { get (d start) with n := 0 }]

/-- Boots whose recovery crashes after `k` writes, for each `k` of `ks` in turn. -/
def crashedBoots (start : Nat) (ks : List Nat) (d : Nat → β) : Nat → β :=
  ks.foldl (fun d k => run ((recoverFromLog get put start d).take k) d) d

/-- Those boots, then one whose recovery completes. -/
def recoverAfter (start : Nat) (ks : List Nat) (d : Nat → β) : Nat → β :=
  run (recoverFromLog get put start (crashedBoots get put start ks d))
    (crashedBoots get put start ks d)

/-! ## The states a crash can leave -/

variable (start : Nat) (lh : LogHeader) (cache d0 : Nat → β)

/-- The logged home blocks hold the contents `e` gives them. -/
def Holds (d e : Nat → β) : Prop := ∀ b ∈ lh.block.take lh.n, d b = e b

/-- The transaction is committed on disk: the header names its blocks and the log blocks hold their
cached contents. -/
def Logged (d : Nat → β) : Prop :=
  get (d start) = ⟨lh.n, lh.block.take lh.n⟩ ∧
    ∀ i < lh.n, d (start + i + 1) = cache (lh.block.getD i 0)

/-- What a crash may leave: an empty header with the home blocks all old or all new, or the
committed transaction. -/
def Good (d : Nat → β) : Prop :=
  ((get (d start)).n = 0 ∧ (Holds lh d d0 ∨ Holds lh d cache)) ∨ Logged get start lh cache d

end Disk

/-! ## Where each write lands -/

section Proofs

variable {β : Type} {get : β → LogHeader} {put : β → LogHeader → β} {start : Nat}
  {lh : LogHeader} {cache d0 : Nat → β}

theorem getD_mem_take (hlen : lh.n ≤ lh.block.length) {i : Nat} (hi : i < lh.n) :
    lh.block.getD i 0 ∈ lh.block.take lh.n := by
  have hlt : i < (lh.block.take lh.n).length := by simp; omega
  have hmem := List.getElem_mem hlt
  rw [List.getElem_take] at hmem
  rwa [List.getD_eq_getElem _ _ (by omega)]

/-- Every logged home block is some `lh.block[i]` with `i < n`. -/
theorem exists_getD_of_mem_take {b : Nat} (hb : b ∈ lh.block.take lh.n) :
    ∃ i < lh.n, lh.block.getD i 0 = b := by
  obtain ⟨i, hi, rfl⟩ := List.getElem_of_mem hb
  simp only [List.length_take] at hi
  refine ⟨i, by omega, ?_⟩
  rw [List.getD_eq_getElem _ _ (by omega), List.getElem_take]

/-- A logged home block is neither the header nor one of the `n` log blocks. -/
theorem home_ne_log (hdisj : ∀ b ∈ lh.block.take lh.n, b < start ∨ start + lh.n < b) {b j : Nat}
    (hb : b ∈ lh.block.take lh.n) (hj : j ≤ lh.n) : b ≠ start + j := by
  rcases hdisj b hb with h | h <;> omega

/-- `write_log` names only log blocks. -/
theorem writeLog_addr {cache : Nat → β} {w : Write Nat β} (hw : w ∈ writeLog start lh cache) :
    ∃ i < lh.n, w.addr = start + i + 1 := by
  obtain ⟨i, hi, rfl⟩ := List.mem_map.mp hw
  exact ⟨i, List.mem_range.mp hi, rfl⟩

@[simp] theorem writeLog_length : (writeLog start lh cache).length = lh.n := by
  simp [writeLog]

@[simp] theorem installTrans_length : (installTrans start lh : List (Write Nat β)).length = lh.n := by
  simp [installTrans]

/-- `read_head` after `write_head` gets the header written. -/
theorem writeHead_get (hget : ∀ b h, h.block.length = h.n → get (put b h) = h) (h : LogHeader)
    (hh : h.n ≤ h.block.length) (d : Nat → β) :
    get ((writeHead put start h).apply d start) = ⟨h.n, h.block.take h.n⟩ := by
  show get ((writeHead put start h).apply d (writeHead put start h).addr) = _
  rw [Write.apply_addr]
  exact hget _ _ (by simp; omega)

/-- The header write leaves the logged home blocks alone. -/
theorem holds_writeHead (hdisj : ∀ b ∈ lh.block.take lh.n, b < start ∨ start + lh.n < b)
    (h : LogHeader) {d e : Nat → β} (hd : Holds lh d e) :
    Holds lh ((writeHead put start h).apply d) e := by
  intro b hb
  have := home_ne_log hdisj hb (Nat.zero_le lh.n)
  rw [Write.apply_of_ne _ _ (by simp only [writeHead]; omega)]
  exact hd b hb

/-! ## `write_log`, then the commit point -/

/-- A crash inside `write_log` leaves the header and every home block as they were. -/
theorem writeLog_clean (hdisj : ∀ b ∈ lh.block.take lh.n, b < start ∨ start + lh.n < b)
    (cache d0 : Nat → β) (k : Nat) :
    run ((writeLog start lh cache).take k) d0 start = d0 start ∧
      Holds lh (run ((writeLog start lh cache).take k) d0) d0 := by
  refine ⟨run_of_ne _ _ fun w hw => ?_, fun b hb => run_of_ne _ _ fun w hw => ?_⟩
  · obtain ⟨i, -, hi⟩ := writeLog_addr (List.mem_of_mem_take hw)
    omega
  · obtain ⟨i, hi, hw'⟩ := writeLog_addr (List.mem_of_mem_take hw)
    have := home_ne_log hdisj hb (show i + 1 ≤ lh.n by omega)
    omega

/-- After the writes of `write_log` for the indices `is`, each of their log blocks holds the cached
contents of its home block. -/
theorem run_writeLogAt (is : List Nat) :
    ∀ (d : Nat → β), ∀ i ∈ is,
      run (is.map (writeLogAt start lh cache)) d (start + i + 1) = cache (lh.block.getD i 0) := by
  induction is with
  | nil => intro d i hi; cases hi
  | cons j is ih =>
    intro d i hi
    rw [List.map_cons, run_cons]
    by_cases hin : i ∈ is
    · exact ih _ i hin
    · -- no later write names block `start + i + 1`, and this one was index `i`
      have hij : i = j := by
        rcases List.mem_cons.mp hi with h | h
        · exact h
        · exact absurd h hin
      subst hij
      rw [run_of_ne _ _ fun w hw => ?_]
      · exact (writeLogAt start lh cache i).apply_addr d
      · obtain ⟨i', hi', rfl⟩ := List.mem_map.mp hw
        simp only [writeLogAt]
        intro h
        exact hin (by rw [show i = i' by omega]; exact hi')

/-- `write_log` and the first `write_head` commit the transaction. -/
theorem writeLog_logged (hget : ∀ b h, h.block.length = h.n → get (put b h) = h)
    (hlen : lh.n ≤ lh.block.length) :
    Logged get start lh cache (run (writeLog start lh cache ++ [writeHead put start lh]) d0) := by
  rw [run_append, run_cons, run_nil]
  refine ⟨writeHead_get hget lh hlen _, fun i hi => ?_⟩
  rw [Write.apply_of_ne _ _ (by simp only [writeHead]; omega)]
  exact run_writeLogAt _ d0 i (List.mem_range.mpr hi)

/-! ## `install_trans` from a committed disk -/

/-- An install write keeps the transaction committed: it names a home block. -/
theorem installAt_logged (hlen : lh.n ≤ lh.block.length)
    (hdisj : ∀ b ∈ lh.block.take lh.n, b < start ∨ start + lh.n < b) {tail : Nat}
    (ht : tail < lh.n) {d : Nat → β} (h : Logged get start lh cache d) :
    Logged get start lh cache ((installAt start lh tail).apply d) := by
  have hb := getD_mem_take hlen ht
  refine ⟨?_, fun i hi => ?_⟩
  · have := home_ne_log hdisj hb (Nat.zero_le _)
    rw [Write.apply_of_ne _ _ (by simp only [installAt]; omega)]
    exact h.1
  · have := home_ne_log hdisj hb (show i + 1 ≤ lh.n by omega)
    rw [Write.apply_of_ne _ _ (by simp only [installAt]; omega)]
    exact h.2 i hi

theorem installTrans_logged (hlen : lh.n ≤ lh.block.length)
    (hdisj : ∀ b ∈ lh.block.take lh.n, b < start ∨ start + lh.n < b) {d : Nat → β}
    (h : Logged get start lh cache d) (k : Nat) :
    Logged get start lh cache (run ((installTrans start lh).take k) d) := by
  refine run_invariant _ _ d (fun w hw d' hd' => ?_) h k
  obtain ⟨tail, ht, rfl⟩ := List.mem_map.mp hw
  exact installAt_logged hlen hdisj (List.mem_range.mp ht) hd'

/-- Installing the indices `is` from a committed disk gives their home blocks the cached contents,
and keeps those already given them. -/
theorem run_installAt (hlen : lh.n ≤ lh.block.length)
    (hdisj : ∀ b ∈ lh.block.take lh.n, b < start ∨ start + lh.n < b) (is : List Nat) :
    ∀ (S : List Nat) (d : Nat → β), (∀ i ∈ is, i < lh.n) → Logged get start lh cache d →
      (∀ b ∈ S, d b = cache b) →
      ∀ b ∈ S ++ is.map (lh.block.getD · 0), run (is.map (installAt start lh)) d b = cache b := by
  induction is with
  | nil => intro S d _ _ hS b hb; simpa using hS b (by simpa using hb)
  | cons j is ih =>
    intro S d his hd hS b hb
    have hj : j < lh.n := his j List.mem_cons_self
    rw [List.map_cons, run_cons]
    -- the write at `j` stores the log block, which holds the cached contents
    refine ih (S ++ [lh.block.getD j 0]) _ (fun i hi => his i (List.mem_cons_of_mem j hi))
      (installAt_logged hlen hdisj hj hd) (fun b' hb' => ?_) b (by simpa using hb)
    by_cases hbj : b' = lh.block.getD j 0
    · subst hbj
      rw [show lh.block.getD j 0 = (installAt start lh j).addr from rfl, Write.apply_addr]
      exact hd.2 j hj
    · rw [Write.apply_of_ne _ _ hbj]
      rcases List.mem_append.mp hb' with h | h
      · exact hS b' h
      · exact absurd (List.mem_singleton.mp h) hbj

theorem installTrans_holds (hlen : lh.n ≤ lh.block.length)
    (hdisj : ∀ b ∈ lh.block.take lh.n, b < start ∨ start + lh.n < b) {d : Nat → β}
    (h : Logged get start lh cache d) : Holds lh (run (installTrans start lh) d) cache := by
  intro b hb
  obtain ⟨i, hi, rfl⟩ := exists_getD_of_mem_take hb
  exact run_installAt hlen hdisj (List.range lh.n) [] d (fun i hi => List.mem_range.mp hi) h
    (fun _ h => by cases h) _ (by simpa using ⟨i, hi, rfl⟩)

/-! ## After the commit point, and at boot -/

/-- A crash after the commit point leaves a disk recovery can finish: the transaction still
committed, or an empty header over the installed blocks. -/
theorem tail_good (hget : ∀ b h, h.block.length = h.n → get (put b h) = h)
    (hlen : lh.n ≤ lh.block.length)
    (hdisj : ∀ b ∈ lh.block.take lh.n, b < start ∨ start + lh.n < b) {d : Nat → β}
    (h : Logged get start lh cache d) (k : Nat) :
    Good get start lh cache d0
      (run ((installTrans start lh ++ [writeHead put start { lh with n := 0 }]).take k) d) := by
  rw [run_take_append, installTrans_length]
  by_cases hk : k ≤ lh.n
  · rw [Nat.sub_eq_zero_of_le hk, List.take_zero, run_nil]
    exact .inr (installTrans_logged hlen hdisj h k)
  · -- the install is done, and the empty header is written
    rw [List.take_of_length_le (l := installTrans start lh) (by simp; omega),
      List.take_of_length_le (l := [writeHead put start { lh with n := 0 }]) (by simp; omega),
      run_cons, run_nil]
    refine .inl ⟨by rw [writeHead_get hget _ (Nat.zero_le _)], .inr ?_⟩
    exact holds_writeHead hdisj _ (installTrans_holds hlen hdisj h)

/-- On a committed disk, `recover_from_log` issues the writes that follow the commit point. -/
theorem recoverFromLog_of_logged {d : Nat → β} (h : Logged get start lh cache d) :
    recoverFromLog get put start d =
      installTrans start lh ++ [writeHead put start { lh with n := 0 }] := by
  rw [recoverFromLog, h.1]
  congr 1
  · -- the header read back names the same first `n` blocks
    refine List.map_congr_left fun i hi => ?_
    have hi : i < lh.n := List.mem_range.mp hi
    simp [installAt, List.getD_eq_getElem?_getD, hi]

/-- On a disk with an empty header, `recover_from_log` only writes the header again. -/
theorem recoverFromLog_of_clean {d : Nat → β} (h : (get (d start)).n = 0) :
    recoverFromLog get put start d = [writeHead put start { get (d start) with n := 0 }] := by
  simp [recoverFromLog, installTrans, h]

/-- A completed `recover_from_log` leaves an empty header, whatever the disk. -/
theorem recoverFromLog_empty (hget : ∀ b h, h.block.length = h.n → get (put b h) = h)
    (d : Nat → β) : (get (run (recoverFromLog get put start d) d start)).n = 0 := by
  rw [recoverFromLog, run_append, run_cons, run_nil, writeHead_get hget _ (Nat.zero_le _)]

/-- Every crash point of `recover_from_log` on a disk recovery can finish leaves another. -/
theorem recoverFromLog_good (hget : ∀ b h, h.block.length = h.n → get (put b h) = h)
    (hlen : lh.n ≤ lh.block.length)
    (hdisj : ∀ b ∈ lh.block.take lh.n, b < start ∨ start + lh.n < b) {d : Nat → β}
    (h : Good get start lh cache d0 d) (k : Nat) :
    Good get start lh cache d0 (run ((recoverFromLog get put start d).take k) d) := by
  rcases h with ⟨hn, hold⟩ | hlog
  · rw [recoverFromLog_of_clean hn]
    cases k with
    | zero => exact .inl ⟨hn, hold⟩
    | succ k =>
      rw [List.take_succ_cons, List.take_nil, run_cons, run_nil]
      refine .inl ⟨by rw [writeHead_get hget _ (Nat.zero_le _)], ?_⟩
      exact hold.imp (holds_writeHead hdisj _) (holds_writeHead hdisj _)
  · rw [recoverFromLog_of_logged hlog]
    exact tail_good hget hlen hdisj hlog k

/-- An empty header on a disk recovery can finish means the home blocks are all old or all new:
a committed transaction with an empty header logged no block. -/
theorem holds_of_good {d : Nat → β} (h : Good get start lh cache d0 d)
    (hn : (get (d start)).n = 0) : Holds lh d d0 ∨ Holds lh d cache := by
  rcases h with ⟨-, hold⟩ | hlog
  · exact hold
  · have hzero : lh.n = 0 := by rw [hlog.1] at hn; exact hn
    left
    intro b hb
    simp [hzero] at hb

theorem crashedBoots_good (hget : ∀ b h, h.block.length = h.n → get (put b h) = h)
    (hlen : lh.n ≤ lh.block.length)
    (hdisj : ∀ b ∈ lh.block.take lh.n, b < start ∨ start + lh.n < b) :
    ∀ (ks : List Nat) (d : Nat → β), Good get start lh cache d0 d →
      Good get start lh cache d0 (crashedBoots get put start ks d)
  | [], _, h => h
  | k :: ks, _, h => crashedBoots_good hget hlen hdisj ks _ (recoverFromLog_good hget hlen hdisj h k)

/-- Every crash point of `commit()` leaves a disk recovery can finish. -/
theorem commit_good (hget : ∀ b h, h.block.length = h.n → get (put b h) = h)
    (hlen : lh.n ≤ lh.block.length)
    (hdisj : ∀ b ∈ lh.block.take lh.n, b < start ∨ start + lh.n < b)
    (hclean : (get (d0 start)).n = 0) (k : Nat) :
    Good get start lh cache d0 (run ((commit put start lh cache).take k) d0) := by
  unfold commit
  split
  · rw [run_take_append]
    by_cases hk : k ≤ lh.n
    · -- a crash inside write_log: the header on disk is still the empty one
      rw [List.take_append_of_le_length (by simp; omega : k ≤ (writeLog start lh cache).length),
        Nat.sub_eq_zero_of_le (by simp; omega), List.take_zero, run_nil]
      obtain ⟨hhead, hhome⟩ := writeLog_clean hdisj cache d0 k
      exact .inl ⟨by rw [hhead]; exact hclean, .inl hhome⟩
    · -- past the commit point
      rw [List.take_of_length_le (l := writeLog start lh cache ++ [writeHead put start lh])
        (by simp; omega)]
      exact tail_good hget hlen hdisj (writeLog_logged hget hlen) _
  · exact .inl ⟨by simpa using hclean, .inl fun _ _ => by simp⟩

theorem commit_crash_recover (hget : ∀ b h, h.block.length = h.n → get (put b h) = h)
    (hlen : lh.n ≤ lh.block.length)
    (hdisj : ∀ b ∈ lh.block.take lh.n, b < start ∨ start + lh.n < b)
    (hclean : (get (d0 start)).n = 0) (k : Nat) (ks : List Nat) :
    (get (recoverAfter get put start ks (run ((commit put start lh cache).take k) d0) start)).n = 0 ∧
      (Holds lh (recoverAfter get put start ks (run ((commit put start lh cache).take k) d0)) d0 ∨
        Holds lh (recoverAfter get put start ks (run ((commit put start lh cache).take k) d0))
          cache) := by
  have hgood : Good get start lh cache d0
      (crashedBoots get put start ks (run ((commit put start lh cache).take k) d0)) :=
    crashedBoots_good hget hlen hdisj ks _ (commit_good hget hlen hdisj hclean k)
  unfold recoverAfter
  generalize crashedBoots get put start ks (run ((commit put start lh cache).take k) d0) = d
    at hgood ⊢
  -- the boot that completes is the crash point after the last write of recovery
  have hdone := recoverFromLog_good hget hlen hdisj hgood (recoverFromLog get put start d).length
  rw [List.take_length] at hdone
  have hn : (get (run (recoverFromLog get put start d) d start)).n = 0 := recoverFromLog_empty hget d
  exact ⟨hn, holds_of_good hdone hn⟩

/-- The disk a crash leaves between the two install writes of a two-block transaction with its
log at block 2, on a disk whose blocks hold headers: block `40` has its new contents and block
`50` its old ones. -/
def installCrash : Nat → LogHeader :=
  run ((commit (fun _ h => h) 2 ⟨2, [40, 50]⟩ fun b => ⟨b, []⟩).take 4) fun _ => ⟨0, []⟩

/-- After that crash, a boot whose recovery crashes after its first write and one that completes
leave both blocks new and the header empty. -/
theorem commit_crash_recover_two_blocks :
    installCrash 40 = ⟨40, []⟩ ∧ installCrash 50 = ⟨0, []⟩ ∧
      (recoverAfter id (fun _ h => h) 2 [1] installCrash 2).n = 0 ∧
      (Holds ⟨2, [40, 50]⟩ (recoverAfter id (fun _ h => h) 2 [1] installCrash) (fun _ => ⟨0, []⟩) ∨
        Holds ⟨2, [40, 50]⟩ (recoverAfter id (fun _ h => h) 2 [1] installCrash) fun b => ⟨b, []⟩) :=
  ⟨rfl, rfl, @commit_crash_recover LogHeader id (fun _ h => h) 2 ⟨2, [40, 50]⟩ (fun b => ⟨b, []⟩)
    (fun _ => ⟨0, []⟩) (fun _ _ _ => rfl) (by decide) (by decide) rfl 4 [1]⟩

end Proofs

end Xv6
