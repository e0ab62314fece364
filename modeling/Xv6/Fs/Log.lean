import Mathlib.Data.Fintype.Card
import Mathlib.Data.Fintype.Fin
import Xv6.Param
import Xv6.Lib.Run
import Xv6.Fs.Commit

/-!
# `begin_op`, `log_write` and `end_op`: the in-memory log

`struct log` as the three entry points see it, and the file-system operations of the processes
around it. An operation is what a process does between its `begin_op` and its `end_op`; it passes
at most `MAXOPBLOCKS` distinct blocks to `log_write`. A `panic` stops the kernel.

* `LogInv` : the in-memory header fits its array and the log region, `outstanding` counts the
  operations under way, and the only panic that can have happened is `"too big a transaction"`;
* `logInv_step`, `logInv_of_run` : every step, and so every run from `initlog`, keeps it;
* `writeLog_within_log` : `write_log` only writes inside the `log.size` blocks of the log;
* `log_write_panics_within_budget` : three operations admitted together, each within its budget,
  make `log_write` panic, with fresh blocks or with an absorbed one.
-/

namespace Xv6

open WriteProg

/-- `struct log`, the fields `begin_op`, `log_write` and `end_op` read. -/
structure Log where
  size : Nat
  outstanding : Nat
  committing : Bool
  lh : LogHeader
  deriving DecidableEq, Repr

/-- `begin_op()`: `none` while it sleeps, because a commit is under way or the log might run out. -/
def beginOp (l : Log) : Option Log :=
  if l.committing then none
  else if l.lh.n + (l.outstanding + 1) * MAXOPBLOCKS > LOGSIZE then none
  else some { l with outstanding := l.outstanding + 1 }

/-- `log_write()`: the two panics, then log absorption, where `i` is the block's first index among
the `n` logged ones, or `n`. -/
def logWrite (blockno : Nat) (l : Log) : Except String Log :=
  if l.lh.n ≥ LOGSIZE ∨ l.lh.n ≥ l.size - 1 then .error "too big a transaction"
  else if l.outstanding < 1 then .error "log_write outside of trans"
  else
    let i := (l.lh.block.take l.lh.n).idxOf blockno
    .ok { l with lh := ⟨if i = l.lh.n then l.lh.n + 1 else l.lh.n, l.lh.block.set i blockno⟩ }

/-- `end_op()`: the last operation out sets `committing`. -/
def endOp (l : Log) : Except String Log :=
  if l.committing then .error "log.committing"
  else if l.outstanding - 1 = 0 then .ok { l with outstanding := 0, committing := true }
  else .ok { l with outstanding := l.outstanding - 1 }

/-- `commit()` leaves `log.lh.n = 0`, and `end_op` then clears `committing`. -/
def commitDone (l : Log) : Log := { l with committing := false, lh := { l.lh with n := 0 } }

/-- `mkfs`: the log region has `nlog = LOGSIZE` blocks, the header included. -/
def nlog : Nat := LOGSIZE

/-- The log after `initlog()`: `log.size = sb.nlog`, and `recover_from_log` has left
`log.lh.n = 0`. -/
def initLog (size : Nat) : Log := ⟨size, 0, false, ⟨0, List.replicate LOGSIZE 0⟩⟩

/-- The log and the file-system operations under way: for each process, `none` outside
`begin_op`/`end_op`, or the distinct blocks it has passed to `log_write` since its `begin_op`. -/
structure LogSys where
  log : Log
  ops : Fin NPROC → Option (List Nat)
  panicked : Option String

inductive LogEvent
  | beginOp (p : Fin NPROC)
  | logWrite (p : Fin NPROC) (blockno : Nat)
  | endOp (p : Fin NPROC)
  | commit
  deriving DecidableEq, Repr

/-- One step of one process. After a panic no step is taken. -/
def logStep (s : LogSys) (e : LogEvent) : Option LogSys :=
  if s.panicked.isSome then none
  else
    match e with
    | .beginOp p =>
      if (s.ops p).isSome then none
      else (beginOp s.log).map fun l => { s with log := l, ops := Function.update s.ops p (some []) }
    | .logWrite p blockno =>
      match s.ops p with
      | none => none
      | some ws =>
        -- the operation keeps to `MAXOPBLOCKS` distinct blocks
        if blockno ∈ ws ∨ ws.length < MAXOPBLOCKS then
          match logWrite blockno s.log with
          | .error msg => some { s with panicked := some msg }
          | .ok l => some { s with log := l, ops := Function.update s.ops p (some (ws.insert blockno)) }
        else none
    | .endOp p =>
      match s.ops p with
      | none => none
      | some _ =>
        match endOp s.log with
        | .error msg => some { s with panicked := some msg }
        | .ok l => some { s with log := l, ops := Function.update s.ops p none }
    | .commit => if s.log.committing then some { s with log := commitDone s.log } else none

/-- The system after `initlog`, before any operation. -/
def logInit (size : Nat) : LogSys := ⟨initLog size, fun _ => none, none⟩

/-- The processes with an operation under way. -/
def active (ops : Fin NPROC → Option (List Nat)) : Finset (Fin NPROC) :=
  Finset.univ.filter fun p => (ops p).isSome

/-! ## What each entry point does -/

theorem beginOp_eq_some {l l' : Log} (h : beginOp l = some l') :
    l.committing = false ∧ l.lh.n + (l.outstanding + 1) * MAXOPBLOCKS ≤ LOGSIZE ∧
      l' = { l with outstanding := l.outstanding + 1 } := by
  unfold beginOp at h
  split_ifs at h with hc hfull
  cases h
  exact ⟨by simpa using hc, by omega, rfl⟩

/-- A `log_write` that returns: the header had room, an operation was under way, and the header
grew by at most the one block, within its array. -/
theorem logWrite_eq_ok {blockno : Nat} {l l' : Log} (h : logWrite blockno l = .ok l') :
    l.lh.n < LOGSIZE ∧ l.lh.n < l.size - 1 ∧ 1 ≤ l.outstanding ∧ l'.size = l.size ∧
      l'.outstanding = l.outstanding ∧ l'.committing = l.committing ∧ l'.lh.n ≤ l.lh.n + 1 ∧
      l'.lh.block.length = l.lh.block.length := by
  unfold logWrite at h
  split_ifs at h with hbig hout
  cases h
  refine ⟨by omega, by omega, by omega, rfl, rfl, rfl, ?_, by simp⟩
  dsimp only
  split_ifs <;> omega

theorem logWrite_eq_error {blockno : Nat} {l : Log} {msg : String}
    (h : logWrite blockno l = .error msg) :
    msg = "too big a transaction" ∨ (l.outstanding = 0 ∧ msg = "log_write outside of trans") := by
  unfold logWrite at h
  split_ifs at h with hbig hout
  · cases h
    exact .inl rfl
  · cases h
    exact .inr ⟨by omega, rfl⟩

theorem endOp_eq_ok {l l' : Log} (h : endOp l = .ok l') :
    l.committing = false ∧ l'.outstanding = l.outstanding - 1 ∧
      l'.committing = decide (l.outstanding - 1 = 0) ∧ l'.size = l.size ∧ l'.lh = l.lh := by
  unfold endOp at h
  split_ifs at h with hc hlast
  · cases h
    exact ⟨by simpa using hc, by dsimp only; omega, by simp [hlast], rfl, rfl⟩
  · cases h
    exact ⟨by simpa using hc, rfl, by simp [hlast, hc], rfl, rfl⟩

theorem endOp_eq_error {l : Log} {msg : String} (h : endOp l = .error msg) :
    l.committing = true ∧ msg = "log.committing" := by
  unfold endOp at h
  split_ifs at h with hc
  cases h
  exact ⟨hc, rfl⟩

/-! ## Counting the operations under way -/

/-- Changing one process's operation changes the count of those under way by what it was and what
it becomes. -/
theorem card_active_update (ops : Fin NPROC → Option (List Nat)) (p : Fin NPROC)
    (v : Option (List Nat)) :
    (active (Function.update ops p v)).card + (if (ops p).isSome then 1 else 0) =
      (active ops).card + (if v.isSome then 1 else 0) := by
  have hsplit : ∀ f : Fin NPROC → Option (List Nat),
      (active f).card =
        (if (f p).isSome then 1 else 0) + ((Finset.univ.erase p).filter fun q => (f q).isSome).card := by
    intro f
    rw [active, ← Finset.insert_erase (Finset.mem_univ p), Finset.filter_insert]
    split_ifs with hp
    · rw [Finset.card_insert_of_notMem (by simp)]
      simp [Nat.add_comm]
    · simp
  have hrest : ((Finset.univ.erase p).filter fun q => (Function.update ops p v q).isSome) =
      (Finset.univ.erase p).filter fun q => (ops q).isSome := by
    refine Finset.filter_congr fun q hq => ?_
    rw [Function.update_of_ne (Finset.ne_of_mem_erase hq)]
  rw [hsplit, hsplit ops, hrest, Function.update_self]
  omega

theorem card_active_pos {ops : Fin NPROC → Option (List Nat)} {p : Fin NPROC} {ws : List Nat}
    (h : ops p = some ws) : 0 < (active ops).card :=
  Finset.card_pos.mpr ⟨p, by simp [active, h]⟩

/-- Every operation keeps to its budget after one process's operation is replaced by one that
does. -/
theorem budget_update {ops : Fin NPROC → Option (List Nat)}
    (h : ∀ p ws, ops p = some ws → ws.length ≤ MAXOPBLOCKS) (p : Fin NPROC) {v : Option (List Nat)}
    (hv : ∀ ws, v = some ws → ws.length ≤ MAXOPBLOCKS) :
    ∀ q ws, Function.update ops p v q = some ws → ws.length ≤ MAXOPBLOCKS := by
  intro q ws hq
  by_cases hqp : q = p
  · subst hqp
    rw [Function.update_self] at hq
    exact hv ws hq
  · rw [Function.update_of_ne hqp] at hq
    exact h q ws hq

/-! ## The invariant -/

/-- What holds in every state a run from `initlog` reaches. -/
structure LogInv (s : LogSys) : Prop where
  /-- The logged blocks fit in the log region after its header, -/
  n_le_size : s.log.lh.n ≤ s.log.size - 1
  /-- and in the `block[LOGSIZE]` array. -/
  n_le : s.log.lh.n ≤ LOGSIZE
  block_length : s.log.lh.block.length = LOGSIZE
  outstanding : s.log.outstanding = (active s.ops).card
  committing : s.log.committing = true → s.log.outstanding = 0
  /-- Every operation under way keeps to its budget of distinct blocks. -/
  budget : ∀ p ws, s.ops p = some ws → ws.length ≤ MAXOPBLOCKS
  panicked : s.panicked = none ∨ s.panicked = some "too big a transaction"

theorem logInv_init (size : Nat) : LogInv (logInit size) where
  n_le_size := Nat.zero_le _
  n_le := Nat.zero_le _
  block_length := by simp [logInit, initLog]
  outstanding := by simp [logInit, initLog, active]
  committing := by simp [logInit, initLog]
  budget := by simp [logInit]
  panicked := .inl rfl

section Steps

variable {s : LogSys} {p : Fin NPROC} {ws : List Nat} {l : Log}

theorem LogInv.beginOp (hs : LogInv s) (hp : s.ops p = none) (h : beginOp s.log = some l) :
    LogInv { s with log := l, ops := Function.update s.ops p (some []) } := by
  obtain ⟨hc, -, rfl⟩ := beginOp_eq_some h
  have hcard := card_active_update s.ops p (some [])
  simp only [hp, Option.isSome_none, Option.isSome_some] at hcard
  refine ⟨hs.n_le_size, hs.n_le, hs.block_length, ?_, by simp [hc],
    budget_update hs.budget p (fun ws h => by simp [← Option.some.inj h]), hs.panicked⟩
  show s.log.outstanding + 1 = _
  rw [hs.outstanding]
  simpa using hcard.symm

theorem LogInv.logWrite {blockno : Nat} (hs : LogInv s) (hp : s.ops p = some ws)
    (hbudget : blockno ∈ ws ∨ ws.length < MAXOPBLOCKS) (h : logWrite blockno s.log = .ok l) :
    LogInv { s with log := l, ops := Function.update s.ops p (some (ws.insert blockno)) } := by
  obtain ⟨hroom, hsize, -, hl_size, hl_out, hl_comm, hl_n, hl_len⟩ := logWrite_eq_ok h
  have hcard := card_active_update s.ops p (some (ws.insert blockno))
  simp only [hp, Option.isSome_some] at hcard
  refine ⟨?_, ?_, ?_, ?_, ?_, budget_update hs.budget p fun vs hvs => ?_, hs.panicked⟩
  · show l.lh.n ≤ l.size - 1
    omega
  · show l.lh.n ≤ LOGSIZE
    omega
  · show l.lh.block.length = LOGSIZE
    rw [hl_len]
    exact hs.block_length
  · show l.outstanding = _
    rw [hl_out, hs.outstanding]
    simpa using hcard.symm
  · intro hc
    show l.outstanding = 0
    rw [hl_out]
    exact hs.committing (hl_comm ▸ hc)
  · -- the block is new to the operation only while it is under budget
    rw [← Option.some.inj hvs]
    by_cases hb : blockno ∈ ws
    · rw [List.insert_of_mem hb]
      exact hs.budget p ws hp
    · rw [List.length_insert_of_not_mem hb]
      have := hbudget.resolve_left hb
      omega

/-- An operation under way is counted in `outstanding`. -/
theorem LogInv.outstanding_pos (hs : LogInv s) (hp : s.ops p = some ws) : 0 < s.log.outstanding :=
  hs.outstanding ▸ card_active_pos hp

/-- A `log_write` that panics from an operation under way can only say the transaction is too
big. -/
theorem LogInv.logWrite_panic {blockno : Nat} {msg : String} (hs : LogInv s)
    (hp : s.ops p = some ws) (h : Xv6.logWrite blockno s.log = .error msg) :
    LogInv { s with panicked := some msg } := by
  have hmsg : msg = "too big a transaction" := by
    rcases logWrite_eq_error h with hmsg | ⟨hout, -⟩
    · exact hmsg
    · have := hs.outstanding_pos hp
      omega
  exact ⟨hs.n_le_size, hs.n_le, hs.block_length, hs.outstanding, hs.committing, hs.budget,
    .inr (by rw [hmsg])⟩

theorem LogInv.endOp (hs : LogInv s) (hp : s.ops p = some ws) (h : endOp s.log = .ok l) :
    LogInv { s with log := l, ops := Function.update s.ops p none } := by
  obtain ⟨-, hl_out, hl_comm, hl_size, hl_lh⟩ := endOp_eq_ok h
  have hcard := card_active_update s.ops p none
  simp only [hp, Option.isSome_some, Option.isSome_none] at hcard
  refine ⟨?_, ?_, ?_, ?_, ?_, budget_update hs.budget p (fun _ h => by cases h), hs.panicked⟩
  · show l.lh.n ≤ l.size - 1
    rw [hl_lh, hl_size]
    exact hs.n_le_size
  · show l.lh.n ≤ LOGSIZE
    rw [hl_lh]
    exact hs.n_le
  · show l.lh.block.length = LOGSIZE
    rw [hl_lh]
    exact hs.block_length
  · show l.outstanding = (active (Function.update s.ops p none)).card
    rw [hl_out, hs.outstanding]
    simp at hcard
    omega
  · intro hc
    show l.outstanding = 0
    rw [hl_comm] at hc
    rw [hl_out]
    simpa using hc

/-- `end_op` never finds a commit under way: while one is, no operation is. -/
theorem LogInv.endOp_ne_error {msg : String} (hs : LogInv s) (hp : s.ops p = some ws) :
    Xv6.endOp s.log ≠ .error msg := by
  intro h
  have hout := hs.committing (endOp_eq_error h).1
  have := hs.outstanding_pos hp
  omega

theorem LogInv.commitDone (hs : LogInv s) :
    LogInv { s with log := commitDone s.log } :=
  ⟨Nat.zero_le _, Nat.zero_le _, hs.block_length, hs.outstanding,
    fun h => by simp [Xv6.commitDone] at h, hs.budget, hs.panicked⟩

end Steps

/-- Every step keeps the invariant. -/
theorem logInv_step {s t : LogSys} {e : LogEvent} (hs : LogInv s) (h : logStep s e = some t) :
    LogInv t := by
  unfold logStep at h
  split at h
  · cases h
  cases e with
  | beginOp p =>
    dsimp only at h
    split at h
    · cases h
    · rename_i hfree
      obtain ⟨l, hl, rfl⟩ := Option.map_eq_some_iff.mp h
      exact hs.beginOp (by simpa using hfree) hl
  | logWrite p blockno =>
    dsimp only at h
    split at h
    · cases h
    · rename_i ws hp
      split at h
      · rename_i hbudget
        split at h
        · rename_i msg hw
          cases h
          exact hs.logWrite_panic hp hw
        · rename_i l hw
          cases h
          exact hs.logWrite hp hbudget hw
      · cases h
  | endOp p =>
    dsimp only at h
    split at h
    · cases h
    · rename_i ws hp
      split at h
      · rename_i msg hw
        exact absurd hw (hs.endOp_ne_error hp)
      · rename_i l hw
        cases h
        exact hs.endOp hp hw
  | commit =>
    dsimp only at h
    split at h
    · cases h
      exact hs.commitDone
    · cases h

theorem logInv_of_run {size : Nat} {es : List LogEvent} {s : LogSys}
    (hrun : Run.run logStep (logInit size) es = some s) : LogInv s :=
  Run.run_inv LogInv (fun _ _ _ hs h => logInv_step hs h) es _ _ (logInv_init size) hrun

/-- `write_log` stays inside the log region: the `n` log blocks it writes follow the header at
`log.start` within the region's `log.size` blocks. -/
theorem writeLog_within_log {β : Type} {size : Nat} {es : List LogEvent} {s : LogSys}
    (hrun : Run.run logStep (logInit size) es = some s) (start : Nat) (cache : Nat → β) :
    ∀ w ∈ writeLog start s.log.lh cache, start < w.addr ∧ w.addr < start + s.log.size := by
  intro w hw
  obtain ⟨i, hi, haddr⟩ := writeLog_addr hw
  have hn := (logInv_of_run hrun).n_le_size
  omega

/-! ## The admission test reserves one slot too many -/

/-- Three operations admitted together, passing ten distinct blocks each to `log_write`. -/
def freshRun : List LogEvent :=
  [LogEvent.beginOp 0, LogEvent.beginOp 1, LogEvent.beginOp 2] ++
    (List.range 10).map (fun i => LogEvent.logWrite 0 (i + 1)) ++
    (List.range 10).map (fun i => LogEvent.logWrite 1 (i + 11)) ++
    (List.range 10).map (fun i => LogEvent.logWrite 2 (i + 21))

/-- The same, with the third operation passing nine blocks and then its first one again. -/
def absorbedRun : List LogEvent :=
  [LogEvent.beginOp 0, LogEvent.beginOp 1, LogEvent.beginOp 2] ++
    (List.range 10).map (fun i => LogEvent.logWrite 0 (i + 1)) ++
    (List.range 10).map (fun i => LogEvent.logWrite 1 (i + 11)) ++
    (List.range 9).map (fun i => LogEvent.logWrite 2 (i + 21)) ++ [LogEvent.logWrite 2 21]

theorem log_write_panics_within_budget :
    (∃ s, Run.run logStep (logInit nlog) freshRun = some s ∧
      s.panicked = some "too big a transaction") ∧
    (∃ s, Run.run logStep (logInit nlog) absorbedRun = some s ∧
      s.panicked = some "too big a transaction") := by
  constructor
  · obtain ⟨s, hs, hp⟩ := @Run.exists_of_map_eq_some_true _ _ logStep (logInit nlog) freshRun
      (fun s => s.panicked == some "too big a transaction") (by decide)
    exact ⟨s, hs, by simpa using hp⟩
  · obtain ⟨s, hs, hp⟩ := @Run.exists_of_map_eq_some_true _ _ logStep (logInit nlog) absorbedRun
      (fun s => s.panicked == some "too big a transaction") (by decide)
    exact ⟨s, hs, by simpa using hp⟩

end Xv6
