import Xv6.Lib.Runs
import Xv6.User.Ulib

/-!
# `uniq.c`

`process_uniq` reads lines with `read_line` while it returns a positive length, keeps the first
line of the current run in `prev_line` and the run's length in `count`, and prints a run when a
line of another key (under `strcmp`, or `strcasecmp` with `-i`) closes it, and after the loop.

* `read_line`, `strcasecmp`, `UniqState`, `flushRun`, `uniqTurn`, `uniqLoop`, `process_uniq` :
  the code; the flags are the `0`/`1` values `main` sets, and the loop is bounded by the length
  of the input, since each turn reads at least one byte;
* `linesRead`, `uniqTurn_step`, `uniqLoop_eq` : a turn is one step of `Runs.scan` on the line
  read, so the whole loop prints the runs of the lines `read_line` returns before its first `0`
  (`process_uniq_runs`, for every input);
* `process_uniq_lines` : on lines that are not empty, `uniq` prints what `uniqSpec` says;
* `process_uniq_empty_line` : an empty line ends the input: `read_line` returns `0` for it, and
  nothing after it is read.
-/

namespace Xv6

open Decimal

/-- `#define MAX_LINE 1024` -/
def MAX_LINE : Nat := 1024

/-- `while (i < size - 1) { if (read(fd, &c, 1) == 0) break; if (c == '\n') break; buf[i++] = c; }`
with room for `n` more bytes: the bytes in `buf`, and the input left. -/
def readLineLoop : Nat → List UInt8 → List UInt8 → List UInt8 × List UInt8
  | 0, buf, inp => (buf, inp)
  | _ + 1, buf, [] => (buf, [])
  | n + 1, buf, c :: inp => if c = 10 then (buf, inp) else readLineLoop n (buf ++ [c]) inp

/-- `read_line(fd, buf, size)`: the bytes it stores before the `NUL` (it returns their number),
and the input left. -/
def read_line (size : Nat) (inp : List UInt8) : List UInt8 × List UInt8 :=
  readLineLoop (size - 1) [] inp

/-- `(c >= 'A' && c <= 'Z') ? (c + 32) : c` -/
def foldCase (c : UInt8) : UInt8 := if 65 ≤ c ∧ c ≤ 90 then c + 32 else c

/-- A `char` as an `int`: `char` is signed. -/
def charInt (c : UInt8) : Int := c.toInt8.toInt

/-- `strcasecmp(s1, s2)` -/
def strcasecmp : List UInt8 → List UInt8 → Int
  | c :: s1, d :: s2 =>
    if c ≠ 0 ∧ d ≠ 0 then
      if foldCase c ≠ foldCase d then charInt (foldCase c) - charInt (foldCase d)
      else strcasecmp s1 s2
    else charInt c - charInt d
  | c :: _, [] => charInt c
  | [], d :: _ => -charInt d
  | [], [] => 0

/-- The locals `process_uniq` carries from turn to turn; `prev_line` as the C string it holds. -/
structure UniqState where
  prev_line : List UInt8
  count : Int32
  first_line : Bool

/-- `if (count_flag) printf(1, "%d ", count); printf(1, "%s\n", prev_line);`, when
`!duplicates || count > 1`: what it writes. -/
def flushRun (count_flag duplicates : Bool) (prev_line : List UInt8) (count : Int32) :
    Option (List UInt8) :=
  if !duplicates || decide (count > 1) then do
    let c ← if count_flag then printf [37, 100, 32] [.int count] else some []
    let l ← printf [37, 115, 10] [.str (some prev_line)]
    return c ++ l
  else some []

/-- The body of the loop on `current_line`: what it writes, and the locals after it. -/
def uniqTurn (count_flag ignore_case duplicates : Bool) (st : UniqState)
    (current_line : List UInt8) : Option (List UInt8 × UniqState) :=
  let cmp := if ignore_case then strcasecmp current_line st.prev_line
    else strcmp current_line st.prev_line
  if st.first_line || cmp ≠ 0 then do
    let out ← if !st.first_line then flushRun count_flag duplicates st.prev_line st.count
      else some []
    -- strcpy(prev_line, current_line)
    return (out, { prev_line := cstr current_line, count := 1, first_line := false })
  else some ([], { st with count := st.count + 1 })

/-- `while (read_line(fd, current_line, MAX_LINE) > 0) { ... }`, for at most `fuel` turns, then
the print after the loop. -/
def uniqLoop (count_flag ignore_case duplicates : Bool) :
    Nat → List UInt8 → UniqState → Option (List UInt8)
  | fuel, inp, st =>
    let (current_line, inp) := read_line MAX_LINE inp
    if 0 < current_line.length then
      match fuel with
      | 0 => none
      | fuel + 1 => do
        let (out, st) ← uniqTurn count_flag ignore_case duplicates st current_line
        let rest ← uniqLoop count_flag ignore_case duplicates fuel inp st
        return out ++ rest
    else if !st.first_line then flushRun count_flag duplicates st.prev_line st.count
    else some []

/-- `process_uniq(fd, count_flag, ignore_case, duplicates)` on the bytes `fd` reads: what it
writes to fd 1. -/
def process_uniq (count_flag ignore_case duplicates : Bool) (inp : List UInt8) :
    Option (List UInt8) :=
  uniqLoop count_flag ignore_case duplicates inp.length inp
    { prev_line := [], count := 0, first_line := true }

/-! ## What `uniq` is for -/

/-- What two lines are compared by: the C string, case-folded with `-i`. -/
def uniqKey (ignore_case : Bool) (l : List UInt8) : List UInt8 :=
  if ignore_case then (cstr l).map foldCase else cstr l

/-- The output line of a run: its first line, after its length and a space with `-c`; nothing
for a run of one line with `-d`. -/
def runLine (count_flag duplicates : Bool) : List UInt8 × Nat → List UInt8
  | (l, n) =>
    if !duplicates || decide (1 < n) then
      (if count_flag then intText n ++ [32] else []) ++ l ++ [10]
    else []

/-- One output line per maximal run of adjacent lines with equal keys, in order. -/
def uniqSpec (count_flag ignore_case duplicates : Bool) (lines : List (List UInt8)) :
    List UInt8 :=
  (Runs.runs (uniqKey ignore_case) lines).flatMap (runLine count_flag duplicates)

/-- Lines, each followed by a newline. -/
def joinLines (ls : List (List UInt8)) : List UInt8 := ls.flatMap (· ++ [10])

/-! ## The comparisons -/

theorem foldCase_eq_zero_iff (c : UInt8) : foldCase c = 0 ↔ c = 0 := by
  unfold foldCase
  split
  · -- an upper-case letter folds to a lower-case one, not to `NUL`
    rename_i h
    have h1 : 65 ≤ c.toNat := UInt8.le_iff_toNat_le.mp h.1
    have h2 : c.toNat ≤ 90 := UInt8.le_iff_toNat_le.mp h.2
    rw [← UInt8.toNat_inj, ← UInt8.toNat_inj, UInt8.toNat_add]
    simp only [UInt8.toNat_ofNat]
    omega
  · rfl

theorem charInt_inj {c d : UInt8} (h : charInt c = charInt d) : c = d := by
  rw [← UInt8.toUInt8_toInt8 c, ← UInt8.toUInt8_toInt8 d, Int8.toInt_inj.mp h]

theorem charInt_eq_zero_iff (c : UInt8) : charInt c = 0 ↔ c = 0 := by
  constructor
  · intro h
    exact charInt_inj (h.trans rfl)
  · rintro rfl
    rfl

theorem cstr_cons_of_ne {c : UInt8} (hc : c ≠ 0) (s : List UInt8) : cstr (c :: s) = c :: cstr s := by
  rw [cstr_cons, if_neg hc]

theorem cstr_cons_zero (s : List UInt8) : cstr (0 :: s) = [] := by
  rw [cstr_cons, if_pos rfl]

/-- `strcasecmp` is `0` exactly on C strings equal up to case. -/
theorem strcasecmp_eq_zero_iff (p q : List UInt8) :
    strcasecmp p q = 0 ↔ (cstr p).map foldCase = (cstr q).map foldCase := by
  induction p generalizing q with
  | nil =>
    cases q with
    | nil => simp [strcasecmp]
    | cons d q =>
      rw [strcasecmp, neg_eq_zero, charInt_eq_zero_iff]
      by_cases hd : d = 0
      · simp [hd, cstr_cons_zero]
      · simp [hd, cstr_cons_of_ne hd]
  | cons c p ih =>
    cases q with
    | nil =>
      rw [strcasecmp, charInt_eq_zero_iff]
      by_cases hc : c = 0
      · simp [hc, cstr_cons_zero]
      · simp [hc, cstr_cons_of_ne hc]
    | cons d q =>
      rw [strcasecmp]
      by_cases hcd : c ≠ 0 ∧ d ≠ 0
      · obtain ⟨hc, hd⟩ := hcd
        rw [if_pos ⟨hc, hd⟩, cstr_cons_of_ne hc, cstr_cons_of_ne hd, List.map_cons, List.map_cons,
          List.cons.injEq]
        split
        · -- the folded bytes differ: so do the strings
          rename_i hne
          have h : charInt (foldCase c) - charInt (foldCase d) ≠ 0 := fun h =>
            hne (charInt_inj (by omega))
          simp [h, hne]
        · rename_i heq
          rw [ih q, not_not.mp heq]
          simp
      · -- one of the strings ends here
        rw [if_neg hcd]
        have hsub : charInt c - charInt d = 0 ↔ c = d := ⟨fun h => charInt_inj (by omega),
          fun h => by rw [h]; omega⟩
        rw [hsub]
        by_cases hc : c = 0
        · subst hc
          by_cases hd : d = 0
          · simp [hd, cstr_cons_zero]
          · have : foldCase d ≠ 0 := fun h => hd ((foldCase_eq_zero_iff d).mp h)
            simp [cstr_cons_zero, cstr_cons_of_ne hd, Ne.symm hd]
        · have hd : d = 0 := by
            by_contra hd
            exact hcd ⟨hc, hd⟩
          subst hd
          simp [hc, cstr_cons_zero, cstr_cons_of_ne hc]

theorem cstr_cstr (s : List UInt8) : cstr (cstr s) = cstr s :=
  cstr_of_zero_not_mem (zero_not_mem_cstr s)

/-- The comparison `uniq` makes is `0` exactly when the keys of the two lines agree. -/
theorem cmp_eq_zero_iff (ignore_case : Bool) (p q : List UInt8) :
    (if ignore_case then strcasecmp p q else strcmp p q) = 0 ↔
      uniqKey ignore_case p = uniqKey ignore_case q := by
  cases ignore_case
  · simp [uniqKey, strcmp_eq_zero_iff]
  · simp [uniqKey, strcasecmp_eq_zero_iff]

/-! ## A turn of the loop is a step of the scan -/

/-- The open run the locals hold: none before the first line. -/
def UniqState.run (st : UniqState) : Option (List UInt8 × Nat) :=
  if st.first_line then none else some (st.prev_line, st.count.toInt.toNat)

/-- The locals as the loop keeps them, with room in `count` for `k` more lines. -/
structure UniqState.Ok (st : UniqState) (k : Nat) : Prop where
  prev_cstr : 0 ∉ st.prev_line
  count_nonneg : 0 ≤ st.count.toInt
  count_room : st.count.toInt + k < 2 ^ 31
  count_pos : st.first_line = false → 0 < st.count.toInt

theorem UniqState.Ok.mono {st : UniqState} {k k' : Nat} (h : st.Ok k) (hk : k' ≤ k) : st.Ok k' :=
  ⟨h.prev_cstr, h.count_nonneg, by have := h.count_room; omega, h.count_pos⟩

/-- The print of a run, `prev_line` a C string and `count` positive. -/
theorem flushRun_eq (count_flag duplicates : Bool) {l : List UInt8} {count : Int32} (hl : 0 ∉ l)
    (hc : 0 < count.toInt) :
    flushRun count_flag duplicates l count =
      some (runLine count_flag duplicates (l, count.toInt.toNat)) := by
  have hgt : count > 1 ↔ 1 < count.toInt.toNat := by
    rw [gt_iff_lt, Int32.lt_iff_toInt_lt, Int32.toInt_one]
    omega
  have htext : intText count.toInt = intText (count.toInt.toNat : Int) := by
    rw [Int.toNat_of_nonneg hc.le]
  unfold flushRun runLine
  simp only [hgt]
  split
  · cases count_flag <;>
      simp [printf_int_space, printf_str_newline, cstr_of_zero_not_mem hl, htext]
  · rfl

/-- `count + 1`, with room for it. -/
theorem toInt_count_succ {count : Int32} (h0 : 0 ≤ count.toInt) (h : count.toInt + 1 < 2 ^ 31) :
    (count + 1).toInt = count.toInt + 1 := by
  rw [Int32.toInt_add, Int32.toInt_one]
  exact Int.bmod_eq_of_le (by omega) (by omega)

/-- A turn on `current_line` writes the run the scan closes at `cstr current_line`, and leaves
the run the scan keeps open. -/
theorem uniqTurn_step (count_flag ignore_case duplicates : Bool) {st : UniqState} {k : Nat}
    (hok : st.Ok (k + 1)) (current_line : List UInt8) :
    ∃ st', uniqTurn count_flag ignore_case duplicates st current_line =
        some ((Runs.step (uniqKey ignore_case) st.run (cstr current_line)).1.toList.flatMap
          (runLine count_flag duplicates), st') ∧
      st'.run = some (Runs.step (uniqKey ignore_case) st.run (cstr current_line)).2 ∧ st'.Ok k := by
  -- the line that opens a run: `prev_line = current_line`, `count = 1`
  have hopen : UniqState.Ok { prev_line := cstr current_line, count := 1, first_line := false } k := by
    have hroom := hok.count_room
    have hnn := hok.count_nonneg
    refine ⟨zero_not_mem_cstr _, ?_, ?_, fun _ => ?_⟩
    · show (0 : Int) ≤ (1 : Int32).toInt
      decide
    · show (1 : Int32).toInt + k < 2 ^ 31
      rw [Int32.toInt_one]
      omega
    · show (0 : Int) < (1 : Int32).toInt
      decide
  -- the test of the loop is the test of the scan
  have htest : (if ignore_case then strcasecmp current_line st.prev_line
      else strcmp current_line st.prev_line) = 0 ↔
      uniqKey ignore_case (cstr current_line) = uniqKey ignore_case st.prev_line := by
    rw [cmp_eq_zero_iff]
    cases ignore_case <;> simp [uniqKey, cstr_cstr]
  unfold uniqTurn
  cases hfirst : st.first_line
  · -- a run is open: compare with its first line
    have hrun : st.run = some (st.prev_line, st.count.toInt.toNat) := by
      simp [UniqState.run, hfirst]
    have hpos := hok.count_pos hfirst
    by_cases hsame : uniqKey ignore_case (cstr current_line) = uniqKey ignore_case st.prev_line
    · -- the same key: one more line in the run
      have hroom := hok.count_room
      have hsucc := toInt_count_succ hok.count_nonneg (by omega)
      have hnn := hok.count_nonneg
      have hok' : UniqState.Ok
          { prev_line := st.prev_line, count := st.count + 1, first_line := false } k := by
        refine ⟨hok.prev_cstr, ?_, ?_, fun _ => ?_⟩
        · show 0 ≤ (st.count + 1).toInt
          omega
        · show (st.count + 1).toInt + k < 2 ^ 31
          omega
        · show 0 < (st.count + 1).toInt
          omega
      simp only [Bool.false_or, htest.mpr hsame, ne_eq, not_true_eq_false, decide_false,
        Bool.false_eq_true, if_false, hrun, Runs.step, if_pos hsame, Option.toList_none,
        List.flatMap_nil]
      refine ⟨_, rfl, ?_, hok'⟩
      show some (st.prev_line, (st.count + 1).toInt.toNat) =
        some (st.prev_line, st.count.toInt.toNat + 1)
      rw [hsucc]
      congr 2
      omega
    · -- another key: the run is printed and the line opens the next
      simp only [Bool.false_or, mt htest.mp hsame, ne_eq, not_false_eq_true, decide_true,
        if_true, Bool.not_false, flushRun_eq _ _ hok.prev_cstr hpos, hrun, Runs.step, if_neg hsame,
        Option.toList_some, List.flatMap_singleton, Option.bind_eq_bind, Option.bind_some,
        Option.pure_def]
      exact ⟨_, rfl, rfl, hopen⟩
  · -- the first line
    simp only [Bool.true_or, if_true, Bool.not_true, Bool.false_eq_true, UniqState.run, hfirst,
      Runs.step]
    exact ⟨_, rfl, rfl, hopen⟩

/-! ## The loop prints the runs of the lines it reads -/

/-- The lines the loop of `process_uniq` gets from `read_line`, until it returns `0`. -/
def linesRead : Nat → List UInt8 → List (List UInt8)
  | fuel, inp =>
    let (current_line, inp) := read_line MAX_LINE inp
    if 0 < current_line.length then
      match fuel with
      | 0 => []
      | fuel + 1 => current_line :: linesRead fuel inp
    else []

theorem readLineLoop_length (n : Nat) (buf inp : List UInt8) :
    (readLineLoop n buf inp).1.length + (readLineLoop n buf inp).2.length ≤
      buf.length + inp.length := by
  induction n generalizing buf inp with
  | zero => simp [readLineLoop]
  | succ n ih =>
    cases inp with
    | nil => simp [readLineLoop]
    | cons c inp =>
      rw [readLineLoop]
      split
      · simp
      · have := ih (buf ++ [c]) inp
        simp only [List.length_append, List.length_cons, List.length_nil] at this ⊢
        omega

/-- A line `read_line` returns took at least its length from the input. -/
theorem read_line_length (inp : List UInt8) :
    (read_line MAX_LINE inp).1.length + (read_line MAX_LINE inp).2.length ≤ inp.length := by
  have := readLineLoop_length (MAX_LINE - 1) [] inp
  simpa [read_line] using this

/-- The loop on any input prints the scan of the lines `read_line` returns. -/
theorem uniqLoop_eq (count_flag ignore_case duplicates : Bool) (fuel : Nat) :
    ∀ (inp : List UInt8) (st : UniqState), inp.length ≤ fuel → st.Ok inp.length →
      uniqLoop count_flag ignore_case duplicates fuel inp st =
        some ((Runs.scan (uniqKey ignore_case) st.run ((linesRead fuel inp).map cstr)).flatMap
          (runLine count_flag duplicates)) := by
  induction fuel with
  | zero =>
    intro inp st hfuel hok
    have hnil : inp = [] := List.eq_nil_of_length_eq_zero (by omega)
    subst hnil
    -- no line: the print after the loop
    simp only [uniqLoop, linesRead, read_line, MAX_LINE, readLineLoop]
    cases hfirst : st.first_line
    · simp [UniqState.run, hfirst, Runs.scan, flushRun_eq _ _ hok.prev_cstr (hok.count_pos hfirst)]
    · simp [UniqState.run, hfirst, Runs.scan]
  | succ fuel ih =>
    intro inp st hfuel hok
    have hlen := read_line_length inp
    unfold uniqLoop linesRead
    generalize read_line MAX_LINE inp = r at hlen ⊢
    obtain ⟨current_line, rest⟩ := r
    dsimp only at hlen ⊢
    split
    · -- a line: one turn, then the loop on the rest
      rename_i hpos
      have hok1 : st.Ok (rest.length + 1) := hok.mono (by omega)
      obtain ⟨st', hturn, hrun, hok'⟩ :=
        uniqTurn_step count_flag ignore_case duplicates hok1 current_line
      rw [hturn]
      simp only [Option.bind_eq_bind, Option.bind_some, List.map_cons, Runs.scan_cons, hrun.symm,
        ih rest st' (by omega) hok', List.flatMap_append, Option.pure_def]
    · -- `read_line` returned `0`: the print after the loop
      cases hfirst : st.first_line
      · simp [UniqState.run, hfirst, Runs.scan,
          flushRun_eq _ _ hok.prev_cstr (hok.count_pos hfirst)]
      · simp [UniqState.run, hfirst, Runs.scan]

/-- For every input below `2^31` bytes, `uniq` prints the runs of the lines `read_line` returns
before its first `0`. -/
theorem process_uniq_runs (count_flag ignore_case duplicates : Bool) (inp : List UInt8)
    (hlen : inp.length < 2 ^ 31) :
    process_uniq count_flag ignore_case duplicates inp =
      some ((Runs.runs (uniqKey ignore_case) ((linesRead inp.length inp).map cstr)).flatMap
        (runLine count_flag duplicates)) := by
  have hok : UniqState.Ok { prev_line := [], count := 0, first_line := true } inp.length :=
    ⟨by simp, by decide, by rw [Int32.toInt_zero]; omega, fun h => by cases h⟩
  rw [process_uniq, uniqLoop_eq _ _ _ _ _ _ le_rfl hok]
  rw [show UniqState.run { prev_line := [], count := 0, first_line := true } = none from rfl,
    Runs.scan_none]

/-! ## Lines -/

/-- A line `uniq` reads whole: not empty, with no `NUL` and no newline, and with room for it and
its `NUL` in `current_line`. -/
structure GoodLine (l : List UInt8) : Prop where
  ne_nil : l ≠ []
  no_nul : 0 ∉ l
  no_newline : 10 ∉ l
  fits : l.length < MAX_LINE - 1

/-- A line and its newline, with room: the loop stores the line and takes the newline. -/
theorem readLineLoop_line (rest : List UInt8) (l : List UInt8) (hl : 10 ∉ l) :
    ∀ (n : Nat) (buf : List UInt8), l.length < n →
      readLineLoop n buf (l ++ 10 :: rest) = (buf ++ l, rest) := by
  induction l with
  | nil =>
    intro n buf hn
    obtain ⟨m, rfl⟩ : ∃ m, n = m + 1 := ⟨n - 1, by simp at hn; omega⟩
    simp [readLineLoop]
  | cons c l ih =>
    intro n buf hn
    obtain ⟨m, rfl⟩ : ∃ m, n = m + 1 := ⟨n - 1, by simp at hn; omega⟩
    have hc : c ≠ 10 := fun h => hl (h ▸ List.mem_cons_self)
    rw [List.cons_append, readLineLoop, if_neg hc,
      ih (fun h => hl (List.mem_cons_of_mem c h)) m (buf ++ [c]) (by simp at hn; omega),
      List.append_assoc, List.singleton_append]

/-- A last line with no newline: the loop stores it and the input ends. -/
theorem readLineLoop_last (l : List UInt8) (hl : 10 ∉ l) :
    ∀ (n : Nat) (buf : List UInt8), l.length ≤ n → readLineLoop n buf l = (buf ++ l, []) := by
  induction l with
  | nil =>
    intro n buf _
    cases n <;> simp [readLineLoop]
  | cons c l ih =>
    intro n buf hn
    obtain ⟨m, rfl⟩ : ∃ m, n = m + 1 := ⟨n - 1, by simp at hn; omega⟩
    have hc : c ≠ 10 := fun h => hl (h ▸ List.mem_cons_self)
    rw [readLineLoop, if_neg hc,
      ih (fun h => hl (List.mem_cons_of_mem c h)) m (buf ++ [c]) (by simp at hn; omega),
      List.append_assoc, List.singleton_append]

theorem linesRead_nil (fuel : Nat) : linesRead fuel [] = [] := by
  simp [linesRead, read_line, MAX_LINE, readLineLoop]

/-- An empty line: `read_line` returns `0`, and the loop stops. -/
theorem linesRead_newline (fuel : Nat) (rest : List UInt8) : linesRead fuel (10 :: rest) = [] := by
  simp [linesRead, read_line, MAX_LINE, readLineLoop]

/-- A last line with no newline is read as a line. -/
theorem linesRead_last {l : List UInt8} (hl : GoodLine l) (fuel : Nat) :
    linesRead (fuel + 1) l = [l] := by
  have hread : read_line MAX_LINE l = (l, []) :=
    readLineLoop_last l hl.no_newline _ [] (by have := hl.fits; omega)
  have hpos : 0 < l.length := List.length_pos_of_ne_nil hl.ne_nil
  simp [linesRead, hread, hpos, linesRead_nil]

/-- Whole lines, each with its newline, are read one by one. -/
theorem linesRead_joinLines (rest : List UInt8) (ls : List (List UInt8))
    (hls : ∀ l ∈ ls, GoodLine l) (fuel : Nat) (hfuel : ls.length ≤ fuel) :
    linesRead fuel (joinLines ls ++ rest) = ls ++ linesRead (fuel - ls.length) rest := by
  induction ls generalizing fuel with
  | nil => simp [joinLines]
  | cons l ls ih =>
    have hl := hls l List.mem_cons_self
    obtain ⟨m, rfl⟩ : ∃ m, fuel = m + 1 := ⟨fuel - 1, by simp at hfuel; omega⟩
    have hsplit : joinLines (l :: ls) ++ rest = l ++ 10 :: (joinLines ls ++ rest) := by
      simp [joinLines]
    have hread : read_line MAX_LINE (l ++ 10 :: (joinLines ls ++ rest)) =
        (l, joinLines ls ++ rest) :=
      readLineLoop_line _ l hl.no_newline _ [] (by have := hl.fits; omega)
    have hpos : 0 < l.length := List.length_pos_of_ne_nil hl.ne_nil
    rw [hsplit, linesRead]
    simp only [hread, hpos, if_true]
    rw [ih (fun l' hl' => hls l' (List.mem_cons_of_mem l hl')) m (by simp at hfuel; omega)]
    simp

theorem map_cstr_of_lines {ls : List (List UInt8)} (hls : ∀ l ∈ ls, GoodLine l) : ls.map cstr = ls := by
  rw [List.map_congr_left fun l hl => cstr_of_zero_not_mem (hls l hl).no_nul, List.map_id']

theorem length_le_joinLines (ls : List (List UInt8)) : ls.length ≤ (joinLines ls).length := by
  induction ls with
  | nil => simp [joinLines]
  | cons l ls ih =>
    simp only [joinLines, List.flatMap_cons, List.length_append, List.length_cons] at ih ⊢
    omega

/-! ## `uniq` on lines -/

/-- On lines that `read_line` returns whole, each with its newline, `uniq` prints one line per
maximal run of lines equal under `strcmp` (`strcasecmp` with `-i`). -/
theorem process_uniq_lines (count_flag ignore_case duplicates : Bool) (ls : List (List UInt8))
    (hls : ∀ l ∈ ls, GoodLine l) (hlen : (joinLines ls).length < 2 ^ 31) :
    process_uniq count_flag ignore_case duplicates (joinLines ls) =
      some (uniqSpec count_flag ignore_case duplicates ls) := by
  have hread := linesRead_joinLines [] ls hls _ (length_le_joinLines ls)
  rw [List.append_nil] at hread
  rw [process_uniq_runs _ _ _ _ hlen, hread, linesRead_nil, List.append_nil,
    map_cstr_of_lines hls, uniqSpec]

/-- The same when the last line has no newline. -/
theorem process_uniq_last_line (count_flag ignore_case duplicates : Bool)
    (ls : List (List UInt8)) (l : List UInt8) (hls : ∀ l ∈ ls, GoodLine l) (hl : GoodLine l)
    (hlen : (joinLines ls ++ l).length < 2 ^ 31) :
    process_uniq count_flag ignore_case duplicates (joinLines ls ++ l) =
      some (uniqSpec count_flag ignore_case duplicates (ls ++ [l])) := by
  have hge := length_le_joinLines ls
  have hpos : 0 < l.length := List.length_pos_of_ne_nil hl.ne_nil
  have hall : ∀ l' ∈ ls ++ [l], GoodLine l' := by
    intro l' hl'
    rcases List.mem_append.mp hl' with h | h
    · exact hls l' h
    · rw [List.mem_singleton.mp h]
      exact hl
  rw [process_uniq_runs _ _ _ _ hlen, linesRead_joinLines l ls hls _ (by simp; omega)]
  obtain ⟨m, hm⟩ := Nat.exists_eq_succ_of_ne_zero
    (show (joinLines ls ++ l).length - ls.length ≠ 0 by simp; omega)
  rw [hm, linesRead_last hl, map_cstr_of_lines hall, uniqSpec]

/-- An empty line ends what `uniq` reads: `read_line` returns `0` for it and the loop stops, so
whatever follows it is never printed. -/
theorem process_uniq_empty_line (count_flag ignore_case duplicates : Bool)
    (ls : List (List UInt8)) (hls : ∀ l ∈ ls, GoodLine l) (rest : List UInt8)
    (hlen : (joinLines ls ++ 10 :: rest).length < 2 ^ 31) :
    process_uniq count_flag ignore_case duplicates (joinLines ls ++ 10 :: rest) =
      some (uniqSpec count_flag ignore_case duplicates ls) := by
  have hge := length_le_joinLines ls
  rw [process_uniq_runs _ _ _ _ hlen, linesRead_joinLines _ ls hls _ (by simp; omega),
    linesRead_newline, List.append_nil, map_cstr_of_lines hls, uniqSpec]

/-- The lines `a`, empty and `b`: three runs, but `uniq` prints `a` alone. -/
theorem uniq_stops_at_empty_line :
    uniqSpec false false false [[97], [], [98]] = [97, 10, 10, 98, 10] ∧
      process_uniq false false false [97, 10, 10, 98, 10] = some [97, 10] := by
  decide

end Xv6
