import Xv6.Lib.Run

/-!
# `console.c`: the console's input line discipline

`consoleintr` edits the typed characters in the ring `input.buf` of `INPUT_BUF` bytes through three
free-running `uint` indices: `r` (read), `w` (committed up to) and `e` (edited up to); the bytes
`[r, w)` are committed lines not yet read, the bytes `[w, e)` the line being typed. `consoleread`
takes committed bytes, sleeping while there are none.

The machine `consStep` runs the input characters one by one and the `consoleread` calls of any
number of processes, one byte per step. A call holds `cons.lock` from its `acquire` until it
returns or sleeps on `&input.r`: `sleep` lets the lock go and `wake` is its return, which takes the
lock back; `consoleintr` runs only while the lock is free. So the steps of the call that holds the
lock come one after another, and the calls asleep wake in any order, each to find the ring as the
others left it. The ghost fields `out` and `rets` are the bytes the calls copied out, in the order
they took them, and what each call returned to its process.

* `Input`, `killLine`, `consoleintr`, `Console`, `consStep`;
* `Line`, `lineStep` : the line discipline the ring implements, over lists: the committed bytes
  not yet read, the line being typed, editing by `^U` and backspace, `'\r'` read as `'\n'`,
  characters dropped while `INPUT_BUF` bytes are held, a line committed at `'\n'`, `^D` or a full
  buffer; the characters it ignores are a parameter, `codeIgnores` (`^P`, which asks for a process
  listing, and `NUL`) for the code;
* `lineOf` : the line discipline the ring holds; `lineOf_step` and `consInv_step` : each step of
  the ring is the step of the discipline, and keeps `InputInv`, the indices `r ≤ w ≤ e ≤ r + 128`
  as `uint` distances with no newline in the line being typed;
* `console_line_discipline` : every run of the ring is the run of the discipline on the same events;
* `lineStep_eot_kept` : a `^D` that ends a call that copied bytes stays, and the next call returns
  `0` at it;
* `ctrlP_not_delivered` : `^P` typed in a line is not read back, as a discipline that keeps every
  typed character would read it.
-/

namespace Xv6

/-- `#define INPUT_BUF 128`. -/
def INPUT_BUF : Nat := 128

/-- The byte of a character. -/
def ch (x : Char) : UInt8 := x.toNat.toUInt8

/-- `C(x)`: Control-x. -/
def C (x : Char) : UInt8 := ch x - ch '@'

/-- `struct input`: the ring and its three indices. -/
structure Input where
  buf : Fin INPUT_BUF → UInt8
  /-- Read index. -/
  r : UInt32
  /-- Write index. -/
  w : UInt32
  /-- Edit index. -/
  e : UInt32

/-- The slot `buf[k % INPUT_BUF]` of an index. -/
def bufSlot (k : UInt32) : Fin INPUT_BUF := ⟨k.toNat % INPUT_BUF, Nat.mod_lt _ (by decide)⟩

theorem killLine_lt {inp : Input} (h : inp.e ≠ inp.w) :
    (inp.e - 1 - inp.w).toNat < (inp.e - inp.w).toNat := by
  have h' : inp.e.toNat ≠ inp.w.toNat := fun hn => h (UInt32.toNat_inj.mp hn)
  have he := inp.e.toNat_lt
  have hw := inp.w.toNat_lt
  rw [UInt32.toNat_sub, UInt32.toNat_sub, UInt32.toNat_sub]
  simp only [UInt32.toNat_one]
  omega

/-- `case C('U')`: kill line, erasing back to the last newline or to what is committed. -/
def killLine (inp : Input) : Input :=
  if h : inp.e ≠ inp.w ∧ inp.buf (bufSlot (inp.e - 1)) ≠ ch '\n' then
    killLine { inp with e := inp.e - 1 }
  else inp
termination_by (inp.e - inp.w).toNat
decreasing_by exact killLine_lt h.1

/-- One character `c` of `consoleintr`'s loop (`getc` returns a byte). -/
def consoleintr (inp : Input) (c : UInt8) : Input :=
  if c = C 'P' then inp  -- Process listing: procdump() is invoked after the loop.
  else if c = C 'U' then killLine inp
  else if c = C 'H' ∨ c = 0x7f then  -- Backspace
    if inp.e ≠ inp.w then { inp with e := inp.e - 1 } else inp
  else if c ≠ 0 ∧ inp.e - inp.r < INPUT_BUF.toUInt32 then
    let c := if c = ch '\r' then ch '\n' else c
    let inp := { inp with buf := Function.update inp.buf (bufSlot inp.e) c, e := inp.e + 1 }
    if c = ch '\n' ∨ c = C 'D' ∨ inp.e = inp.r + INPUT_BUF.toUInt32 then { inp with w := inp.e }
    else inp
  else inp

/-- A `consoleread(ip, dst, n)` in progress: the bytes `n` it still wants, and `target`. -/
structure Reader where
  n : Nat
  target : Nat

variable {ι : Type} [DecidableEq ι]

/-- The console, for processes `ι`: the ring; the call of `consoleread` each process is in; the
process whose call holds `cons.lock` (every other call is asleep in `sleep(&input.r, &cons.lock)`,
which released the lock); and the ghost record of the bytes the calls copied to their `dst`, in
the order they took them, and of what each call returned to its process. -/
structure Console (ι : Type) where
  input : Input
  calls : ι → Option Reader
  lock : Option ι
  out : List UInt8
  rets : List (ι × Int)

/-- What happens at the console. -/
inductive ConsEvent (ι : Type) where
  /-- `consoleintr`, holding `cons.lock`, gets the character `c` from `getc`. -/
  | intr (c : UInt8)
  /-- Process `p` calls `consoleread(ip, dst, n)` and takes `cons.lock`. -/
  | read (p : ι) (n : Nat)
  /-- The call of `p`, holding `cons.lock` with a committed byte there, takes it. -/
  | readStep (p : ι)
  /-- The call of `p`, holding `cons.lock` with nothing committed, sleeps on `&input.r`. -/
  | sleep (p : ι)
  /-- The call of `p`, holding `cons.lock` with nothing committed, finds its process killed. -/
  | kill (p : ι)
  /-- The call of `p`, asleep, returns from `sleep` holding `cons.lock` again. -/
  | wake (p : ι)

/-- The call of `p` returns `target - n` and releases `cons.lock`. -/
def Console.finish (s : Console ι) (p : ι) (rd : Reader) : Console ι :=
  { s with calls := Function.update s.calls p none, lock := none,
           rets := s.rets ++ [(p, (rd.target : Int) - rd.n)] }

/-- One step of the console; `none` where the event cannot happen: `cons.lock` held by another
than the one that would take it or act under it, a call that is not there, or one that is already
there. -/
def consStep (s : Console ι) : ConsEvent ι → Option (Console ι)
  | .intr c => if s.lock = none then some { s with input := consoleintr s.input c } else none
  | .read p n =>
    if s.calls p = none ∧ s.lock = none then
      if n = 0 then some (s.finish p ⟨0, 0⟩)
      else some { s with calls := Function.update s.calls p (some ⟨n, n⟩), lock := some p }
    else none
  | .readStep p =>
    match s.calls p with
    | none => none
    | some rd =>
      if s.lock ≠ some p then none
      else if s.input.r = s.input.w then none  -- sleep(&input.r, &cons.lock)
      else
        let c := s.input.buf (bufSlot s.input.r)
        let inp := { s.input with r := s.input.r + 1 }
        if c = C 'D' then  -- EOF
          -- Save ^D for next time, to make sure caller gets a 0-byte result.
          let inp := if rd.n < rd.target then { inp with r := inp.r - 1 } else inp
          some ({ s with input := inp }.finish p rd)
        else
          let s := { s with input := inp, out := s.out ++ [c] }
          if c = ch '\n' ∨ rd.n - 1 = 0 then some (s.finish p ⟨rd.n - 1, rd.target⟩)
          else some { s with calls := Function.update s.calls p (some ⟨rd.n - 1, rd.target⟩) }
  | .sleep p =>
    match s.calls p with
    | none => none
    | some _ => if s.lock = some p ∧ s.input.r = s.input.w then some { s with lock := none } else none
  | .kill p =>
    match s.calls p with
    | none => none
    | some _ =>
      if s.lock = some p ∧ s.input.r = s.input.w then
        some { s with calls := Function.update s.calls p none, lock := none,
                      rets := s.rets ++ [(p, -1)] }
      else none
  | .wake p =>
    match s.calls p with
    | none => none
    | some _ => if s.lock = none then some { s with lock := some p } else none

/-- The console at boot: the static `input` is zero, and no process is in `consoleread`. -/
def consInit : Console ι := ⟨⟨fun _ => 0, 0, 0, 0⟩, fun _ => none, none, [], []⟩

/-! ## The line discipline -/

/-- The line discipline over lists: the committed bytes not yet read, the line being typed, and the
calls, the lock and the ghost record as in `Console`. -/
structure Line (ι : Type) where
  ready : List UInt8
  pending : List UInt8
  calls : ι → Option Reader
  lock : Option ι
  out : List UInt8
  rets : List (ι × Int)

/-- The characters the code ignores: `^P` asks for a process listing, and `NUL` is dropped. -/
def codeIgnores (c : UInt8) : Bool := c = C 'P' ∨ c = 0

/-- A typed character: `^U` erases the line being typed, backspace its last character; another
character is added to it, `'\r'` as `'\n'`, unless `INPUT_BUF` bytes are already held; the line
is committed at `'\n'`, at `^D`, and when the buffer is full. -/
def lineKey (ignored : UInt8 → Bool) (l : Line ι) (c : UInt8) : Line ι :=
  if ignored c then l
  else if c = C 'U' then { l with pending := [] }
  else if c = C 'H' ∨ c = 0x7f then { l with pending := l.pending.dropLast }
  else if l.ready.length + l.pending.length < INPUT_BUF then
    let c := if c = ch '\r' then ch '\n' else c
    let p := l.pending ++ [c]
    if c = ch '\n' ∨ c = C 'D' ∨ l.ready.length + p.length = INPUT_BUF then
      { l with ready := l.ready ++ p, pending := [] }
    else { l with pending := p }
  else l

/-- The call of `p` returns `target - n` and releases the lock. -/
def Line.finish (l : Line ι) (p : ι) (rd : Reader) : Line ι :=
  { l with calls := Function.update l.calls p none, lock := none,
           rets := l.rets ++ [(p, (rd.target : Int) - rd.n)] }

/-- One step of the line discipline: the call holding the lock takes committed bytes one at a time,
up to `n` and up to a newline; a `^D` ends it, kept for the next call when bytes were taken; a call
with nothing committed sleeps, letting the lock go, or is killed. -/
def lineStep (ignored : UInt8 → Bool) (l : Line ι) : ConsEvent ι → Option (Line ι)
  | .intr c => if l.lock = none then some (lineKey ignored l c) else none
  | .read p n =>
    if l.calls p = none ∧ l.lock = none then
      if n = 0 then some (l.finish p ⟨0, 0⟩)
      else some { l with calls := Function.update l.calls p (some ⟨n, n⟩), lock := some p }
    else none
  | .readStep p =>
    match l.calls p with
    | none => none
    | some rd =>
      if l.lock ≠ some p then none
      else
        match l.ready with
        | [] => none
        | c :: rest =>
          if c = C 'D' then
            some ({ l with ready := if rd.n < rd.target then c :: rest else rest }.finish p rd)
          else
            let l := { l with ready := rest, out := l.out ++ [c] }
            if c = ch '\n' ∨ rd.n - 1 = 0 then some (l.finish p ⟨rd.n - 1, rd.target⟩)
            else some { l with calls := Function.update l.calls p (some ⟨rd.n - 1, rd.target⟩) }
  | .sleep p =>
    match l.calls p with
    | none => none
    | some _ => if l.lock = some p ∧ l.ready = [] then some { l with lock := none } else none
  | .kill p =>
    match l.calls p with
    | none => none
    | some _ =>
      if l.lock = some p ∧ l.ready = [] then
        some { l with calls := Function.update l.calls p none, lock := none,
                      rets := l.rets ++ [(p, -1)] }
      else none
  | .wake p =>
    match l.calls p with
    | none => none
    | some _ => if l.lock = none then some { l with lock := some p } else none

def lineInit : Line ι := ⟨[], [], fun _ => none, none, [], []⟩

/-! ## The ring as a list -/

/-- The `len` bytes of the ring `buf` from the index `a`. -/
def ringBytes (buf : Fin INPUT_BUF → UInt8) (a : UInt32) (len : Nat) : List UInt8 :=
  (List.range len).map fun k => buf ⟨(a.toNat + k) % INPUT_BUF, Nat.mod_lt _ (by decide)⟩

/-- The bytes from `r` to `e`; the committed ones, to `w`; and the line being typed, from `w`. -/
def Input.all (inp : Input) : List UInt8 := ringBytes inp.buf inp.r (inp.e - inp.r).toNat

def Input.ready (inp : Input) : List UInt8 := inp.all.take (inp.w - inp.r).toNat

def Input.pending (inp : Input) : List UInt8 := inp.all.drop (inp.w - inp.r).toNat

/-- The line discipline the console holds. -/
def lineOf (s : Console ι) : Line ι :=
  ⟨s.input.ready, s.input.pending, s.calls, s.lock, s.out, s.rets⟩

/-- `r ≤ w ≤ e ≤ r + INPUT_BUF` as `uint` distances, and no newline in the line being typed. -/
structure InputInv (inp : Input) : Prop where
  w_le : (inp.w - inp.r).toNat ≤ (inp.e - inp.r).toNat
  e_le : (inp.e - inp.r).toNat ≤ INPUT_BUF
  no_nl : ch '\n' ∉ inp.pending

section Bytes

variable (buf : Fin INPUT_BUF → UInt8) (a : UInt32) (n : Nat)

theorem length_ringBytes : (ringBytes buf a n).length = n := by
  simp [ringBytes]

theorem ringBytes_succ :
    ringBytes buf a (n + 1) =
      ringBytes buf a n ++ [buf ⟨(a.toNat + n) % INPUT_BUF, Nat.mod_lt _ (by decide)⟩] := by
  simp [ringBytes, List.range_succ]

/-- The ring read from `a` is the byte at `a`, then the ring read from `a + 1`: `INPUT_BUF`
divides `2^32`, so the wrap of the index does not move the slot. -/
theorem ringBytes_cons : ringBytes buf a (n + 1) = buf (bufSlot a) :: ringBytes buf (a + 1) n := by
  rw [ringBytes, List.range_succ_eq_map, List.map_cons, List.map_map, ringBytes]
  congr 1
  apply List.map_congr_left
  intro k _
  have ha := a.toNat_lt
  show buf _ = buf _
  congr 1
  apply Fin.ext
  simp only [UInt32.toNat_add, UInt32.toNat_one, INPUT_BUF]
  omega

theorem take_ringBytes (m : Nat) : (ringBytes buf a n).take m = ringBytes buf a (min m n) := by
  rw [ringBytes, ringBytes, ← List.map_take, List.take_range]

theorem dropLast_ringBytes : (ringBytes buf a (n + 1)).dropLast = ringBytes buf a n := by
  rw [ringBytes_succ, List.dropLast_concat]

/-- A write to a slot none of the `n` bytes sits in. -/
theorem ringBytes_update {j : Fin INPUT_BUF} {v : UInt8}
    (h : ∀ k < n, (a.toNat + k) % INPUT_BUF ≠ j.val) :
    ringBytes (Function.update buf j v) a n = ringBytes buf a n := by
  apply List.map_congr_left
  intro k hk
  rw [List.mem_range] at hk
  exact Function.update_of_ne (fun he => h k hk (congrArg Fin.val he)) _ _

end Bytes

/-! ## The indices as distances from `r`

With `cut = w - r` and `len = e - r` as `uint` distances, `cut ≤ len ≤ INPUT_BUF`, each test and
each `++` or `--` of the code is a test or a step on the two lengths. -/

section Indices

variable {inp : Input}

theorem Input.e_eq_w_iff : inp.e = inp.w ↔ (inp.e - inp.r).toNat = (inp.w - inp.r).toNat := by
  rw [UInt32.toNat_inj, sub_left_inj]

theorem Input.r_eq_w_iff : inp.r = inp.w ↔ (inp.w - inp.r).toNat = 0 := by
  have hr := inp.r.toNat_lt
  have hw := inp.w.toNat_lt
  rw [← UInt32.toNat_inj, UInt32.toNat_sub]
  omega

theorem Input.len_pred (hw : (inp.w - inp.r).toNat ≤ (inp.e - inp.r).toNat) (h : inp.e ≠ inp.w) :
    (inp.e - 1 - inp.r).toNat = (inp.e - inp.r).toNat - 1 := by
  have hne := mt Input.e_eq_w_iff.mpr h
  have hr := inp.r.toNat_lt
  have he := inp.e.toNat_lt
  rw [UInt32.toNat_sub, UInt32.toNat_sub, UInt32.toNat_sub, UInt32.toNat_one] at *
  omega

theorem Input.len_succ (hl : (inp.e - inp.r).toNat < INPUT_BUF) :
    (inp.e + 1 - inp.r).toNat = (inp.e - inp.r).toNat + 1 := by
  have hr := inp.r.toNat_lt
  have he := inp.e.toNat_lt
  unfold INPUT_BUF at hl
  rw [UInt32.toNat_sub, UInt32.toNat_sub, UInt32.toNat_add, UInt32.toNat_one] at *
  omega

/-- `r++` past a committed byte shortens both distances by one. -/
theorem Input.lens_of_read (hw : (inp.w - inp.r).toNat ≤ (inp.e - inp.r).toNat) (h : inp.r ≠ inp.w) :
    (inp.w - (inp.r + 1)).toNat = (inp.w - inp.r).toNat - 1 ∧
      (inp.e - (inp.r + 1)).toNat = (inp.e - inp.r).toNat - 1 := by
  have hne := mt Input.r_eq_w_iff.mpr h
  have hr := inp.r.toNat_lt
  have hw' := inp.w.toNat_lt
  have he := inp.e.toNat_lt
  rw [UInt32.toNat_sub, UInt32.toNat_sub, UInt32.toNat_sub, UInt32.toNat_sub, UInt32.toNat_add,
    UInt32.toNat_one] at *
  omega

/-- The slot of an index is the slot of `r` plus its distance from `r`. -/
theorem bufSlot_val_of_sub (r x : UInt32) : (bufSlot x).val = (r.toNat + (x - r).toNat) % INPUT_BUF := by
  have hr := r.toNat_lt
  have hx := x.toNat_lt
  simp only [bufSlot, INPUT_BUF]
  rw [UInt32.toNat_sub]
  omega

theorem Input.lt_iff_len : inp.e - inp.r < INPUT_BUF.toUInt32 ↔ (inp.e - inp.r).toNat < INPUT_BUF := by
  rw [UInt32.lt_iff_toNat_lt]
  rfl

theorem Input.full_iff (hl : (inp.e - inp.r).toNat < INPUT_BUF) :
    inp.e + 1 = inp.r + INPUT_BUF.toUInt32 ↔ (inp.e - inp.r).toNat + 1 = INPUT_BUF := by
  have hr := inp.r.toNat_lt
  have he := inp.e.toNat_lt
  unfold INPUT_BUF at hl ⊢
  rw [← UInt32.toNat_inj, UInt32.toNat_add, UInt32.toNat_add, UInt32.toNat_one,
    show (128 : Nat).toUInt32.toNat = 128 from rfl]
  rw [UInt32.toNat_sub] at hl ⊢
  omega

end Indices

/-! ## What each change of an index does to the lists -/

section Ring

variable {inp : Input}

theorem Input.length_all : inp.all.length = (inp.e - inp.r).toNat := length_ringBytes _ _ _

/-- The committed bytes and the line being typed make up the ring. -/
theorem Input.ready_append_pending : inp.ready ++ inp.pending = inp.all := List.take_append_drop _ _

theorem Input.length_ready (hw : (inp.w - inp.r).toNat ≤ (inp.e - inp.r).toNat) :
    inp.ready.length = (inp.w - inp.r).toNat := by
  rw [Input.ready, List.length_take, Input.length_all]
  omega

theorem Input.length_ready_add_pending :
    inp.ready.length + inp.pending.length = (inp.e - inp.r).toNat := by
  rw [← List.length_append, Input.ready_append_pending, Input.length_all]

/-- `e = w`: the line being typed is erased. -/
theorem Input.lists_erase (hw : (inp.w - inp.r).toNat ≤ (inp.e - inp.r).toNat) :
    ({ inp with e := inp.w } : Input).ready = inp.ready ∧ ({ inp with e := inp.w } : Input).pending = [] := by
  constructor
  · simp only [Input.ready, Input.all, take_ringBytes]
    congr 1
    omega
  · simp only [Input.pending, Input.all]
    exact List.drop_eq_nil_of_le (by rw [length_ringBytes])

/-- `e--`, with a line being typed: its last byte is erased. -/
theorem Input.lists_pred (hw : (inp.w - inp.r).toNat ≤ (inp.e - inp.r).toNat) (h : inp.e ≠ inp.w) :
    ({ inp with e := inp.e - 1 } : Input).ready = inp.ready ∧
      ({ inp with e := inp.e - 1 } : Input).pending = inp.pending.dropLast := by
  have hne := mt Input.e_eq_w_iff.mpr h
  obtain ⟨k, hk⟩ : ∃ k, (inp.e - inp.r).toNat = k + 1 := ⟨(inp.e - inp.r).toNat - 1, by omega⟩
  have hpred := Input.len_pred hw h
  rw [hk, Nat.add_sub_cancel] at hpred
  rw [hk] at hw
  constructor
  · simp only [Input.ready, Input.all, take_ringBytes, hpred, hk]
    congr 1
    omega
  · simp only [Input.pending, Input.all, hpred, hk]
    rw [ringBytes_succ, List.drop_append_of_le_length (by rw [length_ringBytes]; omega),
      List.dropLast_concat]

/-- `buf[e++ % INPUT_BUF] = c` with room in the ring: `c` is added at its end. -/
theorem Input.all_push (hl : (inp.e - inp.r).toNat < INPUT_BUF) (c : UInt8) :
    ({ inp with buf := Function.update inp.buf (bufSlot inp.e) c, e := inp.e + 1 } : Input).all =
      inp.all ++ [c] := by
  have hslot := bufSlot_val_of_sub inp.r inp.e
  simp only [Input.all]
  rw [Input.len_succ hl, ringBytes_succ, ringBytes_update]
  · -- the new byte is in the slot of `e`
    congr 2
    rw [show (⟨(inp.r.toNat + (inp.e - inp.r).toNat) % INPUT_BUF, _⟩ : Fin INPUT_BUF) = bufSlot inp.e
      from Fin.ext hslot.symm]
    exact Function.update_self _ _ _
  · -- the bytes before it sit in other slots, fewer than `INPUT_BUF` of them
    intro k hk heq
    rw [hslot] at heq
    unfold INPUT_BUF at hl heq
    omega

/-- `r++` past a committed byte: the byte at `r` is taken from both the ring and the committed
bytes. -/
theorem Input.lists_read (hw : (inp.w - inp.r).toNat ≤ (inp.e - inp.r).toNat) (h : inp.r ≠ inp.w) :
    inp.ready = inp.buf (bufSlot inp.r) :: ({ inp with r := inp.r + 1 } : Input).ready ∧
      ({ inp with r := inp.r + 1 } : Input).pending = inp.pending := by
  have hne := mt Input.r_eq_w_iff.mpr h
  obtain ⟨hcut, hlen⟩ := Input.lens_of_read hw h
  obtain ⟨k, hk⟩ : ∃ k, (inp.e - inp.r).toNat = k + 1 := ⟨(inp.e - inp.r).toNat - 1, by omega⟩
  obtain ⟨j, hj⟩ : ∃ j, (inp.w - inp.r).toNat = j + 1 := ⟨(inp.w - inp.r).toNat - 1, by omega⟩
  have hall : inp.all = inp.buf (bufSlot inp.r) :: ({ inp with r := inp.r + 1 } : Input).all := by
    simp only [Input.all, hlen, hk, ringBytes_cons]
    rfl
  constructor
  · rw [Input.ready, hall, hj, List.take_succ_cons]
    simp only [Input.ready, hcut, hj]
    rfl
  · rw [Input.pending, Input.pending, hall, hj, List.drop_succ_cons]
    simp only [hcut, hj]
    rfl

/-- The byte before `e`, with a line being typed, is its last byte. -/
theorem Input.last_mem_pending (hw : (inp.w - inp.r).toNat ≤ (inp.e - inp.r).toNat)
    (h : inp.e ≠ inp.w) : inp.buf (bufSlot (inp.e - 1)) ∈ inp.pending := by
  have hne := mt Input.e_eq_w_iff.mpr h
  obtain ⟨k, hk⟩ : ∃ k, (inp.e - inp.r).toNat = k + 1 := ⟨(inp.e - inp.r).toNat - 1, by omega⟩
  have hslot : bufSlot (inp.e - 1) = ⟨(inp.r.toNat + k) % INPUT_BUF, Nat.mod_lt _ (by decide)⟩ :=
    Fin.ext (by rw [bufSlot_val_of_sub inp.r, Input.len_pred hw h, hk, Nat.add_sub_cancel])
  rw [Input.pending, Input.all, hk, ringBytes_succ,
    List.drop_append_of_le_length (by rw [length_ringBytes]; omega), hslot]
  exact List.mem_append_right _ (List.mem_singleton_self _)

/-- The byte stored at `e`, the line left open: it is added to the line being typed. -/
theorem Input.lists_push (hw : (inp.w - inp.r).toNat ≤ (inp.e - inp.r).toNat)
    (hl : (inp.e - inp.r).toNat < INPUT_BUF) (c : UInt8) :
    ({ inp with buf := Function.update inp.buf (bufSlot inp.e) c, e := inp.e + 1 } : Input).ready =
        inp.ready ∧
      ({ inp with buf := Function.update inp.buf (bufSlot inp.e) c, e := inp.e + 1 } : Input).pending =
        inp.pending ++ [c] := by
  have hall := Input.all_push hl c
  have hlen : (inp.w - inp.r).toNat ≤ inp.all.length := by rw [Input.length_all]; exact hw
  constructor
  · rw [Input.ready, hall, List.take_append_of_le_length hlen]
    rfl
  · rw [Input.pending, hall, List.drop_append_of_le_length hlen]
    rfl

/-- The byte stored at `e` and the line committed (`w = e`): the whole ring is committed. -/
theorem Input.lists_push_commit (hl : (inp.e - inp.r).toNat < INPUT_BUF) (c : UInt8) :
    ({ inp with buf := Function.update inp.buf (bufSlot inp.e) c, e := inp.e + 1, w := inp.e + 1 } :
        Input).ready = inp.all ++ [c] ∧
      ({ inp with buf := Function.update inp.buf (bufSlot inp.e) c, e := inp.e + 1, w := inp.e + 1 } :
        Input).pending = [] := by
  -- the ring does not depend on `w`
  have hall : Input.all ⟨Function.update inp.buf (bufSlot inp.e) c, inp.r, inp.e + 1, inp.e + 1⟩ =
      inp.all ++ [c] := Input.all_push hl c
  have hlen : (inp.e + 1 - inp.r).toNat = (inp.all ++ [c]).length := by
    rw [Input.len_succ hl, List.length_append, Input.length_all, List.length_singleton]
  constructor
  · show (Input.all _).take (inp.e + 1 - inp.r).toNat = _
    rw [hlen, ← hall, List.take_length]
  · show (Input.all _).drop (inp.e + 1 - inp.r).toNat = _
    rw [hlen, ← hall, List.drop_length]

end Ring

/-- With no newline in the line being typed, `^U`'s loop erases all of it. -/
theorem killLine_eq (inp : Input) (hw : (inp.w - inp.r).toNat ≤ (inp.e - inp.r).toNat)
    (hnl : ch '\n' ∉ inp.pending) : killLine inp = { inp with e := inp.w } := by
  rw [killLine]
  split
  · -- one byte erased: the line left is shorter, and still has no newline
    rename_i h
    have he : inp.e ≠ inp.w := h.1
    obtain ⟨hr, hp⟩ := Input.lists_pred hw he
    have hw' : (inp.w - inp.r).toNat ≤ (inp.e - 1 - inp.r).toNat := by
      rw [Input.len_pred hw he]
      have := mt Input.e_eq_w_iff.mpr he
      omega
    have hnl' : ch '\n' ∉ ({ inp with e := inp.e - 1 } : Input).pending := by
      rw [hp]
      exact fun hm => hnl (List.dropLast_subset _ hm)
    rw [killLine_eq { inp with e := inp.e - 1 } hw' hnl']
  · -- the loop stops at `w`: a newline before `e` would be in the line
    rename_i h
    by_cases he : inp.e = inp.w
    · obtain ⟨buf, r, w, e⟩ := inp
      dsimp only at he ⊢
      rw [he]
    · have hb : inp.buf (bufSlot (inp.e - 1)) = ch '\n' := by
        by_contra hb
        exact h ⟨he, hb⟩
      exact absurd (hb ▸ Input.last_mem_pending hw he) hnl
termination_by (inp.e - inp.w).toNat
decreasing_by exact killLine_lt ‹_›

/-! ## The ring implements the line discipline -/

omit [DecidableEq ι] in
/-- One character of `consoleintr` is one character of the line discipline that ignores `^P` and
`NUL`. -/
theorem lineKey_consoleintr {inp : Input} (hi : InputInv inp) (c : UInt8) (l : Line ι)
    (hr : l.ready = inp.ready) (hp : l.pending = inp.pending) :
    lineKey codeIgnores l c =
      { l with ready := (consoleintr inp c).ready, pending := (consoleintr inp c).pending } := by
  have hw := hi.w_le
  by_cases hig : codeIgnores c = true
  · -- `^P` and `NUL` leave the ring as it is
    have hsame : consoleintr inp c = inp := by
      simp only [codeIgnores, decide_eq_true_eq] at hig
      rcases hig with rfl | rfl
      · rw [consoleintr, if_pos rfl]
      · rw [consoleintr, if_neg (by decide), if_neg (by decide), if_neg (by decide), if_neg (by simp)]
    rw [lineKey, if_pos hig, hsame, ← hr, ← hp]
  have hP : c ≠ C 'P' := fun h => hig (by simp [codeIgnores, h])
  have h0 : c ≠ 0 := fun h => hig (by simp [codeIgnores, h])
  rw [lineKey, if_neg hig, consoleintr, if_neg hP]
  by_cases hU : c = C 'U'
  · -- kill line: no newline in the line being typed, so all of it goes
    obtain ⟨he₁, he₂⟩ := Input.lists_erase hw
    rw [if_pos hU, if_pos hU, killLine_eq inp hw hi.no_nl, he₁, he₂, hr]
  rw [if_neg hU, if_neg hU]
  by_cases hB : c = C 'H' ∨ c = 0x7f
  · -- backspace
    rw [if_pos hB, if_pos hB]
    by_cases he : inp.e ≠ inp.w
    · obtain ⟨he₁, he₂⟩ := Input.lists_pred hw he
      rw [if_pos he, he₁, he₂, hr, hp]
    · -- nothing typed, nothing erased
      have hnil : inp.pending = [] := List.drop_eq_nil_of_le (by
        rw [Input.length_all, ← Input.e_eq_w_iff.mp (not_not.mp he)])
      rw [if_neg he, hp, hnil, ← hr]
      rfl
  rw [if_neg hB, if_neg hB]
  have hlen : inp.ready.length + inp.pending.length = (inp.e - inp.r).toNat :=
    Input.length_ready_add_pending
  rw [hr, hp]
  by_cases hl : (inp.e - inp.r).toNat < INPUT_BUF
  · -- room in the ring: the character is stored, `'\r'` as `'\n'`
    have hroom : inp.ready.length + inp.pending.length < INPUT_BUF := by rwa [hlen]
    rw [if_pos hroom, if_pos (show c ≠ 0 ∧ inp.e - inp.r < INPUT_BUF.toUInt32 from
      ⟨h0, Input.lt_iff_len.mpr hl⟩)]
    dsimp only
    generalize (if c = ch '\r' then ch '\n' else c) = c'
    have hfull : inp.ready.length + (inp.pending ++ [c']).length = INPUT_BUF ↔
        inp.e + 1 = inp.r + INPUT_BUF.toUInt32 := by
      rw [List.length_append, List.length_singleton, ← Nat.add_assoc, hlen, Input.full_iff hl]
    by_cases hcm : c' = ch '\n' ∨ c' = C 'D' ∨ inp.e + 1 = inp.r + INPUT_BUF.toUInt32
    · -- the line is committed
      obtain ⟨hc₁, hc₂⟩ := Input.lists_push_commit hl c'
      rw [if_pos (hcm.imp_right (Or.imp_right hfull.mpr)), if_pos hcm, hc₁, hc₂, ← List.append_assoc,
        Input.ready_append_pending]
    · obtain ⟨hc₁, hc₂⟩ := Input.lists_push hw hl c'
      rw [if_neg (fun h => hcm (h.imp_right (Or.imp_right hfull.mp))), if_neg hcm, hc₁, hc₂]
  · -- the ring is full: the character is dropped
    have hroom : ¬ inp.ready.length + inp.pending.length < INPUT_BUF := by rwa [hlen]
    rw [if_neg hroom, if_neg (show ¬ (c ≠ 0 ∧ inp.e - inp.r < INPUT_BUF.toUInt32) from
      fun h => hl (Input.lt_iff_len.mp h.2)), ← hr, ← hp]

theorem Input.ready_eq_nil_iff {inp : Input} (hw : (inp.w - inp.r).toNat ≤ (inp.e - inp.r).toNat) :
    inp.ready = [] ↔ inp.r = inp.w := by
  rw [← List.length_eq_zero_iff, Input.length_ready hw, Input.r_eq_w_iff]

/-- Each step of the console is the step of its line discipline. -/
theorem lineOf_step {s : Console ι} (hi : InputInv s.input) (ev : ConsEvent ι) :
    (consStep s ev).map lineOf = lineStep codeIgnores (lineOf s) ev := by
  obtain ⟨inp, calls, lock, out, rets⟩ := s
  dsimp only at hi
  have hw := hi.w_le
  cases ev with
  | intr c =>
    by_cases hl : lock = none
    · simp only [consStep, lineStep, lineOf, hl, if_true, Option.map_some]
      rw [lineKey_consoleintr hi c _ rfl rfl]
    · simp [consStep, lineStep, lineOf, hl]
  | read p n =>
    by_cases hfree : calls p = none ∧ lock = none
    · by_cases hn : n = 0
      · simp [consStep, lineStep, lineOf, hfree, hn, Console.finish, Line.finish]
      · simp [consStep, lineStep, lineOf, hfree, hn]
    · simp only [consStep, lineStep, lineOf, hfree, if_false, Option.map_none]
  | readStep p =>
    cases hc : calls p with
    | none => simp [consStep, lineStep, lineOf, hc]
    | some rd =>
      by_cases hlk : lock = some p
      swap
      · simp [consStep, lineStep, lineOf, hc, hlk]
      by_cases hrw : inp.r = inp.w
      · -- nothing committed: the call sleeps instead
        simp [consStep, lineStep, lineOf, hc, hlk, hrw, (Input.ready_eq_nil_iff hw).mpr hrw]
      · obtain ⟨hready, hpend⟩ := Input.lists_read hw hrw
        simp only [consStep, lineStep, lineOf, hc, hlk, ne_eq, not_true_eq_false, if_false,
          if_neg hrw, hready]
        by_cases hD : inp.buf (bufSlot inp.r) = C 'D'
        · -- end of file: the `^D` is put back when bytes were taken
          have hback : ({ inp with r := inp.r + 1 - 1 } : Input) = inp := by rw [add_sub_cancel_right]
          by_cases hlt : rd.n < rd.target
          · simp only [if_pos hD, if_pos hlt, hback, Option.map_some]
            rw [← hready]
            rfl
          · simp only [if_pos hD, if_neg hlt, Option.map_some]
            rw [← hpend]
            rfl
        · -- a byte taken: the call ends at a newline or with `n` bytes
          simp only [if_neg hD]
          rw [← hpend]
          split <;> rfl
  | sleep p | kill p =>
    cases hc : calls p with
    | none => simp [consStep, lineStep, lineOf, hc]
    | some _ =>
      by_cases hs : lock = some p ∧ inp.r = inp.w
      · simp [consStep, lineStep, lineOf, hc, hs, (Input.ready_eq_nil_iff hw).mpr hs.2]
      · simp only [consStep, lineStep, lineOf, hc, Input.ready_eq_nil_iff hw, hs, if_false,
          Option.map_none]
  | wake p =>
    cases hc : calls p with
    | none => simp [consStep, lineStep, lineOf, hc]
    | some _ =>
      by_cases hl : lock = none <;> simp [consStep, lineStep, lineOf, hc, hl]

omit [DecidableEq ι] in
/-- The line being typed never holds a newline: a `'\n'` commits it. -/
theorem lineKey_no_nl (ignored : UInt8 → Bool) {l : Line ι} (h : ch '\n' ∉ l.pending) (c : UInt8) :
    ch '\n' ∉ (lineKey ignored l c).pending := by
  unfold lineKey
  split
  · exact h
  split
  · exact List.not_mem_nil
  split
  · exact fun hm => h (List.dropLast_subset _ hm)
  split
  · -- the character stored: a newline commits the line
    dsimp only
    generalize (if c = ch '\r' then ch '\n' else c) = c'
    split
    · exact List.not_mem_nil
    · rename_i hcm
      rw [List.mem_append, List.mem_singleton, not_or]
      exact ⟨h, fun he => hcm (Or.inl he.symm)⟩
  · exact h

/-- `consoleintr` keeps `r`, and `r ≤ w ≤ e ≤ r + INPUT_BUF`: it moves `e` back to `w`, or by one
within the ring, and `w` only to `e`. -/
theorem consoleintr_lens {inp : Input} (hi : InputInv inp) (c : UInt8) :
    (consoleintr inp c).r = inp.r ∧
      ((consoleintr inp c).w - inp.r).toNat ≤ ((consoleintr inp c).e - inp.r).toNat ∧
      ((consoleintr inp c).e - inp.r).toNat ≤ INPUT_BUF := by
  have hw := hi.w_le
  have he := hi.e_le
  unfold consoleintr
  split
  · exact ⟨rfl, hw, he⟩
  split
  · rw [killLine_eq inp hw hi.no_nl]
    exact ⟨rfl, le_rfl, hw.trans he⟩
  split
  · -- backspace
    split
    · rename_i hne
      have hlen := Input.len_pred hw hne
      have hne' := mt Input.e_eq_w_iff.mpr hne
      dsimp only
      refine ⟨rfl, ?_, ?_⟩ <;> omega
    · exact ⟨rfl, hw, he⟩
  split
  · -- the character stored, with room in the ring
    rename_i hst
    have hl := Input.lt_iff_len.mp hst.2
    have hlen := Input.len_succ hl
    dsimp only
    generalize (if c = ch '\r' then ch '\n' else c) = c'
    split <;> dsimp only
    · refine ⟨rfl, le_rfl, ?_⟩
      omega
    · refine ⟨rfl, ?_, ?_⟩ <;> omega
  · exact ⟨rfl, hw, he⟩

/-- Each step of the console keeps `InputInv`. -/
theorem consInv_step {s s' : Console ι} {ev : ConsEvent ι} (hi : InputInv s.input)
    (h : consStep s ev = some s') : InputInv s'.input := by
  obtain ⟨inp, calls, lock, out, rets⟩ := s
  dsimp only at hi
  cases ev with
  | intr c =>
    simp only [consStep] at h
    split_ifs at h
    cases h
    obtain ⟨hr, hw, he⟩ := consoleintr_lens hi c
    -- the line being typed is the discipline's, which has no newline
    have hkey := congrArg Line.pending
      (lineKey_consoleintr hi c (⟨inp.ready, inp.pending, calls, lock, [], []⟩ : Line ι) rfl rfl)
    refine ⟨?_, ?_, ?_⟩
    · rw [hr]
      exact hw
    · rw [hr]
      exact he
    · rw [show (consoleintr inp c).pending = _ from hkey.symm]
      exact lineKey_no_nl codeIgnores hi.no_nl c
  | read p n =>
    simp only [consStep] at h
    split_ifs at h <;> (cases h; exact hi)
  | readStep p =>
    simp only [consStep] at h
    split at h
    · cases h
    split at h
    · cases h
    split at h
    · cases h
    rename_i hrw
    obtain ⟨hcut, hlen⟩ := Input.lens_of_read hi.w_le hrw
    have hpend := (Input.lists_read hi.w_le hrw).2
    have hne := mt Input.r_eq_w_iff.mpr hrw
    have hw := hi.w_le
    have he := hi.e_le
    have hnext : InputInv { inp with r := inp.r + 1 } :=
      ⟨by dsimp only; omega, by dsimp only; omega, hpend ▸ hi.no_nl⟩
    split at h
    · -- end of file, the `^D` put back or taken
      cases h
      dsimp only [Console.finish]
      split
      · rw [add_sub_cancel_right]
        exact hi
      · exact hnext
    · split at h <;> (cases h; exact hnext)
  | sleep p | kill p | wake p =>
    -- the ring is left as it is
    simp only [consStep] at h
    split at h
    · cases h
    · split_ifs at h
      cases h
      exact hi

omit [DecidableEq ι] in
theorem consInit_inv : InputInv (consInit : Console ι).input :=
  show InputInv ⟨fun _ => 0, 0, 0, 0⟩ from ⟨le_rfl, by decide, List.not_mem_nil⟩

omit [DecidableEq ι] in
/-- At boot the ring holds nothing, and no call is in progress. -/
theorem lineOf_consInit : lineOf (consInit : Console ι) = lineInit := by
  simp only [lineOf, consInit, lineInit, Line.mk.injEq, and_true]
  exact ⟨rfl, rfl⟩

/-- Every run of the console, from boot, whatever processes call `consoleread` and however their
calls interleave with the typed characters and with each other, is the run of the line discipline
that ignores `^P` and `NUL` on the same events, bytes read and results included, and keeps the
ring's indices in order. -/
theorem console_line_discipline (es : List (ConsEvent ι)) :
    (Run.run consStep consInit es).map lineOf = Run.run (lineStep codeIgnores) lineInit es ∧
      ∀ s, Run.run consStep consInit es = some s →
        (s.input.w - s.input.r).toNat ≤ (s.input.e - s.input.r).toNat ∧
          (s.input.e - s.input.r).toNat ≤ INPUT_BUF := by
  have hinv : ∀ (s : Console ι) ev s', InputInv s.input → consStep s ev = some s' →
      InputInv s'.input :=
    fun _ _ _ hi h => consInv_step hi h
  constructor
  · have hsim := Run.run_map lineOf (fun s : Console ι => InputInv s.input)
      (fun _ ev hi => lineOf_step hi ev) hinv es consInit consInit_inv
    rw [hsim, lineOf_consInit]
  · intro s hs
    have hi := Run.run_inv (fun s : Console ι => InputInv s.input) hinv es consInit s consInit_inv hs
    exact ⟨hi.w_le, hi.e_le⟩

/-- Two processes wait in `consoleread` for a line; the one woken first takes all of it, and the
other sleeps again. -/
example : (Run.run consStep (consInit : Console Nat)
    [.read 0 8, .sleep 0, .read 1 8, .sleep 1, .intr (ch 'a'), .intr (ch '\n'), .wake 1,
      .readStep 1, .readStep 1, .wake 0, .sleep 0]).map (fun s => (s.out, s.rets)) =
    some ([ch 'a', ch '\n'], [(1, 2)]) := by
  decide

/-- A `^D` that ends a call of `p` that took bytes stays committed, and the next call of any
process with none in progress, of any `n > 0`, returns `0` at it and takes it. -/
theorem lineStep_eot_kept (ignored : UInt8 → Bool) {l : Line ι} {p : ι} {rd : Reader}
    {rest : List UInt8} (hc : l.calls p = some rd) (hlk : l.lock = some p)
    (hready : l.ready = C 'D' :: rest) (hlt : rd.n < rd.target) {n : Nat} (hn : 0 < n) :
    ∃ l', lineStep ignored l (.readStep p) = some l' ∧ l'.ready = l.ready ∧ l'.calls p = none ∧
      l'.rets = l.rets ++ [(p, (rd.target : Int) - rd.n)] ∧
      ∀ q, l'.calls q = none →
        Run.run (lineStep ignored) l' [.read q n, .readStep q] =
          some { l' with ready := rest, rets := l'.rets ++ [(q, 0)] } := by
  obtain ⟨ready, pending, calls, lock, out, rets⟩ := l
  dsimp only at hc hlk hready
  subst hlk hready
  refine ⟨⟨C 'D' :: rest, pending, Function.update calls p none, none, out,
    rets ++ [(p, (rd.target : Int) - rd.n)]⟩, ?_, rfl, by simp, rfl, fun q hq => ?_⟩
  · simp [lineStep, hc, Line.finish, hlt]
  · -- the fresh call has taken nothing, so it takes the `^D`, and its process's call is over
    dsimp only at hq
    simp [Run.run_cons, lineStep, Line.finish, hq, hn.ne', Function.update_eq_self_iff]

/-- The code does not deliver a `^P` typed in a line, where a discipline that keeps every typed
character does. -/
theorem ctrlP_not_delivered :
    (Run.run consStep (consInit : Console Nat)
        [.intr (C 'P'), .intr (ch '\n'), .read 0 2, .readStep 0]).map Console.out =
        some [ch '\n'] ∧
      (Run.run (lineStep fun _ => false) (lineInit : Line Nat)
          [.intr (C 'P'), .intr (ch '\n'), .read 0 2, .readStep 0]).map Line.out =
        some [C 'P'] := by
  decide

end Xv6
