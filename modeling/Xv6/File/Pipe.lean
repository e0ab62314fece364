import Xv6.Lib.Run

/-!
# Pipes: `pipe.c`

A pipe is a ring of `PIPESIZE` bytes with two free-running `uint` counters `nread` and `nwrite`: the
byte with index `k` of the stream sits in `data[k % PIPESIZE]`. `pipewrite` and `piperead` run under
`p->lock`, and a locked section between two `sleep` calls is one atomic step.

* `Pipe`, `pipewriteLoop`, `piperead`, `pipeclose` : `struct pipe` and the code, the counters as
  `UInt32`, so that they wrap at `2^32` as on x86;
* `PipeSys`, `pipeStep` : any number of processes calling `pipewrite` and `piperead` on one pipe,
  asleep inside them, woken, killed, and the ends being closed; the ghost fields `stored` and
  `readOut` are the bytes `pipewrite` stored and the bytes `piperead` returned, in order;
* `PipeInv` : the unread bytes are the part of `stored` after `readOut`, at most `PIPESIZE` of them,
  each in `data` at its stream index modulo `PIPESIZE`, and the counters are the two lengths modulo
  `2^32`;
* `pipe_fifo` : along every run the counters differ by at most `PIPESIZE` modulo `2^32`, the bytes
  read are a prefix of the bytes stored, and `piperead` returns `0` only when the pipe is empty and
  its write end closed.

A process asleep in a pipe call may be woken at any step: the runs include every order in which
`wakeup` and `kill` can wake it.
-/

namespace Xv6

/-- `#define PIPESIZE 512`. -/
def PIPESIZE : Nat := 512

/-- `struct pipe` without its lock, which makes each section atomic. The bytes have type `α`. -/
structure Pipe (α : Type) where
  data : Fin PIPESIZE → α
  nread : UInt32
  nwrite : UInt32
  readopen : Bool
  writeopen : Bool

variable {α : Type}

/-- The slot `data[k % PIPESIZE]` of a counter value `k`. -/
def pipeSlot (k : UInt32) : Fin PIPESIZE :=
  ⟨(k % PIPESIZE.toUInt32).toNat, by
    rw [UInt32.toNat_mod]
    exact Nat.mod_lt _ (by decide)⟩

/-- How a locked section of `pipewrite` or `piperead` ends: in `sleep`, or returning `v`. -/
inductive Stop where
  | sleep
  | ret (v : Int)
  deriving DecidableEq, Repr

/-- The `for` loop of `pipewrite(p, addr, n)` with `p->lock` held, from the byte `addr[i]` on
(`rest` is `addr[i..n)`): the pipe, the bytes not stored, and how the section ends. On a full pipe
it returns `-1` if the read end is closed or the caller is killed, and sleeps otherwise. -/
def pipewriteLoop (killed : Bool) (n : Nat) : Pipe α → List α → Pipe α × List α × Stop
  | p, [] => (p, [], .ret n)
  | p, b :: rest =>
    if p.nwrite = p.nread + PIPESIZE.toUInt32 then
      if !p.readopen || killed then (p, b :: rest, .ret (-1)) else (p, b :: rest, .sleep)
    else
      pipewriteLoop killed n
        { p with data := Function.update p.data (pipeSlot p.nwrite) b, nwrite := p.nwrite + 1 } rest

/-- The copy loop of `piperead`: at most `n` bytes, stopping when the pipe is empty. -/
def pipereadCopy : Nat → Pipe α → Pipe α × List α
  | 0, p => (p, [])
  | k + 1, p =>
    if p.nread = p.nwrite then (p, [])
    else
      let r := pipereadCopy k { p with nread := p.nread + 1 }
      (r.1, p.data (pipeSlot p.nread) :: r.2)

/-- A locked section of `piperead(p, addr, n)`: sleep while the pipe is empty and its write end
open (`-1` if the caller is killed), then copy; the bytes copied to `addr` and how it ends. -/
def piperead (killed : Bool) (n : Nat) (p : Pipe α) : Pipe α × List α × Stop :=
  if p.nread = p.nwrite ∧ p.writeopen = true then
    if killed then (p, [], .ret (-1)) else (p, [], .sleep)
  else
    let r := pipereadCopy n p
    (r.1, r.2, .ret r.2.length)

/-- `pipeclose(p, writable)`: close one end. -/
def pipeclose (writable : Bool) (p : Pipe α) : Pipe α :=
  if writable then { p with writeopen := false } else { p with readopen := false }

/-- The pipe `pipealloc` leaves, `data` being whatever the page `kalloc` returned held. -/
def pipealloc (data : Fin PIPESIZE → α) : Pipe α := ⟨data, 0, 0, true, true⟩

/-! ## Counters and slots

The counters are the stream lengths modulo `2^32`. Since `PIPESIZE` divides `2^32`, a counter's slot
is the slot of the length it stands for, and as long as the lengths differ by at most `PIPESIZE`
the `uint` tests of the code decide the tests on the lengths. -/

/-- The slot of stream index `j`. -/
def ringSlot (j : Nat) : Fin PIPESIZE := ⟨j % PIPESIZE, Nat.mod_lt _ (by decide)⟩

theorem pipeSlot_eq (k : UInt32) : pipeSlot k = ringSlot k.toNat := by
  ext
  simp [pipeSlot, ringSlot, UInt32.toNat_mod, PIPESIZE]

theorem ringSlot_mod (j : Nat) : ringSlot (j % 2 ^ 32) = ringSlot j := by
  ext
  exact Nat.mod_mod_of_dvd j (by decide)

/-- Two indices less than `PIPESIZE` apart have different slots. -/
theorem ringSlot_ne {i j : Nat} (hij : i < j) (hji : j < i + PIPESIZE) : ringSlot i ≠ ringSlot j := by
  intro h
  have h' := congrArg Fin.val h
  simp only [ringSlot, PIPESIZE] at h' hji
  omega

section Counters

variable {r w : UInt32} {R S : Nat}
  (hw : w.toNat = S % 2 ^ 32) (hr : r.toNat = R % 2 ^ 32) (hle : R ≤ S) (hd : S ≤ R + PIPESIZE)
include hw hr hle hd

theorem toNat_sub_of_mod : (w - r).toNat = S - R := by
  rw [UInt32.toNat_sub, hw, hr]
  unfold PIPESIZE at hd
  omega

/-- The full test `nwrite == nread + PIPESIZE`. -/
theorem full_iff : w = r + PIPESIZE.toUInt32 ↔ S = R + PIPESIZE := by
  have h512 : PIPESIZE.toUInt32.toNat = PIPESIZE := rfl
  rw [← UInt32.toNat_inj, UInt32.toNat_add, hw, hr, h512]
  unfold PIPESIZE at hd ⊢
  omega

/-- The empty test `nread == nwrite`. -/
theorem empty_iff : r = w ↔ R = S := by
  rw [← UInt32.toNat_inj, hw, hr]
  unfold PIPESIZE at hd
  omega

end Counters

/-! ## The invariant of one pipe -/

/-- `readOut` is a prefix of `stored`, at most `PIPESIZE` bytes shorter; the counters are the two
lengths modulo `2^32`; every unread byte is in `data` at its slot. -/
structure PipeInv (p : Pipe α) (stored readOut : List α) : Prop where
  isPrefix : readOut <+: stored
  unread_le : stored.length ≤ readOut.length + PIPESIZE
  nwrite_eq : p.nwrite.toNat = stored.length % 2 ^ 32
  nread_eq : p.nread.toNat = readOut.length % 2 ^ 32
  data_eq : ∀ j (hj : j < stored.length), readOut.length ≤ j → p.data (ringSlot j) = stored[j]

section Inv

variable {p : Pipe α} {stored readOut : List α}

theorem PipeInv.read_le (hi : PipeInv p stored readOut) : readOut.length ≤ stored.length :=
  hi.isPrefix.length_le

theorem PipeInv.full_iff (hi : PipeInv p stored readOut) :
    p.nwrite = p.nread + PIPESIZE.toUInt32 ↔ stored.length = readOut.length + PIPESIZE :=
  Xv6.full_iff hi.nwrite_eq hi.nread_eq hi.read_le hi.unread_le

theorem PipeInv.empty_iff (hi : PipeInv p stored readOut) :
    p.nread = p.nwrite ↔ readOut.length = stored.length :=
  Xv6.empty_iff hi.nwrite_eq hi.nread_eq hi.read_le hi.unread_le

theorem PipeInv.sub_toNat (hi : PipeInv p stored readOut) :
    (p.nwrite - p.nread).toNat = stored.length - readOut.length :=
  toNat_sub_of_mod hi.nwrite_eq hi.nread_eq hi.read_le hi.unread_le

theorem pipeInv_pipealloc (data : Fin PIPESIZE → α) : PipeInv (pipealloc data) [] [] where
  isPrefix := List.nil_prefix
  unread_le := Nat.zero_le _
  nwrite_eq := rfl
  nread_eq := rfl
  data_eq := fun _ hj => absurd hj (Nat.not_lt_zero _)

/-- `p->data[p->nwrite++ % PIPESIZE] = b` on a pipe that is not full. -/
theorem PipeInv.store (hi : PipeInv p stored readOut) (hfull : ¬p.nwrite = p.nread + PIPESIZE.toUInt32)
    (b : α) :
    PipeInv { p with data := Function.update p.data (pipeSlot p.nwrite) b, nwrite := p.nwrite + 1 }
      (stored ++ [b]) readOut := by
  have hlt : stored.length < readOut.length + PIPESIZE := by
    have := hi.unread_le
    rw [hi.full_iff] at hfull
    omega
  have hslot : pipeSlot p.nwrite = ringSlot stored.length := by
    rw [pipeSlot_eq, hi.nwrite_eq, ringSlot_mod]
  refine ⟨hi.isPrefix.trans (List.prefix_append _ _), ?_, ?_, hi.nread_eq, ?_⟩
  · simp only [List.length_append, List.length_singleton]
    omega
  · simp only [UInt32.toNat_add, hi.nwrite_eq, UInt32.toNat_one, List.length_append,
      List.length_singleton]
    omega
  · intro j hj hR
    simp only [List.length_append, List.length_singleton] at hj
    dsimp only
    rw [hslot]
    rcases Nat.lt_succ_iff_lt_or_eq.mp hj with hj | rfl
    · rw [Function.update_of_ne (ringSlot_ne hj (by omega)), List.getElem_append_left hj,
        hi.data_eq j hj hR]
    · simp

/-- The byte at `p->data[p->nread % PIPESIZE]` of a pipe that is not empty is the first unread one. -/
theorem PipeInv.data_nread (hi : PipeInv p stored readOut) (hlt : readOut.length < stored.length) :
    p.data (pipeSlot p.nread) = stored[readOut.length] := by
  rw [pipeSlot_eq, hi.nread_eq, ringSlot_mod]
  exact hi.data_eq _ hlt le_rfl

/-- `addr[i] = p->data[p->nread++ % PIPESIZE]` on a pipe that is not empty. -/
theorem PipeInv.take (hi : PipeInv p stored readOut) (hne : ¬p.nread = p.nwrite) :
    PipeInv { p with nread := p.nread + 1 } stored (readOut ++ [p.data (pipeSlot p.nread)]) := by
  have hlt : readOut.length < stored.length := by
    have := hi.read_le
    rw [hi.empty_iff] at hne
    omega
  have htake : readOut ++ [p.data (pipeSlot p.nread)] = stored.take (readOut.length + 1) := by
    rw [hi.data_nread hlt, List.take_succ_eq_append_getElem hlt]
    exact congrArg (· ++ [stored[readOut.length]]) (List.prefix_iff_eq_take.mp hi.isPrefix)
  refine ⟨htake ▸ List.take_prefix _ _, ?_, hi.nwrite_eq, ?_, ?_⟩
  · simp only [List.length_append, List.length_singleton]
    have := hi.unread_le
    omega
  · simp only [UInt32.toNat_add, hi.nread_eq, UInt32.toNat_one, List.length_append,
      List.length_singleton]
    omega
  · intro j hj hR
    simp only [List.length_append, List.length_singleton] at hR
    exact hi.data_eq j hj (by omega)

/-- A write section stores a first part of its bytes, in order, and stops with the rest. -/
theorem PipeInv.pipewriteLoop (killed : Bool) (n : Nat) :
    ∀ (rest : List α) (p : Pipe α) (stored : List α), PipeInv p stored readOut →
      ∃ pre, rest = pre ++ (pipewriteLoop killed n p rest).2.1 ∧
        PipeInv (pipewriteLoop killed n p rest).1 (stored ++ pre) readOut
  | [], p, stored, hi => ⟨[], rfl, by simpa [Xv6.pipewriteLoop] using hi⟩
  | b :: rest, p, stored, hi => by
    unfold Xv6.pipewriteLoop
    split
    · exact ⟨[], by split <;> rfl, by split <;> simpa using hi⟩
    · next hfull =>
      obtain ⟨pre, hpre, hi'⟩ := PipeInv.pipewriteLoop killed n rest _ _ (hi.store hfull b)
      exact ⟨b :: pre, by rw [List.cons_append, ← hpre], by simpa using hi'⟩

/-- The copy loop returns the next unread bytes, in order. -/
theorem PipeInv.pipereadCopy :
    ∀ (k : Nat) (p : Pipe α) (readOut : List α), PipeInv p stored readOut →
      PipeInv (pipereadCopy k p).1 stored (readOut ++ (pipereadCopy k p).2)
  | 0, p, readOut, hi => by simpa [Xv6.pipereadCopy] using hi
  | k + 1, p, readOut, hi => by
    unfold Xv6.pipereadCopy
    split
    · simpa using hi
    · next hne =>
      have := PipeInv.pipereadCopy k _ _ (hi.take hne)
      simpa using this

/-- What the copy loop returns is the queue of unread bytes cut to `k`: the pipe is a FIFO. -/
theorem PipeInv.pipereadCopy_eq :
    ∀ (k : Nat) (p : Pipe α) (readOut : List α), PipeInv p stored readOut →
      (Xv6.pipereadCopy k p).2 = (stored.drop readOut.length).take k
  | 0, p, readOut, hi => by simp [Xv6.pipereadCopy]
  | k + 1, p, readOut, hi => by
    unfold Xv6.pipereadCopy
    split
    · next hempty =>
      rw [hi.empty_iff] at hempty
      simp [hempty]
    · next hne =>
      have hlt : readOut.length < stored.length := by
        have := hi.read_le
        rw [hi.empty_iff] at hne
        omega
      have ih := PipeInv.pipereadCopy_eq k _ _ (hi.take hne)
      rw [List.length_append, List.length_singleton] at ih
      dsimp only
      rw [List.drop_eq_getElem_cons hlt, List.take_succ_cons, hi.data_nread hlt, ih]

theorem PipeInv.piperead (hi : PipeInv p stored readOut) (killed : Bool) (n : Nat) :
    PipeInv (piperead killed n p).1 stored (readOut ++ (piperead killed n p).2.1) := by
  unfold Xv6.piperead
  split
  · split <;> simpa using hi
  · exact hi.pipereadCopy n p readOut

theorem PipeInv.pipeclose (hi : PipeInv p stored readOut) (writable : Bool) :
    PipeInv (pipeclose writable p) stored readOut := by
  unfold Xv6.pipeclose
  split <;> exact ⟨hi.isPrefix, hi.unread_le, hi.nwrite_eq, hi.nread_eq, hi.data_eq⟩

end Inv

/-- `piperead` with `n > 0` returns `0` only on an empty pipe whose write end is closed. -/
theorem piperead_eq_zero {killed : Bool} {n : Nat} {p p' : Pipe α} {out : List α} (hn : 0 < n)
    (h : piperead killed n p = (p', out, .ret 0)) : p.nread = p.nwrite ∧ p.writeopen = false := by
  unfold piperead at h
  split at h
  · split at h <;> simp at h
  · next hopen =>
    obtain ⟨k, rfl⟩ : ∃ k, n = k + 1 := ⟨n - 1, by omega⟩
    have hempty : p.nread = p.nwrite := by
      by_contra hne
      simp only [pipereadCopy, hne, if_false, Prod.mk.injEq, Stop.ret.injEq, List.length_cons] at h
      omega
    simp_all

/-! ## Processes on one pipe -/

/-- Where a process stands: outside the pipe calls, or asleep in `pipewrite(p, addr, n)` with the
bytes `rest` still to store, or asleep in `piperead(p, addr, n)`. -/
inductive PipeCall (α : Type) where
  | idle
  | write (n : Nat) (rest : List α)
  | read (n : Nat)

/-- After a section of the call `c` that ended in `st`: still in `c`, asleep, or back out. -/
def PipeCall.after (c : PipeCall α) : Stop → PipeCall α
  | .sleep => c
  | .ret _ => .idle

/-- One pipe and the processes that use it; `stored` and `readOut` are ghost: the bytes stored by
`pipewrite` and those returned by `piperead`, in the order of the steps that moved them. -/
structure PipeSys (ι α : Type) where
  pipe : Pipe α
  call : ι → PipeCall α
  killed : ι → Bool
  stored : List α
  readOut : List α

/-- The steps: a process enters `pipewrite` or `piperead`, one asleep in either is woken and runs
its loop again, a process is killed, an end of the pipe is closed. -/
inductive PipeEvent (ι α : Type) where
  | write (i : ι) (addr : List α)
  | read (i : ι) (n : Nat)
  | wake (i : ι)
  | kill (i : ι)
  | close (writable : Bool)

variable {ι : Type} [DecidableEq ι]

/-- Process `i` runs a section of `pipewrite(p, addr, n)` from the bytes `rest` on. -/
def PipeSys.writeSection (s : PipeSys ι α) (i : ι) (n : Nat) (rest : List α) : PipeSys ι α :=
  let r := pipewriteLoop (s.killed i) n s.pipe rest
  { s with
    pipe := r.1
    call := Function.update s.call i ((PipeCall.write n r.2.1).after r.2.2)
    stored := s.stored ++ rest.take (rest.length - r.2.1.length) }

/-- Process `i` runs a section of `piperead(p, addr, n)`. -/
def PipeSys.readSection (s : PipeSys ι α) (i : ι) (n : Nat) : PipeSys ι α :=
  let r := piperead (s.killed i) n s.pipe
  { s with
    pipe := r.1
    call := Function.update s.call i ((PipeCall.read n).after r.2.2)
    readOut := s.readOut ++ r.2.1 }

/-- One step of the processes on the pipe. -/
def pipeStep (s : PipeSys ι α) : PipeEvent ι α → Option (PipeSys ι α)
  | .write i addr =>
    match s.call i with
    | .idle => some (s.writeSection i addr.length addr)
    | _ => none
  | .read i n =>
    match s.call i with
    | .idle => some (s.readSection i n)
    | _ => none
  | .wake i =>
    match s.call i with
    | .idle => none
    | .write n rest => some (s.writeSection i n rest)
    | .read n => some (s.readSection i n)
  | .kill i => some { s with killed := Function.update s.killed i true }
  | .close writable => some { s with pipe := pipeclose writable s.pipe }

/-- The pipe `pipealloc` returns, no process in a pipe call yet. -/
def pipeInit (data : Fin PIPESIZE → α) : PipeSys ι α :=
  ⟨pipealloc data, fun _ => .idle, fun _ => false, [], []⟩

section Run

variable {s t : PipeSys ι α}

theorem pipeInv_writeSection (hi : PipeInv s.pipe s.stored s.readOut) (i : ι) (n : Nat)
    (rest : List α) :
    PipeInv (s.writeSection i n rest).pipe (s.writeSection i n rest).stored
      (s.writeSection i n rest).readOut := by
  obtain ⟨pre, hpre, hi'⟩ := hi.pipewriteLoop (s.killed i) n rest s.pipe s.stored
  -- the ghost takes what the loop stored: the bytes before those it stopped with
  have htake : rest.take (rest.length - (pipewriteLoop (s.killed i) n s.pipe rest).2.1.length) =
      pre := by
    generalize (pipewriteLoop (s.killed i) n s.pipe rest).2.1 = rem at hpre ⊢
    subst hpre
    simp
  simpa [PipeSys.writeSection, htake] using hi'

theorem pipeInv_readSection (hi : PipeInv s.pipe s.stored s.readOut) (i : ι) (n : Nat) :
    PipeInv (s.readSection i n).pipe (s.readSection i n).stored (s.readSection i n).readOut :=
  hi.piperead (s.killed i) n

theorem pipeInv_step (hi : PipeInv s.pipe s.stored s.readOut) {e : PipeEvent ι α}
    (h : pipeStep s e = some t) : PipeInv t.pipe t.stored t.readOut := by
  cases e with
  | write i addr =>
    simp only [pipeStep] at h
    split at h <;> cases h
    exact pipeInv_writeSection hi i _ addr
  | read i n =>
    simp only [pipeStep] at h
    split at h <;> cases h
    exact pipeInv_readSection hi i n
  | wake i =>
    simp only [pipeStep] at h
    split at h <;> cases h
    · exact pipeInv_writeSection hi i _ _
    · exact pipeInv_readSection hi i _
  | kill i =>
    cases h
    exact hi
  | close writable =>
    cases h
    exact hi.pipeclose writable

theorem pipeInv_of_run {data : Fin PIPESIZE → α} {es : List (PipeEvent ι α)}
    (hrun : Run.run pipeStep (pipeInit data) es = some t) : PipeInv t.pipe t.stored t.readOut :=
  Run.run_inv (fun s : PipeSys ι α => PipeInv s.pipe s.stored s.readOut)
    (fun _ _ _ hi h => pipeInv_step hi h) es _ t (pipeInv_pipealloc data) hrun

end Run

/-- Along every run, however many processes write and read and however their sections interleave:
the counters differ by at most `PIPESIZE` modulo `2^32`, the bytes `piperead` returned are a prefix of
those `pipewrite` stored, and a `piperead` of `n > 0` bytes that returns `0` found the pipe empty and
its write end closed. -/
theorem pipe_fifo {data : Fin PIPESIZE → α} {es : List (PipeEvent ι α)} {s : PipeSys ι α}
    (hrun : Run.run pipeStep (pipeInit data) es = some s) :
    (s.pipe.nwrite - s.pipe.nread).toNat ≤ PIPESIZE ∧ s.readOut <+: s.stored ∧
      ∀ killed n p out, 0 < n → piperead killed n s.pipe = (p, out, .ret 0) →
        s.pipe.nread = s.pipe.nwrite ∧ s.pipe.writeopen = false := by
  have hi := pipeInv_of_run hrun
  refine ⟨?_, hi.isPrefix, fun killed n p out hn h => piperead_eq_zero hn h⟩
  rw [hi.sub_toNat]
  have := hi.unread_le
  omega

/-- Process 0 writes two bytes, process 1 reads them. -/
theorem pipe_fifo_write_read : ∃ s : PipeSys (Fin 2) UInt8,
    Run.run pipeStep (pipeInit fun _ => 0) [.write 0 [7, 8], .read 1 5] = some s ∧
      s.readOut = [7, 8] ∧ (s.pipe.nwrite - s.pipe.nread).toNat ≤ PIPESIZE ∧ s.readOut <+: s.stored :=
  ⟨_, rfl, rfl, (@pipe_fifo UInt8 (Fin 2) _ (fun _ => 0) [.write 0 [7, 8], .read 1 5] _ rfl).1,
    (@pipe_fifo UInt8 (Fin 2) _ (fun _ => 0) [.write 0 [7, 8], .read 1 5] _ rfl).2.1⟩

end Xv6
