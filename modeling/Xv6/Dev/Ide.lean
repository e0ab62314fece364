import Xv6.Fs.Layout
import Xv6.Lib.Run
import Xv6.Lib.SList
import Xv6.Lib.StateOpt

/-!
# `ide.c`: the disk driver's request queue

The driver keeps the buffers it has to read or write on `idequeue`, linked through `qnext`: the
head is the request the controller runs, `ideintr` completes it and starts the next, and `iderw`
appends its buffer and sleeps until the buffer is done. Each call runs under `idelock`, so the
driver is a system of atomic events (`IdeEvent`, `ideStep`):

* `iderw i` : a process that holds the sleep-lock of buffer `i` calls `iderw`, up to its first
  `sleep`; `wake i` : that process wakes and tests the buffer again (`iderwWait`);
* `complete err` : the controller completes its command and raises its interrupt; `intr` : the
  interrupt runs `ideintr`;
* `bio i b` : the buffer cache changes buffer `i` while no process is in its `iderw`.

The controller is modelled by what `idestart` writes to its registers (`DiskCmd`) and what
`ideintr` reads back (`Ctl`); `idewait`'s spin is the requirement that no command is running.

* `IdeInv s q` : the queue is the null-terminated chain `q` of distinct buffers, each with a
  process in its `iderw`, locked and not yet done, and the controller runs or has completed the
  head's command, and is idle when the queue is empty;
* `ideInv_step` : every event keeps it, where `fifoStep` appends the buffer of an `iderw` and
  drops the head at an interrupt; `ide_fifo` : so along every run the queue is the calls in
  order, less those the interrupts completed.
-/

namespace Xv6.Ide

/-- `B_VALID`: the buffer has been read from disk (`buf.h`). -/
def B_VALID : UInt32 := 0x2

/-- `B_DIRTY`: the buffer needs to be written to disk (`buf.h`). -/
def B_DIRTY : UInt32 := 0x4

def SECTOR_SIZE : Nat := 512

/-- `struct buf`, the fields the driver reads and writes; `locked` is `holdingsleep(&b->lock)` for
the process that calls `iderw`, and the links `qnext` are `Driver.qnext`. -/
structure IdeBuf where
  flags : UInt32
  dev : UInt32
  blockno : UInt32
  locked : Bool
  data : Block

/-- What `idestart` writes to the controller: the drive (`dev & 1`), the 28-bit sector number,
and for a write the block's bytes (`outsl`). -/
inductive DiskCmd where
  | read (drive lba : UInt32)
  | write (drive lba : UInt32) (data : Block)

/-- The controller: the command it runs (`none` when it is ready, `IDE_DRDY`), the error bits of
the last one (`IDE_DF | IDE_ERR`), its data register (the sector last read), and whether its
interrupt is pending. -/
structure Ctl where
  cmd : Option DiskCmd
  err : Bool
  sect : Block
  irq : Bool

/-- The driver's state: the buffers and their `qnext` links, `idequeue`, `havedisk1`, the blocks
of the two disks by sector, the controller, and the buffers whose `iderw` a process sleeps in. -/
structure Driver where
  buf : Fin NBUF → IdeBuf
  qnext : Fin NBUF → Option (Fin NBUF)
  idequeue : Option (Fin NBUF)
  havedisk1 : Bool
  disk : UInt32 → UInt32 → Block
  ctl : Ctl
  inRw : Fin NBUF → Bool

/-- Code run under `idelock`: `none` is a `panic`. -/
abbrev IdeM := StateT Driver Option

@[simps -fullyApplied] def Driver.setBuf (s : Driver) (i : Fin NBUF) (b : IdeBuf) : Driver :=
  { s with buf := Function.update s.buf i b }

@[simps -fullyApplied] def Driver.setQnext (s : Driver) (i : Fin NBUF) (n : Option (Fin NBUF)) : Driver :=
  { s with qnext := Function.update s.qnext i n }

@[simps -fullyApplied] def Driver.setQueue (s : Driver) (q : Option (Fin NBUF)) : Driver :=
  { s with idequeue := q }

@[simps -fullyApplied] def Driver.setDisk (s : Driver) (d l : UInt32) (blk : Block) : Driver :=
  { s with disk := Function.update s.disk d (Function.update (s.disk d) l blk) }

@[simps -fullyApplied] def Driver.setCtl (s : Driver) (c : Ctl) : Driver :=
  { s with ctl := c }

@[simps -fullyApplied] def Driver.setInRw (s : Driver) (i : Fin NBUF) (v : Bool) : Driver :=
  { s with inRw := Function.update s.inRw i v }

/-- Wait for IDE disk to become ready: the controller runs no command; `-1` if `checkerr` and the
last one failed. -/
def idewait (checkerr : Bool) : IdeM Int32 := do
  let c := (← get).ctl
  if c.cmd.isSome then failure  -- the loop spins until the command completes
  if checkerr && c.err then pure (-1) else pure 0

/-- Start the request for `b`. Caller must hold idelock. -/
def idestart (b : Fin NBUF) : IdeM Unit := do
  let bf := (← get).buf b
  if FSSIZE ≤ bf.blockno.toNat then failure  -- panic("incorrect blockno")
  let sector_per_block := BSIZE / SECTOR_SIZE
  let sector := bf.blockno * UInt32.ofNat sector_per_block
  if 7 < sector_per_block then failure  -- panic("idestart")
  let _ ← idewait false
  -- the sector count, the sector number's four bytes and the drive go to the registers
  let drive := bf.dev &&& 1
  let lba := sector &&& 0x0fffffff
  if bf.flags &&& B_DIRTY ≠ 0 then
    modify fun s => s.setCtl { s.ctl with cmd := some (.write drive lba bf.data) }
  else
    modify fun s => s.setCtl { s.ctl with cmd := some (.read drive lba) }

/-- Interrupt handler. -/
def ideintr : IdeM Unit := do
  -- First queued buffer is the active request.
  match (← get).idequeue with
  | none => pure ()
  | some b =>
    modify fun s => s.setQueue (s.qnext b)
    -- Read data if needed.
    if ((← get).buf b).flags &&& B_DIRTY = 0 then
      if 0 ≤ (← idewait true) then
        modify fun s => s.setBuf b { s.buf b with data := s.ctl.sect }
    -- Wake process waiting for this buf.
    modify fun s => s.setBuf b { s.buf b with flags := (s.buf b).flags ||| B_VALID }
    modify fun s => s.setBuf b { s.buf b with flags := (s.buf b).flags &&& ~~~B_DIRTY }
    -- Start disk on next buf in queue.
    match (← get).idequeue with
    | none => pure ()
    | some n => idestart n

/-- The loop `while((b->flags & (B_VALID|B_DIRTY)) != B_VALID) sleep(b, &idelock);` from its
test: the process sleeps in `iderw(b)` until the buffer is done, and then returns. -/
def iderwWait (b : Fin NBUF) : IdeM Unit := do
  if ((← get).buf b).flags &&& (B_VALID ||| B_DIRTY) ≠ B_VALID then
    modify fun s => s.setInRw b true
  else
    modify fun s => s.setInRw b false

/-- Append b to idequeue: `b->qnext = 0`, the walk `for(pp=&idequeue; *pp; pp=&(*pp)->qnext)` to
the null link at the end, of at most `NBUF` buffers, and `*pp = b`. -/
def idequeueAppend (b : Fin NBUF) : IdeM Unit := do
  modify fun s => s.setQnext b none
  let s ← get
  match SList.findEnd s.qnext NBUF none s.idequeue with
  | none => failure  -- the loop does not end
  | some none => set (s.setQueue (some b))
  | some (some x) => set (s.setQnext x (some b))

/-- Sync buf with disk, up to the first `sleep`: append `b` to `idequeue`, start the disk if it is
the only request, and wait. -/
def iderw (b : Fin NBUF) : IdeM Unit := do
  let s ← get
  if !(s.buf b).locked then failure  -- panic("iderw: buf not locked")
  if (s.buf b).flags &&& (B_VALID ||| B_DIRTY) = B_VALID then failure  -- panic("iderw: nothing to do")
  if (s.buf b).dev ≠ 0 ∧ !s.havedisk1 then failure  -- panic("iderw: ide disk 1 not present")
  idequeueAppend b
  -- Start disk if necessary.
  if (← get).idequeue = some b then idestart b
  -- Wait for request to finish.
  iderwWait b

/-- The controller completes its command and raises its interrupt: a read fills the data register
from the disk, and a write stores the block unless the command fails (`err`). -/
def Driver.complete (s : Driver) (err : Bool) : Option Driver :=
  match s.ctl.cmd with
  | none => none
  | some (.read d l) => some (s.setCtl ⟨none, err, s.disk d l, true⟩)
  | some (.write d l blk) =>
    some ((if err then s else s.setDisk d l blk).setCtl ⟨none, err, s.ctl.sect, true⟩)

/-- The driver's atomic events. -/
inductive IdeEvent where
  /-- The buffer cache sets buffer `i` (its flags, block, lock and data) while no process is in
  its `iderw`: `bget`, `bread`'s caller, `log_write`, `bwrite`'s `B_DIRTY`, `brelse`. -/
  | bio (i : Fin NBUF) (b : IdeBuf)
  | iderw (i : Fin NBUF)
  | wake (i : Fin NBUF)
  | complete (err : Bool)
  | intr

/-- One event; `none` when it is not enabled or the kernel panics. The caller of `iderw i` holds the
buffer's sleep-lock, so no process is in `iderw(i)` already; an interrupt is delivered once. -/
def ideStep (s : Driver) : IdeEvent → Option Driver
  | .bio i b => if s.inRw i then none else some (s.setBuf i b)
  | .iderw i => if s.inRw i then none else (iderw i s).map Prod.snd
  | .wake i => if s.inRw i then (iderwWait i s).map Prod.snd else none
  | .complete err => s.complete err
  | .intr => if s.ctl.irq then (ideintr (s.setCtl { s.ctl with irq := false })).map Prod.snd else none

/-- After `ideinit`: nothing queued, the controller ready, no process in `iderw`; `havedisk1` is
what the probe of disk 1 found. -/
def Driver.init (buf : Fin NBUF → IdeBuf) (disk : UInt32 → UInt32 → Block) (havedisk1 : Bool) : Driver :=
  ⟨buf, fun _ => none, none, havedisk1, disk, ⟨none, false, zeroes, false⟩, fun _ => false⟩

/-! ## What each function does -/

/-- The command `idestart` gives the controller for a buffer. -/
def IdeBuf.cmd (b : IdeBuf) : DiskCmd :=
  if b.flags &&& B_DIRTY ≠ 0 then
    .write (b.dev &&& 1) (b.blockno * UInt32.ofNat (BSIZE / SECTOR_SIZE) &&& 0x0fffffff) b.data
  else .read (b.dev &&& 1) (b.blockno * UInt32.ofNat (BSIZE / SECTOR_SIZE) &&& 0x0fffffff)

/-- What `ideintr` does to the buffer it completes: the data register is read into it unless it is
dirty or the command failed, `B_VALID` is set and `B_DIRTY` cleared. -/
def IdeBuf.finish (b : IdeBuf) (c : Ctl) : IdeBuf :=
  { b with
    data := if b.flags &&& B_DIRTY = 0 ∧ c.err = false then c.sect else b.data
    flags := (b.flags ||| B_VALID) &&& ~~~B_DIRTY }

/-- What `ideintr` does before it starts the next request: the interrupt is taken and the head `b`
is popped and finished. -/
@[simps -fullyApplied] def Driver.intrPop (s : Driver) (b : Fin NBUF) : Driver :=
  { s with
    buf := Function.update s.buf b ((s.buf b).finish s.ctl)
    idequeue := s.qnext b
    ctl := { s.ctl with irq := false } }

section Spec

variable {s s' : Driver} {b : Fin NBUF} {u : Unit}

@[simp] theorem Driver.setBuf_setBuf (i : Fin NBUF) (x y : IdeBuf) :
    (s.setBuf i x).setBuf i y = s.setBuf i y := by
  simp [Driver.setBuf]

theorem idewait_eq (c : Bool) (hc : s.ctl.cmd = none) :
    idewait c s = some (if c && s.ctl.err then -1 else 0, s) := by
  unfold idewait
  rw [StateOpt.get_bind_eq_some, if_neg (by simp [hc])]
  split_ifs <;> rfl

theorem idestart_eq :
    idestart b s = if (s.buf b).blockno.toNat < FSSIZE ∧ s.ctl.cmd = none then
      some ((), s.setCtl { s.ctl with cmd := some (s.buf b).cmd }) else none := by
  have hsec : ¬ 7 < BSIZE / SECTOR_SIZE := by decide
  simp only [idestart, idewait, bind_assoc, StateOpt.get_bind, StateOpt.failure_bind,
    StateOpt.run_ite, StateOpt.run_ite_bind, if_neg hsec]
  by_cases hb : (s.buf b).blockno.toNat < FSSIZE
  · rw [if_neg (Nat.not_le.mpr hb)]
    by_cases hc : s.ctl.cmd = none
    · simp only [hb, hc, and_self, if_true, Option.isSome_none, Bool.false_and,
        Bool.false_eq_true, if_false, StateOpt.pure_bind', StateOpt.run_ite, StateOpt.run_modify,
        IdeBuf.cmd]
      split_ifs <;> rfl
    · obtain ⟨c, hc'⟩ := Option.ne_none_iff_exists'.mp hc
      simp [hc']
  · rw [if_pos (Nat.le_of_not_lt hb), if_neg fun h => hb h.1]

/-- `ideintr` with `b` at the head and the controller ready: `b` is popped and finished, and the
next request, if any, is started. -/
theorem ideintr_eq (hq : s.idequeue = some b) (hc : s.ctl.cmd = none) :
    ideintr s = (s.qnext b).elim
      (some ((), (s.setQueue (s.qnext b)).setBuf b ((s.buf b).finish s.ctl)))
      fun n => idestart n ((s.setQueue (s.qnext b)).setBuf b ((s.buf b).finish s.ctl)) := by
  have hw : idewait true (s.setQueue (s.qnext b)) =
      some (if s.ctl.err then -1 else 0, s.setQueue (s.qnext b)) := by
    rw [idewait_eq true (by simpa using hc)]
    simp
  simp only [ideintr, StateOpt.get_bind, hq, StateOpt.modify_bind, StateOpt.run_ite,
    StateOpt.bind_of_eq_some hw]
  by_cases hd : (s.buf b).flags &&& B_DIRTY = 0
  · -- a read: the data register is copied in unless the command failed
    by_cases he : s.ctl.err = true <;> cases s.qnext b <;>
      simp [hd, he, IdeBuf.finish, StateOpt.run_pure]
  · cases s.qnext b <;> simp [hd, IdeBuf.finish, StateOpt.run_pure]

theorem iderwWait_eq :
    iderwWait b s =
      some ((), s.setInRw b ((s.buf b).flags &&& (B_VALID ||| B_DIRTY) ≠ B_VALID)) := by
  simp only [iderwWait, StateOpt.get_bind, StateOpt.run_ite]
  split_ifs with h <;> simp [h, StateOpt.run_modify]

/-- The checks at the top of `iderw`. -/
def IderwOk (s : Driver) (b : Fin NBUF) : Prop :=
  (s.buf b).locked = true ∧ (s.buf b).flags &&& (B_VALID ||| B_DIRTY) ≠ B_VALID ∧
    ((s.buf b).dev ≠ 0 → s.havedisk1 = true)

theorem iderw_of_not_ok (h : ¬ IderwOk s b) : iderw b s = none := by
  simp only [IderwOk, not_and_or, not_not, Classical.not_imp, Bool.not_eq_true] at h
  rcases h with h | h | ⟨hd, h1⟩
  · simp [iderw, StateOpt.get_bind, h]
    rfl
  · simp [iderw, StateOpt.get_bind, h]
    rfl
  · simp [iderw, StateOpt.get_bind, hd, h1]
    rfl

theorem idequeueAppend_first (hq : s.idequeue = none) :
    idequeueAppend b s = some ((), (s.setQnext b none).setQueue (some b)) := by
  simp [idequeueAppend, StateOpt.get_bind, StateOpt.modify_bind, hq, SList.findEnd]
  rfl

theorem idequeueAppend_behind {l : List (Fin NBUF)} {x : Fin NBUF}
    (hc : SList.Chain s.qnext s.idequeue (l ++ [x])) (hb : b ∉ l ++ [x])
    (hlen : (l ++ [x]).length ≤ NBUF) :
    idequeueAppend b s = some ((), (s.setQnext b none).setQnext x (some b)) := by
  have hc' : SList.Chain (Function.update s.qnext b none) s.idequeue (l ++ [x]) :=
    hc.congr fun y hy => Function.update_of_ne (ne_of_mem_of_not_mem hy hb) _ _
  simp [idequeueAppend, StateOpt.get_bind, StateOpt.modify_bind, hc'.findEnd hlen]
  rfl

/-- `iderw` on an empty queue: `b` becomes the queue, the disk is started on it, and the process
sleeps; it panics if the block is out of range. -/
theorem iderw_first (hok : IderwOk s b) (hq : s.idequeue = none) (hc : s.ctl.cmd = none) :
    iderw b s = if (s.buf b).blockno.toNat < FSSIZE then
      some ((), ((((s.setQnext b none).setQueue (some b)).setCtl
        { s.ctl with cmd := some (s.buf b).cmd }).setInRw b true)) else none := by
  obtain ⟨hl, hv, hd⟩ := hok
  have hd' : ¬ ((s.buf b).dev ≠ 0 ∧ (!s.havedisk1) = true) := fun h => by simp_all
  simp only [iderw, StateOpt.get_bind, hl, hv, hd', Bool.not_true, Bool.false_eq_true, if_false,
    StateOpt.bind_of_eq_some (idequeueAppend_first hq)]
  simp only [Driver.setQueue_idequeue, if_true]
  by_cases hb : (s.buf b).blockno.toNat < FSSIZE
  · have hs : idestart b ((s.setQnext b none).setQueue (some b)) =
        some ((), ((s.setQnext b none).setQueue (some b)).setCtl
          { s.ctl with cmd := some (s.buf b).cmd }) := by
      rw [idestart_eq, if_pos (by simpa using And.intro hb hc)]
      simp
    rw [StateOpt.bind_of_eq_some hs, iderwWait_eq, if_pos hb]
    simp [hv]
  · rw [StateOpt.bind_of_eq_none (by rw [idestart_eq, if_neg fun h => hb (by simpa using h.1)]),
      if_neg hb]

/-- `iderw` behind the last request `x`: `b` is linked after it and the process sleeps. -/
theorem iderw_behind {l : List (Fin NBUF)} {x : Fin NBUF} (hok : IderwOk s b)
    (hc : SList.Chain s.qnext s.idequeue (l ++ [x])) (hb : b ∉ l ++ [x])
    (hlen : (l ++ [x]).length ≤ NBUF) :
    iderw b s = some ((), ((s.setQnext b none).setQnext x (some b)).setInRw b true) := by
  obtain ⟨hl, hv, hd⟩ := hok
  have hd' : ¬ ((s.buf b).dev ≠ 0 ∧ (!s.havedisk1) = true) := fun h => by simp_all
  -- the head of the queue is not `b`
  have hhead : s.idequeue ≠ some b := by
    cases l with
    | nil => exact fun he => hb (by simp [Option.some.inj (hc.1.symm.trans he)])
    | cons y l => exact fun he => hb (by simp [Option.some.inj (hc.1.symm.trans he)])
  simp only [iderw, StateOpt.get_bind, hl, hv, hd', Bool.not_true, Bool.false_eq_true, if_false,
    StateOpt.bind_of_eq_some (idequeueAppend_behind hc hb hlen)]
  simp [hhead, iderwWait_eq, hv]

end Spec

/-! ## The queue invariant -/

/-- The controller has carried out a command: a read left the sector in the data register, a
write left the block on the disk. -/
def DiskCmd.Done : DiskCmd → (UInt32 → UInt32 → Block) → Block → Prop
  | .read d l, disk, sect => sect = disk d l
  | .write d l blk, disk, _ => disk d l = blk

/-- The controller against the queue: idle when the queue is empty; otherwise the head's block is
in range and the controller runs the head's command, or has completed it, carried out unless it
failed, with its interrupt pending. -/
def CtlFits (s : Driver) : List (Fin NBUF) → Prop
  | [] => s.ctl.cmd = none ∧ s.ctl.irq = false
  | b :: _ => (s.buf b).blockno.toNat < FSSIZE ∧
      (s.ctl.cmd = some (s.buf b).cmd ∧ s.ctl.irq = false ∨
        s.ctl.cmd = none ∧ s.ctl.irq = true ∧
          (s.ctl.err = false → (s.buf b).cmd.Done s.disk s.ctl.sect))

/-- What the driver keeps between events, `q` being the queue as a list: the chain of `qnext`
links from `idequeue`, without repeats, of buffers that a process waits for in `iderw`, locked
and not yet done, and the controller fits it. -/
structure IdeInv (s : Driver) (q : List (Fin NBUF)) : Prop where
  chain : SList.Chain s.qnext s.idequeue q
  nodup : q.Nodup
  inRw : ∀ i ∈ q, s.inRw i = true
  locked : ∀ i ∈ q, (s.buf i).locked = true
  pending : ∀ i ∈ q, (s.buf i).flags &&& (B_VALID ||| B_DIRTY) ≠ B_VALID
  ctl : CtlFits s q

/-- The queue after an event, as a list: `iderw` appends its buffer, the interrupt takes the
head. -/
def fifoStep (q : List (Fin NBUF)) : IdeEvent → List (Fin NBUF)
  | .iderw i => q ++ [i]
  | .intr => q.tail
  | _ => q

section Inv

variable {s s' : Driver} {q : List (Fin NBUF)}

theorem CtlFits.congr (h : CtlFits s q) (hc : s'.ctl = s.ctl) (hd : s'.disk = s.disk)
    (hb : ∀ i ∈ q, s'.buf i = s.buf i) : CtlFits s' q := by
  cases q with
  | nil => simpa [CtlFits, hc] using h
  | cons b rest => simpa [CtlFits, hc, hd, hb b List.mem_cons_self] using h

/-- The queue part of the invariant reads the links, the head pointer, and the buffers of the
queue and their waiting processes. -/
theorem IdeInv.congr (h : IdeInv s q) (hq : s'.qnext = s.qnext) (hh : s'.idequeue = s.idequeue)
    (hb : ∀ i ∈ q, s'.buf i = s.buf i) (hr : ∀ i ∈ q, s'.inRw i = s.inRw i)
    (hc : CtlFits s' q) : IdeInv s' q where
  chain := hq ▸ hh ▸ h.chain
  nodup := h.nodup
  inRw i hi := (hr i hi).trans (h.inRw i hi)
  locked i hi := (hb i hi) ▸ h.locked i hi
  pending i hi := (hb i hi) ▸ h.pending i hi
  ctl := hc

theorem IdeInv.not_mem (h : IdeInv s q) {i : Fin NBUF} (hi : s.inRw i = false) : i ∉ q :=
  fun hm => by simp [h.inRw i hm] at hi

/-- The buffer cache changes a buffer no process waits for, so not one of the queue. -/
theorem IdeInv.bio {i : Fin NBUF} {b : IdeBuf} (h : IdeInv s q) (hi : s.inRw i = false) :
    IdeInv (s.setBuf i b) q := by
  have hb : ∀ j ∈ q, (s.setBuf i b).buf j = s.buf j := fun j hj => by
    simp [Function.update_of_ne (ne_of_mem_of_not_mem hj (h.not_mem hi))]
  exact h.congr rfl rfl hb (fun _ _ => rfl) (h.ctl.congr rfl rfl hb)

/-- A process that wakes in `iderw` sleeps again while its buffer is on the queue. -/
theorem IdeInv.wake {i : Fin NBUF} (h : IdeInv s q) :
    IdeInv (s.setInRw i ((s.buf i).flags &&& (B_VALID ||| B_DIRTY) ≠ B_VALID)) q := by
  refine h.congr rfl rfl (fun _ _ => rfl) (fun j hj => ?_) (h.ctl.congr rfl rfl fun _ _ => rfl)
  by_cases hji : j = i
  · subst hji
    simp [h.pending j hj, h.inRw j hj]
  · simp [Function.update_of_ne hji]

/-- The controller completes the head's command: it has carried it out, unless it failed, and its
interrupt is pending. -/
theorem IdeInv.complete {err : Bool} (h : IdeInv s q) (hs : s.complete err = some s') :
    IdeInv s' q := by
  cases q with
  | nil =>
    have hc : s.ctl.cmd = none := h.ctl.1
    simp [Driver.complete, hc] at hs
  | cons b rest =>
    obtain ⟨hblk, ⟨hc, -⟩ | ⟨hc, -⟩⟩ := h.ctl
    · have hfits : s'.ctl.err = false → (s'.buf b).cmd.Done s'.disk s'.ctl.sect := by
        cases hcmd : (s.buf b).cmd with
        | read d l =>
          simp only [Driver.complete, hc, hcmd, Option.some.injEq] at hs
          subst hs
          simp [hcmd, DiskCmd.Done]
        | write d l blk =>
          cases err <;> simp only [Driver.complete, hc, hcmd, Option.some.injEq] at hs <;> subst hs
          · simp [hcmd, DiskCmd.Done]
          · simp
      have hs' : s'.buf = s.buf ∧ s'.qnext = s.qnext ∧ s'.idequeue = s.idequeue ∧
          s'.inRw = s.inRw ∧ s'.ctl.cmd = none ∧ s'.ctl.irq = true := by
        cases hcmd : (s.buf b).cmd <;> cases err <;>
          simp only [Driver.complete, hc, hcmd, Option.some.injEq] at hs <;> subst hs <;> simp
      obtain ⟨hb, hq, hh, hr, hcmd, hirq⟩ := hs'
      refine h.congr hq hh (fun i _ => by rw [hb]) (fun i _ => by rw [hr]) ⟨?_, Or.inr ⟨hcmd, hirq, ?_⟩⟩
      · rw [hb]
        exact hblk
      · exact hfits
    · simp [Driver.complete, hc] at hs

/-- Taking the head off the queue: what the invariant says of the other buffers stays true while
their links, contents and processes are kept. -/
theorem IdeInv.pop {b : Fin NBUF} {rest : List (Fin NBUF)} (h : IdeInv s (b :: rest))
    (hq : s'.qnext = s.qnext) (hh : s'.idequeue = s.qnext b) (hb : ∀ i ∈ rest, s'.buf i = s.buf i)
    (hr : ∀ i ∈ rest, s'.inRw i = s.inRw i) (hc : CtlFits s' rest) : IdeInv s' rest where
  chain := hq ▸ hh ▸ h.chain.2
  nodup := h.nodup.of_cons
  inRw i hi := (hr i hi).trans (h.inRw i (List.mem_cons_of_mem b hi))
  locked i hi := (hb i hi) ▸ h.locked i (List.mem_cons_of_mem b hi)
  pending i hi := (hb i hi) ▸ h.pending i (List.mem_cons_of_mem b hi)
  ctl := hc

/-- What the interrupt does from the invariant: the controller has completed the head `b`, which
is popped and finished, and the next request, if any, is started on a block in range. -/
theorem ideintr_cases (h : IdeInv s q) (hirq : s.ctl.irq = true)
    (hs : ideintr (s.setCtl { s.ctl with irq := false }) = some (u, s')) :
    ∃ b rest, q = b :: rest ∧ s.ctl.cmd = none ∧
      (rest = [] ∧ s' = s.intrPop b ∨
        ∃ n rest', rest = n :: rest' ∧ (s.buf n).blockno.toNat < FSSIZE ∧
          s' = (s.intrPop b).setCtl { s.ctl with cmd := some (s.buf n).cmd, irq := false }) := by
  cases q with
  | nil => simp [h.ctl.2] at hirq
  | cons b rest =>
    obtain ⟨-, ⟨-, hi⟩ | ⟨hc, -⟩⟩ := h.ctl
    · simp [hi] at hirq
    refine ⟨b, rest, rfl, hc, ?_⟩
    rw [ideintr_eq (s := s.setCtl { s.ctl with irq := false }) h.chain.1 hc] at hs
    cases rest with
    | nil =>
      have hn : s.qnext b = none := SList.chain_nil.mp h.chain.2
      rw [Driver.setCtl_qnext, hn, Option.elim_none] at hs
      cases hs
      exact .inl ⟨rfl, by rw [Driver.intrPop, hn]; rfl⟩
    | cons n rest =>
      rw [Driver.setCtl_qnext, h.chain.2.1, Option.elim_some, idestart_eq] at hs
      split_ifs at hs with hn
      cases hs
      -- the next request is not the head, whose buffer alone the pop changes
      have hnb : n ≠ b := fun hnb => (List.nodup_cons.mp h.nodup).1 (hnb ▸ List.mem_cons_self)
      simp only [Driver.setBuf_buf, Driver.setQueue_buf, Driver.setCtl_buf,
        Function.update_of_ne hnb] at hn ⊢
      exact .inr ⟨n, rest, rfl, hn.1, by rw [Driver.intrPop, h.chain.2.1]; rfl⟩

/-- The interrupt pops the head and starts the next request. -/
theorem IdeInv.of_ideintr (h : IdeInv s q) (hirq : s.ctl.irq = true)
    (hs : ideintr (s.setCtl { s.ctl with irq := false }) = some (u, s')) : IdeInv s' q.tail := by
  obtain ⟨b, rest, rfl, hc, ⟨rfl, rfl⟩ | ⟨n, rest, rfl, hblk, rfl⟩⟩ := ideintr_cases h hirq hs
  · exact h.pop rfl rfl (fun _ hi => nomatch hi) (fun _ hi => nomatch hi)
      ⟨by simpa [SList.chain_nil.mp h.chain.2] using hc, rfl⟩
  · have hb : ∀ i ∈ n :: rest, (s.intrPop b).buf i = s.buf i := fun i hi =>
      Function.update_of_ne (fun hib => (List.nodup_cons.mp h.nodup).1 (by subst hib; exact hi)) _ _
    refine h.pop rfl (by simp [h.chain.2.1]) hb (fun _ _ => rfl) ⟨?_, Or.inl ⟨?_, rfl⟩⟩
    · simpa [hb n List.mem_cons_self] using hblk
    · simp [hb n List.mem_cons_self]

/-- Appending a buffer that passed the checks of `iderw`, whose process now sleeps. -/
theorem IdeInv.snoc {i : Fin NBUF} (h : IdeInv s q) (hok : IderwOk s i) (hiq : i ∉ q)
    (hb : s'.buf = s.buf) (hr : s'.inRw = Function.update s.inRw i true)
    (hch : SList.Chain s'.qnext s'.idequeue (q ++ [i])) (hc : CtlFits s' (q ++ [i])) :
    IdeInv s' (q ++ [i]) where
  chain := hch
  nodup := h.nodup.append (List.nodup_singleton i) (by simpa using hiq)
  inRw j hj := by
    rcases List.mem_append.mp hj with hj | hj
    · rw [hr, Function.update_of_ne (ne_of_mem_of_not_mem hj hiq)]
      exact h.inRw j hj
    · rw [List.mem_singleton.mp hj, hr, Function.update_self]
  locked j hj := by
    rw [hb]
    rcases List.mem_append.mp hj with hj | hj
    · exact h.locked j hj
    · rw [List.mem_singleton.mp hj]
      exact hok.1
  pending j hj := by
    rw [hb]
    rcases List.mem_append.mp hj with hj | hj
    · exact h.pending j hj
    · rw [List.mem_singleton.mp hj]
      exact hok.2.1
  ctl := hc

/-- What a call of `iderw` from the invariant does, for a buffer no process is in: the buffer
passed the checks and is not queued; on an empty queue it becomes the queue and the controller
runs it, its block in range, and otherwise it is linked after the last request `x`. -/
theorem iderw_cases {i : Fin NBUF} (h : IdeInv s q) (hi : s.inRw i = false)
    (hs : iderw i s = some (u, s')) : IderwOk s i ∧ i ∉ q ∧
      (q = [] ∧ (s.buf i).blockno.toNat < FSSIZE ∧
        s' = (((s.setQnext i none).setQueue (some i)).setCtl
          { s.ctl with cmd := some (s.buf i).cmd }).setInRw i true ∨
        ∃ l x, q = l ++ [x] ∧ s' = ((s.setQnext i none).setQnext x (some i)).setInRw i true) := by
  have hok : IderwOk s i := by
    by_contra hn
    rw [iderw_of_not_ok hn] at hs
    cases hs
  have hiq : i ∉ q := h.not_mem hi
  refine ⟨hok, hiq, ?_⟩
  rcases List.eq_nil_or_concat' q with rfl | ⟨l, x, rfl⟩
  · rw [iderw_first hok (SList.chain_nil.mp h.chain) h.ctl.1] at hs
    split_ifs at hs with hblk
    cases hs
    exact .inl ⟨rfl, hblk, rfl⟩
  · have hlen : (l ++ [x]).length ≤ NBUF := by simpa using h.nodup.length_le_card
    rw [iderw_behind hok h.chain hiq hlen] at hs
    cases hs
    exact .inr ⟨l, x, rfl, rfl⟩

/-- A call of `iderw` appends its buffer to the queue. -/
theorem IdeInv.of_iderw {i : Fin NBUF} (h : IdeInv s q) (hi : s.inRw i = false)
    (hs : iderw i s = some (u, s')) : IdeInv s' (q ++ [i]) := by
  obtain ⟨hok, hiq, ⟨rfl, hblk, rfl⟩ | ⟨l, x, rfl, rfl⟩⟩ := iderw_cases h hi hs
  · exact h.snoc hok hiq rfl rfl ⟨rfl, by simp⟩ ⟨hblk, Or.inl ⟨by simp, h.ctl.2⟩⟩
  · have hxi : x ≠ i := fun hx => hiq (by simp [hx])
    have hch : SList.Chain (Function.update (Function.update s.qnext i none) x (some i))
        s.idequeue (l ++ [x, i]) := by
      refine h.chain.snoc (fun y hy => ?_) (by simp) (by simp [Ne.symm hxi])
      have hyx : y ≠ x := fun hyx => (List.nodup_append.mp h.nodup).2.2 y hy x (by simp) hyx
      have hyi : y ≠ i := fun hyi => hiq (by simp [← hyi, hy])
      simp [Function.update_of_ne hyx, Function.update_of_ne hyi]
    refine h.snoc hok hiq rfl rfl (by simpa using hch) ?_
    -- the head, and so what the controller does, is unchanged
    cases l with
    | nil => exact h.ctl
    | cons y l => exact h.ctl

/-- Every event keeps the invariant, the queue following it by `fifoStep`. -/
theorem ideInv_step {e : IdeEvent} (h : IdeInv s q) (hs : ideStep s e = some s') :
    IdeInv s' (fifoStep q e) := by
  cases e with
  | bio i b =>
    simp only [ideStep] at hs
    split_ifs at hs with hi
    cases hs
    exact h.bio (by simpa using hi)
  | iderw i =>
    simp only [ideStep] at hs
    split_ifs at hs with hi
    obtain ⟨⟨u, t⟩, hr, rfl⟩ := Option.map_eq_some_iff.mp hs
    exact h.of_iderw (by simpa using hi) hr
  | wake i =>
    simp only [ideStep, iderwWait_eq] at hs
    split_ifs at hs
    cases hs
    exact h.wake
  | complete err => exact h.complete hs
  | intr =>
    simp only [ideStep] at hs
    split_ifs at hs with hirq
    obtain ⟨⟨u, t⟩, hr, rfl⟩ := Option.map_eq_some_iff.mp hs
    exact h.of_ideintr hirq hr

theorem ideInv_init (buf : Fin NBUF → IdeBuf) (disk : UInt32 → UInt32 → Block) (havedisk1 : Bool) :
    IdeInv (Driver.init buf disk havedisk1) [] where
  chain := rfl
  nodup := List.nodup_nil
  inRw _ hi := nomatch hi
  locked _ hi := nomatch hi
  pending _ hi := nomatch hi
  ctl := ⟨rfl, rfl⟩

end Inv

/-- Along every run of the driver from `ideinit`, the queue is the buffers of the calls of
`iderw` in the order of the calls, less those the interrupts have completed, and the invariant
holds. -/
theorem ide_fifo (buf : Fin NBUF → IdeBuf) (disk : UInt32 → UInt32 → Block) (havedisk1 : Bool)
    (es : List IdeEvent) (s : Driver)
    (h : Run.run ideStep (Driver.init buf disk havedisk1) es = some s) :
    IdeInv s (es.foldl fifoStep []) :=
  Run.run_inv_fold fifoStep (fun q s => IdeInv s q) (fun _ _ _ _ hi hs => ideInv_step hi hs) es []
    _ s (ideInv_init buf disk havedisk1) h

/-- Buffer 0 asks for block 3 of disk 1 and buffer 1 for block 5, behind it. -/
def twoReads (i : Fin NBUF) : IdeBuf := ⟨0, 1, 3 + 2 * i.val.toUInt32, true, zeroes⟩

theorem ide_fifo_twoReads : ∃ s, Run.run ideStep (Driver.init twoReads (fun _ _ => zeroes) true)
      [.iderw ⟨0, by decide⟩, .iderw ⟨1, by decide⟩, .complete false, .intr] = some s ∧
      IdeInv s [⟨1, by decide⟩] :=
  ⟨_, rfl, ide_fifo twoReads (fun _ _ => zeroes) true
    [.iderw ⟨0, by decide⟩, .iderw ⟨1, by decide⟩, .complete false, .intr] _ rfl⟩

end Xv6.Ide
