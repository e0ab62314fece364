import Xv6.Dev.Ide
import Xv6.Lib.Bits

/-!
# `memide.c`: the disk in memory, and the driver refines it

`memide.c` stands in for `ide.c` when the file system image is in memory: its `iderw` does the
transfer at once (`MemDisk`, `iderw`, and `memStep` against the buffer cache).

* `Driver.toMem` : the interrupt-driven driver seen as the memory disk: the blocks of the file
  system on disk 1, and the buffers, the request the controller has completed already finished;
* `toMem_step` : from the invariant of the driver, a buffer-cache update is the same update of the
  memory disk, the completion of a request is `memide.c`'s `iderw` of its buffer, and every other
  event changes nothing;
* `ide_refines_memide` : so a run of the driver without disk errors, with its buffers on disk 1, is
  the run of `memide.c` on the same buffer-cache updates and on the requests in the order the
  controller completes them, which by `ide_fifo` is the order of the calls.
-/

namespace Xv6.MemIde

open Ide (IdeBuf B_VALID B_DIRTY)

/-- The state of `memide.c`: the buffers, the image `memdisk` by block, and `disksize`. -/
@[ext] structure MemDisk where
  buf : Fin NBUF → IdeBuf
  memdisk : UInt32 → Block
  disksize : Nat

/-- Code of `memide.c`: `none` is a `panic`. -/
abbrev DiskM := StateT MemDisk Option

@[simps -fullyApplied] def MemDisk.setBuf (s : MemDisk) (i : Fin NBUF) (b : IdeBuf) : MemDisk :=
  { s with buf := Function.update s.buf i b }

@[simps -fullyApplied] def MemDisk.setBlock (s : MemDisk) (n : UInt32) (blk : Block) : MemDisk :=
  { s with memdisk := Function.update s.memdisk n blk }

/-- Sync buf with disk. If `B_DIRTY` is set, write buf to disk, clear `B_DIRTY`, set `B_VALID`.
Else if `B_VALID` is not set, read buf from disk, set `B_VALID`. -/
def iderw (b : Fin NBUF) : DiskM Unit := do
  let s ← get
  if !(s.buf b).locked then failure  -- panic("iderw: buf not locked")
  if (s.buf b).flags &&& (B_VALID ||| B_DIRTY) = B_VALID then failure  -- panic("iderw: nothing to do")
  if (s.buf b).dev ≠ 1 then failure  -- panic("iderw: request not for disk 1")
  if s.disksize ≤ (s.buf b).blockno.toNat then failure  -- panic("iderw: block out of range")
  -- p = memdisk + b->blockno*BSIZE
  let p := (s.buf b).blockno
  if (s.buf b).flags &&& B_DIRTY ≠ 0 then
    modify fun s => s.setBuf b { s.buf b with flags := (s.buf b).flags &&& ~~~B_DIRTY }
    modify fun s => s.setBlock p (s.buf b).data
  else
    modify fun s => s.setBuf b { s.buf b with data := s.memdisk p }
  modify fun s => s.setBuf b { s.buf b with flags := (s.buf b).flags ||| B_VALID }

/-- The events of `memide.c`: the buffer cache sets a buffer, or calls `iderw`. -/
inductive MemEvent where
  | bio (i : Fin NBUF) (b : IdeBuf)
  | iderw (i : Fin NBUF)

def memStep (s : MemDisk) : MemEvent → Option MemDisk
  | .bio i b => some (s.setBuf i b)
  | .iderw i => (iderw i s).map Prod.snd

/-- The checks at the top of `iderw`. -/
def MemOk (s : MemDisk) (b : Fin NBUF) : Prop :=
  (s.buf b).locked = true ∧ (s.buf b).flags &&& (B_VALID ||| B_DIRTY) ≠ B_VALID ∧
    (s.buf b).dev = 1 ∧ (s.buf b).blockno.toNat < s.disksize

/-- What `iderw` leaves after its checks: a dirty buffer is copied to its block and marked clean
and valid, a clean one is read from its block and marked valid. -/
def MemDisk.sync (s : MemDisk) (b : Fin NBUF) : MemDisk :=
  if (s.buf b).flags &&& B_DIRTY ≠ 0 then
    (s.setBuf b { s.buf b with flags := (s.buf b).flags &&& ~~~B_DIRTY ||| B_VALID }).setBlock
      (s.buf b).blockno (s.buf b).data
  else s.setBuf b { s.buf b with data := s.memdisk (s.buf b).blockno, flags := (s.buf b).flags ||| B_VALID }

variable {s : MemDisk} {b : Fin NBUF}

@[simp] theorem MemDisk.setBuf_setBuf (i : Fin NBUF) (x y : IdeBuf) :
    (s.setBuf i x).setBuf i y = s.setBuf i y := by
  simp [MemDisk.setBuf]

theorem MemDisk.setBlock_setBuf (n : UInt32) (blk : Block) (i : Fin NBUF) (x : IdeBuf) :
    (s.setBlock n blk).setBuf i x = (s.setBuf i x).setBlock n blk := rfl

theorem iderw_of_ok (h : MemOk s b) : iderw b s = some ((), s.sync b) := by
  obtain ⟨hl, hv, hd, hn⟩ := h
  simp only [iderw, StateOpt.get_bind, hl, hv, hd, Bool.not_true, Bool.false_eq_true, ne_eq,
    not_true_eq_false, if_false, if_neg (Nat.not_le.mpr hn), MemDisk.sync]
  split_ifs with hdirty
  · -- a read
    simp [StateOpt.modify_bind, StateOpt.run_modify, hd, hl]
  · -- a write: the buffer's flags are set after its block is copied
    simp [StateOpt.modify_bind, StateOpt.run_modify, MemDisk.setBlock_setBuf, hd, hl]

theorem iderw_of_not_ok (h : ¬ MemOk s b) : iderw b s = none := by
  simp only [MemOk, not_and_or, Bool.not_eq_true, not_not, not_lt] at h
  rcases h with h | h | h | h
  · simp [iderw, StateOpt.get_bind, h]
    rfl
  · simp [iderw, StateOpt.get_bind, h]
    rfl
  · simp [iderw, StateOpt.get_bind, h]
    rfl
  · simp [iderw, StateOpt.get_bind, h]
    rfl

end Xv6.MemIde

namespace Xv6.Ide

open MemIde (MemDisk MemEvent memStep MemOk)

/-- The driver seen as `memide.c`'s state: block `n` of the image is sector `n` of disk 1 (a block
is one sector), for the blocks of the file system; a buffer is the driver's, except the head of
the queue once the controller has completed its command, which is already finished. -/
def Driver.toMem (s : Driver) : MemDisk where
  buf i := if s.idequeue = some i ∧ s.ctl.cmd.isNone then (s.buf i).finish s.ctl else s.buf i
  memdisk n := if n.toNat < FSSIZE then s.disk 1 n else zeroes
  disksize := FSSIZE

/-- The events of `memide.c` that an event of the driver stands for, `q` being the queue: a
buffer-cache update is itself, and the completion of the head's command is `iderw` of the head. -/
def memEvents (q : List (Fin NBUF)) : IdeEvent → List MemEvent
  | .bio i b => [.bio i b]
  | .complete _ => q.head?.toList.map .iderw
  | _ => []

/-- The events that `memide.c` has a counterpart of: updates of buffers on disk 1, and commands
that do not fail. -/
def IdeEvent.onDisk1 : IdeEvent → Bool
  | .bio _ b => b.dev == 1
  | .complete err => !err
  | _ => true

section Refines

variable {s s' : Driver} {q : List (Fin NBUF)} {u : Unit}

theorem flags_valid_not_dirty (f : UInt32) :
    (f ||| B_VALID) &&& ~~~B_DIRTY = f &&& ~~~B_DIRTY ||| B_VALID := by
  rw [← UInt32.toBitVec_inj]
  simp [BitVec.and_or_distrib_right, B_VALID, B_DIRTY]

/-- Block `n` of the file system is sector `n`: a block is one sector, and the sector number fits
in 28 bits. -/
theorem sector_of_lt {n : UInt32} (h : n.toNat < FSSIZE) :
    n * UInt32.ofNat (BSIZE / SECTOR_SIZE) &&& 0x0fffffff = n := by
  have hfs : FSSIZE < 2 ^ 28 := by decide
  rw [show UInt32.ofNat (BSIZE / SECTOR_SIZE) = 1 from rfl, UInt32.mul_one, ← UInt32.toNat_inj,
    UInt32.toNat_and, show (0x0fffffff : UInt32).toNat = 2 ^ 28 - 1 from rfl,
    Nat.and_two_pow_sub_one_eq_mod]
  exact Nat.mod_eq_of_lt (by omega)

/-- The command `idestart` gives for a buffer on disk 1 whose block is in range. -/
theorem IdeBuf.cmd_of_disk1 {b : IdeBuf} (hd : b.dev = 1) (hb : b.blockno.toNat < FSSIZE) :
    b.cmd = if b.flags &&& B_DIRTY ≠ 0 then .write 1 b.blockno b.data else .read 1 b.blockno := by
  rw [IdeBuf.cmd, hd, sector_of_lt hb]
  rfl

/-- How `ideintr` finishes a written buffer: as `memide.c` does, it is marked clean and valid. -/
theorem IdeBuf.finish_write {b : IdeBuf} {c : Ctl} (hdirty : b.flags &&& B_DIRTY ≠ 0) :
    b.finish c = { b with flags := b.flags &&& ~~~B_DIRTY ||| B_VALID } := by
  simp [IdeBuf.finish, hdirty, flags_valid_not_dirty]

/-- How `ideintr` finishes a read buffer after a command without error: as `memide.c` does, it
takes the block read and is marked valid. -/
theorem IdeBuf.finish_read {b : IdeBuf} {c : Ctl} (hclean : b.flags &&& B_DIRTY = 0)
    (herr : c.err = false) : b.finish c = { b with data := c.sect, flags := b.flags ||| B_VALID } := by
  simp [IdeBuf.finish, hclean, herr, flags_valid_not_dirty, Bits.and_not_of_and_eq_zero hclean]

theorem toMem_buf_of_running (hc : s.ctl.cmd ≠ none) : s.toMem.buf = s.buf := by
  funext i
  simp [Driver.toMem, Option.isNone_iff_eq_none, hc]

theorem toMem_buf_of_empty (hq : s.idequeue = none) : s.toMem.buf = s.buf := by
  funext i
  simp [Driver.toMem, hq]

/-- With the head's command completed, the buffers seen by the memory disk are those after the
pop of `ideintr`. -/
theorem toMem_buf_of_done {b : Fin NBUF} (hq : s.idequeue = some b) (hc : s.ctl.cmd = none) :
    s.toMem.buf = (s.intrPop b).buf := by
  funext i
  by_cases hi : i = b
  · subst hi
    simp [Driver.toMem, hq, hc]
  · simp [Driver.toMem, hq, hc, Function.update_of_ne hi, Ne.symm hi]

theorem IdeInv.head_mem {i : Fin NBUF} (h : IdeInv s q) (hq : s.idequeue = some i) : i ∈ q := by
  cases q with
  | nil => simp [SList.chain_nil.mp h.chain] at hq
  | cons b rest =>
    rw [h.chain.1, Option.some.injEq] at hq
    simp [hq]

/-- The buffer cache sets a buffer that is not at the head of the queue: the memory disk sets it
too. -/
theorem toMem_setBuf {i : Fin NBUF} {b : IdeBuf} (hi : s.idequeue ≠ some i) :
    (s.setBuf i b).toMem = s.toMem.setBuf i b := by
  ext : 1
  · funext j
    by_cases hj : j = i
    · subst hj
      simp [Driver.toMem, hi]
    · simp [Driver.toMem, Function.update_of_ne hj]
  · rfl
  · rfl

/-- The controller completes the head's command without an error: seen as the memory disk, that
is `iderw` of the head. -/
theorem toMem_complete {b : Fin NBUF} {rest : List (Fin NBUF)} (h : IdeInv s (b :: rest))
    (hd : ∀ i, (s.buf i).dev = 1) (hs : s.complete false = some s') :
    memStep s.toMem (.iderw b) = some s'.toMem := by
  obtain ⟨hblk, ⟨hc, -⟩ | ⟨hc, -⟩⟩ := h.ctl
  swap
  · simp [Driver.complete, hc] at hs
  have hbuf : s.toMem.buf = s.buf := toMem_buf_of_running (by simp [hc])
  have hok : MemOk s.toMem b :=
    ⟨hbuf ▸ h.locked b List.mem_cons_self, hbuf ▸ h.pending b List.mem_cons_self, hbuf ▸ hd b,
      hbuf ▸ hblk⟩
  rw [MemIde.memStep, MemIde.iderw_of_ok hok, Option.map_some, Option.some_inj, MemDisk.sync, hbuf]
  rw [IdeBuf.cmd_of_disk1 (hd b) hblk] at hc
  split_ifs at hc ⊢ with hdirty
  · -- a write: the disk takes the buffer's data, and the buffer is marked clean and valid
    simp only [Driver.complete, hc, Bool.false_eq_true, if_false, Option.some.injEq] at hs
    subst hs
    ext : 1
    · rw [MemIde.MemDisk.setBlock_buf, MemIde.MemDisk.setBuf_buf, hbuf,
        toMem_buf_of_done (s := (s.setDisk _ _ _).setCtl _) h.chain.1 rfl]
      simp [IdeBuf.finish_write hdirty]
    · funext n
      by_cases hn : n = (s.buf b).blockno
      · subst hn
        simp [Driver.toMem, hblk]
      · simp [Driver.toMem, Function.update_of_ne hn]
    · rfl
  · -- a read: the data register holds the block, which the interrupt will copy in
    simp only [Driver.complete, hc, Option.some.injEq] at hs
    subst hs
    ext : 1
    · rw [MemIde.MemDisk.setBuf_buf, hbuf,
        toMem_buf_of_done (s := s.setCtl ⟨none, false, s.disk 1 (s.buf b).blockno, true⟩) h.chain.1 rfl]
      simp [IdeBuf.finish_read (c := ⟨none, false, s.disk 1 (s.buf b).blockno, true⟩)
        (not_not.mp hdirty) rfl, Driver.toMem, hblk]
    · rfl
    · rfl

/-- The interrupt pops the finished head and starts the next request: the memory disk sees no
change. -/
theorem toMem_ideintr (h : IdeInv s q) (hirq : s.ctl.irq = true)
    (hs : ideintr (s.setCtl { s.ctl with irq := false }) = some (u, s')) :
    (∀ i, (s'.buf i).dev = (s.buf i).dev) ∧ s'.toMem = s.toMem := by
  obtain ⟨b, rest, rfl, hc, hcases⟩ := ideintr_cases h hirq hs
  -- afterwards no request is completed, and the buffers and disk are those of the pop
  have hs' : s'.buf = (s.intrPop b).buf ∧ s'.disk = s.disk ∧ s'.toMem.buf = s'.buf := by
    rcases hcases with ⟨rfl, rfl⟩ | ⟨n, rest, rfl, -, rfl⟩
    · exact ⟨rfl, rfl, toMem_buf_of_empty (SList.chain_nil.mp h.chain.2)⟩
    · exact ⟨rfl, rfl, toMem_buf_of_running (by simp)⟩
  obtain ⟨hb, hd, hm⟩ := hs'
  refine ⟨fun i => ?_, ?_⟩
  · rw [hb, Driver.intrPop_buf]
    by_cases hi : i = b
    · subst hi
      simp [IdeBuf.finish]
    · rw [Function.update_of_ne hi]
  · ext : 1
    · rw [hm, hb, toMem_buf_of_done h.chain.1 hc]
    · funext n
      simp [Driver.toMem, hd]
    · rfl

/-- From the invariant, each event that `memide.c` has a counterpart of keeps the buffers on disk
1, and the memory disk runs the events it stands for from the driver's image to its image after
it. -/
theorem toMem_step {e : IdeEvent} (h : IdeInv s q) (hd : ∀ i, (s.buf i).dev = 1)
    (he : e.onDisk1 = true) (hs : ideStep s e = some s') :
    (∀ i, (s'.buf i).dev = 1) ∧ Run.run memStep s.toMem (memEvents q e) = some s'.toMem := by
  cases e with
  | bio i b =>
    simp only [ideStep] at hs
    split_ifs at hs with hi
    cases hs
    refine ⟨fun j => ?_, ?_⟩
    · by_cases hj : j = i
      · subst hj
        simpa [IdeEvent.onDisk1] using he
      · simpa [Function.update_of_ne hj] using hd j
    · -- the buffer has no process in `iderw`, so it is not the head
      have hq : s.idequeue ≠ some i := fun hq => h.not_mem (by simpa using hi) (h.head_mem hq)
      rw [memEvents, Run.run_singleton, MemIde.memStep, toMem_setBuf hq]
  | iderw i =>
    simp only [ideStep] at hs
    split_ifs at hs with hi
    obtain ⟨⟨u, t⟩, hr, rfl⟩ := Option.map_eq_some_iff.mp hs
    simp only [memEvents, Run.run_nil, Option.some_inj]
    obtain ⟨-, -, ⟨rfl, -, rfl⟩ | ⟨l, x, -, rfl⟩⟩ := iderw_cases h (by simpa using hi) hr
    · -- the queue was empty and its new head now runs: no request is completed before or after
      refine ⟨hd, ?_⟩
      ext : 1
      · rw [toMem_buf_of_empty (SList.chain_nil.mp h.chain), toMem_buf_of_running (by simp)]
        rfl
      · rfl
      · rfl
    · exact ⟨hd, rfl⟩
  | wake i =>
    simp only [ideStep, iderwWait_eq] at hs
    split_ifs at hs
    cases hs
    exact ⟨hd, rfl⟩
  | complete err =>
    cases err with
    | true => simp [IdeEvent.onDisk1] at he
    | false =>
      cases q with
      | nil => simp [ideStep, Driver.complete, h.ctl.1] at hs
      | cons b rest =>
        refine ⟨fun i => ?_, ?_⟩
        · -- a completion changes the controller and the disk only
          have hb : s'.buf = s.buf := by
            simp only [ideStep, Driver.complete] at hs
            split at hs <;> simp only [Option.some.injEq, reduceCtorEq] at hs <;> rw [← hs] <;> rfl
          rw [hb, hd i]
        · rw [memEvents, List.head?_cons, Option.toList_some, List.map_singleton, Run.run_singleton]
          exact toMem_complete h hd hs
  | intr =>
    simp only [ideStep] at hs
    split_ifs at hs with hirq
    obtain ⟨⟨u, t⟩, hr, rfl⟩ := Option.map_eq_some_iff.mp hs
    obtain ⟨hdev, hmem⟩ := toMem_ideintr h hirq hr
    exact ⟨fun i => (hdev i).trans (hd i), by simp only [memEvents, Run.run_nil, hmem]⟩

end Refines

/-- A run of the interrupt-driven driver from `ideinit`, without disk errors and with its buffers
on disk 1, is seen as the run of `memide.c` from the file system image on disk 1: on the same
buffer-cache updates, and a synchronous `iderw` of each request when the controller completes it,
in the order of the queue. -/
theorem ide_refines_memide (buf : Fin NBUF → IdeBuf) (disk : UInt32 → UInt32 → Block)
    (havedisk1 : Bool) (hbuf : ∀ i, (buf i).dev = 1) (es : List IdeEvent)
    (hes : ∀ e ∈ es, e.onDisk1 = true) (s : Driver)
    (h : Run.run ideStep (Driver.init buf disk havedisk1) es = some s) :
    Run.run memStep ⟨buf, fun n => if n.toNat < FSSIZE then disk 1 n else zeroes, FSSIZE⟩
      (Run.trace fifoStep memEvents [] es) = some s.toMem := by
  have hinit : (Driver.init buf disk havedisk1).toMem =
      ⟨buf, fun n => if n.toNat < FSSIZE then disk 1 n else zeroes, FSSIZE⟩ := by
    ext : 1
    · exact toMem_buf_of_empty rfl
    · rfl
    · rfl
  rw [← hinit]
  refine Run.run_trace fifoStep memEvents Driver.toMem
    (fun q s => IdeInv s q ∧ ∀ i, (s.buf i).dev = 1) (fun e => e.onDisk1 = true)
    (fun _ _ _ _ hi he hs => ?_) es [] _ s ⟨ideInv_init buf disk havedisk1, hbuf⟩ hes h
  obtain ⟨hdev, hrun⟩ := toMem_step hi.1 hi.2 he hs
  exact ⟨⟨ideInv_step hi.1 hs, hdev⟩, hrun⟩

theorem ide_refines_memide_twoReads :
    ∃ s, Run.run ideStep (Driver.init twoReads (fun _ _ => zeroes) true)
        [.iderw ⟨0, by decide⟩, .iderw ⟨1, by decide⟩, .complete false, .intr] = some s ∧
      Run.run memStep ⟨twoReads, fun n => if n.toNat < FSSIZE then zeroes else zeroes, FSSIZE⟩
        [.iderw ⟨0, by decide⟩] = some s.toMem :=
  ⟨_, rfl, ide_refines_memide twoReads (fun _ _ => zeroes) true (fun _ => rfl)
    [.iderw ⟨0, by decide⟩, .iderw ⟨1, by decide⟩, .complete false, .intr] (by decide) _ rfl⟩

end Xv6.Ide
