import Xv6.Param
import Xv6.Lib.Scan

/-!
# The process table: `proc.h` and the globals of `proc.c`

* `Procstate`, `Proc`, `PerfData` : `enum procstate`, `struct proc`, `struct PerfData`, with the
  fields the process-management code reads and writes;
* `Chan` : the `void *chan` a process sleeps on;
* `Cpu` : what a CPU is doing, `c->proc` and the scheduler's locals;
* `Phase`, `Resume` : ghost state, where a process's kernel thread stands between two of its
  atomic steps and where it called `sched()`;
* `Sys` : the whole state, `ptable.proc`, `perf_data`, `nextpid`, `ticks`, `cpus` and the rest;
* `storePerf` : the loop that appends a record to `perf_data`, which `exit`, `wait` and the
  lottery scheduler each repeat.

C `int` fields are `Int32`, `uint` ones `UInt32`: the metrics code mixes the two, and the
conversions between them (`UInt32.toInt32`, `Int32.toUInt32`) keep the bits, as on x86.
-/

namespace Xv6

/-- `enum procstate`. -/
inductive Procstate where
  | unused | embryo | sleeping | runnable | running | zombie
  deriving DecidableEq, Repr

/-- The channel of `sleep(chan, lk)`: a slot of the table (`wait` sleeps on its own `proc`), `&ticks`
(`sys_sleep`), or another kernel object (a pipe, the log, a buffer, a sleep-lock). -/
inductive Chan where
  | proc (i : Fin NPROC)
  | ticks
  | obj (a : Nat)
  deriving DecidableEq, Repr

/-- `struct proc`: the fields of the process-management code. A pointer into the table is a slot
index, `0` is `none`. -/
structure Proc where
  state : Procstate
  pid : Int32
  parent : Option (Fin NPROC)
  chan : Option Chan
  killed : Bool
  runticks : Int32
  tickets : Int32
  enqueueTime : Int32
  creationTime : Int32
  startTime : Int32
  completionTime : Int32
  totalRunTime : Int32
  totalReadyTime : Int32
  deriving DecidableEq, Repr

/-- A slot of the zero-initialised `ptable`. -/
def Proc.zero : Proc where
  state := .unused
  pid := 0
  parent := none
  chan := none
  killed := false
  runticks := 0
  tickets := 0
  enqueueTime := 0
  creationTime := 0
  startTime := 0
  completionTime := 0
  totalRunTime := 0
  totalReadyTime := 0

/-- `struct PerfData`: one entry of the history of finished processes. -/
structure PerfData where
  pid : Int32
  creationTime : Int32
  startTime : Int32
  completionTime : Int32
  totalRunTime : Int32
  totalReadyTime : Int32
  valid : Bool
  deriving DecidableEq, Repr

/-- An entry as `pinit` leaves it (`valid = 0`, the rest zero-initialised). -/
def PerfData.zero : PerfData :=
  ⟨0, 0, 0, 0, 0, 0, false⟩

/-- The entry the store loops write for `p`. -/
def PerfData.ofProc (p : Proc) : PerfData :=
  ⟨p.pid, p.creationTime, p.startTime, p.completionTime, p.totalRunTime, p.totalReadyTime, true⟩

/-- What CPU `c` runs: its scheduler, at slot `k` of the default scheduler's scan, or process `p`
(`c->proc == p`), dispatched at `runStart` (the scheduler's local `run_start`). -/
inductive Cpu where
  | sched (k : Nat)
  | run (p : Fin NPROC) (runStart : UInt32)
  deriving DecidableEq, Repr

/-- Where a process's system call stands between two of its atomic steps. -/
inductive Phase where
  /-- In user space, or in a system call outside the process-management code. -/
  | user
  /-- In `fork`, after `allocproc`'s locked section gave it the slot `np`. -/
  | forking (np : Fin NPROC)
  /-- In `fork`, after copying itself into `np`, before the last locked section. -/
  | forked (np : Fin NPROC)
  /-- In `exit`, between its two locked sections. -/
  | exiting
  /-- In `wait`, asleep on its own slot. -/
  | waiting
  deriving DecidableEq, Repr

/-- Where a process off the CPUs called `sched()`: what it runs when dispatched. -/
inductive Resume where
  | forkret | yielded | slept
  deriving DecidableEq, Repr

/-- The two scheduler builds of `scheduler()`; the `SCHEDULER_FIFO` branch names fields `struct
proc` does not have and does not compile. -/
inductive Sched where
  | default | lottery
  deriving DecidableEq, Repr

/-- The state of the process-management code. -/
structure Sys where
  proc : Fin NPROC → Proc
  phase : Fin NPROC → Phase
  resume : Fin NPROC → Resume
  perfData : Fin NPROC → PerfData
  nextpid : Int32
  ticks : UInt32
  lastCompletionTime : UInt32
  seed : UInt32
  initproc : Fin NPROC
  ncpu : Nat
  cpus : Fin NCPU → Cpu

/-! ## Writing one slot -/

/-- Overwrite slot `i` of the table. -/
def Sys.setProc (s : Sys) (i : Fin NPROC) (p : Proc) : Sys :=
  { s with proc := Function.update s.proc i p }

section SetProc
variable (s : Sys) (i : Fin NPROC) (p : Proc)

@[simp] theorem Sys.setProc_proc : (s.setProc i p).proc = Function.update s.proc i p := rfl
@[simp] theorem Sys.setProc_phase : (s.setProc i p).phase = s.phase := rfl
@[simp] theorem Sys.setProc_resume : (s.setProc i p).resume = s.resume := rfl
@[simp] theorem Sys.setProc_perfData : (s.setProc i p).perfData = s.perfData := rfl
@[simp] theorem Sys.setProc_nextpid : (s.setProc i p).nextpid = s.nextpid := rfl
@[simp] theorem Sys.setProc_ticks : (s.setProc i p).ticks = s.ticks := rfl
@[simp] theorem Sys.setProc_lastCompletionTime :
    (s.setProc i p).lastCompletionTime = s.lastCompletionTime := rfl
@[simp] theorem Sys.setProc_seed : (s.setProc i p).seed = s.seed := rfl
@[simp] theorem Sys.setProc_initproc : (s.setProc i p).initproc = s.initproc := rfl
@[simp] theorem Sys.setProc_ncpu : (s.setProc i p).ncpu = s.ncpu := rfl
@[simp] theorem Sys.setProc_cpus : (s.setProc i p).cpus = s.cpus := rfl

end SetProc

/-! ## `int` arithmetic on tick counts -/

/-- `x += d` for an `int` field `x` and an `unsigned` right-hand side `d`: C adds in `unsigned`
arithmetic and converts the sum back. -/
def addUint (x : Int32) (d : UInt32) : Int32 := (x.toUInt32 + d).toInt32

/-! ## The history of finished processes -/

/-- The store loop `for(i = 0; i < NPROC; i++) if(!perf_data[i].valid) { ...; break; }`: write `p`'s
metrics into the first invalid entry, or `none` when every entry is valid. -/
def storePerf (pd : Fin NPROC → PerfData) (p : Proc) : Option (Fin NPROC → PerfData) :=
  (Scan.firstIdx (fun i => !(pd i).valid)).map (fun i => Function.update pd i (PerfData.ofProc p))

theorem storePerf_eq_none_iff (pd : Fin NPROC → PerfData) (p : Proc) :
    storePerf pd p = none ↔ ∀ i, (pd i).valid = true := by
  simp [storePerf, Scan.firstIdx_eq_none_iff]

theorem storePerf_eq_some {pd pd' : Fin NPROC → PerfData} {p : Proc} (h : storePerf pd p = some pd') :
    ∃ i, (pd i).valid = false ∧ (∀ j < i, (pd j).valid = true) ∧
      pd' = Function.update pd i (PerfData.ofProc p) := by
  unfold storePerf at h
  cases hf : Scan.firstIdx (fun i => !(pd i).valid) with
  | none => simp [hf] at h
  | some i =>
    simp only [hf, Option.map_some, Option.some.injEq] at h
    have hi := Scan.firstIdx_spec hf
    refine ⟨i, by simpa using hi, fun j hj => ?_, h.symm⟩
    have := Scan.firstIdx_min hf hj
    simpa using this

end Xv6
