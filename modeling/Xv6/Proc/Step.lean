import Xv6.Proc.Ops
import Xv6.Lib.Run

/-!
# The process-management code as a transition system

Every CPU runs its scheduler or a process; `step b s e` is one atomic step `e` of the build `b`:

* `Event.sched c` : the scheduler on CPU `c` dispatches a process (with what the process runs
  before it next releases `ptable.lock`, `resumeProc`), or ends a pass over the table;
* `Event.tick c` : a timer interrupt on CPU `c`, taken only where interrupts are on;
* the system calls of the process on CPU `c`, each locked section one event: `yield`, `sleep`,
  `fork` (four events), `exit` (two), `wait`, `kill`, `setTickets`;
* `Event.wakeup a` : a `wakeup` by code outside this model (pipes, the log, the disk driver).

A process's `Phase` says which of its events may come next; `init` is the state `main` leaves when
the CPUs enter `scheduler()`, and `Reachable b s` says some run of `b` from `init` ends in `s`.
-/

namespace Xv6

/-- One atomic step of the kernel. -/
inductive Event where
  | sched (c : Fin NCPU)
  | tick (c : Fin NCPU)
  | yield (c : Fin NCPU)
  | sleep (c : Fin NCPU) (ch : Chan)
  | wakeup (a : Nat)
  | fork (c : Fin NCPU)
  | forkFail (c : Fin NCPU)
  | forkCopy (c : Fin NCPU)
  | forkRun (c : Fin NCPU)
  | exit (c : Fin NCPU)
  | wait (c : Fin NCPU)
  | kill (c : Fin NCPU) (pid : Int32)
  | setTickets (c : Fin NCPU) (t : Int32)
  deriving DecidableEq, Repr

/-- `myproc()` on CPU `c`: the slot it runs and when it was dispatched, if `c` is started and runs
a process. -/
def Sys.running (s : Sys) (c : Fin NCPU) : Option (Fin NPROC × UInt32) :=
  if c.val < s.ncpu then
    match s.cpus c with
    | .run i rs => some (i, rs)
    | .sched _ => none
  else none

/-- `sched()` from the process on CPU `c`: the scheduler's code after `swtch`. -/
def schedOut (b : Sched) (c : Fin NCPU) (s : Sys) : Sys :=
  match s.cpus c with
  | .run i rs => schedReturn b c i rs s
  | .sched _ => s

theorem Sys.running_eq_some {s : Sys} {c : Fin NCPU} {i : Fin NPROC} {rs : UInt32} :
    s.running c = some (i, rs) ↔ c.val < s.ncpu ∧ s.cpus c = .run i rs := by
  unfold Sys.running
  split
  · split <;> simp_all
  · simp_all

/-- Set the phase of slot `i`. -/
def Sys.setPhase (s : Sys) (i : Fin NPROC) (ph : Phase) : Sys :=
  { s with phase := Function.update s.phase i ph }

/-- Set where slot `i` resumes. -/
def Sys.setResume (s : Sys) (i : Fin NPROC) (r : Resume) : Sys :=
  { s with resume := Function.update s.resume i r }

section SetPhase

variable (s : Sys) (i : Fin NPROC) (ph : Phase) (r : Resume)

@[simp] theorem Sys.setPhase_proc : (s.setPhase i ph).proc = s.proc := rfl
@[simp] theorem Sys.setPhase_phase : (s.setPhase i ph).phase = Function.update s.phase i ph := rfl
@[simp] theorem Sys.setPhase_nextpid : (s.setPhase i ph).nextpid = s.nextpid := rfl
@[simp] theorem Sys.setPhase_initproc : (s.setPhase i ph).initproc = s.initproc := rfl
@[simp] theorem Sys.setPhase_ncpu : (s.setPhase i ph).ncpu = s.ncpu := rfl
@[simp] theorem Sys.setPhase_cpus : (s.setPhase i ph).cpus = s.cpus := rfl
@[simp] theorem Sys.setResume_proc : (s.setResume i r).proc = s.proc := rfl
@[simp] theorem Sys.setResume_phase : (s.setResume i r).phase = s.phase := rfl
@[simp] theorem Sys.setResume_resume : (s.setResume i r).resume = Function.update s.resume i r := rfl
@[simp] theorem Sys.setResume_nextpid : (s.setResume i r).nextpid = s.nextpid := rfl
@[simp] theorem Sys.setResume_initproc : (s.setResume i r).initproc = s.initproc := rfl
@[simp] theorem Sys.setResume_ncpu : (s.setResume i r).ncpu = s.ncpu := rfl
@[simp] theorem Sys.setResume_cpus : (s.setResume i r).cpus = s.cpus := rfl

end SetPhase

/-- One iteration of `wait`'s `for(;;)` for `cur` on CPU `c`: return a reaped child's pid, return
`-1` (no children, or killed), or `sleep(curproc, &ptable.lock)` back to the scheduler. -/
def waitStep (b : Sched) (c : Fin NCPU) (cur : Fin NPROC) (s : Sys) : Sys :=
  match waitScan cur (List.finRange NPROC) false s with
  | (s, .ok _) => s.setPhase cur .user
  | (s, .error havekids) =>
    if !havekids || (s.proc cur).killed then s.setPhase cur .user
    else schedOut b c (((sleep cur (.proc cur) s).setPhase cur .waiting).setResume cur .slept)

/-- What slot `i`, just dispatched on CPU `c`, runs before it releases `ptable.lock`: nothing after
`yield` or in `forkret`; after `sleep`, `p->chan = 0`, and in `wait` the next pass of its loop. -/
def resumeProc (b : Sched) (c : Fin NCPU) (i : Fin NPROC) (s : Sys) : Sys :=
  match s.resume i with
  | .forkret | .yielded => s
  | .slept =>
    let s := s.setProc i { s.proc i with chan := none }
    if s.phase i = .waiting then waitStep b c i s else s

/-- One step of `scheduler()` on CPU `c`, at slot `k` of the default scan. -/
def schedStep (b : Sched) (c : Fin NCPU) (k : Nat) (s : Sys) : Sys :=
  match b with
  | .default =>
    match pickDefault k s with
    | none => { s with cpus := Function.update s.cpus c (.sched 0) }
    | some i => resumeProc b c i (dispatchDefault c i s)
  | .lottery =>
    match lotteryRound c s with
    | (s, none) => s
    | (s, some i) => resumeProc b c i s

/-- Interrupts are on at CPU `c`: it runs a process (which holds no spinlock between its steps) or
its scheduler is at the top of its loop. -/
def Sys.intrOn (s : Sys) (c : Fin NCPU) : Bool :=
  match s.cpus c with
  | .run _ _ => true
  | .sched k => k == 0

/-- One atomic step of build `b`; `none` when the step is not enabled, or when it panics
(`exit` of `initproc`). -/
def step (b : Sched) (s : Sys) : Event → Option Sys
  | .sched c =>
    if c.val < s.ncpu then
      match s.cpus c with
      | .sched k => some (schedStep b c k s)
      | .run _ _ => none
    else none
  | .tick c => if c.val < s.ncpu ∧ s.intrOn c then some (timerTick c s) else none
  | .yield c => (s.running c).map fun (i, _) => schedOut b c ((yield i s).setResume i .yielded)
  | .sleep c ch => (s.running c).bind fun (i, _) =>
    match ch with
    | .proc _ => none
    | _ =>
      if s.phase i = .user ∨ s.phase i = .exiting then
        some (schedOut b c ((sleep i ch s).setResume i .slept))
      else none
  | .wakeup a => some (wakeup1 (some (.obj a)) s)
  | .fork c => (s.running c).bind fun (i, _) =>
    if s.phase i = .user then
      match allocproc s with
      | none => some s
      | some (np, s) => some (((s.setPhase i (.forking np)).setPhase np .user).setResume np .forkret)
    else none
  | .forkFail c => (s.running c).bind fun (i, _) =>
    match s.phase i with
    | .forking np => some ((forkFail np s).setPhase i .user)
    | _ => none
  | .forkCopy c => (s.running c).bind fun (i, _) =>
    match s.phase i with
    | .forking np => some ((forkCopy i np s).setPhase i (.forked np))
    | _ => none
  | .forkRun c => (s.running c).bind fun (i, _) =>
    match s.phase i with
    | .forked np => some ((forkRun np s).setPhase i .user)
    | _ => none
  | .exit c => (s.running c).bind fun (i, _) =>
    match s.phase i with
    | .user => if i = s.initproc then none else some ((exitMetrics i s).setPhase i .exiting)
    | .exiting => some (schedOut b c (exitFinish i s))
    | _ => none
  | .wait c => (s.running c).bind fun (i, _) =>
    if s.phase i = .user then some (waitStep b c i s) else none
  | .kill c pid => (s.running c).bind fun (i, _) =>
    if s.phase i = .user then some (kill pid s).1 else none
  | .setTickets c t => (s.running c).bind fun (i, _) =>
    if s.phase i = .user then some (sysSetTickets i t s).1 else none

/-- Before `userinit`: the zero-initialised table, `perf_data` cleared by `pinit`, `nextpid = 1`,
`ticks = 0`, the generator's `seed = 1`, every started CPU about to enter `scheduler()`. -/
def boot (ncpu : Nat) : Sys where
  proc := fun _ => Proc.zero
  phase := fun _ => .user
  resume := fun _ => .forkret
  perfData := fun _ => PerfData.zero
  nextpid := 1
  ticks := 0
  lastCompletionTime := 0
  seed := 1
  initproc := ⟨0, by decide⟩
  ncpu := ncpu
  cpus := fun _ => .sched 0

/-- `userinit`: `allocproc` gives `initproc` its slot, and it becomes RUNNABLE. -/
def userinit (s : Sys) : Sys :=
  match allocproc s with
  | none => s
  | some (i, s) => { s.setProc i { s.proc i with state := .runnable } with initproc := i }

/-- The state in which the `ncpu` started CPUs enter `scheduler()`. -/
def init (ncpu : Nat) : Sys := userinit (boot ncpu)

/-- Some run of build `b` from `init ncpu` ends in `s`. -/
def Reachable (b : Sched) (ncpu : Nat) (s : Sys) : Prop := Run.Reachable (step b) (init ncpu) s

end Xv6
