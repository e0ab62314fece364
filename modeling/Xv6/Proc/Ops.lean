import Xv6.Proc.Defs

/-!
# The locked sections of `proc.c` and the timer case of `trap()`

Each function is one atomic step of the kernel: the code from an `acquire(&ptable.lock)` to the
matching `release` (or to the `swtch` that hands the lock on), or an unlocked write that no other
CPU races with. The step relation (`Proc/Step`) strings them together.

* `wakeup1`, `kill`, `sysSetTickets`, `getrunticks`;
* `allocproc`, `forkFail`, `forkCopy`, `forkRun` : the pieces of `fork`;
* `finalize`, `exitMetrics`, `reparentAt`, `exitFinish` : the two locked sections of `exit`;
* `sleep`, `yield`;
* `waitScan` : one pass of `wait`'s loop over the table;
* `schedReturn` : the scheduler's code after `swtch` comes back to it, in both builds;
* `pickDefault`, `dispatchDefault` : one dispatch of the default scheduler;
* `lotteryComplete`, `lotteryReady`, `totalTickets`, `getRandom`, `pickFrom`, `dispatchLottery` :
  one round of the lottery scheduler;
* `timerTick` : the `IRQ_TIMER` case of `trap()`.
-/

namespace Xv6

/-! ## Sleep and wakeup -/

/-- The slot `p` sleeps on `ch`: what `wakeup1(chan)` tests. -/
def Proc.sleepsOn (p : Proc) (ch : Option Chan) : Prop := p.state = .sleeping ∧ p.chan = ch

instance (p : Proc) (ch : Option Chan) : Decidable (p.sleepsOn ch) :=
  inferInstanceAs (Decidable (_ ∧ _))

/-- `wakeup1(chan)`: every SLEEPING slot on `chan` becomes RUNNABLE, stamped with `ticks`. -/
def wakeup1 (ch : Option Chan) (s : Sys) : Sys :=
  { s with proc := fun i =>
      { s.proc i with
        state := if (s.proc i).sleepsOn ch then .runnable else (s.proc i).state
        enqueueTime := if (s.proc i).sleepsOn ch then s.ticks.toInt32 else (s.proc i).enqueueTime } }

/-- `p->total_ready_time + (ticks - p->enqueue_time)`: the ready time once the interval since
`enqueue_time` is charged. -/
def readyAfter (ticks : UInt32) (p : Proc) : Int32 :=
  addUint p.totalReadyTime (ticks - p.enqueueTime.toUInt32)

/-- `sleep(chan, lk)` from taking `ptable.lock` to `sched()`: close the ready interval, then record
`chan` and go SLEEPING. -/
def sleep (cur : Fin NPROC) (ch : Chan) (s : Sys) : Sys :=
  s.setProc cur { s.proc cur with
    totalReadyTime :=
      if 0 < (s.proc cur).enqueueTime then readyAfter s.ticks (s.proc cur)
      else (s.proc cur).totalReadyTime
    enqueueTime := if 0 < (s.proc cur).enqueueTime then 0 else (s.proc cur).enqueueTime
    chan := some ch
    state := .sleeping }

/-- `yield()` up to `sched()`: RUNNABLE again, enqueued at `ticks`. -/
def yield (cur : Fin NPROC) (s : Sys) : Sys :=
  s.setProc cur { s.proc cur with state := .runnable, enqueueTime := s.ticks.toInt32 }

/-! ## `kill`, `set_tickets`, `ticks_run` -/

/-- `kill(pid)`: the first slot carrying `pid`, in whatever state, gets `killed = 1` and is woken if
it sleeps; the result is `0`, or `-1` when no slot carries `pid`. -/
def kill (pid : Int32) (s : Sys) : Sys × Int32 :=
  match Scan.firstIdx (fun i => (s.proc i).pid == pid) with
  | none => (s, -1)
  | some i =>
    (s.setProc i { s.proc i with
        killed := true
        state := if (s.proc i).state = .sleeping then .runnable else (s.proc i).state }, 0)

/-- `sys_set_tickets(t)` for the process in slot `cur`: `-1` for `t <= 0`, else `p->tickets = t`. -/
def sysSetTickets (cur : Fin NPROC) (t : Int32) (s : Sys) : Sys × Int32 :=
  if t ≤ 0 then (s, -1) else (s.setProc cur { s.proc cur with tickets := t }, 0)

/-- `getrunticks(pid)`, what `ticks_run(pid)` returns: the first slot carrying `pid` decides, with its
`runticks` unless it is ZOMBIE or UNUSED; `-1` otherwise. -/
def getrunticks (pid : Int32) (s : Sys) : Int32 :=
  match Scan.firstIdx (fun i => (s.proc i).pid == pid) with
  | none => -1
  | some i =>
    if (s.proc i).state ≠ .zombie ∧ (s.proc i).state ≠ .unused then (s.proc i).runticks else -1

/-! ## `fork` -/

/-- `allocproc`'s locked section: the first UNUSED slot becomes an EMBRYO with pid `nextpid++`,
`DEFAULT_TICKETS` tickets and its metrics started at `ticks`; `none` when no slot is UNUSED.
`killed`, `parent` and `chan` keep what the slot held. -/
def allocproc (s : Sys) : Option (Fin NPROC × Sys) :=
  (Scan.firstIdx (fun i => (s.proc i).state == .unused)).map fun i =>
    (i, { s.setProc i { s.proc i with
            state := .embryo
            pid := s.nextpid
            runticks := 0
            tickets := DEFAULT_TICKETS
            creationTime := s.ticks.toInt32
            startTime := s.ticks.toInt32
            completionTime := 0
            totalRunTime := 0
            totalReadyTime := 0
            enqueueTime := 0 } with
          nextpid := s.nextpid + 1 })

/-- The failure paths of `allocproc` (`kalloc` fails) and `fork` (`copyuvm` fails): the new slot is
set back to UNUSED, without the lock and without clearing its pid. -/
def forkFail (np : Fin NPROC) (s : Sys) : Sys :=
  s.setProc np { s.proc np with state := .unused }

/-- `fork` copying the caller `cur` into `np`: `np->parent = curproc` and
`np->tickets = curproc->tickets` (memory, trap frame and files are outside this model). -/
def forkCopy (cur np : Fin NPROC) (s : Sys) : Sys :=
  s.setProc np { s.proc np with parent := some cur, tickets := (s.proc cur).tickets }

/-- `fork`'s last locked section: `np` is enqueued at `ticks` and RUNNABLE. -/
def forkRun (np : Fin NPROC) (s : Sys) : Sys :=
  s.setProc np { s.proc np with enqueueTime := s.ticks.toInt32, state := .runnable }

/-! ## `exit` -/

/-- The metrics `exit` and `wait` finalise for a finished process: completion time if not yet past
its creation, a run time of at least 1, and the ready interval still open. -/
def finalize (ticks : UInt32) (p : Proc) : Proc :=
  { p with
    completionTime := if p.completionTime ≤ p.creationTime then ticks.toInt32 else p.completionTime
    totalRunTime := if p.totalRunTime = 0 then 1 else p.totalRunTime
    totalReadyTime := if 0 < p.enqueueTime then readyAfter ticks p else p.totalReadyTime
    enqueueTime := if 0 < p.enqueueTime then 0 else p.enqueueTime }

/-- `exit`'s first locked section: finalise `cur`'s metrics and append them to `perf_data` (nothing
is stored when every entry is valid). -/
def exitMetrics (cur : Fin NPROC) (s : Sys) : Sys :=
  let p := finalize s.ticks (s.proc cur)
  { s.setProc cur p with perfData := (storePerf s.perfData p).getD s.perfData }

/-- One iteration of `exit`'s loop at slot `j`: `if(p->parent == curproc) { p->parent = initproc;
if(p->state == ZOMBIE) wakeup1(initproc); }`. -/
def reparentAt (cur : Fin NPROC) (s : Sys) (j : Fin NPROC) : Sys :=
  if (s.proc j).parent = some cur then
    let s := s.setProc j { s.proc j with parent := some s.initproc }
    if (s.proc j).state = .zombie then wakeup1 (some (.proc s.initproc)) s else s
  else s

/-- `exit`'s loop over the table, passing the children of `cur` to `initproc`. -/
def reparent (cur : Fin NPROC) (s : Sys) : Sys :=
  (List.finRange NPROC).foldl (reparentAt cur) s

/-- `exit`'s second locked section up to `sched()`: wake the parent, pass the children to
`initproc`, become a ZOMBIE. -/
def exitFinish (cur : Fin NPROC) (s : Sys) : Sys :=
  let s := wakeup1 ((s.proc cur).parent.map Chan.proc) s
  let s := reparent cur s
  s.setProc cur { s.proc cur with state := .zombie }

/-! ## `wait` -/

/-- One pass of `wait`'s scan for the caller `cur` over the slots `ps`, `havekids` so far: a ZOMBIE
child is finalised and stored in `perf_data`, and when the store succeeds it is freed and its pid
returned (`.ok pid`); when the store fails the scan goes on (`if(!stored) continue;`). At the end
of the table the result is `.error havekids`. -/
def waitScan (cur : Fin NPROC) : List (Fin NPROC) → Bool → Sys → Sys × Except Bool Int32
  | [], havekids, s => (s, .error havekids)
  | j :: ps, havekids, s =>
    if (s.proc j).parent ≠ some cur then waitScan cur ps havekids s
    else if (s.proc j).state ≠ .zombie then waitScan cur ps true s
    else
      let p := finalize s.ticks (s.proc j)
      let s := s.setProc j p
      match storePerf s.perfData p with
      | none => waitScan cur ps true s
      | some pd =>
        ({ s with perfData := pd }.setProc j
          { p with pid := 0, parent := none, killed := false, state := .unused }, .ok p.pid)

/-! ## The scheduler -/

/-- The scheduler's code after `swtch` returns to it on CPU `c` from slot `i`, dispatched at
`runStart`, up to `c->proc = 0`. The default build charges the run time and stamps a finished
process's completion; the lottery build charges at least one tick, to `total_run_time` and to
`runticks` both, and stores a finished process in `perf_data`. -/
def schedReturn (b : Sched) (c : Fin NCPU) (i : Fin NPROC) (runStart : UInt32) (s : Sys) : Sys :=
  let done := (s.proc i).state = .zombie ∨ (s.proc i).state = .unused
  match b with
  | .default =>
    let p := { s.proc i with
      totalRunTime := addUint (s.proc i).totalRunTime (s.ticks - runStart)
      completionTime := if done then s.ticks.toInt32 else (s.proc i).completionTime }
    { s.setProc i p with
      lastCompletionTime := if done then p.completionTime.toUInt32 else s.lastCompletionTime
      cpus := Function.update s.cpus c (.sched (i.val + 1)) }
  | .lottery =>
    let runTime := if s.ticks - runStart = 0 then 1 else s.ticks - runStart
    let p := { s.proc i with
      totalRunTime := addUint (s.proc i).totalRunTime runTime
      runticks := addUint (s.proc i).runticks runTime
      completionTime := if done then s.ticks.toInt32 else (s.proc i).completionTime }
    { s.setProc i p with
      lastCompletionTime := if done then p.completionTime.toUInt32 else s.lastCompletionTime
      perfData := if done then (storePerf s.perfData p).getD s.perfData else s.perfData
      cpus := Function.update s.cpus c (.sched 0) }

/-- The default scheduler's scan from slot `k`: the first RUNNABLE slot at or after `k`. -/
def pickDefault (k : Nat) (s : Sys) : Option (Fin NPROC) :=
  Scan.firstIdx (fun i => decide (k ≤ i.val) && (s.proc i).state == .runnable)

/-- The default scheduler dispatching slot `i` on CPU `c`: RUNNING, a start time if it has none,
and the ready interval charged (the enqueue time is left as it was). -/
def dispatchDefault (c : Fin NCPU) (i : Fin NPROC) (s : Sys) : Sys :=
  { s.setProc i { s.proc i with
      state := .running
      startTime :=
        if (s.proc i).startTime = 0 then s.lastCompletionTime.toInt32 else (s.proc i).startTime
      totalReadyTime :=
        if 0 < (s.proc i).enqueueTime then readyAfter s.ticks (s.proc i)
        else (s.proc i).totalReadyTime } with
    cpus := Function.update s.cpus c (.run i s.ticks) }

/-- The lottery scheduler's first loop at slot `i`, its first test: a ZOMBIE or UNUSED slot whose
completion time is not past its creation gets one, a run time of at least 1, and an entry in
`perf_data`. -/
def lotteryComplete (s : Sys) (i : Fin NPROC) : Sys :=
  if ((s.proc i).state = .zombie ∨ (s.proc i).state = .unused) ∧
      (s.proc i).completionTime ≤ (s.proc i).creationTime then
    let p := { s.proc i with
      completionTime := s.ticks.toInt32
      totalRunTime := if (s.proc i).totalRunTime = 0 then 1 else (s.proc i).totalRunTime }
    { s.setProc i p with perfData := (storePerf s.perfData p).getD s.perfData }
  else s

/-- The lottery scheduler's first loop at slot `i`, its second test: a RUNNABLE slot's ready interval
is charged and restarted at `ticks`. -/
def lotteryReady (s : Sys) (i : Fin NPROC) : Sys :=
  if (s.proc i).state = .runnable ∧ 0 < (s.proc i).enqueueTime then
    s.setProc i { s.proc i with
      totalReadyTime := readyAfter s.ticks (s.proc i)
      enqueueTime := s.ticks.toInt32 }
  else s

/-- The lottery scheduler's first loop, at slot `i`. -/
def lotteryMetrics (s : Sys) (i : Fin NPROC) : Sys := lotteryReady (lotteryComplete s i) i

/-- The lottery scheduler's second loop: the `int` sum of the RUNNABLE slots' tickets. -/
def totalTickets (s : Sys) : Int32 :=
  (List.finRange NPROC).foldl
    (fun t i => if (s.proc i).state = .runnable then t + (s.proc i).tickets else t) 0

/-- `get_random(min, max)` of `random.c` from generator state `seed`: the value and the new seed. -/
def getRandom (min max : Int32) (seed : UInt32) : Int32 × UInt32 :=
  let seed := 1664525 * seed + 1013904223
  let rand := (seed >>> 16) &&& 0x7FFF
  let range := max - min
  ((rand % range.toUInt32 + min.toUInt32).toInt32, seed)

/-- The lottery's selection loop over the slots `ps`, `count` tickets passed so far: the first
RUNNABLE slot that takes the count past `winning`, or `none` when the loop runs off the table. -/
def pickFrom (s : Sys) (winning : Int32) : List (Fin NPROC) → Int32 → Option (Fin NPROC)
  | [], _ => none
  | i :: ps, count =>
    if (s.proc i).state = .runnable then
      if count + (s.proc i).tickets > winning then some i
      else pickFrom s winning ps (count + (s.proc i).tickets)
    else pickFrom s winning ps count

/-- The lottery scheduler dispatching slot `i` on CPU `c`: RUNNING, its ready interval charged and
closed. -/
def dispatchLottery (c : Fin NCPU) (i : Fin NPROC) (s : Sys) : Sys :=
  { s.setProc i { s.proc i with
      state := .running
      totalReadyTime :=
        if 0 < (s.proc i).enqueueTime then readyAfter s.ticks (s.proc i)
        else (s.proc i).totalReadyTime
      enqueueTime := if 0 < (s.proc i).enqueueTime then 0 else (s.proc i).enqueueTime } with
    cpus := Function.update s.cpus c (.run i s.ticks) }

/-- One round of the lottery scheduler on CPU `c` up to `swtch`: the metrics loop, the ticket sum,
and, when the sum is positive, a draw of `get_random(0, total_tickets)` and the dispatch of the
slot the selection loop stops at. When the loop runs off the table the code reads
`ptable.proc[NPROC].state` out of bounds; the model takes that slot as not RUNNABLE. -/
def lotteryRound (c : Fin NCPU) (s : Sys) : Sys × Option (Fin NPROC) :=
  let s := (List.finRange NPROC).foldl lotteryMetrics s
  let total := totalTickets s
  if 0 < total then
    let (winning, seed) := getRandom 0 total s.seed
    let s := { s with seed := seed }
    match pickFrom s winning (List.finRange NPROC) 0 with
    | none => (s, none)
    | some i => (dispatchLottery c i s, some i)
  else (s, none)

/-! ## The timer interrupt -/

/-- The `T_IRQ0 + IRQ_TIMER` case of `trap()` on CPU `c`: CPU 0 advances `ticks` and wakes
`&ticks`; the process on `c`, if RUNNING, gets one more `runticks`. -/
def timerTick (c : Fin NCPU) (s : Sys) : Sys :=
  let s := if c.val = 0 then wakeup1 (some .ticks) { s with ticks := s.ticks + 1 } else s
  match s.cpus c with
  | .run i _ =>
    if (s.proc i).state = .running then
      s.setProc i { s.proc i with runticks := (s.proc i).runticks + 1 }
    else s
  | .sched _ => s

end Xv6
