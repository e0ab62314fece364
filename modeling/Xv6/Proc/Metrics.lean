import Xv6.Proc.Step

/-!
# Tick accounting: `total_ready_time` and `runticks` against the timer interrupts of a run

`countTicks b P s es` counts the timer interrupts of a run, those taken on a CPU `c` with `P s c` in
the state before. `readyTicks b i` counts the ticks (`ticks++` happens on CPU 0 only) taken while
slot `i` is RUNNABLE, `runTicks b i` the interrupts taken on a CPU running slot `i` while it is
RUNNING: what `total_ready_time` and `runticks` are meant to count.

* `sleep_after_dispatchDefault` : the default scheduler charges the ready interval at dispatch and
  leaves `enqueue_time` set, so a `sleep` right after charges the same interval again;
* `readyTime_counts_dispatch_twice` : a run of the default build in which a child, RUNNABLE for one
  tick, goes to sleep with `total_ready_time = 2`;
* `runticks_counts_tick_twice` : a run of the lottery build in which `initproc`, interrupted once
  while RUNNING, has `runticks = 2`.
-/

namespace Xv6

/-- The timer interrupts of the run `es` of build `b` from `s`, counting those taken on a CPU `c`
with `P s c` in the state before the interrupt. -/
def countTicks (b : Sched) (P : Sys → Fin NCPU → Bool) : Sys → List Event → Nat
  | _, [] => 0
  | s, e :: es =>
    match step b s e with
    | none => 0
    | some s' =>
      (match e with
        | .tick c => if P s c then 1 else 0
        | _ => 0) + countTicks b P s' es

/-- The ticks of a run taken while slot `i` is RUNNABLE. -/
def readyTicks (b : Sched) (i : Fin NPROC) : Sys → List Event → Nat :=
  countTicks b (fun s c => c.val == 0 && (s.proc i).state == .runnable)

/-- The timer interrupts of a run taken on a CPU whose process is slot `i`, RUNNING. -/
def runTicks (b : Sched) (i : Fin NPROC) : Sys → List Event → Nat :=
  countTicks b (fun s c =>
    match s.cpus c with
    | .run j _ => j == i && (s.proc i).state == .running
    | .sched _ => false)

/-! ## `total_ready_time` in the default build -/

theorem dispatchDefault_enqueueTime (c : Fin NCPU) (i : Fin NPROC) (s : Sys) :
    ((dispatchDefault c i s).proc i).enqueueTime = (s.proc i).enqueueTime := by
  simp [dispatchDefault]

theorem dispatchDefault_totalReadyTime (c : Fin NCPU) (i : Fin NPROC) (s : Sys)
    (h : 0 < (s.proc i).enqueueTime) :
    ((dispatchDefault c i s).proc i).totalReadyTime =
      addUint (s.proc i).totalReadyTime (s.ticks - (s.proc i).enqueueTime.toUInt32) := by
  simp [dispatchDefault, h, readyAfter]

theorem sleep_totalReadyTime (i : Fin NPROC) (ch : Chan) (s : Sys) (h : 0 < (s.proc i).enqueueTime) :
    ((sleep i ch s).proc i).totalReadyTime =
      addUint (s.proc i).totalReadyTime (s.ticks - (s.proc i).enqueueTime.toUInt32) := by
  simp [sleep, h, readyAfter]

/-- The default scheduler's dispatch charges `[enqueue_time, ticks)` and keeps `enqueue_time`, so a
`sleep` at the same tick charges it a second time. -/
theorem sleep_after_dispatchDefault (c : Fin NCPU) (i : Fin NPROC) (ch : Chan) (s : Sys)
    (h : 0 < (s.proc i).enqueueTime) :
    ((sleep i ch (dispatchDefault c i s)).proc i).totalReadyTime =
      addUint (addUint (s.proc i).totalReadyTime (s.ticks - (s.proc i).enqueueTime.toUInt32))
        (s.ticks - (s.proc i).enqueueTime.toUInt32) := by
  have he := dispatchDefault_enqueueTime c i s
  have ht : (dispatchDefault c i s).ticks = s.ticks := rfl
  rw [sleep_totalReadyTime i ch _ (he ▸ h), dispatchDefault_totalReadyTime c i s h, he, ht]

/-- `initproc` is preempted at tick 1, forks at tick 1, and is preempted again at tick 2; the
child is dispatched and calls `sleep` at once. -/
def readyRun : List Event :=
  [.sched 0, .tick 0, .yield 0, .sched 0, .sched 0, .fork 0, .forkCopy 0, .forkRun 0, .tick 0,
    .yield 0, .sched 0, .sleep 0 .ticks]

theorem readyTime_counts_dispatch_twice :
    ∃ s, Run.run (step .default) (init 1) readyRun = some s ∧ (s.proc 1).state = .sleeping ∧
      (s.proc 1).totalReadyTime = 2 ∧ readyTicks .default 1 (init 1) readyRun = 1 := by
  obtain ⟨s, hs, hp⟩ := @Run.exists_of_map_eq_some_true _ _ (step .default) (init 1) readyRun
    (fun s => (s.proc 1).state == .sleeping && (s.proc 1).totalReadyTime == 2) (by decide)
  simp only [Bool.and_eq_true, beq_iff_eq] at hp
  exact ⟨s, hs, hp.1, hp.2, by decide⟩

/-! ## `runticks` in the lottery build -/

/-- `initproc` is dispatched by the lottery, interrupted once, and yields. -/
def runticksRun : List Event := [.sched 0, .tick 0, .yield 0]

set_option maxRecDepth 4000 in
theorem runticks_counts_tick_twice :
    ∃ s, Run.run (step .lottery) (init 1) runticksRun = some s ∧ (s.proc 0).pid = 1 ∧
      getrunticks 1 s = 2 ∧ runTicks .lottery 0 (init 1) runticksRun = 1 := by
  obtain ⟨s, hs, hp⟩ := @Run.exists_of_map_eq_some_true _ _ (step .lottery) (init 1) runticksRun
    (fun s => (s.proc 0).pid == 1 && getrunticks 1 s == 2) (by decide)
  simp only [Bool.and_eq_true, beq_iff_eq] at hp
  exact ⟨s, hs, hp.1, hp.2, by decide⟩

end Xv6
