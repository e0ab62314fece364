import Xv6.Proc.Lifecycle

/-!
# Every reachable process table is well formed

`SysInv` joins the table and CPU invariants of `Proc/Lifecycle`. Each kind of step keeps it and
`nextpid`, except `fork`, which may advance `nextpid` by one; a run is then carried with the number
of calls to `allocproc` so far (`userinit`'s and one per `fork`).

* `SysInv.switchOut`, `SysInv.waitStep`, `SysInv.resumeProc`, `SysInv.schedStep`, `SysInv.fork`,
  `SysInv.exitFinish` : the steps, one lemma per kind;
* `inv_step` : every step of either build keeps `SysInv`, while `nextpid++` does not wrap;
* `sysInv_of_run` : every state a run with fewer than `2^31 - 1` calls to `allocproc` reaches;
* `table_ok_of_run` : in such a state the pids of the slots in use are distinct and positive,
  `initproc` is neither ZOMBIE nor UNUSED, and every other slot in use has its parent in use.
-/

namespace Xv6

/-- The table and CPU invariants. -/
structure SysInv (s : Sys) : Prop where
  table : TableInv s
  cpu : CpuInv s

section Steps

variable {b : Sched} {s t : Sys}

theorem SysInv.quiet (h : SysInv s) (hq : Quiet s t) : SysInv t ∧ t.nextpid = s.nextpid :=
  ⟨⟨h.table.keeps hq.keeps, h.cpu.quiet hq⟩, hq.nextpid⟩

theorem SysInv.setPhase (h : SysInv s) (i : Fin NPROC) (ph : Phase) (hex : ph ≠ .exiting)
    (ht : ph.target = none) : SysInv (s.setPhase i ph) ∧ (s.setPhase i ph).nextpid = s.nextpid :=
  ⟨⟨h.table.setPhase_plain i ph hex ht, h.cpu.of_running (fun _ hj => hj) rfl rfl⟩, rfl⟩

theorem SysInv.running_state (h : SysInv s) {c : Fin NCPU} {i : Fin NPROC} {rs : UInt32}
    (hrun : s.running c = some (i, rs)) : (s.proc i).state = .running := by
  obtain ⟨hlt, hci⟩ := Sys.running_eq_some.mp hrun
  exact h.cpu.running c i rs hlt hci

theorem SysInv.running_live (h : SysInv s) {c : Fin NCPU} {i : Fin NPROC} {rs : UInt32}
    (hrun : s.running c = some (i, rs)) : (s.proc i).state.Live := by
  rw [h.running_state hrun]
  exact Procstate.live_running

/-- The process on CPU `c` leaves it for a state `t` that keeps the table invariant and changes no
other RUNNING slot and no CPU; the scheduler's return parks `c`. -/
theorem SysInv.leave (h : SysInv s) {c : Fin NCPU} {i : Fin NPROC} {rs : UInt32}
    (hrun : s.running c = some (i, rs)) (ht : TableInv t)
    (hother : ∀ j, j ≠ i → (s.proc j).state = .running → (t.proc j).state = .running)
    (hcpus : t.cpus = s.cpus) (hn : t.ncpu = s.ncpu) (hnext : t.nextpid = s.nextpid) :
    SysInv (schedOut b c t) ∧ (schedOut b c t).nextpid = s.nextpid := by
  have hci := (Sys.running_eq_some.mp hrun).2
  rw [schedOut_of_run (hcpus ▸ hci)]
  exact ⟨⟨ht.keeps (schedReturn_parks b c i rs t).keeps, h.cpu.leave hrun hother hcpus hn⟩,
    (schedReturn_parks b c i rs t).nextpid.trans hnext⟩

/-- The process on CPU `c` makes its own slot a live record, notes where it resumes, and gives up
the CPU: `yield` and `sleep`. -/
theorem SysInv.switchOut (h : SysInv s) {c : Fin NCPU} {i : Fin NPROC} {rs : UInt32}
    (hrun : s.running c = some (i, rs)) (p : Proc) (hp : p.state.Live)
    (hpid : p.pid = (s.proc i).pid) (hpar : p.parent = (s.proc i).parent) (r : Resume) :
    SysInv (schedOut b c ((s.setProc i p).setResume i r)) ∧
      (schedOut b c ((s.setProc i p).setResume i r)).nextpid = s.nextpid := by
  have hlive := h.running_live hrun
  refine h.leave hrun (h.table.keeps ((setProc_keeps i p hlive hp hpid hpar).trans
    (setResume_quiet _ i r).keeps)) (fun j hj hr => ?_) rfl rfl rfl
  simpa [Function.update_of_ne hj] using hr

/-- A pass of `wait`'s loop: return a reaped child, return `-1`, or sleep on the caller's own slot. -/
theorem SysInv.waitStep (h : SysInv s) {c : Fin NCPU} {i : Fin NPROC} {rs : UInt32}
    (hrun : s.running c = some (i, rs)) :
    SysInv (waitStep b c i s) ∧ (waitStep b c i s).nextpid = s.nextpid := by
  have hr := waitScan_reaps i (List.finRange NPROC) false s
  unfold Xv6.waitStep
  generalize waitScan i (List.finRange NPROC) false s = w at hr ⊢
  obtain ⟨s', res⟩ := w
  -- the scan frees ZOMBIE slots only, none of them RUNNING
  have h' : SysInv s' := ⟨h.table.reaps hr, h.cpu.of_running
    (fun j hj => (hr.of_ne_zombie (by rw [hj]; decide)).1.trans hj) hr.cpus hr.ncpu⟩
  have hrun' : s'.running c = some (i, rs) := by
    rw [Sys.running_eq_some, hr.ncpu, hr.cpus]; exact Sys.running_eq_some.mp hrun
  have hn' : s'.nextpid = s.nextpid := hr.nextpid
  rcases res with hk | pid
  · dsimp only
    split
    · obtain ⟨h1, h2⟩ := h'.setPhase i .user (by decide) rfl
      exact ⟨h1, h2.trans hn'⟩
    · -- `sleep(curproc, &ptable.lock)`: SLEEPING in phase `waiting`, back to the scheduler
      have hlive := h'.running_live hrun'
      have ht : TableInv (((sleep i (.proc i) s').setPhase i .waiting).setResume i .slept) :=
        ((h'.table.keeps (setProc_keeps i _ hlive (by exact Procstate.live_sleeping) (by rfl)
          (by rfl))).setPhase_plain
          i .waiting (by decide) rfl).keeps (setResume_quiet _ i .slept).keeps
      obtain ⟨h1, h2⟩ := h'.leave hrun' ht (fun j hj hr => by simpa [sleep, hj] using hr) rfl rfl rfl
      exact ⟨h1, h2.trans hn'⟩
  · dsimp only
    obtain ⟨h1, h2⟩ := h'.setPhase i .user (by decide) rfl
    exact ⟨h1, h2.trans hn'⟩

/-- What a process dispatched on CPU `c` runs before it releases `ptable.lock`. -/
theorem SysInv.resumeProc (h : SysInv s) {c : Fin NCPU} {i : Fin NPROC} {rs : UInt32}
    (hrun : s.running c = some (i, rs)) :
    SysInv (resumeProc b c i s) ∧ (resumeProc b c i s).nextpid = s.nextpid := by
  unfold Xv6.resumeProc
  split
  · exact ⟨h, rfl⟩
  · exact ⟨h, rfl⟩
  · dsimp only
    obtain ⟨h', hn'⟩ := h.quiet (setProc_quiet s i { s.proc i with chan := none } rfl rfl rfl)
    split
    · obtain ⟨h'', hn''⟩ := h'.waitStep (b := b) (s := s.setProc i { s.proc i with chan := none })
        hrun
      exact ⟨h'', hn''.trans hn'⟩
    · exact ⟨h', hn'⟩

/-- Dispatching a RUNNABLE slot on a started CPU in its scheduler. -/
theorem SysInv.dispatch (h : SysInv s) {c : Fin NCPU} {i : Fin NPROC} {k : Nat}
    (hlt : c.val < s.ncpu) (hsched : s.cpus c = .sched k) (hi : (s.proc i).state = .runnable)
    (hd : Dispatches c i s t) :
    SysInv t ∧ t.nextpid = s.nextpid ∧ ∃ rs, t.running c = some (i, rs) := by
  obtain ⟨rs, hcpus⟩ := hd.cpus
  refine ⟨⟨h.table.keeps (hd.keeps hi), h.cpu.dispatch hsched hi hd⟩, hd.nextpid, rs, ?_⟩
  rw [Sys.running_eq_some, hd.ncpu, hcpus]
  simp [hlt]

theorem SysInv.schedStep (h : SysInv s) {c : Fin NCPU} {k : Nat} (hlt : c.val < s.ncpu)
    (hsched : s.cpus c = .sched k) :
    SysInv (schedStep b c k s) ∧ (schedStep b c k s).nextpid = s.nextpid := by
  cases b with
  | default =>
    unfold Xv6.schedStep
    rcases hp : pickDefault k s with _ | i
    · -- the pass ends and the scan starts again from slot 0
      have hpk : Parks c s { s with cpus := Function.update s.cpus c (.sched 0) } :=
        ⟨fun _ => rfl, fun _ => rfl, fun _ => rfl, rfl, rfl, rfl, rfl, ⟨0, rfl⟩⟩
      exact ⟨⟨h.table.keeps hpk.keeps, h.cpu.park rfl rfl
        fun c' j rs _ hlt' hcj => h.cpu.running c' j rs hlt' hcj⟩, rfl⟩
    · obtain ⟨hd, hn, rs, hrun⟩ :=
        h.dispatch hlt hsched (pickDefault_runnable hp) (dispatchDefault_dispatches c i s)
      obtain ⟨h', hn'⟩ := hd.resumeProc (b := .default) hrun
      exact ⟨h', hn'.trans hn⟩
  | lottery =>
    unfold Xv6.schedStep
    rcases hl : lotteryRound c s with ⟨t1, _ | i⟩
    · have hq := lotteryRound_none (c := c) (s := s) (by rw [hl])
      rw [hl] at hq
      exact h.quiet hq
    · obtain ⟨s1, hq, hi, ht1⟩ := lotteryRound_some (c := c) (s := s) (i := i) (by rw [hl])
      rw [hl] at ht1
      dsimp only at ht1 ⊢
      subst ht1
      obtain ⟨h1, hn1⟩ := h.quiet hq
      obtain ⟨hd, hn, rs, hrun⟩ := h1.dispatch (hq.ncpu ▸ hlt) (hq.cpus ▸ hsched) hi
        (dispatchLottery_dispatches c i s1)
      obtain ⟨h', hn'⟩ := hd.resumeProc (b := .lottery) hrun
      exact ⟨h', hn'.trans (hn.trans hn1)⟩

/-- Once `i` is back in phase `user`, no phase targets the slot its `fork` had. -/
theorem TableInv.target_released (hi : TableInv s) {i np : Fin NPROC}
    (hph : (s.phase i).target = some np) : ∀ k, ((s.setPhase i .user).phase k).target ≠ some np := by
  intro k hk
  by_cases hki : k = i
  · subst hki; simp [Phase.target] at hk
  · simp only [Sys.setPhase_phase, Function.update_of_ne hki] at hk
    exact hki (hi.target_inj k i np hk hph)

/-- A RUNNING slot is not the EMBRYO a `fork` works on, so a step on that EMBRYO keeps it. -/
theorem running_ne_of_embryo {j np : Fin NPROC} (hj : (s.proc j).state = .running)
    (he : (s.proc np).state = .embryo) : j ≠ np := by
  rintro rfl; rw [hj] at he; cases he

theorem SysInv.fork (h : SysInv s) {i np : Fin NPROC} (ha : allocproc s = some (np, t))
    (hroom : s.nextpid.toInt < 2 ^ 31 - 1) :
    SysInv (((t.setPhase i (.forking np)).setPhase np .user).setResume np .forkret) ∧
      (((t.setPhase i (.forking np)).setPhase np .user).setResume np .forkret).nextpid.toInt =
        s.nextpid.toInt + 1 := by
  have hal := allocproc_allocates ha
  -- no `fork` had taken `np`, which was UNUSED
  have hfree : ∀ k, (t.phase k).target ≠ some np := by
    intro k hk
    rw [hal.phase] at hk
    have := h.table.target_embryo k np hk
    rw [hal.unused] at this; cases this
  have ht1 : TableInv (t.setPhase i (.forking np)) := by
    refine (h.table.allocproc ha hroom).setPhase i _ (fun _ hex => by cases hex) fun np' hnp => ?_
    obtain rfl : np = np' := Option.some.inj hnp
    exact ⟨hal.state, fun _ => by rw [hal.parent]; exact h.table.unused_parent np hal.unused,
      fun k _ => hfree k⟩
  refine ⟨⟨(ht1.setPhase_plain np .user (by decide) rfl).keeps (setResume_quiet _ np _).keeps,
    h.cpu.of_running (fun j hj => ?_) hal.cpus hal.ncpu⟩, ?_⟩
  · -- `np` was UNUSED, so a RUNNING slot is another one and unchanged
    have hjn : j ≠ np := by rintro rfl; rw [hal.unused] at hj; cases hj
    simp only [Sys.setResume_proc, Sys.setPhase_proc]
    rw [hal.other j hjn]; exact hj
  · simp only [Sys.setResume_nextpid, Sys.setPhase_nextpid]
    rw [hal.nextpid]; exact toInt_add_one_of_lt hroom

theorem SysInv.forkFail (h : SysInv s) {i np : Fin NPROC} (hph : s.phase i = .forking np) :
    SysInv ((forkFail np s).setPhase i .user) ∧
      ((forkFail np s).setPhase i .user).nextpid = s.nextpid := by
  have htg := Phase.target_of_forking hph
  have he := h.table.target_embryo i np htg
  have ht := ((h.setPhase i .user (by decide) rfl).1.table).forkFail he
    (h.table.forking_orphan i np hph) (h.table.target_released htg)
  refine ⟨⟨ht, h.cpu.of_running (fun j hj => ?_) rfl rfl⟩, rfl⟩
  simpa [Xv6.forkFail, running_ne_of_embryo hj he] using hj

theorem SysInv.forkCopy (h : SysInv s) {c : Fin NCPU} {i np : Fin NPROC} {rs : UInt32}
    (hrun : s.running c = some (i, rs)) (hph : s.phase i = .forking np) :
    SysInv ((forkCopy i np s).setPhase i (.forked np)) ∧
      ((forkCopy i np s).setPhase i (.forked np)).nextpid = s.nextpid := by
  have htg := Phase.target_of_forking hph
  have he := h.table.target_embryo i np htg
  have hlive := h.running_live hrun
  -- `i` keeps its target, now past `allocproc`
  have ht1 : TableInv (s.setPhase i (.forked np)) := by
    refine h.table.setPhase i _ (fun _ hex => by cases hex) fun np' hnp => ?_
    obtain rfl : np = np' := Option.some.inj hnp
    refine ⟨he, (fun hf => by cases hf), fun k hk hk' => ?_⟩
    exact hk (h.table.target_inj k i np hk' htg)
  have hnf : ∀ k, (s.setPhase i (.forked np)).phase k ≠ .forking np := by
    intro k hk
    by_cases hki : k = i
    · subst hki; simp at hk
    · simp only [Sys.setPhase_phase, Function.update_of_ne hki] at hk
      exact hki (h.table.target_inj k i np (Phase.target_of_forking hk) htg)
  refine ⟨⟨ht1.forkCopy hlive he hnf, h.cpu.of_running (fun j hj => ?_) rfl rfl⟩, rfl⟩
  simpa [Xv6.forkCopy, running_ne_of_embryo hj he] using hj

theorem SysInv.forkRun (h : SysInv s) {i np : Fin NPROC} (hph : s.phase i = .forked np) :
    SysInv ((forkRun np s).setPhase i .user) ∧
      ((forkRun np s).setPhase i .user).nextpid = s.nextpid := by
  have htg : (s.phase i).target = some np := by rw [hph]; rfl
  have he := h.table.target_embryo i np htg
  have ht := ((h.setPhase i .user (by decide) rfl).1.table).forkRun he
    (h.table.target_released htg)
  refine ⟨⟨ht, h.cpu.of_running (fun j hj => ?_) rfl rfl⟩, rfl⟩
  simpa [Xv6.forkRun, running_ne_of_embryo hj he] using hj

/-- `exit`'s first section: the metrics are final and the process starts exiting. -/
theorem SysInv.exitMetrics (h : SysInv s) {i : Fin NPROC} (hi : i ≠ s.initproc) :
    SysInv ((exitMetrics i s).setPhase i .exiting) ∧
      ((exitMetrics i s).setPhase i .exiting).nextpid = s.nextpid := by
  have hq := exitMetrics_quiet i s
  obtain ⟨h', hn⟩ := h.quiet hq
  refine ⟨⟨h'.table.setPhase i .exiting (fun he => absurd (he.trans hq.initproc) hi)
    (fun np hnp => by cases hnp), h'.cpu.of_running (fun _ hj => hj) rfl rfl⟩, hn⟩

/-- `exit`'s second section and the scheduler's return. -/
theorem SysInv.exitFinish (h : SysInv s) {c : Fin NCPU} {i : Fin NPROC} {rs : UInt32}
    (hrun : s.running c = some (i, rs)) (hph : s.phase i = .exiting) :
    SysInv (schedOut b c (exitFinish i s)) ∧ (schedOut b c (exitFinish i s)).nextpid = s.nextpid := by
  have hcur : s.initproc ≠ i := fun he => h.table.init_phase (he ▸ hph)
  -- outside slot `i`, `exit` only wakes sleepers and hands over children
  have hw := (wakeup1_quiet ((s.proc i).parent.map Chan.proc) s).toWakes.trans
    (reparent_wakes i (wakeup1 ((s.proc i).parent.map Chan.proc) s))
  have hother : ∀ j, j ≠ i → (s.proc j).state = .running →
      ((Xv6.exitFinish i s).proc j).state = .running := by
    intro j hj hr
    have hj' : (Xv6.exitFinish i s).proc j =
        (reparent i (wakeup1 ((s.proc i).parent.map Chan.proc) s)).proc j := by
      simp [Xv6.exitFinish, hj]
    rw [hj']; exact hw.running hr
  have hcpus : (Xv6.exitFinish i s).cpus = s.cpus := by
    simp only [Xv6.exitFinish, Sys.setProc_cpus]; exact hw.cpus
  have hn : (Xv6.exitFinish i s).ncpu = s.ncpu := by
    simp only [Xv6.exitFinish, Sys.setProc_ncpu]; exact hw.ncpu
  have hnext : (Xv6.exitFinish i s).nextpid = s.nextpid := by
    simp only [Xv6.exitFinish, Sys.setProc_nextpid]; exact hw.nextpid
  exact h.leave hrun (h.table.exitFinish (h.running_state hrun) hcur) hother hcpus hn hnext

end Steps

/-! ## Steps and runs -/

/-- The calls to `allocproc` an event makes: one for each `fork`. -/
def Event.allocs : Event → Nat
  | .fork _ => 1
  | _ => 0

/-- Every step keeps both invariants and advances `nextpid` by at most its calls to `allocproc`,
while `nextpid++` does not wrap. -/
theorem inv_step {b : Sched} {s t : Sys} {e : Event} (h : SysInv s) (hs : step b s e = some t)
    (hroom : s.nextpid.toInt + e.allocs < 2 ^ 31) :
    SysInv t ∧ t.nextpid.toInt ≤ s.nextpid.toInt + e.allocs := by
  -- the steps other than `fork` keep `nextpid`
  have same : ∀ {u : Sys}, SysInv u ∧ u.nextpid = s.nextpid → u = t →
      SysInv t ∧ t.nextpid.toInt ≤ s.nextpid.toInt + e.allocs := by
    rintro u ⟨hu, hn⟩ rfl
    exact ⟨hu, by rw [hn]; omega⟩
  cases e with
  | sched c =>
    simp only [step] at hs
    split_ifs at hs with hlt
    split at hs
    · rename_i k hk
      exact same (h.schedStep hlt hk) (Option.some.inj hs)
    · cases hs
  | tick c =>
    simp only [step] at hs
    split_ifs at hs
    exact same (h.quiet (timerTick_quiet c s)) (Option.some.inj hs)
  | yield c =>
    obtain ⟨⟨i, rs⟩, hrun, hs⟩ := Option.map_eq_some_iff.mp hs
    exact same (h.switchOut hrun _ (by exact Procstate.live_runnable) (by rfl) (by rfl) .yielded) hs
  | sleep c ch =>
    obtain ⟨⟨i, rs⟩, hrun, hs⟩ := Option.bind_eq_some_iff.mp hs
    dsimp only at hs
    split at hs
    · cases hs
    · split_ifs at hs
      exact same (h.switchOut hrun _ (by exact Procstate.live_sleeping) (by rfl) (by rfl) .slept)
        (Option.some.inj hs)
  | wakeup a =>
    exact same (h.quiet (wakeup1_quiet _ s)) (Option.some.inj hs)
  | fork c =>
    obtain ⟨⟨i, rs⟩, hrun, hs⟩ := Option.bind_eq_some_iff.mp hs
    dsimp only at hs
    split_ifs at hs with hph
    split at hs
    · -- no UNUSED slot: `fork` returns -1
      exact same ⟨h, rfl⟩ (Option.some.inj hs)
    · rename_i np t' ha
      obtain rfl := Option.some.inj hs
      have hroom' : s.nextpid.toInt < 2 ^ 31 - 1 := by simp only [Event.allocs] at hroom; omega
      obtain ⟨h', hn⟩ := h.fork (i := i) ha hroom'
      exact ⟨h', by rw [hn]; simp [Event.allocs]⟩
  | forkFail c =>
    obtain ⟨⟨i, rs⟩, hrun, hs⟩ := Option.bind_eq_some_iff.mp hs
    dsimp only at hs
    split at hs
    · rename_i np hph
      exact same (h.forkFail hph) (Option.some.inj hs)
    · cases hs
  | forkCopy c =>
    obtain ⟨⟨i, rs⟩, hrun, hs⟩ := Option.bind_eq_some_iff.mp hs
    dsimp only at hs
    split at hs
    · rename_i np hph
      exact same (h.forkCopy hrun hph) (Option.some.inj hs)
    · cases hs
  | forkRun c =>
    obtain ⟨⟨i, rs⟩, hrun, hs⟩ := Option.bind_eq_some_iff.mp hs
    dsimp only at hs
    split at hs
    · rename_i np hph
      exact same (h.forkRun hph) (Option.some.inj hs)
    · cases hs
  | exit c =>
    obtain ⟨⟨i, rs⟩, hrun, hs⟩ := Option.bind_eq_some_iff.mp hs
    dsimp only at hs
    split at hs
    · split_ifs at hs with hinit
      exact same (h.exitMetrics hinit) (Option.some.inj hs)
    · rename_i hph
      exact same (h.exitFinish hrun hph) (Option.some.inj hs)
    · cases hs
  | wait c =>
    obtain ⟨⟨i, rs⟩, hrun, hs⟩ := Option.bind_eq_some_iff.mp hs
    dsimp only at hs
    split_ifs at hs
    exact same (h.waitStep hrun) (Option.some.inj hs)
  | kill c pid =>
    obtain ⟨⟨i, rs⟩, hrun, hs⟩ := Option.bind_eq_some_iff.mp hs
    dsimp only at hs
    split_ifs at hs
    exact same (h.quiet (kill_quiet pid s)) (Option.some.inj hs)
  | setTickets c tk =>
    obtain ⟨⟨i, rs⟩, hrun, hs⟩ := Option.bind_eq_some_iff.mp hs
    dsimp only at hs
    split_ifs at hs
    exact same (h.quiet (sysSetTickets_quiet i tk s)) (Option.some.inj hs)

/-- `userinit` gives `initproc` slot 0, pid 1 and `DEFAULT_TICKETS`, and leaves `nextpid = 2`. -/
theorem init_eq (ncpu : Nat) :
    init ncpu = { boot ncpu with
      proc := fun k => if k = 0 then { Proc.zero with
        state := .runnable, pid := 1, tickets := DEFAULT_TICKETS } else Proc.zero
      nextpid := 2, initproc := 0 } := by
  have hfirst : Scan.firstIdx (fun i => ((boot ncpu).proc i).state == .unused) = some 0 := by
    rw [Scan.firstIdx_eq_some_iff]
    exact ⟨rfl, fun j hj => absurd hj (Fin.not_lt_zero j)⟩
  unfold init userinit allocproc
  rw [hfirst]
  simp only [Option.map_some]
  congr 1
  funext k
  by_cases hk : k = 0
  · subst hk; simp [boot, Proc.zero]
  · simp [hk, boot]

theorem sysInv_init (ncpu : Nat) : SysInv (init ncpu) := by
  rw [init_eq]
  -- slot 0 holds `initproc`; every other slot is the zeroed UNUSED one
  refine ⟨⟨?_, fun k hk => ?_, fun k hk => ?_, fun k k' hk hk' _ => ?_, by simp, by simp [boot],
    fun k _ => ?_, fun k j hkj => ?_, fun k np hk => ?_, fun k np hk => ?_,
    fun k _ np hk => ?_⟩, ⟨fun c i rs _ hc => ?_, fun c _ i rs _ _ _ hc => ?_⟩⟩
  · show 0 < (2 : Int32).toInt
    decide
  · by_cases h0 : k = 0
    · subst h0
      show 0 < (1 : Int32).toInt
      decide
    · simp [h0, Proc.zero] at hk
  · by_cases h0 : k = 0
    · subst h0
      show (1 : Int32).toInt < (2 : Int32).toInt
      decide
    · simp [h0, Proc.zero] at hk
  · by_cases h0 : k = 0 <;> by_cases h0' : k' = 0
    · rw [h0, h0']
    · simp [h0', Proc.zero] at hk'
    · simp [h0, Proc.zero] at hk
    · simp [h0, Proc.zero] at hk
  · by_cases h0 : k = 0
    · subst h0; simp [Proc.zero]
    · simp [h0, Proc.zero]
  · by_cases h0 : k = 0
    · subst h0; simp [Proc.zero] at hkj
    · simp [h0, Proc.zero] at hkj
  · simp [boot, Phase.target] at hk
  · simp [boot] at hk
  · simp [boot, Phase.target] at hk
  · simp [boot] at hc
  · simp [boot] at hc

/-- The invariant of a run that has called `allocproc` `k` times: while `k` is below `2^31 - 1`,
both invariants hold and `nextpid` is at most `k + 1`. -/
def RunInv (k : Nat) (s : Sys) : Prop := k < 2 ^ 31 - 1 → SysInv s ∧ s.nextpid.toInt ≤ k + 1

theorem runInv_init (ncpu : Nat) : RunInv 1 (init ncpu) := by
  intro _
  refine ⟨sysInv_init ncpu, ?_⟩
  rw [init_eq]
  show (2 : Int32).toInt ≤ 1 + 1
  decide

theorem runInv_step {b : Sched} {k : Nat} {s t : Sys} {e : Event} (h : RunInv k s)
    (hs : step b s e = some t) : RunInv (k + e.allocs) t := by
  intro hk
  obtain ⟨hi, hle⟩ := h (by omega)
  obtain ⟨ht, hle'⟩ := inv_step hi hs (by omega)
  exact ⟨ht, by push_cast; omega⟩

/-- The calls to `allocproc` of a run from `init`: `userinit`'s and one per `fork`. -/
def allocCalls (es : List Event) : Nat := 1 + (es.map Event.allocs).sum

/-- Both invariants hold at the end of every run with fewer than `2^31 - 1` calls to `allocproc`. -/
theorem sysInv_of_run {b : Sched} {ncpu : Nat} {es : List Event} {s : Sys}
    (hrun : Run.run (step b) (init ncpu) es = some s) (hcalls : allocCalls es < 2 ^ 31 - 1) :
    SysInv s :=
  (Run.run_inv_weight Event.allocs RunInv (fun _ _ _ _ h hs => runInv_step h hs) es 1 (init ncpu) s
    (runInv_init ncpu) hrun hcalls).1

/-! ## The table of every reachable state -/

/-- What `proc.c` relies on of the table: the pids of the slots in use are distinct and positive,
`initproc` is neither ZOMBIE nor UNUSED, and every slot in use other than `initproc` whose parent
is set has its parent in use. -/
structure TableOk (s : Sys) : Prop where
  pid_inj : ∀ i j, (s.proc i).state ≠ .unused → (s.proc j).state ≠ .unused →
    (s.proc i).pid = (s.proc j).pid → i = j
  pid_pos : ∀ i, (s.proc i).state ≠ .unused → 1 ≤ (s.proc i).pid.toInt
  init_not_zombie : (s.proc s.initproc).state ≠ .zombie
  init_not_unused : (s.proc s.initproc).state ≠ .unused
  parent_used : ∀ i j, i ≠ s.initproc → (s.proc i).state ≠ .unused → (s.proc i).parent = some j →
    (s.proc j).state ≠ .unused

theorem table_ok_of_run (b : Sched) (ncpu : Nat) (es : List Event) (s : Sys)
    (hrun : Run.run (step b) (init ncpu) es = some s) (hcalls : allocCalls es < 2 ^ 31 - 1) :
    TableOk s := by
  have h := (sysInv_of_run hrun hcalls).table
  refine ⟨h.pid_inj, fun i hi => ?_, h.init_live.ne_zombie, h.init_live.ne_unused,
    fun i j _ _ hp => (h.parent_live i j hp).ne_unused⟩
  have := h.pid_pos i hi
  omega

/-- `initproc` forks a child, kills it and waits; the child runs and exits; `initproc` is
dispatched again and reaps it, which frees its slot. -/
def reapRun : List Event :=
  [.sched 0, .fork 0, .forkCopy 0, .forkRun 0, .kill 0 2, .wait 0, .sched 0, .exit 0, .exit 0,
    .sched 0, .sched 0]

set_option maxRecDepth 8000 in
theorem table_ok_reap :
    ∃ s, Run.run (step .default) (init 1) reapRun = some s ∧ s.nextpid = 3 ∧
      (s.proc 1).state = .unused ∧ allocCalls reapRun < 2 ^ 31 - 1 ∧ TableOk s := by
  obtain ⟨s, hs, hp⟩ := @Run.exists_of_map_eq_some_true _ _ (step .default) (init 1) reapRun
    (fun s => s.nextpid == 3 && (s.proc 1).state == .unused) (by decide +kernel)
  simp only [Bool.and_eq_true, beq_iff_eq] at hp
  have hcalls : allocCalls reapRun < 2 ^ 31 - 1 := by decide
  exact ⟨s, hs, hp.1, hp.2, hcalls, table_ok_of_run .default 1 reapRun s hs hcalls⟩

/-! ## `killed` on UNUSED slots

`TableInv` says nothing of `killed`, and no invariant could: `kill(pid)` flags the first slot that
carries `pid`, UNUSED ones included (pid 0, or the stale pid a failed `fork` leaves), and
`allocproc` never clears the flag.
-/

/-- Whenever the first UNUSED slot is also the first slot carrying `pid`, `kill(pid)` followed by
`allocproc` hands out a process that is already killed. -/
theorem allocproc_after_kill {s : Sys} {pid : Int32} {j : Fin NPROC}
    (hpid : Scan.firstIdx (fun i => (s.proc i).pid == pid) = some j)
    (hfree : Scan.firstIdx (fun i => (s.proc i).state == .unused) = some j) :
    ∃ t, allocproc (kill pid s).1 = some (j, t) ∧ (t.proc j).killed = true := by
  have hu : (s.proc j).state = .unused := by simpa using Scan.firstIdx_spec hfree
  -- `kill` keeps every state, so the first UNUSED slot is still `j`
  have hk : (kill pid s).1 = s.setProc j { s.proc j with killed := true } := by
    simp [kill, hpid, hu]
  have hfree' : Scan.firstIdx (fun i => ((kill pid s).1.proc i).state == .unused) = some j := by
    have hst : ∀ i, ((kill pid s).1.proc i).state = (s.proc i).state := by
      intro i; rw [hk]; by_cases hij : i = j
      · subst hij; simp
      · simp [hij]
    simpa only [hst] using hfree
  unfold allocproc
  rw [hfree', Option.map_some]
  refine ⟨_, rfl, ?_⟩
  simp [hk]

/-- `initproc` calls `kill(0)`, which matches the UNUSED slot 1, and then `fork`, which takes it. -/
def killRun : List Event := [.sched 0, .kill 0 0, .fork 0]

theorem kill_flags_unused_slot :
    (∃ s, Run.run (step .default) (init 1) (killRun.take 2) = some s ∧
      (s.proc 1).state = .unused ∧ (s.proc 1).killed = true) ∧
    (∃ s, Run.run (step .default) (init 1) killRun = some s ∧
      (s.proc 1).state = .embryo ∧ (s.proc 1).pid = 2 ∧ (s.proc 1).killed = true) := by
  constructor
  · obtain ⟨s, hs, hp⟩ := @Run.exists_of_map_eq_some_true _ _ (step .default) (init 1)
      (killRun.take 2) (fun s => (s.proc 1).state == .unused && (s.proc 1).killed) (by decide)
    simp only [Bool.and_eq_true, beq_iff_eq] at hp
    exact ⟨s, hs, hp⟩
  · obtain ⟨s, hs, hp⟩ := @Run.exists_of_map_eq_some_true _ _ (step .default) (init 1) killRun
      (fun s => (s.proc 1).state == .embryo && (s.proc 1).pid == 2 && (s.proc 1).killed)
      (by decide)
    simp only [Bool.and_eq_true, beq_iff_eq] at hp
    exact ⟨s, hs, hp.1.1, hp.1.2, hp.2⟩

end Xv6
