import Xv6.Proc.Step

/-!
# What each locked section does to the slots

Most steps leave every slot's pid and parent alone and change states only by waking a sleeper;
`Quiet s t` says so. The rest change one slot in a way their own lemma states.

* `Quiet`, with `Quiet.refl`, `Quiet.trans`;
* `wakeup1_quiet`, `kill_quiet`, `sysSetTickets_quiet`, `exitMetrics_quiet`, `timerTick_quiet`,
  `lotteryPass_quiet`, `setResume_quiet`, `setProc_quiet` : the quiet sections;
* `schedReturn_*` : the scheduler's return keeps the slots and parks CPU `c`;
* `reparent_*` : `exit`'s loop hands the children of `cur` to `initproc` and wakes nothing but
  sleepers;
* `waitScan_*` : a pass of `wait` frees at most ZOMBIE children of the caller.
-/

namespace Xv6

/-- SLEEPING, RUNNABLE or RUNNING: a process that exists and has not exited. -/
def Procstate.Live (st : Procstate) : Prop :=
  st = .sleeping ∨ st = .runnable ∨ st = .running

instance (st : Procstate) : Decidable st.Live := inferInstanceAs (Decidable (_ ∨ _))

@[simp] theorem Procstate.live_sleeping : Procstate.sleeping.Live := Or.inl rfl
@[simp] theorem Procstate.live_runnable : Procstate.runnable.Live := Or.inr (Or.inl rfl)
@[simp] theorem Procstate.live_running : Procstate.running.Live := Or.inr (Or.inr rfl)
@[simp] theorem Procstate.not_live_unused : ¬ Procstate.unused.Live := by decide
@[simp] theorem Procstate.not_live_embryo : ¬ Procstate.embryo.Live := by decide
@[simp] theorem Procstate.not_live_zombie : ¬ Procstate.zombie.Live := by decide

/-- The state `b` is `a`, or both are live: what the table invariant cannot tell apart. -/
def Procstate.Moves (a b : Procstate) : Prop := b = a ∨ (a.Live ∧ b.Live)

namespace Procstate

theorem Live.ne_unused {st : Procstate} (h : st.Live) : st ≠ .unused := by
  rcases h with h | h | h <;> rw [h] <;> decide

theorem Live.ne_embryo {st : Procstate} (h : st.Live) : st ≠ .embryo := by
  rcases h with h | h | h <;> rw [h] <;> decide

theorem Live.ne_zombie {st : Procstate} (h : st.Live) : st ≠ .zombie := by
  rcases h with h | h | h <;> rw [h] <;> decide

variable {a b c : Procstate}

theorem Moves.refl (a : Procstate) : a.Moves a := Or.inl rfl

theorem Moves.trans (h₁ : a.Moves b) (h₂ : b.Moves c) : a.Moves c := by
  rcases h₁ with rfl | ⟨ha, hb⟩ <;> rcases h₂ with rfl | ⟨hb', hc⟩
  · exact Or.inl rfl
  · exact Or.inr ⟨hb', hc⟩
  · exact Or.inr ⟨ha, hb⟩
  · exact Or.inr ⟨ha, hc⟩

theorem Moves.unused_iff (h : a.Moves b) : b = .unused ↔ a = .unused := by
  rcases h with rfl | ⟨ha, hb⟩
  · rfl
  · exact ⟨fun hu => absurd hu hb.ne_unused, fun hu => absurd hu ha.ne_unused⟩

theorem Moves.embryo_iff (h : a.Moves b) : b = .embryo ↔ a = .embryo := by
  rcases h with rfl | ⟨ha, hb⟩
  · rfl
  · exact ⟨fun he => absurd he hb.ne_embryo, fun he => absurd he ha.ne_embryo⟩

theorem Moves.live_iff (h : a.Moves b) : b.Live ↔ a.Live := by
  rcases h with rfl | ⟨ha, hb⟩
  · rfl
  · exact ⟨fun _ => ha, fun _ => hb⟩

end Procstate

/-- `t` is `s` after steps that keep every slot's pid, change a state only by waking a sleeper,
and keep `nextpid`, `initproc`, the phases and the CPUs. -/
structure Wakes (s t : Sys) : Prop where
  pid : ∀ j, (t.proc j).pid = (s.proc j).pid
  state : ∀ j, (t.proc j).state = (s.proc j).state ∨
    ((s.proc j).state = .sleeping ∧ (t.proc j).state = .runnable)
  nextpid : t.nextpid = s.nextpid
  initproc : t.initproc = s.initproc
  phase : t.phase = s.phase
  ncpu : t.ncpu = s.ncpu
  cpus : t.cpus = s.cpus

/-- A `Wakes` step that also keeps every slot's parent. -/
structure Quiet (s t : Sys) : Prop extends Wakes s t where
  parent : ∀ j, (t.proc j).parent = (s.proc j).parent

theorem Wakes.refl (s : Sys) : Wakes s s :=
  ⟨fun _ => rfl, fun _ => Or.inl rfl, rfl, rfl, rfl, rfl, rfl⟩

theorem Wakes.trans {s t u : Sys} (h₁ : Wakes s t) (h₂ : Wakes t u) : Wakes s u := by
  refine ⟨fun j => (h₂.pid j).trans (h₁.pid j), fun j => ?_, h₂.nextpid.trans h₁.nextpid,
    h₂.initproc.trans h₁.initproc, h₂.phase.trans h₁.phase, h₂.ncpu.trans h₁.ncpu,
    h₂.cpus.trans h₁.cpus⟩
  rcases h₁.state j with h | ⟨hs, ht⟩ <;> rcases h₂.state j with h' | ⟨hs', ht'⟩
  · exact Or.inl (h'.trans h)
  · exact Or.inr ⟨h ▸ hs', ht'⟩
  · exact Or.inr ⟨hs, h' ▸ ht⟩
  · rw [ht] at hs'; cases hs'

/-- A RUNNING slot stays RUNNING across wakeups. -/
theorem Wakes.running {s t : Sys} (h : Wakes s t) {j : Fin NPROC} (hj : (s.proc j).state = .running) :
    (t.proc j).state = .running := by
  rcases h.state j with h' | ⟨hs, _⟩
  · rw [h', hj]
  · rw [hj] at hs; cases hs

theorem Wakes.moves {s t : Sys} (h : Wakes s t) (j : Fin NPROC) :
    (s.proc j).state.Moves (t.proc j).state := by
  rcases h.state j with h' | ⟨hs, ht⟩
  · exact Or.inl h'
  · exact Or.inr ⟨hs ▸ Procstate.live_sleeping, ht ▸ Procstate.live_runnable⟩

theorem Quiet.refl (s : Sys) : Quiet s s := ⟨Wakes.refl s, fun _ => rfl⟩

theorem Quiet.trans {s t u : Sys} (h₁ : Quiet s t) (h₂ : Quiet t u) : Quiet s u :=
  ⟨h₁.toWakes.trans h₂.toWakes, fun j => (h₂.parent j).trans (h₁.parent j)⟩

/-- Overwriting a slot with a record that keeps its state and pid only wakes nothing. -/
theorem setProc_wakes (s : Sys) (i : Fin NPROC) (p : Proc) (hst : p.state = (s.proc i).state)
    (hpid : p.pid = (s.proc i).pid) : Wakes s (s.setProc i p) := by
  refine ⟨fun j => ?_, fun j => Or.inl ?_, rfl, rfl, rfl, rfl, rfl⟩ <;>
  · by_cases hj : j = i
    · subst hj; simpa
    · simp [hj]

/-- Overwriting a slot with a record that keeps its state, pid and parent is quiet. -/
theorem setProc_quiet (s : Sys) (i : Fin NPROC) (p : Proc) (hst : p.state = (s.proc i).state)
    (hpid : p.pid = (s.proc i).pid) (hpar : p.parent = (s.proc i).parent) :
    Quiet s (s.setProc i p) := by
  refine ⟨setProc_wakes s i p hst hpid, fun j => ?_⟩
  by_cases hj : j = i
  · subst hj; simpa
  · simp [hj]

theorem setResume_quiet (s : Sys) (i : Fin NPROC) (r : Resume) : Quiet s (s.setResume i r) :=
  ⟨⟨fun _ => rfl, fun _ => Or.inl rfl, rfl, rfl, rfl, rfl, rfl⟩, fun _ => rfl⟩

theorem wakeup1_quiet (ch : Option Chan) (s : Sys) : Quiet s (wakeup1 ch s) := by
  refine ⟨⟨fun _ => rfl, fun j => ?_, rfl, rfl, rfl, rfl, rfl⟩, fun _ => rfl⟩
  by_cases h : (s.proc j).sleepsOn ch
  · exact Or.inr ⟨h.1, by simp [wakeup1, h]⟩
  · exact Or.inl (by simp [wakeup1, h])

theorem kill_quiet (pid : Int32) (s : Sys) : Quiet s (kill pid s).1 := by
  unfold kill
  split
  · exact Quiet.refl s
  · rename_i i _
    refine ⟨⟨fun j => ?_, fun j => ?_, rfl, rfl, rfl, rfl, rfl⟩, fun j => ?_⟩
    · by_cases hj : j = i
      · subst hj; simp
      · simp [hj]
    · -- the flagged slot is woken if it sleeps
      by_cases hj : j = i
      · subst hj
        by_cases hs : (s.proc j).state = .sleeping
        · exact Or.inr ⟨hs, by simp [hs]⟩
        · exact Or.inl (by simp [hs])
      · exact Or.inl (by simp [hj])
    · by_cases hj : j = i
      · subst hj; simp
      · simp [hj]

theorem sysSetTickets_quiet (cur : Fin NPROC) (t : Int32) (s : Sys) :
    Quiet s (sysSetTickets cur t s).1 := by
  unfold sysSetTickets
  split
  · exact Quiet.refl s
  · exact setProc_quiet s cur _ rfl rfl rfl

theorem exitMetrics_quiet (cur : Fin NPROC) (s : Sys) : Quiet s (exitMetrics cur s) := by
  have h := setProc_quiet s cur (finalize s.ticks (s.proc cur)) rfl rfl rfl
  exact ⟨⟨h.pid, h.state, rfl, rfl, rfl, rfl, rfl⟩, h.parent⟩

theorem timerTick_quiet (c : Fin NCPU) (s : Sys) : Quiet s (timerTick c s) := by
  -- CPU 0 advances `ticks` and wakes `&ticks`; then the running process counts one more tick
  have hw : Quiet s (if c.val = 0 then wakeup1 (some .ticks) { s with ticks := s.ticks + 1 }
      else s) := by
    split
    · have h := wakeup1_quiet (some .ticks) { s with ticks := s.ticks + 1 }
      exact ⟨⟨h.pid, h.state, h.nextpid, h.initproc, h.phase, h.ncpu, h.cpus⟩, h.parent⟩
    · exact Quiet.refl s
  unfold timerTick
  generalize (if c.val = 0 then wakeup1 (some .ticks) { s with ticks := s.ticks + 1 } else s) = s'
    at hw ⊢
  dsimp only
  split
  · split
    · exact hw.trans (setProc_quiet s' _ _ rfl rfl rfl)
    · exact hw
  · exact hw

theorem lotteryComplete_quiet (s : Sys) (i : Fin NPROC) : Quiet s (lotteryComplete s i) := by
  unfold lotteryComplete
  split
  · have h := setProc_quiet s i
      { s.proc i with
        completionTime := s.ticks.toInt32
        totalRunTime := if (s.proc i).totalRunTime = 0 then 1 else (s.proc i).totalRunTime }
      rfl rfl rfl
    exact ⟨⟨h.pid, h.state, rfl, rfl, rfl, rfl, rfl⟩, h.parent⟩
  · exact Quiet.refl s

theorem lotteryReady_quiet (s : Sys) (i : Fin NPROC) : Quiet s (lotteryReady s i) := by
  unfold lotteryReady
  split
  · exact setProc_quiet s i _ rfl rfl rfl
  · exact Quiet.refl s

theorem lotteryPass_quiet (ps : List (Fin NPROC)) :
    ∀ s : Sys, Quiet s (ps.foldl lotteryMetrics s) := by
  induction ps with
  | nil => exact Quiet.refl
  | cons i ps ih =>
    intro s
    exact ((lotteryComplete_quiet s i).trans (lotteryReady_quiet _ i)).trans (ih _)

/-! ## The scheduler's return and dispatch -/

/-- `t` is `s` with CPU `c` back in its scheduler and every slot's state, pid and parent kept. -/
structure Parks (c : Fin NCPU) (s t : Sys) : Prop where
  state : ∀ j, (t.proc j).state = (s.proc j).state
  pid : ∀ j, (t.proc j).pid = (s.proc j).pid
  parent : ∀ j, (t.proc j).parent = (s.proc j).parent
  nextpid : t.nextpid = s.nextpid
  initproc : t.initproc = s.initproc
  phase : t.phase = s.phase
  ncpu : t.ncpu = s.ncpu
  cpus : ∃ k, t.cpus = Function.update s.cpus c (.sched k)

theorem schedReturn_parks (b : Sched) (c : Fin NCPU) (i : Fin NPROC) (rs : UInt32) (s : Sys) :
    Parks c s (schedReturn b c i rs s) := by
  cases b <;>
  · refine ⟨fun j => ?_, fun j => ?_, fun j => ?_, rfl, rfl, rfl, rfl, ⟨_, rfl⟩⟩ <;>
    · by_cases hj : j = i
      · subst hj; simp [schedReturn]
      · simp [schedReturn, hj]

theorem schedOut_of_run {b : Sched} {c : Fin NCPU} {s : Sys} {i : Fin NPROC} {rs : UInt32}
    (h : s.cpus c = .run i rs) : schedOut b c s = schedReturn b c i rs s := by
  simp [schedOut, h]

/-- `t` is `s` with slot `i` RUNNING on CPU `c`, every other slot's state and every slot's pid and
parent kept. -/
structure Dispatches (c : Fin NCPU) (i : Fin NPROC) (s t : Sys) : Prop where
  state : ∀ j, (t.proc j).state = if j = i then .running else (s.proc j).state
  pid : ∀ j, (t.proc j).pid = (s.proc j).pid
  parent : ∀ j, (t.proc j).parent = (s.proc j).parent
  nextpid : t.nextpid = s.nextpid
  initproc : t.initproc = s.initproc
  phase : t.phase = s.phase
  ncpu : t.ncpu = s.ncpu
  cpus : ∃ rs, t.cpus = Function.update s.cpus c (.run i rs)

theorem dispatchDefault_dispatches (c : Fin NCPU) (i : Fin NPROC) (s : Sys) :
    Dispatches c i s (dispatchDefault c i s) := by
  refine ⟨fun j => ?_, fun j => ?_, fun j => ?_, rfl, rfl, rfl, rfl, ⟨_, rfl⟩⟩ <;>
  · by_cases hj : j = i
    · subst hj; simp [dispatchDefault]
    · simp [dispatchDefault, hj]

theorem dispatchLottery_dispatches (c : Fin NCPU) (i : Fin NPROC) (s : Sys) :
    Dispatches c i s (dispatchLottery c i s) := by
  refine ⟨fun j => ?_, fun j => ?_, fun j => ?_, rfl, rfl, rfl, rfl, ⟨_, rfl⟩⟩ <;>
  · by_cases hj : j = i
    · subst hj; simp [dispatchLottery]
    · simp [dispatchLottery, hj]

theorem pickDefault_runnable {k : Nat} {s : Sys} {i : Fin NPROC} (h : pickDefault k s = some i) :
    (s.proc i).state = .runnable := by
  have := Scan.firstIdx_spec h
  simp only [Bool.and_eq_true, beq_iff_eq] at this
  exact this.2

theorem pickFrom_runnable (s : Sys) (w : Int32) {i : Fin NPROC} :
    ∀ (ps : List (Fin NPROC)) (count : Int32), pickFrom s w ps count = some i →
      (s.proc i).state = .runnable
  | [], _, h => by simp [pickFrom] at h
  | j :: ps, count, h => by
    unfold pickFrom at h
    split at h
    · split at h
      · cases h; assumption
      · exact pickFrom_runnable s w ps _ h
    · exact pickFrom_runnable s w ps _ h

/-- A round of the lottery that dispatches nothing changes metrics, `perf_data` and the seed only. -/
theorem lotteryRound_none {c : Fin NCPU} {s : Sys} (h : (lotteryRound c s).2 = none) :
    Quiet s (lotteryRound c s).1 := by
  have hq := lotteryPass_quiet (List.finRange NPROC) s
  unfold lotteryRound at h ⊢
  generalize (List.finRange NPROC).foldl lotteryMetrics s = s1 at h hq ⊢
  dsimp only at h ⊢
  by_cases htot : 0 < totalTickets s1
  · simp only [htot, if_true] at h ⊢
    generalize getRandom 0 (totalTickets s1) s1.seed = g at h ⊢
    obtain ⟨w, sd⟩ := g
    dsimp only at h ⊢
    split at h
    · exact ⟨⟨hq.pid, hq.state, hq.nextpid, hq.initproc, hq.phase, hq.ncpu, hq.cpus⟩, hq.parent⟩
    · simp at h
  · simpa only [htot, if_false] using hq

/-- A round of the lottery that picks `i` dispatches it, RUNNABLE after the metrics loop. -/
theorem lotteryRound_some {c : Fin NCPU} {s : Sys} {i : Fin NPROC}
    (h : (lotteryRound c s).2 = some i) :
    ∃ s1, Quiet s s1 ∧ (s1.proc i).state = .runnable ∧
      (lotteryRound c s).1 = dispatchLottery c i s1 := by
  have hq := lotteryPass_quiet (List.finRange NPROC) s
  unfold lotteryRound at h ⊢
  generalize (List.finRange NPROC).foldl lotteryMetrics s = s1 at h hq ⊢
  dsimp only at h ⊢
  by_cases htot : 0 < totalTickets s1
  · simp only [htot, if_true] at h ⊢
    generalize getRandom 0 (totalTickets s1) s1.seed = g at h ⊢
    obtain ⟨w, sd⟩ := g
    dsimp only at h ⊢
    split at h
    · simp at h
    · rename_i j hpick
      simp only [Option.some.injEq] at h
      subst h
      exact ⟨{ s1 with seed := sd }, ⟨⟨hq.pid, hq.state, hq.nextpid, hq.initproc, hq.phase,
        hq.ncpu, hq.cpus⟩, hq.parent⟩, pickFrom_runnable _ _ _ _ hpick, rfl⟩
  · simp [htot] at h

/-! ## `exit`'s hand-over of the children -/

/-- At a child of `cur`, the loop sets the parent to `initproc` and then at most wakes sleepers. -/
theorem reparentAt_of_child {cur k : Fin NPROC} {s : Sys} (h : (s.proc k).parent = some cur) :
    Quiet (s.setProc k { s.proc k with parent := some s.initproc }) (reparentAt cur s k) := by
  unfold reparentAt
  rw [if_pos h]
  dsimp only
  split
  · exact wakeup1_quiet _ _
  · exact Quiet.refl _

theorem reparentAt_of_not_child {cur k : Fin NPROC} {s : Sys} (h : (s.proc k).parent ≠ some cur) :
    reparentAt cur s k = s := by
  unfold reparentAt
  rw [if_neg h]

theorem reparentAt_wakes (cur : Fin NPROC) (s : Sys) (k : Fin NPROC) :
    Wakes s (reparentAt cur s k) := by
  by_cases hk : (s.proc k).parent = some cur
  · exact (setProc_wakes s k { s.proc k with parent := some s.initproc } rfl rfl).trans
      (reparentAt_of_child hk).toWakes
  · rw [reparentAt_of_not_child hk]
    exact Wakes.refl s

theorem reparentAt_parent (cur : Fin NPROC) (s : Sys) (k j : Fin NPROC) :
    ((reparentAt cur s k).proc j).parent =
      if j = k ∧ (s.proc j).parent = some cur then some s.initproc else (s.proc j).parent := by
  by_cases hk : (s.proc k).parent = some cur
  · rw [(reparentAt_of_child hk).parent]
    by_cases hj : j = k
    · subst hj; simp [hk]
    · simp [hj]
  · rw [reparentAt_of_not_child hk]
    by_cases hj : j = k
    · subst hj; simp [hk]
    · simp [hj]

theorem reparent_wakes (cur : Fin NPROC) (s : Sys) : Wakes s (reparent cur s) := by
  unfold reparent
  generalize List.finRange NPROC = ps
  induction ps generalizing s with
  | nil => exact Wakes.refl s
  | cons k ps ih => exact (reparentAt_wakes cur s k).trans (ih _)

/-- `exit`'s loop gives `initproc` exactly the children of `cur` (when `cur` is not `initproc`). -/
theorem reparent_parent (cur : Fin NPROC) (s : Sys) (hcur : s.initproc ≠ cur) (j : Fin NPROC) :
    ((reparent cur s).proc j).parent =
      if (s.proc j).parent = some cur then some s.initproc else (s.proc j).parent := by
  unfold reparent
  suffices h : ∀ (ps : List (Fin NPROC)) (s : Sys), s.initproc ≠ cur →
      ((ps.foldl (reparentAt cur) s).proc j).parent =
        if j ∈ ps ∧ (s.proc j).parent = some cur then some s.initproc else (s.proc j).parent by
    simpa using h (List.finRange NPROC) s hcur
  intro ps
  induction ps with
  | nil => intro s _; simp
  | cons k ps ih =>
    intro s hcur
    have hinit : (reparentAt cur s k).initproc = s.initproc := (reparentAt_wakes cur s k).initproc
    rw [List.foldl_cons, ih _ (hinit ▸ hcur), reparentAt_parent, hinit]
    -- a child handed over at `k` now has parent `initproc`, which is not `cur`
    by_cases hjk : j = k
    · subst hjk
      by_cases hp : (s.proc j).parent = some cur
      · simp [hp, hcur]
      · simp [hp]
    · simp [hjk]

/-! ## `wait`'s scan -/

/-- A pass of `wait` for `cur` frees at most ZOMBIE children of `cur`: every other slot keeps its
state, pid and parent, and `nextpid`, `initproc`, the phases and the CPUs are kept. -/
structure Reaps (cur : Fin NPROC) (s t : Sys) : Prop where
  slot : ∀ j, ((t.proc j).state = (s.proc j).state ∧ (t.proc j).pid = (s.proc j).pid ∧
      (t.proc j).parent = (s.proc j).parent) ∨
    ((s.proc j).state = .zombie ∧ (s.proc j).parent = some cur ∧ (t.proc j).state = .unused ∧
      (t.proc j).parent = none)
  nextpid : t.nextpid = s.nextpid
  initproc : t.initproc = s.initproc
  phase : t.phase = s.phase
  ncpu : t.ncpu = s.ncpu
  cpus : t.cpus = s.cpus

theorem Reaps.of_quiet {cur : Fin NPROC} {s t : Sys} (h : Quiet s t)
    (hst : ∀ j, (t.proc j).state = (s.proc j).state) : Reaps cur s t :=
  ⟨fun j => Or.inl ⟨hst j, h.pid j, h.parent j⟩, h.nextpid, h.initproc, h.phase, h.ncpu, h.cpus⟩

theorem Reaps.trans {cur : Fin NPROC} {s t u : Sys} (h₁ : Reaps cur s t) (h₂ : Reaps cur t u) :
    Reaps cur s u := by
  refine ⟨fun j => ?_, h₂.nextpid.trans h₁.nextpid, h₂.initproc.trans h₁.initproc,
    h₂.phase.trans h₁.phase, h₂.ncpu.trans h₁.ncpu, h₂.cpus.trans h₁.cpus⟩
  rcases h₁.slot j with ⟨h1s, h1p, h1q⟩ | ⟨hz, hpar, hu, hn⟩ <;>
    rcases h₂.slot j with ⟨h2s, h2p, h2q⟩ | ⟨hz', hpar', hu', hn'⟩
  · exact Or.inl ⟨h2s.trans h1s, h2p.trans h1p, h2q.trans h1q⟩
  · exact Or.inr ⟨h1s ▸ hz', h1q ▸ hpar', hu', hn'⟩
  · exact Or.inr ⟨hz, hpar, h2s.trans hu, h2q.trans hn⟩
  · -- a slot freed once is UNUSED, not a ZOMBIE to free again
    rw [hu] at hz'; cases hz'

theorem waitScan_reaps (cur : Fin NPROC) :
    ∀ (ps : List (Fin NPROC)) (hk : Bool) (s : Sys), Reaps cur s (waitScan cur ps hk s).1
  | [], _, s => Reaps.of_quiet (Quiet.refl s) fun _ => rfl
  | j :: ps, hk, s => by
    unfold waitScan
    split
    · exact waitScan_reaps cur ps hk s
    · split
      · exact waitScan_reaps cur ps true s
      · rename_i hpar hz
        have hfin := setProc_quiet s j (finalize s.ticks (s.proc j)) rfl rfl rfl
        have h₁ : Reaps cur s (s.setProc j (finalize s.ticks (s.proc j))) :=
          Reaps.of_quiet hfin fun k => by
            by_cases hk : k = j
            · subst hk; simp [finalize]
            · simp [hk]
        dsimp only
        split
        · exact h₁.trans (waitScan_reaps cur ps true _)
        · -- the store succeeded: slot `j`, a ZOMBIE child of `cur`, is freed
          refine ⟨fun k => ?_, rfl, rfl, rfl, rfl, rfl⟩
          by_cases hk : k = j
          · subst hk
            exact Or.inr ⟨not_not.mp hz, not_not.mp hpar, by simp, by simp⟩
          · exact Or.inl (by simp [hk])

/-! ## `allocproc` -/

/-- `t` is `s` with the UNUSED slot `np` made an EMBRYO with pid `nextpid`, its parent as it was,
and `nextpid` advanced. -/
structure Allocates (np : Fin NPROC) (s t : Sys) : Prop where
  unused : (s.proc np).state = .unused
  state : (t.proc np).state = .embryo
  pid : (t.proc np).pid = s.nextpid
  parent : (t.proc np).parent = (s.proc np).parent
  other : ∀ k, k ≠ np → t.proc k = s.proc k
  nextpid : t.nextpid = s.nextpid + 1
  initproc : t.initproc = s.initproc
  phase : t.phase = s.phase
  ncpu : t.ncpu = s.ncpu
  cpus : t.cpus = s.cpus

theorem allocproc_allocates {s t : Sys} {np : Fin NPROC} (h : allocproc s = some (np, t)) :
    Allocates np s t := by
  unfold allocproc at h
  rcases hf : Scan.firstIdx (fun i => (s.proc i).state == .unused) with _ | i
  · simp [hf] at h
  · simp only [hf, Option.map_some, Option.some.injEq, Prod.mk.injEq] at h
    obtain ⟨rfl, rfl⟩ := h
    have hu := Scan.firstIdx_spec hf
    simp only [beq_iff_eq] at hu
    exact ⟨hu, by simp, by simp, by simp, fun k hk => by simp [hk], rfl, rfl, rfl, rfl, rfl⟩

end Xv6
