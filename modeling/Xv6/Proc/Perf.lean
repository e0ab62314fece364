import Xv6.Proc.Frame

/-!
# The `perf_data` history

`perf_data` has `NPROC` entries. `exit`, `wait` and the lottery scheduler's two store loops each
append one, and nothing clears an entry. Once all are valid, `wait` can no longer reap: the store
fails, `if(!stored) continue;` skips the ZOMBIE child, and the caller goes to sleep with no wakeup
to come.

* `waitScan_of_full` : with a full history a pass of `wait` frees nothing and reports the children;
* `waitStep_sleeps_of_full` : so a caller with children sleeps, and every other slot keeps its state;
* `wait_sleeps_beside_zombie` : a reachable state of the lottery build in which `initproc` has a
  ZOMBIE child and its `wait` goes to sleep;
* `perf_records_twice` : runs after which the history holds one pid twice (`exit` and `wait` both
  store a child's metrics) and holds pid 0 (the lottery scheduler stores UNUSED slots).
-/

namespace Xv6

/-- With every entry of `perf_data` valid, a pass of `wait` frees nothing: it ends with
`havekids` set exactly when `cur` has a child among `ps`, and changes no slot's state or `killed`. -/
theorem waitScan_of_full (cur : Fin NPROC) :
    ∀ (ps : List (Fin NPROC)) (hk : Bool) (s : Sys), (∀ k, (s.perfData k).valid = true) →
      (waitScan cur ps hk s).2 = .error (hk || ps.any fun j => (s.proc j).parent == some cur) ∧
      ∀ j, ((waitScan cur ps hk s).1.proc j).state = (s.proc j).state ∧
        ((waitScan cur ps hk s).1.proc j).killed = (s.proc j).killed
  | [], hk, s, _ => by simp [waitScan]
  | j :: ps, hk, s, hfull => by
    unfold waitScan
    split
    · rename_i hpar
      have hb : ((s.proc j).parent == some cur) = false := by simpa using hpar
      obtain ⟨h1, h2⟩ := waitScan_of_full cur ps hk s hfull
      exact ⟨by rw [h1]; simp [hb], h2⟩
    · rename_i hpar
      split
      · obtain ⟨h1, h2⟩ := waitScan_of_full cur ps true s hfull
        exact ⟨by rw [h1]; simp [not_not.mp hpar], h2⟩
      · -- a ZOMBIE child: its metrics are finalised, and the store fails
        dsimp only
        have hnone : storePerf (s.setProc j (finalize s.ticks (s.proc j))).perfData
            (finalize s.ticks (s.proc j)) = none := (storePerf_eq_none_iff _ _).mpr hfull
        rw [hnone]
        dsimp only
        obtain ⟨h1, h2⟩ := waitScan_of_full cur ps true (s.setProc j (finalize s.ticks (s.proc j)))
          hfull
        refine ⟨by rw [h1]; simp [not_not.mp hpar], fun k => ?_⟩
        rw [(h2 k).1, (h2 k).2]
        by_cases hkj : k = j
        · subst hkj; simp [finalize]
        · simp [hkj]

/-- With a full history, `wait` by a process with children that is not killed sleeps on its own
slot in phase `waiting`, and leaves every other slot, its ZOMBIE children included, as it was. -/
theorem waitStep_sleeps_of_full (b : Sched) (c : Fin NCPU) (cur : Fin NPROC) (rs : UInt32)
    (s : Sys) (hrun : s.cpus c = .run cur rs) (hfull : ∀ k, (s.perfData k).valid = true)
    (hchild : ∃ j, (s.proc j).parent = some cur) (hkilled : (s.proc cur).killed = false) :
    ((waitStep b c cur s).proc cur).state = .sleeping ∧ (waitStep b c cur s).phase cur = .waiting ∧
      ∀ j, j ≠ cur → ((waitStep b c cur s).proc j).state = (s.proc j).state := by
  obtain ⟨h1, h2⟩ := waitScan_of_full cur (List.finRange NPROC) false s hfull
  have hany : ((List.finRange NPROC).any fun j => (s.proc j).parent == some cur) = true := by
    obtain ⟨j, hj⟩ := hchild
    exact List.any_eq_true.mpr ⟨j, List.mem_finRange j, by simp [hj]⟩
  have hcpus := (waitScan_reaps cur (List.finRange NPROC) false s).cpus
  unfold Xv6.waitStep
  generalize waitScan cur (List.finRange NPROC) false s = w at h1 h2 hcpus
  obtain ⟨s', res⟩ := w
  dsimp only at h1 h2 hcpus ⊢
  rw [hany, Bool.false_or] at h1
  subst h1
  dsimp only
  rw [if_neg (by simp [(h2 cur).2, hkilled])]
  -- back in the scheduler, after `sleep` set the state and `wait` the phase
  have hp := schedReturn_parks b c cur rs
    (((sleep cur (.proc cur) s').setPhase cur .waiting).setResume cur .slept)
  rw [schedOut_of_run (show (((sleep cur (.proc cur) s').setPhase cur .waiting).setResume cur
    .slept).cpus c = .run cur rs by simp [sleep, hcpus, hrun])]
  refine ⟨by rw [hp.state]; simp [sleep], by rw [hp.phase]; simp, fun j hj => ?_⟩
  rw [hp.state, ← (h2 j).1]
  simp [sleep, hj]

/-- `initproc` forks a child on CPU 0; CPU 1's scheduler dispatches the child, which exits. Both
scheduler passes store the UNUSED slots in `perf_data` and fill it. -/
def perfRun : List Event :=
  [.sched 0, .fork 0, .forkCopy 0, .forkRun 0, .sched 1, .exit 1, .exit 1]

set_option maxRecDepth 8000 in
theorem wait_sleeps_beside_zombie :
    ∃ s, Run.run (step .lottery) (init 2) perfRun = some s ∧
      (s.running 0).map Prod.fst = some 0 ∧ (s.proc 1).state = .zombie ∧
      (s.proc 1).parent = some 0 ∧
      ∃ t, step .lottery s (.wait 0) = some t ∧ (t.proc 0).state = .sleeping ∧
        (t.proc 1).state = .zombie := by
  obtain ⟨s, hs, hp⟩ := @Run.exists_of_map_eq_some_true _ _ (step .lottery) (init 2) perfRun
    (fun s => (s.running 0).map Prod.fst == some 0 && (s.proc 1).state == .zombie &&
      (s.proc 1).parent == some 0 &&
      (step .lottery s (.wait 0)).any fun t =>
        (t.proc 0).state == .sleeping && (t.proc 1).state == .zombie) (by decide +kernel)
  simp only [Bool.and_eq_true, beq_iff_eq, Option.any_eq_true] at hp
  obtain ⟨⟨⟨h0, h1⟩, h2⟩, t, ht, ht0, ht1⟩ := hp
  exact ⟨s, hs, h0, h1, h2, t, ht, ht0, ht1⟩

/-- The default build: `initproc` forks, waits and sleeps; the child runs and exits; `initproc` is
dispatched again and reaps it. -/
def twiceRun : List Event :=
  [.sched 0, .fork 0, .forkCopy 0, .forkRun 0, .wait 0, .sched 0, .exit 0, .exit 0, .sched 0,
    .sched 0]

set_option maxRecDepth 8000 in
theorem perf_records_twice :
    (∃ s, Run.run (step .default) (init 1) twiceRun = some s ∧
      (s.perfData 0).valid = true ∧ (s.perfData 1).valid = true ∧
      (s.perfData 0).pid = 2 ∧ (s.perfData 1).pid = 2) ∧
    (∃ s, Run.run (step .lottery) (init 1) [.sched 0] = some s ∧
      (s.perfData 0).valid = true ∧ (s.perfData 0).pid = 0) := by
  constructor
  · obtain ⟨s, hs, hp⟩ := @Run.exists_of_map_eq_some_true _ _ (step .default) (init 1) twiceRun
      (fun s => (s.perfData 0).valid && (s.perfData 1).valid && (s.perfData 0).pid == 2 &&
        (s.perfData 1).pid == 2) (by decide +kernel)
    simp only [Bool.and_eq_true, beq_iff_eq] at hp
    exact ⟨s, hs, hp.1.1.1, hp.1.1.2, hp.1.2, hp.2⟩
  · obtain ⟨s, hs, hp⟩ := @Run.exists_of_map_eq_some_true _ _ (step .lottery) (init 1) [.sched 0]
      (fun s => (s.perfData 0).valid && (s.perfData 0).pid == 0) (by decide +kernel)
    simp only [Bool.and_eq_true, beq_iff_eq] at hp
    exact ⟨s, hs, hp⟩

end Xv6
