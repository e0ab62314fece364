import Xv6.Proc.Frame

/-!
# The process table stays well formed

`TableInv` is what the process-management code keeps true of the slots and `CpuInv` what it keeps
true of the CPUs, between any two steps of any run; this module shows what each locked section does
to them, and `Proc/Table` strings the sections into steps and runs. Pids stay distinct because
`nextpid` only grows, which needs `nextpid++` not to wrap.

* `TableInv.keeps`, `TableInv.reaps`, `TableInv.setPhase` : steps that move states among the live
  ones, `wait`'s scan, and a new phase keep the table invariant;
* `TableInv.allocproc`, `TableInv.forkFail`, `TableInv.forkCopy`, `TableInv.forkRun`,
  `TableInv.exitFinish` : the steps that create, abandon, start and end a process;
* `CpuInv.park`, `CpuInv.leave`, `CpuInv.dispatch` : the scheduler's return and dispatch.
-/

namespace Xv6

/-- The slot a `fork` in progress has taken. -/
def Phase.target : Phase → Option (Fin NPROC)
  | .forking np | .forked np => some np
  | _ => none

/-- What the process-management code keeps true of the slots. -/
structure TableInv (s : Sys) : Prop where
  nextpid_pos : 0 < s.nextpid.toInt
  pid_pos : ∀ i, (s.proc i).state ≠ .unused → 0 < (s.proc i).pid.toInt
  pid_lt : ∀ i, (s.proc i).state ≠ .unused → (s.proc i).pid.toInt < s.nextpid.toInt
  pid_inj : ∀ i j, (s.proc i).state ≠ .unused → (s.proc j).state ≠ .unused →
    (s.proc i).pid = (s.proc j).pid → i = j
  init_live : (s.proc s.initproc).state.Live
  /-- `exit` panics for `initproc`, so it never starts exiting. -/
  init_phase : s.phase s.initproc ≠ .exiting
  unused_parent : ∀ i, (s.proc i).state = .unused → (s.proc i).parent = none
  parent_live : ∀ i j, (s.proc i).parent = some j → (s.proc j).state.Live
  /-- The slot a `fork` in progress took is an EMBRYO until `fork` lets it go. -/
  target_embryo : ∀ i np, (s.phase i).target = some np → (s.proc np).state = .embryo
  forking_orphan : ∀ i np, s.phase i = .forking np → (s.proc np).parent = none
  target_inj : ∀ i i' np, (s.phase i).target = some np → (s.phase i').target = some np → i = i'

/-- A started CPU that runs a process runs a RUNNING one, and no other started CPU runs it. -/
structure CpuInv (s : Sys) : Prop where
  running : ∀ c i rs, c.val < s.ncpu → s.cpus c = .run i rs → (s.proc i).state = .running
  unique : ∀ c c' i rs rs', c.val < s.ncpu → c'.val < s.ncpu → s.cpus c = .run i rs →
    s.cpus c' = .run i rs' → c = c'

/-! ## Steps the table invariant cannot tell apart -/

/-- `t` is `s` with every slot's pid and parent kept, every state kept or moved among the live
ones, and `nextpid`, `initproc` and the phases kept. -/
structure Keeps (s t : Sys) : Prop where
  pid : ∀ j, (t.proc j).pid = (s.proc j).pid
  parent : ∀ j, (t.proc j).parent = (s.proc j).parent
  state : ∀ j, (s.proc j).state.Moves (t.proc j).state
  nextpid : t.nextpid = s.nextpid
  initproc : t.initproc = s.initproc
  phase : t.phase = s.phase

section Keeps

variable {s t u : Sys}

theorem Keeps.trans (h₁ : Keeps s t) (h₂ : Keeps t u) : Keeps s u :=
  ⟨fun j => (h₂.pid j).trans (h₁.pid j), fun j => (h₂.parent j).trans (h₁.parent j),
    fun j => (h₁.state j).trans (h₂.state j), h₂.nextpid.trans h₁.nextpid,
    h₂.initproc.trans h₁.initproc, h₂.phase.trans h₁.phase⟩

theorem Quiet.keeps (h : Quiet s t) : Keeps s t :=
  ⟨h.pid, h.parent, h.moves, h.nextpid, h.initproc, h.phase⟩

theorem Parks.keeps {c : Fin NCPU} (h : Parks c s t) : Keeps s t :=
  ⟨h.pid, h.parent, fun j => Or.inl (h.state j), h.nextpid, h.initproc, h.phase⟩

/-- Dispatching a RUNNABLE slot moves it among the live states. -/
theorem Dispatches.keeps {c : Fin NCPU} {i : Fin NPROC} (h : Dispatches c i s t)
    (hi : (s.proc i).state = .runnable) : Keeps s t := by
  refine ⟨h.pid, h.parent, fun j => ?_, h.nextpid, h.initproc, h.phase⟩
  rw [Procstate.Moves, h.state j]
  by_cases hj : j = i
  · subst hj
    exact Or.inr ⟨hi ▸ Procstate.live_runnable, by simp⟩
  · exact Or.inl (if_neg hj)

/-- Overwriting a live slot with a live record of the same pid and parent. -/
theorem setProc_keeps (i : Fin NPROC) (p : Proc) (hs : (s.proc i).state.Live) (hp : p.state.Live)
    (hpid : p.pid = (s.proc i).pid) (hpar : p.parent = (s.proc i).parent) :
    Keeps s (s.setProc i p) := by
  refine ⟨fun j => ?_, fun j => ?_, fun j => ?_, rfl, rfl, rfl⟩ <;> by_cases hj : j = i
  · subst hj; simpa
  · simp [hj]
  · subst hj; simpa
  · simp [hj]
  · subst hj; exact Or.inr ⟨hs, by simpa⟩
  · simp [hj, Procstate.Moves.refl]

theorem TableInv.keeps (hi : TableInv s) (h : Keeps s t) : TableInv t where
  nextpid_pos := h.nextpid ▸ hi.nextpid_pos
  pid_pos i hu := by
    rw [h.pid]; exact hi.pid_pos i (mt (h.state i).unused_iff.mpr hu)
  pid_lt i hu := by
    rw [h.pid, h.nextpid]; exact hi.pid_lt i (mt (h.state i).unused_iff.mpr hu)
  pid_inj i j hui huj hp := by
    rw [h.pid, h.pid] at hp
    exact hi.pid_inj i j (mt (h.state i).unused_iff.mpr hui) (mt (h.state j).unused_iff.mpr huj) hp
  init_live := by rw [h.initproc, (h.state _).live_iff]; exact hi.init_live
  init_phase := by rw [h.initproc, h.phase]; exact hi.init_phase
  unused_parent i hu := by
    rw [h.parent]; exact hi.unused_parent i ((h.state i).unused_iff.mp hu)
  parent_live i j hp := by
    rw [h.parent] at hp; rw [(h.state j).live_iff]; exact hi.parent_live i j hp
  target_embryo i np hp := by
    rw [h.phase] at hp; rw [(h.state np).embryo_iff]; exact hi.target_embryo i np hp
  forking_orphan i np hp := by
    rw [h.phase] at hp; rw [h.parent]; exact hi.forking_orphan i np hp
  target_inj i i' np hp hp' := by
    rw [h.phase] at hp hp'; exact hi.target_inj i i' np hp hp'

end Keeps

/-! ## `wait`'s scan and the phases -/

section Reaps

variable {cur : Fin NPROC} {s t : Sys}

theorem Reaps.of_ne_unused (h : Reaps cur s t) {j : Fin NPROC} (hu : (t.proc j).state ≠ .unused) :
    (t.proc j).state = (s.proc j).state ∧ (t.proc j).pid = (s.proc j).pid ∧
      (t.proc j).parent = (s.proc j).parent := by
  rcases h.slot j with h' | ⟨-, -, hu', -⟩
  · exact h'
  · exact absurd hu' hu

theorem Reaps.of_ne_zombie (h : Reaps cur s t) {j : Fin NPROC} (hz : (s.proc j).state ≠ .zombie) :
    (t.proc j).state = (s.proc j).state ∧ (t.proc j).pid = (s.proc j).pid ∧
      (t.proc j).parent = (s.proc j).parent := by
  rcases h.slot j with h' | ⟨hz', -, -, -⟩
  · exact h'
  · exact absurd hz' hz

/-- Freeing ZOMBIE slots keeps the table invariant: no parent, `initproc` or `fork` target is one. -/
theorem TableInv.reaps (hi : TableInv s) (h : Reaps cur s t) : TableInv t where
  nextpid_pos := h.nextpid ▸ hi.nextpid_pos
  pid_pos i hu := by
    obtain ⟨hs, hp, -⟩ := h.of_ne_unused hu
    rw [hp]; exact hi.pid_pos i (hs ▸ hu)
  pid_lt i hu := by
    obtain ⟨hs, hp, -⟩ := h.of_ne_unused hu
    rw [hp, h.nextpid]; exact hi.pid_lt i (hs ▸ hu)
  pid_inj i j hui huj hp := by
    obtain ⟨hsi, hpi, -⟩ := h.of_ne_unused hui
    obtain ⟨hsj, hpj, -⟩ := h.of_ne_unused huj
    rw [hpi, hpj] at hp
    exact hi.pid_inj i j (hsi ▸ hui) (hsj ▸ huj) hp
  init_live := by
    rw [h.initproc, (h.of_ne_zombie hi.init_live.ne_zombie).1]; exact hi.init_live
  init_phase := by rw [h.initproc, h.phase]; exact hi.init_phase
  unused_parent i hu := by
    rcases h.slot i with ⟨hs, -, hq⟩ | ⟨-, -, -, hn⟩
    · rw [hq]; exact hi.unused_parent i (hs ▸ hu)
    · exact hn
  parent_live i j hp := by
    rcases h.slot i with ⟨-, -, hq⟩ | ⟨-, -, -, hn⟩
    · rw [hq] at hp
      have hl := hi.parent_live i j hp
      rw [(h.of_ne_zombie hl.ne_zombie).1]; exact hl
    · rw [hn] at hp; cases hp
  target_embryo i np hp := by
    rw [h.phase] at hp
    have he := hi.target_embryo i np hp
    rw [(h.of_ne_zombie (by rw [he]; decide)).1]; exact he
  forking_orphan i np hp := by
    rw [h.phase] at hp
    rcases h.slot np with ⟨-, -, hq⟩ | ⟨-, -, -, hn⟩
    · rw [hq]; exact hi.forking_orphan i np hp
    · exact hn
  target_inj i i' np hp hp' := by
    rw [h.phase] at hp hp'; exact hi.target_inj i i' np hp hp'

end Reaps

/-- A new phase for slot `i` keeps the table invariant when it does not make `initproc` exit and any
slot it targets is an EMBRYO no other `fork` has taken, with no parent if the `fork` is still at
`allocproc`. -/
theorem TableInv.setPhase {s : Sys} (hi : TableInv s) (i : Fin NPROC) (ph : Phase)
    (hinit : i = s.initproc → ph ≠ .exiting)
    (htarget : ∀ np, ph.target = some np → (s.proc np).state = .embryo ∧
      (ph = .forking np → (s.proc np).parent = none) ∧ ∀ i', i' ≠ i → (s.phase i').target ≠ some np) :
    TableInv (s.setPhase i ph) where
  nextpid_pos := hi.nextpid_pos
  pid_pos := hi.pid_pos
  pid_lt := hi.pid_lt
  pid_inj := hi.pid_inj
  init_live := hi.init_live
  init_phase := by
    by_cases hj : i = s.initproc
    · subst hj; simpa using hinit rfl
    · simpa [Function.update_of_ne (Ne.symm hj)] using hi.init_phase
  unused_parent := hi.unused_parent
  parent_live := hi.parent_live
  target_embryo j np hp := by
    by_cases hj : j = i
    · subst hj; simp only [Sys.setPhase_phase, Function.update_self] at hp
      exact (htarget np hp).1
    · simp only [Sys.setPhase_phase, Function.update_of_ne hj] at hp
      exact hi.target_embryo j np hp
  forking_orphan j np hp := by
    by_cases hj : j = i
    · subst hj; simp only [Sys.setPhase_phase, Function.update_self] at hp
      exact (htarget np (by rw [hp]; rfl)).2.1 hp
    · simp only [Sys.setPhase_phase, Function.update_of_ne hj] at hp
      exact hi.forking_orphan j np hp
  target_inj j j' np hp hp' := by
    simp only [Sys.setPhase_phase] at hp hp'
    by_cases hj : j = i <;> by_cases hj' : j' = i
    · rw [hj, hj']
    · rw [hj, Function.update_self] at hp
      rw [Function.update_of_ne hj'] at hp'
      exact absurd hp' ((htarget np hp).2.2 j' hj')
    · rw [hj', Function.update_self] at hp'
      rw [Function.update_of_ne hj] at hp
      exact absurd hp ((htarget np hp').2.2 j hj)
    · rw [Function.update_of_ne hj] at hp
      rw [Function.update_of_ne hj'] at hp'
      exact hi.target_inj j j' np hp hp'

/-- A phase without a target that is not `exiting` keeps the table invariant. -/
theorem TableInv.setPhase_plain {s : Sys} (hi : TableInv s) (i : Fin NPROC) (ph : Phase)
    (hex : ph ≠ .exiting) (ht : ph.target = none) : TableInv (s.setPhase i ph) :=
  hi.setPhase i ph (fun _ => hex) (fun np h => by rw [ht] at h; cases h)

/-! ## Creating, starting and abandoning a process -/

/-- Overwriting slot `j` with `p` keeps the table invariant when `p` keeps the slot's pid if it is in
use, `initproc`, a parent or a `fork` target stays what it must be, and `p`'s own parent is live. -/
theorem TableInv.setProc {s : Sys} (hi : TableInv s) (j : Fin NPROC) (p : Proc)
    (hpid : p.state ≠ .unused → (s.proc j).state ≠ .unused ∧ p.pid = (s.proc j).pid)
    (hinit : j = s.initproc → p.state.Live)
    (hunused : p.state = .unused → p.parent = none)
    (hparent : ∀ k, p.parent = some k → k ≠ j ∧ (s.proc k).state.Live)
    (hchild : ∀ k, k ≠ j → (s.proc k).parent = some j → p.state.Live)
    (htarget : ∀ k, (s.phase k).target = some j → p.state = .embryo)
    (horphan : ∀ k, s.phase k = .forking j → p.parent = none) :
    TableInv (s.setProc j p) where
  nextpid_pos := hi.nextpid_pos
  pid_pos k hk := by
    by_cases hkj : k = j
    · subst hkj; simp only [Sys.setProc_proc, Function.update_self] at hk ⊢
      rw [(hpid hk).2]; exact hi.pid_pos k (hpid hk).1
    · simp only [Sys.setProc_proc, Function.update_of_ne hkj] at hk ⊢
      exact hi.pid_pos k hk
  pid_lt k hk := by
    by_cases hkj : k = j
    · subst hkj; simp only [Sys.setProc_proc, Function.update_self] at hk ⊢
      rw [(hpid hk).2]; exact hi.pid_lt k (hpid hk).1
    · simp only [Sys.setProc_proc, Function.update_of_ne hkj] at hk ⊢
      exact hi.pid_lt k hk
  pid_inj k k' hk hk' hp := by
    -- a slot in use keeps its pid, so equal pids are equal pids in `s`
    have hold : ∀ m, ((s.setProc j p).proc m).state ≠ .unused →
        (s.proc m).state ≠ .unused ∧ ((s.setProc j p).proc m).pid = (s.proc m).pid := by
      intro m hm
      by_cases hmj : m = j
      · subst hmj; simp only [Sys.setProc_proc, Function.update_self] at hm ⊢; exact hpid hm
      · simp only [Sys.setProc_proc, Function.update_of_ne hmj] at hm ⊢; exact ⟨hm, trivial⟩
    obtain ⟨hu, hkp⟩ := hold k hk
    obtain ⟨hu', hkp'⟩ := hold k' hk'
    rw [hkp, hkp'] at hp
    exact hi.pid_inj k k' hu hu' hp
  init_live := by
    by_cases hj : s.initproc = j
    · simp only [Sys.setProc_initproc, Sys.setProc_proc, hj, Function.update_self]
      exact hinit hj.symm
    · simp only [Sys.setProc_initproc, Sys.setProc_proc, Function.update_of_ne hj]
      exact hi.init_live
  init_phase := hi.init_phase
  unused_parent k hk := by
    by_cases hkj : k = j
    · subst hkj; simp only [Sys.setProc_proc, Function.update_self] at hk ⊢; exact hunused hk
    · simp only [Sys.setProc_proc, Function.update_of_ne hkj] at hk ⊢
      exact hi.unused_parent k hk
  parent_live k m hp := by
    by_cases hkj : k = j
    · subst hkj; simp only [Sys.setProc_proc, Function.update_self] at hp
      obtain ⟨hmk, hm⟩ := hparent m hp
      simpa [Function.update_of_ne hmk] using hm
    · simp only [Sys.setProc_proc, Function.update_of_ne hkj] at hp
      by_cases hmj : m = j
      · subst hmj; simpa using hchild k hkj hp
      · simpa [Function.update_of_ne hmj] using hi.parent_live k m hp
  target_embryo k np hp := by
    by_cases hnp : np = j
    · subst hnp; simpa using htarget k hp
    · simpa [Function.update_of_ne hnp] using hi.target_embryo k np hp
  forking_orphan k np hp := by
    by_cases hnp : np = j
    · subst hnp; simpa using horphan k hp
    · simpa [Function.update_of_ne hnp] using hi.forking_orphan k np hp
  target_inj := hi.target_inj

/-- A slot no `fork` has taken is not the one a `fork` at `allocproc` has. -/
theorem Phase.target_of_forking {ph : Phase} {np : Fin NPROC} (h : ph = .forking np) :
    ph.target = some np := by
  rw [h]; rfl

/-- `fork` giving up slot `np` (`kalloc` or `copyuvm` failed): the EMBRYO becomes UNUSED. -/
theorem TableInv.forkFail {s : Sys} {np : Fin NPROC} (hi : TableInv s)
    (he : (s.proc np).state = .embryo) (hpar : (s.proc np).parent = none)
    (hfree : ∀ k, (s.phase k).target ≠ some np) : TableInv (forkFail np s) := by
  apply hi.setProc np _ (fun h => absurd rfl h)
  · intro hj; subst hj; exact absurd he hi.init_live.ne_embryo
  · intro _; exact hpar
  · intro k hk; rw [hpar] at hk; cases hk
  · intro k _ hk; exact absurd (he ▸ hi.parent_live k np hk) Procstate.not_live_embryo
  · intro k hk; exact absurd hk (hfree k)
  · intro k hk; exact absurd (Phase.target_of_forking hk) (hfree k)

/-- `fork` copying `cur` into `np`: the EMBRYO gets `cur`, which is live, as its parent. -/
theorem TableInv.forkCopy {s : Sys} {cur np : Fin NPROC} (hi : TableInv s)
    (hlive : (s.proc cur).state.Live) (he : (s.proc np).state = .embryo)
    (hnf : ∀ k, s.phase k ≠ .forking np) : TableInv (forkCopy cur np s) := by
  unfold Xv6.forkCopy
  apply hi.setProc np
  · intro _; exact ⟨by rw [he]; decide, rfl⟩
  · intro hj; subst hj; exact absurd he hi.init_live.ne_embryo
  · intro h; simp [he] at h
  · intro k hk
    obtain rfl : cur = k := Option.some.inj hk
    exact ⟨fun h => by subst h; exact absurd he hlive.ne_embryo, hlive⟩
  · intro k _ hk; exact absurd (he ▸ hi.parent_live k np hk) Procstate.not_live_embryo
  · intro _ _; exact he
  · intro k hk; exact absurd hk (hnf k)

/-- `fork`'s last section: the EMBRYO becomes RUNNABLE. -/
theorem TableInv.forkRun {s : Sys} {np : Fin NPROC} (hi : TableInv s)
    (he : (s.proc np).state = .embryo) (hfree : ∀ k, (s.phase k).target ≠ some np) :
    TableInv (forkRun np s) := by
  unfold Xv6.forkRun
  apply hi.setProc np
  · intro _; exact ⟨by rw [he]; decide, rfl⟩
  · intro _; exact Procstate.live_runnable
  · intro h; simp at h
  · intro k hk
    have hl := hi.parent_live np k hk
    exact ⟨fun h => by subst h; exact absurd he hl.ne_embryo, hl⟩
  · intro _ _ _; exact Procstate.live_runnable
  · intro k hk; exact absurd hk (hfree k)
  · intro k hk; exact absurd (Phase.target_of_forking hk) (hfree k)

theorem toInt_add_one_of_lt {x : Int32} (h : x.toInt < 2 ^ 31 - 1) : (x + 1).toInt = x.toInt + 1 := by
  rw [Int32.toInt_add]
  have := Int32.le_toInt x
  rw [Int.bmod_eq_of_le] <;> simp <;> omega

/-- `allocproc` keeps the table invariant while `nextpid++` does not wrap: the new EMBRYO takes a pid
above every pid in use. -/
theorem TableInv.allocproc {s t : Sys} {np : Fin NPROC} (hi : TableInv s)
    (h : allocproc s = some (np, t)) (hroom : s.nextpid.toInt < 2 ^ 31 - 1) : TableInv t := by
  have ha := allocproc_allocates h
  have hnext : t.nextpid.toInt = s.nextpid.toInt + 1 := by
    rw [ha.nextpid]; exact toInt_add_one_of_lt hroom
  have htp : ∀ k, t.proc k = if k = np then t.proc np else s.proc k := by
    intro k; by_cases hk : k = np
    · rw [if_pos hk, hk]
    · rw [if_neg hk, ha.other k hk]
  have hu := ha.unused
  have hpe := ha.state
  have hpp := ha.pid
  have hpar := ha.parent
  have hti := ha.initproc
  have htph := ha.phase
  generalize t.proc np = p at htp hpe hpp hpar
  -- a slot in use in `s` is not the one taken
  have hne : ∀ k, (s.proc k).state ≠ .unused → k ≠ np := fun k hk h => hk (h ▸ hu)
  have hp0 := hi.nextpid_pos
  refine ⟨by omega, fun k hk => ?_, fun k hk => ?_, fun k k' hk hk' hp => ?_, ?_, ?_,
    fun k hk => ?_, fun k m hp => ?_, fun k np' hp => ?_, fun k np' hp => ?_, ?_⟩
  · rw [htp] at hk ⊢
    split_ifs at hk ⊢
    · rw [hpp]; exact hp0
    · exact hi.pid_pos k hk
  · rw [htp] at hk ⊢
    rw [hnext]
    split_ifs at hk ⊢
    · rw [hpp]; omega
    · have := hi.pid_lt k hk; omega
  · rw [htp, htp] at hp
    rw [htp] at hk
    rw [htp] at hk'
    -- the new pid is `nextpid`, above every pid in use
    by_cases hkn : k = np <;> by_cases hkn' : k' = np
    · rw [hkn, hkn']
    · rw [if_pos hkn, if_neg hkn', hpp] at hp
      rw [if_neg hkn'] at hk'
      have := hi.pid_lt k' hk'; rw [← hp] at this; omega
    · rw [if_neg hkn, if_pos hkn', hpp] at hp
      rw [if_neg hkn] at hk
      have := hi.pid_lt k hk; rw [hp] at this; omega
    · rw [if_neg hkn, if_neg hkn'] at hp
      rw [if_neg hkn] at hk
      rw [if_neg hkn'] at hk'
      exact hi.pid_inj k k' hk hk' hp
  · rw [hti, htp, if_neg (hne _ hi.init_live.ne_unused)]; exact hi.init_live
  · rw [hti, htph]; exact hi.init_phase
  · rw [htp] at hk ⊢
    split_ifs at hk ⊢
    · rw [hpe] at hk; cases hk
    · exact hi.unused_parent k hk
  · rw [htp] at hp
    split_ifs at hp
    · rw [hpar, hi.unused_parent np hu] at hp; cases hp
    · have hl := hi.parent_live k m hp
      rw [htp, if_neg (hne m hl.ne_unused)]; exact hl
  · rw [htph] at hp
    have he := hi.target_embryo k np' hp
    rw [htp, if_neg (hne np' (by rw [he]; decide))]; exact he
  · rw [htph] at hp
    have he := hi.target_embryo k np' (Phase.target_of_forking hp)
    rw [htp, if_neg (hne np' (by rw [he]; decide))]; exact hi.forking_orphan k np' hp
  · rw [htph]; exact hi.target_inj

/-! ## Ending a process -/

/-- After `exit`'s loop no slot has `cur` as its parent. -/
theorem reparent_parent_ne (cur : Fin NPROC) (s : Sys) (hcur : s.initproc ≠ cur) (j : Fin NPROC) :
    ((reparent cur s).proc j).parent ≠ some cur := by
  rw [reparent_parent cur s hcur]
  split_ifs with h
  · exact fun h' => hcur (Option.some.inj h')
  · exact h

/-- `exit`'s loop keeps the table invariant: the children it hands over get `initproc`, which is
live, as their parent. -/
theorem TableInv.reparent {s : Sys} {cur : Fin NPROC} (hi : TableInv s) (hcur : s.initproc ≠ cur) :
    TableInv (reparent cur s) := by
  have hw := reparent_wakes cur s
  have hpar := reparent_parent cur s hcur
  refine ⟨?_, fun k hk => ?_, fun k hk => ?_,
    fun k k' hk hk' hp => ?_, ?_, ?_, fun k hk => ?_, fun k m hp => ?_, fun k np hp => ?_,
    fun k np hp => ?_, ?_⟩
  · rw [hw.nextpid]; exact hi.nextpid_pos
  · rw [hw.pid]; exact hi.pid_pos k (mt (hw.moves k).unused_iff.mpr hk)
  · rw [hw.pid, hw.nextpid]; exact hi.pid_lt k (mt (hw.moves k).unused_iff.mpr hk)
  · rw [hw.pid, hw.pid] at hp
    exact hi.pid_inj k k' (mt (hw.moves k).unused_iff.mpr hk) (mt (hw.moves k').unused_iff.mpr hk') hp
  · rw [hw.initproc, (hw.moves _).live_iff]; exact hi.init_live
  · rw [hw.initproc, hw.phase]; exact hi.init_phase
  · rw [hpar, hi.unused_parent k ((hw.moves k).unused_iff.mp hk)]; simp
  · rw [hpar] at hp
    rw [(hw.moves m).live_iff]
    split_ifs at hp
    · cases hp; exact hi.init_live
    · exact hi.parent_live k m hp
  · rw [hw.phase] at hp
    rw [(hw.moves np).embryo_iff]; exact hi.target_embryo k np hp
  · rw [hw.phase] at hp
    rw [hpar, hi.forking_orphan k np hp]; simp
  · rw [hw.phase]; exact hi.target_inj

/-- `exit`'s second section keeps the table invariant: `cur`, RUNNING and not `initproc`, becomes a
ZOMBIE once no slot has it as parent. -/
theorem TableInv.exitFinish {s : Sys} {cur : Fin NPROC} (hi : TableInv s)
    (hrun : (s.proc cur).state = .running) (hcur : s.initproc ≠ cur) :
    TableInv (exitFinish cur s) := by
  unfold Xv6.exitFinish
  dsimp only
  have hw := wakeup1_quiet ((s.proc cur).parent.map Chan.proc) s
  generalize wakeup1 _ s = w at hw ⊢
  have hcw : w.initproc ≠ cur := hw.initproc ▸ hcur
  have hr := reparent_wakes cur w
  have hir := (hi.keeps hw.keeps).reparent hcw
  have hne := reparent_parent_ne cur w hcw
  generalize Xv6.reparent cur w = r at hr hir hne ⊢
  have hrr : (r.proc cur).state = .running := hr.running (hw.running hrun)
  apply hir.setProc cur
  · intro _; exact ⟨by rw [hrr]; decide, rfl⟩
  · intro h; exact absurd (hw.initproc.symm.trans (hr.initproc.symm.trans h.symm)) hcur
  · intro h; simp at h
  · intro k hk
    exact ⟨fun h => hne cur (h ▸ hk), hir.parent_live cur k hk⟩
  · intro k _ hk; exact absurd hk (hne k)
  · intro k hk; rw [hir.target_embryo k cur hk] at hrr; cases hrr
  · intro k hk
    rw [hir.target_embryo k cur (Phase.target_of_forking hk)] at hrr; cases hrr

/-! ## The CPUs -/

section Cpu

variable {s t : Sys}

/-- Steps that keep every RUNNING slot RUNNING and leave the CPUs alone keep `CpuInv`. -/
theorem CpuInv.of_running (hc : CpuInv s)
    (hrun : ∀ j, (s.proc j).state = .running → (t.proc j).state = .running)
    (hcpus : t.cpus = s.cpus) (hn : t.ncpu = s.ncpu) : CpuInv t where
  running c i rs hlt hci := by
    rw [hn] at hlt; rw [hcpus] at hci
    exact hrun i (hc.running c i rs hlt hci)
  unique c c' i rs rs' hlt hlt' hci hci' := by
    rw [hn] at hlt hlt'; rw [hcpus] at hci hci'
    exact hc.unique c c' i rs rs' hlt hlt' hci hci'

theorem CpuInv.quiet (hc : CpuInv s) (h : Quiet s t) : CpuInv t :=
  hc.of_running (fun _ => h.running) h.cpus h.ncpu

/-- CPU `c` going back to its scheduler keeps `CpuInv` when the processes on the other CPUs stay
RUNNING. -/
theorem CpuInv.park (hc : CpuInv s) {c : Fin NCPU} {k : Nat}
    (hcpus : t.cpus = Function.update s.cpus c (.sched k)) (hn : t.ncpu = s.ncpu)
    (hrun : ∀ c' j rs, c' ≠ c → c'.val < s.ncpu → s.cpus c' = .run j rs →
      (t.proc j).state = .running) : CpuInv t where
  running c' j rs hlt hcj := by
    rw [hcpus] at hcj
    by_cases hc' : c' = c
    · subst hc'; simp at hcj
    · rw [Function.update_of_ne hc'] at hcj
      exact hrun c' j rs hc' (hn ▸ hlt) hcj
  unique c₁ c₂ j rs rs' hlt₁ hlt₂ h₁ h₂ := by
    rw [hcpus] at h₁ h₂
    by_cases hc₁ : c₁ = c
    · subst hc₁; simp at h₁
    · by_cases hc₂ : c₂ = c
      · subst hc₂; simp at h₂
      · rw [Function.update_of_ne hc₁] at h₁
        rw [Function.update_of_ne hc₂] at h₂
        exact hc.unique c₁ c₂ j rs rs' (hn ▸ hlt₁) (hn ▸ hlt₂) h₁ h₂

/-- The process on CPU `c` leaving it: `t` changes no other RUNNING slot and no CPU, and the
scheduler's return parks `c`. -/
theorem CpuInv.leave (hc : CpuInv s) {b : Sched} {c : Fin NCPU} {i : Fin NPROC} {rs : UInt32}
    (hrun : s.running c = some (i, rs))
    (hother : ∀ j, j ≠ i → (s.proc j).state = .running → (t.proc j).state = .running)
    (hcpus : t.cpus = s.cpus) (hn : t.ncpu = s.ncpu) : CpuInv (schedReturn b c i rs t) := by
  obtain ⟨hlt, hci⟩ := Sys.running_eq_some.mp hrun
  have hp := schedReturn_parks b c i rs t
  obtain ⟨k, hk⟩ := hp.cpus
  refine hc.park (k := k) (by rw [hk, hcpus]) (hp.ncpu.trans hn) fun c' j rs' hc' hlt' hcj => ?_
  -- `j` runs on another CPU than `i` does, so it is not `i`
  have hji : j ≠ i := fun h => hc' (hc.unique c' c i rs' rs hlt' hlt (h ▸ hcj) hci)
  rw [hp.state]
  exact hother j hji (hc.running c' j rs' hlt' hcj)

/-- Dispatching a RUNNABLE slot on a CPU in its scheduler keeps `CpuInv`. -/
theorem CpuInv.dispatch (hc : CpuInv s) {c : Fin NCPU} {i : Fin NPROC} {k : Nat}
    (hsched : s.cpus c = .sched k) (hi : (s.proc i).state = .runnable) (h : Dispatches c i s t) :
    CpuInv t := by
  obtain ⟨rs, hcpus⟩ := h.cpus
  -- a process RUNNING elsewhere is not `i`, which was RUNNABLE
  have hne : ∀ c' j rs', c'.val < s.ncpu → s.cpus c' = .run j rs' → j ≠ i := by
    intro c' j rs' hlt hcj hji
    have := hc.running c' j rs' hlt hcj
    rw [hji, hi] at this; cases this
  refine ⟨fun c' j rs' hlt hcj => ?_, fun c₁ c₂ j rs₁ rs₂ hlt₁ hlt₂ h₁ h₂ => ?_⟩
  · rw [h.ncpu] at hlt
    rw [hcpus] at hcj
    rw [h.state]
    by_cases hc' : c' = c
    · subst hc'
      simp only [Function.update_self, Cpu.run.injEq] at hcj
      rw [if_pos hcj.1.symm]
    · rw [Function.update_of_ne hc'] at hcj
      rw [if_neg (hne c' j rs' hlt hcj)]
      exact hc.running c' j rs' hlt hcj
  · rw [h.ncpu] at hlt₁ hlt₂
    rw [hcpus] at h₁ h₂
    by_cases hc₁ : c₁ = c <;> by_cases hc₂ : c₂ = c
    · rw [hc₁, hc₂]
    · rw [hc₁, Function.update_self, Cpu.run.injEq] at h₁
      rw [Function.update_of_ne hc₂] at h₂
      exact absurd h₁.1.symm (hne c₂ j rs₂ hlt₂ h₂)
    · rw [hc₂, Function.update_self, Cpu.run.injEq] at h₂
      rw [Function.update_of_ne hc₁] at h₁
      exact absurd h₂.1.symm (hne c₁ j rs₁ hlt₁ h₁)
    · rw [Function.update_of_ne hc₁] at h₁
      rw [Function.update_of_ne hc₂] at h₂
      exact hc.unique c₁ c₂ j rs₁ rs₂ hlt₁ hlt₂ h₁ h₂

end Cpu

end Xv6
