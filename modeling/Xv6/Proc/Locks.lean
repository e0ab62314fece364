import Xv6.Lib.LockOrder

/-!
# The order of `ptable.lock` and `tickslock`

Each CPU runs kernel paths one after another. A path starts and ends with no spinlock held: a CPU
holding a spinlock has interrupts off, so the timer interrupt's path comes only between paths. The
paths differ in the order they take the two locks:

* `trap()` on IRQ_TIMER, on CPU 0 only: `tickslock`, then `ptable.lock` inside `wakeup(&ticks)`;
* `sys_sleep()`: `tickslock`, then `ptable.lock` inside `sleep()`;
* `yield()`, `allocproc()`, `fork()` and a pass of `scheduler()`: `ptable.lock`, then `tickslock`.

* `no_waitCycle_of_one_order` : CPUs whose paths all take the locks in one order never spin in a
  cycle, however many there are and however their steps interleave;
* `inverted_paths_deadlock` : a `tickslock`-first path on one CPU and a `ptable.lock`-first path on
  another reach, in one step each, a state where each spins for ever on the lock the other holds;
* `timer_yield_deadlock` : the timer interrupt on CPU 0 against `yield()` on CPU 1.
-/

namespace Xv6

open LockOrder

/-- `ptable.lock` and `tickslock`. -/
inductive Lock
  | ptable
  | tickslock
  deriving DecidableEq, Repr

/-- The kernel paths that take both locks. -/
inductive KPath
  | timer
  | sysSleep
  | yield
  | allocproc
  | fork
  | scheduler
  deriving DecidableEq, Repr

/-- `allocproc()` once it finds an UNUSED slot: `creation_time` is read under `tickslock` with
`ptable.lock` held. -/
def allocprocLocks : List (Instr Lock) :=
  [.acquire .ptable, .acquire .tickslock, .release .tickslock, .release .ptable]

/-- The lock steps of a path on a CPU; `cpu0` says whether it is CPU 0. -/
def KPath.instrs (cpu0 : Bool) : KPath → List (Instr Lock)
  | .timer =>
    if cpu0 then [.acquire .tickslock, .acquire .ptable, .release .ptable, .release .tickslock]
    else []
  -- `sleep(&ticks, &tickslock)` takes `ptable.lock` before it lets `tickslock` go, and on wakeup
  -- lets `ptable.lock` go before it takes `tickslock` again
  | .sysSleep =>
    [.acquire .tickslock, .acquire .ptable, .release .tickslock, .release .ptable,
      .acquire .tickslock, .release .tickslock]
  | .yield => [.acquire .ptable, .acquire .tickslock, .release .tickslock, .release .ptable]
  | .allocproc => allocprocLocks
  | .fork =>
    allocprocLocks ++ [.acquire .ptable, .acquire .tickslock, .release .tickslock, .release .ptable]
  -- the default build: `run_start` is read under `tickslock`, and the pass ends by releasing
  -- `ptable.lock`
  | .scheduler => [.acquire .ptable, .acquire .tickslock, .release .tickslock, .release .ptable]

/-- The paths that take `ptable.lock` first. -/
def KPath.ptableFirst : KPath → Bool
  | .timer | .sysSleep => false
  | _ => true

/-- CPU `c` is to run the paths `ps c` in turn, and no lock is held. -/
def lockInit {n : Nat} (ps : Fin n → List KPath) : State (Fin n) Lock :=
  ⟨fun c => (ps c).flatMap (KPath.instrs (c.val == 0)), fun _ => none⟩

/-- `ptable.lock` ranked below `tickslock`. -/
def ptableRank : Lock → Nat
  | .ptable => 0
  | .tickslock => 1

/-- `tickslock` ranked below `ptable.lock`. -/
def ticksRank : Lock → Nat
  | .ptable => 1
  | .tickslock => 0

/-! ## One order, no deadlock -/

theorem ptableFirst_ordered (cpu0 : Bool) (p : KPath) (hp : p.ptableFirst = true) :
    ordered ptableRank [] (p.instrs cpu0) = true ∧ heldAfter [] (p.instrs cpu0) = [] := by
  revert hp
  cases p <;> cases cpu0 <;> decide

theorem ticksFirst_ordered (cpu0 : Bool) (p : KPath) (hp : p.ptableFirst = false) :
    ordered ticksRank [] (p.instrs cpu0) = true ∧ heldAfter [] (p.instrs cpu0) = [] := by
  revert hp
  cases p <;> cases cpu0 <;> decide

/-- If every CPU's paths take `ptable.lock` first, or every CPU's take `tickslock` first, no run
reaches a cycle of spinning CPUs. -/
theorem no_waitCycle_of_one_order {n : Nat} (ps : Fin n → List KPath)
    (hone : (∀ c, ∀ p ∈ ps c, p.ptableFirst = true) ∨ (∀ c, ∀ p ∈ ps c, p.ptableFirst = false))
    {cs : List (Fin n)} {s : State (Fin n) Lock} (hrun : Run.run step (lockInit ps) cs = some s) :
    ¬WaitCycle s := by
  rcases hone with hall | hall
  · exact no_waitCycle_of_run
      (fun c => ordered_flatMap _ _ fun p hp => ptableFirst_ordered _ p (hall c p hp))
      (fun _ => rfl) hrun
  · exact no_waitCycle_of_run
      (fun c => ordered_flatMap _ _ fun p hp => ticksFirst_ordered _ p (hall c p hp))
      (fun _ => rfl) hrun

/-! ## Two orders, a deadlock -/

theorem ticksFirst_head (cpu0 : Bool) (p : KPath) (hp : p.ptableFirst = false)
    (h0 : p = .timer → cpu0 = true) :
    ∃ r, p.instrs cpu0 = .acquire .tickslock :: .acquire .ptable :: r := by
  cases p <;> simp_all [KPath.instrs, KPath.ptableFirst]

theorem ptableFirst_head (cpu0 : Bool) (p : KPath) (hp : p.ptableFirst = true) :
    ∃ r, p.instrs cpu0 = .acquire .ptable :: .acquire .tickslock :: r := by
  cases p <;> simp_all [KPath.instrs, KPath.ptableFirst, allocprocLocks]

/-- CPU `a` starts a `tickslock`-first path and CPU `b` a `ptable.lock`-first one. Once each has
taken its first lock, `a` spins on `ptable.lock`, which `b` holds, and `b` on `tickslock`, which
`a` holds, whatever any CPU does next. -/
theorem inverted_paths_deadlock {n : Nat} (ps : Fin n → List KPath) {a b : Fin n} (hab : a ≠ b)
    {p q : KPath} {ra rb : List KPath} (ha : ps a = p :: ra) (hb : ps b = q :: rb)
    (hp : p.ptableFirst = false) (hp0 : p = .timer → a.val = 0) (hq : q.ptableFirst = true) :
    ∃ s, Run.run step (lockInit ps) [a, b] = some s ∧
      s.holder .tickslock = some a ∧ s.holder .ptable = some b ∧
      (∃ r, s.prog a = .acquire .ptable :: r) ∧ (∃ r, s.prog b = .acquire .tickslock :: r) ∧
      ∀ cs t, Run.run step s cs = some t → Waits t a b ∧ Waits t b a := by
  obtain ⟨r, hr⟩ := ticksFirst_head (a.val == 0) p hp fun h => by simpa using hp0 h
  obtain ⟨r', hr'⟩ := ptableFirst_head (b.val == 0) q hq
  have h0a : (lockInit ps).prog a = .acquire .tickslock :: .acquire .ptable ::
      (r ++ ra.flatMap (KPath.instrs (a.val == 0))) := by simp [lockInit, ha, hr]
  have h0b : (lockInit ps).prog b = .acquire .ptable :: .acquire .tickslock ::
      (r' ++ rb.flatMap (KPath.instrs (b.val == 0))) := by simp [lockInit, hb, hr']
  -- CPU `a` takes `tickslock`
  obtain ⟨s1, h1, ha1, hb1, hticks1, hfree1⟩ : ∃ s1, step (lockInit ps) a = some s1 ∧
      s1.prog a = .acquire .ptable :: (r ++ ra.flatMap (KPath.instrs (a.val == 0))) ∧
      s1.prog b = (lockInit ps).prog b ∧ s1.holder .tickslock = some a ∧
      s1.holder .ptable = none :=
    ⟨_, step_acquire h0a rfl, by simp, by simp [Function.update_of_ne (Ne.symm hab)], by simp,
      by simp [lockInit]⟩
  -- then CPU `b` takes `ptable.lock`
  have h2 := step_acquire (hb1.trans h0b) hfree1
  have ha2 : (Function.update s1.prog b (.acquire .tickslock ::
      (r' ++ rb.flatMap (KPath.instrs (b.val == 0))))) a =
      .acquire .ptable :: (r ++ ra.flatMap (KPath.instrs (a.val == 0))) := by
    rw [Function.update_of_ne hab, ha1]
  refine ⟨_, by rw [Run.run_cons_of_step h1, Run.run_singleton, h2], by simpa using hticks1,
    by simp, ⟨_, ha2⟩, ⟨_, Function.update_self ..⟩, fun cs t hrun => ?_⟩
  exact waits_pair_of_run ⟨.ptable, _, ha2, by simp⟩
    ⟨.tickslock, _, Function.update_self .., by simpa using hticks1⟩ hrun

/-- CPU 0 takes a timer interrupt while CPU 1 yields. -/
theorem timer_yield_deadlock :
    ∃ s, Run.run step (lockInit fun c : Fin 2 => if c = 0 then [KPath.timer] else [.yield]) [0, 1] =
        some s ∧
      s.holder .tickslock = some 0 ∧ s.holder .ptable = some 1 ∧
      (∃ r, s.prog 0 = .acquire .ptable :: r) ∧ (∃ r, s.prog 1 = .acquire .tickslock :: r) ∧
      ∀ cs t, Run.run step s cs = some t → Waits t 0 1 ∧ Waits t 1 0 :=
  inverted_paths_deadlock _ (by decide) rfl rfl rfl (fun _ => rfl) rfl

end Xv6
