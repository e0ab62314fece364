import Xv6.Proc.Lifecycle

/-!
# `sleep` and `wakeup` under the locking convention

A process waits for a condition guarded by a spinlock `lk`: it tests the condition holding `lk`
and calls `sleep(chan, lk)` if it is false. A process that changes the condition does so holding
`lk` and calls `wakeup(chan)` before it lets `lk` go. Each channel has its lock (`lockOf`), which
may be `ptable.lock` itself, as for `wait` and `exit`.

`sleep` runs here line by line at its lock operations: `acquire(&ptable.lock)`, `release(lk)`,
the state change and `sched()`, and once a scheduler has run the process again `p->chan = 0`,
`release(&ptable.lock)` and `acquire(lk)`. `wakeup` (the `ptable.lock` region around `wakeup1`),
`kill` and `yield` are one step each, and a CPU's scheduler may dispatch any RUNNABLE process.

* `Spin`, `Conv`, `ConvSys`, `convStep` : the spinlocks, where a process stands in the convention,
  the state, and its steps;
* `ConvInv` : each held lock is held by the one process whose place says so; every process has
  the state and channel its place gives; a CPU runs a RUNNING process and no other CPU runs it; a
  process that found its condition false and sleeps on it finds it false still, or a `wakeup` is
  on its way;
* `sleep_wakeup_no_lost` : `wakeup(chan)` leaves every process inside `sleep(chan, lk)` RUNNABLE
  or RUNNING, `sleep` returns holding `lk` with `p->chan` cleared, and no process sleeps on a true
  condition unless a `wakeup` is pending.
-/

namespace Xv6

/-- A spinlock: `ptable.lock`, or another one (`tickslock`, a pipe's lock, the log's, a sleep-lock's
`lk`, `idelock`) named by its address. -/
inductive Spin where
  | ptable
  | other (a : Nat)
  deriving DecidableEq, Repr

/-- Where a process stands in the convention; `ch` is the channel of its condition, and the lock
of `ch` is the `lk` it passes to `sleep`. -/
inductive Conv where
  /-- Holds no spinlock. -/
  | free
  /-- Holds `lk`: it may test a condition guarded by `lk`, change it, or sleep on it. -/
  | holds (lk : Spin)
  /-- Changed the condition of `ch` holding its lock; `wakeup(ch)` comes next. -/
  | changed (ch : Chan)
  /-- In `sleep(ch, lk)`, `lk` not `ptable.lock`: at `acquire(&ptable.lock)`. -/
  | sleepAcquire (ch : Chan)
  /-- In `sleep(ch, lk)`, holding `ptable.lock` and `lk`: at `release(lk)`. -/
  | sleepRelease (ch : Chan)
  /-- In `sleep(ch, lk)`, holding `ptable.lock`: the metrics, `p->chan`, SLEEPING, `sched()`. -/
  | sleepSched (ch : Chan)
  /-- Off the CPU, in the `sched()` of `sleep(ch, lk)`. -/
  | asleep (ch : Chan)
  /-- Back from the `sched()` of `sleep(ch, lk)`, holding `ptable.lock`: at `p->chan = 0`. -/
  | sleepWoken (ch : Chan)
  /-- In `sleep(ch, lk)` after `release(&ptable.lock)`: at `acquire(lk)`. -/
  | sleepReacquire (ch : Chan)
  /-- Off the CPU, in the `sched()` of `yield()`. -/
  | yielded
  deriving DecidableEq, Repr

/-- What the process on a CPU does next. -/
inductive ConvAct where
  | acquire (lk : Spin)
  | release
  /-- Set the condition of `ch` to `v`. -/
  | change (ch : Chan) (v : Bool)
  | wakeup
  | sleep (ch : Chan)
  /-- The next line of `sleep`. -/
  | next
  | kill (pid : Int32)
  | yield
  deriving DecidableEq, Repr

/-- A step: the process on CPU `c` acts, or CPU `c`'s scheduler dispatches slot `i`. -/
inductive ConvEvent where
  | run (c : Fin NCPU) (a : ConvAct)
  | dispatch (c : Fin NCPU) (i : Fin NPROC)
  deriving DecidableEq, Repr

/-- The process table and CPUs, the spinlocks' holders (`lk->locked` with its owner), where each
process stands, and the conditions. -/
structure ConvSys where
  sys : Sys
  holder : Spin → Option (Fin NPROC)
  conv : Fin NPROC → Conv
  cond : Chan → Bool

/-- Where a process dispatched by a scheduler goes on: the rest of `sleep` after `sched()`, or the
`release(&ptable.lock)` that ends `yield()`. -/
def Conv.resume : Conv → Conv
  | .asleep ch => .sleepWoken ch
  | .yielded => .holds .ptable
  | c => c

section Step

variable (lockOf : Chan → Spin)

/-- The next line of `sleep(ch, lk)` for the process in slot `i` on CPU `c`. After `sched()` the
scheduler's pass ends with `release(&ptable.lock)`. -/
def sleepNext (c : Fin NCPU) (i : Fin NPROC) (s : ConvSys) : Option ConvSys :=
  match s.conv i with
  | .sleepAcquire ch =>
    if s.holder .ptable = none then
      some { s with
        conv := Function.update s.conv i (.sleepRelease ch)
        holder := Function.update s.holder .ptable (some i) }
    else none
  | .sleepRelease ch =>
    some { s with
      conv := Function.update s.conv i (.sleepSched ch)
      holder := Function.update s.holder (lockOf ch) none }
  | .sleepSched ch =>
    some { s with
      sys := schedOut .default c (sleep i ch s.sys)
      conv := Function.update s.conv i (.asleep ch)
      holder := Function.update s.holder .ptable none }
  | .sleepWoken ch =>
    if lockOf ch = .ptable then
      some { s with
        sys := s.sys.setProc i { s.sys.proc i with chan := none }
        conv := Function.update s.conv i (.holds .ptable) }
    else
      some { s with
        sys := s.sys.setProc i { s.sys.proc i with chan := none }
        conv := Function.update s.conv i (.sleepReacquire ch)
        holder := Function.update s.holder .ptable none }
  | .sleepReacquire ch =>
    if s.holder (lockOf ch) = none then
      some { s with
        conv := Function.update s.conv i (.holds (lockOf ch))
        holder := Function.update s.holder (lockOf ch) (some i) }
    else none
  | _ => none

/-- The process in slot `i`, on CPU `c`, acts. `sleep(ch, lk)` is called holding `lk`, the lock of
`ch`, when the condition is false; `wakeup(ch)` takes `ptable.lock` unless `lk` is `ptable.lock`,
which the caller then holds already. -/
def convAct (c : Fin NCPU) (i : Fin NPROC) (s : ConvSys) : ConvAct → Option ConvSys
  | .acquire lk =>
    if s.conv i = .free ∧ s.holder lk = none then
      some { s with
        conv := Function.update s.conv i (.holds lk)
        holder := Function.update s.holder lk (some i) }
    else none
  | .release =>
    match s.conv i with
    | .holds lk =>
      some { s with
        conv := Function.update s.conv i .free
        holder := Function.update s.holder lk none }
    | _ => none
  | .change ch v =>
    if s.conv i = .holds (lockOf ch) then
      some { s with
        conv := Function.update s.conv i (.changed ch)
        cond := Function.update s.cond ch v }
    else none
  | .wakeup =>
    match s.conv i with
    | .changed ch =>
      if lockOf ch = .ptable ∨ s.holder .ptable = none then
        some { s with
          sys := wakeup1 (some ch) s.sys
          conv := Function.update s.conv i (.holds (lockOf ch)) }
      else none
    | _ => none
  | .sleep ch =>
    if s.conv i = .holds (lockOf ch) ∧ s.cond ch = false then
      some { s with
        conv := Function.update s.conv i
          (if lockOf ch = .ptable then .sleepSched ch else .sleepAcquire ch) }
    else none
  | .next => sleepNext lockOf c i s
  | .kill pid =>
    if s.conv i = .free ∧ s.holder .ptable = none then some { s with sys := (kill pid s.sys).1 }
    else none
  | .yield =>
    if s.conv i = .free ∧ s.holder .ptable = none then
      some { s with
        sys := schedOut .default c (yield i s.sys)
        conv := Function.update s.conv i .yielded }
    else none

/-- One step: the process on CPU `c` acts, or CPU `c`'s scheduler takes `ptable.lock` and
dispatches a RUNNABLE slot, which goes on holding the lock. -/
def convStep (s : ConvSys) : ConvEvent → Option ConvSys
  | .run c a => (s.sys.running c).bind fun (i, _) => convAct lockOf c i s a
  | .dispatch c j =>
    match s.sys.cpus c with
    | .sched _ =>
      if c.val < s.sys.ncpu ∧ s.holder .ptable = none ∧ (s.sys.proc j).state = .runnable then
        some { s with
          sys := dispatchDefault c j s.sys
          holder := Function.update s.holder .ptable (some j)
          conv := Function.update s.conv j (s.conv j).resume }
      else none
    | .run _ _ => none

end Step

/-- Every slot RUNNABLE as after a `yield()`, every CPU in its scheduler, no spinlock held, the
conditions `cond`. -/
def convInit (ncpu : Nat) (cond : Chan → Bool) : ConvSys where
  sys := { boot ncpu with proc := fun _ => { Proc.zero with state := .runnable } }
  holder := fun _ => none
  conv := fun _ => .yielded
  cond := cond

/-! ## Places -/

section Places

variable (lockOf : Chan → Spin)

/-- The spinlocks a process holds at its place. -/
def Conv.Holds : Conv → Spin → Prop
  | .holds lk, l => l = lk
  | .changed ch, l => l = lockOf ch
  | .sleepAcquire ch, l => l = lockOf ch
  | .sleepRelease ch, l => l = lockOf ch ∨ l = .ptable
  | .sleepSched _, l => l = .ptable
  | .sleepWoken _, l => l = .ptable
  | _, _ => False

/-- The moves of a process's place: the control flow of the convention, `sleep` included. -/
inductive Conv.Next : Conv → Conv → Prop
  | acquire (lk : Spin) : Conv.Next .free (.holds lk)
  | release (lk : Spin) : Conv.Next (.holds lk) .free
  | change (ch : Chan) : Conv.Next (.holds (lockOf ch)) (.changed ch)
  | wakeup (ch : Chan) : Conv.Next (.changed ch) (.holds (lockOf ch))
  | sleep (ch : Chan) : Conv.Next (.holds (lockOf ch)) (.sleepSched ch)
  | sleepAcquire (ch : Chan) : Conv.Next (.holds (lockOf ch)) (.sleepAcquire ch)
  | sleepRelease (ch : Chan) : Conv.Next (.sleepAcquire ch) (.sleepRelease ch)
  | sleepSched (ch : Chan) : Conv.Next (.sleepRelease ch) (.sleepSched ch)
  | sched (ch : Chan) : Conv.Next (.sleepSched ch) (.asleep ch)
  | woken (ch : Chan) : Conv.Next (.asleep ch) (.sleepWoken ch)
  | tidy (ch : Chan) : lockOf ch = .ptable → Conv.Next (.sleepWoken ch) (.holds .ptable)
  | reacquire (ch : Chan) : Conv.Next (.sleepWoken ch) (.sleepReacquire ch)
  | ret (ch : Chan) : Conv.Next (.sleepReacquire ch) (.holds (lockOf ch))
  | yield : Conv.Next .free .yielded
  | yielded : Conv.Next .yielded (.holds .ptable)

end Places

/-- The places of a process on a CPU that carry no channel. -/
def Conv.Plain : Conv → Prop
  | .asleep _ | .yielded | .sleepWoken _ => False
  | _ => True

/-- The state and channel of a process at its place. -/
def Conv.Fits (p : Proc) : Conv → Prop
  | .asleep ch => (p.state = .sleeping ∨ p.state = .runnable) ∧ p.chan = some ch
  | .yielded => p.state = .runnable ∧ p.chan = none
  | .sleepWoken ch => p.state = .running ∧ p.chan = some ch
  | _ => p.state = .running ∧ p.chan = none

/-- Inside `sleep(ch, lk)`: called and not returned. -/
def Conv.InSleep (ch : Chan) : Conv → Prop
  | .sleepAcquire ch' | .sleepRelease ch' | .sleepSched ch' | .asleep ch' | .sleepWoken ch'
  | .sleepReacquire ch' => ch' = ch
  | _ => False

/-- In `sleep(ch, lk)` having found the condition false, and not woken since. -/
def Conv.Waits (ch : Chan) (p : Proc) : Conv → Prop
  | .sleepAcquire ch' | .sleepRelease ch' | .sleepSched ch' => ch' = ch
  | .asleep ch' => ch' = ch ∧ p.state = .sleeping
  | _ => False

theorem Conv.fits_plain {c : Conv} (hc : c.Plain) (p : Proc) :
    c.Fits p ↔ p.state = .running ∧ p.chan = none := by
  cases c <;> simp_all [Conv.Fits, Conv.Plain]

/-- A process's place after `sleep` returns: holding the lock it passed. -/
theorem Conv.Next.ret_holds {lockOf : Chan → Spin} {c : Conv} {ch : Chan} {lk : Spin}
    (hin : c.InSleep ch) (h : Conv.Next lockOf c (.holds lk)) : lk = lockOf ch := by
  cases h <;> simp_all [Conv.InSleep]

/-! ## What the kernel's functions do to a slot's state and channel -/

theorem wakeup1_chan (ch : Option Chan) (s : Sys) (j : Fin NPROC) :
    ((wakeup1 ch s).proc j).chan = (s.proc j).chan := rfl

theorem kill_chan (pid : Int32) (s : Sys) (j : Fin NPROC) :
    ((kill pid s).1.proc j).chan = (s.proc j).chan := by
  unfold kill
  split
  · rfl
  · next i _ =>
    by_cases hj : j = i
    · subst hj; simp
    · simp [hj]

theorem schedReturn_chan (b : Sched) (c : Fin NCPU) (i : Fin NPROC) (rs : UInt32) (s : Sys)
    (j : Fin NPROC) : ((schedReturn b c i rs s).proc j).chan = (s.proc j).chan := by
  cases b <;>
  · by_cases hj : j = i
    · subst hj; simp [schedReturn]
    · simp [schedReturn, hj]

theorem dispatchDefault_chan (c : Fin NCPU) (i : Fin NPROC) (s : Sys) (j : Fin NPROC) :
    ((dispatchDefault c i s).proc j).chan = (s.proc j).chan := by
  by_cases hj : j = i
  · subst hj; simp [dispatchDefault]
  · simp [dispatchDefault, hj]

theorem sleep_proc (i : Fin NPROC) (ch : Chan) (s : Sys) (j : Fin NPROC) :
    ((sleep i ch s).proc j).state = (if j = i then .sleeping else (s.proc j).state) ∧
      ((sleep i ch s).proc j).chan = if j = i then some ch else (s.proc j).chan := by
  by_cases hj : j = i
  · subst hj; simp [sleep]
  · simp [sleep, hj]

theorem yield_proc (i : Fin NPROC) (s : Sys) (j : Fin NPROC) :
    ((yield i s).proc j).state = (if j = i then .runnable else (s.proc j).state) ∧
      ((yield i s).proc j).chan = (s.proc j).chan := by
  by_cases hj : j = i
  · subst hj; simp [yield]
  · simp [yield, hj]

/-- A place's state and channel survive a step that keeps the channel and at most wakes. -/
theorem Conv.Fits.wake {c : Conv} {p p' : Proc} (h : c.Fits p)
    (hst : p'.state = p.state ∨ (p.state = .sleeping ∧ p'.state = .runnable))
    (hch : p'.chan = p.chan) : c.Fits p' := by
  rcases hst with hst | ⟨hs, hs'⟩
  · cases c <;> simp_all [Conv.Fits]
  · cases c <;> simp_all [Conv.Fits]

/-! ## The invariant -/

section Inv

variable (lockOf : Chan → Spin)

/-- The invariant of the convention. -/
structure ConvInv (s : ConvSys) : Prop where
  /-- A lock's holder is the process whose place holds it. -/
  holder : ∀ l i, s.holder l = some i ↔ (s.conv i).Holds lockOf l
  fits : ∀ i, (s.conv i).Fits (s.sys.proc i)
  /-- `sleep` takes `ptable.lock` and lets `lk` go only when they differ. -/
  other_lock : ∀ i ch, s.conv i = .sleepAcquire ch ∨ s.conv i = .sleepRelease ch →
    lockOf ch ≠ .ptable
  cpu : CpuInv s.sys
  /-- No process waits on a true condition unless a `wakeup` is pending. -/
  waits : ∀ q ch, (s.conv q).Waits ch (s.sys.proc q) → s.cond ch = true →
    ∃ p, s.conv p = .changed ch

variable {lockOf}

theorem convInv_init (ncpu : Nat) (cond : Chan → Bool) : ConvInv lockOf (convInit ncpu cond) where
  holder l i := by simp [convInit, Conv.Holds]
  fits i := by simp [convInit, Conv.Fits, Proc.zero]
  other_lock i ch h := by simp [convInit] at h
  cpu := ⟨fun c i rs _ h => by simp [convInit, boot] at h,
    fun c c' i rs rs' _ _ h => by simp [convInit, boot] at h⟩
  waits q ch h := by simp [convInit, Conv.Waits] at h

/-! ### Facts about places -/

theorem Conv.Waits.of_sleeping {c : Conv} {ch : Chan} {p p' : Proc} (h : c.Waits ch p')
    (hs : p'.state = .sleeping → p.state = .sleeping) : c.Waits ch p := by
  cases c <;> simp_all [Conv.Waits]

theorem Conv.Waits.inSleep {c : Conv} {ch : Chan} {p : Proc} (h : c.Waits ch p) : c.InSleep ch := by
  cases c <;> simp_all [Conv.Waits, Conv.InSleep]

/-- Only a process off its CPU is RUNNABLE. -/
theorem Conv.Fits.runnable {c : Conv} {p : Proc} (h : c.Fits p) (hr : p.state = .runnable) :
    (∃ ch, c = .asleep ch ∧ p.chan = some ch) ∨ (c = .yielded ∧ p.chan = none) := by
  cases c <;> simp_all [Conv.Fits]

/-- The holders after process `i` moves to `x`, the holders changing only for `i`. -/
theorem holder_update {h h' : Spin → Option (Fin NPROC)} {cv : Fin NPROC → Conv}
    (hh : ∀ l j, h l = some j ↔ (cv j).Holds lockOf l) {i : Fin NPROC} {x : Conv}
    (hi : ∀ l, h' l = some i ↔ x.Holds lockOf l)
    (hj : ∀ l j, j ≠ i → (h' l = some j ↔ h l = some j)) :
    ∀ l j, h' l = some j ↔ (Function.update cv i x j).Holds lockOf l := by
  intro l j
  by_cases hji : j = i
  · subst hji
    simpa using hi l
  · rw [Function.update_of_ne hji, hj l j hji, hh]

/-- Process `i` taking or letting go of `lk` changes no other process's holdings. -/
theorem update_holder_ne {h : Spin → Option (Fin NPROC)} {lk : Spin} {v : Option (Fin NPROC)}
    {i j : Fin NPROC} (hv : v = none ∨ v = some i) (hlk : h lk = none ∨ h lk = some i)
    (hji : j ≠ i) (l : Spin) : Function.update h lk v l = some j ↔ h l = some j := by
  by_cases hl : l = lk
  · subst hl
    have hne : some i ≠ some j := fun e => hji (Option.some.inj e).symm
    rcases hv with rfl | rfl <;> rcases hlk with e | e <;> simp [e, hne]
  · rw [Function.update_of_ne hl]

theorem other_lock_update {cv : Fin NPROC → Conv}
    (h : ∀ j ch, cv j = .sleepAcquire ch ∨ cv j = .sleepRelease ch → lockOf ch ≠ .ptable)
    {i : Fin NPROC} {x : Conv}
    (hx : ∀ ch, x = .sleepAcquire ch ∨ x = .sleepRelease ch → lockOf ch ≠ .ptable) :
    ∀ j ch, Function.update cv i x j = .sleepAcquire ch ∨ Function.update cv i x j = .sleepRelease ch →
      lockOf ch ≠ .ptable := by
  intro j ch hj
  by_cases hji : j = i
  · subst hji
    rw [Function.update_self] at hj
    exact hx ch hj
  · rw [Function.update_of_ne hji] at hj
    exact h j ch hj

/-- The `waits` field after process `i` moves to `x`: the other processes at most wake, the
conditions that became true have a pending `wakeup`, `x` waits only where `i` did or on a false
condition, and `i` had no `wakeup` pending. -/
theorem waits_of_move {s t : ConvSys} (hi : ConvInv lockOf s) {i : Fin NPROC} {x : Conv}
    (hconv : t.conv = Function.update s.conv i x)
    (hcond : ∀ ch, t.cond ch = true → s.cond ch = true ∨ ∃ p, t.conv p = .changed ch)
    (hsleep : ∀ j, j ≠ i → (t.sys.proc j).state = .sleeping → (s.sys.proc j).state = .sleeping)
    (hx : ∀ ch, x.Waits ch (t.sys.proc i) → t.cond ch = true → (s.conv i).Waits ch (s.sys.proc i))
    (hold : ∀ ch, s.conv i ≠ .changed ch) :
    ∀ q ch, (t.conv q).Waits ch (t.sys.proc q) → t.cond ch = true → ∃ p, t.conv p = .changed ch := by
  intro q ch hq hc
  rcases hcond ch hc with hc' | hp
  · have hs : (s.conv q).Waits ch (s.sys.proc q) := by
      rw [hconv] at hq
      by_cases hqi : q = i
      · subst hqi
        rw [Function.update_self] at hq
        exact hx ch hq hc
      · rw [Function.update_of_ne hqi] at hq
        exact hq.of_sleeping (hsleep q hqi)
    obtain ⟨p, hp⟩ := hi.waits q ch hs hc'
    refine ⟨p, ?_⟩
    rw [hconv, Function.update_of_ne]
    · exact hp
    · rintro rfl
      exact hold ch hp
  · exact hp

/-- A process keeps its state and channel across a move between places without a channel. -/
theorem Conv.Fits.plain {c x : Conv} {p : Proc} (h : c.Fits p) (hc : c.Plain) (hx : x.Plain) :
    x.Fits p :=
  (Conv.fits_plain hx p).mpr ((Conv.fits_plain hc p).mp h)

/-- Process `i` taking or letting go of the lock `lk` alone, its place becoming `x`: it holds `lk`
as `x` says, and every other lock as its place said before. -/
theorem ConvInv.holder_move {s : ConvSys} (hi : ConvInv lockOf s) {i : Fin NPROC} {x : Conv}
    {lk : Spin} {v : Option (Fin NPROC)} (hlk : v = some i ↔ x.Holds lockOf lk)
    (hrest : ∀ l, l ≠ lk → (x.Holds lockOf l ↔ (s.conv i).Holds lockOf l)) (l : Spin) :
    Function.update s.holder lk v l = some i ↔ x.Holds lockOf l := by
  by_cases hl : l = lk
  · subst hl
    rw [Function.update_self]
    exact hlk
  · rw [Function.update_of_ne hl, hi.holder, hrest l hl]

/-- Process `i` moves to the place `x`, which fits its new state and channel; the other processes
at most wake and keep their channels. -/
theorem ConvInv.move {s t : ConvSys} (hi : ConvInv lockOf s) {i : Fin NPROC} {x : Conv}
    (hconv : t.conv = Function.update s.conv i x) (hfit : x.Fits (t.sys.proc i))
    (hwake : ∀ j, j ≠ i → ((t.sys.proc j).state = (s.sys.proc j).state ∨
      ((s.sys.proc j).state = .sleeping ∧ (t.sys.proc j).state = .runnable)) ∧
      (t.sys.proc j).chan = (s.sys.proc j).chan)
    (hcpu : CpuInv t.sys)
    (hholder : ∀ l, t.holder l = some i ↔ x.Holds lockOf l)
    (hother : ∀ l j, j ≠ i → (t.holder l = some j ↔ s.holder l = some j))
    (hlock : ∀ ch, x = .sleepAcquire ch ∨ x = .sleepRelease ch → lockOf ch ≠ .ptable)
    (hwaits : ∀ q ch, (t.conv q).Waits ch (t.sys.proc q) → t.cond ch = true →
      ∃ p, t.conv p = .changed ch) : ConvInv lockOf t where
  holder := by
    rw [hconv]
    exact holder_update hi.holder hholder hother
  fits j := by
    rw [hconv]
    by_cases hji : j = i
    · subst hji
      rwa [Function.update_self]
    · rw [Function.update_of_ne hji]
      exact (hi.fits j).wake (hwake j hji).1 (hwake j hji).2
  other_lock := by
    rw [hconv]
    exact other_lock_update hi.other_lock hlock
  cpu := hcpu
  waits := hwaits

/-! ### One lemma per action -/

variable {s t : ConvSys} {c : Fin NCPU} {i : Fin NPROC}

/-- The table does not change. -/
theorem same_sys (s : Sys) (j : Fin NPROC) : ((s.proc j).state = (s.proc j).state ∨
    ((s.proc j).state = .sleeping ∧ (s.proc j).state = .runnable)) ∧
    (s.proc j).chan = (s.proc j).chan :=
  ⟨Or.inl rfl, rfl⟩

theorem ConvInv.acquire (hi : ConvInv lockOf s) {lk : Spin}
    (h : convAct lockOf c i s (.acquire lk) = some t) : ConvInv lockOf t := by
  simp only [convAct] at h
  split at h
  · next hg =>
    cases h
    obtain ⟨hfree, hlk⟩ := hg
    refine hi.move rfl ((hi.fits i).plain (by simp [hfree, Conv.Plain]) trivial)
      (fun j _ => same_sys s.sys j) hi.cpu (fun l => ?_)
      (fun l j hji => update_holder_ne (Or.inr rfl) (Or.inl hlk) hji l) (by simp)
      (waits_of_move hi rfl (fun _ h => Or.inl h) (fun _ _ h => h)
        (fun ch h => by simp [Conv.Waits] at h) (fun ch => by simp [hfree]))
    exact hi.holder_move (by simp [Conv.Holds]) (fun l hl => by simp [hfree, Conv.Holds, hl]) l
  · cases h

theorem ConvInv.release (hi : ConvInv lockOf s) (h : convAct lockOf c i s .release = some t) :
    ConvInv lockOf t := by
  simp only [convAct] at h
  split at h
  · next lk hheld =>
    cases h
    have hlk : s.holder lk = some i := (hi.holder lk i).mpr (by simp [hheld, Conv.Holds])
    refine hi.move rfl ((hi.fits i).plain (by simp [hheld, Conv.Plain]) trivial)
      (fun j _ => same_sys s.sys j) hi.cpu (fun l => ?_)
      (fun l j hji => update_holder_ne (Or.inl rfl) (Or.inr hlk) hji l) (by simp)
      (waits_of_move hi rfl (fun _ h => Or.inl h) (fun _ _ h => h)
        (fun ch h => by simp [Conv.Waits] at h) (fun ch => by simp [hheld]))
    exact hi.holder_move (by simp [Conv.Holds]) (fun l hl => by simp [hheld, Conv.Holds, hl]) l
  · cases h

theorem ConvInv.change (hi : ConvInv lockOf s) {ch : Chan} {v : Bool}
    (h : convAct lockOf c i s (.change ch v) = some t) : ConvInv lockOf t := by
  simp only [convAct] at h
  split at h
  · next hheld =>
    cases h
    refine hi.move rfl ((hi.fits i).plain (by simp [hheld, Conv.Plain]) trivial)
      (fun j _ => same_sys s.sys j) hi.cpu (fun l => by rw [hi.holder, hheld]; simp [Conv.Holds])
      (fun l j _ => Iff.rfl) (by simp)
      (waits_of_move hi rfl (fun ch' hc => ?_) (fun _ _ h => h)
        (fun ch h => by simp [Conv.Waits] at h) (fun ch => by simp [hheld]))
    -- the changed condition has its `wakeup` pending: `i`'s
    by_cases hch : ch' = ch
    · subst hch
      exact Or.inr ⟨i, by simp⟩
    · exact Or.inl (by simpa [Function.update_of_ne hch] using hc)
  · cases h

/-- When process `i` can run `wakeup(ch)`, every other process inside `sleep(ch, lk)` is off its
CPU or past `release(&ptable.lock)`: at the other places it would hold `lk` or `ptable.lock`. -/
theorem ConvInv.inSleep_of_wakeup (hi : ConvInv lockOf s) {ch : Chan} (hch : s.conv i = .changed ch)
    (hg : lockOf ch = .ptable ∨ s.holder .ptable = none) {q : Fin NPROC}
    (hq : (s.conv q).InSleep ch) : s.conv q = .asleep ch ∨ s.conv q = .sleepReacquire ch := by
  have hlk : s.holder (lockOf ch) = some i := (hi.holder _ i).mpr (by simp [hch, Conv.Holds])
  have hne : ∀ l, (s.conv q).Holds lockOf l → s.holder l = some i → False := by
    intro l hl hli
    have hqi : q = i := Option.some.inj (((hi.holder l q).mpr hl).symm.trans hli)
    subst hqi
    rw [hch] at hq
    simp [Conv.InSleep] at hq
  have hpt : (s.conv q).Holds lockOf .ptable → False := by
    intro hl
    rcases hg with hg | hg
    · exact hne _ hl (hg ▸ hlk)
    · rw [(hi.holder _ q).mpr hl] at hg
      cases hg
  cases hc : s.conv q with
  | sleepAcquire ch' =>
    rw [hc] at hq hne
    subst hq
    exact (hne _ rfl hlk).elim
  | sleepRelease ch' =>
    rw [hc] at hq hne
    subst hq
    exact (hne _ (Or.inl rfl) hlk).elim
  | sleepSched ch' =>
    rw [hc] at hpt
    exact (hpt rfl).elim
  | sleepWoken ch' =>
    rw [hc] at hpt
    exact (hpt rfl).elim
  | asleep ch' =>
    rw [hc] at hq
    exact Or.inl (congrArg Conv.asleep hq)
  | sleepReacquire ch' =>
    rw [hc] at hq
    exact Or.inr (congrArg Conv.sleepReacquire hq)
  | _ =>
    rw [hc] at hq
    simp [Conv.InSleep] at hq

theorem wakeup1_state (ch : Option Chan) (s : Sys) (j : Fin NPROC) :
    ((wakeup1 ch s).proc j).state =
      if (s.proc j).sleepsOn ch then .runnable else (s.proc j).state := rfl

/-- `wakeup(ch)` leaves every other process inside `sleep(ch, lk)` RUNNABLE or RUNNING. -/
theorem ConvInv.wakeup_inSleep (hi : ConvInv lockOf s) {ch : Chan} (hch : s.conv i = .changed ch)
    (hg : lockOf ch = .ptable ∨ s.holder .ptable = none) {q : Fin NPROC}
    (hq : (s.conv q).InSleep ch) :
    ((wakeup1 (some ch) s.sys).proc q).state = .runnable ∨
      ((wakeup1 (some ch) s.sys).proc q).state = .running := by
  have hfit := hi.fits q
  rw [wakeup1_state]
  rcases hi.inSleep_of_wakeup hch hg hq with hc | hc <;> rw [hc] at hfit
  · obtain ⟨hst, hch'⟩ := hfit
    by_cases hs : (s.sys.proc q).sleepsOn (some ch)
    · simp [hs]
    · rw [if_neg hs]
      rcases hst with hst | hst
      · exact absurd ⟨hst, hch'⟩ hs
      · exact Or.inl hst
  · obtain ⟨hst, _⟩ := hfit
    have hs : ¬(s.sys.proc q).sleepsOn (some ch) := fun h => absurd (hst.symm.trans h.1) (by decide)
    simp [hs, hst]

theorem Wakes.sleeping {s t : Sys} (h : Wakes s t) {j : Fin NPROC}
    (hj : (t.proc j).state = .sleeping) : (s.proc j).state = .sleeping := by
  rcases h.state j with h' | ⟨_, h'⟩
  · rwa [← h']
  · rw [h'] at hj
    cases hj

theorem ConvInv.wakeup (hi : ConvInv lockOf s) (h : convAct lockOf c i s .wakeup = some t) :
    ConvInv lockOf t := by
  simp only [convAct] at h
  split at h
  · next ch hch =>
    split at h
    · next hg =>
      cases h
      have hw := (wakeup1_quiet (some ch) s.sys).toWakes
      refine hi.move rfl (((hi.fits i).plain (x := .holds (lockOf ch)) (by simp [hch, Conv.Plain])
          trivial).wake
          (hw.state i) rfl) (fun j _ => ⟨hw.state j, rfl⟩) (hi.cpu.quiet (wakeup1_quiet _ _))
        (fun l => by rw [hi.holder, hch]; simp [Conv.Holds]) (fun l j _ => Iff.rfl) (by simp) ?_
      intro q ch' hq hc
      have hqi : q ≠ i := by
        rintro rfl
        simp [Conv.Waits] at hq
      dsimp only at hq hc
      rw [Function.update_of_ne hqi] at hq
      have hsq : (s.conv q).Waits ch' (s.sys.proc q) := hq.of_sleeping hw.sleeping
      by_cases hch' : ch' = ch
      · -- every sleeper on `ch` is awake now
        subst hch'
        exfalso
        rcases hi.wakeup_inSleep hch hg hsq.inSleep with hst | hst <;>
        rcases hi.inSleep_of_wakeup hch hg hsq.inSleep with hc' | hc' <;>
        rw [hc'] at hq <;> simp_all [Conv.Waits]
      · obtain ⟨p, hp⟩ := hi.waits q ch' hsq hc
        have hpi : p ≠ i := by
          rintro rfl
          rw [hch] at hp
          exact hch' (Conv.changed.inj hp).symm
        exact ⟨p, by simp [Function.update_of_ne hpi, hp]⟩
    · cases h
  · cases h

theorem ConvInv.sleep (hi : ConvInv lockOf s) {ch : Chan}
    (h : convAct lockOf c i s (.sleep ch) = some t) : ConvInv lockOf t := by
  simp only [convAct] at h
  split at h
  · next hg =>
    cases h
    obtain ⟨hheld, hfalse⟩ := hg
    have hx : (if lockOf ch = .ptable then Conv.sleepSched ch else .sleepAcquire ch).Plain := by
      split <;> trivial
    refine hi.move rfl ((hi.fits i).plain (by simp [hheld, Conv.Plain]) hx)
      (fun j _ => same_sys s.sys j) hi.cpu (fun l => ?_) (fun l j _ => Iff.rfl) (fun ch' h' => ?_)
      (waits_of_move hi rfl (fun _ h => Or.inl h) (fun _ _ h => h) (fun ch' hw hc => ?_)
        (fun ch => by simp [hheld]))
    · rw [hi.holder, hheld]
      split <;> simp_all [Conv.Holds]
    · split at h' <;> simp_all
    · -- the new wait is on `ch`, whose condition is false
      have hch : ch' = ch := by
        split at hw <;> simpa [Conv.Waits] using hw.symm
      subst hch
      simp [hfalse] at hc
  · cases h

/-- `sched()` from `sleep`: SLEEPING on `ch`, off the CPU, `ptable.lock` let go by the scheduler. -/
theorem ConvInv.sleepSched (hi : ConvInv lockOf s) {rs : UInt32}
    (hrun : s.sys.running c = some (i, rs)) {ch : Chan} (hc : s.conv i = .sleepSched ch) :
    ConvInv lockOf { s with
      sys := schedOut .default c (Xv6.sleep i ch s.sys)
      conv := Function.update s.conv i (.asleep ch)
      holder := Function.update s.holder .ptable none } := by
  obtain ⟨_, hci⟩ := Sys.running_eq_some.mp hrun
  have hpt : s.holder .ptable = some i := (hi.holder _ i).mpr (by simp [hc, Conv.Holds])
  have hout : schedOut .default c (Xv6.sleep i ch s.sys) = schedReturn .default c i rs (Xv6.sleep i ch s.sys) :=
    schedOut_of_run hci
  have hpark := schedReturn_parks .default c i rs (Xv6.sleep i ch s.sys)
  have hproc : ∀ j, ((schedOut .default c (Xv6.sleep i ch s.sys)).proc j).state =
        (if j = i then .sleeping else (s.sys.proc j).state) ∧
      ((schedOut .default c (Xv6.sleep i ch s.sys)).proc j).chan =
        (if j = i then some ch else (s.sys.proc j).chan) := by
    intro j
    rw [hout, hpark.state, schedReturn_chan]
    exact sleep_proc i ch s.sys j
  refine hi.move rfl ?_ (fun j hji => ?_) ?_ (fun l => ?_)
    (fun l j hji => update_holder_ne (Or.inl rfl) (Or.inr hpt) hji l) (by simp)
    (waits_of_move hi rfl (fun _ h => Or.inl h) (fun j hji h => ?_)
      (fun ch' hw _ => by rw [hc]; simpa [Conv.Waits] using hw.1) (fun ch => by simp [hc]))
  · simp [Conv.Fits, hproc]
  · simp [hproc, hji]
  · show CpuInv (schedOut .default c (Xv6.sleep i ch s.sys))
    rw [hout]
    exact hi.cpu.leave (t := Xv6.sleep i ch s.sys) hrun
      (fun j hji hj => by simpa [sleep_proc, hji] using hj) rfl rfl
  · exact hi.holder_move (by simp [Conv.Holds]) (fun l hl => by simp [hc, Conv.Holds, hl]) l
  · simpa [hproc, hji] using h

/-- `p->chan = 0` after `sched()` returns in `sleep`; with `lk` other than `ptable.lock`, then
`release(&ptable.lock)`. -/
theorem ConvInv.sleepWoken (hi : ConvInv lockOf s) {ch : Chan} (hc : s.conv i = .sleepWoken ch)
    {x : Conv}
    (hx : x = .holds .ptable ∧ lockOf ch = .ptable ∨ x = .sleepReacquire ch ∧ lockOf ch ≠ .ptable)
    {h' : Spin → Option (Fin NPROC)}
    (hh : h' = if lockOf ch = .ptable then s.holder else Function.update s.holder .ptable none) :
    ConvInv lockOf { s with
      sys := s.sys.setProc i { s.sys.proc i with chan := none }
      conv := Function.update s.conv i x
      holder := h' } := by
  have hpt : s.holder .ptable = some i := (hi.holder _ i).mpr (by simp [hc, Conv.Holds])
  have hq := setProc_quiet s.sys i { s.sys.proc i with chan := none } rfl rfl rfl
  have hrun : (s.sys.proc i).state = .running := by
    have := hi.fits i
    rw [hc] at this
    exact this.1
  refine hi.move rfl ?_ (fun j hji => ?_) (hi.cpu.quiet hq) (fun l => ?_) (fun l j hji => ?_)
    (by rcases hx with ⟨rfl, _⟩ | ⟨rfl, _⟩ <;> simp)
    (waits_of_move hi rfl (fun _ h => Or.inl h) (fun _ _ h => hq.sleeping h)
      (fun ch' hw _ => by rcases hx with ⟨rfl, _⟩ | ⟨rfl, _⟩ <;> simp [Conv.Waits] at hw)
      (fun ch => by simp [hc]))
  · rcases hx with ⟨rfl, _⟩ | ⟨rfl, _⟩ <;> simp [Conv.Fits, hrun]
  · simp [hji]
  · dsimp only
    rcases hx with ⟨rfl, hpl⟩ | ⟨rfl, hpl⟩
    · simp only [hh, hpl, if_true]
      rw [hi.holder, hc]
      simp [Conv.Holds]
    · simp only [hh, hpl, if_false]
      exact hi.holder_move (by simp [Conv.Holds]) (fun l hl => by simp [hc, Conv.Holds, hl]) l
  · dsimp only
    rcases hx with ⟨_, hpl⟩ | ⟨_, hpl⟩
    · simp only [hh, hpl, if_true]
    · simp only [hh, hpl, if_false]
      exact update_holder_ne (Or.inl rfl) (Or.inr hpt) hji l

theorem ConvInv.sleepNext (hi : ConvInv lockOf s) {rs : UInt32}
    (hrun : s.sys.running c = some (i, rs)) (h : sleepNext lockOf c i s = some t) :
    ConvInv lockOf t := by
  unfold Xv6.sleepNext at h
  split at h
  · -- `acquire(&ptable.lock)`
    next ch hc =>
    split at h
    · next hpt =>
      cases h
      refine hi.move rfl ((hi.fits i).plain (by simp [hc, Conv.Plain]) trivial)
        (fun j _ => same_sys s.sys j) hi.cpu (fun l => ?_)
        (fun l j hji => update_holder_ne (Or.inr rfl) (Or.inl hpt) hji l) (fun ch' h' => ?_)
        (waits_of_move hi rfl (fun _ h => Or.inl h) (fun _ _ h => h)
          (fun ch' hw _ => by rw [hc]; simpa [Conv.Waits] using hw) (fun ch => by simp [hc]))
      · exact hi.holder_move (by simp [Conv.Holds]) (fun l hl => by simp [hc, Conv.Holds, hl]) l
      · simp only [reduceCtorEq, Conv.sleepRelease.injEq, false_or] at h'
        subst h'
        exact hi.other_lock i _ (Or.inl hc)
    · cases h
  · -- `release(lk)`
    next ch hc =>
    cases h
    have hne := hi.other_lock i ch (Or.inr hc)
    have hlk : s.holder (lockOf ch) = some i := (hi.holder _ i).mpr (by simp [hc, Conv.Holds])
    refine hi.move rfl ((hi.fits i).plain (by simp [hc, Conv.Plain]) trivial)
      (fun j _ => same_sys s.sys j) hi.cpu (fun l => ?_)
      (fun l j hji => update_holder_ne (Or.inl rfl) (Or.inr hlk) hji l) (by simp)
      (waits_of_move hi rfl (fun _ h => Or.inl h) (fun _ _ h => h)
        (fun ch' hw _ => by rw [hc]; simpa [Conv.Waits] using hw) (fun ch => by simp [hc]))
    exact hi.holder_move (by simpa [Conv.Holds] using hne) (fun l hl => by simp [hc, Conv.Holds, hl]) l
  · next ch hc =>
    cases h
    exact hi.sleepSched hrun hc
  · next ch hc =>
    split at h <;> cases h
    · exact hi.sleepWoken hc (Or.inl ⟨rfl, ‹_›⟩) (by simp [‹lockOf ch = .ptable›])
    · exact hi.sleepWoken hc (Or.inr ⟨rfl, ‹_›⟩) (by simp [‹¬lockOf ch = .ptable›])
  · -- `acquire(lk)`: `sleep` returns
    next ch hc =>
    split at h
    · next hlk =>
      cases h
      refine hi.move rfl ((hi.fits i).plain (by simp [hc, Conv.Plain]) trivial)
        (fun j _ => same_sys s.sys j) hi.cpu (fun l => ?_)
        (fun l j hji => update_holder_ne (Or.inr rfl) (Or.inl hlk) hji l) (by simp)
        (waits_of_move hi rfl (fun _ h => Or.inl h) (fun _ _ h => h)
          (fun ch' hw _ => by simp [Conv.Waits] at hw) (fun ch => by simp [hc]))
      exact hi.holder_move (by simp [Conv.Holds]) (fun l hl => by simp [hc, Conv.Holds, hl]) l
    · cases h
  · cases h

theorem ConvInv.kill (hi : ConvInv lockOf s) {pid : Int32}
    (h : convAct lockOf c i s (.kill pid) = some t) : ConvInv lockOf t := by
  simp only [convAct] at h
  split at h
  · next hg =>
    cases h
    have hw := (kill_quiet pid s.sys).toWakes
    have hconv : s.conv = Function.update s.conv i .free := by
      rw [← hg.1, Function.update_eq_self]
    refine hi.move (x := .free) hconv (by simpa [hg.1] using (hi.fits i).wake (hw.state i) (kill_chan pid s.sys i))
      (fun j _ => ⟨hw.state j, kill_chan pid s.sys j⟩) (hi.cpu.quiet (kill_quiet _ _))
      (fun l => by rw [hi.holder, hg.1]) (fun l j _ => Iff.rfl) (by simp)
      (waits_of_move hi hconv (fun _ h => Or.inl h) (fun _ _ h => hw.sleeping h)
        (fun ch' hw _ => by simp [Conv.Waits] at hw) (fun ch => by simp [hg.1]))
  · cases h

/-- `yield()`: RUNNABLE, off the CPU. -/
theorem ConvInv.yield (hi : ConvInv lockOf s) {rs : UInt32} (hrun : s.sys.running c = some (i, rs))
    (h : convAct lockOf c i s .yield = some t) : ConvInv lockOf t := by
  simp only [convAct] at h
  split at h
  · next hg =>
    cases h
    obtain ⟨_, hci⟩ := Sys.running_eq_some.mp hrun
    have hout : schedOut .default c (Xv6.yield i s.sys) =
        schedReturn .default c i rs (Xv6.yield i s.sys) := schedOut_of_run hci
    have hpark := schedReturn_parks .default c i rs (Xv6.yield i s.sys)
    have hchan : (s.sys.proc i).chan = none := by
      have := hi.fits i
      rw [hg.1] at this
      exact this.2
    refine hi.move rfl ?_ (fun j hji => ?_) ?_ (fun l => by rw [hi.holder, hg.1]; simp [Conv.Holds])
      (fun l j _ => Iff.rfl) (by simp)
      (waits_of_move hi rfl (fun _ h => Or.inl h) (fun j hji h => ?_)
        (fun ch' hw _ => by simp [Conv.Waits] at hw) (fun ch => by simp [hg.1]))
    · simp [Conv.Fits, hout, hpark.state, schedReturn_chan, yield_proc, hchan]
    · simp [hout, hpark.state, schedReturn_chan, yield_proc, hji]
    · show CpuInv (schedOut .default c (Xv6.yield i s.sys))
      rw [hout]
      exact hi.cpu.leave (t := Xv6.yield i s.sys) hrun
        (fun j hji hj => by simpa [yield_proc, hji] using hj) rfl rfl
    · simpa [hout, hpark.state, yield_proc, hji] using h
  · cases h

/-- A scheduler takes `ptable.lock` and dispatches a RUNNABLE process, which goes on holding it. -/
theorem ConvInv.dispatch (hi : ConvInv lockOf s) {j : Fin NPROC} {k : Nat}
    (hsched : s.sys.cpus c = .sched k) (hpt : s.holder .ptable = none)
    (hr : (s.sys.proc j).state = .runnable) :
    ConvInv lockOf { s with
      sys := dispatchDefault c j s.sys
      holder := Function.update s.holder .ptable (some j)
      conv := Function.update s.conv j (s.conv j).resume } := by
  have hd := dispatchDefault_dispatches c j s.sys
  have hres : ((s.conv j).resume = .holds .ptable ∧ (s.sys.proc j).chan = none ∨
      ∃ ch, (s.conv j).resume = .sleepWoken ch ∧ (s.sys.proc j).chan = some ch) ∧
      ∀ l, ¬(s.conv j).Holds lockOf l := by
    rcases (hi.fits j).runnable hr with ⟨ch, hc, hch⟩ | ⟨hc, hch⟩ <;> rw [hc] <;>
      simp [Conv.resume, Conv.Holds, hch]
  refine hi.move rfl ?_ (fun j' hj' => ?_) (hi.cpu.dispatch hsched hr hd) (fun l => ?_)
    (fun l j' hj' => update_holder_ne (Or.inr rfl) (Or.inl hpt) hj' l) ?_
    (waits_of_move hi rfl (fun _ h => Or.inl h) (fun j' hj' h => ?_) (fun ch hw _ => ?_)
      (fun ch hc => ?_))
  · rcases hres.1 with ⟨h, hch⟩ | ⟨ch, h, hch⟩ <;>
      simp [h, Conv.Fits, hd.state, dispatchDefault_chan, hch]
  · simp [hd.state, hj', dispatchDefault_chan]
  · dsimp only
    by_cases hl : l = .ptable
    · subst hl
      rcases hres.1 with ⟨h, _⟩ | ⟨ch, h, _⟩ <;> simp [h, Conv.Holds]
    · rw [Function.update_of_ne hl, hi.holder, iff_false_intro (hres.2 l)]
      rcases hres.1 with ⟨h, _⟩ | ⟨ch, h, _⟩ <;> simp [h, Conv.Holds, hl]
  · rcases hres.1 with ⟨h, _⟩ | ⟨ch, h, _⟩ <;> simp [h]
  · simpa [hd.state, hj'] using h
  · rcases hres.1 with ⟨h, _⟩ | ⟨ch, h, _⟩ <;> simp [h, Conv.Waits] at hw
  · have := hres.2 (lockOf ch)
    rw [hc] at this
    exact this rfl

theorem convInv_step (hi : ConvInv lockOf s) {e : ConvEvent} (h : convStep lockOf s e = some t) :
    ConvInv lockOf t := by
  cases e with
  | run c a =>
    simp only [convStep] at h
    cases hrun : s.sys.running c with
    | none => simp [hrun] at h
    | some ir =>
      obtain ⟨i, rs⟩ := ir
      simp only [hrun, Option.bind_some] at h
      cases a with
      | acquire lk => exact hi.acquire h
      | release => exact hi.release h
      | change ch v => exact hi.change h
      | wakeup => exact hi.wakeup h
      | sleep ch => exact hi.sleep h
      | next => exact hi.sleepNext hrun h
      | kill pid => exact hi.kill h
      | yield => exact hi.yield hrun h
  | dispatch c j =>
    simp only [convStep] at h
    split at h
    · next k hsched =>
      split at h
      · next hg =>
        cases h
        exact hi.dispatch hsched hg.2.1 hg.2.2
      · cases h
    · cases h

theorem convInv_of_run {ncpu : Nat} {cond : Chan → Bool} {es : List ConvEvent}
    (hrun : Run.run (convStep lockOf) (convInit ncpu cond) es = some t) : ConvInv lockOf t :=
  Run.run_inv (ConvInv lockOf) (fun _ _ _ hi h => convInv_step hi h) es _ t
    (convInv_init ncpu cond) hrun

end Inv

/-! ## Each step moves each process along the convention -/

section Next

variable {lockOf : Chan → Spin} {s t : ConvSys} {c : Fin NCPU} {i : Fin NPROC}

theorem Conv.resume_next (c : Conv) (lockOf : Chan → Spin) :
    c.resume = c ∨ Conv.Next lockOf c c.resume := by
  cases c <;> simp only [Conv.resume, true_or]
  · exact Or.inr (.woken _)
  · exact Or.inr .yielded

theorem next_of_update {x : Conv} (hconv : t.conv = Function.update s.conv i x)
    (hx : Conv.Next lockOf (s.conv i) x) (q : Fin NPROC) :
    t.conv q = s.conv q ∨ Conv.Next lockOf (s.conv q) (t.conv q) := by
  rw [hconv]
  by_cases hq : q = i
  · subst hq
    exact Or.inr (by rwa [Function.update_self])
  · exact Or.inl (Function.update_of_ne hq _ _)

theorem sleepNext_next (h : sleepNext lockOf c i s = some t) (q : Fin NPROC) :
    t.conv q = s.conv q ∨ Conv.Next lockOf (s.conv q) (t.conv q) := by
  unfold sleepNext at h
  split at h
  · next ch hc =>
    split at h <;> cases h
    exact next_of_update rfl (hc ▸ .sleepRelease ch) q
  · next ch hc =>
    cases h
    exact next_of_update rfl (hc ▸ .sleepSched ch) q
  · next ch hc =>
    cases h
    exact next_of_update rfl (hc ▸ .sched ch) q
  · next ch hc =>
    split at h <;> cases h
    · exact next_of_update rfl (hc ▸ .tidy ch ‹_›) q
    · exact next_of_update rfl (hc ▸ .reacquire ch) q
  · next ch hc =>
    split at h <;> cases h
    exact next_of_update rfl (hc ▸ .ret ch) q
  · cases h

theorem convAct_next {a : ConvAct} (h : convAct lockOf c i s a = some t) (q : Fin NPROC) :
    t.conv q = s.conv q ∨ Conv.Next lockOf (s.conv q) (t.conv q) := by
  cases a with
  | acquire lk =>
    simp only [convAct] at h
    split at h <;> cases h
    exact next_of_update rfl (‹_ ∧ _›.1 ▸ .acquire lk) q
  | release =>
    simp only [convAct] at h
    split at h <;> cases h
    exact next_of_update rfl (‹s.conv i = _› ▸ .release _) q
  | change ch v =>
    simp only [convAct] at h
    split at h <;> cases h
    exact next_of_update rfl (‹s.conv i = _› ▸ .change ch) q
  | wakeup =>
    simp only [convAct] at h
    split at h
    · split at h <;> cases h
      exact next_of_update rfl (‹s.conv i = _› ▸ .wakeup _) q
    · cases h
  | sleep ch =>
    simp only [convAct] at h
    split at h
    · next hg =>
      cases h
      refine next_of_update rfl ?_ q
      rw [hg.1]
      split
      · exact .sleep ch
      · exact .sleepAcquire ch
    · cases h
  | next => exact sleepNext_next h q
  | kill pid =>
    simp only [convAct] at h
    split at h <;> cases h
    exact Or.inl rfl
  | yield =>
    simp only [convAct] at h
    split at h <;> cases h
    exact next_of_update rfl (‹_ ∧ _›.1 ▸ .yield) q

/-- In every step every process stays where it is or moves along `Conv.Next`. -/
theorem convStep_next {e : ConvEvent} (h : convStep lockOf s e = some t) (q : Fin NPROC) :
    t.conv q = s.conv q ∨ Conv.Next lockOf (s.conv q) (t.conv q) := by
  cases e with
  | run c a =>
    simp only [convStep] at h
    cases hrun : s.sys.running c with
    | none => simp [hrun] at h
    | some ir =>
      simp only [hrun, Option.bind_some] at h
      exact convAct_next h q
  | dispatch c j =>
    simp only [convStep] at h
    split at h
    · split at h <;> cases h
      rcases (s.conv j).resume_next lockOf with hr | hr
      · refine Or.inl ?_
        by_cases hq : q = j
        · subst hq
          simpa using hr
        · simp [hq]
      · exact next_of_update rfl hr q
    · cases h

end Next

/-! ## No lost wakeup -/

/-- Along every run of processes that keep the convention, whether a channel's lock is
`ptable.lock` or another: a `wakeup(ch)` leaves every process then inside `sleep(ch, lk)` RUNNABLE
or RUNNING; a process returns from `sleep(ch, lk)` holding `lk`, with `p->chan` cleared; and a
process SLEEPING on `ch` while the condition of `ch` holds has a `wakeup(ch)` pending. -/
theorem sleep_wakeup_no_lost {lockOf : Chan → Spin} {ncpu : Nat} {cond : Chan → Bool}
    {es : List ConvEvent} {s t : ConvSys} {e : ConvEvent}
    (hrun : Run.run (convStep lockOf) (convInit ncpu cond) es = some s)
    (hstep : convStep lockOf s e = some t) :
    (∀ c i rs ch q, e = .run c .wakeup → s.sys.running c = some (i, rs) → s.conv i = .changed ch →
      (s.conv q).InSleep ch → (t.sys.proc q).state = .runnable ∨ (t.sys.proc q).state = .running) ∧
    (∀ q ch lk, (s.conv q).InSleep ch → t.conv q = .holds lk →
      lk = lockOf ch ∧ t.holder lk = some q ∧ (t.sys.proc q).chan = none) ∧
    (∀ q ch, (t.sys.proc q).sleepsOn (some ch) → t.cond ch = true →
      ∃ p, t.conv p = .changed ch) := by
  have hs := convInv_of_run hrun
  have ht := convInv_step hs hstep
  refine ⟨fun c i rs ch q he hrunc hch hq => ?_, fun q ch lk hq hl => ?_, fun q ch hsl hc => ?_⟩
  · subst he
    simp only [convStep, hrunc, Option.bind_some, convAct, hch] at hstep
    split at hstep
    · next hg =>
      cases hstep
      exact hs.wakeup_inSleep hch hg hq
    · cases hstep
  · have hlk : lk = lockOf ch := by
      rcases convStep_next hstep q with h | h
      · rw [h] at hl
        rw [hl] at hq
        simp [Conv.InSleep] at hq
      · rw [hl] at h
        exact h.ret_holds hq
    refine ⟨hlk, (ht.holder lk q).mpr (by rw [hl]; rfl), ?_⟩
    have hfit := ht.fits q
    rw [hl] at hfit
    exact hfit.2
  · -- only a process in the `sched()` of `sleep` is SLEEPING, and there it waits
    have hfit := ht.fits q
    have hw : (t.conv q).Waits ch (t.sys.proc q) := by
      cases hcq : t.conv q <;> rw [hcq] at hfit <;>
        simp_all [Conv.Fits, Conv.Waits, Proc.sleepsOn]
    exact ht.waits q ch hw hc

/-- Every channel guarded by the spinlock at `7`, not `ptable.lock`. -/
def chanLock : Chan → Spin := fun _ => .other 7

/-- Process 0 takes the lock, finds its condition false and sleeps on the channel `5` to the
end of `sched()`; process 1 is dispatched, takes the lock and sets the condition. -/
def handoffRun : List ConvEvent :=
  [.dispatch 0 0, .run 0 .release, .run 0 (.acquire (.other 7)), .run 0 (.sleep (.obj 5)),
    .run 0 .next, .run 0 .next, .run 0 .next, .dispatch 0 1, .run 0 .release,
    .run 0 (.acquire (.other 7)), .run 0 (.change (.obj 5) true)]

/-- Then process 1 calls `wakeup`, releases the lock and yields; process 0 is dispatched, clears
`p->chan` and releases `ptable.lock`, and is at `acquire(lk)`. -/
def returnRun : List ConvEvent :=
  handoffRun ++ [.run 0 .wakeup, .run 0 .release, .run 0 .yield, .dispatch 0 0, .run 0 .next]

set_option maxRecDepth 8000 in
/-- The `wakeup` of process 1 leaves the sleeping process 0 RUNNABLE or RUNNING, and the last line of
its `sleep` returns holding the lock, with `p->chan` cleared. -/
theorem sleep_wakeup_no_lost_handoff :
    (∃ s t, Run.run (convStep chanLock) (convInit 1 fun _ => false) handoffRun = some s ∧
      convStep chanLock s (.run 0 .wakeup) = some t ∧ s.conv 0 = .asleep (.obj 5) ∧
      (s.sys.proc 0).state = .sleeping ∧ s.conv 1 = .changed (.obj 5) ∧
      ((t.sys.proc 0).state = .runnable ∨ (t.sys.proc 0).state = .running)) ∧
    ∃ s t, Run.run (convStep chanLock) (convInit 1 fun _ => false) returnRun = some s ∧
      convStep chanLock s (.run 0 .next) = some t ∧ s.conv 0 = .sleepReacquire (.obj 5) ∧
      t.conv 0 = .holds (.other 7) ∧ t.holder (.other 7) = some 0 ∧ (t.sys.proc 0).chan = none := by
  constructor
  · obtain ⟨s, hs, hp⟩ := @Run.exists_of_map_eq_some_true _ _ (convStep chanLock)
      (convInit 1 fun _ => false) handoffRun
      (fun s => s.conv 0 == .asleep (.obj 5) && (s.sys.proc 0).state == .sleeping &&
        s.conv 1 == .changed (.obj 5) && (s.sys.running 0).map Prod.fst == some 1 &&
        (convStep chanLock s (.run 0 .wakeup)).isSome) (by decide +kernel)
    simp only [Bool.and_eq_true, beq_iff_eq, Option.isSome_iff_exists] at hp
    obtain ⟨⟨⟨⟨h0, hsl⟩, h1⟩, hrun⟩, t, ht⟩ := hp
    obtain ⟨⟨i, rs⟩, hrun, rfl⟩ := Option.map_eq_some_iff.mp hrun
    have hwake := (@sleep_wakeup_no_lost chanLock 1 (fun _ => false) handoffRun s t
      (.run 0 .wakeup) hs ht).1 0 1 rs (.obj 5) 0 rfl hrun h1 (by rw [h0]; rfl)
    exact ⟨s, t, hs, ht, h0, hsl, h1, hwake⟩
  · obtain ⟨s, hs, hp⟩ := @Run.exists_of_map_eq_some_true _ _ (convStep chanLock)
      (convInit 1 fun _ => false) returnRun
      (fun s => s.conv 0 == .sleepReacquire (.obj 5) &&
        (convStep chanLock s (.run 0 .next)).any fun t => t.conv 0 == .holds (.other 7))
      (by decide +kernel)
    simp only [Bool.and_eq_true, beq_iff_eq, Option.any_eq_true] at hp
    obtain ⟨h0, t, ht, ht0⟩ := hp
    obtain ⟨-, hheld, hchan⟩ := (@sleep_wakeup_no_lost chanLock 1 (fun _ => false) returnRun s t
      (.run 0 .next) hs ht).2.1 0 (.obj 5) (.other 7) (by rw [h0]; rfl) ht0
    exact ⟨s, t, hs, ht, h0, ht0, hheld, hchan⟩

end Xv6
