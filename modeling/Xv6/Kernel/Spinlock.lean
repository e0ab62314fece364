import Mathlib
import Xv6.Lib.Bits
import Xv6.Lib.Run
import Xv6.Lib.StateOpt

/-!
# `spinlock.c`: spinlocks and the interrupt nesting of `pushcli` and `popcli`

CPUs `ι` run programs of `acquire`, `release`, `pushcli`, `popcli`, `cli` and `sti` on spinlocks
`α`, interleaved in any order (`Machine`, `step`). `acquire` is two steps: up to its spin loop
(`acquireEnter`, which disables interrupts and panics if the CPU holds the lock), then the turns of
the loop (`acquireTurn`), each one atomic `xchg`. `crit c` records the locks whose `acquire` CPU `c`
has finished and whose `release` it has not.

* `disc` : the discipline of the kernel's code: a CPU acquires only locks it does not hold,
  releases only locks it holds, pops only its own `pushcli`, and enables interrupts only outside
  every lock and `pushcli`;
* `SpinInv` : the lock words against `crit`, and each CPU's `ncli` as the depth of its nesting, with
  interrupts off at every depth above zero; `spinInv_step` : every step keeps it;
* `spin_no_panic`, `spin_mutex`, `spin_cli` : so along every run of disciplined programs no
  `acquire`, `release` or `popcli` panics, at most one CPU is inside each lock, and a CPU that holds
  or spins on a lock has interrupts disabled.
-/

namespace Xv6.Spin

/-- `FL_IF`: the interrupt-enable flag of `eflags` (`mmu.h`). -/
def FL_IF : UInt32 := 0x200

/-- `struct spinlock`: `locked` and the holding CPU (`name` and `pcs` are for debugging). -/
structure Spinlock (ι : Type) where
  locked : UInt32
  cpu : Option ι

/-- The fields of `struct cpu` that `spinlock.c` reads: the depth of `pushcli` nesting, whether
interrupts were enabled before the outermost `pushcli`, and the CPU's `eflags`. -/
structure Cpu where
  ncli : Int32
  intena : Int32
  eflags : UInt32

/-- What a CPU runs: a call of `acquire`, a turn of its spin loop, a call of `release`, `pushcli`,
`popcli`, or the instructions `cli` and `sti`. -/
inductive Instr (α : Type) where
  | acquire (l : α)
  | spin (l : α)
  | release (l : α)
  | pushcli
  | popcli
  | cli
  | sti

/-- The locks, the CPUs, the rest of each CPU's program, and the locks each CPU is inside. -/
structure Machine (ι α : Type) where
  lock : α → Spinlock ι
  cpu : ι → Cpu
  prog : ι → List (Instr α)
  crit : ι → List α

/-- Code run by one CPU: `none` is a `panic`. -/
abbrev SpinM (ι α : Type) := StateT (Machine ι α) Option

variable {ι α : Type} [DecidableEq ι] [DecidableEq α]

@[simps -fullyApplied] def Machine.setLock (s : Machine ι α) (l : α) (k : Spinlock ι) : Machine ι α :=
  { s with lock := Function.update s.lock l k }

@[simps -fullyApplied] def Machine.setCpu (s : Machine ι α) (c : ι) (x : Cpu) : Machine ι α :=
  { s with cpu := Function.update s.cpu c x }

@[simps -fullyApplied] def Machine.setProg (s : Machine ι α) (c : ι) (p : List (Instr α)) :
    Machine ι α :=
  { s with prog := Function.update s.prog c p }

@[simps -fullyApplied] def Machine.setCrit (s : Machine ι α) (c : ι) (h : List α) : Machine ι α :=
  { s with crit := Function.update s.crit c h }

/-- Pushcli/popcli are like cli/sti except that they are matched: it takes two popcli to undo two
pushcli. Also, if interrupts are off, then pushcli, popcli leaves them off. -/
def pushcli (c : ι) : SpinM ι α Unit := do
  let eflags := ((← get).cpu c).eflags
  modify fun s => s.setCpu c { s.cpu c with eflags := (s.cpu c).eflags &&& ~~~FL_IF }  -- cli()
  if ((← get).cpu c).ncli = 0 then
    modify fun s => s.setCpu c { s.cpu c with intena := (eflags &&& FL_IF).toInt32 }
  modify fun s => s.setCpu c { s.cpu c with ncli := (s.cpu c).ncli + 1 }

def popcli (c : ι) : SpinM ι α Unit := do
  if ((← get).cpu c).eflags &&& FL_IF ≠ 0 then failure  -- panic("popcli - interruptible")
  modify fun s => s.setCpu c { s.cpu c with ncli := (s.cpu c).ncli - 1 }
  if ((← get).cpu c).ncli < 0 then failure  -- panic("popcli")
  if ((← get).cpu c).ncli = 0 ∧ ((← get).cpu c).intena ≠ 0 then
    modify fun s => s.setCpu c { s.cpu c with eflags := (s.cpu c).eflags ||| FL_IF }  -- sti()

/-- Check whether this cpu is holding the lock. -/
def holding (c : ι) (lk : α) : SpinM ι α Bool := do
  pushcli c
  let s ← get
  let r := (s.lock lk).locked != 0 && (s.lock lk).cpu == some c
  popcli c
  pure r

/-- `acquire` up to its spin loop: disable interrupts to avoid deadlock, and panic if this CPU
holds the lock. -/
def acquireEnter (c : ι) (lk : α) : SpinM ι α Unit := do
  pushcli c
  if ← holding c lk then failure  -- panic("acquire")

/-- One turn of `while(xchg(&lk->locked, 1) != 0)`, and `lk->cpu = mycpu()` when the loop ends;
`true` when the lock is taken. -/
def acquireTurn (c : ι) (lk : α) : SpinM ι α Bool := do
  let old := ((← get).lock lk).locked
  modify fun s => s.setLock lk { s.lock lk with locked := 1 }
  if old ≠ 0 then pure false
  else
    modify fun s => s.setLock lk { s.lock lk with cpu := some c }
    pure true

/-- Release the lock. -/
def release (c : ι) (lk : α) : SpinM ι α Unit := do
  if !(← holding c lk) then failure  -- panic("release")
  modify fun s => s.setLock lk { s.lock lk with cpu := none }
  modify fun s => s.setLock lk { s.lock lk with locked := 0 }  -- movl $0, lk->locked
  popcli c

/-- CPU `c` runs the next step of its program; `none` when it has ended or panics. -/
def step (s : Machine ι α) (c : ι) : Option (Machine ι α) :=
  match s.prog c with
  | [] => none
  | .acquire l :: p => (acquireEnter c l s).map fun r => r.2.setProg c (.spin l :: p)
  | .spin l :: p => (acquireTurn c l s).map fun r =>
      if r.1 then (r.2.setProg c p).setCrit c (l :: s.crit c) else r.2
  | .release l :: p => (release c l s).map fun r =>
      (r.2.setProg c p).setCrit c ((s.crit c).erase l)
  | .pushcli :: p => (pushcli c s).map fun r => r.2.setProg c p
  | .popcli :: p => (popcli c s).map fun r => r.2.setProg c p
  | .cli :: p => some ((s.setCpu c { s.cpu c with eflags := (s.cpu c).eflags &&& ~~~FL_IF }).setProg c p)
  | .sti :: p => some ((s.setCpu c { s.cpu c with eflags := (s.cpu c).eflags ||| FL_IF }).setProg c p)

/-- The calls a program is written of: `spin` is only ever the rest of an `acquire`. -/
inductive Op (α : Type) where
  | acquire (l : α)
  | release (l : α)
  | pushcli
  | popcli
  | cli
  | sti

def Op.instr : Op α → Instr α
  | .acquire l => .acquire l
  | .release l => .release l
  | .pushcli => .pushcli
  | .popcli => .popcli
  | .cli => .cli
  | .sti => .sti

/-- After `initlock` of every lock: each CPU at the start of its program, with no `pushcli`. -/
def Machine.init (ops : ι → List (Op α)) (eflags : ι → UInt32) : Machine ι α :=
  ⟨fun _ => ⟨0, none⟩, fun c => ⟨0, 0, eflags c⟩, fun c => (ops c).map Op.instr, fun _ => []⟩

/-! ## What each function does -/

/-- `FL_IF` is one bit: `eflags & FL_IF` is `0` or `FL_IF`. -/
theorem and_FL_IF (e : UInt32) : e &&& FL_IF = 0 ∨ e &&& FL_IF = FL_IF := by
  have h : (e &&& FL_IF).toNat = (e.toNat.testBit 9).toNat * 2 ^ 9 := by
    rw [UInt32.toNat_and, show FL_IF.toNat = 2 ^ 9 from rfl, Nat.and_two_pow]
  cases hb : e.toNat.testBit 9
  · left
    rw [← UInt32.toNat_inj]
    simp [h, hb]
  · right
    rw [← UInt32.toNat_inj, h, hb]
    rfl

/-- What `pushcli` does to a CPU. -/
@[simps] def Cpu.push (x : Cpu) : Cpu where
  ncli := x.ncli + 1
  intena := if x.ncli = 0 then (x.eflags &&& FL_IF).toInt32 else x.intena
  eflags := x.eflags &&& ~~~FL_IF

/-- What `popcli` does to a CPU it does not panic on. -/
@[simps] def Cpu.pop (x : Cpu) : Cpu where
  ncli := x.ncli - 1
  intena := x.intena
  eflags := if x.ncli - 1 = 0 ∧ x.intena ≠ 0 then x.eflags ||| FL_IF else x.eflags

section Spec

variable {s : Machine ι α} {c : ι} {l : α}

omit [DecidableEq α] in
@[simp] theorem Machine.setCpu_setCpu (x y : Cpu) : (s.setCpu c x).setCpu c y = s.setCpu c y := by
  simp [Machine.setCpu]

omit [DecidableEq α] in
theorem pushcli_eq : pushcli c s = some ((), s.setCpu c (s.cpu c).push) := by
  simp only [pushcli, StateOpt.get_bind, StateOpt.modify_bind]
  split_ifs with h <;> simp at h <;> simp [StateOpt.modify_bind, StateOpt.run_modify, Cpu.push, h]

omit [DecidableEq α] in
theorem popcli_eq : popcli c s = if (s.cpu c).eflags &&& FL_IF = 0 ∧ 0 ≤ (s.cpu c).ncli - 1 then
    some ((), s.setCpu c (s.cpu c).pop) else none := by
  have hlt : (s.cpu c).ncli - 1 < 0 ↔ ¬ 0 ≤ (s.cpu c).ncli - 1 := by
    rw [Int32.lt_iff_toInt_lt, Int32.le_iff_toInt_le]
    omega
  by_cases hi : (s.cpu c).eflags &&& FL_IF = 0
  · by_cases hn : 0 ≤ (s.cpu c).ncli - 1
    · simp only [popcli, StateOpt.get_bind, StateOpt.modify_bind, hi, hn, hlt, ne_eq,
        not_true_eq_false, if_false, if_true, and_self, Machine.setCpu_cpu, Function.update_self]
      split_ifs with h <;> simp [StateOpt.run_modify, StateOpt.run_pure, Cpu.pop, h]
    · simp [popcli, StateOpt.get_bind, StateOpt.modify_bind, hi, hn, hlt]
      rfl
  · simp [popcli, StateOpt.get_bind, hi]
    rfl

omit [DecidableEq ι] in
@[simp] theorem Machine.setLock_setLock (x y : Spinlock ι) :
    (s.setLock l x).setLock l y = s.setLock l y := by
  simp [Machine.setLock]

omit [DecidableEq α] in
theorem Machine.setCpu_self : s.setCpu c (s.cpu c) = s := by
  simp [Machine.setCpu]

/-- `pushcli` then `popcli` on a CPU whose interrupts are off inside any nesting: only `intena` can
change, to the interrupt flag, when there was no nesting. -/
theorem Cpu.push_pop {x : Cpu} (hi : x.ncli ≠ 0 → x.eflags &&& FL_IF = 0) :
    x.push.pop = { x with intena := if x.ncli = 0 then (x.eflags &&& FL_IF).toInt32 else x.intena } := by
  by_cases h0 : x.ncli = 0
  · -- the outer pushcli: popcli puts the interrupt flag back
    rcases and_FL_IF x.eflags with he | he
    · simp [Cpu.push, Cpu.pop, h0, he, Bits.and_not_of_and_eq_zero he]
    · have hne : (x.eflags &&& FL_IF).toInt32 ≠ 0 := by rw [he]; decide
      simp only [ne_eq, UInt32.toInt32_and] at hne
      simp [Cpu.push, Cpu.pop, h0, hne, Bits.and_not_or_of_and_eq he]
  · simp [Cpu.push, Cpu.pop, h0, Bits.and_not_of_and_eq_zero (hi h0)]

omit [DecidableEq α] in
/-- `holding` on a CPU whose nesting depth is not negative: it reads the lock between a `pushcli`
and a `popcli` that does not panic. -/
theorem holding_eq (hn : 0 ≤ (s.cpu c).ncli) :
    holding c l s = some ((s.lock l).locked != 0 && (s.lock l).cpu == some c,
      s.setCpu c (s.cpu c).push.pop) := by
  have hpop : popcli c (s.setCpu c (s.cpu c).push) = some ((), s.setCpu c (s.cpu c).push.pop) := by
    rw [popcli_eq, if_pos]
    · simp
    · refine ⟨by simp [Cpu.push, Bits.and_not_and], ?_⟩
      simpa [Cpu.push] using hn
  rw [holding, StateOpt.bind_of_eq_some pushcli_eq, StateOpt.get_bind, StateOpt.bind_of_eq_some hpop]
  rfl

theorem toInt_add_one {x : Int32} {k : Nat} (h : x.toInt = k) (hk : k + 1 < 2 ^ 31) :
    (x + 1).toInt = k + 1 := by
  rw [Int32.toInt_add, h, Int32.toInt_one, Int.bmod_eq_of_le (by omega) (by omega)]

theorem toInt_sub_one {x : Int32} {k : Nat} (h : x.toInt = k + 1) : (x - 1).toInt = k := by
  have hx : x.toInt ≤ 2 ^ 31 - 1 := Int32.toInt_le x
  rw [Int32.toInt_sub, h, Int32.toInt_one, Int.bmod_eq_of_le (by omega) (by omega)]
  omega

theorem nonneg_of_toInt {x : Int32} {k : Nat} (h : x.toInt = k) : 0 ≤ x := by
  rw [Int32.le_iff_toInt_le, h, Int32.toInt_zero]
  omega

theorem ne_zero_of_toInt {x : Int32} {k : Nat} (h : x.toInt = k + 1) : x ≠ 0 := by
  rintro rfl
  simp at h
  omega

omit [DecidableEq α] in
/-- `acquire` up to its spin loop: one `pushcli`, and a panic if the CPU holds the lock. -/
theorem acquireEnter_eq {d : Nat} (hn : (s.cpu c).ncli.toInt = d) (hb : d + 2 < 2 ^ 31) :
    acquireEnter c l s = if ((s.lock l).locked != 0 && (s.lock l).cpu == some c) = true then none
      else some ((), s.setCpu c (s.cpu c).push) := by
  have hp : (s.cpu c).push.ncli.toInt = d + 1 := toInt_add_one hn (by omega)
  -- the `pushcli` of `holding` is nested in the one of `acquire`, so its `popcli` undoes it
  have hpp : (s.cpu c).push.push.pop = (s.cpu c).push := by
    rw [Cpu.push_pop fun _ => Bits.and_not_and _ _, if_neg (ne_zero_of_toInt hp)]
  have hh := holding_eq (s := s.setCpu c (s.cpu c).push) (c := c) (l := l)
    (by simpa using nonneg_of_toInt hp)
  simp only [Machine.setCpu_cpu, Function.update_self, Machine.setCpu_lock, Machine.setCpu_setCpu,
    hpp] at hh
  rw [acquireEnter, StateOpt.bind_of_eq_some pushcli_eq, StateOpt.bind_of_eq_some hh]
  split_ifs <;> rfl

omit [DecidableEq ι] in
/-- A turn of the spin loop takes a free lock, and leaves a taken one as it is. -/
theorem acquireTurn_eq : acquireTurn c l s = if (s.lock l).locked ≠ 0 then
    some (false, s.setLock l { s.lock l with locked := 1 }) else some (true, s.setLock l ⟨1, some c⟩) := by
  simp only [acquireTurn, StateOpt.get_bind, StateOpt.modify_bind]
  split_ifs with h
  · rfl
  · simp [StateOpt.modify_bind, StateOpt.run_pure]

/-- `release` by the CPU that holds the lock, inside its nesting: the lock is freed, and one
`popcli`. -/
theorem release_eq {d : Nat} (hn : (s.cpu c).ncli.toInt = d + 1) (hb : d + 2 < 2 ^ 31)
    (hi : (s.cpu c).eflags &&& FL_IF = 0) (hl : (s.lock l).locked ≠ 0)
    (hc : (s.lock l).cpu = some c) :
    release c l s = some ((), (s.setLock l ⟨0, none⟩).setCpu c (s.cpu c).pop) := by
  have hpp : (s.cpu c).push.pop = s.cpu c := by
    rw [Cpu.push_pop fun _ => hi, if_neg (ne_zero_of_toInt hn)]
  have hh := holding_eq (s := s) (c := c) (l := l) (nonneg_of_toInt hn)
  rw [hpp, Machine.setCpu_self] at hh
  have hpop : popcli c (s.setLock l ⟨0, none⟩) = some ((), (s.setLock l ⟨0, none⟩).setCpu c (s.cpu c).pop) := by
    rw [popcli_eq, if_pos]
    · simp
    · refine ⟨by simpa using hi, ?_⟩
      rw [Int32.le_iff_toInt_le, Machine.setLock_cpu, toInt_sub_one hn, Int32.toInt_zero]
      omega
  have hl' : ((s.lock l).locked != 0) = true := bne_iff_ne.mpr hl
  rw [release, StateOpt.bind_of_eq_some hh]
  simp only [hl', hc, beq_self_eq_true, Bool.and_self, Bool.not_true, Bool.false_eq_true, if_false,
    StateOpt.modify_bind, Machine.setLock_setLock, Machine.setLock_lock, Function.update_self]
  exact hpop

end Spec

/-! ## The discipline, and the invariant it keeps -/

/-- A program keeps the discipline of the kernel's code, from the locks `H` the CPU is inside and
`e` `pushcli`s of its own: it acquires only locks it is not inside and releases only those it is,
pops only its own `pushcli`s, enables interrupts only outside all of them, and nests fewer than
`2 ^ 31 - 2` deep. -/
def disc : List α → Nat → List (Instr α) → Bool
  | _, _, [] => true
  | H, e, .acquire l :: p => decide (l ∉ H) && decide (H.length + e + 2 < 2 ^ 31) && disc (l :: H) e p
  | _, _, .spin _ :: _ => false
  | H, e, .release l :: p => decide (l ∈ H) && disc (H.erase l) e p
  | H, e, .pushcli :: p => decide (H.length + e + 2 < 2 ^ 31) && disc H (e + 1) p
  | H, e, .popcli :: p => decide (0 < e) && disc H (e - 1) p
  | H, e, .cli :: p => disc H e p
  | H, e, .sti :: p => H.isEmpty && e == 0 && disc H e p

/-- The discipline of what is left of a program: the spin loop of an `acquire` whose `pushcli` is
done, and then a program that keeps the discipline. -/
def discRest (H : List α) (e : Nat) : List (Instr α) → Bool
  | .spin l :: p => decide (l ∉ H) && disc (l :: H) e p
  | p => disc H e p

/-- `1` while the CPU spins in `acquire`, whose `pushcli` is done. -/
def spinDepth : List (Instr α) → Nat
  | .spin _ :: _ => 1
  | _ => 0

-- `disc` rejects a `spin`, so a program that keeps it does not start with one
theorem spinDepth_of_disc {H : List α} {e : Nat} {p : List (Instr α)} (h : disc H e p = true) :
    spinDepth p = 0 := by
  unfold spinDepth
  split
  · simp [disc] at h
  · rfl

theorem discRest_eq_disc {H : List α} {e : Nat} {p : List (Instr α)} (hp : spinDepth p = 0) :
    discRest H e p = disc H e p := by
  unfold discRest
  split
  · simp [spinDepth] at hp
  · rfl

theorem discRest_of_disc {H : List α} {e : Nat} {p : List (Instr α)} (h : disc H e p = true) :
    discRest H e p = true :=
  (discRest_eq_disc (spinDepth_of_disc h)).trans h

/-- What each CPU keeps: its program keeps the discipline from the locks it is inside and some
`pushcli`s of its own, `ncli` counts them all and the `pushcli` of a spinning `acquire`, one more
`pushcli` cannot overflow it, and interrupts are off while it is not zero. -/
structure CpuInv (x : Cpu) (H : List α) (p : List (Instr α)) : Prop where
  depth : ∃ e, discRest H e p = true ∧ x.ncli.toInt = (H.length + e + spinDepth p : Nat) ∧
    H.length + e + spinDepth p + 1 < 2 ^ 31
  nodup : H.Nodup
  cli : x.ncli ≠ 0 → x.eflags &&& FL_IF = 0

/-- The invariant of the machine: a lock names a CPU exactly when that CPU is inside it, its word
is set exactly when it names one, and every CPU keeps `CpuInv`. -/
structure SpinInv (s : Machine ι α) : Prop where
  owner : ∀ l c, (s.lock l).cpu = some c ↔ l ∈ s.crit c
  locked : ∀ l, (s.lock l).locked = if (s.lock l).cpu = none then 0 else 1
  cpu : ∀ c, CpuInv (s.cpu c) (s.crit c) (s.prog c)

section CpuInv

variable {x : Cpu} {H : List α} {p : List (Instr α)} {l : α}

omit [DecidableEq α] in
theorem Cpu.push_cli (x : Cpu) : x.push.eflags &&& FL_IF = 0 := Bits.and_not_and _ _

omit [DecidableEq α] in
/-- `popcli` one level inside the nesting: the depth drops by one, and interrupts stay off unless
it reaches zero. -/
theorem Cpu.pop_of_depth {d : Nat} (hn : x.ncli.toInt = d + 1) (hi : x.eflags &&& FL_IF = 0) :
    x.pop.ncli.toInt = d ∧ (x.pop.ncli ≠ 0 → x.pop.eflags &&& FL_IF = 0) := by
  refine ⟨toInt_sub_one hn, fun h0 => ?_⟩
  simp only [Cpu.pop] at h0 ⊢
  rw [if_neg fun h => h0 h.1]
  exact hi

/-- At an instruction other than a `spin`, `ncli` counts the locks and the CPU's own `pushcli`s. -/
theorem CpuInv.depth_disc (h : CpuInv x H p) (hp : spinDepth p = 0) :
    ∃ e, disc H e p = true ∧ x.ncli.toInt = (H.length + e : Nat) ∧ H.length + e + 1 < 2 ^ 31 := by
  obtain ⟨e, hd, hn, hb⟩ := h.depth
  simp only [hp, Nat.add_zero] at hn hb
  exact ⟨e, (discRest_eq_disc hp).symm.trans hd, hn, hb⟩

/-- The converse: a program that keeps the discipline at a depth `ncli` counts gives `CpuInv`. -/
theorem CpuInv.of_disc {e : Nat} (hd : disc H e p = true) (hn : x.ncli.toInt = (H.length + e : Nat))
    (hb : H.length + e + 1 < 2 ^ 31) (hnd : H.Nodup) (hc : x.ncli ≠ 0 → x.eflags &&& FL_IF = 0) :
    CpuInv x H p := by
  have hs := spinDepth_of_disc hd
  refine ⟨⟨e, discRest_of_disc hd, ?_, ?_⟩, hnd, hc⟩
  · rw [hs, Nat.add_zero]
    exact hn
  · rw [hs, Nat.add_zero]
    exact hb

theorem CpuInv.pushcli (h : CpuInv x H (.pushcli :: p)) : CpuInv x.push H p := by
  obtain ⟨e, hd, hn, -⟩ := h.depth_disc rfl
  simp only [disc, Bool.and_eq_true, decide_eq_true_eq] at hd
  refine CpuInv.of_disc (e := e + 1) hd.2 ?_ (by omega) h.nodup fun _ => x.push_cli
  rw [Cpu.push_ncli, toInt_add_one hn (by omega)]
  omega

theorem CpuInv.acquire (h : CpuInv x H (.acquire l :: p)) : CpuInv x.push H (.spin l :: p) where
  depth := by
    obtain ⟨e, hd, hn, -⟩ := h.depth_disc rfl
    simp only [disc, Bool.and_eq_true, decide_eq_true_eq] at hd
    refine ⟨e, ?_, ?_, ?_⟩
    · simp only [discRest, Bool.and_eq_true, decide_eq_true_eq]
      exact ⟨hd.1.1, hd.2⟩
    · rw [Cpu.push_ncli, toInt_add_one hn (by omega)]
      simp [spinDepth]
    · simp only [spinDepth]
      omega
  nodup := h.nodup
  cli _ := x.push_cli

theorem CpuInv.spin (h : CpuInv x H (.spin l :: p)) : CpuInv x (l :: H) p := by
  obtain ⟨e, hd, hn, hb⟩ := h.depth
  simp only [discRest, spinDepth, Bool.and_eq_true, decide_eq_true_eq] at hd hn hb
  refine CpuInv.of_disc hd.2 ?_ (by rw [List.length_cons]; omega)
    (List.nodup_cons.mpr ⟨hd.1, h.nodup⟩) h.cli
  rw [hn, List.length_cons]
  omega

theorem CpuInv.popcli (h : CpuInv x H (.popcli :: p)) :
    (x.eflags &&& FL_IF = 0 ∧ 0 ≤ x.ncli - 1) ∧ CpuInv x.pop H p := by
  obtain ⟨e, hd, hn, hb⟩ := h.depth_disc rfl
  simp only [disc, Bool.and_eq_true, decide_eq_true_eq] at hd
  -- the popped level is one of the CPU's own `pushcli`s, so the depth is positive
  have hn' : x.ncli.toInt = (H.length + (e - 1) : Nat) + 1 := by
    rw [hn]
    omega
  have hi : x.eflags &&& FL_IF = 0 := h.cli (ne_zero_of_toInt hn')
  obtain ⟨hpn, hpi⟩ := Cpu.pop_of_depth hn' hi
  refine ⟨⟨hi, ?_⟩, CpuInv.of_disc hd.2 hpn (by omega) h.nodup hpi⟩
  rw [Int32.le_iff_toInt_le, toInt_sub_one hn', Int32.toInt_zero]
  omega

/-- `release` of a lock the CPU is inside: the depth is positive with interrupts off, and after
its `popcli` the CPU keeps the invariant outside the lock. -/
theorem CpuInv.release (h : CpuInv x H (.release l :: p)) :
    l ∈ H ∧ (∃ d : Nat, x.ncli.toInt = d + 1 ∧ d + 2 < 2 ^ 31) ∧ x.eflags &&& FL_IF = 0 ∧
      CpuInv x.pop (H.erase l) p := by
  obtain ⟨e, hd, hn, hb⟩ := h.depth_disc rfl
  simp only [disc, Bool.and_eq_true, decide_eq_true_eq] at hd
  have hlen : (H.erase l).length + 1 = H.length := List.length_erase_add_one hd.1
  have hn' : x.ncli.toInt = ((H.erase l).length + e : Nat) + 1 := by
    rw [hn]
    omega
  have hi : x.eflags &&& FL_IF = 0 := h.cli (ne_zero_of_toInt hn')
  obtain ⟨hpn, hpi⟩ := Cpu.pop_of_depth hn' hi
  exact ⟨hd.1, ⟨_, hn', by omega⟩, hi, CpuInv.of_disc hd.2 hpn (by omega) (h.nodup.erase l) hpi⟩

theorem CpuInv.of_cli (h : CpuInv x H (.cli :: p)) :
    CpuInv { x with eflags := x.eflags &&& ~~~FL_IF } H p := by
  obtain ⟨e, hd, hn, hb⟩ := h.depth_disc rfl
  simp only [disc] at hd
  exact CpuInv.of_disc hd hn hb h.nodup fun _ => Bits.and_not_and _ _

theorem CpuInv.of_sti (h : CpuInv x H (.sti :: p)) :
    CpuInv { x with eflags := x.eflags ||| FL_IF } H p := by
  obtain ⟨e, hd, hn, hb⟩ := h.depth_disc rfl
  simp only [disc, Bool.and_eq_true, List.isEmpty_iff, beq_iff_eq] at hd
  -- `sti` comes only outside every lock and `pushcli`, where `ncli` is zero
  refine CpuInv.of_disc hd.2 hn hb h.nodup fun h0 => absurd (Int32.toInt_inj.mp ?_) h0
  rw [hn]
  simp [hd.1.1, hd.1.2]

end CpuInv

section Machine

variable {s : Machine ι α} {c : ι} {l : α} {p : List (Instr α)}

omit [DecidableEq ι] in
theorem Machine.setLock_self : s.setLock l (s.lock l) = s := by
  simp [Machine.setLock]

omit [DecidableEq ι] in
/-- A free lock: its word is clear, it names no CPU, and no CPU is inside it. -/
theorem SpinInv.free_of_locked (h : SpinInv s) (hl : (s.lock l).locked = 0) :
    (s.lock l).cpu = none ∧ ∀ d, l ∉ s.crit d := by
  have hw := h.locked l
  have hn : (s.lock l).cpu = none := by
    by_contra hc
    rw [if_neg hc, hl] at hw
    exact absurd hw (by decide)
  exact ⟨hn, fun d hd => by simp [(h.owner l d).mpr hd] at hn⟩

/-- A step of CPU `c` that changes only its own CPU and program keeps the invariant once it keeps
the CPU's part. -/
theorem SpinInv.local (h : SpinInv s) {x : Cpu} {q : List (Instr α)} (hc : CpuInv x (s.crit c) q) :
    SpinInv ((s.setCpu c x).setProg c q) where
  owner := h.owner
  locked := h.locked
  cpu d := by
    by_cases hd : d = c
    · subst hd
      simpa using hc
    · simpa [Function.update_of_ne hd] using h.cpu d

/-- The turn of the spin loop that finds the lock free: the CPU takes it and is inside it. -/
theorem SpinInv.take (h : SpinInv s) (hp : s.prog c = .spin l :: p) (hl : (s.lock l).locked = 0) :
    SpinInv (((s.setLock l ⟨1, some c⟩).setProg c p).setCrit c (l :: s.crit c)) where
  owner k d := by
    obtain ⟨hn, hno⟩ := h.free_of_locked hl
    by_cases hk : k = l
    · subst hk
      by_cases hd : d = c
      · subst hd
        simp
      · simp [Function.update_of_ne hd, Ne.symm hd, hno d]
    · by_cases hd : d = c
      · subst hd
        simp [hk, h.owner k]
      · simp [Function.update_of_ne hk, Function.update_of_ne hd, h.owner k]
  locked k := by
    by_cases hk : k = l
    · subst hk
      simp
    · simpa [Function.update_of_ne hk] using h.locked k
  cpu d := by
    by_cases hd : d = c
    · subst hd
      have hc := h.cpu d
      rw [hp] at hc
      simpa using hc.spin
    · simpa [Function.update_of_ne hd] using h.cpu d

/-- `release`: the lock is freed and the CPU is no longer inside it. -/
theorem SpinInv.release (h : SpinInv s) (hp : s.prog c = .release l :: p) :
    SpinInv ((((s.setLock l ⟨0, none⟩).setCpu c (s.cpu c).pop).setProg c p).setCrit c
      ((s.crit c).erase l)) where
  owner k d := by
    have hc := h.cpu c
    rw [hp] at hc
    obtain ⟨hl, -, -, -⟩ := hc.release
    have hown : (s.lock l).cpu = some c := (h.owner l c).mpr hl
    by_cases hk : k = l
    · subst hk
      by_cases hd : d = c
      · subst hd
        simp [(h.cpu d).nodup.mem_erase_iff]
      · -- the lock named `c`, so no other CPU was inside it
        have hkd : k ∉ s.crit d := fun hkd =>
          hd (Option.some.inj (((h.owner k d).mpr hkd).symm.trans hown))
        simp [Function.update_of_ne hd, hkd]
    · by_cases hd : d = c
      · subst hd
        simp [Function.update_of_ne hk, List.mem_erase_of_ne hk, h.owner k]
      · simp [Function.update_of_ne hk, Function.update_of_ne hd, h.owner k]
  locked k := by
    by_cases hk : k = l
    · subst hk
      simp
    · simpa [Function.update_of_ne hk] using h.locked k
  cpu d := by
    by_cases hd : d = c
    · subst hd
      have hc := h.cpu d
      rw [hp] at hc
      simpa using hc.release.2.2.2
    · simpa [Function.update_of_ne hd] using h.cpu d

/-- A CPU with a program left takes its next step without a panic, and the step keeps the
invariant. -/
theorem SpinInv.step (h : SpinInv s) (hp : s.prog c ≠ []) : ∃ s', step s c = some s' ∧ SpinInv s' := by
  obtain ⟨i, p, hip⟩ := List.exists_cons_of_ne_nil hp
  have hc := h.cpu c
  rw [hip] at hc
  cases i with
  | acquire l =>
    obtain ⟨e, hd, hn, -⟩ := hc.depth
    simp only [discRest, disc, Bool.and_eq_true, decide_eq_true_eq] at hd
    simp only [spinDepth, Nat.add_zero] at hn
    -- the CPU is not inside the lock, so `holding` finds it does not hold it
    have hnot : ¬ (((s.lock l).locked != 0 && (s.lock l).cpu == some c) = true) := by
      simp [mt (h.owner l c).mp hd.1.1]
    refine ⟨_, ?_, h.local hc.acquire⟩
    simp only [Xv6.Spin.step, hip, acquireEnter_eq hn hd.1.2, if_neg hnot, Option.map_some]
  | spin l =>
    by_cases hl : (s.lock l).locked = 0
    · refine ⟨_, ?_, h.take hip hl⟩
      simp [Xv6.Spin.step, hip, acquireTurn_eq, hl]
    · -- the lock is taken: the `xchg` writes the `1` that is there
      have hw : (s.lock l).locked = 1 := by
        have := h.locked l
        split_ifs at this
        · exact absurd this hl
        · exact this
      refine ⟨s, ?_, h⟩
      simp only [Xv6.Spin.step, hip, acquireTurn_eq, if_pos hl, Option.map_some, if_false,
        Bool.false_eq_true]
      rw [← hw, Machine.setLock_self]
  | release l =>
    obtain ⟨hl, ⟨d, hn, hb⟩, hi, -⟩ := hc.release
    have hown : (s.lock l).cpu = some c := (h.owner l c).mpr hl
    have hw : (s.lock l).locked ≠ 0 := by
      rw [h.locked l, if_neg (by simp [hown])]
      decide
    refine ⟨_, ?_, h.release hip⟩
    simp [Xv6.Spin.step, hip, release_eq hn hb hi hw hown]
  | pushcli =>
    refine ⟨_, ?_, h.local hc.pushcli⟩
    simp [Xv6.Spin.step, hip, pushcli_eq]
  | popcli =>
    obtain ⟨hok, hc'⟩ := hc.popcli
    refine ⟨_, ?_, h.local hc'⟩
    simp [Xv6.Spin.step, hip, popcli_eq, hok]
  | cli => exact ⟨_, by simp [Xv6.Spin.step, hip], h.local hc.of_cli⟩
  | sti => exact ⟨_, by simp [Xv6.Spin.step, hip], h.local hc.of_sti⟩

theorem spinInv_step {s' : Machine ι α} (h : SpinInv s) (hs : step s c = some s') : SpinInv s' := by
  have hp : s.prog c ≠ [] := fun hp => by simp [Xv6.Spin.step, hp] at hs
  obtain ⟨t, ht, hinv⟩ := h.step hp
  rw [hs, Option.some.injEq] at ht
  exact ht ▸ hinv

omit [DecidableEq ι] in
theorem spinInv_init (ops : ι → List (Op α)) (eflags : ι → UInt32)
    (hd : ∀ c, disc [] 0 ((ops c).map Op.instr) = true) : SpinInv (Machine.init ops eflags) where
  owner _ _ := by simp [Machine.init]
  locked _ := rfl
  cpu c := by
    have hs := spinDepth_of_disc (hd c)
    refine ⟨⟨0, discRest_of_disc (hd c), ?_, ?_⟩, List.nodup_nil, fun h0 => absurd rfl h0⟩
    · simp [Machine.init, hs]
    · simp only [Machine.init, hs, List.length_nil]
      omega

theorem spinInv_of_run (ops : ι → List (Op α)) (eflags : ι → UInt32)
    (hd : ∀ c, disc [] 0 ((ops c).map Op.instr) = true) (cs : List ι) (s' : Machine ι α)
    (h : Run.run step (Machine.init ops eflags) cs = some s') : SpinInv s' :=
  Run.run_inv SpinInv (fun _ _ _ hi hs => spinInv_step hi hs) cs _ s'
    (spinInv_init ops eflags hd) h

end Machine

/-- Along every interleaving of CPUs that run disciplined programs from `initlock`, every CPU with
code left can take its next step: no `acquire`, `release` or `popcli` panics. -/
theorem spin_no_panic (ops : ι → List (Op α)) (eflags : ι → UInt32)
    (hd : ∀ c, disc [] 0 ((ops c).map Op.instr) = true) (cs : List ι) (s : Machine ι α)
    (h : Run.run step (Machine.init ops eflags) cs = some s)
    (c : ι) (hp : s.prog c ≠ []) : ∃ s', step s c = some s' := by
  obtain ⟨s', hs, -⟩ := (spinInv_of_run ops eflags hd cs s h).step hp
  exact ⟨s', hs⟩

/-- Along every such run, at most one CPU is inside each lock, and a lock's word is set exactly
when some CPU is inside it. -/
theorem spin_mutex (ops : ι → List (Op α)) (eflags : ι → UInt32)
    (hd : ∀ c, disc [] 0 ((ops c).map Op.instr) = true) (cs : List ι) (s : Machine ι α)
    (h : Run.run step (Machine.init ops eflags) cs = some s) :
    (∀ l c d, l ∈ s.crit c → l ∈ s.crit d → c = d) ∧
      ∀ l, (s.lock l).locked ≠ 0 ↔ ∃ c, l ∈ s.crit c := by
  have hi := spinInv_of_run ops eflags hd cs s h
  refine ⟨fun l c d hc hd' => ?_, fun l => ?_⟩
  · have := ((hi.owner l c).mpr hc).symm.trans ((hi.owner l d).mpr hd')
    exact Option.some.inj this
  · rw [hi.locked l]
    constructor
    · intro hw
      obtain ⟨c, hc⟩ := Option.ne_none_iff_exists'.mp fun hn : (s.lock l).cpu = none =>
        hw (by simp [hn])
      exact ⟨c, (hi.owner l c).mp hc⟩
    · rintro ⟨c, hc⟩
      rw [if_neg (by simp [(hi.owner l c).mpr hc])]
      decide

/-- Along every such run, a CPU that is inside a lock, or spins on one in `acquire`, has
interrupts disabled. -/
theorem spin_cli (ops : ι → List (Op α)) (eflags : ι → UInt32)
    (hd : ∀ c, disc [] 0 ((ops c).map Op.instr) = true) (cs : List ι) (s : Machine ι α)
    (h : Run.run step (Machine.init ops eflags) cs = some s)
    (c : ι) (hc : s.crit c ≠ [] ∨ ∃ l p, s.prog c = .spin l :: p) :
    (s.cpu c).eflags &&& FL_IF = 0 := by
  have hi := (spinInv_of_run ops eflags hd cs s h).cpu c
  obtain ⟨e, -, hn, -⟩ := hi.depth
  -- the nesting depth counts the locks the CPU is inside and the `pushcli` of its spin
  have hpos : 0 < (s.crit c).length + spinDepth (s.prog c) := by
    rcases hc with hc | ⟨l, p, hp⟩
    · have := List.length_pos_of_ne_nil hc
      omega
    · simp [hp, spinDepth]
  refine hi.cli fun h0 => ?_
  rw [h0, Int32.toInt_zero] at hn
  omega


/-- Two CPUs that each take and free one lock: after CPU 0 takes it and CPU 1 enters `acquire`,
CPU 0 is inside and CPU 1 spins. -/
def twoCpus (_ : Fin 2) : List (Op Unit) := [.acquire (), .release ()]

theorem spin_no_panic_twoCpus :
    ∃ s, Run.run step (Machine.init twoCpus fun _ => FL_IF) [0, 0, 1] = some s ∧
      ∃ s', step s 1 = some s' :=
  ⟨_, rfl, spin_no_panic twoCpus (fun _ => FL_IF) (by decide) [0, 0, 1] _ rfl 1 (by decide)⟩

theorem spin_mutex_twoCpus :
    ∃ s, Run.run step (Machine.init twoCpus fun _ => FL_IF) [0, 0, 1] = some s ∧
      ((∀ l c d, l ∈ s.crit c → l ∈ s.crit d → c = d) ∧
        ∀ l, (s.lock l).locked ≠ 0 ↔ ∃ c, l ∈ s.crit c) :=
  ⟨_, rfl, spin_mutex twoCpus (fun _ => FL_IF) (by decide) [0, 0, 1] _ rfl⟩

theorem spin_cli_twoCpus :
    ∃ s, Run.run step (Machine.init twoCpus fun _ => FL_IF) [0, 0, 1] = some s ∧
      (s.cpu 1).eflags &&& FL_IF = 0 :=
  ⟨_, rfl, spin_cli twoCpus (fun _ => FL_IF) (by decide) [0, 0, 1] _ rfl 1 (.inr ⟨(), _, rfl⟩)⟩

end Xv6.Spin
