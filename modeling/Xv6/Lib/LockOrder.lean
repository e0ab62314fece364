import Mathlib.Logic.Function.Basic
import Xv6.Lib.Run

/-!
# Spinlocks taken in a global order

CPUs `ι` each run a program of `acquire` and `release` steps on locks `α`. A CPU at an `acquire`
of a held lock spins: it takes no step until the holder releases it. The classical discipline: if
every program takes a lock only while all the locks it holds rank below it, no set of CPUs ever
waits on each other in a cycle.

* `step`, `Waits`, `WaitPath`, `WaitCycle` : the machine, and CPUs spinning on each other;
* `ordered`, `heldAfter` : the discipline, checked along a program from the locks held at its start;
  `ordered_append`, `ordered_flatMap` : programs made of whole paths;
* `OrderedInv`, `orderedInv_step`, `orderedInv_of_run` : each CPU's remaining program stays ordered
  from the locks it holds;
* `no_waitCycle_of_run` : so no run reaches a cycle of spinning CPUs;
* `waits_pair_of_run` : two CPUs spinning on each other spin forever.
-/

namespace LockOrder

variable {ι α : Type} [DecidableEq ι] [DecidableEq α]

inductive Instr (α : Type) where
  | acquire (l : α)
  | release (l : α)
  deriving DecidableEq, Repr

/-- The rest of each CPU's program, and who holds each lock. -/
structure State (ι α : Type) where
  prog : ι → List (Instr α)
  holder : α → Option ι

/-- CPU `c` takes its next step: it acquires only a free lock and releases only one it holds. -/
def step (s : State ι α) (c : ι) : Option (State ι α) :=
  match s.prog c with
  | [] => none
  | .acquire l :: rest =>
    if s.holder l = none then
      some ⟨Function.update s.prog c rest, Function.update s.holder l (some c)⟩
    else none
  | .release l :: rest =>
    if s.holder l = some c then
      some ⟨Function.update s.prog c rest, Function.update s.holder l none⟩
    else none

/-- `c` spins on a lock that `d` holds. -/
def Waits (s : State ι α) (c d : ι) : Prop :=
  ∃ l rest, s.prog c = .acquire l :: rest ∧ s.holder l = some d

/-- `c` waits on `d`, which waits on …, `k` times, ending at `e`. -/
inductive WaitPath (s : State ι α) : Nat → ι → ι → Prop where
  | nil (c : ι) : WaitPath s 0 c c
  | cons {k : Nat} {c d e : ι} : Waits s c d → WaitPath s k d e → WaitPath s (k + 1) c e

/-- Some CPUs spin on each other in a cycle. -/
def WaitCycle (s : State ι α) : Prop := ∃ c k, WaitPath s (k + 1) c c

/-- The locks held after a program, from those held before it. -/
def heldAfter : List α → List (Instr α) → List α
  | H, [] => H
  | H, .acquire l :: rest => heldAfter (l :: H) rest
  | H, .release l :: rest => heldAfter (H.filter (· != l)) rest

variable (rank : α → Nat)

/-- Every `acquire` of the program, run from the held locks `H`, takes a lock ranked above all
those held at that point. -/
def ordered : List α → List (Instr α) → Bool
  | _, [] => true
  | H, .acquire l :: rest => H.all (fun h => rank h < rank l) && ordered (l :: H) rest
  | H, .release l :: rest => ordered (H.filter (· != l)) rest

/-! ## Programs made of paths -/

variable {rank}

theorem ordered_append : ∀ (p q : List (Instr α)) (H : List α),
    ordered rank H (p ++ q) = (ordered rank H p && ordered rank (heldAfter H p) q)
  | [], _, _ => rfl
  | .acquire l :: rest, q, H => by
    simp only [List.cons_append, ordered, heldAfter, ordered_append rest q, Bool.and_assoc]
  | .release l :: rest, q, H => by
    simp only [List.cons_append, ordered, heldAfter, ordered_append rest q]

/-- A program of whole paths, each ordered from no lock held and releasing all it takes, is
ordered. -/
theorem ordered_flatMap {π : Type} (f : π → List (Instr α)) :
    ∀ xs : List π, (∀ x ∈ xs, ordered rank [] (f x) = true ∧ heldAfter [] (f x) = []) →
      ordered rank [] (xs.flatMap f) = true
  | [], _ => rfl
  | x :: xs, h => by
    obtain ⟨hx, hheld⟩ := h x List.mem_cons_self
    rw [List.flatMap_cons, ordered_append, hx, hheld, Bool.true_and]
    exact ordered_flatMap f xs fun y hy => h y (List.mem_cons_of_mem x hy)

/-! ## What one step does -/

/-- A step acquires a free lock or releases one the CPU holds, and moves past that instruction. -/
theorem step_eq_some {s t : State ι α} {c : ι} (h : step s c = some t) :
    ∃ l rest,
      (s.prog c = .acquire l :: rest ∧ s.holder l = none ∧
        t = ⟨Function.update s.prog c rest, Function.update s.holder l (some c)⟩) ∨
      (s.prog c = .release l :: rest ∧ s.holder l = some c ∧
        t = ⟨Function.update s.prog c rest, Function.update s.holder l none⟩) := by
  unfold step at h
  split at h
  · cases h
  · rename_i l rest hprog
    split at h
    · cases h
      exact ⟨l, rest, .inl ⟨hprog, by assumption, rfl⟩⟩
    · cases h
  · rename_i l rest hprog
    split at h
    · cases h
      exact ⟨l, rest, .inr ⟨hprog, by assumption, rfl⟩⟩
    · cases h

theorem step_acquire {s : State ι α} {c : ι} {l : α} {rest : List (Instr α)}
    (hc : s.prog c = .acquire l :: rest) (hfree : s.holder l = none) :
    step s c = some ⟨Function.update s.prog c rest, Function.update s.holder l (some c)⟩ := by
  simp [step, hc, hfree]

theorem step_prog_of_ne {s t : State ι α} {c d : ι} (h : step s c = some t) (hdc : d ≠ c) :
    t.prog d = s.prog d := by
  obtain ⟨l, rest, ⟨-, -, rfl⟩ | ⟨-, -, rfl⟩⟩ := step_eq_some h <;>
    exact Function.update_of_ne hdc _ _

/-- Another CPU's step takes no lock from `d`. -/
theorem step_holder_of_held {s t : State ι α} {c d : ι} {k : α} (h : step s c = some t)
    (hk : s.holder k = some d) (hdc : d ≠ c) : t.holder k = some d := by
  obtain ⟨l, rest, ⟨-, hfree, rfl⟩ | ⟨-, hown, rfl⟩⟩ := step_eq_some h
  · have hkl : k ≠ l := fun hkl => by rw [hkl, hfree] at hk; cases hk
    simpa [Function.update_of_ne hkl] using hk
  · have hkl : k ≠ l := fun hkl => by rw [hkl, hown] at hk; exact hdc (Option.some.inj hk).symm
    simpa [Function.update_of_ne hkl] using hk

/-- ... and gives `d` no lock. -/
theorem held_of_step_held {s t : State ι α} {c d : ι} {k : α} (h : step s c = some t)
    (hk : t.holder k = some d) (hdc : d ≠ c) : s.holder k = some d := by
  obtain ⟨l, rest, ⟨-, -, rfl⟩ | ⟨-, -, rfl⟩⟩ := step_eq_some h
  · by_cases hkl : k = l
    · subst hkl
      simp only [Function.update_self, Option.some.injEq] at hk
      exact absurd hk.symm hdc
    · simpa [Function.update_of_ne hkl] using hk
  · by_cases hkl : k = l
    · subst hkl
      simp at hk
    · simpa [Function.update_of_ne hkl] using hk

/-! ## The discipline along a run -/

variable (rank)

/-- Each CPU's remaining program is ordered from some list covering the locks it holds. -/
def OrderedInv (s : State ι α) : Prop :=
  ∀ c, ∃ H : List α, (∀ l, s.holder l = some c → l ∈ H) ∧ ordered rank H (s.prog c) = true

variable {rank}

theorem orderedInv_step {s t : State ι α} {c : ι} (hs : OrderedInv rank s)
    (h : step s c = some t) : OrderedInv rank t := by
  intro d
  obtain ⟨H, hheld, hord⟩ := hs d
  by_cases hdc : d = c
  · subst hdc
    obtain ⟨l, rest, ⟨hprog, -, rfl⟩ | ⟨hprog, -, rfl⟩⟩ := step_eq_some h
    · -- the acquiring CPU now also holds `l`
      rw [hprog] at hord
      simp only [ordered, Bool.and_eq_true] at hord
      refine ⟨l :: H, fun k hk => ?_, by simpa using hord.2⟩
      by_cases hkl : k = l
      · exact hkl ▸ List.mem_cons_self
      · simp only [Function.update_of_ne hkl] at hk
        exact List.mem_cons_of_mem l (hheld k hk)
    · -- the releasing CPU no longer holds `l`
      rw [hprog] at hord
      refine ⟨H.filter (· != l), fun k hk => ?_, by simpa [ordered] using hord⟩
      by_cases hkl : k = l
      · subst hkl
        simp at hk
      · simp only [Function.update_of_ne hkl] at hk
        simpa [hkl] using hheld k hk
  · refine ⟨H, fun k hk => hheld k (held_of_step_held h hk hdc), ?_⟩
    rw [step_prog_of_ne h hdc]
    exact hord

theorem orderedInv_of_run {s₀ s : State ι α} {cs : List ι}
    (hprog : ∀ c, ordered rank [] (s₀.prog c) = true) (hfree : ∀ l, s₀.holder l = none)
    (hrun : Run.run step s₀ cs = some s) : OrderedInv rank s := by
  refine Run.run_inv (OrderedInv rank) (fun _ _ _ hs h => orderedInv_step hs h) cs s₀ s
    (fun c => ⟨[], fun l hl => ?_, hprog c⟩) hrun
  rw [hfree l] at hl
  cases hl

/-! ## No cycle of spinning CPUs -/

/-- The rank of the lock a CPU is about to acquire. -/
def want (rank : α → Nat) (s : State ι α) (c : ι) : Nat :=
  match s.prog c with
  | .acquire l :: _ => rank l
  | _ => 0

omit [DecidableEq ι] in
/-- Along a wait, the lock wanted rises: `d` holds the lock `c` wants while it wants its own. -/
theorem want_lt {s : State ι α} (hs : OrderedInv rank s) {c d e : ι} (hcd : Waits s c d)
    (hde : Waits s d e) : want rank s c < want rank s d := by
  obtain ⟨l, rest, hc, hl⟩ := hcd
  obtain ⟨m, rest', hd, -⟩ := hde
  obtain ⟨H, hheld, hord⟩ := hs d
  rw [hd] at hord
  simp only [ordered, Bool.and_eq_true, List.all_eq_true, decide_eq_true_eq] at hord
  simp only [want, hc, hd]
  exact hord.1 l (hheld l hl)

omit [DecidableEq ι] in
theorem want_le_of_waitPath {s : State ι α} (hs : OrderedInv rank s) {k : Nat} {c e : ι}
    (hp : WaitPath s k c e) (he : ∃ f, Waits s e f) :
    want rank s c + k ≤ want rank s e ∧ ∃ f, Waits s c f := by
  induction hp with
  | nil => exact ⟨Nat.le_refl _, he⟩
  | cons hcd _ ih =>
    obtain ⟨hle, f, hdf⟩ := ih he
    have := want_lt hs hcd hdf
    exact ⟨by omega, _, hcd⟩

omit [DecidableEq ι] in
theorem not_waitCycle {s : State ι α} (hs : OrderedInv rank s) : ¬WaitCycle s := by
  rintro ⟨c, k, hp⟩
  cases hp with
  | cons hcd hrest =>
    obtain ⟨hle, f, hdf⟩ := want_le_of_waitPath hs hrest ⟨_, hcd⟩
    have := want_lt hs hcd hdf
    omega

/-- If every program is ordered and no lock is held at the start, no run reaches a cycle of
spinning CPUs. -/
theorem no_waitCycle_of_run {s₀ s : State ι α} {cs : List ι}
    (hprog : ∀ c, ordered rank [] (s₀.prog c) = true) (hfree : ∀ l, s₀.holder l = none)
    (hrun : Run.run step s₀ cs = some s) : ¬WaitCycle s :=
  not_waitCycle (orderedInv_of_run hprog hfree hrun)

/-! ## A spinning pair spins forever -/

theorem step_eq_none_of_waits {s : State ι α} {c d : ι} (h : Waits s c d) : step s c = none := by
  obtain ⟨l, rest, hc, hl⟩ := h
  simp [step, hc, hl]

/-- A step of any other CPU leaves `a` spinning on `b`: neither `a` nor `b` can move. -/
theorem waits_step {s t : State ι α} {a b c : ι} (hab : Waits s a b) (hba : Waits s b a)
    (h : step s c = some t) : Waits t a b := by
  have hac : a ≠ c := fun hc => by rw [← hc, step_eq_none_of_waits hab] at h; cases h
  have hbc : b ≠ c := fun hc => by rw [← hc, step_eq_none_of_waits hba] at h; cases h
  obtain ⟨l, rest, ha, hl⟩ := hab
  exact ⟨l, rest, by rw [step_prog_of_ne h hac, ha], step_holder_of_held h hl hbc⟩

/-- Two CPUs spinning on each other stay so along every run. -/
theorem waits_pair_of_run {s t : State ι α} {a b : ι} {cs : List ι} (hab : Waits s a b)
    (hba : Waits s b a) (hrun : Run.run step s cs = some t) : Waits t a b ∧ Waits t b a :=
  Run.run_inv (fun s => Waits s a b ∧ Waits s b a)
    (fun _ _ _ hs h => ⟨waits_step hs.1 hs.2 h, waits_step hs.2 hs.1 h⟩) cs s t ⟨hab, hba⟩ hrun

end LockOrder
