import Mathlib

/-!
# Runs of a partial step function

A system whose atomic steps are `step : σ → ε → Option σ` (`none`: the step is not enabled, or the
system has stopped) runs a list of events with `run`; `Reachable step s₀ s` says some run from
`s₀` ends in `s`.

* `run_cons`, `run_append` : how runs compose;
* `run_inv` : the invariant rule, an invariant of every step holds along every run;
* `run_inv_weight` : the same with a counter of the events (`w e` per event), for invariants
  that hold only while some events have been taken fewer than a bound of times;
* `run_inv_fold` : the same against an abstract state that the events change by a function;
* `run_trace` : the simulation rule, a run matched step by step, each event by the events it stands
  for, by a run of another system on the `trace` of its events;
* `run_map` : the lockstep simulation rule, a map of states that commutes with every step (on the
  states of an invariant the steps keep) commutes with every run.
-/

namespace Run

variable {σ ε : Type} (step : σ → ε → Option σ)

/-- Take the events of `es` in order from `s`. -/
def run (s : σ) (es : List ε) : Option σ := es.foldlM step s

/-- Some run from `s₀` ends in `s`. -/
def Reachable (s₀ s : σ) : Prop := ∃ es, run step s₀ es = some s

variable {step}

@[simp] theorem run_nil (s : σ) : run step s [] = some s := rfl

theorem run_cons (s : σ) (e : ε) (es : List ε) :
    run step s (e :: es) = (step s e).bind (fun s' => run step s' es) := rfl

theorem run_append (s : σ) (es fs : List ε) :
    run step s (es ++ fs) = (run step s es).bind (fun s' => run step s' fs) := by
  simp [run, List.foldlM_append]

theorem run_singleton (s : σ) (e : ε) : run step s [e] = step s e := by
  rw [run_cons]
  cases step s e <;> rfl

theorem run_cons_of_step {s s' : σ} {e : ε} (h : step s e = some s') (es : List ε) :
    run step s (e :: es) = run step s' es := by
  rw [run_cons, h]
  rfl

/-- A run whose end state passes a test, read off the run's `Option.map`: the form in which `decide`
checks a concrete trace. -/
theorem exists_of_map_eq_some_true {s₀ : σ} {es : List ε} {p : σ → Bool}
    (h : (run step s₀ es).map p = some true) : ∃ s, run step s₀ es = some s ∧ p s = true := by
  cases hr : run step s₀ es with
  | none => simp [hr] at h
  | some s =>
    rw [hr, Option.map_some, Option.some.injEq] at h
    exact ⟨s, rfl, h⟩

/-- The invariant rule: what every step preserves holds at the end of every run. -/
theorem run_inv (Inv : σ → Prop) (hstep : ∀ s e s', Inv s → step s e = some s' → Inv s') :
    ∀ (es : List ε) (s s' : σ), Inv s → run step s es = some s' → Inv s'
  | [], s, s', hs, h => by
    simp only [run_nil, Option.some.injEq] at h
    exact h ▸ hs
  | e :: es, s, s', hs, h => by
    rw [run_cons] at h
    cases hse : step s e with
    | none => simp [hse] at h
    | some s₁ =>
      rw [hse] at h
      exact run_inv Inv hstep es s₁ s' (hstep s e s₁ hs hse) h

/-- The invariant rule with a counter: `Inv k s` where `k` counts the events taken so far, each
event `e` counting `w e`. -/
theorem run_inv_weight (w : ε → Nat) (Inv : Nat → σ → Prop)
    (hstep : ∀ k s e s', Inv k s → step s e = some s' → Inv (k + w e) s') :
    ∀ (es : List ε) (k : Nat) (s s' : σ), Inv k s → run step s es = some s' →
      Inv (k + (es.map w).sum) s'
  | [], k, s, s', hs, h => by
    simp only [run_nil, Option.some.injEq] at h
    simpa [h] using hs
  | e :: es, k, s, s', hs, h => by
    rw [run_cons] at h
    cases hse : step s e with
    | none => simp [hse] at h
    | some s₁ =>
      rw [hse] at h
      have := run_inv_weight w Inv hstep es (k + w e) s₁ s' (hstep k s e s₁ hs hse) h
      simpa [List.map_cons, List.sum_cons, Nat.add_assoc] using this

/-- The invariant rule against an abstract state `a`, which each event changes by `g`: at the end
of a run the invariant holds with `a` folded over the events. -/
theorem run_inv_fold {α : Type} (g : α → ε → α) (Inv : α → σ → Prop)
    (hstep : ∀ a s e s', Inv a s → step s e = some s' → Inv (g a e) s') :
    ∀ (es : List ε) (a : α) (s s' : σ), Inv a s → run step s es = some s' → Inv (es.foldl g a) s'
  | [], a, s, s', hs, h => by
    simp only [run_nil, Option.some.injEq] at h
    exact h ▸ hs
  | e :: es, a, s, s', hs, h => by
    rw [run_cons] at h
    cases hse : step s e with
    | none => simp [hse] at h
    | some s₁ =>
      rw [hse] at h
      exact run_inv_fold g Inv hstep es (g a e) s₁ s' (hstep a s e s₁ hs hse) h

/-- The events of an abstract run: an event `e`, taken when the abstract state is `a`, stands for
the events `tr a e` and moves `a` by `g`. -/
def trace {α ε' : Type} (g : α → ε → α) (tr : α → ε → List ε') : α → List ε → List ε'
  | _, [] => []
  | a, e :: es => tr a e ++ trace g tr (g a e) es

/-- The simulation rule with a translation of events: if each step of an event allowed by `P`,
from a state that `Inv` relates to `a`, is matched through `f` by the run of `step'` on `tr a e`,
then every run of allowed events is matched by the run of `step'` on its trace. -/
theorem run_trace {α τ ε' : Type} {step' : τ → ε' → Option τ} (g : α → ε → α)
    (tr : α → ε → List ε') (f : σ → τ) (Inv : α → σ → Prop) (P : ε → Prop)
    (hstep : ∀ a s e s', Inv a s → P e → step s e = some s' →
      Inv (g a e) s' ∧ run step' (f s) (tr a e) = some (f s')) :
    ∀ (es : List ε) (a : α) (s s' : σ), Inv a s → (∀ e ∈ es, P e) → run step s es = some s' →
      run step' (f s) (trace g tr a es) = some (f s')
  | [], a, s, s', _, _, h => by
    simp only [run_nil, Option.some.injEq] at h
    rw [← h]
    rfl
  | e :: es, a, s, s', hs, hP, h => by
    rw [run_cons] at h
    cases hse : step s e with
    | none => simp [hse] at h
    | some s₁ =>
      rw [hse] at h
      obtain ⟨hinv, hrun⟩ := hstep a s e s₁ hs (hP e List.mem_cons_self) hse
      rw [trace, run_append, hrun]
      exact run_trace g tr f Inv P hstep es (g a e) s₁ s' hinv
        (fun e' he' => hP e' (List.mem_cons_of_mem e he')) h

/-- The lockstep simulation rule: a map `f` of states that commutes with each step, on the states
where an invariant holds that the steps keep, maps each run to the run of `step'` on the same
events, a blocked step to a blocked step. -/
theorem run_map {τ : Type} {step' : τ → ε → Option τ} (f : σ → τ) (Inv : σ → Prop)
    (hmap : ∀ s e, Inv s → (step s e).map f = step' (f s) e)
    (hinv : ∀ s e s', Inv s → step s e = some s' → Inv s') :
    ∀ (es : List ε) (s : σ), Inv s → (run step s es).map f = run step' (f s) es
  | [], s, _ => rfl
  | e :: es, s, hs => by
    rw [run_cons, run_cons, ← hmap s e hs]
    cases hse : step s e with
    | none => rfl
    | some s₁ => exact run_map f Inv hmap hinv es s₁ (hinv s e s₁ hs hse)

end Run
