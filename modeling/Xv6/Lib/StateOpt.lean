import Mathlib.Control.Basic

/-!
# Code in `StateT σ Option`: the results of a run

Code that changes a state and may stop (`failure`, a `panic`) is `StateT σ Option`. A
property of such code is stated of its successful runs, `x s = some (a, s')`, and proved by
taking the run apart with the lemmas here, one per construct, never by unfolding `StateT`:

* `bind_eq_some` : a run of `x >>= f` is a run of `x` followed by a run of `f`, and
  `bind_of_eq_some` computes it from a known run of `x`;
* `pure_eq_some`, `get_eq_some`, `get_bind_eq_some`, `set_eq_some`, `modify_eq_some`, `failure_ne_some`,
  `failure_bind_ne_some`, `ite_eq_some`, `discard_eq_some`;
* `forIn_nil_eq_some`, `forIn_cons_eq_some` : a loop over `a :: l` is the body on `a`, then
  either the end or the loop over `l`;
* `forIn_inv` : the invariant rule of a loop, over the elements still to come.
-/

namespace StateOpt

variable {σ α β : Type}

theorem bind_eq_some {x : StateT σ Option α} {f : α → StateT σ Option β} {s s' : σ} {b : β} :
    (x >>= f) s = some (b, s') ↔ ∃ a t, x s = some (a, t) ∧ f a t = some (b, s') := by
  change (x s >>= fun p => f p.1 p.2) = _ ↔ _
  cases h : x s with
  | none => simp
  | some p =>
    obtain ⟨a, t⟩ := p
    simp only [Option.bind_eq_bind, Option.bind_some, Option.some.injEq, Prod.mk.injEq]
    constructor
    · intro hf
      exact ⟨a, t, ⟨rfl, rfl⟩, hf⟩
    · rintro ⟨a', t', ⟨rfl, rfl⟩, hf⟩
      exact hf

/-- A run of `x >>= f` once the run of `x` is known. -/
theorem bind_of_eq_some {x : StateT σ Option α} {f : α → StateT σ Option β} {s t : σ} {a : α}
    (h : x s = some (a, t)) : (x >>= f) s = f a t := by
  change (x s >>= fun p => f p.1 p.2) = _
  rw [h]
  rfl

/-! Runs computed: the rewrites that take a run of straight-line code apart from its first step. -/

theorem get_bind (f : σ → StateT σ Option β) (s : σ) : (get >>= f) s = f s s := rfl

theorem modify_bind (g : σ → σ) (f : PUnit → StateT σ Option β) (s : σ) :
    (modify g >>= f) s = f ⟨⟩ (g s) := rfl

theorem failure_bind (f : α → StateT σ Option β) (s : σ) : (failure >>= f) s = none := rfl

theorem pure_bind' (a : α) (f : α → StateT σ Option β) (s : σ) : (pure a >>= f) s = f a s := rfl

theorem run_pure (a : α) (s : σ) : (pure a : StateT σ Option α) s = some (a, s) := rfl

theorem run_modify (g : σ → σ) (s : σ) : (modify g : StateT σ Option PUnit) s = some (⟨⟩, g s) := rfl

theorem run_set (t s : σ) : (set t : StateT σ Option PUnit) s = some (⟨⟩, t) := rfl

theorem run_failure (s : σ) : (failure : StateT σ Option α) s = none := rfl

theorem bind_of_eq_none {x : StateT σ Option α} {f : α → StateT σ Option β} {s : σ}
    (h : x s = none) : (x >>= f) s = none := by
  change (x s >>= fun p => f p.1 p.2) = _
  rw [h]
  rfl

theorem run_ite {c : Prop} [Decidable c] (x y : StateT σ Option α) (s : σ) :
    (if c then x else y) s = if c then x s else y s := by
  split <;> rfl

theorem run_ite_bind {c : Prop} [Decidable c] (x y : StateT σ Option α) (f : α → StateT σ Option β)
    (s : σ) : ((if c then x else y) >>= f) s = if c then (x >>= f) s else (y >>= f) s := by
  split <;> rfl

theorem pure_eq_some {a b : α} {s s' : σ} :
    (pure a : StateT σ Option α) s = some (b, s') ↔ a = b ∧ s = s' := by
  change some (a, s) = _ ↔ _
  simp

theorem get_eq_some {a s s' : σ} :
    (get : StateT σ Option σ) s = some (a, s') ↔ a = s ∧ s' = s := by
  change some (s, s) = _ ↔ _
  simp [eq_comm]

/-- Code that starts by reading the state. -/
theorem get_bind_eq_some {f : σ → StateT σ Option β} {s : σ} {p : β × σ} :
    (get >>= f) s = some p ↔ f s s = some p := by
  obtain ⟨b, s'⟩ := p
  rw [bind_eq_some]
  constructor
  · rintro ⟨a, t, hg, hf⟩
    obtain ⟨rfl, rfl⟩ := get_eq_some.mp hg
    exact hf
  · intro hf
    exact ⟨s, s, get_eq_some.mpr ⟨rfl, rfl⟩, hf⟩

theorem set_eq_some {t s s' : σ} {u : PUnit} :
    (set t : StateT σ Option PUnit) s = some (u, s') ↔ s' = t := by
  change some (PUnit.unit, t) = _ ↔ _
  simp [eq_comm]

theorem modify_eq_some {g : σ → σ} {s s' : σ} {u : PUnit} :
    (modify g : StateT σ Option PUnit) s = some (u, s') ↔ s' = g s := by
  change some (PUnit.unit, g s) = _ ↔ _
  simp [eq_comm]

theorem failure_ne_some {s : σ} {p : α × σ} : (failure : StateT σ Option α) s ≠ some p := by
  change none ≠ _
  simp

theorem failure_bind_ne_some {f : α → StateT σ Option β} {s : σ} {p : β × σ} :
    (failure >>= f) s ≠ some p := by
  intro h
  obtain ⟨a, t, hx, -⟩ := bind_eq_some.mp h
  exact failure_ne_some hx

theorem ite_eq_some {c : Prop} [Decidable c] {x y : StateT σ Option α} {s : σ} {p : α × σ} :
    (if c then x else y) s = some p ↔ (c ∧ x s = some p) ∨ (¬ c ∧ y s = some p) := by
  by_cases hc : c
  · simp [hc]
  · simp [hc]

theorem discard_eq_some {x : StateT σ Option α} {s s' : σ} {u : PUnit} :
    (Functor.discard x) s = some (u, s') ↔ ∃ a, x s = some (a, s') := by
  change (x s >>= fun p => some (PUnit.unit, p.2)) = _ ↔ _
  cases h : x s with
  | none => simp
  | some p =>
    obtain ⟨a, t⟩ := p
    simp [eq_comm]

theorem forIn_nil_eq_some {f : α → β → StateT σ Option (ForInStep β)} {b b' : β} {s s' : σ} :
    (forIn [] b f : StateT σ Option β) s = some (b', s') ↔ b = b' ∧ s = s' := by
  rw [List.forIn_nil, pure_eq_some]

/-- One turn of a loop: the body on the first element, and then either the loop stops there
or it goes on over the rest. -/
theorem forIn_cons_eq_some {f : α → β → StateT σ Option (ForInStep β)} {a : α} {l : List α}
    {b b' : β} {s s' : σ} (h : (forIn (a :: l) b f : StateT σ Option β) s = some (b', s')) :
    ∃ r t, f a b s = some (r, t) ∧
      ((r = .done b' ∧ t = s') ∨
        ∃ c, r = .yield c ∧ (forIn l c f : StateT σ Option β) t = some (b', s')) := by
  rw [List.forIn_cons, bind_eq_some] at h
  obtain ⟨r, t, hr, hl⟩ := h
  refine ⟨r, t, hr, ?_⟩
  cases r with
  | done c =>
    obtain ⟨rfl, rfl⟩ := pure_eq_some.mp hl
    exact Or.inl ⟨rfl, rfl⟩
  | yield c => exact Or.inr ⟨c, rfl, hl⟩

/-- The invariant rule of a loop: `I l b s` with `l` the elements still to come. A turn on
`a :: l` either goes on with `I l` or stops with the loop's end `I []`. -/
theorem forIn_inv {f : α → β → StateT σ Option (ForInStep β)} (I : List α → β → σ → Prop)
    (hf : ∀ a l b s r t, I (a :: l) b s → f a b s = some (r, t) →
      (∃ c, r = .yield c ∧ I l c t) ∨ (∃ c, r = .done c ∧ I [] c t)) :
    ∀ {l : List α} {b b' : β} {s s' : σ}, I l b s →
      (forIn l b f : StateT σ Option β) s = some (b', s') → I [] b' s'
  | [], _, _, _, _, hI, h => by
    obtain ⟨rfl, rfl⟩ := forIn_nil_eq_some.mp h
    exact hI
  | a :: l, _, _, _, _, hI, h => by
    obtain ⟨r, t, hr, hnext⟩ := forIn_cons_eq_some h
    rcases hf a l _ _ r t hI hr with ⟨c, rfl, hc⟩ | ⟨c, rfl, hc⟩
    · -- the loop goes on over `l`
      rcases hnext with ⟨hd, -⟩ | ⟨c', hc', hl⟩
      · cases hd
      · cases hc'
        exact forIn_inv I hf hc hl
    · -- the loop stops here
      rcases hnext with ⟨hd, rfl⟩ | ⟨c', hc', -⟩
      · cases hd
        exact hc
      · cases hc'

end StateOpt
