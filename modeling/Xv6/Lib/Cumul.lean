import Mathlib

/-!
# Selection by a running sum of weights

A loop that walks a list adding each element's weight to a count, and stops at the first element
that takes the count past a target `w`, picks the element whose interval
`[before a, before a + wt a)` holds `w` (the intervals of the elements follow each other). Drawing
`w` below the total weight picks each element for exactly as many targets as its weight.

* `pick` : the loop; `before` : the weight of the elements ahead of `a`;
* `pick_eq_some_iff` : the loop stops at `a` exactly when `w` is in the interval of `a`;
* `pick_isSome` : a target below the count plus the total is always reached;
* `card_pick_eq` : each element is picked by `wt a` of the targets below the total;
* `before_eq_sum_lt` : for a list in increasing order, `before` is the weight of the smaller
  elements.
-/

namespace Cumul

variable {α : Type} [DecidableEq α] (wt : α → ℕ)

/-- The first element of `l` at which the count, started at `c`, passes `w`. -/
def pick (w : ℕ) : List α → ℕ → Option α
  | [], _ => none
  | a :: l, c => if w < c + wt a then some a else pick w l (c + wt a)

/-- The weight of the elements of `l` ahead of the first `a`. -/
def before (l : List α) (a : α) : ℕ := ((l.takeWhile (· ≠ a)).map wt).sum

variable {wt}

theorem before_cons_self (a : α) (l : List α) : before wt (a :: l) a = 0 := by
  simp [before]

theorem before_cons_of_ne {a x : α} (l : List α) (h : x ≠ a) :
    before wt (x :: l) a = wt x + before wt l a := by
  simp [before, h]

/-- An element's interval ends within the total. -/
theorem before_add_le {a : α} : ∀ {l : List α}, a ∈ l → before wt l a + wt a ≤ (l.map wt).sum
  | x :: l, h => by
    by_cases hx : x = a
    · subst hx
      simp [before_cons_self]
    · have ha : a ∈ l := by simpa [Ne.symm hx] using h
      rw [before_cons_of_ne l hx, List.map_cons, List.sum_cons]
      have := before_add_le ha
      omega

/-- The loop stops at `a` exactly when `w` is in the interval of `a`, for a list with no
repetition and a count not yet past `w`. -/
theorem pick_eq_some_iff {w : ℕ} {a : α} :
    ∀ {l : List α} {c : ℕ}, l.Nodup → c ≤ w →
      (pick wt w l c = some a ↔ a ∈ l ∧ c + before wt l a ≤ w ∧ w < c + before wt l a + wt a)
  | [], _, _, _ => by simp [pick]
  | x :: l, c, hnd, hc => by
    obtain ⟨hx, hnd'⟩ := List.nodup_cons.mp hnd
    rw [pick]
    split_ifs with hw
    · -- the loop stops at `x`: `a` is `x`, or its interval starts past `w`
      by_cases hxa : x = a
      · subst hxa
        simp [before_cons_self, hc, hw]
      · rw [before_cons_of_ne l hxa]
        constructor
        · intro h
          exact absurd (Option.some.inj h) hxa
        · rintro ⟨-, h, -⟩
          omega
    · -- the loop goes on over `l` with the count past `x`
      have ih := pick_eq_some_iff (w := w) (a := a) hnd' (c := c + wt x) (by omega)
      by_cases hxa : x = a
      · subst hxa
        rw [before_cons_self]
        constructor
        · intro h
          exact absurd (ih.mp h).1 hx
        · rintro ⟨-, -, h⟩
          omega
      · rw [ih, before_cons_of_ne l hxa, List.mem_cons]
        constructor
        · rintro ⟨ha, h₁, h₂⟩
          exact ⟨Or.inr ha, by omega, by omega⟩
        · rintro ⟨ha | ha, h₁, h₂⟩
          · exact absurd ha.symm hxa
          · exact ⟨ha, by omega, by omega⟩

omit [DecidableEq α] in
/-- A target below the count plus the total weight is always reached. -/
theorem pick_isSome {w : ℕ} : ∀ {l : List α} {c : ℕ}, c ≤ w → w < c + (l.map wt).sum →
    ∃ a, pick wt w l c = some a
  | [], c, hc, hw => by simp at hw; omega
  | x :: l, c, hc, hw => by
    rw [pick]
    split_ifs with hx
    · exact ⟨x, rfl⟩
    · rw [List.map_cons, List.sum_cons] at hw
      exact pick_isSome (by omega) (by omega)

/-- Each element of a list with no repetition is picked by exactly its weight of the targets
below the total. -/
theorem card_pick_eq {l : List α} {a : α} (hnd : l.Nodup) (ha : a ∈ l) :
    ((Finset.range (l.map wt).sum).filter fun w => pick wt w l 0 = some a).card = wt a := by
  have hset : ((Finset.range (l.map wt).sum).filter fun w => pick wt w l 0 = some a) =
      Finset.Ico (before wt l a) (before wt l a + wt a) := by
    ext w
    have hle : before wt l a + wt a ≤ (l.map wt).sum := before_add_le ha
    simp only [Finset.mem_filter, Finset.mem_range, Finset.mem_Ico,
      pick_eq_some_iff hnd (Nat.zero_le w), Nat.zero_add]
    constructor
    · rintro ⟨-, -, h₁, h₂⟩
      exact ⟨h₁, h₂⟩
    · rintro ⟨h₁, h₂⟩
      exact ⟨by omega, ha, h₁, h₂⟩
  rw [hset, Nat.card_Ico]
  omega

/-- In a list in increasing order, the elements ahead of `a` are the smaller ones. -/
theorem takeWhile_ne_eq_filter_lt {β : Type} [LinearOrder β] {a : β} :
    ∀ {l : List β}, l.Pairwise (· < ·) → a ∈ l → l.takeWhile (· ≠ a) = l.filter (· < a)
  | x :: l, hs, ha => by
    obtain ⟨hx, hs'⟩ := List.pairwise_cons.mp hs
    by_cases hxa : x = a
    · subst hxa
      -- everything after `x` is larger
      have : l.filter (· < x) = [] := List.filter_eq_nil_iff.mpr fun y hy => by
        simpa using (hx y hy).le
      simp [this]
    · have ha' : a ∈ l := by simpa [Ne.symm hxa] using ha
      have hlt : x < a := hx a ha'
      rw [List.takeWhile_cons_of_pos (by simpa using hxa), List.filter_cons_of_pos (by simpa using hlt),
        takeWhile_ne_eq_filter_lt hs' ha']

/-- For a list in increasing order, the weight ahead of `a` is the weight of the smaller
elements. -/
theorem before_eq_sum_lt {β : Type} [LinearOrder β] {w : β → ℕ} {l : List β} {a : β}
    (hs : l.Pairwise (· < ·)) (ha : a ∈ l) :
    before w l a = ∑ x ∈ l.toFinset.filter (· < a), w x := by
  have hl : l.Nodup := hs.imp fun h => ne_of_lt h
  have hnd : (l.filter (· < a)).Nodup := hl.filter _
  rw [before, takeWhile_ne_eq_filter_lt hs ha, ← List.sum_toFinset _ hnd]
  congr 1
  ext x
  simp

end Cumul
