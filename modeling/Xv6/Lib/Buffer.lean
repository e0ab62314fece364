import Mathlib.Logic.Function.Basic
import Mathlib.Data.List.Basic

/-!
# Buffers: a list written into a memory, and its reversal in place

A memory is a function `Nat → β` from offsets to values. `put m i l` is `m` with the list `l`
written from offset `i`, and `get m i n` reads `n` values from `i`. A C loop that writes one
value after another, or that exchanges the two ends of a range until they meet, is a `put`:

* `get_put`, `put_of_lt`, `put_of_le` : reading back what was put, and the offsets around it;
* `put_cons`, `put_concat` : a write just before or just after a written list extends it;
* `swapLoop` : `while (start < end) { t = a[start]; a[start] = a[end]; a[end] = t; start++;
  end--; }`, for at most `fuel` turns;
* `swapLoop_spec` : with enough fuel the loop reverses `a[start..end]` and nothing else;
* `swapLoop_put` : reversing the first `l.length` values of a written `l ++ r` writes
  `l.reverse ++ r`.
-/

namespace Xv6

namespace Buffer

variable {β : Type}

/-- `m` with `l` written from offset `i`. -/
def put (m : Nat → β) (i : Nat) (l : List β) : Nat → β := fun k =>
  if h : i ≤ k ∧ k < i + l.length then l[k - i] else m k

/-- The `n` values from offset `i`. -/
def get (m : Nat → β) (i n : Nat) : List β := (List.range n).map fun k => m (i + k)

theorem put_of_lt (m : Nat → β) {i k : Nat} (l : List β) (h : k < i) : put m i l k = m k := by
  rw [put, dif_neg (by omega)]

theorem put_of_le (m : Nat → β) {i k : Nat} (l : List β) (h : i + l.length ≤ k) :
    put m i l k = m k := by
  rw [put, dif_neg (by omega)]

theorem put_apply (m : Nat → β) {i k : Nat} {l : List β} (h : i ≤ k) (h' : k < i + l.length) :
    put m i l k = l[k - i] := by
  rw [put, dif_pos ⟨h, h'⟩]

theorem put_nil (m : Nat → β) (i : Nat) : put m i [] = m := by
  funext k
  rw [put, dif_neg (by simp)]

theorem get_put (m : Nat → β) (i : Nat) (l : List β) : get (put m i l) i l.length = l := by
  apply List.ext_getElem
  · simp [get]
  · intro k h₁ h₂
    simp only [get, List.getElem_map, List.getElem_range, put]
    rw [dif_pos (by omega)]
    congr 1
    omega

/-- A value written at `i`, then `l` from `i + 1`: `b :: l` from `i`. -/
theorem put_cons (m : Nat → β) (i : Nat) (b : β) (l : List β) :
    put (Function.update m i b) (i + 1) l = put m i (b :: l) := by
  funext k
  by_cases hk : k = i
  · subst hk
    rw [put_of_lt _ _ (Nat.lt_succ_self k), Function.update_self, put, dif_pos (by simp)]
    simp
  · unfold put
    by_cases hin : i + 1 ≤ k ∧ k < i + 1 + l.length
    · rw [dif_pos hin, dif_pos (by simp only [List.length_cons]; omega)]
      have : k - i = (k - (i + 1)) + 1 := by omega
      simp only [this, List.getElem_cons_succ]
    · rw [dif_neg hin, dif_neg (by simp only [List.length_cons]; omega), Function.update_of_ne hk]

/-- A value written just past `l`: `l ++ [b]`. -/
theorem put_concat (m : Nat → β) (i : Nat) (l : List β) (b : β) :
    Function.update (put m i l) (i + l.length) b = put m i (l ++ [b]) := by
  funext k
  by_cases hk : k = i + l.length
  · subst hk
    rw [Function.update_self, put, dif_pos (by simp)]
    simp
  · rw [Function.update_of_ne hk]
    unfold put
    by_cases hin : i ≤ k ∧ k < i + l.length
    · rw [dif_pos hin, dif_pos (by simp only [List.length_append, List.length_singleton]; omega),
        List.getElem_append_left]
    · rw [dif_neg hin, dif_neg (by simp only [List.length_append, List.length_singleton]; omega)]

/-! ## Reversal by swapping the ends -/

/-- `t = a[i]; a[i] = a[j]; a[j] = t;` -/
def swap (a : Nat → β) (i j : Nat) : Nat → β :=
  Function.update (Function.update a i (a j)) j (a i)

/-- `while (start < end) { swap a[start], a[end]; start++; end--; }`, at most `fuel` turns. -/
def swapLoop : Nat → (Nat → β) → Nat → Nat → Option (Nat → β)
  | fuel, a, start, stop =>
    if start < stop then
      match fuel with
      | 0 => none
      | fuel + 1 => swapLoop fuel (swap a start stop) (start + 1) (stop - 1)
    else some a

theorem swap_of_ne (a : Nat → β) {i j k : Nat} (hi : k ≠ i) (hj : k ≠ j) : swap a i j k = a k := by
  rw [swap, Function.update_of_ne hj, Function.update_of_ne hi]

/-- A range of at most one value reads the same either way. -/
theorem reverse_short (a : Nat → β) {start stop : Nat} (h : stop ≤ start) :
    (fun k => if start ≤ k ∧ k ≤ stop then a (start + stop - k) else a k) = a := by
  funext k
  split
  · congr 1
    omega
  · rfl

/-- With `(end - start + 1) / 2` turns the loop reverses `a[start..end]`. -/
theorem swapLoop_spec (fuel : Nat) (a : Nat → β) (start stop : Nat)
    (hfuel : (stop + 1 - start) / 2 ≤ fuel) :
    swapLoop fuel a start stop =
      some fun k => if start ≤ k ∧ k ≤ stop then a (start + stop - k) else a k := by
  induction fuel generalizing a start stop with
  | zero =>
    rw [swapLoop, if_neg (by omega), reverse_short a (by omega)]
  | succ fuel ih =>
    unfold swapLoop
    split
    · rename_i hlt
      dsimp only
      rw [ih (swap a start stop) (start + 1) (stop - 1) (by omega)]
      congr 1
      funext k
      -- the two ends were exchanged by this turn, the inside by the later ones
      by_cases hs : k = start
      · subst hs
        rw [if_neg (by omega), if_pos (by omega), swap, Function.update_of_ne (by omega),
          Function.update_self]
        congr 1
        omega
      by_cases he : k = stop
      · subst he
        rw [if_neg (by omega), if_pos (by omega), swap, Function.update_self]
        congr 1
        omega
      by_cases hin : start + 1 ≤ k ∧ k ≤ stop - 1
      · rw [if_pos hin, if_pos (by omega), swap_of_ne _ (by omega) (by omega)]
        congr 1
        omega
      · rw [if_neg hin, if_neg (by omega), swap_of_ne _ hs he]
    · rw [reverse_short a (by omega)]

/-- Reversing the first `l.length` values of `l ++ r` written from `i`. -/
theorem swapLoop_put (m : Nat → β) (i : Nat) (l r : List β) {fuel : Nat}
    (hfuel : l.length / 2 ≤ fuel) :
    swapLoop fuel (put m i (l ++ r)) i (i + l.length - 1) = some (put m i (l.reverse ++ r)) := by
  cases l with
  | nil =>
    unfold swapLoop
    rw [if_neg (by simp)]
    rfl
  | cons b l' =>
  generalize hl : b :: l' = l at hfuel ⊢
  have hlen : 0 < l.length := by rw [← hl]; exact Nat.succ_pos _
  rw [swapLoop_spec fuel _ i _ (by omega)]
  congr 1
  funext k
  by_cases hk : i ≤ k ∧ k ≤ i + l.length - 1
  · -- inside the reversed range: `l` read from its other end
    rw [if_pos hk, put_apply _ (by omega) (by simp only [List.length_append]; omega),
      put_apply _ hk.1 (by simp only [List.length_append, List.length_reverse]; omega),
      List.getElem_append_left (by omega),
      List.getElem_append_left (by simp only [List.length_reverse]; omega), List.getElem_reverse]
    congr 1
    omega
  · rw [if_neg hk]
    by_cases hi : k < i
    · rw [put_of_lt _ _ hi, put_of_lt _ _ hi]
    by_cases hr : k < i + (l ++ r).length
    · -- past it the suffix `r`
      have hr' : k < i + (l.reverse ++ r).length := by simpa using hr
      rw [put_apply _ (by omega) hr, put_apply _ (by omega) hr',
        List.getElem_append_right (by omega),
        List.getElem_append_right (by simp only [List.length_reverse]; omega)]
      simp only [List.length_reverse]
    · rw [put_of_le _ _ (by omega), put_of_le _ _ (by simpa using hr)]

end Buffer

end Xv6
