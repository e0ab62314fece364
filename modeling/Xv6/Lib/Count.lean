import Mathlib.Algebra.BigOperators.Group.Finset.Piecewise
import Mathlib.Tactic.Abel
import Mathlib.Algebra.BigOperators.Fin

/-!
# Counts over a finite type under a change at one point

Reference counts are counts of the slots of a table that point somewhere. A table is a
function on a finite type, and a write changes it at one point (`Function.update`):

* `sum_update_add` : the sum of a function changed at `a` to `b`, with the old value added,
  is the old sum with `b` added;
* `card_filter_update` : the same for the number of points whose value satisfies `P`;
* `countP_finRange` : a count over `Fin n` is what a loop over `List.finRange n` counts.

Both are stated with the old and the new value on opposite sides, so that they hold in `ℕ`
with no subtraction.
-/

namespace Count

open Finset

variable {α β M : Type} [Fintype α] [DecidableEq α]

theorem sum_update_add [AddCommMonoid M] (g : α → M) (a : α) (b : M) :
    ∑ x, Function.update g a b x + g a = ∑ x, g x + b := by
  rw [sum_update_of_mem (mem_univ a), Fintype.sum_eq_add_sum_compl a g, compl_eq_univ_sdiff]
  abel

theorem card_filter_update (P : β → Prop) [DecidablePred P] (g : α → β) (a : α) (b : β) :
    #{x | P (Function.update g a b x)} + (if P (g a) then 1 else 0) =
      #{x | P (g x)} + (if P b then 1 else 0) := by
  have hupd : (fun x => if P (Function.update g a b x) then 1 else 0) =
      Function.update (fun x => if P (g x) then 1 else 0) a (if P b then 1 else 0) := by
    funext x
    by_cases hx : x = a
    · subst hx
      simp
    · simp [hx]
  rw [card_filter, card_filter, hupd]
  exact sum_update_add _ a _

/-- Counting over `Fin n` by walking `List.finRange n`, as a loop over the slots does. -/
theorem countP_finRange {n : Nat} (P : Fin n → Prop) [DecidablePred P] :
    (List.finRange n).countP (fun i => decide (P i)) = #{i | P i} := by
  rw [card_filter, Fin.sum_univ_def]
  induction List.finRange n with
  | nil => simp
  | cons a l ih =>
    rw [List.countP_cons, ih, List.map_cons, List.sum_cons, Nat.add_comm]
    simp

end Count
