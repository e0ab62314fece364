import Mathlib.Logic.Function.Basic
import Mathlib.Order.Fin.Basic

/-!
# Fixed-size tables: first-match scans

A C array of `n` records walked by `for (p = a; p < &a[n]; p++) if (test(p)) break;` is a table
`Fin n → α`, and the walk is `firstIdx P`: the first index whose entry passes the test, or `none`
when the walk runs off the end of the array.

* `firstIdx_eq_some_iff` : `i` passes and no earlier index does;
* `firstIdx_eq_none_iff` : no index passes.
-/

namespace Scan

variable {n : Nat}

/-- The first index passing `P`, scanning `0, 1, …, n - 1`. -/
def firstIdx (P : Fin n → Bool) : Option (Fin n) := (List.finRange n).find? P

theorem firstIdx_eq_some_iff (P : Fin n → Bool) (i : Fin n) :
    firstIdx P = some i ↔ P i = true ∧ ∀ j < i, P j = false := by
  rw [firstIdx, List.find?_eq_some_iff_getElem]
  constructor
  · rintro ⟨hi, k, hk, hki, hbefore⟩
    refine ⟨hi, fun j hj => ?_⟩
    have hk' : k = i.val := by
      rw [← hki]
      simp
    have hjk : j.val < k := by rw [hk']; exact hj
    have := hbefore j.val hjk
    simpa using this
  · rintro ⟨hi, hbefore⟩
    refine ⟨hi, i.val, by simp, by simp, fun j hj => ?_⟩
    have hjn : j < n := Nat.lt_trans hj i.isLt
    have := hbefore ⟨j, hjn⟩ hj
    simpa using this

theorem firstIdx_eq_none_iff (P : Fin n → Bool) : firstIdx P = none ↔ ∀ i, P i = false := by
  rw [firstIdx, List.find?_eq_none]
  simp [List.mem_finRange]

theorem firstIdx_spec {P : Fin n → Bool} {i : Fin n} (h : firstIdx P = some i) : P i = true :=
  ((firstIdx_eq_some_iff P i).1 h).1

theorem firstIdx_min {P : Fin n → Bool} {i j : Fin n} (h : firstIdx P = some i) (hj : j < i) :
    P j = false :=
  ((firstIdx_eq_some_iff P i).1 h).2 j hj

end Scan
