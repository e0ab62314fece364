import Xv6.Lib.Buffer
import Xv6.Lib.Decimal

/-!
# `generate_report.c`: `itoa`

`itoa(num, str)` writes the digits of `num` into `str` least significant first, with `%` and `/`
on `int` (truncating, as `Int32` does), then a `-` for a negative `num`, then a NUL, and reverses
the text in place. The digits are those of `num` after `num = -num`, which wraps for `INT_MIN`.

* `charOf`, `itoaDigits`, `itoa` : the code; the digit loop runs for at most as many turns as the
  magnitude of `num`, and the reversal (`Buffer.swapLoop`) for at most as many as the text has
  bytes;
* `itoaDigits_spec` : from a non-negative `num` the loop writes `Nat.digits 10 num`;
* `itoa_text` : for every `num` but `INT_MIN`, `str` then holds the decimal text of `num` and a
  NUL, and nothing else changes;
* `itoa_int_min` : for `INT_MIN` the digits are negative remainders, and the text is
  `"-./,),(-*,("`, which does not read back as a number.
-/

namespace Xv6

open Buffer Decimal

/-- The byte `(char)v`. -/
def charOf (v : Int32) : UInt8 := v.toInt8.toUInt8

/-- `while (num != 0) { int rem = num % 10; str[i++] = rem + '0'; num = num / 10; }`, for at
most `fuel` turns. -/
def itoaDigits : Nat → Int32 → (Nat → UInt8) → Nat → Option ((Nat → UInt8) × Nat)
  | fuel, num, str, i =>
    if num ≠ 0 then
      match fuel with
      | 0 => none
      | fuel + 1 =>
        let rem := num % 10
        itoaDigits fuel (num / 10) (Function.update str i (charOf (rem + 48))) (i + 1)
    else some (str, i)

/-- `itoa(num, str)`: the bytes it leaves in `str` (`'0'` is `48`, `'-'` is `45`). -/
def itoa (num : Int32) (str : Nat → UInt8) : Option (Nat → UInt8) :=
  if num = 0 then some (Function.update (Function.update str 0 48) 1 0)
  else
    let isNegative := decide (num < 0)
    let num := if num < 0 then -num else num
    match itoaDigits num.toInt.natAbs num str 0 with
    | none => none
    | some (str, i) =>
      let (str, i) := if isNegative then (Function.update str i 45, i + 1) else (str, i)
      let str := Function.update str i 0
      -- Reverse string: `start = 0`, `end = i - 1`
      swapLoop i str 0 (i - 1)

/-! ## `int` arithmetic on a non-negative `num` -/

section Digits

variable {n : Int32}

theorem toInt_div_ten (h : 0 ≤ n.toInt) : (n / 10).toInt = n.toInt / 10 := by
  have hlt := Int32.toInt_lt n
  rw [Int32.toInt_div, show (10 : Int32).toInt = 10 from rfl, Int.tdiv_eq_ediv_of_nonneg h]
  exact Int.bmod_eq_of_le (by omega) (by omega)

theorem toInt_mod_ten (h : 0 ≤ n.toInt) : (n % 10).toInt = n.toInt % 10 := by
  rw [Int32.toInt_mod, show (10 : Int32).toInt = 10 from rfl, Int.tmod_eq_emod_of_nonneg h]

/-- The character of a digit. -/
theorem charOf_digit {d : Nat} (h : d < 10) : charOf (Int32.ofNat d + 48) = digitByte d := by
  have hall : ∀ e : Fin 10, charOf (Int32.ofNat e.val + 48) = digitByte e.val := by decide
  exact hall ⟨d, h⟩

theorem mod_ten_eq (h : 0 ≤ n.toInt) : n % 10 = Int32.ofNat (n.toInt.toNat % 10) := by
  apply Int32.toInt_inj.mp
  rw [toInt_mod_ten h, Int32.toInt_ofNat', Int.bmod_eq_of_le (by simp [Int32.size]; omega)
    (by simp [Int32.size]; omega)]
  omega

theorem digits_toInt_zero : Nat.digits 10 (0 : Int32).toInt.toNat = [] := by
  rw [Int32.toInt_zero, Int.toNat_zero, Nat.digits_zero]

/-- From a non-negative `num`, the loop writes its digits, least significant first. -/
theorem itoaDigits_spec (fuel : Nat) (n : Int32) (str : Nat → UInt8) (i : Nat)
    (h : 0 ≤ n.toInt) (hfuel : n.toInt.toNat ≤ fuel) :
    itoaDigits fuel n str i =
      some (put str i ((Nat.digits 10 n.toInt.toNat).map digitByte),
        i + (Nat.digits 10 n.toInt.toNat).length) := by
  induction fuel generalizing n str i with
  | zero =>
    -- `num` is `0`: no turn
    have h0 : n = 0 := Int32.toInt_inj.mp (by rw [Int32.toInt_zero]; omega)
    subst h0
    rw [itoaDigits, if_neg (not_not.mpr rfl), digits_toInt_zero, List.map_nil, put_nil]
    rfl
  | succ fuel ih =>
    unfold itoaDigits
    split
    · -- one digit, `num % 10`, then the loop on `num / 10`
      rename_i hne
      have hpos : 0 < n.toInt := by
        rcases h.lt_or_eq with hlt | heq
        · exact hlt
        · exact absurd (Int32.toInt_inj.mp (heq.symm.trans rfl)) hne
      have hdiv : 0 ≤ (n / 10).toInt := by rw [toInt_div_ten h]; omega
      have hdigits : Nat.digits 10 n.toInt.toNat =
          n.toInt.toNat % 10 :: Nat.digits 10 (n / 10).toInt.toNat := by
        rw [Nat.digits_def' (by decide) (by omega), toInt_div_ten h]
        congr 2
        omega
      dsimp only
      rw [ih (n / 10) _ _ hdiv (by rw [toInt_div_ten h]; omega), mod_ten_eq h,
        charOf_digit (Nat.mod_lt _ (by decide)), put_cons, hdigits, List.map_cons,
        List.length_cons]
      congr 2
      omega
    · rename_i hz
      have h0 : n = 0 := not_not.mp hz
      subst h0
      rw [digits_toInt_zero, List.map_nil, put_nil]
      rfl

end Digits

/-! ## `itoa` -/

/-- `num = -num` gives the magnitude of every `num` but `INT_MIN`. -/
theorem toInt_abs {num : Int32} (hnum : num ≠ Int32.minValue) :
    (if num < 0 then -num else num).toInt = (num.toInt.natAbs : Int) := by
  have hge := Int32.le_toInt num
  have hlt := Int32.toInt_lt num
  split
  · rename_i hneg
    have hneg' := Int32.lt_iff_toInt_lt.mp hneg
    have hmin : num.toInt ≠ -2 ^ 31 := fun he =>
      hnum (Int32.toInt_inj.mp (he.trans Int32.toInt_minValue.symm))
    rw [Int32.toInt_zero] at hneg'
    rw [Int32.toInt_neg, Int.bmod_eq_of_le (by omega) (by omega)]
    omega
  · rename_i hpos
    have hpos' := Int32.lt_iff_toInt_lt.not.mp hpos
    rw [Int32.toInt_zero] at hpos'
    omega

/-- For every `num` but `INT_MIN`, `itoa` writes the decimal text of `num` and a NUL from
`str[0]`, and nothing else. -/
theorem itoa_text (num : Int32) (hnum : num ≠ Int32.minValue) (str : Nat → UInt8) :
    itoa num str = some (put str 0 (intText num.toInt ++ [0])) := by
  unfold itoa
  split
  · -- `"0"`
    rename_i h0
    subst h0
    rw [Int32.toInt_zero, intText, if_neg (lt_irrefl 0), natText, Int.natAbs_zero, if_pos rfl,
      List.nil_append, ← put_concat, ← put_cons, put_nil]
    rfl
  rename_i hne
  have hmag := toInt_abs hnum
  have hnz : num.toInt.natAbs ≠ 0 := fun h =>
    hne (Int32.toInt_inj.mp (by rw [Int32.toInt_zero]; omega))
  dsimp only
  rw [itoaDigits_spec _ _ str 0 (by rw [hmag]; omega) (by rw [hmag]; omega), hmag,
    Int.toNat_natCast]
  -- the digits, least significant first, are the text of the magnitude reversed
  generalize hD : (Nat.digits 10 num.toInt.natAbs).map digitByte = D
  have hDrev : D.reverse = natText num.toInt.natAbs := by
    rw [← hD, ← reverse_natText hnz, List.reverse_reverse]
  have hlen : (Nat.digits 10 num.toInt.natAbs).length = D.length := by rw [← hD, List.length_map]
  rw [Nat.zero_add, hlen]
  by_cases hneg : num < 0
  · -- `-`, the NUL, then the reversal of the digits and the `-`
    have hneg' := Int32.lt_iff_toInt_lt.mp hneg
    rw [Int32.toInt_zero] at hneg'
    simp only [hneg, decide_true, if_true]
    rw [show D.length = 0 + D.length from (Nat.zero_add _).symm, put_concat,
      show 0 + D.length + 1 = 0 + (D ++ [45]).length by simp, put_concat,
      swapLoop_put _ _ _ _ (by simp; omega), List.reverse_append, List.reverse_singleton,
      intText, if_pos hneg', hDrev]
  · have hpos' := Int32.lt_iff_toInt_lt.not.mp hneg
    rw [Int32.toInt_zero] at hpos'
    simp only [hneg, decide_false, Bool.false_eq_true, if_false]
    rw [show D.length = 0 + D.length from (Nat.zero_add _).symm, put_concat,
      swapLoop_put _ _ _ _ (by omega), intText, if_neg (by omega), List.nil_append, hDrev]

/-- `INT_MIN`: `-num` is `INT_MIN` again, its remainders are the negative digits `-8, -4, …, -2`,
and the text written is `"-./,),(-*,("`, not `"-2147483648"`; it does not read back. -/
theorem itoa_int_min :
    (itoa Int32.minValue fun _ => 0).map (get · 0 12) =
        some [45, 46, 47, 44, 41, 44, 40, 45, 42, 44, 40, 0] ∧
      intText Int32.minValue.toInt = [45, 50, 49, 52, 55, 52, 56, 51, 54, 52, 56] ∧
      parseInt [45, 46, 47, 44, 41, 44, 40, 45, 42, 44, 40] = none := by
  decide +kernel

end Xv6
