import Mathlib.Data.Nat.Digits.Lemmas

/-!
# Decimal text of integers, and reading it back

ASCII decimal text as bytes: the digits of a natural number, most significant first and with no
leading zero (`"0"` for zero), and a `-` before the digits of a negative integer's magnitude.

* `digitByte`, `natText`, `intText` : the text;
* `natText_head` : the first digit of a positive number is not `0`;
* `reverse_natText` : the text reversed is `Nat.digits`, least significant first;
* `digitsValue`, `parseInt` : reading text back, left to right;
* `digitsValue_natText`, `parseInt_intText` : the text reads back as the number.
-/

namespace Xv6

namespace Decimal

/-- The ASCII byte of the digit `d`. -/
def digitByte (d : Nat) : UInt8 := (48 + d).toUInt8

/-- The digits of `n`, most significant first; `"0"` for zero. -/
def natText (n : Nat) : List UInt8 :=
  if n = 0 then [digitByte 0] else (Nat.digits 10 n).reverse.map digitByte

/-- A `-` for a negative `z`, then the digits of its magnitude. -/
def intText (z : Int) : List UInt8 := (if z < 0 then [45] else []) ++ natText z.natAbs

/-- The value of a string of digits, `none` at a byte that is not a digit. -/
def digitsValue (s : List UInt8) : Option Nat :=
  s.foldlM (fun v b => if 48 ≤ b ∧ b ≤ 57 then some (10 * v + (b.toNat - 48)) else none) 0

/-- An optional `-`, then at least one digit. -/
def parseInt (s : List UInt8) : Option Int :=
  if s.head? = some 45 then
    if s.tail = [] then none else (digitsValue s.tail).map fun (v : Nat) => -(v : Int)
  else if s = [] then none else (digitsValue s).map fun (v : Nat) => (v : Int)

theorem toNat_digitByte {d : Nat} (h : d < 10) : (digitByte d).toNat = 48 + d := by
  simp only [digitByte, Nat.toUInt8, UInt8.toNat_ofNat']
  omega

theorem digitByte_ne_minus {d : Nat} (h : d < 10) : digitByte d ≠ 45 := fun he => by
  have := toNat_digitByte h
  rw [he, show (45 : UInt8).toNat = 45 from rfl] at this
  omega

/-- The leading digit of a positive number is not `0`. -/
theorem natText_head {n : Nat} (hn : n ≠ 0) : (natText n).head? ≠ some (digitByte 0) := by
  have hne : Nat.digits 10 n ≠ [] := Nat.digits_ne_nil_iff_ne_zero.mpr hn
  have hlast := Nat.getLast_digit_ne_zero 10 hn
  have hlt : (Nat.digits 10 n).getLast hne < 10 :=
    Nat.digits_lt_base (by decide) (List.getLast_mem hne)
  rw [natText, if_neg hn, List.head?_map, List.head?_reverse, List.getLast?_eq_some_getLast hne,
    Option.map_some, ne_eq, Option.some.injEq]
  intro he
  have := congrArg UInt8.toNat he
  rw [toNat_digitByte hlt, toNat_digitByte (by decide)] at this
  exact hlast (by omega)

/-- Digits read back, least significant given first. -/
theorem digitsValue_digits (l : List Nat) (hl : ∀ d ∈ l, d < 10) :
    digitsValue (l.reverse.map digitByte) = some (Nat.ofDigits 10 l) := by
  induction l with
  | nil => rfl
  | cons d l ih =>
    have hd : d < 10 := hl d List.mem_cons_self
    have hrest := ih fun e he => hl e (List.mem_cons_of_mem d he)
    -- the last byte read is the least significant digit
    rw [List.reverse_cons, List.map_append, digitsValue, List.foldlM_append, ← digitsValue, hrest]
    have hb := toNat_digitByte hd
    have hdig : 48 ≤ digitByte d ∧ digitByte d ≤ 57 := by
      simp only [UInt8.le_iff_toNat_le, hb]
      exact ⟨by simp, by simp; omega⟩
    simp only [List.map_cons, List.map_nil, List.foldlM_cons, List.foldlM_nil, Nat.ofDigits_cons,
      Option.bind_eq_bind, Option.bind_some, if_pos hdig, hb, Option.pure_def, Option.some.injEq]
    omega

theorem digitsValue_natText (n : Nat) : digitsValue (natText n) = some n := by
  unfold natText
  split
  · rename_i h
    subst h
    rfl
  · rw [digitsValue_digits _ fun d hd => Nat.digits_lt_base (by decide) hd, Nat.ofDigits_digits]

/-- Reversed, the text of a positive number is its digits, least significant first. -/
theorem reverse_natText {n : Nat} (hn : n ≠ 0) :
    (natText n).reverse = (Nat.digits 10 n).map digitByte := by
  rw [natText, if_neg hn, List.map_reverse, List.reverse_reverse]

theorem natText_ne_nil (n : Nat) : natText n ≠ [] := by
  unfold natText
  split
  · simp
  · rename_i hn
    simpa using Nat.digits_ne_nil_iff_ne_zero.mpr hn

theorem natText_head_ne_minus (n : Nat) : (natText n).head? ≠ some 45 := by
  unfold natText
  split
  · simp only [List.head?_cons, ne_eq, Option.some.injEq]
    exact digitByte_ne_minus (by decide)
  · rename_i hn
    have hne : Nat.digits 10 n ≠ [] := Nat.digits_ne_nil_iff_ne_zero.mpr hn
    rw [List.head?_map, List.head?_reverse, List.getLast?_eq_some_getLast hne, Option.map_some, ne_eq,
      Option.some.injEq]
    exact digitByte_ne_minus (Nat.digits_lt_base (by decide) (List.getLast_mem hne))

/-- The text of an integer reads back as the integer. -/
theorem parseInt_intText (z : Int) : parseInt (intText z) = some z := by
  unfold intText parseInt
  by_cases hz : z < 0
  · rw [if_pos hz, List.singleton_append, List.head?_cons, if_pos rfl, List.tail_cons,
      if_neg (natText_ne_nil _), digitsValue_natText, Option.map_some]
    congr 1
    omega
  · rw [if_neg hz, List.nil_append, if_neg (natText_head_ne_minus _), if_neg (natText_ne_nil _),
      digitsValue_natText, Option.map_some]
    congr 1
    omega

end Decimal

end Xv6
