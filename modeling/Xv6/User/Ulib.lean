import Xv6.Lib.Decimal

/-!
# The user library: `strcmp` (`ulib.c`) and `printf` (`printf.c`)

A C string is a list of bytes that ends at its first `NUL`, or at the end of the list (`cstr`).

* `strcmp`, `strcmp_eq_zero_iff` : `strcmp` returns `0` exactly on equal C strings;
* `printintLoop`, `printint`, `printint_ten` : `printint` in base 10 with a sign writes the
  decimal text of every `int`, `INT_MIN` included (its magnitude is taken as a `uint`);
* `Arg`, `printfConv`, `printfLoop`, `printf` : the format loop, with `%d`, `%x`, `%p`, `%s`,
  `%c` and `%%`; `printf_text_str`, `printf_text` : a format of plain text around one `%s`, or
  none, puts the text with the string in its place.
-/

namespace Xv6

open Decimal

/-- The C string a buffer holds: its bytes before the first `NUL`. -/
def cstr (s : List UInt8) : List UInt8 := s.takeWhile fun c => c != 0

@[simp] theorem cstr_nil : cstr [] = [] := rfl

theorem cstr_cons (c : UInt8) (s : List UInt8) :
    cstr (c :: s) = if c = 0 then [] else c :: cstr s := by
  by_cases hc : c = 0 <;> simp [cstr, hc]

theorem cstr_of_zero_not_mem {s : List UInt8} (h : 0 ∉ s) : cstr s = s := by
  induction s with
  | nil => rfl
  | cons c s ih =>
    have hc : c ≠ 0 := fun hc => h (hc ▸ List.mem_cons_self)
    rw [cstr_cons, if_neg hc, ih (fun hs => h (List.mem_cons_of_mem c hs))]

theorem zero_not_mem_cstr (s : List UInt8) : 0 ∉ cstr s := by
  induction s with
  | nil => simp
  | cons c s ih =>
    rw [cstr_cons]
    split
    · simp
    · rename_i hc
      simp [Ne.symm hc, ih]

/-! ## `strcmp` -/

/-- `strcmp(p, q)`: `while(*p && *p == *q) p++, q++; return (uchar)*p - (uchar)*q;` -/
def strcmp : List UInt8 → List UInt8 → Int
  | c :: p, d :: q => if c ≠ 0 ∧ c = d then strcmp p q else (c.toNat : Int) - d.toNat
  | c :: _, [] => c.toNat
  | [], d :: _ => -(d.toNat : Int)
  | [], [] => 0

theorem toNat_eq_zero_iff (c : UInt8) : c.toNat = 0 ↔ c = 0 := by
  rw [← UInt8.toNat_inj, UInt8.toNat_zero]

/-- `strcmp` is `0` exactly on equal C strings. -/
theorem strcmp_eq_zero_iff (p q : List UInt8) : strcmp p q = 0 ↔ cstr p = cstr q := by
  induction p generalizing q with
  | nil =>
    cases q with
    | nil => simp [strcmp]
    | cons d q =>
      rw [strcmp, cstr_cons]
      have := toNat_eq_zero_iff d
      split <;> simp_all
  | cons c p ih =>
    cases q with
    | nil =>
      rw [strcmp, cstr_cons]
      have := toNat_eq_zero_iff c
      split <;> simp_all
    | cons d q =>
      rw [strcmp, cstr_cons, cstr_cons]
      by_cases hcd : c ≠ 0 ∧ c = d
      · -- equal bytes before the `NUL`: compare the rest
        obtain ⟨hc, rfl⟩ := hcd
        rw [if_pos (And.intro hc rfl), ih q]
        simp only [if_neg hc, List.cons.injEq, true_and]
      · -- the loop stops here: the bytes differ, or both are `NUL`
        rw [if_neg hcd]
        have hinj : (c.toNat : Int) - d.toNat = 0 ↔ c = d := by
          rw [← UInt8.toNat_inj]
          omega
        rw [hinj]
        by_cases hc : c = 0
        · subst hc
          by_cases hd : d = 0
          · simp [hd]
          · simp [hd, Ne.symm hd]
        · have hne : c ≠ d := fun h => hcd ⟨hc, h⟩
          by_cases hd : d = 0 <;> simp [hc, hd, hne]

/-! ## `printint` -/

/-- `static char digits[] = "0123456789ABCDEF";` -/
def printDigits : List UInt8 := [48, 49, 50, 51, 52, 53, 54, 55, 56, 57, 65, 66, 67, 68, 69, 70]

/-- `do{ buf[i++] = digits[x % base]; }while((x /= base) != 0);`: the digits in `buf`, least
significant first, for at most `fuel` turns. -/
def printintLoop (base : UInt32) : Nat → UInt32 → List UInt8
  | 0, _ => []
  | fuel + 1, x =>
    printDigits.getD (x % base).toNat 0 ::
      if x / base ≠ 0 then printintLoop base fuel (x / base) else []

/-- `printint(fd, xx, base, sgn)`: the bytes it puts, `buf` from its end. The magnitude is the
`uint` `-xx`; a `uint` has at most 32 digits in a base of at least 2. -/
def printint (xx : Int32) (base : UInt32) (sgn : Bool) : List UInt8 :=
  let neg := sgn && decide (xx < 0)
  let x : UInt32 := if neg then (-xx).toUInt32 else xx.toUInt32
  let buf := printintLoop base 32 x ++ if neg then [45] else []
  buf.reverse

theorem printDigits_ten (x : UInt32) :
    printDigits.getD (x % 10).toNat 0 = digitByte (x.toNat % 10) := by
  have hall : ∀ d : Fin 10, printDigits.getD d.val 0 = digitByte d.val := by decide
  rw [UInt32.toNat_mod, show (10 : UInt32).toNat = 10 from rfl]
  exact hall ⟨_, Nat.mod_lt _ (by decide)⟩

/-- In base 10 the loop stores the digits of `x`, least significant first, `0` for zero. -/
theorem printintLoop_ten (fuel : Nat) (x : UInt32) (hfuel : (Nat.digits 10 x.toNat).length < fuel) :
    printintLoop 10 fuel x = (natText x.toNat).reverse := by
  induction fuel generalizing x with
  | zero => omega
  | succ fuel ih =>
    have hdiv : (x / 10).toNat = x.toNat / 10 := by
      rw [UInt32.toNat_div]
      rfl
    rw [printintLoop, printDigits_ten]
    split
    · -- more digits: `x` has the digit `x % 10`, then those of `x / 10`
      rename_i hne
      have hpos : x.toNat / 10 ≠ 0 := fun h => hne (UInt32.toNat_inj.mp (by rw [hdiv, h]; rfl))
      have hdigits := Nat.digits_def' (by decide : 1 < 10) (by omega : 0 < x.toNat)
      rw [hdigits, List.length_cons] at hfuel
      rw [ih (x / 10) (by rw [hdiv]; omega), hdiv, reverse_natText hpos,
        reverse_natText (by omega), hdigits, List.map_cons]
    · -- the last digit
      rename_i hz
      have hlt : x.toNat / 10 = 0 := by rw [← hdiv, not_not.mp hz]; rfl
      by_cases h0 : x.toNat = 0
      · rw [h0]
        rfl
      · rw [reverse_natText h0, Nat.digits_def' (by decide) (by omega), hlt, Nat.digits_zero]
        rfl

/-- The magnitude `printint` prints: the `uint` `-xx` of a negative `xx`, `INT_MIN` included. -/
theorem toNat_magnitude (v : Int32) :
    ((if v < 0 then -v else v).toUInt32).toNat = v.toInt.natAbs := by
  have hb := v.toBitVec.isLt
  have h1 : v.toInt = ((v.toBitVec.toNat : Int)).bmod (2 ^ 32) := by
    rw [← Int32.toInt_toBitVec, BitVec.toInt_eq_toNat_bmod]
  rw [Int.bmod_def] at h1
  push_cast at h1
  have hlt : v < 0 ↔ v.toInt < (0 : Int32).toInt := Int32.lt_iff_toInt_lt
  rw [Int32.toInt_zero] at hlt
  split
  · rename_i hneg
    have := hlt.mp hneg
    rw [Int32.toUInt32_neg, UInt32.toNat_neg, ← Int32.toNat_toBitVec]
    simp only [UInt32.size]
    split at h1 <;> omega
  · rename_i hneg
    have := hlt.not.mp hneg
    rw [← Int32.toNat_toBitVec]
    split at h1 <;> omega

theorem digits_length_lt (x : UInt32) : (Nat.digits 10 x.toNat).length < 32 := by
  have hx := x.toNat_lt
  have := (Nat.digits_length_le_iff (by decide : 1 < 10) x.toNat).mpr
    (show x.toNat < 10 ^ 31 by omega)
  omega

/-- `printf`'s `%d` writes the decimal text of every `int`. -/
theorem printint_ten (v : Int32) : printint v 10 true = intText v.toInt := by
  have hmag := toNat_magnitude v
  have hlt : v < 0 ↔ v.toInt < (0 : Int32).toInt := Int32.lt_iff_toInt_lt
  rw [Int32.toInt_zero] at hlt
  unfold printint intText
  by_cases hneg : v < 0
  · rw [if_pos hneg] at hmag
    simp only [hneg, decide_true, Bool.and_self, if_true, if_pos (hlt.mp hneg)]
    rw [printintLoop_ten 32 _ (digits_length_lt _), hmag, List.reverse_append,
      List.reverse_reverse]
    rfl
  · rw [if_neg hneg] at hmag
    simp only [hneg, decide_false, Bool.and_false, Bool.false_eq_true, if_false,
      if_neg (mt hlt.mpr hneg)]
    rw [printintLoop_ten 32 _ (digits_length_lt _), hmag, List.append_nil, List.reverse_reverse,
      List.nil_append]

/-! ## `printf` -/

/-- An argument of `printf`: an `int` word, or a `char *` (`none` for the null pointer). -/
inductive Arg where
  | int (v : Int32)
  | str (s : Option (List UInt8))

/-- The next argument, read as a word. -/
def nextInt : List Arg → Option (Int32 × List Arg)
  | .int v :: ap => some (v, ap)
  | _ => none

/-- `"(null)"` -/
def nullText : List UInt8 := [40, 110, 117, 108, 108, 41]

/-- The conversion after a `%`: what it puts, and the arguments left; `none` when the next
argument is missing or not of the kind the conversion reads, which C leaves undefined. -/
def printfConv (c : UInt8) (ap : List Arg) : Option (List UInt8 × List Arg) :=
  if c = 100 then  -- 'd'
    (nextInt ap).map fun (v, ap) => (printint v 10 true, ap)
  else if c = 120 ∨ c = 112 then  -- 'x', 'p'
    (nextInt ap).map fun (v, ap) => (printint v 16 false, ap)
  else if c = 115 then  -- 's'
    match ap with
    | .str s :: ap => some (cstr (s.getD nullText), ap)
    | _ => none
  else if c = 99 then  -- 'c'
    (nextInt ap).map fun (v, ap) => ([v.toInt8.toUInt8], ap)
  else if c = 37 then some ([37], ap)
  -- Unknown % sequence.  Print it to draw attention.
  else some ([37, c], ap)

/-- `for(i = 0; fmt[i]; i++)` from `fmt[i]` on, `pct` for `state == '%'`: the bytes put. -/
def printfLoop : List UInt8 → Bool → List Arg → Option (List UInt8)
  | [], _, _ => some []
  | c :: fmt, pct, ap =>
    if c = 0 then some []
    else if pct then do
      let (out, ap) ← printfConv c ap
      let rest ← printfLoop fmt false ap
      return out ++ rest
    else if c = 37 then printfLoop fmt true ap
    else (c :: ·) <$> printfLoop fmt false ap

/-- `printf(fd, fmt, ...)`: the bytes it writes to `fd`. -/
def printf (fmt : List UInt8) (args : List Arg) : Option (List UInt8) :=
  printfLoop fmt false args

/-- The bytes of an ASCII string. -/
def bytes (s : String) : List UInt8 := s.toList.map fun c => c.toNat.toUInt8

theorem printfLoop_nil (ap : List Arg) : printfLoop [] false ap = some [] := rfl

/-- Format bytes other than `%` and `NUL` are put as they are. -/
theorem printfLoop_plain (t fmt : List UInt8) (ht : ∀ c ∈ t, c ≠ 0 ∧ c ≠ 37) (ap : List Arg) :
    printfLoop (t ++ fmt) false ap = (t ++ ·) <$> printfLoop fmt false ap := by
  induction t with
  | nil => simp
  | cons c t ih =>
    obtain ⟨h0, hp⟩ := ht c List.mem_cons_self
    rw [List.cons_append, printfLoop, if_neg h0, if_neg Bool.false_ne_true, if_neg hp,
      ih fun c' hc' => ht c' (List.mem_cons_of_mem c hc')]
    cases printfLoop fmt false ap <;> rfl

/-- `%s` puts the C string of its argument. -/
theorem printfLoop_str (fmt s : List UInt8) (ap : List Arg) :
    printfLoop (37 :: 115 :: fmt) false (.str (some s) :: ap) =
      (cstr s ++ ·) <$> printfLoop fmt false ap := by
  have hconv : printfConv 115 (.str (some s) :: ap) = some (cstr s, ap) := rfl
  rw [printfLoop, if_neg (by decide), if_neg Bool.false_ne_true, if_pos rfl, printfLoop,
    if_neg (by decide), if_pos rfl, hconv]
  cases hf : printfLoop fmt false ap <;> simp [hf]

/-- `printf(fd, t "%s" u, s)`, with `t` and `u` plain text. -/
theorem printf_text_str (t u s : List UInt8) (ht : ∀ c ∈ t, c ≠ 0 ∧ c ≠ 37)
    (hu : ∀ c ∈ u, c ≠ 0 ∧ c ≠ 37) :
    printf (t ++ 37 :: 115 :: u) [.str (some s)] = some (t ++ cstr s ++ u) := by
  have hu' := printfLoop_plain u [] hu []
  rw [List.append_nil, printfLoop_nil] at hu'
  rw [printf, printfLoop_plain _ _ ht, printfLoop_str, hu']
  simp

/-- `printf(fd, t)`, with `t` plain text. -/
theorem printf_text (t : List UInt8) (ht : ∀ c ∈ t, c ≠ 0 ∧ c ≠ 37) : printf t [] = some t := by
  have h := printfLoop_plain t [] ht []
  rw [List.append_nil, printfLoop_nil] at h
  rw [printf, h]
  simp

/-- `printf(fd, "%d ", v)` -/
theorem printf_int_space (v : Int32) : printf [37, 100, 32] [.int v] = some (intText v.toInt ++ [32]) := by
  simp [printf, printfLoop, printfConv, nextInt, printint_ten]

/-- `printf(fd, "%s\n", s)` -/
theorem printf_str_newline (s : List UInt8) :
    printf [37, 115, 10] [.str (some s)] = some (cstr s ++ [10]) := by
  simp [printf, printfLoop, printfConv]

end Xv6
