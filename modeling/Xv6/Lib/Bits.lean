import Mathlib.Data.Nat.Bitwise

/-!
# Masks on 32-bit words

The bit operations C code does with a mask `m` on a word `x` (`x & ~m` clears it, `x | m` sets it),
read back through the mask: a word is its bits outside the mask and inside it (`and_not_or_and`),
so clearing a mask that is already clear (`and_not_of_and_eq_zero`) and setting it again after
clearing it when it was set (`and_not_or_of_and_eq`) change nothing.
-/

namespace Bits

theorem and_not_or_and (x m : UInt32) : (x &&& ~~~m) ||| (x &&& m) = x := by
  rw [← UInt32.toBitVec_inj]
  simp only [UInt32.toBitVec_or, UInt32.toBitVec_and, UInt32.toBitVec_not]
  rw [← BitVec.and_or_distrib_left, BitVec.or_comm, BitVec.or_not_self, BitVec.and_allOnes]

theorem and_not_of_and_eq_zero {x m : UInt32} (h : x &&& m = 0) : x &&& ~~~m = x := by
  conv_rhs => rw [← and_not_or_and x m, h, UInt32.or_zero]

theorem and_not_or_of_and_eq {x m : UInt32} (h : x &&& m = m) : (x &&& ~~~m) ||| m = x := by
  conv_rhs => rw [← and_not_or_and x m, h]

theorem and_not_and (x m : UInt32) : (x &&& ~~~m) &&& m = 0 := by
  rw [UInt32.and_assoc, UInt32.and_comm (~~~m), UInt32.and_not_self, UInt32.and_zero]

theorem or_and_self (x m : UInt32) : (x ||| m) &&& m = m := by
  rw [← UInt32.toBitVec_inj]
  ext i
  simp only [UInt32.toBitVec_and, UInt32.toBitVec_or, BitVec.getElem_and, BitVec.getElem_or]
  cases x.toBitVec[i] <;> simp

end Bits
