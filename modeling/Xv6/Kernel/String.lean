import Mathlib.Data.UInt
import Xv6.Lib.Copy

/-!
# `string.c`: `memmove`

The kernel's memory is a map from 32-bit addresses to bytes, and `src`, `dst` and `n` are the
`uint` values of the C. `memmove` copies backwards, from the ends, exactly when `src < dst` and
`src + n > dst`, and forwards otherwise.

* `memmoveFwd`, `memmoveBwd`, `memmove` : the two loops and the call;
* `memmoveFwd_eq`, `memmoveBwd_eq` : the loops are `Copy.copyEach` over the offsets `0, 1, …`
  and `…, 1, 0`;
* `memmove_copies` : for two regions inside the address space, overlapping either way or not
  at all, `memmove` leaves in `dst[0..n)` what `src[0..n)` held before, and no other byte
  changes.
-/

namespace Xv6

/-- `while(n-- > 0) *d++ = *s++;` -/
def memmoveFwd : Nat → (UInt32 → UInt8) → UInt32 → UInt32 → UInt32 → UInt8
  | 0, m, _, _ => m
  | n + 1, m, d, s => memmoveFwd n (Function.update m d (m s)) (d + 1) (s + 1)

/-- `while(n-- > 0) *--d = *--s;`, from `d` and `s` past the ends. -/
def memmoveBwd : Nat → (UInt32 → UInt8) → UInt32 → UInt32 → UInt32 → UInt8
  | 0, m, _, _ => m
  | n + 1, m, d, s => memmoveBwd n (Function.update m (d - 1) (m (s - 1))) (d - 1) (s - 1)

/-- `memmove(dst, src, n)`: it returns `dst`, and the memory it leaves. -/
def memmove (m : UInt32 → UInt8) (dst src n : UInt32) : UInt32 × (UInt32 → UInt8) :=
  if src < dst ∧ src + n > dst then (dst, memmoveBwd n.toNat m (dst + n) (src + n))
  else (dst, memmoveFwd n.toNat m dst src)

/-! ## Offsets from a pointer -/

theorem ofNat_zero_add (p : UInt32) : p + UInt32.ofNat 0 = p := by
  have := p.toNat_lt
  apply UInt32.toNat_inj.mp
  simp only [UInt32.toNat_add, UInt32.toNat_ofNat']
  omega

theorem add_ofNat_succ (p : UInt32) (k : Nat) : p + UInt32.ofNat (k + 1) = p + 1 + UInt32.ofNat k := by
  apply UInt32.toNat_inj.mp
  simp only [UInt32.toNat_add, UInt32.toNat_ofNat', UInt32.toNat_one]
  omega

theorem add_ofNat_succ_sub_one (p : UInt32) (k : Nat) :
    p + UInt32.ofNat (k + 1) - 1 = p + UInt32.ofNat k := by
  apply UInt32.toNat_inj.mp
  simp only [UInt32.toNat_add, UInt32.toNat_sub, UInt32.toNat_ofNat', UInt32.toNat_one]
  omega

/-- Byte `i` of a region that ends inside the address space is at `p.toNat + i`. -/
theorem toNat_add_ofNat {p : UInt32} {i : Nat} (h : p.toNat + i < 2 ^ 32) :
    (p + UInt32.ofNat i).toNat = p.toNat + i := by
  rw [UInt32.toNat_add, UInt32.toNat_ofNat', Nat.mod_eq_of_lt (by omega : i < 2 ^ 32),
    Nat.mod_eq_of_lt h]

theorem add_ofNat_ne {p q : UInt32} {i j : Nat} (hp : p.toNat + i < 2 ^ 32) (hq : q.toNat + j < 2 ^ 32)
    (h : p.toNat + i ≠ q.toNat + j) : p + UInt32.ofNat i ≠ q + UInt32.ofNat j := fun he => by
  have := congrArg UInt32.toNat he
  rw [toNat_add_ofNat hp, toNat_add_ofNat hq] at this
  exact h this

/-! ## The loops as copies -/

theorem memmoveFwd_eq (n : Nat) (m : UInt32 → UInt8) (d s : UInt32) :
    memmoveFwd n m d s =
      Copy.copyEach (fun k => d + UInt32.ofNat k) (fun k => s + UInt32.ofNat k) (List.range n) m := by
  induction n generalizing m d s with
  | zero => rfl
  | succ n ih =>
    -- the first step copies offset `0`, the rest are the loop from `d + 1` and `s + 1`
    rw [memmoveFwd, ih, List.range_succ_eq_map, Copy.copyEach_cons, Copy.copyEach_map,
      ofNat_zero_add, ofNat_zero_add]
    congr 1
    · funext k
      exact (add_ofNat_succ d k).symm
    · funext k
      exact (add_ofNat_succ s k).symm

theorem memmoveBwd_eq (n : Nat) (m : UInt32 → UInt8) (d s : UInt32) :
    memmoveBwd n m (d + UInt32.ofNat n) (s + UInt32.ofNat n) =
      Copy.copyEach (fun k => d + UInt32.ofNat k) (fun k => s + UInt32.ofNat k)
        (List.range n).reverse m := by
  induction n generalizing m with
  | zero => rfl
  | succ n ih =>
    -- the first step copies the last offset, `n`
    rw [memmoveBwd, add_ofNat_succ_sub_one, add_ofNat_succ_sub_one, ih, List.range_succ,
      List.reverse_append, List.reverse_singleton, List.singleton_append, Copy.copyEach_cons]

/-! ## `memmove` -/

/-- For two regions inside the 32-bit address space, overlapping either way or not at all,
`memmove` returns `dst`, leaves in `dst[0..n)` what `src[0..n)` held before the call, and changes
no other byte. -/
theorem memmove_copies (m : UInt32 → UInt8) (dst src n : UInt32)
    (hsrc : src.toNat + n.toNat ≤ 2 ^ 32) (hdst : dst.toNat + n.toNat ≤ 2 ^ 32) :
    (memmove m dst src n).1 = dst ∧
      (∀ i < n.toNat, (memmove m dst src n).2 (dst + UInt32.ofNat i) = m (src + UInt32.ofNat i)) ∧
      ∀ a, (∀ i < n.toNat, a ≠ dst + UInt32.ofNat i) → (memmove m dst src n).2 a = m a := by
  -- the offsets below `n` address distinct bytes of `dst`, and a byte of `dst` and one of `src`
  -- coincide only where their `Nat` addresses do
  have hinj : ∀ i ∈ List.range n.toNat, ∀ j ∈ List.range n.toNat,
      dst + UInt32.ofNat i = dst + UInt32.ofNat j → i = j := fun i hi j hj he => by
    rw [List.mem_range] at hi hj
    have := congrArg UInt32.toNat he
    rw [toNat_add_ofNat (by omega), toNat_add_ofNat (by omega)] at this
    omega
  have hne : ∀ {i j}, i ∈ List.range n.toNat → j ∈ List.range n.toNat →
      dst.toNat + i ≠ src.toNat + j → dst + UInt32.ofNat i ≠ src + UInt32.ofNat j :=
    fun hi hj h => add_ofNat_ne (by rw [List.mem_range] at hi; omega)
      (by rw [List.mem_range] at hj; omega) h
  have hend : ∀ p : UInt32, p + n = p + UInt32.ofNat n.toNat := fun p => by rw [UInt32.ofNat_toNat]
  unfold memmove
  split
  · -- `src < dst < src + n`: from the ends; a store at offset `j` is past every source byte
    -- `i < j` still to be read
    rename_i hc
    have hlt : src.toNat < dst.toNat := UInt32.lt_iff_toNat_lt.mp hc.1
    have hread : (List.range n.toNat).reverse.Pairwise fun j i =>
        dst + UInt32.ofNat j ≠ src + UInt32.ofNat i :=
      List.pairwise_reverse.mpr (List.pairwise_lt_range.imp_of_mem fun hi hj hij =>
        hne hj hi (by omega))
    obtain ⟨hin, hout⟩ := Copy.copyEach_spec (List.nodup_reverse.mpr List.nodup_range)
      (fun i hi j hj => hinj i (List.mem_reverse.mp hi) j (List.mem_reverse.mp hj)) hread m
    simp only [List.mem_reverse, List.mem_range] at hin hout
    refine ⟨rfl, ?_⟩
    rw [hend dst, hend src, memmoveBwd_eq]
    exact ⟨hin, hout⟩
  · -- otherwise `dst ≤ src` or the regions are apart: a store at offset `i` is before every
    -- source byte `j > i` still to be read
    rename_i hc
    have hc' : ¬ (src.toNat < dst.toNat ∧ dst.toNat < (src.toNat + n.toNat) % 2 ^ 32) := by
      simp only [UInt32.lt_iff_toNat_lt, gt_iff_lt, UInt32.toNat_add] at hc
      exact hc
    have hread : (List.range n.toNat).Pairwise fun i j =>
        dst + UInt32.ofNat i ≠ src + UInt32.ofNat j :=
      List.pairwise_lt_range.imp_of_mem fun hi hj hij => hne hi hj (by
        rw [List.mem_range] at hi hj
        omega)
    obtain ⟨hin, hout⟩ := Copy.copyEach_spec List.nodup_range hinj hread m
    simp only [List.mem_range] at hin hout
    refine ⟨rfl, ?_⟩
    rw [memmoveFwd_eq]
    exact ⟨hin, hout⟩

/-- Two overlapping regions, `src = 0` and `dst = 2` with `n = 4`: the backward copy. -/
theorem memmove_copies_overlap :
    (0 : UInt32).toNat + (4 : UInt32).toNat ≤ 2 ^ 32 ∧ (2 : UInt32).toNat + (4 : UInt32).toNat ≤ 2 ^ 32 ∧
      ((memmove (fun a => a.toUInt8) 2 0 4).1 = 2 ∧
        (∀ i < (4 : UInt32).toNat, (memmove (fun a => a.toUInt8) 2 0 4).2 (2 + UInt32.ofNat i) =
          (0 + UInt32.ofNat i).toUInt8) ∧
        ∀ a, (∀ i < (4 : UInt32).toNat, a ≠ 2 + UInt32.ofNat i) →
          (memmove (fun a => a.toUInt8) 2 0 4).2 a = a.toUInt8) :=
  ⟨by decide, by decide, memmove_copies (fun a => a.toUInt8) 2 0 4 (by decide) (by decide)⟩

end Xv6
