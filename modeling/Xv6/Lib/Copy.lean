import Mathlib.Logic.Function.Basic
import Mathlib.Data.List.Nodup

/-!
# Byte-by-byte copies and when they are exact

A memory is a function `ι → β`. A copy loop stores, for each index `k` of a list `ks` in turn,
the value at the source address `src k` into the destination address `dst k`, reading the
memory as the earlier stores left it (`copyEach`). It copies the source as it was before the
loop exactly when no store reaches a source address that a later step still reads.

* `copyEach_map` : a loop over `ks.map h` is the loop over `ks` with the addresses taken at `h`;
* `copyEach_spec` : with distinct indices, distinct destinations, and no store at an address a
  later step reads, each destination holds the old source value and every other address is
  unchanged.
-/

namespace Xv6

namespace Copy

variable {ι β : Type} [DecidableEq ι]

/-- For each `k` of `ks` in order: `m[dst k] = m[src k]`. -/
def copyEach (dst src : Nat → ι) : List Nat → (ι → β) → ι → β
  | [], m => m
  | k :: ks, m => copyEach dst src ks (Function.update m (dst k) (m (src k)))

variable (dst src : Nat → ι)

@[simp] theorem copyEach_nil (m : ι → β) : copyEach dst src [] m = m := rfl

theorem copyEach_cons (k : Nat) (ks : List Nat) (m : ι → β) :
    copyEach dst src (k :: ks) m = copyEach dst src ks (Function.update m (dst k) (m (src k))) :=
  rfl

theorem copyEach_map (h : Nat → Nat) (ks : List Nat) (m : ι → β) :
    copyEach dst src (ks.map h) m = copyEach (dst ∘ h) (src ∘ h) ks m := by
  induction ks generalizing m with
  | nil => rfl
  | cons k ks ih =>
    rw [List.map_cons, copyEach_cons, copyEach_cons, ih]
    rfl

variable {dst src}

/-- A loop whose stores never reach an address it still has to read copies the old source. -/
theorem copyEach_spec {ks : List Nat} (hnd : ks.Nodup)
    (hinj : ∀ i ∈ ks, ∀ j ∈ ks, dst i = dst j → i = j)
    (hread : ks.Pairwise fun i j => dst i ≠ src j) (m : ι → β) :
    (∀ k ∈ ks, copyEach dst src ks m (dst k) = m (src k)) ∧
      ∀ a, (∀ k ∈ ks, a ≠ dst k) → copyEach dst src ks m a = m a := by
  induction ks generalizing m with
  | nil => exact ⟨fun _ hk => absurd hk List.not_mem_nil, fun _ _ => rfl⟩
  | cons k ks ih =>
    obtain ⟨hk, hnd'⟩ := List.nodup_cons.mp hnd
    obtain ⟨hlater, hread'⟩ := List.pairwise_cons.mp hread
    have hinj' : ∀ i ∈ ks, ∀ j ∈ ks, dst i = dst j → i = j := fun i hi j hj =>
      hinj i (List.mem_cons_of_mem k hi) j (List.mem_cons_of_mem k hj)
    -- the first store, at `dst k`, is no other step's destination
    have hfirst : ∀ j ∈ ks, dst k ≠ dst j := fun j hj he =>
      hk (hinj k List.mem_cons_self j (List.mem_cons_of_mem k hj) he ▸ hj)
    obtain ⟨hin, hout⟩ := ih hnd' hinj' hread' (Function.update m (dst k) (m (src k)))
    rw [copyEach_cons]
    refine ⟨fun j hj => ?_, fun a ha => ?_⟩
    · rcases List.mem_cons.mp hj with rfl | hj
      · rw [hout _ hfirst, Function.update_self]
      · -- a later step reads `src j`, which the first store did not reach
        rw [hin j hj, Function.update_of_ne (hlater j hj).symm]
    · rw [hout a fun j hj => ha j (List.mem_cons_of_mem k hj),
        Function.update_of_ne (ha k List.mem_cons_self)]

end Copy

end Xv6
