import Mathlib.Data.List.Count
import Mathlib.Data.List.Nodup
import Mathlib.Data.List.Range
import Mathlib.Data.Nat.Bitwise

/-!
# Set bits

The number of set bits of a bit-vector, and the test for exactly one of them.
-/

namespace Crave
namespace Foundation

variable {w : Nat}

def bitsSetBelow (x : BitVec w) (n : Nat) : Nat :=
  (List.range n).countP x.getLsbD

def bitsSet (x : BitVec w) : Nat :=
  bitsSetBelow x w

theorem bitsSetBelow_succ (x : BitVec w) (n : Nat) :
    bitsSetBelow x (n + 1) = bitsSetBelow x n + (x.getLsbD n).toNat := by
  unfold bitsSetBelow
  rw [List.range_succ, List.countP_append, List.countP_singleton]
  cases x.getLsbD n with
  | false => rfl
  | true => rfl

theorem bitsSetBelow_le (x : BitVec w) (n : Nat) : bitsSetBelow x n ≤ n := by
  unfold bitsSetBelow
  conv_rhs => rw [← List.length_range (n := n)]
  exact List.countP_le_length

theorem bitsSet_le (x : BitVec w) : bitsSet x ≤ w :=
  bitsSetBelow_le x w

theorem bitsSet_eq_width_iff (x : BitVec w) : bitsSet x = w ↔ x = BitVec.allOnes w := by
  have hall : bitsSet x = w ↔ forall i, i < w -> x.getLsbD i = true := by
    unfold bitsSet bitsSetBelow
    conv_lhs => rhs; rw [← List.length_range (n := w)]
    rw [List.countP_eq_length]
    simp only [List.mem_range]
  rw [hall]
  constructor
  · intro h
    apply BitVec.eq_of_getLsbD_eq
    intro i hi
    rw [h i hi, BitVec.getLsbD_allOnes, decide_eq_true hi]
  · intro h i hi
    rw [h, BitVec.getLsbD_allOnes, decide_eq_true hi]

theorem bitsSet_eq_one_iff (x : BitVec w) : bitsSet x = 1 ↔ x.toNat.isPowerOfTwo := by
  unfold bitsSet bitsSetBelow
  constructor
  · intro h
    rw [List.countP_eq_length_filter, List.length_eq_one_iff] at h
    rcases h with ⟨k, hk⟩
    have hmem : forall i, x.getLsbD i = true ↔ i = k := by
      intro i
      rw [← List.mem_singleton (a := i), ← hk, List.mem_filter, List.mem_range]
      constructor
      · intro hi
        exact ⟨BitVec.lt_of_getLsbD hi, hi⟩
      · intro hi
        exact hi.right
    exists k
    apply Nat.eq_of_testBit_eq
    intro i
    rw [Nat.testBit_two_pow]
    apply Bool.eq_iff_iff.mpr
    rw [decide_eq_true_eq, eq_comm (a := k)]
    exact hmem i
  · intro h
    rcases h with ⟨k, hk⟩
    have hlt : k < w := (Nat.pow_lt_pow_iff_right Nat.one_lt_two).mp (hk ▸ x.isLt)
    have hbit : x.getLsbD = fun i => i == k := by
      funext i
      show x.toNat.testBit i = _
      rw [hk, Nat.testBit_two_pow]
      apply Bool.eq_iff_iff.mpr
      rw [decide_eq_true_eq, beq_iff_eq, eq_comm]
    rw [hbit]
    exact List.count_eq_one_of_mem List.nodup_range (List.mem_range.mpr hlt)

/-- One bit is set when taking away the lowest one leaves none. -/
theorem bitsSet_eq_one_iff_and_sub_one (x : BitVec w) :
    bitsSet x = 1 ↔ x ≠ 0 ∧ x &&& x - 1 = 0 := by
  rw [bitsSet_eq_one_iff, ← Nat.ne_zero_and_sub_one_eq_zero_iff_isPowerOfTwo]
  have hzero : x.toNat ≠ 0 ↔ x ≠ 0 := by
    apply not_congr
    constructor
    · intro h
      exact BitVec.eq_of_toNat_eq h
    · intro h
      rw [h]
      rfl
  rw [hzero]
  apply and_congr_right
  intro hne
  have hpos : x.toNat ≠ 0 := hzero.mpr hne
  have hlt := x.isLt
  have hone : (1 : BitVec w).toNat = 1 := by
    show 1 % 2 ^ w = 1
    exact Nat.mod_eq_of_lt (by omega)
  have hsub : (x - 1).toNat = x.toNat - 1 := by
    rw [BitVec.toNat_sub, hone]
    have hsum : 2 ^ w - 1 + x.toNat = x.toNat - 1 + 2 ^ w := by omega
    rw [hsum, Nat.add_mod_right, Nat.mod_eq_of_lt (by omega)]
  rw [← hsub, ← BitVec.toNat_and]
  constructor
  · intro h
    exact BitVec.eq_of_toNat_eq h
  · intro h
    rw [h]
    rfl

end Foundation
end Crave
