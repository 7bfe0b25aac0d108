import Crave.Foundation.BitVectorTerm

/-!
# Division of sized bit-vectors

The quotients and remainders of bit-vectors as numbers, and what becomes of a
remainder when the divisor, or the remainder itself, is read with the wrong sign.
-/

namespace Crave
namespace Foundation

/-!
## Remainders by a divisor of the wrong sign

Half of the range of the bit patterns is `h`.  A pattern of the upper half stands for
two numbers that differ by the whole range.
-/

section Wrapped

variable {h a b : Int}

theorem tmod_eq_self_iff : a.tmod b = a ↔ a.natAbs < b.natAbs ∨ b = 0 := by
  constructor
  · intro heq
    have hmod := Int.natAbs_tmod a b
    rw [heq] at hmod
    by_cases hb : b = 0
    · exact Or.inr hb
    · left
      rw [hmod]
      exact Nat.mod_lt _ (Int.natAbs_pos.mpr hb)
  · intro hcases
    cases hcases with
    | inl hlt =>
        have hdiv : a.tdiv b = 0 := by
          apply Int.natAbs_eq_zero.mp
          rw [Int.natAbs_tdiv]
          exact Nat.div_eq_of_lt hlt
        rw [Int.tmod_def, hdiv, mul_zero, sub_zero]
    | inr hb => rw [hb, Int.tmod_zero]

/-- A divisor of the upper half that is read as a signed number. -/
theorem tmod_sub_iff (ha : -h ≤ a ∧ a < h) (hb : h ≤ b ∧ b < 2 * h) :
    a.tmod (b - 2 * h) = a.tmod b ↔ (a.natAbs : Int) + b < 2 * h ∨ a + b = 0 := by
  have hneg : b - 2 * h = -(2 * h - b) := by ring
  rw [hneg, Int.tmod_neg]
  by_cases hsum : a + b = 0
  · -- both divisors are half of the range, and so is the dividend
    have hah : a = -h := by omega
    have hbh : b = h := by omega
    have htwo : 2 * h - h = h := by ring
    rw [hah, hbh, htwo]
    simp
  · have hright : a.tmod b = a := tmod_eq_self_iff.mpr (by omega)
    rw [hright, tmod_eq_self_iff]
    omega

/-- A negative divisor that is read as an unsigned number, and the remainder as a signed
one. -/
theorem emod_add_iff (ha : 0 ≤ a ∧ a < 2 * h) (hb : -h ≤ b ∧ b < 0) :
    (if a % (b + 2 * h) < h then a % (b + 2 * h) else a % (b + 2 * h) - 2 * h) = a.tmod b ↔
      a < -b ∨ (2 * h ≤ a - b ∧ b ∣ 2 * h) := by
  have htmod : a.tmod b = a % -b := by
    rw [Int.tmod_eq_emod_of_nonneg ha.left, Int.emod_neg]
  rw [htmod]
  have hrange := Int.emod_nonneg a (show -b ≠ 0 by omega)
  have hself : a % -b = a ↔ a < -b := by
    constructor
    · intro heq
      have hlt := Int.emod_lt_of_pos a (show 0 < -b by omega)
      omega
    · intro hlt
      exact Int.emod_eq_of_lt ha.left hlt
  by_cases hlow : a < b + 2 * h
  · rw [Int.emod_eq_of_lt ha.left hlow]
    split
    · rw [eq_comm, hself]
      omega
    · omega
  · -- the divisor goes into the dividend once
    have hrem : a % (b + 2 * h) = a - (b + 2 * h) := by
      rw [← Int.sub_emod_right]
      exact Int.emod_eq_of_lt (by omega) (by omega)
    rw [hrem, if_pos (by omega)]
    have hsum : a - (b + 2 * h) - a = -(b + 2 * h) := by ring
    rw [eq_comm, Int.emod_eq_iff (show -b ≠ 0 by omega), hsum, Int.neg_dvd, Int.dvd_neg,
      Int.dvd_add_right (dvd_refl b)]
    omega

end Wrapped

/-!
## Quotients and remainders of bit-vectors
-/

section Bits

variable {w : Nat} {x y : BitVec w}

theorem smtSDiv_eq_sdiv (hy : y ≠ 0#w) : x.smtSDiv y = x.sdiv y := by
  have hneg : -y ≠ 0#w := by
    intro h
    apply hy
    rw [← BitVec.neg_neg (x := y), h, BitVec.neg_zero]
  rw [BitVec.smtSDiv_eq, BitVec.sdiv_eq]
  cases x.msb with
  | false => cases y.msb <;> simp [BitVec.smtUDiv_eq, hy, hneg]
  | true => cases y.msb <;> simp [BitVec.smtUDiv_eq, hy, hneg]

theorem toInt_smtSDiv (hy : y.toInt ≠ 0) {z : BitVec w}
    (hz : z.toInt = x.toInt.tdiv y.toInt) :
    (x.smtSDiv y).toInt = x.toInt.tdiv y.toInt := by
  have hne : y ≠ 0#w := by
    intro h
    apply hy
    rw [h, BitVec.toInt_zero]
  rw [smtSDiv_eq_sdiv hne, BitVec.toInt_sdiv, ← hz, BitVec.toInt_bmod_cancel]

theorem toNat_smtUDiv (hy : (y.toNat : Int) ≠ 0) :
    ((x.smtUDiv y).toNat : Int) = (x.toNat : Int).tdiv y.toNat := by
  have hne : y ≠ 0#w := by
    intro h
    apply hy
    rw [h]
    rfl
  rw [BitVec.smtUDiv_eq, if_neg hne, BitVec.toNat_udiv, Int.ofNat_tdiv]

theorem toNat_udiv : ((BitVec.udiv x y).toNat : Int) = (x.toNat : Int).tdiv y.toNat := by
  show ((x / y).toNat : Int) = _
  rw [BitVec.toNat_udiv, Int.ofNat_tdiv]

theorem toNat_umod : ((BitVec.umod x y).toNat : Int) = (x.toNat : Int).tmod y.toNat := by
  show ((x % y).toNat : Int) = _
  rw [BitVec.toNat_umod, Int.ofNat_tmod]

end Bits

end Foundation
end Crave
