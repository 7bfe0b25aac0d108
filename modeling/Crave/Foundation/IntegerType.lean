import Crave.Foundation.SizedBits

/-!
# Integer types

An integer type is given by its width and by whether it is signed. An integer is converted
to a type by keeping its low bits.
-/

namespace Crave
namespace Foundation

structure IntegerType where
  width : Nat
  sign : Bool
deriving DecidableEq, Repr

namespace IntegerType

def least (t : IntegerType) : Int :=
  if t.sign then -(2 ^ (t.width - 1) : Nat) else 0

def greatest (t : IntegerType) : Int :=
  if t.sign then (2 ^ (t.width - 1) : Nat) - 1 else (2 ^ t.width : Nat) - 1

def Contains (t : IntegerType) (i : Int) : Prop :=
  t.least ≤ i ∧ i ≤ t.greatest

instance (t : IntegerType) (i : Int) : Decidable (t.Contains i) :=
  inferInstanceAs (Decidable (t.least ≤ i ∧ i ≤ t.greatest))

/-- The number that a bit pattern of the width stands for. -/
def number (t : IntegerType) (x : BitVec t.width) : Int :=
  SizedBits.num t.sign ⟨t.width, x⟩

/-- The conversion of an integer to the type. -/
def wrap (t : IntegerType) (i : Int) : Int :=
  t.number (BitVec.ofInt t.width i)

theorem two_pow_pred {w : Nat} (hpos : 0 < w) : 2 ^ w = 2 * 2 ^ (w - 1) := by
  have hsucc : w - 1 + 1 = w := Nat.sub_add_cancel hpos
  calc
    2 ^ w = 2 ^ (w - 1 + 1) := by rw [hsucc]
    _ = 2 * 2 ^ (w - 1) := by rw [Nat.pow_succ, Nat.mul_comm]

theorem setWidth_ofInt {k w : Nat} (h : k ≤ w) (i : Int) :
    (BitVec.ofInt w i).setWidth k = BitVec.ofInt k i := by
  have hne : forall n : Nat, ((2 ^ n : Nat) : Int) ≠ 0 :=
    fun n => Int.natCast_ne_zero.mpr (Nat.two_pow_pos n).ne'
  apply BitVec.eq_of_toNat_eq
  apply Int.natCast_inj.mp
  rw [BitVec.toNat_setWidth, BitVec.toNat_ofInt, BitVec.toNat_ofInt, Int.natCast_emod,
    Int.toNat_of_nonneg (Int.emod_nonneg _ (hne w)),
    Int.toNat_of_nonneg (Int.emod_nonneg _ (hne k))]
  exact Int.emod_emod_of_dvd i (Int.natCast_dvd_natCast.mpr (Nat.pow_dvd_pow 2 h))

section Bounds

variable {w : Nat} {i : Int}

theorem contains_unsigned :
    (IntegerType.mk w false).Contains i ↔ 0 ≤ i ∧ i < (2 ^ w : Nat) := by
  show 0 ≤ i ∧ i ≤ (2 ^ w : Nat) - 1 ↔ _
  omega

theorem contains_signed :
    (IntegerType.mk w true).Contains i ↔
      -(2 ^ (w - 1) : Nat) ≤ i ∧ i < (2 ^ (w - 1) : Nat) := by
  show -(2 ^ (w - 1) : Nat) ≤ i ∧ i ≤ (2 ^ (w - 1) : Nat) - 1 ↔ _
  omega

end Bounds

variable {t : IntegerType} {i j : Int}

theorem contains_number (hpos : 0 < t.width) (x : BitVec t.width) :
    t.Contains (t.number x) := by
  rcases t with ⟨w, sign⟩
  have hlt := x.isLt
  cases sign with
  | false =>
      rw [contains_unsigned]
      show 0 ≤ (x.toNat : Int) ∧ (x.toNat : Int) < (2 ^ w : Nat)
      dsimp only at hlt
      omega
  | true =>
      rw [contains_signed]
      show -(2 ^ (w - 1) : Nat) ≤ x.toInt ∧ x.toInt < (2 ^ (w - 1) : Nat)
      have hpow : 2 ^ w = 2 * 2 ^ (w - 1) := two_pow_pred hpos
      rw [BitVec.toInt_eq_toNat_cond]
      dsimp only at hlt ⊢
      split
      · omega
      · omega

theorem number_emod (x : BitVec t.width) : t.number x % (2 ^ t.width : Nat) = x.toNat :=
  SizedBits.num_emod t.sign ⟨t.width, x⟩

theorem eq_of_emod_eq (hpos : 0 < t.width) (hi : t.Contains i) (hj : t.Contains j)
    (h : i % (2 ^ t.width : Nat) = j % (2 ^ t.width : Nat)) : i = j := by
  rcases t with ⟨w, sign⟩
  have hdvd : ((2 ^ w : Nat) : Int) ∣ i - j := Int.ModEq.dvd h.symm
  cases sign with
  | false =>
      rw [contains_unsigned] at hi hj
      apply Int.eq_of_sub_eq_zero
      exact Int.eq_zero_of_abs_lt_dvd hdvd (abs_lt.mpr (by omega))
  | true =>
      rw [contains_signed] at hi hj
      have hpow : 2 ^ w = 2 * 2 ^ (w - 1) := two_pow_pred hpos
      apply Int.eq_of_sub_eq_zero
      exact Int.eq_zero_of_abs_lt_dvd hdvd (abs_lt.mpr (by omega))

theorem wrap_emod (t : IntegerType) (i : Int) :
    t.wrap i % (2 ^ t.width : Nat) = i % (2 ^ t.width : Nat) := by
  unfold wrap
  rw [number_emod, BitVec.toNat_ofInt]
  exact Int.toNat_of_nonneg (Int.emod_nonneg _ (Int.natCast_ne_zero.mpr (by positivity)))

theorem contains_wrap (hpos : 0 < t.width) (i : Int) : t.Contains (t.wrap i) :=
  contains_number hpos _

theorem wrap_of_contains (hpos : 0 < t.width) (hi : t.Contains i) : t.wrap i = i :=
  eq_of_emod_eq hpos (contains_wrap hpos i) hi (wrap_emod t i)

theorem number_inj {x y : BitVec t.width} : t.number x = t.number y ↔ x = y :=
  (SizedBits.num_inj t.sign x y).symm

theorem number_ofInt (hpos : 0 < t.width) (hi : t.Contains i) :
    t.number (BitVec.ofInt t.width i) = i :=
  wrap_of_contains hpos hi

theorem Contains.mono {k w : Nat} {sign : Bool} (h : (IntegerType.mk k sign).Contains i)
    (hle : k ≤ w) : (IntegerType.mk w sign).Contains i := by
  cases sign with
  | false =>
      rw [contains_unsigned] at h ⊢
      have hpow : 2 ^ k ≤ 2 ^ w := Nat.pow_le_pow_right (by decide) hle
      omega
  | true =>
      rw [contains_signed] at h ⊢
      have hpow : 2 ^ (k - 1) ≤ 2 ^ (w - 1) := Nat.pow_le_pow_right (by decide) (by omega)
      omega

end IntegerType

end Foundation
end Crave
