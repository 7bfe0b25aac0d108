import Mathlib.Data.Int.ModEq
import Mathlib.Tactic.Linarith
import Mathlib.Tactic.Ring

/-!
# Sized bit-vectors

A bit-vector that carries its width as data, for terms whose widths are only
known once they have been built.  The module fixes the two numeric readings of
a bit-vector, shows that widening keeps the reading it is taken with, and
states when comparing bit patterns compares the numbers they stand for.
-/

namespace Crave
namespace Foundation

structure SizedBits where
  width : Nat
  bits : BitVec width
deriving DecidableEq, Repr

namespace SizedBits

def ofBool (b : Bool) : SizedBits :=
  { width := 1, bits := BitVec.ofBool b }

/-- The number a bit-vector stands for when it is read signed or unsigned. -/
def num (signed : Bool) (x : SizedBits) : Int :=
  if signed then x.bits.toInt else (x.bits.toNat : Int)

def zeroExtend (n : Nat) (x : SizedBits) : SizedBits :=
  { width := x.width + n, bits := x.bits.setWidth (x.width + n) }

def signExtend (n : Nat) (x : SizedBits) : SizedBits :=
  { width := x.width + n, bits := x.bits.signExtend (x.width + n) }

def extend (signed : Bool) (n : Nat) (x : SizedBits) : SizedBits :=
  if signed then x.signExtend n else x.zeroExtend n

@[simp] theorem width_zeroExtend (n : Nat) (x : SizedBits) :
    (x.zeroExtend n).width = x.width + n := rfl

@[simp] theorem width_signExtend (n : Nat) (x : SizedBits) :
    (x.signExtend n).width = x.width + n := rfl

@[simp] theorem width_extend (signed : Bool) (n : Nat) (x : SizedBits) :
    (x.extend signed n).width = x.width + n := by
  cases signed <;> rfl

@[simp] theorem width_ofBool (b : Bool) : (ofBool b).width = 1 := rfl

theorem extend_zero (signed : Bool) (x : SizedBits) : x.extend signed 0 = x := by
  rcases x with ⟨w, x⟩
  cases signed
  · simp [extend, zeroExtend]
  · simp [extend, signExtend]

theorem ofBool_injective {a b : Bool} (h : ofBool a = ofBool b) : a = b := by
  cases a <;> cases b <;> first | rfl | exact absurd h (by decide)

/-!
## Numeric readings
-/

theorem num_unsigned (x : SizedBits) : x.num false = (x.bits.toNat : Int) := rfl

theorem num_signed (x : SizedBits) : x.num true = x.bits.toInt := rfl

theorem num_zeroExtend (n : Nat) (x : SizedBits) :
    (x.zeroExtend n).num false = x.num false := by
  have hlt : x.bits.toNat < 2 ^ (x.width + n) :=
    lt_of_lt_of_le x.bits.isLt
      (Nat.pow_le_pow_right (by decide) (Nat.le_add_right _ _))
  simp [num, zeroExtend, BitVec.toNat_setWidth, Nat.mod_eq_of_lt hlt]

theorem num_signExtend (n : Nat) (x : SizedBits) :
    (x.signExtend n).num true = x.num true := by
  simp only [num, signExtend, if_true]
  exact BitVec.toInt_signExtend_of_le (Nat.le_add_right _ _)

theorem num_extend (signed : Bool) (n : Nat) (x : SizedBits) :
    (x.extend signed n).num signed = x.num signed := by
  cases signed with
  | false => exact num_zeroExtend n x
  | true => exact num_signExtend n x

/-- Widening an unsigned number by one bit makes both readings agree. -/
theorem num_true_zeroExtend_one (x : SizedBits) :
    (x.zeroExtend 1).num true = x.num false := by
  have hlt : x.bits.toNat < 2 ^ x.width := x.bits.isLt
  have hpow : 2 ^ (x.width + 1) = 2 * 2 ^ x.width := by ring
  simp only [num, zeroExtend, if_true, Bool.false_eq_true, if_false,
    BitVec.toInt_eq_toNat_cond, BitVec.toNat_setWidth]
  rw [Nat.mod_eq_of_lt (by omega)]
  split
  · rfl
  · omega

theorem num_emod (signed : Bool) (x : SizedBits) :
    x.num signed % (2 ^ x.width : Nat) = (x.bits.toNat : Int) := by
  cases signed with
  | false =>
      rw [num_unsigned]
      exact Int.emod_eq_of_lt (by omega) (by exact_mod_cast x.bits.isLt)
  | true =>
      rw [num_signed, BitVec.toInt_eq_toNat_bmod, Int.bmod_emod]
      exact Int.emod_eq_of_lt (by omega) (by exact_mod_cast x.bits.isLt)

/-- Two bit-vectors of one width are equal when their numbers agree modulo the
width, whatever the readings. -/
theorem bits_eq_iff_num_emod_eq {w : Nat} (s t : Bool) (x y : BitVec w) :
    x = y ↔
      num s ⟨w, x⟩ % (2 ^ w : Nat) = num t ⟨w, y⟩ % (2 ^ w : Nat) := by
  rw [num_emod s ⟨w, x⟩, num_emod t ⟨w, y⟩]
  constructor
  · intro h
    rw [h]
  · intro h
    exact BitVec.eq_of_toNat_eq (by exact_mod_cast h)

theorem num_inj {w : Nat} (s : Bool) (x y : BitVec w) :
    x = y ↔ num s ⟨w, x⟩ = num s ⟨w, y⟩ := by
  constructor
  · intro h
    rw [h]
  · intro h
    rw [bits_eq_iff_num_emod_eq s s, h]

theorem num_bounds (signed : Bool) (x : SizedBits) :
    -(2 ^ x.width : Nat) ≤ x.num signed ∧ x.num signed < (2 ^ x.width : Nat) := by
  have hlt := x.bits.isLt
  cases signed with
  | false =>
      rw [num_unsigned]
      omega
  | true =>
      rw [num_signed, BitVec.toInt_eq_toNat_cond]
      split <;> omega

end SizedBits
end Foundation
end Crave
