import Mathlib.Data.Int.ModEq
import Mathlib.Data.List.Induction
import Mathlib.Tactic.Ring

/-!
# Binary digits

A number is given by its digits, the highest one first. A bit-vector takes in digits from
the right, and its own high bits are shifted out.
-/

namespace Crave
namespace Foundation

def ofDigits : List Bool -> Nat
  | [] => 0
  | b :: rest => b.toNat * 2 ^ rest.length + ofDigits rest

def digits : Nat -> Nat -> List Bool
  | 0, _ => []
  | w + 1, n => n.testBit w :: digits w n

theorem length_digits (w n : Nat) : (digits w n).length = w := by
  induction w with
  | zero => rfl
  | succ w ih => rw [digits, List.length_cons, ih]

theorem ofDigits_lt (s : List Bool) : ofDigits s < 2 ^ s.length := by
  induction s with
  | nil => exact Nat.one_pos
  | cons b rest ih =>
      rw [ofDigits, List.length_cons, Nat.pow_succ]
      cases b with
      | false =>
          rw [Bool.toNat_false]
          omega
      | true =>
          rw [Bool.toNat_true]
          omega

theorem ofDigits_digits (w n : Nat) : ofDigits (digits w n) = n % 2 ^ w := by
  induction w with
  | zero => rw [Nat.pow_zero, Nat.mod_one, digits, ofDigits]
  | succ w ih =>
      rw [digits, ofDigits, length_digits, ih, Nat.mod_pow_succ, Nat.toNat_testBit, Nat.mul_comm,
        Nat.add_comm]

variable {w : Nat}

theorem ofInt_congr {i j : Int} (h : i ≡ j [ZMOD (2 ^ w : Nat)]) :
    BitVec.ofInt w i = BitVec.ofInt w j := by
  apply BitVec.eq_of_toNat_eq
  rw [BitVec.toNat_ofInt, BitVec.toNat_ofInt, h]

theorem shiftConcat_ofInt (i : Int) (b : Bool) :
    (BitVec.ofInt w i).shiftConcat b = BitVec.ofInt w (i * 2 + b.toNat) := by
  have hpow : ((2 ^ w : Nat) : Int) ≠ 0 := Int.natCast_ne_zero.mpr (Nat.two_pow_pos w).ne'
  apply BitVec.eq_of_toNat_eq
  apply Int.natCast_inj.mp
  rw [BitVec.toNat_shiftConcat, BitVec.toNat_ofInt, BitVec.toNat_ofInt, Nat.shiftLeft_eq,
    Nat.pow_one, Int.natCast_emod, Int.toNat_of_nonneg (Int.emod_nonneg _ hpow), Nat.cast_add,
    Nat.cast_mul, Int.toNat_of_nonneg (Int.emod_nonneg _ hpow)]
  exact ((Int.mod_modEq i _).mul_right _).add_right _

/-- The number that results when digits are taken in, modulo the width. -/
theorem foldl_shiftConcat_ofInt (i : Int) (s : List Bool) :
    s.foldl BitVec.shiftConcat (BitVec.ofInt w i) =
      BitVec.ofInt w (i * 2 ^ s.length + ofDigits s) := by
  induction s generalizing i with
  | nil =>
      rw [List.foldl_nil, List.length_nil, ofDigits]
      congr 1
      ring
  | cons b rest ih =>
      rw [List.foldl_cons, shiftConcat_ofInt, ih, List.length_cons, ofDigits]
      congr 1
      push_cast
      ring

theorem getLsbD_foldl_shiftConcat (x : BitVec w) (s : List Bool) {i : Nat} (hi : i < w) :
    (s.foldl BitVec.shiftConcat x).getLsbD i =
      s.reverse.getD i (x.getLsbD (i - s.length)) := by
  induction s using List.reverseRecOn generalizing i with
  | nil => rfl
  | append_singleton s b ih =>
      rw [List.foldl_append, List.foldl_cons, List.foldl_nil, BitVec.getLsbD_shiftConcat,
        List.reverse_append, List.reverse_singleton, List.singleton_append]
      cases i with
      | zero => simp [hi]
      | succ i =>
          have hsub : i + 1 - (s ++ [b]).length = i - s.length := by
            rw [List.length_append, List.length_singleton, Nat.add_sub_add_right]
          rw [List.getD_cons_succ, hsub, ← ih (Nat.lt_of_succ_lt hi)]
          simp [hi]

theorem toInt_ofDigits (b : Bool) (rest : List Bool) :
    (BitVec.ofNat (rest.length + 1) (ofDigits (b :: rest))).toInt =
      (ofDigits (b :: rest) : Int) - if b then 2 ^ (rest.length + 1) else 0 := by
  have hlt := ofDigits_lt (b :: rest)
  have hrest := ofDigits_lt rest
  have hpow : 2 ^ (rest.length + 1) = 2 ^ rest.length * 2 :=
    Nat.pow_succ 2 rest.length
  rw [List.length_cons] at hlt
  rw [BitVec.toInt_eq_toNat_cond, BitVec.toNat_ofNat, Nat.mod_eq_of_lt hlt]
  rw [ofDigits] at hlt ⊢
  cases b with
  | false =>
      rw [Bool.toNat_false] at hlt ⊢
      rw [if_pos (by omega), if_neg Bool.false_ne_true]
      omega
  | true =>
      rw [Bool.toNat_true] at hlt ⊢
      rw [if_neg (by omega), if_pos rfl]
      push_cast
      rfl

end Foundation
end Crave
