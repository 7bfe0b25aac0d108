import Mathlib.Data.Int.Bitwise

/-!
# Bitwise operators on two's complement numbers

The bitwise operators on bit-vectors are those on the integers that the bit-vectors
stand for, an integer being read as an infinite sequence of bits.
-/

namespace Crave
namespace Foundation

theorem exists_testBit_eq_false (m n : Nat) :
    exists k, m.testBit k = false ∧ n.testBit k = false := by
  have hm : m < 2 ^ (m + n) :=
    lt_of_lt_of_le Nat.lt_two_pow_self (Nat.pow_le_pow_right (by decide) (Nat.le_add_right m n))
  have hn : n < 2 ^ (m + n) :=
    lt_of_lt_of_le Nat.lt_two_pow_self (Nat.pow_le_pow_right (by decide) (Nat.le_add_left n m))
  exact ⟨m + n, Nat.testBit_lt_two_pow hm, Nat.testBit_lt_two_pow hn⟩

theorem eq_of_testBit_eq {i j : Int} (h : forall k, i.testBit k = j.testBit k) : i = j := by
  cases i with
  | ofNat m =>
      cases j with
      | ofNat n => exact congrArg Int.ofNat (Nat.eq_of_testBit_eq h)
      | negSucc n =>
          rcases exists_testBit_eq_false m n with ⟨k, hm, hn⟩
          have hk : m.testBit k = !n.testBit k := h k
          rw [hm, hn] at hk
          cases hk
  | negSucc m =>
      cases j with
      | ofNat n =>
          rcases exists_testBit_eq_false m n with ⟨k, hm, hn⟩
          have hk : (!m.testBit k) = n.testBit k := h k
          rw [hm, hn] at hk
          cases hk
      | negSucc n =>
          apply congrArg Int.negSucc
          apply Nat.eq_of_testBit_eq
          intro k
          have hk : (!m.testBit k) = !n.testBit k := h k
          exact Bool.not_inj hk

variable {w : Nat}

theorem toInt_eq_negSucc {x : BitVec w} (h : x.msb = true) :
    x.toInt = Int.negSucc (~~~x).toNat := by
  have hlt := x.isLt
  rw [BitVec.toInt_eq_msb_cond, if_pos h, BitVec.toNat_not, Int.negSucc_eq]
  push_cast [Nat.sub_sub, Nat.cast_sub (show 1 + x.toNat ≤ 2 ^ w by omega)]
  omega

/-- The bits of the number beyond the width are copies of the highest one. -/
theorem testBit_toInt (x : BitVec w) (k : Nat) :
    x.toInt.testBit k = if k < w then x.getLsbD k else x.msb := by
  cases hmsb : x.msb with
  | false =>
      rw [BitVec.toInt_eq_toNat_of_msb hmsb]
      show x.toNat.testBit k = _
      split
      · rfl
      · next hk => exact BitVec.getLsbD_of_ge x k (Nat.le_of_not_lt hk)
  | true =>
      rw [toInt_eq_negSucc hmsb]
      show (!(~~~x).toNat.testBit k) = _
      rw [BitVec.testBit_toNat, BitVec.getLsbD_not]
      split
      · next hk => simp [hk]
      · next hk => simp [hk]

theorem toInt_and (x y : BitVec w) : (x &&& y).toInt = Int.land x.toInt y.toInt := by
  apply eq_of_testBit_eq
  intro k
  rw [Int.testBit_land, testBit_toInt, testBit_toInt, testBit_toInt]
  split
  · exact BitVec.getLsbD_and
  · exact BitVec.msb_and

theorem toInt_or (x y : BitVec w) : (x ||| y).toInt = Int.lor x.toInt y.toInt := by
  apply eq_of_testBit_eq
  intro k
  rw [Int.testBit_lor, testBit_toInt, testBit_toInt, testBit_toInt]
  split
  · exact BitVec.getLsbD_or
  · exact BitVec.msb_or

theorem toInt_xor (x y : BitVec w) : (x ^^^ y).toInt = Int.xor x.toInt y.toInt := by
  apply eq_of_testBit_eq
  intro k
  rw [Int.testBit_lxor, testBit_toInt, testBit_toInt, testBit_toInt]
  split
  · exact BitVec.getLsbD_xor
  · exact BitVec.msb_xor

/-- The bits of an integer that is cut off are its lowest ones. -/
theorem getLsbD_ofInt (w : Nat) (i : Int) {k : Nat} (hk : k < w) :
    (BitVec.ofInt w i).getLsbD k = i.testBit k := by
  cases i with
  | ofNat n =>
      rw [Int.ofNat_eq_natCast, BitVec.ofInt_natCast, BitVec.getLsbD_ofNat, decide_eq_true hk,
        Bool.true_and]
      rfl
  | negSucc n =>
      rw [BitVec.ofInt_negSucc_eq_not_ofNat, BitVec.getLsbD_not, BitVec.getLsbD_ofNat,
        decide_eq_true hk, Bool.true_and, Bool.true_and]
      rfl

theorem ofInt_land (w : Nat) (i j : Int) :
    BitVec.ofInt w (Int.land i j) = BitVec.ofInt w i &&& BitVec.ofInt w j := by
  apply BitVec.eq_of_getLsbD_eq
  intro k hk
  rw [BitVec.getLsbD_and, getLsbD_ofInt w _ hk, getLsbD_ofInt w _ hk, getLsbD_ofInt w _ hk,
    Int.testBit_land]

theorem ofInt_lor (w : Nat) (i j : Int) :
    BitVec.ofInt w (Int.lor i j) = BitVec.ofInt w i ||| BitVec.ofInt w j := by
  apply BitVec.eq_of_getLsbD_eq
  intro k hk
  rw [BitVec.getLsbD_or, getLsbD_ofInt w _ hk, getLsbD_ofInt w _ hk, getLsbD_ofInt w _ hk,
    Int.testBit_lor]

theorem ofInt_xor (w : Nat) (i j : Int) :
    BitVec.ofInt w (Int.xor i j) = BitVec.ofInt w i ^^^ BitVec.ofInt w j := by
  apply BitVec.eq_of_getLsbD_eq
  intro k hk
  rw [BitVec.getLsbD_xor, getLsbD_ofInt w _ hk, getLsbD_ofInt w _ hk, getLsbD_ofInt w _ hk,
    Int.testBit_lxor]

theorem ofInt_sub (w : Nat) (i j : Int) :
    BitVec.ofInt w (i - j) = BitVec.ofInt w i - BitVec.ofInt w j := by
  rw [sub_eq_add_neg, BitVec.ofInt_add, BitVec.ofInt_neg, ← BitVec.sub_eq_add_neg]

theorem ofInt_complement (w : Nat) (i : Int) :
    BitVec.ofInt w (-i - 1) = ~~~BitVec.ofInt w i := by
  apply BitVec.eq_of_getLsbD_eq
  intro k hk
  have hnot : -i - 1 = Int.lnot i := by
    cases i with
    | ofNat n =>
        rw [Int.lnot, Int.negSucc_eq, Int.ofNat_eq_natCast]
        omega
    | negSucc n =>
        rw [Int.lnot, Int.negSucc_eq]
        omega
  rw [BitVec.getLsbD_not, getLsbD_ofInt w _ hk, getLsbD_ofInt w _ hk, decide_eq_true hk,
    Bool.true_and, hnot, Int.testBit_lnot]

end Foundation
end Crave
