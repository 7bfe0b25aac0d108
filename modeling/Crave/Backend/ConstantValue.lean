import Crave.Foundation.IntegerType
import Crave.Backend.RelationalOperators
import Crave.Backend.WellSorted

/-!
# The value of a constant

A constant of the context has the width that its value needs. It is extended to the width
of the other operand by its own sign.
-/

namespace Crave
namespace Ir
namespace Context

open Foundation

/-- `new_value` for a truth value, with the width and the sign of `bool`. -/
def new_value_bool (i : Bool) : Constant :=
  { value := BitVec.ofNat 64 i.toNat, bitsize := 1, sign := true }

/-- `new_value` keeps the type, or it takes the first width that holds the value. -/
theorem new_value_cases (width : Nat) (sign : Bool) (i : Int) :
    (exists j, new_value width sign i = { value := BitVec.ofInt 64 i, bitsize := j, sign := false } ∧
        0 ≤ i ∧ 1 ≤ j ∧ j < width ∧ i < 2 ^ j ∧ forall k, 1 ≤ k -> k < j -> 2 ^ k ≤ i) ∨
      (new_value width sign i = { value := BitVec.ofInt 64 i, bitsize := width, sign := sign } ∧
        (0 ≤ i -> forall k, 1 ≤ k -> k < width -> 2 ^ k ≤ i)) := by
  have hshift : forall k : Nat, 0 ≤ i -> ((i / 2 ^ k == 0) = true ↔ i < 2 ^ k) := by
    intro k hi
    rw [beq_iff_eq]
    constructor
    · intro hzero
      by_contra hge
      have hone : 1 ≤ i / 2 ^ k := Int.le_ediv_of_mul_le (by positivity) (by omega)
      omega
    · exact Int.ediv_eq_zero_of_lt hi
  unfold new_value
  by_cases hi : 0 ≤ i
  · rw [if_pos hi]
    cases hfind : (List.range' 1 (width - 1)).find? fun j => i / 2 ^ j == 0 with
    | some j =>
        have hmem := List.mem_range'_1.mp (List.mem_of_find?_eq_some hfind)
        have hfound : (i / 2 ^ j == 0) = true :=
          List.find?_some (p := fun k => i / 2 ^ k == 0) hfind
        have hlt := (hshift j hi).mp hfound
        rcases List.find?_range'_eq_some.mp hfind with ⟨_, _, hfirst⟩
        apply Or.inl
        exists j
        constructor
        · rfl
        constructor
        · exact hi
        constructor
        · exact hmem.left
        constructor
        · omega
        constructor
        · exact hlt
        · intro k hk hkj
          have hnot := hfirst k hk hkj
          rw [Bool.not_eq_true', ← Bool.not_eq_true, hshift k hi] at hnot
          exact Int.not_lt.mp hnot
    | none =>
        apply Or.inr
        constructor
        · rfl
        · intro _ k hk hkw
          have hnot := List.find?_eq_none.mp hfind k (List.mem_range'_1.mpr (by omega))
          rw [hshift k hi] at hnot
          exact Int.not_lt.mp hnot
  · rw [if_neg hi]
    apply Or.inr
    constructor
    · rfl
    · intro hi'
      exact absurd hi' hi

theorem new_value_contains {width : Nat} {sign : Bool} {i : Int}
    (hi : (IntegerType.mk width sign).Contains i) :
    (IntegerType.mk (new_value width sign i).bitsize (new_value width sign i).sign).Contains i := by
  rcases new_value_cases width sign i with ⟨j, heq, hnonneg, _, _, hlt, _⟩ | ⟨heq, _⟩
  · rw [heq]
    apply IntegerType.contains_unsigned.mpr
    constructor
    · exact hnonneg
    · exact_mod_cast hlt
  · rw [heq]
    exact hi

theorem new_value_value (width : Nat) (sign : Bool) (i : Int) :
    (new_value width sign i).value = BitVec.ofInt 64 i := by
  rcases new_value_cases width sign i with ⟨_, heq, _⟩ | ⟨heq, _⟩
  · rw [heq]
  · rw [heq]

theorem new_value_bitsize_le (width : Nat) (sign : Bool) (i : Int) :
    (new_value width sign i).bitsize ≤ width := by
  rcases new_value_cases width sign i with ⟨j, heq, _, _, hlt, _⟩ | ⟨heq, _⟩
  · rw [heq]
    exact hlt.le
  · rw [heq]

theorem new_value_bitsize_pos {width : Nat} (hpos : 0 < width) (sign : Bool) (i : Int) :
    0 < (new_value width sign i).bitsize := by
  rcases new_value_cases width sign i with ⟨j, heq, _, hone, _⟩ | ⟨heq, _⟩
  · rw [heq]
    exact hone
  · rw [heq]
    exact hpos

theorem new_value_least {width : Nat} {sign : Bool} {i : Int} (hpos : 0 < width)
    (hi : (IntegerType.mk width sign).Contains i) (hnonneg : 0 ≤ i) :
    i < 2 ^ (new_value width sign i).bitsize ∧
      forall k, 1 ≤ k -> i < 2 ^ k -> (new_value width sign i).bitsize ≤ k := by
  rcases new_value_cases width sign i with ⟨j, heq, _, _, _, hlt, hleast⟩ | ⟨heq, hleast⟩
  · rw [heq]
    constructor
    · exact hlt
    · intro k hk hik
      by_contra hkj
      have hle := hleast k hk (Nat.lt_of_not_le hkj)
      omega
  · rw [heq]
    constructor
    · show i < 2 ^ width
      cases sign with
      | false =>
          rw [IntegerType.contains_unsigned] at hi
          exact_mod_cast hi.right
      | true =>
          rw [IntegerType.contains_signed] at hi
          have hpow : 2 ^ width = 2 * 2 ^ (width - 1) := IntegerType.two_pow_pred hpos
          have hhigh : i < (2 ^ width : Nat) := by omega
          exact_mod_cast hhigh
    · intro k hk hik
      by_contra hkw
      have hle := hleast hnonneg k hk (Nat.lt_of_not_le hkw)
      omega

end Context
end Ir

namespace Backend

open Foundation Ir
open FixWidthVisitor MetaSMTVisitor

/-- The number that a constant stands for under its width and sign. -/
def constantNumber (c : Constant) : Int :=
  (IntegerType.mk c.bitsize c.sign).number (c.value.setWidth c.bitsize)

theorem operand_constant {c : Constant} (hrange : c.InRange) (hle : c.bitsize ≤ 64)
    (m : Model SolverVar) :
    Operand m (.constant c) ⟨c.bitsize, c.value.setWidth c.bitsize⟩ c.sign := by
  exists (visitConstant c).1
  constructor
  · rw [← sign_visitConstant c]
    rfl
  · exact eval_visitConstant m hrange hle

/-- As the left or the right operand of an operator, the constant is extended to the width of
the other operand, and it stands for the number. -/
def KeepsNumber (c : Constant) (i : Int) : Prop :=
  forall (m : Model SolverVar) (other : StackEntry),
    (exists x : SizedBits,
      Operand m (evalBinExpr (FixWidthVisitor.visit (.constant c)) other).1.1 x c.sign ∧
        x.width = max c.bitsize other.2 ∧ x.num c.sign = i) ∧
    exists x : SizedBits,
      Operand m (evalBinExpr other (FixWidthVisitor.visit (.constant c))).2.1 x c.sign ∧
        x.width = max c.bitsize other.2 ∧ x.num c.sign = i

theorem keepsNumber_constantNumber {c : Constant} (hrange : c.InRange) (hle : c.bitsize ≤ 64) :
    KeepsNumber c (constantNumber c) := by
  intro m other
  have hoperand := operand_constant hrange hle m
  have hwidth : c.bitsize + (other.2 - c.bitsize) = max c.bitsize other.2 := by omega
  constructor
  · exact ⟨_, hoperand.evalBinExpr_left (FixWidthVisitor.visit (.constant c)) other,
      (SizedBits.width_extend _ _ _).trans hwidth, SizedBits.num_extend _ _ _⟩
  · exact ⟨_, hoperand.evalBinExpr_right other (FixWidthVisitor.visit (.constant c)),
      (SizedBits.width_extend _ _ _).trans hwidth, SizedBits.num_extend _ _ _⟩

theorem constantNumber_new_value {width : Nat} {sign : Bool} {i : Int} (hpos : 0 < width)
    (hle : width ≤ 64) (hi : (IntegerType.mk width sign).Contains i) :
    constantNumber (Context.new_value width sign i) = i := by
  have hbitsize := (Context.new_value_bitsize_le width sign i).trans hle
  unfold constantNumber
  rw [Context.new_value_value, IntegerType.setWidth_ofInt hbitsize]
  exact IntegerType.number_ofInt (Context.new_value_bitsize_pos hpos sign i)
    (Context.new_value_contains hi)

theorem new_value_inRange_of_contains {width : Nat} {sign : Bool} {i : Int} (hpos : 0 < width)
    (hle : width ≤ 64) (hbool : ¬ (width = 1 ∧ sign = true))
    (hi : (IntegerType.mk width sign).Contains i) : (Context.new_value width sign i).InRange := by
  have hnot : (width == 1 && sign) = false := by
    rw [← Bool.not_eq_true, Bool.and_eq_true, beq_iff_eq]
    exact hbool
  have hbounds : (if sign then -(2 ^ (width - 1) : Int) else 0) ≤ i ∧
      i < 2 ^ (if sign then width - 1 else width) := by
    cases sign with
    | false => exact_mod_cast IntegerType.contains_unsigned.mp hi
    | true => exact_mod_cast IntegerType.contains_signed.mp hi
  exact Context.new_value_inRange hpos hle hnot hbounds.left hbounds.right

/-- The constant for an integer of a type other than `bool` keeps its value, with the least
width when it is not negative. The constant for `true` stands for minus one. -/
theorem new_value_keeps_number :
    (forall (width : Nat) (sign : Bool) (i : Int), 0 < width -> width ≤ 64 ->
      ¬ (width = 1 ∧ sign = true) -> (IntegerType.mk width sign).Contains i ->
        constantNumber (Context.new_value width sign i) = i ∧
        1 ≤ (Context.new_value width sign i).bitsize ∧
        (0 ≤ i -> i < 2 ^ (Context.new_value width sign i).bitsize ∧
          forall k, 1 ≤ k -> i < 2 ^ k -> (Context.new_value width sign i).bitsize ≤ k) ∧
        KeepsNumber (Context.new_value width sign i) i) ∧
    (forall i : Bool,
      constantNumber (Context.new_value_bool i) = (if i then -1 else 0) ∧
      KeepsNumber (Context.new_value_bool i) (if i then -1 else 0)) := by
  constructor
  · intro width sign i hpos hle hbool hi
    have hnumber := constantNumber_new_value hpos hle hi
    constructor
    · exact hnumber
    constructor
    · exact Context.new_value_bitsize_pos hpos sign i
    constructor
    · exact Context.new_value_least hpos hi
    · have hkeeps := keepsNumber_constantNumber (new_value_inRange_of_contains hpos hle hbool hi)
        ((Context.new_value_bitsize_le width sign i).trans hle)
      rw [hnumber] at hkeeps
      exact hkeeps
  · intro i
    have hnumber : constantNumber (Context.new_value_bool i) = if i then -1 else 0 := by
      cases i with
      | false => rfl
      | true => rfl
    have hrange : (Context.new_value_bool i).InRange := by
      cases i with
      | false => exact Or.inl rfl
      | true => exact Or.inr rfl
    constructor
    · exact hnumber
    · rw [← hnumber]
      exact keepsNumber_constantNumber hrange (show 1 ≤ 64 by decide)

theorem new_value_keeps_number_byte :
    constantNumber (Context.new_value 8 true 5) = 5 ∧
      KeepsNumber (Context.new_value 8 true (-3)) (-3) := by
  constructor
  · exact (new_value_keeps_number.left 8 true 5 (by decide) (by decide) (by decide)
      (by decide)).left
  · exact (new_value_keeps_number.left 8 true (-3) (by decide) (by decide) (by decide)
      (by decide)).right.right.right

/-- The constant for `true` does not stand for one. -/
theorem new_value_true_number :
    ¬ (forall i : Bool, constantNumber (Context.new_value_bool i) = (i.toNat : Int)) := by
  intro hclaim
  exact absurd (hclaim true) (by decide)

end Backend
end Crave
