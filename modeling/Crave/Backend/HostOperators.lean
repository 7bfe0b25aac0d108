import Crave.Backend.DivisionOperators
import Crave.Backend.Evaluation
import Crave.Foundation.TwosComplement

/-!
# Host operators on the numbers of their operands

The evaluator computes with 64-bit words what the formula computes with words of the
width of the operands.  For every operator the module says, by the numbers of the
operands alone, when the two results are the same number.
-/

namespace Crave
namespace Backend

open Foundation Ir FixWidthVisitor MetaSMTVisitor

/-!
## When the width does not matter
-/

/-- The numbers of the type of an expression; a single bit counts as zero or one. -/
def InType (u : Node) (k : Int) : Prop :=
  if u.bitsize = 1 then 0 ≤ k ∧ k < 2
  else if u.sign = true then -(2 ^ u.bitsize) ≤ 2 * k ∧ 2 * k < 2 ^ u.bitsize
  else 0 ≤ k ∧ k < 2 ^ u.bitsize

/-- A result that the width of the expression does not change. -/
def Fits (u : Node) (k : Int) : Prop :=
  u.bitsize = 64 ∨ InType u k

/-- An operand that is a bool is false or no wider operand stands beside it: a true one
becomes minus one in a wider operation. -/
def Unwidened (assignment : Nat -> Constant) (w : Nat) (u : Node) : Prop :=
  u.bitsize = 1 -> u.sign = true -> w = 1 ∨ number assignment u = 0

/-- The type of an operand read as signed where its type is. -/
def typed (assignment : Nat -> Constant) (u : Node) : Int :=
  (meaning assignment u).num u.sign

/-- The host divides as it should: by the signs that it keeps for the operands. -/
def HostDivides (assignment : Nat -> Constant) (lhs rhs : Node) : Prop :=
  number assignment rhs ≠ 0 ∧
    if ((hostType assignment lhs).2 || (hostType assignment rhs).2) = true then
      number assignment lhs < 2 ^ 63 ∧ number assignment rhs < 2 ^ 63 ∧
        ¬ (number assignment lhs = -(2 ^ 63) ∧ number assignment rhs = -1)
    else
      0 ≤ number assignment lhs ∧ 0 ≤ number assignment rhs

/-- What an operator asks of the numbers of its operands. -/
def ExactBinary (assignment : Nat -> Constant) (op : BinaryOperator) (lhs rhs : Node) : Prop :=
  let u := Node.binaryOpr op lhs rhs
  let w := max lhs.bitsize rhs.bitsize
  let a := number assignment lhs
  let b := number assignment rhs
  match op with
  | .andOpr => Fits u (Int.land a b)
  | .orOpr => Fits u (Int.lor a b)
  | .logicalAndOpr => True
  | .logicalOrOpr => True
  | .xorOpr => Fits u (Int.xor a b)
  | .equalOpr => w = 64 ∨ (a % 2 ^ w = b % 2 ^ w -> a = b)
  | .notEqualOpr => w = 64 ∨ (a % 2 ^ w = b % 2 ^ w -> a = b)
  | .lessOpr => 0 ≤ typed assignment lhs ↔ 0 ≤ typed assignment rhs
  | .lessEqualOpr => 0 ≤ typed assignment lhs ↔ 0 ≤ typed assignment rhs
  | .greaterOpr => 0 ≤ typed assignment lhs ↔ 0 ≤ typed assignment rhs
  | .greaterEqualOpr => 0 ≤ typed assignment lhs ↔ 0 ≤ typed assignment rhs
  | .plusOpr => Fits u (a + b)
  | .minusOpr => Fits u (a - b)
  | .multipliesOpr => Fits u (a * b)
  | .devideOpr => HostDivides assignment lhs rhs ∧ Fits u (a.tdiv b)
  | .moduloOpr =>
      HostDivides assignment lhs rhs ∧ Fits u (a.tmod b) ∧
        ModuloExact lhs.sign rhs.sign w a b
  | .shiftLeftOpr => 0 ≤ b ∧ b < 64 ∧ Fits u (a * 2 ^ b.toNat)
  | .shiftRightOpr =>
      0 ≤ b ∧ b < 64 ∧ (w = 64 ∨ (0 ≤ a ∨ b = 0) ∧ InType u (a / 2 ^ b.toNat))

/-- The operand of `!` is a single bit, and the other operators have operands that the width
of the result suffices for. -/
def ExactAt (assignment : Nat -> Constant) : Node -> Prop
  | .unaryOpr .notOpr child => child.bitsize = 1
  | .unaryOpr .negOpr child => Fits (.unaryOpr .negOpr child) (-number assignment child)
  | .unaryOpr .complementOpr child =>
      Fits (.unaryOpr .complementOpr child) (-number assignment child - 1)
  | .binaryOpr op lhs rhs =>
      Unwidened assignment (max lhs.bitsize rhs.bitsize) lhs ∧
        Unwidened assignment (max lhs.bitsize rhs.bitsize) rhs ∧
        ExactBinary assignment op lhs rhs
  | _ => True

section Number

variable {assignment : Nat -> Constant} {u : Node} {k : Int}

theorem value_hostConstant (u : Node) :
    (hostConstant assignment u).value = BitVec.ofInt 64 (number assignment u) :=
  rfl

theorem number_of_sign_false (h : u.sign = false) :
    number assignment u = (denote assignment u).toNat :=
  number_eq_toNat (Or.inr h)

theorem number_of_signed (hsize : u.bitsize ≠ 1) (h : u.sign = true) :
    number assignment u = (denote assignment u).toInt := by
  unfold number
  rw [if_neg hsize, h]
  rfl

theorem ofInt_number (u : Node) :
    BitVec.ofInt u.bitsize (number assignment u) = denote assignment u := by
  have hunsigned : BitVec.ofInt u.bitsize ((denote assignment u).toNat : Int) =
      denote assignment u := by
    rw [BitVec.ofInt_natCast, BitVec.ofNat_toNat, BitVec.setWidth_eq]
  by_cases hsize : u.bitsize = 1
  · rw [number_eq_toNat (Or.inl hsize), hunsigned]
  · cases hsign : u.sign with
    | false => rw [number_of_sign_false hsign, hunsigned]
    | true => rw [number_of_signed hsize hsign, BitVec.ofInt_toInt]

theorem inType_number (u : Node) : InType u (number assignment u) := by
  have hlt := (denote assignment u).isLt
  unfold InType
  by_cases hsize : u.bitsize = 1
  · have hone : (2 : Nat) ^ u.bitsize = 2 := by rw [hsize]; rfl
    rw [if_pos hsize, number_eq_toNat (Or.inl hsize)]
    rw [hone] at hlt
    exact ⟨Int.natCast_nonneg _, by exact_mod_cast hlt⟩
  · rw [if_neg hsize]
    cases hsign : u.sign with
    | false =>
        rw [number_of_sign_false hsign]
        simp only [Bool.false_eq_true, if_false]
        constructor
        · exact Int.natCast_nonneg _
        · exact_mod_cast hlt
    | true =>
        rw [number_of_signed hsize hsign]
        simp only [if_true]
        constructor
        · have hle := BitVec.le_two_mul_toInt (x := denote assignment u)
          exact_mod_cast hle
        · have hlt' := BitVec.two_mul_toInt_lt (x := denote assignment u)
          exact_mod_cast hlt'

theorem ofInt_eq_iff_emod_eq (w : Nat) (i j : Int) :
    BitVec.ofInt w i = BitVec.ofInt w j ↔ i % 2 ^ w = j % 2 ^ w := by
  rw [← BitVec.toNat_inj, BitVec.toNat_ofInt, BitVec.toNat_ofInt]
  have hpos : (0 : Int) < 2 ^ w := by positivity
  have hi := Int.emod_nonneg i (Int.ne_of_gt hpos)
  have hj := Int.emod_nonneg j (Int.ne_of_gt hpos)
  push_cast
  omega

theorem eq_of_inType {n : Int} (hk : InType u k) (hn : InType u n)
    (h : BitVec.ofInt u.bitsize k = BitVec.ofInt u.bitsize n) : k = n := by
  rw [ofInt_eq_iff_emod_eq] at h
  have hdvd : (2 : Int) ^ u.bitsize ∣ k - n :=
    Int.dvd_of_emod_eq_zero (Int.emod_eq_emod_iff_emod_sub_eq_zero.mp h)
  have hlt : |k - n| < 2 ^ u.bitsize := by
    rw [abs_lt]
    unfold InType at hk hn
    split at hk
    · next hsize =>
        rw [if_pos hsize] at hn
        rw [hsize]
        constructor <;> linarith
    · next hsize =>
        rw [if_neg hsize] at hn
        split at hk
        · next hsign =>
            rw [if_pos hsign] at hn
            constructor <;> linarith
        · next hsign =>
            rw [if_neg hsign] at hn
            constructor <;> linarith
  exact sub_eq_zero.mp (Int.eq_zero_of_abs_lt_dvd hdvd hlt)

/-- A result that fits is the number of the expression, as a word of the host. -/
theorem ofInt_eq_number {w : Nat} (hmeaning : meaning assignment u = ⟨w, BitVec.ofInt w k⟩)
    (hfits : Fits u k) : BitVec.ofInt 64 k = BitVec.ofInt 64 (number assignment u) := by
  have hsize : u.bitsize = w := congrArg SizedBits.width hmeaning
  subst hsize
  have hdenote : denote assignment u = BitVec.ofInt u.bitsize k := by
    simpa [meaning] using hmeaning
  have hbits : BitVec.ofInt u.bitsize k = BitVec.ofInt u.bitsize (number assignment u) := by
    rw [ofInt_number, hdenote]
  cases hfits with
  | inl hsize =>
      rw [ofInt_eq_iff_emod_eq, hsize] at hbits
      exact (ofInt_eq_iff_emod_eq 64 _ _).mpr hbits
  | inr htype => rw [eq_of_inType htype (inType_number u) hbits]

theorem extendTo_denote {w : Nat} (hplain : Unwidened assignment w u) :
    extendTo u.sign w (denote assignment u) = BitVec.ofInt w (number assignment u) := by
  cases hsign : u.sign with
  | false =>
      rw [number_of_sign_false hsign, BitVec.ofInt_natCast, BitVec.ofNat_toNat]
      rfl
  | true =>
      show BitVec.ofInt w (denote assignment u).toInt = _
      by_cases hsize : u.bitsize = 1
      · rw [number_eq_toNat (Or.inl hsize)]
        cases hplain hsize hsign with
        | inl hw =>
            have htwo : (2 : Nat) ^ u.bitsize = 2 := by rw [hsize]; rfl
            have hlt := (denote assignment u).isLt
            rw [hw, ofInt_eq_iff_emod_eq, BitVec.toInt_eq_toNat_cond]
            rw [htwo] at hlt ⊢
            split <;> omega
        | inr hzero =>
            rw [number_eq_toNat (Or.inl hsize)] at hzero
            have hdenote : denote assignment u = 0 :=
              BitVec.eq_of_toNat_eq (by exact_mod_cast hzero)
            rw [hdenote]
            simp
      · rw [number_of_signed hsize hsign]

theorem number_of_nonneg {u : Node} (h : 0 ≤ typed assignment u) :
    number assignment u = typed assignment u := by
  unfold typed at h ⊢
  unfold number
  split
  · cases hsign : u.sign with
    | false => rfl
    | true =>
        rw [hsign] at h
        rw [SizedBits.num_signed, BitVec.toInt_eq_toNat_cond] at *
        split at h
        · rename_i hlt
          rw [if_pos hlt]
          rfl
        · have hbound := (meaning assignment u).bits.isLt
          omega
  · rfl

theorem typed_bounds (u : Node) (hle : u.bitsize ≤ 64) :
    -(2 ^ 64) ≤ typed assignment u ∧ typed assignment u < 2 ^ 64 := by
  have hbounds := SizedBits.num_bounds u.sign (meaning assignment u)
  have hpow : (2 : Int) ^ u.bitsize ≤ 2 ^ 64 := pow_le_pow_right₀ (by decide) hle
  push_cast at hbounds
  have hwidth : (meaning assignment u).width = u.bitsize := rfl
  rw [hwidth] at hbounds
  unfold typed
  constructor <;> linarith [hbounds.left, hbounds.right]

theorem toNat_ofInt_of_nonneg {i : Int} (h : 0 ≤ i) (hlt : i < 2 ^ 64) :
    ((BitVec.ofInt 64 i).toNat : Int) = i := by
  rw [BitVec.toNat_ofInt]
  omega

theorem toNat_ofInt_of_neg {i : Int} (h : i < 0) (hle : -(2 ^ 64) ≤ i) :
    ((BitVec.ofInt 64 i).toNat : Int) = i + 2 ^ 64 := by
  rw [BitVec.toNat_ofInt]
  omega

theorem bitsize_le {variables_ vectors_ : Declarations}
    (hbuilds : Context.Builds variables_ vectors_ u) (hscalar : Scalar u)
    (hassigned : Assigned variables_ assignment) : u.bitsize ≤ 64 := by
  induction u with
  | variableExpr id bitsize sign => exact (hassigned id _ hbuilds).2.2.2
  | constant c => exact hbuilds.2.2
  | unaryOpr op child ih => exact ih hbuilds hscalar
  | binaryOpr op lhs rhs ihl ihr =>
      have hl := ihl hbuilds.1 hscalar.1
      have hr := ihr hbuilds.2 hscalar.2
      rw [Node.bitsize]
      cases op <;> simp only [binaryBitsize] <;> omega
  | ifThenElse a b c iha ihb ihc =>
      exact max_le (ihb hbuilds.2.1 hscalar.2.1) (ihc hbuilds.2.2 hscalar.2.2)
  | bitslice child r l ih =>
      rcases hbuilds with ⟨id, bitsize, sign, rfl, hdecl, hlr, hr⟩
      have hsize : bitsize ≤ 64 := (hassigned id _ hdecl).2.2.2
      rw [Node.bitsize]
      omega
  | _ => exact hscalar.elim

end Number

/-!
## One operator at a time
-/

section Operators

variable {assignment : Nat -> Constant} {op : BinaryOperator} {lhs rhs : Node}

theorem hostAgrees_unary (uop : UnaryOperator) {child : Node}
    (h : ExactAt assignment (.unaryOpr uop child)) :
    HostAgrees assignment (.unaryOpr uop child) := by
  have hbits := @ofInt_number assignment child
  cases uop with
  | notOpr =>
      have hsize : child.bitsize = 1 := h
      have hnumber : number assignment (.unaryOpr .notOpr child) =
          ((~~~denote assignment child).toNat : Int) := number_eq_toNat (Or.inl hsize)
      have hzero := @hostConstant_value_ne_zero assignment child hsize
      have htwo : (2 : Nat) ^ child.bitsize = 2 := by rw [hsize]; rfl
      have hlt := (denote assignment child).isLt
      show (if (hostConstant assignment child).value == 0 then (1 : BitVec 64) else 0) = _
      rw [hnumber, BitVec.toNat_not, htwo]
      by_cases hdenote : denote assignment child = 0
      · have hvalue : (hostConstant assignment child).value = 0 := by
          by_contra hne
          exact hzero.mp hne hdenote
        rw [hvalue, hdenote]
        rfl
      · have hvalue := hzero.mpr hdenote
        have hone : (denote assignment child).toNat = 1 := by
          have hne : (denote assignment child).toNat ≠ 0 :=
            fun heq => hdenote (BitVec.eq_of_toNat_eq heq)
          omega
        rw [beq_false_of_ne hvalue, hone]
        rfl
  | negOpr =>
      show -BitVec.ofInt 64 (number assignment child) = _
      rw [← BitVec.ofInt_neg]
      apply ofInt_eq_number (w := child.bitsize) _ h
      rw [BitVec.ofInt_neg, hbits]
      rfl
  | complementOpr =>
      show ~~~BitVec.ofInt 64 (number assignment child) = _
      rw [← ofInt_complement]
      apply ofInt_eq_number (w := child.bitsize) _ h
      rw [ofInt_complement, hbits]
      rfl

variable (hl : Unwidened assignment (max lhs.bitsize rhs.bitsize) lhs)
  (hr : Unwidened assignment (max lhs.bitsize rhs.bitsize) rhs)

include hl hr

theorem meaning_operands (op : BinaryOperator) :
    meaning assignment (.binaryOpr op lhs rhs) =
      binaryValue op lhs.sign rhs.sign
        (BitVec.ofInt (max lhs.bitsize rhs.bitsize) (number assignment lhs))
        (BitVec.ofInt (max lhs.bitsize rhs.bitsize) (number assignment rhs)) := by
  rw [meaning_binaryOpr, extendTo_denote hl, extendTo_denote hr]

/-- An operator that computes modulo the width, on the host as in the formula. -/
theorem hostAgrees_modular {f : forall w : Nat, BitVec w -> BitVec w -> BitVec w} {k : Int}
    (hvalue : forall (s t : Bool) (w : Nat) (x y : BitVec w),
      binaryValue op s t x y = ⟨w, f w x y⟩)
    (hhost : forall a b : Constant, exists c,
      EvalVisitor.visitBinaryOpr op (a, true) (b, true) = .ok (c, true) ∧
        c.value = f 64 a.value b.value)
    (hcut : forall w, f w (BitVec.ofInt w (number assignment lhs))
      (BitVec.ofInt w (number assignment rhs)) = BitVec.ofInt w k)
    (hfits : Fits (.binaryOpr op lhs rhs) k) : HostAgrees assignment (.binaryOpr op lhs rhs) := by
  rcases hhost (hostConstant assignment lhs) (hostConstant assignment rhs) with ⟨c, hvisit, hc⟩
  refine ⟨c, hvisit, ?_⟩
  have hmeaning := meaning_operands hl hr op
  rw [hvalue, hcut] at hmeaning
  rw [hc, ← ofInt_eq_number hmeaning hfits]
  exact hcut 64

/-!
### Truth values
-/

omit hl hr in
theorem ofInt_number_ofBool {u : Node} {b : Bool}
    (h : meaning assignment u = SizedBits.ofBool b) :
    (Constant.ofBool b).value = BitVec.ofInt 64 (number assignment u) := by
  have hsize : u.bitsize = 1 := congrArg SizedBits.width h
  have hnumber : number assignment u = ((meaning assignment u).bits.toNat : Int) :=
    number_eq_toNat (Or.inl hsize)
  rw [hnumber, h]
  cases b <;> rfl

omit hl hr in
theorem hostAgrees_boolean {b : Bool}
    (hvalue : meaning assignment (.binaryOpr op lhs rhs) = SizedBits.ofBool b)
    (hhost : EvalVisitor.visitBinaryOpr op (hostConstant assignment lhs, true)
      (hostConstant assignment rhs, true) = .ok (Constant.ofBool b, true)) :
    HostAgrees assignment (.binaryOpr op lhs rhs) :=
  ⟨_, hhost, ofInt_number_ofBool hvalue⟩

/-- Two numbers are the same host word exactly when they are the same modulo the width. -/
theorem words_eq_iff (hle : max lhs.bitsize rhs.bitsize ≤ 64)
    (h : max lhs.bitsize rhs.bitsize = 64 ∨
      (number assignment lhs % 2 ^ max lhs.bitsize rhs.bitsize =
        number assignment rhs % 2 ^ max lhs.bitsize rhs.bitsize ->
          number assignment lhs = number assignment rhs)) :
    (hostConstant assignment lhs).value = (hostConstant assignment rhs).value ↔
      extendTo lhs.sign (max lhs.bitsize rhs.bitsize) (denote assignment lhs) =
        extendTo rhs.sign (max lhs.bitsize rhs.bitsize) (denote assignment rhs) := by
  rw [extendTo_denote hl, extendTo_denote hr]
  show BitVec.ofInt 64 _ = BitVec.ofInt 64 _ ↔ _
  rw [ofInt_eq_iff_emod_eq, ofInt_eq_iff_emod_eq]
  cases h with
  | inl hsize => rw [hsize]
  | inr hsame =>
      constructor
      · intro hwords
        have hdvd : (2 : Int) ^ max lhs.bitsize rhs.bitsize ∣ 2 ^ 64 := pow_dvd_pow 2 hle
        rw [← Int.emod_emod_of_dvd _ hdvd, hwords, Int.emod_emod_of_dvd _ hdvd]
      · intro hcut
        rw [hsame hcut]

theorem hostAgrees_equal (hle : max lhs.bitsize rhs.bitsize ≤ 64)
    (h : ExactBinary assignment .equalOpr lhs rhs) :
    HostAgrees assignment (.binaryOpr .equalOpr lhs rhs) := by
  apply hostAgrees_boolean (meaning_binaryOpr assignment .equalOpr lhs rhs)
  refine congrArg (fun b => Except.ok (Constant.ofBool b, true)) ?_
  rw [Bool.eq_iff_iff, beq_iff_eq, beq_iff_eq]
  exact words_eq_iff hl hr hle h

theorem hostAgrees_notEqual (hle : max lhs.bitsize rhs.bitsize ≤ 64)
    (h : ExactBinary assignment .notEqualOpr lhs rhs) :
    HostAgrees assignment (.binaryOpr .notEqualOpr lhs rhs) := by
  apply hostAgrees_boolean (meaning_binaryOpr assignment .notEqualOpr lhs rhs)
  refine congrArg (fun b => Except.ok (Constant.ofBool b, true)) ?_
  rw [Bool.eq_iff_iff, bne_iff_ne, bne_iff_ne]
  exact not_congr (words_eq_iff hl hr hle h)

omit hl hr in
theorem number_bit {u : Node} (h : u.bitsize ≤ 1) :
    0 ≤ number assignment u ∧ number assignment u < 2 := by
  have htype := @inType_number assignment u
  unfold InType at htype
  split at htype
  · exact htype
  · next hne =>
      have hzero : u.bitsize = 0 := by omega
      rw [hzero] at htype
      split at htype <;> omega

theorem bits_ne_zero_iff (hone : max lhs.bitsize rhs.bitsize = 1) :
    ((hostConstant assignment lhs).value ≠ 0 ↔
        extendTo lhs.sign (max lhs.bitsize rhs.bitsize) (denote assignment lhs) ≠ 0) ∧
      ((hostConstant assignment rhs).value ≠ 0 ↔
        extendTo rhs.sign (max lhs.bitsize rhs.bitsize) (denote assignment rhs) ≠ 0) := by
  have hbit : forall i : Int, 0 ≤ i ∧ i < 2 ->
      (BitVec.ofInt 64 i ≠ 0 ↔ BitVec.ofInt (max lhs.bitsize rhs.bitsize) i ≠ 0) := by
    intro i hi
    rw [hone]
    have hcases : i = 0 ∨ i = 1 := by omega
    rcases hcases with rfl | rfl <;> decide
  rw [extendTo_denote hl, extendTo_denote hr]
  exact ⟨hbit _ (number_bit (by omega)), hbit _ (number_bit (by omega))⟩

theorem hostAgrees_logicalAnd (hone : max lhs.bitsize rhs.bitsize = 1) :
    HostAgrees assignment (.binaryOpr .logicalAndOpr lhs rhs) := by
  have hbits := bits_ne_zero_iff hl hr hone
  apply hostAgrees_boolean (meaning_binaryOpr assignment .logicalAndOpr lhs rhs)
  refine congrArg (fun b => Except.ok (Constant.ofBool b, true)) ?_
  rw [Bool.eq_iff_iff, Bool.and_eq_true_iff, Bool.and_eq_true_iff, bne_iff_ne, bne_iff_ne,
    bne_iff_ne, bne_iff_ne]
  exact and_congr hbits.left hbits.right

theorem hostAgrees_logicalOr (hone : max lhs.bitsize rhs.bitsize = 1) :
    HostAgrees assignment (.binaryOpr .logicalOrOpr lhs rhs) := by
  have hbits := bits_ne_zero_iff hl hr hone
  apply hostAgrees_boolean (meaning_binaryOpr assignment .logicalOrOpr lhs rhs)
  refine congrArg (fun b => Except.ok (Constant.ofBool b, true)) ?_
  rw [Bool.eq_iff_iff, Bool.or_eq_true_iff, Bool.or_eq_true_iff, bne_iff_ne, bne_iff_ne,
    bne_iff_ne, bne_iff_ne]
  exact or_congr hbits.left hbits.right

/-!
### Orderings
-/

omit hl hr in
/-- A number that is negative in its type: a true bool counts as one on the host. -/
theorem number_of_typed_neg {u : Node} (h : typed assignment u < 0) :
    (u.bitsize = 1 ∧ u.sign = true ∧ typed assignment u = -1 ∧ number assignment u = 1) ∨
      (1 < u.bitsize ∧ number assignment u = typed assignment u) := by
  by_cases hsize : u.bitsize = 1
  · left
    have htwo : (2 : Nat) ^ u.bitsize = 2 := by rw [hsize]; rfl
    have hlt := (denote assignment u).isLt
    rw [number_eq_toNat (Or.inl hsize)]
    cases hsign : u.sign with
    | false =>
        have htyped : typed assignment u = ((denote assignment u).toNat : Int) := by
          rw [typed, hsign]
          rfl
        omega
    | true =>
        have htyped : typed assignment u = (denote assignment u).toInt := by
          rw [typed, hsign]
          rfl
        rw [htyped, BitVec.toInt_eq_toNat_cond, htwo] at h ⊢
        rw [htwo] at hlt
        split at h
        · omega
        · next hge =>
            rw [if_neg hge]
            exact ⟨hsize, rfl, by omega, by omega⟩
  · right
    have hnumber : number assignment u = typed assignment u := by
      rw [number, if_neg hsize]
      rfl
    have htype := @inType_number assignment u
    rw [InType, if_neg hsize, hnumber] at htype
    refine ⟨?_, hnumber⟩
    by_contra hlt
    have hzero : u.bitsize = 0 := by omega
    rw [hzero] at htype
    split at htype <;> omega

/-- Operands that are both negative, or both not, are in the same order as host words. -/
theorem words_shifted (hlhs : lhs.bitsize ≤ 64) (hrhs : rhs.bitsize ≤ 64)
    (h : 0 ≤ typed assignment lhs ↔ 0 ≤ typed assignment rhs) :
    exists offset : Int,
      ((hostConstant assignment lhs).value.toNat : Int) = typed assignment lhs + offset ∧
        ((hostConstant assignment rhs).value.toNat : Int) = typed assignment rhs + offset := by
  have hlbounds := @typed_bounds assignment lhs hlhs
  have hrbounds := @typed_bounds assignment rhs hrhs
  rw [value_hostConstant, value_hostConstant]
  by_cases hnonneg : 0 ≤ typed assignment lhs
  · have hnonneg' := h.mp hnonneg
    refine ⟨0, ?_, ?_⟩
    · rw [number_of_nonneg hnonneg, toNat_ofInt_of_nonneg hnonneg hlbounds.right, add_zero]
    · rw [number_of_nonneg hnonneg', toNat_ofInt_of_nonneg hnonneg' hrbounds.right, add_zero]
  · have hlneg : typed assignment lhs < 0 := by omega
    have hrneg : typed assignment rhs < 0 := by
      by_contra hnot
      exact hnonneg (h.mpr (by omega))
    -- a true bool has no wider operand beside it
    rcases number_of_typed_neg hlneg with
      ⟨hlsize, hlsign, hltyped, hlone⟩ | ⟨hlsize, hlnumber⟩
    · rcases number_of_typed_neg hrneg with
        ⟨hrsize, hrsign, hrtyped, hrone⟩ | ⟨hrsize, hrnumber⟩
      · rw [hlone, hrone, hltyped, hrtyped]
        exact ⟨2, rfl, rfl⟩
      · exfalso
        rcases hl hlsize hlsign with hw | hzero
        · omega
        · omega
    · rcases number_of_typed_neg hrneg with
        ⟨hrsize, hrsign, hrtyped, hrone⟩ | ⟨hrsize, hrnumber⟩
      · exfalso
        rcases hr hrsize hrsign with hw | hzero
        · omega
        · omega
      · rw [hlnumber, hrnumber, toNat_ofInt_of_neg hlneg hlbounds.left,
          toNat_ofInt_of_neg hrneg hrbounds.left]
        exact ⟨2 ^ 64, rfl, rfl⟩

omit hl hr in
theorem typed_extendTo :
    SizedBits.num lhs.sign ⟨max lhs.bitsize rhs.bitsize,
        extendTo lhs.sign (max lhs.bitsize rhs.bitsize) (denote assignment lhs)⟩ =
        typed assignment lhs ∧
      SizedBits.num rhs.sign ⟨max lhs.bitsize rhs.bitsize,
        extendTo rhs.sign (max lhs.bitsize rhs.bitsize) (denote assignment rhs)⟩ =
        typed assignment rhs :=
  ⟨num_extendTo _ _ (le_max_left _ _), num_extendTo _ _ (le_max_right _ _)⟩

omit hl hr in
theorem words_order {x y : BitVec 64} {i j offset : Int} (hx : (x.toNat : Int) = i + offset)
    (hy : (y.toNat : Int) = j + offset) :
    x.ult y = decide (i < j) ∧ x.ule y = decide (i ≤ j) := by
  unfold BitVec.ult BitVec.ule
  constructor
  · exact decide_eq_decide.mpr (by omega)
  · exact decide_eq_decide.mpr (by omega)

theorem hostAgrees_ordering (hlhs : lhs.bitsize ≤ 64) (hrhs : rhs.bitsize ≤ 64)
    (h : 0 ≤ typed assignment lhs ↔ 0 ≤ typed assignment rhs) :
    HostAgrees assignment (.binaryOpr .lessOpr lhs rhs) ∧
      HostAgrees assignment (.binaryOpr .lessEqualOpr lhs rhs) ∧
      HostAgrees assignment (.binaryOpr .greaterOpr lhs rhs) ∧
      HostAgrees assignment (.binaryOpr .greaterEqualOpr lhs rhs) := by
  rcases words_shifted hl hr hlhs hrhs h with ⟨offset, hlword, hrword⟩
  have htyped := @typed_extendTo assignment lhs rhs
  refine ⟨?_, ?_, ?_, ?_⟩
  · apply hostAgrees_boolean (meaning_binaryOpr assignment .lessOpr lhs rhs)
    refine congrArg (fun b => Except.ok (Constant.ofBool b, true)) ?_
    rw [htyped.left, htyped.right]
    exact (words_order hlword hrword).left
  · apply hostAgrees_boolean (meaning_binaryOpr assignment .lessEqualOpr lhs rhs)
    refine congrArg (fun b => Except.ok (Constant.ofBool b, true)) ?_
    rw [htyped.left, htyped.right]
    exact (words_order hlword hrword).right
  · apply hostAgrees_boolean (meaning_binaryOpr assignment .greaterOpr lhs rhs)
    refine congrArg (fun b => Except.ok (Constant.ofBool b, true)) ?_
    rw [htyped.left, htyped.right]
    exact (words_order hrword hlword).left
  · apply hostAgrees_boolean (meaning_binaryOpr assignment .greaterEqualOpr lhs rhs)
    refine congrArg (fun b => Except.ok (Constant.ofBool b, true)) ?_
    rw [htyped.left, htyped.right]
    exact (words_order hrword hlword).right

/-!
### Arithmetic
-/

theorem hostAgrees_plus (h : ExactBinary assignment .plusOpr lhs rhs) :
    HostAgrees assignment (.binaryOpr .plusOpr lhs rhs) :=
  hostAgrees_modular hl hr (f := fun _ x y => x + y) (fun _ _ _ _ _ => rfl)
    (fun _ _ => ⟨_, rfl, rfl⟩) (fun _ => (BitVec.ofInt_add _ _).symm) h

theorem hostAgrees_minus (h : ExactBinary assignment .minusOpr lhs rhs) :
    HostAgrees assignment (.binaryOpr .minusOpr lhs rhs) :=
  hostAgrees_modular hl hr (f := fun _ x y => x - y) (fun _ _ _ _ _ => rfl)
    (fun _ _ => ⟨_, rfl, rfl⟩) (fun w => (ofInt_sub w _ _).symm) h

theorem hostAgrees_multiplies (h : ExactBinary assignment .multipliesOpr lhs rhs) :
    HostAgrees assignment (.binaryOpr .multipliesOpr lhs rhs) :=
  hostAgrees_modular hl hr (f := fun _ x y => x * y) (fun _ _ _ _ _ => rfl)
    (fun _ _ => ⟨_, rfl, rfl⟩) (fun _ => (BitVec.ofInt_mul _ _).symm) h

theorem hostAgrees_and (h : ExactBinary assignment .andOpr lhs rhs) :
    HostAgrees assignment (.binaryOpr .andOpr lhs rhs) :=
  hostAgrees_modular hl hr (f := fun _ x y => x &&& y) (fun _ _ _ _ _ => rfl)
    (fun _ _ => ⟨_, rfl, rfl⟩) (fun w => (ofInt_land w _ _).symm) h

theorem hostAgrees_or (h : ExactBinary assignment .orOpr lhs rhs) :
    HostAgrees assignment (.binaryOpr .orOpr lhs rhs) :=
  hostAgrees_modular hl hr (f := fun _ x y => x ||| y) (fun _ _ _ _ _ => rfl)
    (fun _ _ => ⟨_, rfl, rfl⟩) (fun w => (ofInt_lor w _ _).symm) h

theorem hostAgrees_xor (h : ExactBinary assignment .xorOpr lhs rhs) :
    HostAgrees assignment (.binaryOpr .xorOpr lhs rhs) :=
  hostAgrees_modular hl hr (f := fun _ x y => x ^^^ y) (fun _ _ _ _ _ => rfl)
    (fun _ _ => ⟨_, rfl, rfl⟩) (fun w => (ofInt_xor w _ _).symm) h

/-!
### Shifts
-/

omit hl hr in
/-- A number that is not negative is the same in every width that holds its type. -/
theorem toNat_ofInt_of_inType {u : Node} {k : Int} {w : Nat} (htype : InType u k)
    (hle : u.bitsize ≤ w) (h : 0 ≤ k) : ((BitVec.ofInt w k).toNat : Int) = k := by
  have hpow : (2 : Int) ^ u.bitsize ≤ 2 ^ w := pow_le_pow_right₀ (by decide) hle
  have hlt : k < 2 ^ w := by
    unfold InType at htype
    split at htype
    · next hsize =>
        rw [hsize] at hpow
        linarith
    · split at htype
      · linarith
      · linarith
  rw [BitVec.toNat_ofInt]
  push_cast
  rw [Int.emod_eq_of_lt h hlt]
  exact Int.toNat_of_nonneg h

omit hl hr in
theorem ofInt_shiftLeft (w : Nat) (i : Int) (n : Nat) :
    BitVec.ofInt w i <<< n = BitVec.ofInt w (i * 2 ^ n) := by
  have hpow : BitVec.twoPow w n = BitVec.ofInt w (2 ^ n) := by
    have hcast : (2 : Int) ^ n = ((2 ^ n : Nat) : Int) := by push_cast; rfl
    apply BitVec.eq_of_toNat_eq
    rw [BitVec.toNat_twoPow, hcast, BitVec.ofInt_natCast, BitVec.toNat_ofNat]
  rw [BitVec.shiftLeft_eq_mul_twoPow, hpow, BitVec.ofInt_mul]

omit hl hr in
theorem ofInt_shiftRight {w : Nat} {i : Int} {n : Nat}
    (h : n = 0 ∨ ((BitVec.ofInt w i).toNat : Int) = i) :
    BitVec.ofInt w i >>> n = BitVec.ofInt w (i / 2 ^ n) := by
  cases h with
  | inl hzero =>
      rw [hzero, BitVec.ushiftRight_zero, pow_zero, Int.ediv_one]
  | inr hsame =>
      have hquotient : ((BitVec.ofInt w i >>> n).toNat : Int) = i / 2 ^ n := by
        rw [BitVec.toNat_ushiftRight, Nat.shiftRight_eq_div_pow]
        push_cast
        rw [hsame]
      rw [← hquotient, BitVec.ofInt_natCast, BitVec.ofNat_toNat, BitVec.setWidth_eq]

omit hl hr in
theorem shiftResult_eq {f : BitVec 64 -> BitVec 64 -> BitVec 64} (hrhs : rhs.bitsize ≤ 64)
    (hnonneg : 0 ≤ number assignment rhs) (hlt : number assignment rhs < 64) :
    EvalVisitor.shiftResult f (hostConstant assignment lhs, true)
        (hostConstant assignment rhs, true) =
      .ok (EvalVisitor.numberResult f (hostConstant assignment lhs, true)
        (hostConstant assignment rhs, true)) := by
  have hnat := toNat_ofInt_of_inType (inType_number rhs) hrhs hnonneg
  unfold EvalVisitor.shiftResult
  apply if_pos
  rw [value_hostConstant]
  omega

theorem hostAgrees_shiftLeft (hrhs : rhs.bitsize ≤ 64)
    (h : ExactBinary assignment .shiftLeftOpr lhs rhs) :
    HostAgrees assignment (.binaryOpr .shiftLeftOpr lhs rhs) := by
  rcases h with ⟨hnonneg, hlt, hfits⟩
  have hword := toNat_ofInt_of_inType (inType_number rhs) hrhs hnonneg
  have hcut := toNat_ofInt_of_inType (inType_number rhs)
    (le_max_right lhs.bitsize rhs.bitsize) hnonneg
  refine ⟨_, shiftResult_eq hrhs hnonneg hlt, ?_⟩
  have hmeaning := meaning_operands hl hr .shiftLeftOpr
  rw [binaryValue, BitVec.shiftLeft_eq', show (BitVec.ofInt (max lhs.bitsize rhs.bitsize)
    (number assignment rhs)).toNat = (number assignment rhs).toNat by omega,
    ofInt_shiftLeft] at hmeaning
  show BitVec.ofInt 64 _ <<< BitVec.ofInt 64 _ = _
  rw [← ofInt_eq_number hmeaning hfits, BitVec.shiftLeft_eq', show (BitVec.ofInt 64
    (number assignment rhs)).toNat = (number assignment rhs).toNat by omega, ofInt_shiftLeft]

theorem hostAgrees_shiftRight (hlhs : lhs.bitsize ≤ 64) (hrhs : rhs.bitsize ≤ 64)
    (h : ExactBinary assignment .shiftRightOpr lhs rhs) :
    HostAgrees assignment (.binaryOpr .shiftRightOpr lhs rhs) := by
  rcases h with ⟨hnonneg, hlt, hcases⟩
  have hword := toNat_ofInt_of_inType (inType_number rhs) hrhs hnonneg
  have hcut := toNat_ofInt_of_inType (inType_number rhs)
    (le_max_right lhs.bitsize rhs.bitsize) hnonneg
  refine ⟨_, shiftResult_eq hrhs hnonneg hlt, ?_⟩
  have hmeaning := meaning_operands hl hr .shiftRightOpr
  rw [binaryValue, BitVec.ushiftRight_eq', show (BitVec.ofInt (max lhs.bitsize rhs.bitsize)
    (number assignment rhs)).toNat = (number assignment rhs).toNat by omega] at hmeaning
  show BitVec.ofInt 64 _ >>> BitVec.ofInt 64 _ = _
  rw [BitVec.ushiftRight_eq', show (BitVec.ofInt 64 (number assignment rhs)).toNat =
    (number assignment rhs).toNat by omega]
  cases hcases with
  | inl hsize =>
      have hself := congrArg (fun x => (⟨_, x⟩ : SizedBits))
        (BitVec.ofInt_natCast (max lhs.bitsize rhs.bitsize)
          (BitVec.ofInt (max lhs.bitsize rhs.bitsize) (number assignment lhs) >>>
            (number assignment rhs).toNat).toNat)
      rw [BitVec.ofNat_toNat, BitVec.setWidth_eq] at hself
      rw [← ofInt_eq_number (hmeaning.trans hself.symm) (Or.inl hsize), hsize,
        BitVec.ofInt_natCast, BitVec.ofNat_toNat, BitVec.setWidth_eq]
  | inr hsmall =>
      have hsame : forall w, lhs.bitsize ≤ w -> (number assignment rhs).toNat = 0 ∨
          ((BitVec.ofInt w (number assignment lhs)).toNat : Int) = number assignment lhs := by
        intro w hw
        cases hsmall.left with
        | inl hpos => exact Or.inr (toNat_ofInt_of_inType (inType_number lhs) hw hpos)
        | inr hzero => exact Or.inl (by omega)
      rw [ofInt_shiftRight (hsame _ (le_max_left _ _))] at hmeaning
      rw [ofInt_shiftRight (hsame 64 hlhs), ← ofInt_eq_number hmeaning (Or.inr hsmall.right)]

/-!
### Division
-/

omit hl hr in
theorem number_bounds {u : Node} (hle : u.bitsize ≤ 64) :
    -(2 ^ 63) ≤ number assignment u ∧ number assignment u < 2 ^ 64 := by
  have htype := @inType_number assignment u
  have hpow : (2 : Int) ^ u.bitsize ≤ 2 ^ 64 := pow_le_pow_right₀ (by decide) hle
  unfold InType at htype
  split at htype
  · omega
  · split at htype
    · omega
    · omega

omit hl hr in
/-- The host's quotient and remainder are those of the numbers. -/
theorem divisionResult_eq {S U : BitVec 64 -> BitVec 64 -> BitVec 64} {f : Int -> Int -> Int}
    (hS : forall x y : BitVec 64, x ≠ BitVec.intMin 64 ∨ y ≠ -1 ->
      (S x y).toInt = f x.toInt y.toInt)
    (hU : forall x y : BitVec 64, ((U x y).toNat : Int) = f x.toNat y.toNat)
    (hlhs : lhs.bitsize ≤ 64) (hrhs : rhs.bitsize ≤ 64)
    (h : HostDivides assignment lhs rhs) :
    exists c,
      EvalVisitor.divisionResult S U (hostConstant assignment lhs, true)
        (hostConstant assignment rhs, true) = .ok (c, true) ∧
      c.value = BitVec.ofInt 64 (f (number assignment lhs) (number assignment rhs)) := by
  rcases h with ⟨hne, hsigns⟩
  have hlbounds := @number_bounds assignment lhs hlhs
  have hrbounds := @number_bounds assignment rhs hrhs
  have hword : (hostConstant assignment rhs).value ≠ 0 := by
    intro hzero
    have htoNat : (BitVec.ofInt 64 (number assignment rhs)).toNat = 0 :=
      congrArg BitVec.toNat hzero
    rw [BitVec.toNat_ofInt] at htoNat
    omega
  by_cases hsigned : ((hostType assignment lhs).2 || (hostType assignment rhs).2) = true
  · rw [if_pos hsigned] at hsigns
    rcases hsigns with ⟨hlsmall, hrsmall, hleast⟩
    have hl := BitVec.toInt_ofInt_eq_self (w := 64) (by decide) hlbounds.left hlsmall
    have hr := BitVec.toInt_ofInt_eq_self (w := 64) (by decide) hrbounds.left hrsmall
    have hdefined : ¬ (BitVec.ofInt 64 (number assignment lhs) = BitVec.intMin 64 ∧
        BitVec.ofInt 64 (number assignment rhs) = -1) := by
      rintro ⟨hmin, hminus⟩
      rw [hmin] at hl
      rw [hminus] at hr
      exact hleast ⟨hl.symm, hr.symm⟩
    have hvalue := hS (BitVec.ofInt 64 (number assignment lhs))
      (BitVec.ofInt 64 (number assignment rhs)) (not_and_or.mp hdefined)
    refine ⟨_, (if_neg hword).trans ((if_pos hsigned).trans (if_neg hdefined)), ?_⟩
    rw [hl, hr] at hvalue
    rw [← hvalue, BitVec.ofInt_toInt]
    rfl
  · rw [if_neg hsigned] at hsigns
    have hl := toNat_ofInt_of_nonneg hsigns.left hlbounds.right
    have hr := toNat_ofInt_of_nonneg hsigns.right hrbounds.right
    have hvalue := hU (BitVec.ofInt 64 (number assignment lhs))
      (BitVec.ofInt 64 (number assignment rhs))
    refine ⟨_, (if_neg hword).trans (if_neg hsigned), ?_⟩
    rw [hl, hr] at hvalue
    rw [← hvalue, BitVec.ofInt_natCast, BitVec.ofNat_toNat, BitVec.setWidth_eq]
    rfl

omit hl hr in
/-- An operand of a signed type is the number that its word stands for. -/
theorem toInt_ofInt_number {u : Node} {w : Nat} (hplain : Unwidened assignment w u)
    (hle : u.bitsize ≤ w) (hw : w ≠ 1) (hsign : u.sign = true) :
    (BitVec.ofInt w (number assignment u)).toInt = number assignment u := by
  have hpow : (2 : Int) ^ u.bitsize ≤ 2 ^ w := pow_le_pow_right₀ (by decide) hle
  have htype := @inType_number assignment u
  rw [BitVec.toInt_ofInt]
  unfold InType at htype
  split at htype
  · next hsize =>
      cases hplain hsize hsign with
      | inl hone => exact absurd hone hw
      | inr hzero =>
          rw [hzero]
          exact Int.zero_bmod
  · apply Int.bmod_eq_of_le_mul_two
    · push_cast
      linarith
    · push_cast
      linarith

omit hl hr in
theorem toNat_ofInt_number {u : Node} {w : Nat} (hle : u.bitsize ≤ w)
    (hsign : u.sign = false) :
    ((BitVec.ofInt w (number assignment u)).toNat : Int) = number assignment u := by
  apply toNat_ofInt_of_inType (inType_number u) hle
  rw [number_of_sign_false hsign]
  exact Int.natCast_nonneg _

omit hl hr in
theorem division_of_bits (hone : max lhs.bitsize rhs.bitsize = 1)
    (hne : number assignment rhs ≠ 0) :
    (number assignment lhs = 0 ∨ number assignment lhs = 1) ∧ number assignment rhs = 1 := by
  have hlhs := @number_bit assignment lhs (show lhs.bitsize ≤ 1 by omega)
  have hrhs := @number_bit assignment rhs (show rhs.bitsize ≤ 1 by omega)
  omega

omit hl hr in
theorem bitsize_pos {u : Node} (hne : number assignment u ≠ 0) : 0 < u.bitsize := by
  by_contra hzero
  have htype := @inType_number assignment u
  rw [InType, Nat.eq_zero_of_not_pos hzero] at htype
  split at htype
  · contradiction
  · split at htype
    · omega
    · omega

omit hl hr in
theorem eq_ofInt_of_toInt {w : Nat} {x : BitVec w} {k : Int} (h : x.toInt = k) :
    x = BitVec.ofInt w k := by
  rw [← h, BitVec.ofInt_toInt]

omit hl hr in
theorem eq_ofInt_of_toNat {w : Nat} {x : BitVec w} {k : Int} (h : (x.toNat : Int) = k) :
    x = BitVec.ofInt w k := by
  rw [← h, BitVec.ofInt_natCast, BitVec.ofNat_toNat, BitVec.setWidth_eq]

/-- The quotient of operands of one sign is the one of the numbers. -/
theorem meaning_devide (hsame : lhs.sign = rhs.sign) (hne : number assignment rhs ≠ 0) :
    meaning assignment (.binaryOpr .devideOpr lhs rhs) =
      ⟨_, BitVec.ofInt (max lhs.bitsize rhs.bitsize)
        ((number assignment lhs).tdiv (number assignment rhs))⟩ := by
  rw [meaning_operands hl hr, binaryValue]
  by_cases hone : max lhs.bitsize rhs.bitsize = 1
  · rcases division_of_bits hone hne with ⟨hlhs, hrhs⟩
    rw [hone, hrhs]
    cases lhs.sign <;> rcases hlhs with hzero | hset <;> simp only [*] <;> decide
  · refine congrArg (fun x => (⟨_, x⟩ : SizedBits)) ?_
    cases hsign : lhs.sign with
    | true =>
        have hx := toInt_ofInt_number hl (le_max_left _ _) hone hsign
        have hy := toInt_ofInt_number hr (le_max_right _ _) hone (hsame ▸ hsign)
        have hword : BitVec.ofInt (max lhs.bitsize rhs.bitsize) (number assignment rhs) ≠ 0 := by
          intro hzero
          rw [hzero] at hy
          exact hne (hy.symm.trans (by simp))
        rw [if_pos rfl, smtSDiv_eq_sdiv hword]
        apply BitVec.eq_of_toInt_eq
        rw [BitVec.toInt_sdiv, hx, hy, BitVec.toInt_ofInt]
    | false =>
        have hx := @toNat_ofInt_number assignment lhs _
          (le_max_left lhs.bitsize rhs.bitsize) hsign
        have hy := @toNat_ofInt_number assignment rhs _
          (le_max_right lhs.bitsize rhs.bitsize) (hsame ▸ hsign)
        rw [if_neg Bool.false_ne_true]
        apply eq_ofInt_of_toNat
        rw [toNat_smtUDiv (by rwa [hy]), hx, hy]

/-- The remainder is the one of the numbers where the wrong reading of the divisor does no
harm. -/
theorem meaning_modulo (hne : number assignment rhs ≠ 0)
    (hexact : ModuloExact lhs.sign rhs.sign (max lhs.bitsize rhs.bitsize)
      (number assignment lhs) (number assignment rhs)) :
    meaning assignment (.binaryOpr .moduloOpr lhs rhs) =
      ⟨_, BitVec.ofInt (max lhs.bitsize rhs.bitsize)
        ((number assignment lhs).tmod (number assignment rhs))⟩ := by
  rw [meaning_operands hl hr, binaryValue]
  by_cases hone : max lhs.bitsize rhs.bitsize = 1
  · rcases division_of_bits hone hne with ⟨hlhs, hrhs⟩
    rw [hone, hrhs]
    cases lhs.sign <;> rcases hlhs with hzero | hset <;> simp only [*] <;> decide
  · refine congrArg (fun x => (⟨_, x⟩ : SizedBits)) ?_
    have hpos : 0 < max lhs.bitsize rhs.bitsize :=
      lt_of_lt_of_le (bitsize_pos hne) (le_max_right _ _)
    cases hsign : lhs.sign with
    | true =>
        have hx := toInt_ofInt_number hl (le_max_left _ _) hone hsign
        rw [if_pos rfl]
        apply eq_ofInt_of_toInt
        cases hsign' : rhs.sign with
        | true =>
            have hy := toInt_ofInt_number hr (le_max_right _ _) hone hsign'
            rw [BitVec.toInt_srem, hx, hy]
        | false =>
            have hy := @toNat_ofInt_number assignment rhs _
              (le_max_right lhs.bitsize rhs.bitsize) hsign'
            rw [hsign, hsign'] at hexact
            have hiff := toInt_srem_iff (p := BitVec.ofInt (max lhs.bitsize rhs.bitsize)
              (number assignment lhs)) (q := BitVec.ofInt (max lhs.bitsize rhs.bitsize)
              (number assignment rhs)) hpos
            rw [hx, hy] at hiff
            exact hiff.mpr hexact
    | false =>
        have hx := @toNat_ofInt_number assignment lhs _
          (le_max_left lhs.bitsize rhs.bitsize) hsign
        rw [if_neg Bool.false_ne_true]
        cases hsign' : rhs.sign with
        | true =>
            have hy := toInt_ofInt_number hr (le_max_right _ _) hone hsign'
            rw [hsign, hsign'] at hexact
            have hiff := toInt_umod_iff (p := BitVec.ofInt (max lhs.bitsize rhs.bitsize)
              (number assignment lhs)) (q := BitVec.ofInt (max lhs.bitsize rhs.bitsize)
              (number assignment rhs)) hpos (by rwa [hy])
            rw [hx, hy] at hiff
            exact eq_ofInt_of_toInt (hiff.mpr hexact)
        | false =>
            have hy := @toNat_ofInt_number assignment rhs _
              (le_max_right lhs.bitsize rhs.bitsize) hsign'
            apply eq_ofInt_of_toNat
            rw [toNat_umod, hx, hy]

theorem hostAgrees_devide (hlhs : lhs.bitsize ≤ 64) (hrhs : rhs.bitsize ≤ 64)
    (hsame : lhs.sign = rhs.sign) (h : ExactBinary assignment .devideOpr lhs rhs) :
    HostAgrees assignment (.binaryOpr .devideOpr lhs rhs) := by
  rcases h with ⟨hdivides, hfits⟩
  have hdivision := divisionResult_eq (f := Int.tdiv) (S := BitVec.sdiv) (U := BitVec.udiv)
    BitVec.toInt_sdiv_of_ne_or_ne (fun x y => toNat_udiv) hlhs hrhs hdivides
  rcases hdivision with ⟨c, hvisit, hc⟩
  refine ⟨c, hvisit, ?_⟩
  rw [hc, ofInt_eq_number (meaning_devide hl hr hsame hdivides.left) hfits]

theorem hostAgrees_modulo (hlhs : lhs.bitsize ≤ 64) (hrhs : rhs.bitsize ≤ 64)
    (h : ExactBinary assignment .moduloOpr lhs rhs) :
    HostAgrees assignment (.binaryOpr .moduloOpr lhs rhs) := by
  rcases h with ⟨hdivides, hfits, hexact⟩
  have hdivision := divisionResult_eq (f := Int.tmod) (S := BitVec.srem) (U := BitVec.umod)
    (fun x y _ => BitVec.toInt_srem x y) (fun x y => toNat_umod) hlhs hrhs hdivides
  rcases hdivision with ⟨c, hvisit, hc⟩
  refine ⟨c, hvisit, ?_⟩
  rw [hc, ofInt_eq_number (meaning_modulo hl hr hdivides.left hexact) hfits]

end Operators

/-- The numbers of the operands decide whether the host computes what the formula does. -/
theorem hostAgrees_of_exact {assignment : Nat -> Constant}
    {variables_ vectors_ : Declarations} {u : Node}
    (hbuilds : Context.Builds variables_ vectors_ u) (hscalar : Scalar u)
    (hassigned : Assigned variables_ assignment) (hsorted : SortedAt u)
    (hexact : ExactAt assignment u) : HostAgrees assignment u := by
  cases u with
  | unaryOpr op child => exact hostAgrees_unary op hexact
  | binaryOpr op lhs rhs =>
      have hlhs := bitsize_le hbuilds.1 hscalar.1 hassigned
      have hrhs := bitsize_le hbuilds.2 hscalar.2 hassigned
      rcases hexact with ⟨hl, hr, hop⟩
      cases op with
      | andOpr => exact hostAgrees_and hl hr hop
      | orOpr => exact hostAgrees_or hl hr hop
      | logicalAndOpr => exact hostAgrees_logicalAnd hl hr hsorted
      | logicalOrOpr => exact hostAgrees_logicalOr hl hr hsorted
      | xorOpr => exact hostAgrees_xor hl hr hop
      | equalOpr => exact hostAgrees_equal hl hr (max_le hlhs hrhs) hop
      | notEqualOpr => exact hostAgrees_notEqual hl hr (max_le hlhs hrhs) hop
      | lessOpr => exact (hostAgrees_ordering hl hr hlhs hrhs hop).1
      | lessEqualOpr => exact (hostAgrees_ordering hl hr hlhs hrhs hop).2.1
      | greaterOpr => exact (hostAgrees_ordering hl hr hlhs hrhs hop).2.2.1
      | greaterEqualOpr => exact (hostAgrees_ordering hl hr hlhs hrhs hop).2.2.2
      | plusOpr => exact hostAgrees_plus hl hr hop
      | minusOpr => exact hostAgrees_minus hl hr hop
      | multipliesOpr => exact hostAgrees_multiplies hl hr hop
      | devideOpr => exact hostAgrees_devide hl hr hlhs hrhs hsorted hop
      | moduloOpr => exact hostAgrees_modulo hl hr hlhs hrhs hop
      | shiftLeftOpr => exact hostAgrees_shiftLeft hl hr hrhs hop
      | shiftRightOpr => exact hostAgrees_shiftRight hl hr hlhs hrhs hop
  | _ => trivial

/-!
## Agreement of the two readings
-/

/-- The evaluator knows the value, and it is nonzero exactly when the formula
is true of the encoded values. -/
def ReadingsAgree (stored : Node -> Nat) (evalMap_ : EvalVisitor.EvalMap)
    (assignment : Nat -> Constant) (e : Node) : Prop :=
  exists c later, EvalVisitor.visit stored e evalMap_ = .ok ((c, true), later) ∧
    (c.value ≠ 0 ↔ NodeHolds (encode assignment) (fixWidth e))

section Readings

variable {variables_ vectors_ : Declarations} {assignment : Nat -> Constant}

theorem nodeHolds_iff_denote {e : Node} (hone : e.bitsize = 1)
    (hoperand : Operand (encode assignment) (fixWidth e) (meaning assignment e) e.sign) :
    NodeHolds (encode assignment) (fixWidth e) ↔ denote assignment e ≠ 0 := by
  rcases hoperand with ⟨f, hf, hev⟩
  simp only [NodeHolds, hf, Term.Holds, hev, Option.some.injEq, meaning]
  generalize denote assignment e = x
  revert x
  rw [hone]
  intro x
  rcases BitVec.eq_zero_or_eq_one x with rfl | rfl
  · decide
  · decide

/-- What is visited in a built scalar expression is one itself. -/
theorem builds_of_visited {e u : Node} (hbuilds : Context.Builds variables_ vectors_ e)
    (hscalar : Scalar e) (hu : u ∈ Form.visited .whole e) :
    Context.Builds variables_ vectors_ u ∧ Scalar u := by
  induction e with
  | variableExpr id bitsize sign =>
      cases List.mem_singleton.mp hu
      exact ⟨hbuilds, hscalar⟩
  | constant c =>
      cases List.mem_singleton.mp hu
      exact ⟨hbuilds, hscalar⟩
  | unaryOpr op child ih =>
      cases List.mem_cons.mp hu with
      | inl heq =>
          cases heq
          exact ⟨hbuilds, hscalar⟩
      | inr hchild => exact ih hbuilds hscalar hchild
  | binaryOpr op lhs rhs ihl ihr =>
      cases List.mem_cons.mp hu with
      | inl heq =>
          cases heq
          exact ⟨hbuilds, hscalar⟩
      | inr hchild =>
          cases List.mem_append.mp hchild with
          | inl hl => exact ihl hbuilds.1 hscalar.1 hl
          | inr hr => exact ihr hbuilds.2 hscalar.2 hr
  | ifThenElse a b c iha ihb ihc =>
      cases List.mem_cons.mp hu with
      | inl heq =>
          cases heq
          exact ⟨hbuilds, hscalar⟩
      | inr hchild =>
          rcases List.mem_append.mp hchild with hab | hc
          · cases List.mem_append.mp hab with
            | inl ha => exact iha hbuilds.1 hscalar.1 ha
            | inr hb => exact ihb hbuilds.2.1 hscalar.2.1 hb
          · exact ihc hbuilds.2.2 hscalar.2.2 hc
  | bitslice child r l ih =>
      cases List.mem_cons.mp hu with
      | inl heq =>
          cases heq
          exact ⟨hbuilds, hscalar⟩
      | inr hchild =>
          rcases hbuilds with ⟨id, bitsize, sign, rfl, hdecl, -⟩
          cases List.mem_singleton.mp hchild
          exact ⟨hdecl, trivial⟩
  | _ => exact hscalar.elim

/-- On a sorted boolean expression whose operators are all exact on the numbers of their
operands, the two readings agree if and only if no slice is on the evaluated path. -/
theorem readings_agree_iff (stored : Node -> Nat) {evalMap_ : EvalVisitor.EvalMap}
    {e : Node} (hbuilds : Context.Builds variables_ vectors_ e) (hscalar : Scalar e)
    (hassigned : Assigned variables_ assignment)
    (hmap : EvalVisitor.Assigns evalMap_ assignment e.supportVars) (hone : e.bitsize = 1)
    (hsorted : forall u, u ∈ Form.visited .whole e -> SortedAt u)
    (hexact : forall u, u ∈ Form.visited .whole e -> ExactAt assignment u) :
    ReadingsAgree stored evalMap_ assignment e ↔ known assignment e = true := by
  have hagrees : forall u, u ∈ Form.visited .whole e -> HostAgrees assignment u := by
    intro u hu
    rcases builds_of_visited hbuilds hscalar hu with ⟨hb, hs⟩
    exact hostAgrees_of_exact hb hs hassigned (hsorted u hu) (hexact u hu)
  have hvalue := value_eq_hostConstant hbuilds hscalar hassigned hsorted hagrees
  rcases EvalVisitor.visit_eq_value stored hmap with ⟨later, -, hvisit⟩
  rw [hvalue] at hvisit
  have hformula := nodeHolds_iff_denote hone
    (@operand_meaning _ _ assignment e hbuilds hscalar hsorted).1
  constructor
  · rintro ⟨c, later', heq, -⟩
    rw [hvisit] at heq
    exact congrArg (fun p => p.1.2) (Except.ok.inj heq)
  · intro hknown
    refine ⟨hostConstant assignment e, later, ?_, ?_⟩
    · rw [hvisit, hknown]
    · rw [hostConstant_value_ne_zero hone, hformula]

end Readings

/-!
The evaluator compares negative numbers as large unsigned ones: minus one is
not less than zero.
-/

def intVariable : Declarations := fun id => if id = 1 then some ⟨32, true⟩ else none

def intAssignment (i : Int) : Nat -> Constant := fun _ => ⟨BitVec.ofInt 64 i, 32, true⟩

def lessZero : Node :=
  .binaryOpr .lessOpr (.variableExpr 1 32 true) (.constant (Context.new_value 32 true 0))

theorem intAssignment_assigned {i : Int} (h : (intAssignment i 1).InRange) :
    Assigned intVariable (intAssignment i) := by
  intro id decl hdecl
  unfold intVariable at hdecl
  split at hdecl
  · cases hdecl
    exact ⟨rfl, rfl, h, by decide⟩
  · cases hdecl

theorem lessZero_builds : Context.Builds intVariable (fun _ => none) lessZero :=
  ⟨rfl, by decide, by decide, by decide⟩

theorem lessZero_disagrees :
    Context.Builds intVariable (fun _ => none) lessZero ∧ Scalar lessZero ∧
      Assigned intVariable (intAssignment (-1)) ∧
      EvalVisitor.Assigns (fun id => some (intAssignment (-1) id)) (intAssignment (-1))
        lessZero.supportVars ∧
      ¬ ReadingsAgree (fun _ => 0) (fun id => some (intAssignment (-1) id))
        (intAssignment (-1)) lessZero := by
  refine ⟨lessZero_builds, ⟨trivial, trivial⟩, intAssignment_assigned (by decide),
    fun _ _ => rfl, ?_⟩
  rintro ⟨c, later, hvisit, hiff⟩
  have hholds : NodeHolds (encode (intAssignment (-1))) (fixWidth lessZero) := by decide
  have hc : Constant.ofBool false = c :=
    congrArg (fun p => p.1.1) (Except.ok.inj hvisit)
  have hne := hiff.mpr hholds
  rw [← hc] at hne
  exact hne rfl

/-- `x + 3 < 10 && x != 7` -/
def sumBelow : Node :=
  .binaryOpr .logicalAndOpr
    (.binaryOpr .lessOpr
      (.binaryOpr .plusOpr (.variableExpr 1 32 true) (.constant (Context.new_value 32 true 3)))
      (.constant (Context.new_value 32 true 10)))
    (.binaryOpr .notEqualOpr (.variableExpr 1 32 true)
      (.constant (Context.new_value 32 true 7)))

theorem sumBelow_exact :
    forall u, u ∈ Form.visited .whole sumBelow -> SortedAt u ∧ ExactAt (intAssignment 5) u := by
  intro u hu
  simp only [sumBelow, Form.visited, List.nil_append, List.cons_append, List.mem_cons,
    List.not_mem_nil, or_false] at hu
  rcases hu with rfl | rfl | rfl | rfl | rfl | rfl | rfl | rfl | rfl
  · exact ⟨rfl, fun _ _ => Or.inl rfl, fun _ _ => Or.inl rfl, trivial⟩
  · refine ⟨trivial, ?_, ?_, iff_of_true (by decide) (by decide)⟩
    · intro hsize
      exact absurd hsize (by decide)
    · intro hsize
      exact absurd hsize (by decide)
  · refine ⟨trivial, ?_, ?_, Or.inr ?_⟩
    · intro hsize
      exact absurd hsize (by decide)
    · intro hsize
      exact absurd hsize (by decide)
    · unfold InType
      decide
  · trivial
  · trivial
  · trivial
  · refine ⟨trivial, ?_, ?_, Or.inr (fun hsame => absurd hsame (by decide))⟩
    · intro hsize
      exact absurd hsize (by decide)
    · intro hsize
      exact absurd hsize (by decide)
  · trivial
  · trivial

theorem readings_agree_iff_sumBelow :
    ReadingsAgree (fun _ => 0) (fun id => some (intAssignment 5 id)) (intAssignment 5)
      sumBelow ↔ known (intAssignment 5) sumBelow = true := by
  refine @readings_agree_iff intVariable (fun _ => none) (intAssignment 5) _ _ _ ?_ ?_
    (intAssignment_assigned (by decide)) (fun _ _ => rfl) rfl
    (fun u hu => (sumBelow_exact u hu).1) (fun u hu => (sumBelow_exact u hu).2)
  · exact ⟨⟨⟨rfl, by decide, by decide, by decide⟩, by decide, by decide, by decide⟩, rfl,
      by decide, by decide, by decide⟩
  · exact ⟨⟨⟨trivial, trivial⟩, trivial⟩, trivial, trivial⟩

end Backend
end Crave
