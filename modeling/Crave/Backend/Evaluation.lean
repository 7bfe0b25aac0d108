import Crave.Backend.RelationalOperators
import Crave.Backend.WellSorted
import Crave.Ir.HostArithmetic

/-!
# The two readings of an expression

The value of an expression over fixed-width integers is defined once more on
the source expression, with every operand widened to the width of the result.
The solver formula and the host evaluation are both compared with it.
-/

namespace Crave
namespace Backend

open Foundation Ir FixWidthVisitor MetaSMTVisitor

/-!
## Fixed-width values
-/

def extendTo (signed : Bool) (w : Nat) {v : Nat} (x : BitVec v) : BitVec w :=
  if signed then x.signExtend w else x.setWidth w

/-- The value of a binary operator on operands of one width `w`, whose signs
are `s` and `t`. -/
def binaryValue (op : BinaryOperator) (s t : Bool) {w : Nat} (x y : BitVec w) :
    SizedBits :=
  match op with
  | .andOpr => ⟨w, x &&& y⟩
  | .orOpr => ⟨w, x ||| y⟩
  | .logicalAndOpr => SizedBits.ofBool (x != 0 && y != 0)
  | .logicalOrOpr => SizedBits.ofBool (x != 0 || y != 0)
  | .xorOpr => ⟨w, x ^^^ y⟩
  | .equalOpr => SizedBits.ofBool (x == y)
  | .notEqualOpr => SizedBits.ofBool (x != y)
  | .lessOpr => SizedBits.ofBool (SizedBits.num s ⟨w, x⟩ < SizedBits.num t ⟨w, y⟩)
  | .lessEqualOpr => SizedBits.ofBool (SizedBits.num s ⟨w, x⟩ ≤ SizedBits.num t ⟨w, y⟩)
  | .greaterOpr => SizedBits.ofBool (SizedBits.num s ⟨w, x⟩ > SizedBits.num t ⟨w, y⟩)
  | .greaterEqualOpr =>
      SizedBits.ofBool (SizedBits.num s ⟨w, x⟩ ≥ SizedBits.num t ⟨w, y⟩)
  | .plusOpr => ⟨w, x + y⟩
  | .minusOpr => ⟨w, x - y⟩
  | .multipliesOpr => ⟨w, x * y⟩
  | .devideOpr => ⟨w, if s then BitVec.smtSDiv x y else BitVec.smtUDiv x y⟩
  | .moduloOpr => ⟨w, if s then BitVec.srem x y else BitVec.umod x y⟩
  | .shiftLeftOpr => ⟨w, x <<< y⟩
  | .shiftRightOpr => ⟨w, x >>> y⟩

theorem width_binaryValue (op : BinaryOperator) (s t : Bool) {a b : Nat}
    (x y : BitVec (max a b)) :
    (binaryValue op s t x y).width = binaryBitsize op a b := by
  cases op <;> rfl

def unaryValue (op : UnaryOperator) {w : Nat} (x : BitVec w) : BitVec w :=
  match op with
  | .notOpr => ~~~x
  | .negOpr => -x
  | .complementOpr => ~~~x

/-- The value of a scalar expression under an assignment of host constants. -/
def denote (assignment : Nat -> Constant) : (u : Node) -> BitVec u.bitsize
  | .variableExpr id bitsize _ => (assignment id).value.setWidth bitsize
  | .constant c => c.value.setWidth c.bitsize
  | .unaryOpr op child => unaryValue op (denote assignment child)
  | .binaryOpr op lhs rhs =>
      (binaryValue op lhs.sign rhs.sign
        (extendTo lhs.sign (max lhs.bitsize rhs.bitsize) (denote assignment lhs))
        (extendTo rhs.sign (max lhs.bitsize rhs.bitsize) (denote assignment rhs))).bits.cast
        (width_binaryValue op lhs.sign rhs.sign _ _)
  | .ifThenElse a b c =>
      if denote assignment a ≠ 0 then
        (denote assignment b).setWidth (max b.bitsize c.bitsize)
      else
        (denote assignment c).setWidth (max b.bitsize c.bitsize)
  | .bitslice child r l => (denote assignment child).extractLsb r l
  | _ => 0

def meaning (assignment : Nat -> Constant) (u : Node) : SizedBits :=
  ⟨u.bitsize, denote assignment u⟩

/-- The expressions without placeholders, vectors, iterations and collections. -/
def Scalar : Node -> Prop
  | .variableExpr _ _ _ => True
  | .constant _ => True
  | .unaryOpr _ child => Scalar child
  | .binaryOpr _ lhs rhs => Scalar lhs ∧ Scalar rhs
  | .ifThenElse a b c => Scalar a ∧ Scalar b ∧ Scalar c
  | .bitslice child _ _ => Scalar child
  | _ => False

/-- The solver model that encodes an assignment. -/
def encode (assignment : Nat -> Constant) : Model SolverVar
  | .terminal id => (assignment id).value.toNat
  | .selector _ => 0

theorem mk_setWidth {v a b : Nat} (x : BitVec v) (h : a = b) :
    (⟨a, x.setWidth a⟩ : SizedBits) = ⟨b, x.setWidth b⟩ := by
  subst h
  rfl

theorem extend_sub (s : Bool) {a : Nat} (x : BitVec a) (b : Nat) :
    SizedBits.extend s (b - a) ⟨a, x⟩ = ⟨max a b, extendTo s (max a b) x⟩ := by
  have hmax : a + (b - a) = max a b := by omega
  rw [← hmax]
  cases s <;> rfl

theorem num_extendTo (s : Bool) {v w : Nat} (x : BitVec v) (h : v ≤ w) :
    SizedBits.num s ⟨w, extendTo s w x⟩ = SizedBits.num s ⟨v, x⟩ := by
  have hextend := extend_sub s x w
  rw [max_eq_right h] at hextend
  rw [← hextend, SizedBits.num_extend]

theorem mk_cast {a b : Nat} (x : BitVec a) (h : a = b) :
    (⟨b, x.cast h⟩ : SizedBits) = ⟨a, x⟩ := by
  subst h
  rfl

theorem meaning_binaryOpr (assignment : Nat -> Constant) (op : BinaryOperator)
    (lhs rhs : Node) :
    meaning assignment (.binaryOpr op lhs rhs) =
      binaryValue op lhs.sign rhs.sign
        (extendTo lhs.sign (max lhs.bitsize rhs.bitsize) (denote assignment lhs))
        (extendTo rhs.sign (max lhs.bitsize rhs.bitsize) (denote assignment rhs)) := by
  exact mk_cast _ _

/-!
## The formula has the fixed-width value
-/

/-- Both operands of a sorted binary operator are translated to the width of
the wider one. -/
theorem operand_evalBinExpr {m : Model SolverVar} {lhs rhs : Node}
    {x : BitVec lhs.bitsize} {y : BitVec rhs.bitsize}
    (hl : Operand m (fixWidth lhs) ⟨lhs.bitsize, x⟩ lhs.sign)
    (hr : Operand m (fixWidth rhs) ⟨rhs.bitsize, y⟩ rhs.sign)
    (hlw : recordedWidth lhs = lhs.bitsize) (hrw : recordedWidth rhs = rhs.bitsize) :
    Operand m (evalBinExpr (FixWidthVisitor.visit lhs) (FixWidthVisitor.visit rhs)).1.1
        ⟨max lhs.bitsize rhs.bitsize, extendTo lhs.sign _ x⟩ lhs.sign ∧
      Operand m (evalBinExpr (FixWidthVisitor.visit lhs) (FixWidthVisitor.visit rhs)).2.1
        ⟨max lhs.bitsize rhs.bitsize, extendTo rhs.sign _ y⟩ rhs.sign := by
  have h := Operand.evalBinExpr (FixWidthVisitor.visit lhs) (FixWidthVisitor.visit rhs) hl hr
  have hlv : (FixWidthVisitor.visit lhs).2 = lhs.bitsize := hlw
  have hrv : (FixWidthVisitor.visit rhs).2 = rhs.bitsize := hrw
  rw [hlv, hrv, extend_sub, extend_sub, max_comm rhs.bitsize] at h
  exact h

theorem and_of_width_one {w : Nat} (hw : w = 1) (x y : BitVec w) :
    (⟨w, x &&& y⟩ : SizedBits) = SizedBits.ofBool (x != 0 && y != 0) := by
  subst hw
  rcases BitVec.eq_zero_or_eq_one x with rfl | rfl <;>
    rcases BitVec.eq_zero_or_eq_one y with rfl | rfl <;> rfl

theorem or_of_width_one {w : Nat} (hw : w = 1) (x y : BitVec w) :
    (⟨w, x ||| y⟩ : SizedBits) = SizedBits.ofBool (x != 0 || y != 0) := by
  subst hw
  rcases BitVec.eq_zero_or_eq_one x with rfl | rfl <;>
    rcases BitVec.eq_zero_or_eq_one y with rfl | rfl <;> rfl

/-- The operands that an operator is defined for, given their common width. -/
def SortedOperands (op : BinaryOperator) (s t : Bool) (w : Nat) : Prop :=
  match op with
  | .logicalAndOpr => w = 1
  | .logicalOrOpr => w = 1
  | .devideOpr => s = t
  | _ => True

theorem eval_visitBinaryOpr_of {m : Model SolverVar} {op : BinaryOperator} {s t : Bool}
    {f g : Formula} {w : Nat} {x y : BitVec w} (hsorted : SortedOperands op s t w)
    (hf : f.eval m = some ⟨w, x⟩) (hg : g.eval m = some ⟨w, y⟩) :
    (MetaSMTVisitor.visitBinaryOpr op (f, s) (g, t)).1.eval m =
      some (binaryValue op s t x y) := by
  cases op with
  | logicalAndOpr =>
      simp only [MetaSMTVisitor.visitBinaryOpr, numberOpr, Term.eval, hf, hg,
        SizedBits.binary_mk, BinaryTag.apply, binaryValue]
      exact congrArg some (and_of_width_one hsorted x y)
  | logicalOrOpr =>
      simp only [MetaSMTVisitor.visitBinaryOpr, numberOpr, Term.eval, hf, hg,
        SizedBits.binary_mk, BinaryTag.apply, binaryValue]
      exact congrArg some (or_of_width_one hsorted x y)
  | lessOpr => exact eval_signCases compares_less hf hg
  | lessEqualOpr => exact eval_signCases compares_lessEqual hf hg
  | greaterOpr => exact eval_signCases compares_greater hf hg
  | greaterEqualOpr => exact eval_signCases compares_greaterEqual hf hg
  | devideOpr =>
      have hsign : t = s := Eq.symm hsorted
      simp only [MetaSMTVisitor.visitBinaryOpr, visitDevideOpr, binaryValue, hsign]
      cases s <;> simp [signCases, Term.eval, hf, hg, BinaryTag.apply]
  | moduloOpr =>
      simp only [MetaSMTVisitor.visitBinaryOpr, visitModuloOpr, binaryValue]
      cases s <;> simp [Term.eval, hf, hg, BinaryTag.apply]
  | _ =>
      simp only [MetaSMTVisitor.visitBinaryOpr, numberOpr, equalityOpr, shiftOpr,
        Term.eval, hf, hg, SizedBits.binary_mk, BinaryTag.apply, binaryValue]

theorem eval_visitBinaryOpr {m : Model SolverVar} {op : BinaryOperator} {lhs rhs : Node}
    {f g : Formula} {x y : BitVec (max lhs.bitsize rhs.bitsize)}
    (hsorted : SortedAt (.binaryOpr op lhs rhs)) (hf : f.eval m = some ⟨_, x⟩)
    (hg : g.eval m = some ⟨_, y⟩) :
    (MetaSMTVisitor.visitBinaryOpr op (f, lhs.sign) (g, rhs.sign)).1.eval m =
      some (binaryValue op lhs.sign rhs.sign x y) := by
  have hoperands : SortedOperands op lhs.sign rhs.sign (max lhs.bitsize rhs.bitsize) := by
    cases op with
    | logicalAndOpr => exact hsorted
    | logicalOrOpr => exact hsorted
    | devideOpr => exact hsorted
    | _ => trivial
  exact eval_visitBinaryOpr_of hoperands hf hg

section Assignment

variable {variables_ vectors_ : Declarations} {assignment : Nat -> Constant}

/-- Every variable has a value of its declared type. -/
def Assigned (variables_ : Declarations) (assignment : Nat -> Constant) : Prop :=
  forall id decl, variables_ id = some decl ->
    (assignment id).bitsize = decl.bitsize ∧ (assignment id).sign = decl.sign ∧
      (assignment id).InRange ∧ decl.bitsize ≤ 64

theorem meaning_ifThenElse {a b c : Node} (hb : b.bitsize = 1) (hc : c.bitsize = 1) :
    meaning assignment (.ifThenElse a b c) =
      if denote assignment a ≠ 0 then
        meaning assignment b
      else
        meaning assignment c := by
  have hmaxb : max b.bitsize c.bitsize = b.bitsize := by rw [hb, hc, max_self]
  have hmaxc : max b.bitsize c.bitsize = c.bitsize := by rw [hb, hc, max_self]
  change (⟨max b.bitsize c.bitsize, if denote assignment a ≠ 0 then
      (denote assignment b).setWidth _ else (denote assignment c).setWidth _⟩ :
    SizedBits) = _
  by_cases h : denote assignment a ≠ 0
  · rw [if_pos h, if_pos h, mk_setWidth _ hmaxb, BitVec.setWidth_eq]
    rfl
  · rw [if_neg h, if_neg h, mk_setWidth _ hmaxc, BitVec.setWidth_eq]
    rfl

theorem eval_visitIfThenElse {m : Model SolverVar} {f g h : Formula} {p q r : Bool}
    {u v w : Nat} {x : BitVec u} {y : BitVec v} {z : BitVec w} (hu : u = 1) (hv : v = 1)
    (hw : w = 1) (hf : f.eval m = some ⟨u, x⟩) (hg : g.eval m = some ⟨v, y⟩)
    (hh : h.eval m = some ⟨w, z⟩) :
    (visitIfThenElse (f, p) (g, q) (h, r)).1.eval m =
      some (if x ≠ 0 then ⟨v, y⟩ else ⟨w, z⟩) := by
  subst hu hv hw
  simp only [visitIfThenElse, Term.eval, Term.true, hf, hg, hh, SizedBits.ofBool,
    SizedBits.binary_mk, BinaryTag.apply]
  rcases BitVec.eq_zero_or_eq_one x with rfl | rfl
  · rfl
  · rfl

/-- The solver formula of a sorted expression has the fixed-width value. -/
theorem operand_meaning {u : Node} (hbuilds : Context.Builds variables_ vectors_ u)
    (hscalar : Scalar u)
    (hsorted : forall v, v ∈ Form.visited .whole u -> SortedAt v) :
    Operand (encode assignment) (fixWidth u) (meaning assignment u) u.sign ∧
      recordedWidth u = u.bitsize := by
  induction u with
  | variableExpr id bitsize sign =>
      refine ⟨⟨_, rfl, ?_⟩, rfl⟩
      simp only [Term.eval, encode, BitVec.ofNat_toNat]
      rfl
  | constant c =>
      refine ⟨⟨_, ?_, eval_visitConstant _ hbuilds.1 hbuilds.2.2⟩, rfl⟩
      rw [Node.sign, ← sign_visitConstant]
      rfl
  | unaryOpr op child ih =>
      rcases ih hbuilds hscalar fun v hv => hsorted v (List.mem_cons_of_mem _ hv) with
        ⟨⟨f, hf, hev⟩, hw⟩
      refine ⟨⟨(visitUnaryOpr op (f, child.sign)).1, ?_, ?_⟩, hw⟩
      · unfold fixWidth at hf ⊢
        simp only [FixWidthVisitor.visit, visitNumberResultUnaryExpr, MetaSMTVisitor.translate, hf]
        cases op <;> rfl
      · cases op <;>
          simp only [visitUnaryOpr, visitNotOpr, visitNegOpr, visitComplementOpr,
            Term.eval, hev, Option.map_some] <;> rfl
  | binaryOpr op lhs rhs ihl ihr =>
      have hself := hsorted _ (Form.self_mem_visited .whole _)
      rcases ihl hbuilds.1 hscalar.1 fun v hv =>
        hsorted v (List.mem_cons_of_mem _ (List.mem_append_left _ hv)) with ⟨hl, hlw⟩
      rcases ihr hbuilds.2 hscalar.2 fun v hv =>
        hsorted v (List.mem_cons_of_mem _ (List.mem_append_right _ hv)) with ⟨hr, hrw⟩
      rcases operand_evalBinExpr hl hr hlw hrw with ⟨⟨f, hf, hfev⟩, ⟨g, hg, hgev⟩⟩
      refine ⟨⟨(MetaSMTVisitor.visitBinaryOpr op (f, lhs.sign) (g, rhs.sign)).1, ?_, ?_⟩, ?_⟩
      · unfold fixWidth
        simp only [FixWidthVisitor.visit, visitBinaryOpr_eq, MetaSMTVisitor.translate, hf, hg]
        rw [Node.sign, ← sign_visitBinaryOpr op (f, lhs.sign) (g, rhs.sign)]
      · rw [meaning_binaryOpr]
        exact eval_visitBinaryOpr hself hfev hgev
      · rw [recordedWidth_binaryOpr, hlw, hrw]
        rfl
  | ifThenElse a b c iha ihb ihc =>
      rcases hsorted _ (Form.self_mem_visited .whole _) with ⟨ha1, hb1, hc1⟩
      have hmem : forall v, (v ∈ Form.visited .whole a ∨ v ∈ Form.visited .whole b ∨
          v ∈ Form.visited .whole c) -> SortedAt v := by
        intro v hv
        apply hsorted
        simp only [Form.visited, List.mem_cons, List.mem_append, or_assoc]
        exact Or.inr hv
      rcases iha hbuilds.1 hscalar.1 fun v hv => hmem v (Or.inl hv) with
        ⟨⟨f, hf, hfev⟩, haw⟩
      rcases ihb hbuilds.2.1 hscalar.2.1 fun v hv => hmem v (Or.inr (Or.inl hv)) with
        ⟨⟨g, hg, hgev⟩, hbw⟩
      rcases ihc hbuilds.2.2 hscalar.2.2 fun v hv => hmem v (Or.inr (Or.inr hv)) with
        ⟨⟨h, hh, hhev⟩, hcw⟩
      refine ⟨⟨(visitIfThenElse (f, a.sign) (g, b.sign) (h, c.sign)).1, ?_, ?_⟩, ?_⟩
      · unfold fixWidth at hf hg hh ⊢
        simp only [FixWidthVisitor.visit, MetaSMTVisitor.translate, hf, hg, hh]
        rfl
      · rw [meaning_ifThenElse hb1 hc1]
        exact eval_visitIfThenElse ha1 hb1 hc1 hfev hgev hhev
      · have hrec : recordedWidth (.ifThenElse a b c) = recordedWidth a := rfl
        rw [hrec, haw, ha1, Node.bitsize, hb1, hc1, max_self]
  | bitslice child r l ih =>
      rcases hbuilds with ⟨id, bitsize, sign, rfl, hdecl, hlr, hr⟩
      rcases ih hdecl trivial fun v hv => by
        cases List.mem_singleton.mp hv
        trivial with ⟨⟨f, hf, hev⟩, hw⟩
      refine ⟨⟨(visitBitslice r l (f, sign)).1, ?_, ?_⟩, rfl⟩
      · unfold fixWidth at hf ⊢
        simp only [FixWidthVisitor.visit, MetaSMTVisitor.translate] at hf ⊢
        cases hf
        rfl
      · have hlt : l ≤ r ∧ r < (meaning assignment (.variableExpr id bitsize sign)).width :=
          ⟨hlr, hr⟩
        simp only [visitBitslice, Term.eval, hev, SizedBits.extract, if_pos hlt]
        rfl
  | _ => exact hscalar.elim

end Assignment

/-!
## The host evaluation has the fixed-width value

The host integer of a fixed-width value is its number, where truth values count
as zero and one.  The evaluation is right as long as every host operation gives
the number of its result.
-/

def number (assignment : Nat -> Constant) (u : Node) : Int :=
  if u.bitsize = 1 then
    (denote assignment u).toNat
  else
    (meaning assignment u).num u.sign

/-- Width and sign that the evaluator keeps for an expression. -/
def hostType (assignment : Nat -> Constant) : Node -> Nat × Bool
  | .variableExpr _ bitsize sign => (bitsize, sign)
  | .constant c => (c.bitsize, c.sign)
  | .unaryOpr .notOpr _ => (1, true)
  | .unaryOpr _ child => hostType assignment child
  | .binaryOpr op lhs rhs =>
      if isBooleanResult op then
        (1, true)
      else
        ((hostType assignment lhs).1,
          (hostType assignment lhs).2 || (hostType assignment rhs).2)
  | .ifThenElse a b c =>
      if denote assignment a ≠ 0 then
        hostType assignment b
      else
        hostType assignment c
  | .bitslice _ r l => (r - l + 1, false)
  | _ => (0, false)

def hostConstant (assignment : Nat -> Constant) (u : Node) : Constant :=
  { value := BitVec.ofInt 64 (number assignment u)
    bitsize := (hostType assignment u).1
    sign := (hostType assignment u).2 }

/-- The host operation on the numbers of the operands is defined and gives the
number of the fixed-width result. -/
def HostAgrees (assignment : Nat -> Constant) (u : Node) : Prop :=
  match u with
  | .unaryOpr op child =>
      (EvalVisitor.visitUnaryOpr op (hostConstant assignment child, true)).1.value =
        BitVec.ofInt 64 (number assignment u)
  | .binaryOpr op lhs rhs =>
      exists c,
        EvalVisitor.visitBinaryOpr op (hostConstant assignment lhs, true)
          (hostConstant assignment rhs, true) = .ok (c, true) ∧
        c.value = BitVec.ofInt 64 (number assignment u)
  | _ => True

/-- Whether the evaluator marks the value as known: a slice is never known, and
of a conditional only the selected branch counts. -/
def known (assignment : Nat -> Constant) : Node -> Bool
  | .unaryOpr _ child => known assignment child
  | .binaryOpr _ lhs rhs => known assignment lhs && known assignment rhs
  | .ifThenElse a b c =>
      if denote assignment a ≠ 0 then known assignment b else known assignment c
  | .bitslice _ _ _ => false
  | _ => true

theorem ofInt_toNat_setWidth {w : Nat} {value : BitVec 64} (h : value.toNat < 2 ^ w) :
    BitVec.ofInt 64 ((value.setWidth w).toNat : Int) = value := by
  rw [BitVec.toNat_setWidth, Nat.mod_eq_of_lt h, BitVec.ofInt_natCast,
    BitVec.ofNat_toNat, BitVec.setWidth_eq]

theorem ofInt_number_constant {c : Constant} (hrange : c.InRange) :
    BitVec.ofInt 64 (if c.bitsize = 1 then
      ((c.value.setWidth c.bitsize).toNat : Int)
    else
      SizedBits.num c.sign ⟨c.bitsize, c.value.setWidth c.bitsize⟩) = c.value := by
  rcases c with ⟨value, bitsize, sign⟩
  simp only [Constant.InRange, Constant.isBool] at hrange ⊢
  by_cases hone : bitsize = 1
  · subst hone
    cases sign with
    | false => exact ofInt_toNat_setWidth (by simpa using hrange)
    | true =>
        have hbool : value = 0 ∨ value = 1 := by simpa using hrange
        rcases hbool with rfl | rfl
        · rfl
        · rfl
  · have hnot : (bitsize == 1) = false := by simpa using hone
    rw [if_neg hone]
    cases sign with
    | false =>
        have hlt : value.toNat < 2 ^ bitsize := by simpa [hnot] using hrange
        exact ofInt_toNat_setWidth hlt
    | true =>
        have hext : value = (value.setWidth bitsize).signExtend 64 := by
          simpa [hnot] using hrange
        exact hext.symm

theorem divisionResult_known {s u : BitVec 64 -> BitVec 64 -> BitVec 64}
    {a b c : Constant} (p q : Bool)
    (h : EvalVisitor.divisionResult s u (a, true) (b, true) = .ok (c, true)) :
    EvalVisitor.divisionResult s u (a, p) (b, q) = .ok (c, p && q) ∧
      (c.bitsize, c.sign) = (a.bitsize, a.sign || b.sign) := by
  unfold EvalVisitor.divisionResult at h ⊢
  split at h
  · cases h
  · rename_i hzero
    rw [if_neg hzero]
    split at h
    · rename_i hsign
      rw [if_pos hsign]
      split at h
      · cases h
      · rename_i hmin
        cases h
        exact ⟨if_neg hmin, by rw [hsign]⟩
    · rename_i hsign
      rw [if_neg hsign]
      cases h
      exact ⟨rfl, by rw [Bool.eq_false_iff.mpr hsign]⟩

theorem shiftResult_known {f : BitVec 64 -> BitVec 64 -> BitVec 64} {a b c : Constant}
    (p q : Bool)
    (h : EvalVisitor.shiftResult f (a, true) (b, true) = .ok (c, true)) :
    EvalVisitor.shiftResult f (a, p) (b, q) = .ok (c, p && q) ∧
      (c.bitsize, c.sign) = (a.bitsize, a.sign || b.sign) := by
  unfold EvalVisitor.shiftResult at h ⊢
  split at h
  · rename_i hlt
    rw [if_pos hlt]
    cases h
    exact ⟨rfl, rfl⟩
  · cases h

/-- The flags of the operands carry over to the result, and the type of the
result depends on the operator alone. -/
theorem visitBinaryOpr_known {op : BinaryOperator} {a b c : Constant} (p q : Bool)
    (h : EvalVisitor.visitBinaryOpr op (a, true) (b, true) = .ok (c, true)) :
    EvalVisitor.visitBinaryOpr op (a, p) (b, q) = .ok (c, p && q) ∧
      (c.bitsize, c.sign) =
        if isBooleanResult op then (1, true) else (a.bitsize, a.sign || b.sign) := by
  cases op with
  | devideOpr => exact divisionResult_known p q h
  | moduloOpr => exact divisionResult_known p q h
  | shiftLeftOpr => exact shiftResult_known p q h
  | shiftRightOpr => exact shiftResult_known p q h
  | _ =>
      cases h
      exact ⟨rfl, rfl⟩

section Assignment

variable {variables_ vectors_ : Declarations} {assignment : Nat -> Constant}

theorem hostConstant_variableExpr {id bitsize : Nat} {sign : Bool}
    (hassigned : Assigned variables_ assignment)
    (hdecl : variables_ id = some ⟨bitsize, sign⟩) :
    hostConstant assignment (.variableExpr id bitsize sign) = assignment id := by
  rcases hassigned id _ hdecl with ⟨hsize, hsign, hrange, -⟩
  have hvalue := ofInt_number_constant hrange
  rcases hc : assignment id with ⟨value, b, s⟩
  rw [hc] at hsize hsign hvalue
  simp only at hsize hsign
  subst hsize hsign
  have hnumber : number assignment (.variableExpr id b s) =
      if b = 1 then ((value.setWidth b).toNat : Int)
      else SizedBits.num s ⟨b, value.setWidth b⟩ := by
    have hdenote : denote assignment (.variableExpr id b s) = value.setWidth b := by
      change (assignment id).value.setWidth b = _
      rw [hc]
    unfold number meaning
    rw [hdenote]
    rfl
  unfold hostConstant
  rw [hnumber, hvalue]
  rfl

theorem hostConstant_constant {c : Constant} (hrange : c.InRange) :
    hostConstant assignment (.constant c) = c := by
  have hvalue := ofInt_number_constant hrange
  unfold hostConstant
  exact congrArg (fun v => (⟨v, c.bitsize, c.sign⟩ : Constant)) hvalue

theorem number_eq_toNat {u : Node} (h : u.bitsize = 1 ∨ u.sign = false) :
    number assignment u = (denote assignment u).toNat := by
  unfold number
  rcases h with h | h
  · rw [if_pos h]
  · split
    · rfl
    · rw [h]
      rfl

theorem hostConstant_value_ne_zero {u : Node} (h : u.bitsize = 1) :
    (hostConstant assignment u).value ≠ 0 ↔ denote assignment u ≠ 0 := by
  have hnum : (hostConstant assignment u).value =
      BitVec.ofNat 64 (denote assignment u).toNat := by
    unfold hostConstant
    rw [number_eq_toNat (Or.inl h)]
    exact BitVec.ofInt_natCast ..
  have hlt : (denote assignment u).toNat < 2 ^ 64 := by
    have hpow : 2 ^ u.bitsize ≤ 2 ^ 64 := by
      rw [h]
      decide
    exact lt_of_lt_of_le (denote assignment u).isLt hpow
  rw [hnum, ne_eq, ne_eq, not_iff_not]
  constructor
  · intro hzero
    apply BitVec.eq_of_toNat_eq
    have hnat := congrArg BitVec.toNat hzero
    rw [BitVec.toNat_ofNat, Nat.mod_eq_of_lt hlt] at hnat
    simpa using hnat
  · intro hzero
    rw [hzero]
    simp

theorem hostConstant_bitslice {id bitsize r l : Nat} {sign : Bool}
    (hassigned : Assigned variables_ assignment)
    (hdecl : variables_ id = some ⟨bitsize, sign⟩) (hlr : l ≤ r) (hr : r < bitsize) :
    (EvalVisitor.visitBitslice r l (assignment id, true)).1 =
      hostConstant assignment (.bitslice (.variableExpr id bitsize sign) r l) := by
  rcases hassigned id _ hdecl with ⟨-, -, -, hsize⟩
  simp only at hsize
  unfold hostConstant
  rw [number_eq_toNat (Or.inr rfl), BitVec.ofInt_natCast, BitVec.ofNat_toNat]
  change (⟨(EvalVisitor.sliceMask r l &&& (assignment id).value) >>> l, r - l + 1, false⟩ :
    Constant) = ⟨(((assignment id).value.setWidth bitsize).extractLsb r l).setWidth 64,
      r - l + 1, false⟩
  generalize (assignment id).value = v
  congr 1
  apply BitVec.eq_of_getLsbD_eq
  intro i hi
  by_cases hlt : l + i < 64
  · rw [BitVec.getLsbD_ushiftRight, BitVec.getLsbD_and, EvalVisitor.getLsbD_sliceMask hlt,
      BitVec.getLsbD_setWidth, BitVec.getLsbD_extractLsb, BitVec.getLsbD_setWidth]
    by_cases hin : l + i ≤ r
    · have hpos : l ≤ l + i ∧ l + i ≤ r := ⟨Nat.le_add_right l i, hin⟩
      have hsub : i < r - l + 1 := by omega
      have hbit : l + i < bitsize := lt_of_le_of_lt hin hr
      simp [hpos, hi, hsub, hbit]
    · have hsub : ¬ i < r - l + 1 := by omega
      simp [hin, hsub]
  · rw [BitVec.getLsbD_ushiftRight, BitVec.getLsbD_of_ge _ _ (Nat.le_of_not_lt hlt),
      BitVec.getLsbD_setWidth, BitVec.getLsbD_extractLsb, BitVec.getLsbD_setWidth]
    have hnot : ¬ i < r - l + 1 := by omega
    simp [hnot]

theorem hostConstant_ifThenElse {a b c : Node} (hb : b.bitsize = 1) (hc : c.bitsize = 1) :
    hostConstant assignment (.ifThenElse a b c) =
      if denote assignment a ≠ 0 then
        hostConstant assignment b
      else
        hostConstant assignment c := by
  have hone : (Node.ifThenElse a b c).bitsize = 1 := by
    rw [Node.bitsize, hb, hc, max_self]
  have hmeaning := @meaning_ifThenElse assignment a b c hb hc
  have hnumber : forall u : Node, u.bitsize = 1 ->
      number assignment u = ((meaning assignment u).bits.toNat : Int) :=
    fun u hu => number_eq_toNat (Or.inl hu)
  have htype : hostType assignment (.ifThenElse a b c) =
      if denote assignment a ≠ 0 then hostType assignment b
      else hostType assignment c := rfl
  unfold hostConstant
  rw [hnumber _ hone, hnumber b hb, hnumber c hc]
  by_cases h : denote assignment a ≠ 0
  · rw [if_pos h] at hmeaning htype
    rw [hmeaning, htype, if_pos h]
  · rw [if_neg h] at hmeaning htype
    rw [hmeaning, htype, if_neg h]

/-- When every host operation agrees, the evaluator computes the number of the
expression. -/
theorem value_eq_hostConstant {u : Node} (hbuilds : Context.Builds variables_ vectors_ u)
    (hscalar : Scalar u) (hassigned : Assigned variables_ assignment)
    (hsorted : forall v, v ∈ Form.visited .whole u -> SortedAt v)
    (hagrees : forall v, v ∈ Form.visited .whole u -> HostAgrees assignment v) :
    EvalVisitor.value (fun id => some (assignment id)) u =
      .ok (hostConstant assignment u, known assignment u) := by
  induction u with
  | variableExpr id bitsize sign =>
      rw [hostConstant_variableExpr hassigned hbuilds]
      rfl
  | constant c =>
      rw [hostConstant_constant hbuilds.1]
      rfl
  | unaryOpr op child ih =>
      have hself := hagrees _ (Form.self_mem_visited .whole _)
      have hchild := ih hbuilds hscalar
        (fun v hv => hsorted v (List.mem_cons_of_mem _ hv))
        (fun v hv => hagrees v (List.mem_cons_of_mem _ hv))
      have hvisit : EvalVisitor.visitUnaryOpr op
          (hostConstant assignment child, known assignment child) =
          (hostConstant assignment (.unaryOpr op child), known assignment child) := by
        unfold hostConstant at hself ⊢
        rw [← hself]
        cases op <;> rfl
      simp only [EvalVisitor.value, hchild, hvisit]
      rfl
  | binaryOpr op lhs rhs ihl ihr =>
      rcases hagrees _ (Form.self_mem_visited .whole _) with ⟨c, hop, hvalue⟩
      have hl := ihl hbuilds.1 hscalar.1
        (fun v hv => hsorted v (List.mem_cons_of_mem _ (List.mem_append_left _ hv)))
        (fun v hv => hagrees v (List.mem_cons_of_mem _ (List.mem_append_left _ hv)))
      have hr := ihr hbuilds.2 hscalar.2
        (fun v hv => hsorted v (List.mem_cons_of_mem _ (List.mem_append_right _ hv)))
        (fun v hv => hagrees v (List.mem_cons_of_mem _ (List.mem_append_right _ hv)))
      rcases visitBinaryOpr_known (known assignment lhs) (known assignment rhs) hop with
        ⟨hknown, htype⟩
      have hc : c = hostConstant assignment (.binaryOpr op lhs rhs) := by
        have htype' : (c.bitsize, c.sign) = hostType assignment (.binaryOpr op lhs rhs) :=
          htype
        unfold hostConstant
        rw [← hvalue, ← htype']
      simp only [EvalVisitor.value, hl, hr, hknown, hc]
      rfl
  | ifThenElse a b c iha ihb ihc =>
      rcases hsorted _ (Form.self_mem_visited .whole _) with ⟨ha1, hb1, hc1⟩
      have hmem : forall v, (v ∈ Form.visited .whole a ∨ v ∈ Form.visited .whole b ∨
          v ∈ Form.visited .whole c) -> v ∈ Form.visited .whole (.ifThenElse a b c) := by
        intro v hv
        simp only [Form.visited, List.mem_cons, List.mem_append, or_assoc]
        exact Or.inr hv
      have ha := iha hbuilds.1 hscalar.1 (fun v hv => hsorted v (hmem v (Or.inl hv)))
        (fun v hv => hagrees v (hmem v (Or.inl hv)))
      have hb := ihb hbuilds.2.1 hscalar.2.1
        (fun v hv => hsorted v (hmem v (Or.inr (Or.inl hv))))
        (fun v hv => hagrees v (hmem v (Or.inr (Or.inl hv))))
      have hc := ihc hbuilds.2.2 hscalar.2.2
        (fun v hv => hsorted v (hmem v (Or.inr (Or.inr hv))))
        (fun v hv => hagrees v (hmem v (Or.inr (Or.inr hv))))
      simp only [EvalVisitor.value, ha, hb, hc, EvalVisitor.visitIfThenElse,
        hostConstant_value_ne_zero ha1]
      rw [hostConstant_ifThenElse hb1 hc1]
      simp only [known]
      split
      · rfl
      · rfl
  | bitslice child r l ih =>
      rcases hbuilds with ⟨id, bitsize, sign, rfl, hdecl, hlr, hr⟩
      rw [← hostConstant_bitslice hassigned hdecl hlr hr]
      rfl
  | _ => exact hscalar.elim

end Assignment

end Backend
end Crave
