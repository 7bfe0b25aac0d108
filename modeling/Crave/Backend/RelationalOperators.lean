import Crave.Backend.MetaSMTVisitor
import Crave.Ir.FixWidth

/-!
# Relational operators

The six relational operators after width fixing and translation, compared with
the relations between the numbers that the two operands stand for.
-/

namespace Crave
namespace Backend

open Foundation Ir
open FixWidthVisitor MetaSMTVisitor

/-!
## Comparison tags

A pair of a signed and an unsigned tag compares numbers by one relation.
-/

/-- Both tags decide the relation, each on its own reading of the bits. -/
def Compares (signedTag unsignedTag : BinaryTag) (R : Int -> Int -> Prop)
    [DecidableRel R] : Prop :=
  forall {w : Nat} (p q : BitVec w),
    signedTag.apply p q = SizedBits.ofBool (decide (R p.toInt q.toInt)) ∧
      unsignedTag.apply p q = SizedBits.ofBool (decide (R p.toNat q.toNat))

theorem compares_less : Compares .bvslt .bvult (· < ·) := by
  intro w p q
  constructor
  · simp [BinaryTag.apply, BitVec.slt]
  · simp [BinaryTag.apply, BitVec.ult]

theorem compares_lessEqual : Compares .bvsle .bvule (· ≤ ·) := by
  intro w p q
  constructor
  · simp [BinaryTag.apply, BitVec.sle]
  · simp [BinaryTag.apply, BitVec.ule]

theorem compares_greater : Compares .bvsgt .bvugt (· > ·) := by
  intro w p q
  constructor
  · simp [BinaryTag.apply, BitVec.slt]
  · simp [BinaryTag.apply, BitVec.ult]

theorem compares_greaterEqual : Compares .bvsge .bvuge (· ≥ ·) := by
  intro w p q
  constructor
  · simp [BinaryTag.apply, BitVec.sle]
  · simp [BinaryTag.apply, BitVec.ule]

/-- On operands of one width the four sign cases compare the numbers. -/
theorem eval_signCases {signedTag unsignedTag : BinaryTag}
    {R : Int -> Int -> Prop} [DecidableRel R]
    (hR : Compares signedTag unsignedTag R) {m : Model SolverVar}
    {f g : Formula} {s t : Bool} {w : Nat} {p q : BitVec w}
    (hf : f.eval m = some ⟨w, p⟩) (hg : g.eval m = some ⟨w, q⟩) :
    (signCases signedTag unsignedTag (f, s) (g, t)).eval m =
      some (SizedBits.ofBool
        (decide (R (SizedBits.num s ⟨w, p⟩) (SizedBits.num t ⟨w, q⟩)))) := by
  have hsext : forall z : BitVec w,
      (z.signExtend (w + 1)).toInt = SizedBits.num true ⟨w, z⟩ := fun z =>
    SizedBits.num_signExtend 1 ⟨w, z⟩
  have hzext : forall z : BitVec w,
      (z.setWidth (w + 1)).toInt = SizedBits.num false ⟨w, z⟩ := fun z =>
    SizedBits.num_true_zeroExtend_one ⟨w, z⟩
  cases s <;> cases t
  · simp only [signCases, Bool.and_self, Bool.false_eq_true, if_false,
      Bool.or_self, Bool.not_false, if_true, Term.eval, hf, hg,
      SizedBits.binary_mk, (hR p q).2, SizedBits.num_unsigned]
    rfl
  · simp only [signCases, Bool.false_and, Bool.false_eq_true, if_false,
      Bool.false_or, Bool.not_true, Term.eval, hf, hg, Option.map_some,
      SizedBits.zeroExtend, SizedBits.signExtend, SizedBits.binary_mk,
      (hR _ _).1, hsext, hzext]
  · simp only [signCases, Bool.and_false, Bool.false_eq_true, if_false,
      Bool.or_false, Bool.not_true, if_true, Term.eval, hf, hg,
      Option.map_some, SizedBits.zeroExtend, SizedBits.signExtend,
      SizedBits.binary_mk, (hR _ _).1, hsext, hzext]
  · simp only [signCases, Bool.and_self, if_true, Term.eval, hf, hg,
      SizedBits.binary_mk, (hR p q).1, SizedBits.num_signed]
    rfl

theorem eval_signCases_none {signedTag unsignedTag : BinaryTag}
    {m : Model SolverVar} {f g : Formula} {s t : Bool} {x y : SizedBits}
    (hf : f.eval m = some x) (hg : g.eval m = some y) (hw : y.width ≠ x.width) :
    (signCases signedTag unsignedTag (f, s) (g, t)).eval m = none := by
  have hsucc : y.width + 1 ≠ x.width + 1 := fun h => hw (Nat.succ.inj h)
  cases s <;> cases t
  · simp [signCases, Term.eval, hf, hg, SizedBits.binary_eq_none hw]
  · simp [signCases, Term.eval, hf, hg, SizedBits.binary, hw]
  · simp [signCases, Term.eval, hf, hg, SizedBits.binary, hw]
  · simp [signCases, Term.eval, hf, hg, SizedBits.binary_eq_none hw]

/-!
## Operands
-/

/-- The bit-vector and the sign that a sub-expression is translated to. -/
def Operand (m : Model SolverVar) (n : Node) (x : SizedBits) (s : Bool) : Prop :=
  exists f, MetaSMTVisitor.translate n = .ok (f, s) ∧ f.eval m = some x

theorem Operand.extendExpr {m : Model SolverVar} {n : Node} {x : SizedBits}
    {s : Bool} (h : Operand m n x s) (k : Nat) :
    Operand m (.extendExpr n k) (x.extend s k) s := by
  rcases h with ⟨f, htr, hev⟩
  refine ⟨(visitExtendExpr k (f, s)).1, ?_, ?_⟩
  · simp only [MetaSMTVisitor.translate, htr]
    cases s <;> rfl
  · cases s <;> simp [visitExtendExpr, Term.eval, hev, SizedBits.extend]

theorem Operand.evalBinExpr_left {m : Model SolverVar} (fst snd : StackEntry)
    {x : SizedBits} {s : Bool} (hx : Operand m fst.1 x s) :
    Operand m (FixWidthVisitor.evalBinExpr fst snd).1.1 (x.extend s (snd.2 - fst.2)) s := by
  unfold FixWidthVisitor.evalBinExpr
  split
  · exact hx.extendExpr _
  · next hge =>
      rw [Nat.sub_eq_zero_of_le (Nat.le_of_not_lt hge), SizedBits.extend_zero]
      split
      · exact hx
      · exact hx

theorem Operand.evalBinExpr_right {m : Model SolverVar} (fst snd : StackEntry)
    {y : SizedBits} {t : Bool} (hy : Operand m snd.1 y t) :
    Operand m (FixWidthVisitor.evalBinExpr fst snd).2.1 (y.extend t (fst.2 - snd.2)) t := by
  unfold FixWidthVisitor.evalBinExpr
  split
  · next hlt =>
      rw [Nat.sub_eq_zero_of_le hlt.le, SizedBits.extend_zero]
      exact hy
  · split
    · exact hy.extendExpr _
    · next hge =>
        rw [Nat.sub_eq_zero_of_le (Nat.le_of_not_lt hge), SizedBits.extend_zero]
        exact hy

theorem Operand.evalBinExpr {m : Model SolverVar} (fst snd : StackEntry)
    {x y : SizedBits} {s t : Bool} (hx : Operand m fst.1 x s)
    (hy : Operand m snd.1 y t) :
    Operand m (evalBinExpr fst snd).1.1 (x.extend s (snd.2 - fst.2)) s ∧
      Operand m (evalBinExpr fst snd).2.1 (y.extend t (fst.2 - snd.2)) t :=
  ⟨hx.evalBinExpr_left fst snd, hy.evalBinExpr_right fst snd⟩

theorem nodeHolds_fixWidth_binaryOpr {m : Model SolverVar} (op : BinaryOperator)
    {l r : Node} {x y : SizedBits} {s t : Bool}
    (hl : Operand m (fixWidth l) x s) (hr : Operand m (fixWidth r) y t) :
    exists f g : Formula,
      f.eval m = some (x.extend s (recordedWidth r - recordedWidth l)) ∧
      g.eval m = some (y.extend t (recordedWidth l - recordedWidth r)) ∧
      (NodeHolds m (fixWidth (.binaryOpr op l r)) ↔
        Term.Holds m (visitBinaryOpr op (f, s) (g, t)).1) := by
  rcases Operand.evalBinExpr (FixWidthVisitor.visit l) (FixWidthVisitor.visit r) hl hr with
    ⟨⟨f, hf, hfev⟩, ⟨g, hg, hgev⟩⟩
  refine ⟨f, g, hfev, hgev, ?_⟩
  unfold NodeHolds fixWidth
  simp only [FixWidthVisitor.visit, visitBinaryOpr_eq, MetaSMTVisitor.translate, hf, hg]

/-!
## Exactness
-/

inductive RelationalOperator where
  | less
  | lessEqual
  | greater
  | greaterEqual
  | equal
  | notEqual
deriving DecidableEq, Repr

namespace RelationalOperator

def opr : RelationalOperator -> BinaryOperator
  | less => .lessOpr
  | lessEqual => .lessEqualOpr
  | greater => .greaterOpr
  | greaterEqual => .greaterEqualOpr
  | equal => .equalOpr
  | notEqual => .notEqualOpr

def Rel : RelationalOperator -> Int -> Int -> Prop
  | less, a, b => a < b
  | lessEqual, a, b => a ≤ b
  | greater, a, b => a > b
  | greaterEqual, a, b => a ≥ b
  | equal, a, b => a = b
  | notEqual, a, b => a ≠ b

def holds (op : RelationalOperator) (a b : Int) : Bool :=
  match op with
  | less => a < b
  | lessEqual => a ≤ b
  | greater => a > b
  | greaterEqual => a ≥ b
  | equal => a = b
  | notEqual => a ≠ b

theorem holds_iff (op : RelationalOperator) (a b : Int) :
    op.holds a b = true ↔ op.Rel a b := by
  cases op <;> simp [holds, Rel]

end RelationalOperator

/-- The formula built for a relational operator on two sub-expressions. -/
def RelationHolds (m : Model SolverVar) (op : RelationalOperator) (l r : Node) :
    Prop :=
  NodeHolds m (fixWidth (.binaryOpr op.opr l r))

/-- The operators decide the relations of the numbers `a` and `b`; exactly one
of less, equal and greater holds, and the others are the complements. -/
structure RelationalExact (m : Model SolverVar) (l r : Node) (a b : Int) : Prop where
  exact : forall op, RelationHolds m op l r ↔ op.Rel a b
  one_holds :
    (RelationHolds m .less l r ∧ ¬ RelationHolds m .equal l r ∧
        ¬ RelationHolds m .greater l r) ∨
      (¬ RelationHolds m .less l r ∧ RelationHolds m .equal l r ∧
        ¬ RelationHolds m .greater l r) ∨
      (¬ RelationHolds m .less l r ∧ ¬ RelationHolds m .equal l r ∧
        RelationHolds m .greater l r)
  lessEqual_compl : RelationHolds m .lessEqual l r ↔ ¬ RelationHolds m .greater l r
  greaterEqual_compl : RelationHolds m .greaterEqual l r ↔ ¬ RelationHolds m .less l r
  notEqual_compl : RelationHolds m .notEqual l r ↔ ¬ RelationHolds m .equal l r

theorem RelationalExact.of_exact {m : Model SolverVar} {l r : Node} {a b : Int}
    (h : forall op, RelationHolds m op l r ↔ op.Rel a b) :
    RelationalExact m l r a b := by
  refine ⟨h, ?_, ?_, ?_, ?_⟩
  · simp only [h, RelationalOperator.Rel]
    omega
  · simp only [h, RelationalOperator.Rel]
    omega
  · simp only [h, RelationalOperator.Rel]
    omega
  · simp only [h, RelationalOperator.Rel, ne_eq]

/-- The common width of the operands of a binary operator after width fixing,
when the extensions make them meet. -/
def MeetAt (l r : Node) (x y : SizedBits) (w : Nat) : Prop :=
  x.width + (recordedWidth r - recordedWidth l) = w ∧
    y.width + (recordedWidth l - recordedWidth r) = w

/-- Two different numbers that share one bit pattern of width `w`: one of them
is negative and the other is larger by `2 ^ w`. -/
def SameBits (w : Nat) (a b : Int) : Prop :=
  a + 2 ^ w = b ∨ b + 2 ^ w = a

theorem sameBits_or_eq_iff {w : Nat} (s t : Bool) (p q : BitVec w) :
    p = q ↔ SizedBits.num s ⟨w, p⟩ = SizedBits.num t ⟨w, q⟩ ∨
      SameBits w (SizedBits.num s ⟨w, p⟩) (SizedBits.num t ⟨w, q⟩) := by
  rw [SizedBits.bits_eq_iff_num_emod_eq s t]
  have hp := SizedBits.num_bounds s ⟨w, p⟩
  have hq := SizedBits.num_bounds t ⟨w, q⟩
  have hpos : (0 : Int) < 2 ^ w := by positivity
  simp only at hp hq
  generalize SizedBits.num s ⟨w, p⟩ = a at hp ⊢
  generalize SizedBits.num t ⟨w, q⟩ = b at hq ⊢
  unfold SameBits
  push_cast at hp hq ⊢
  generalize (2 ^ w : Int) = k at hp hq hpos ⊢
  constructor
  · intro h
    have hdvd : k ∣ a - b := Int.ModEq.dvd (Int.ModEq.symm h)
    rcases hdvd with ⟨c, hc⟩
    have hlow : -2 < c := by
      by_contra hle
      have hmul : k * c ≤ k * -2 := Int.mul_le_mul_of_nonneg_left (by omega) hpos.le
      omega
    have hhigh : c < 2 := by
      by_contra hge
      have hmul : k * 2 ≤ k * c := Int.mul_le_mul_of_nonneg_left (by omega) hpos.le
      omega
    have hcases : c = -1 ∨ c = 0 ∨ c = 1 := by omega
    rcases hcases with rfl | rfl | rfl
    · omega
    · omega
    · omega
  · rintro (h | h | h)
    · rw [h]
    · rw [← h, Int.add_emod_right]
    · rw [← h, Int.add_emod_right]

/-- When the operands meet, the orderings are exact and equality compares bits. -/
theorem relationHolds_of_meetAt {m : Model SolverVar} {l r : Node}
    {x y : SizedBits} {s t : Bool} {w : Nat}
    (hl : Operand m (fixWidth l) x s) (hr : Operand m (fixWidth r) y t)
    (hmeet : MeetAt l r x y w) (op : RelationalOperator) :
    RelationHolds m op l r ↔
      match op with
      | .equal => x.num s = y.num t ∨ SameBits w (x.num s) (y.num t)
      | .notEqual => ¬ (x.num s = y.num t ∨ SameBits w (x.num s) (y.num t))
      | op => op.Rel (x.num s) (y.num t) := by
  rcases nodeHolds_fixWidth_binaryOpr op.opr hl hr with
    ⟨f, g, hf, hg, hholds⟩
  have hx : SizedBits.num s _ = x.num s :=
    SizedBits.num_extend s (recordedWidth r - recordedWidth l) x
  have hy : SizedBits.num t _ = y.num t :=
    SizedBits.num_extend t (recordedWidth l - recordedWidth r) y
  have hxw := SizedBits.width_extend s (recordedWidth r - recordedWidth l) x
  have hyw := SizedBits.width_extend t (recordedWidth l - recordedWidth r) y
  rw [hmeet.1] at hxw
  rw [hmeet.2] at hyw
  generalize x.extend s (recordedWidth r - recordedWidth l) = X at hf hx hxw
  generalize y.extend t (recordedWidth l - recordedWidth r) = Y at hg hy hyw
  rcases X with ⟨_, p⟩
  rcases Y with ⟨_, q⟩
  simp only at hxw hyw
  subst hxw
  subst hyw
  unfold RelationHolds
  rw [hholds, ← hx, ← hy]
  have hof : forall b : Bool,
      (some (SizedBits.ofBool b) = some (SizedBits.ofBool true)) ↔ b = true := by
    intro b
    cases b <;> decide
  cases op with
  | less =>
      simp only [RelationalOperator.opr, MetaSMTVisitor.visitBinaryOpr, visitLessOpr, Term.Holds,
        eval_signCases compares_less hf hg, hof, decide_eq_true_eq,
        RelationalOperator.Rel]
  | lessEqual =>
      simp only [RelationalOperator.opr, MetaSMTVisitor.visitBinaryOpr, visitLessEqualOpr,
        Term.Holds, eval_signCases compares_lessEqual hf hg, hof,
        decide_eq_true_eq, RelationalOperator.Rel]
  | greater =>
      simp only [RelationalOperator.opr, MetaSMTVisitor.visitBinaryOpr, visitGreaterOpr,
        Term.Holds, eval_signCases compares_greater hf hg, hof,
        decide_eq_true_eq, RelationalOperator.Rel]
  | greaterEqual =>
      simp only [RelationalOperator.opr, MetaSMTVisitor.visitBinaryOpr, visitGreaterEqualOpr,
        Term.Holds, eval_signCases compares_greaterEqual hf hg, hof,
        decide_eq_true_eq, RelationalOperator.Rel]
  | equal =>
      simp only [RelationalOperator.opr, MetaSMTVisitor.visitBinaryOpr, equalityOpr, Term.Holds,
        Term.eval, hf, hg, SizedBits.binary_mk, BinaryTag.apply, hof, beq_iff_eq]
      exact sameBits_or_eq_iff s t p q
  | notEqual =>
      simp only [RelationalOperator.opr, MetaSMTVisitor.visitBinaryOpr, equalityOpr, Term.Holds,
        Term.eval, hf, hg, SizedBits.binary_mk, BinaryTag.apply, hof, bne_iff_ne,
        ne_eq]
      exact not_congr (sameBits_or_eq_iff s t p q)

theorem not_relationHolds_of_not_meet {m : Model SolverVar} {l r : Node}
    {x y : SizedBits} {s t : Bool} (hl : Operand m (fixWidth l) x s)
    (hr : Operand m (fixWidth r) y t)
    (hmeet : ¬ exists w, MeetAt l r x y w) (op : RelationalOperator) :
    ¬ RelationHolds m op l r := by
  rcases nodeHolds_fixWidth_binaryOpr op.opr hl hr with
    ⟨f, g, hf, hg, hholds⟩
  have hne : (y.extend t (recordedWidth l - recordedWidth r)).width ≠
      (x.extend s (recordedWidth r - recordedWidth l)).width := by
    simp only [SizedBits.width_extend]
    intro h
    exact hmeet ⟨_, rfl, h⟩
  unfold RelationHolds
  rw [hholds]
  have hnone : (visitBinaryOpr op.opr (f, s) (g, t)).1.eval m = none := by
    cases op with
    | less => exact eval_signCases_none hf hg hne
    | lessEqual => exact eval_signCases_none hf hg hne
    | greater => exact eval_signCases_none hf hg hne
    | greaterEqual => exact eval_signCases_none hf hg hne
    | equal =>
        simp only [RelationalOperator.opr, MetaSMTVisitor.visitBinaryOpr, equalityOpr, Term.eval,
          hf, hg, SizedBits.binary_eq_none hne]
    | notEqual =>
        simp only [RelationalOperator.opr, MetaSMTVisitor.visitBinaryOpr, equalityOpr, Term.eval,
          hf, hg, SizedBits.binary_eq_none hne]
  unfold Term.Holds
  rw [hnone]
  intro h
  cases h

/-- The six operators are exact on two operands if and only if the operands
meet at a width at which their numbers do not share a bit pattern. -/
theorem relational_exact_iff {m : Model SolverVar} {l r : Node}
    {x y : SizedBits} {s t : Bool} (hl : Operand m (fixWidth l) x s)
    (hr : Operand m (fixWidth r) y t) :
    RelationalExact m l r (x.num s) (y.num t) ↔
      exists w, MeetAt l r x y w ∧ ¬ SameBits w (x.num s) (y.num t) := by
  constructor
  · intro h
    by_cases hmeet : exists w, MeetAt l r x y w
    · rcases hmeet with ⟨w, hw⟩
      refine ⟨w, hw, fun hsame => ?_⟩
      have hequal := (relationHolds_of_meetAt hl hr hw .equal).mpr (Or.inr hsame)
      have heq : x.num s = y.num t := (h.exact .equal).mp hequal
      have hpos : (0 : Int) < 2 ^ w := by positivity
      unfold SameBits at hsame
      omega
    · have hnone := not_relationHolds_of_not_meet hl hr hmeet
      rcases h.one_holds with hlt | heq | hgt
      · exact absurd hlt.1 (hnone .less)
      · exact absurd heq.2.1 (hnone .equal)
      · exact absurd hgt.2.2 (hnone .greater)
  · rintro ⟨w, hw, hsame⟩
    refine RelationalExact.of_exact fun op => ?_
    rw [relationHolds_of_meetAt hl hr hw op]
    cases op with
    | equal => simp [hsame, RelationalOperator.Rel]
    | notEqual => simp [hsame, RelationalOperator.Rel]
    | _ => exact Iff.rfl

/-!
A signed and an unsigned variable of one width: a negative value and the value
with the same bits are both less and equal.
-/

def signedByte : Node := .variableExpr 1 8 true

def unsignedByte : Node := .variableExpr 2 8 false

def allOnes : Model SolverVar := fun _ => 255

theorem signedByte_operand :
    Operand allOnes (fixWidth signedByte) ⟨8, 255#8⟩ true :=
  ⟨.var (.terminal 1) 8, rfl, rfl⟩

theorem unsignedByte_operand :
    Operand allOnes (fixWidth unsignedByte) ⟨8, 255#8⟩ false :=
  ⟨.var (.terminal 2) 8, rfl, rfl⟩

theorem mixed_sign_equal_and_less :
    Operand allOnes (fixWidth signedByte) ⟨8, 255#8⟩ true ∧
      Operand allOnes (fixWidth unsignedByte) ⟨8, 255#8⟩ false ∧
      RelationHolds allOnes .less signedByte unsignedByte ∧
      RelationHolds allOnes .equal signedByte unsignedByte ∧
      ¬ RelationalExact allOnes signedByte unsignedByte
        (SizedBits.num true ⟨8, 255#8⟩) (SizedBits.num false ⟨8, 255#8⟩) := by
  have hequal : RelationHolds allOnes .equal signedByte unsignedByte := by
    unfold RelationHolds
    decide
  have hless : RelationHolds allOnes .less signedByte unsignedByte := by
    unfold RelationHolds
    decide
  refine ⟨signedByte_operand, unsignedByte_operand, hless, hequal, ?_⟩
  intro h
  have hnum : SizedBits.num true ⟨8, 255#8⟩ = SizedBits.num false ⟨8, 255#8⟩ :=
    (h.exact .equal).mp hequal
  revert hnum
  decide

theorem relational_exact_iff_bytes :
    RelationalExact allOnes signedByte unsignedByte
        (SizedBits.num true ⟨8, 255#8⟩) (SizedBits.num false ⟨8, 255#8⟩) ↔
      exists w, MeetAt signedByte unsignedByte ⟨8, 255#8⟩ ⟨8, 255#8⟩ w ∧
        ¬ SameBits w (SizedBits.num true ⟨8, 255#8⟩)
          (SizedBits.num false ⟨8, 255#8⟩) :=
  relational_exact_iff signedByte_operand unsignedByte_operand

end Backend
end Crave
