import Crave.Ir.Node

/-!
# Width fixing

`FixWidthVisitor` rebuilds an expression bottom up, records a width for every
rebuilt node and puts an `ExtendExpression` around the narrower operand of a
binary operator.  The recorded width is the second component of a stack entry.
-/

namespace Crave
namespace Ir
namespace FixWidthVisitor

abbrev StackEntry := Node × Nat

/-- `evalBinExpr` with `fixWidth` set: the narrower operand is extended. -/
def evalBinExpr (fst snd : StackEntry) : StackEntry × StackEntry :=
  if fst.2 < snd.2 then
    ((.extendExpr fst.1 (snd.2 - fst.2), snd.2), snd)
  else if snd.2 < fst.2 then
    (fst, (.extendExpr snd.1 (fst.2 - snd.2), fst.2))
  else
    (fst, snd)

def visitNumberResultBinExpr (op : BinaryOperator) (fst snd : StackEntry) :
    StackEntry :=
  let (lhs, rhs) := evalBinExpr fst snd
  (.binaryOpr op lhs.1 rhs.1, lhs.2)

def visitBooleanResultBinExpr (op : BinaryOperator) (fst snd : StackEntry) :
    StackEntry :=
  let (lhs, rhs) := evalBinExpr fst snd
  (.binaryOpr op lhs.1 rhs.1, 1)

def visitNumberResultUnaryExpr (op : UnaryOperator) (e : StackEntry) :
    StackEntry :=
  (.unaryOpr op e.1, e.2)

/-- Which of the two binary schemes each operator's visit function uses. -/
def visitBinaryOpr : BinaryOperator -> StackEntry -> StackEntry -> StackEntry
  | .andOpr => visitNumberResultBinExpr .andOpr
  | .orOpr => visitNumberResultBinExpr .orOpr
  | .logicalAndOpr => visitBooleanResultBinExpr .logicalAndOpr
  | .logicalOrOpr => visitBooleanResultBinExpr .logicalOrOpr
  | .xorOpr => visitNumberResultBinExpr .xorOpr
  | .equalOpr => visitBooleanResultBinExpr .equalOpr
  | .notEqualOpr => visitBooleanResultBinExpr .notEqualOpr
  | .lessOpr => visitBooleanResultBinExpr .lessOpr
  | .lessEqualOpr => visitBooleanResultBinExpr .lessEqualOpr
  | .greaterOpr => visitBooleanResultBinExpr .greaterOpr
  | .greaterEqualOpr => visitBooleanResultBinExpr .greaterEqualOpr
  | .plusOpr => visitNumberResultBinExpr .plusOpr
  | .minusOpr => visitNumberResultBinExpr .minusOpr
  | .multipliesOpr => visitNumberResultBinExpr .multipliesOpr
  | .devideOpr => visitNumberResultBinExpr .devideOpr
  | .moduloOpr => visitNumberResultBinExpr .moduloOpr
  | .shiftLeftOpr => visitNumberResultBinExpr .shiftLeftOpr
  | .shiftRightOpr => visitNumberResultBinExpr .shiftRightOpr

def visit : Node -> StackEntry
  | .placeholder id => (.placeholder id, placeholder_bitsize)
  | .variableExpr id bitsize sign => (.variableExpr id bitsize sign, bitsize)
  | .constant c => (.constant c, c.bitsize)
  | .vectorExpr id bitsize sign => (.vectorExpr id bitsize sign, bitsize)
  | .unaryOpr op child => visitNumberResultUnaryExpr op (visit child)
  | .inside child collection => (.inside (visit child).1 collection, 1)
  | .extendExpr child value =>
      (.extendExpr (visit child).1 value, (visit child).2)
  | .binaryOpr op lhs rhs => visitBinaryOpr op (visit lhs) (visit rhs)
  | .vectorAccess lhs rhs =>
      (.vectorAccess (visit lhs).1 (visit rhs).1, (visit lhs).2)
  | .ifThenElse a b c =>
      (.ifThenElse (visit a).1 (visit b).1 (visit c).1, (visit a).2)
  | .forEach lhs rhs => (.forEach (visit lhs).1 (visit rhs).1, 1)
  | .unique child => (.unique (visit child).1, (visit child).2)
  | .bitslice child r l => (.bitslice (visit child).1 r l, r - l + 1)

def fixWidth (n : Node) : Node :=
  (visit n).1

/-- The width that the visitor records for an expression. -/
def recordedWidth (n : Node) : Nat :=
  (visit n).2

/-- The two operands of a binary operator after `evalBinExpr`, with the width
that both are recorded with. -/
theorem evalBinExpr_eq (fst snd : StackEntry) :
    (evalBinExpr fst snd).1.2 = max fst.2 snd.2 ∧
      (evalBinExpr fst snd).2.2 = max fst.2 snd.2 := by
  unfold evalBinExpr
  split
  · simp only
    omega
  · split
    · simp only
      omega
    · simp only
      omega

/-- The operators whose visit function records the width one. -/
def isBooleanResult : BinaryOperator -> Bool
  | .logicalAndOpr | .logicalOrOpr | .equalOpr | .notEqualOpr | .lessOpr
  | .lessEqualOpr | .greaterOpr | .greaterEqualOpr => true
  | _ => false

theorem visitBinaryOpr_eq (op : BinaryOperator) (fst snd : StackEntry) :
    visitBinaryOpr op fst snd =
      (.binaryOpr op (evalBinExpr fst snd).1.1 (evalBinExpr fst snd).2.1,
        if isBooleanResult op then 1 else max fst.2 snd.2) := by
  have h := (evalBinExpr_eq fst snd).1
  cases op <;>
    simp [visitBinaryOpr, visitNumberResultBinExpr, visitBooleanResultBinExpr,
      isBooleanResult, h]

end FixWidthVisitor

open FixWidthVisitor

end Ir
end Crave
