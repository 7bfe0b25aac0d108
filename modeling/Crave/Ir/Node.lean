import Mathlib.Data.Finset.Basic
import Mathlib.Data.Finset.Union

/-!
# Expression nodes

The expression tree that the front end builds and that every visitor walks.
Operators that the visitors treat alike share a constructor and differ in an
operator tag.
-/

namespace Crave
namespace Ir

/-- A host constant: a 64-bit pattern with the width and sign it was built for. -/
structure Constant where
  value : BitVec 64
  bitsize : Nat
  sign : Bool
deriving DecidableEq, Repr

namespace Constant

def ofBool (b : Bool) : Constant :=
  { value := if b then 1 else 0, bitsize := 1, sign := true }

/-- `Constant()`, the value the evaluator pushes for what it does not know. -/
def unknown : Constant :=
  { value := 0, bitsize := 1, sign := true }

def isBool (c : Constant) : Bool :=
  c.bitsize == 1 && c.sign

end Constant

inductive UnaryOperator where
  | notOpr
  | negOpr
  | complementOpr
deriving DecidableEq, Repr

inductive BinaryOperator where
  | andOpr
  | orOpr
  | logicalAndOpr
  | logicalOrOpr
  | xorOpr
  | equalOpr
  | notEqualOpr
  | lessOpr
  | lessEqualOpr
  | greaterOpr
  | greaterEqualOpr
  | plusOpr
  | minusOpr
  | multipliesOpr
  | devideOpr
  | moduloOpr
  | shiftLeftOpr
  | shiftRightOpr
deriving DecidableEq, Repr

inductive Node where
  | placeholder (id : Nat)
  | variableExpr (id bitsize : Nat) (sign : Bool)
  | constant (c : Constant)
  | vectorExpr (id bitsize : Nat) (sign : Bool)
  | unaryOpr (op : UnaryOperator) (child : Node)
  | inside (child : Node) (collection : List Constant)
  | extendExpr (child : Node) (value : Nat)
  | binaryOpr (op : BinaryOperator) (lhs rhs : Node)
  | vectorAccess (lhs rhs : Node)
  | ifThenElse (a b c : Node)
  | forEach (lhs rhs : Node)
  | unique (child : Node)
  | bitslice (child : Node) (r l : Nat)
deriving DecidableEq, Repr

/-- `bitsize_traits<placeholder_tag>`, the width of `unsigned`. -/
def placeholder_bitsize : Nat := 32

namespace Node

/-!
## Support sets

`GetSupportSetVisitor` collects the identifiers of the variables and vectors of
an expression.
-/

def supportVars : Node -> Finset Nat
  | placeholder _ => ∅
  | variableExpr id _ _ => {id}
  | constant _ => ∅
  | vectorExpr id _ _ => {id}
  | unaryOpr _ child => child.supportVars
  | inside child _ => child.supportVars
  | extendExpr child _ => child.supportVars
  | binaryOpr _ lhs rhs => lhs.supportVars ∪ rhs.supportVars
  | vectorAccess lhs rhs => lhs.supportVars ∪ rhs.supportVars
  | ifThenElse a b c => a.supportVars ∪ b.supportVars ∪ c.supportVars
  | forEach lhs rhs => lhs.supportVars ∪ rhs.supportVars
  | unique child => child.supportVars
  | bitslice child _ _ => child.supportVars

/-- `boost::dynamic_pointer_cast<ForEach>(n) != 0` -/
def isForEach : Node -> Bool
  | forEach _ _ => true
  | _ => false

/-- `boost::dynamic_pointer_cast<Unique>(n) != 0` -/
def isUnique : Node -> Bool
  | unique _ => true
  | _ => false

/-- Every expression inside an expression, itself included. -/
def subterms : Node -> List Node
  | placeholder id => [placeholder id]
  | variableExpr id bitsize sign => [variableExpr id bitsize sign]
  | constant c => [constant c]
  | vectorExpr id bitsize sign => [vectorExpr id bitsize sign]
  | unaryOpr op child => unaryOpr op child :: child.subterms
  | inside child collection => inside child collection :: child.subterms
  | extendExpr child value => extendExpr child value :: child.subterms
  | binaryOpr op lhs rhs =>
      binaryOpr op lhs rhs :: (lhs.subterms ++ rhs.subterms)
  | vectorAccess lhs rhs =>
      vectorAccess lhs rhs :: (lhs.subterms ++ rhs.subterms)
  | ifThenElse a b c =>
      ifThenElse a b c :: (a.subterms ++ b.subterms ++ c.subterms)
  | forEach lhs rhs => forEach lhs rhs :: (lhs.subterms ++ rhs.subterms)
  | unique child => unique child :: child.subterms
  | bitslice child r l => bitslice child r l :: child.subterms

theorem self_mem_subterms (n : Node) : n ∈ n.subterms := by
  cases n <;> simp [subterms]

end Node
end Ir
end Crave
