import Crave.Foundation.BitVectorTerm
import Crave.Ir.Node

/-!
# Sorts of expressions

A result of a solver is a predicate or a vector of some width, and the operators take results
of the right kinds only.  The sort of an expression is the kind and the sign of the entry that
`metaSMTVisitorImpl` leaves on its stack; an expression without a sort makes `evaluate` throw.
-/

namespace Crave
namespace Ir

/-- The sign of the result of a binary operator, from those of its operands. -/
def binarySign (op : BinaryOperator) (lhs rhs : Bool) : Bool :=
  match op with
  | .equalOpr | .notEqualOpr | .lessOpr | .lessEqualOpr | .greaterOpr
  | .greaterEqualOpr => false
  | .shiftLeftOpr | .shiftRightOpr => lhs
  | _ => lhs || rhs

end Ir

namespace MetaSmt

open Foundation Ir

/-- What a result is, whatever its value. -/
inductive Kind where
  | predicate
  | vector (width : Nat)
deriving DecidableEq, Repr

namespace Kind

def width : Kind -> Nat
  | predicate => 1
  | vector width => width

/-- A vector without bits is none that a variable or a constant has. -/
def Positive (k : Kind) : Prop :=
  0 < k.width

end Kind

namespace BitBlast

def unaryKind : UnaryTag -> Kind -> Option Kind
  | .not, .predicate => some .predicate
  | .bvnot, .vector w => some (.vector w)
  | .bvneg, .vector w => some (.vector w)
  | _, _ => none

/-- The kind of the result, from that of the two operands. -/
def resultKind : BinaryTag -> Kind -> Option Kind
  | .equal, _ => some .predicate
  | .nequal, _ => some .predicate
  | .and, .predicate => some .predicate
  | .or, .predicate => some .predicate
  | .implies, .predicate => some .predicate
  | .and, .vector _ => none
  | .or, .vector _ => none
  | .implies, .vector _ => none
  | _, .predicate => none
  | .bvslt, .vector _ => some .predicate
  | .bvsle, .vector _ => some .predicate
  | .bvsgt, .vector _ => some .predicate
  | .bvsge, .vector _ => some .predicate
  | .bvult, .vector _ => some .predicate
  | .bvule, .vector _ => some .predicate
  | .bvugt, .vector _ => some .predicate
  | .bvuge, .vector _ => some .predicate
  | _, .vector w => some (.vector w)

def binaryKind (tag : BinaryTag) (x y : Kind) : Option Kind :=
  if x = y then resultKind tag x else none

def extendKind (width : Nat) : Kind -> Option Kind
  | .predicate => none
  | .vector w => some (.vector (w + width))

def extractKind (upper lower : Nat) : Kind -> Option Kind
  | .predicate => none
  | .vector w => if lower ≤ upper ∧ upper < w then some (.vector (upper - lower + 1)) else none

def iteKind (c x y : Kind) : Option Kind :=
  if c = .predicate ∧ x = y then some x else none

end BitBlast

namespace BitBlastVisitor

def unaryTag : UnaryOperator -> UnaryTag
  | .notOpr => .not
  | .negOpr => .bvneg
  | .complementOpr => .bvnot

def variableKind (bitsize : Nat) (sign : Bool) : Kind :=
  if bitsize == 1 && sign then .predicate else .vector bitsize

def constantKind (c : Constant) : Kind :=
  if c.isBool then .predicate else .vector c.bitsize

def unarySort (op : UnaryOperator) (entry : Kind × Bool) : Option (Kind × Bool) :=
  (BitBlast.unaryKind (unaryTag op) entry.1).map (·, entry.2)

def insideSort (entry : Kind × Bool) (collection : List Constant) : Option (Kind × Bool) :=
  if forall c, c ∈ collection -> constantKind c = entry.1 then some (.predicate, false) else none

def extendSort (value : Nat) (entry : Kind × Bool) : Option (Kind × Bool) :=
  (BitBlast.extendKind value entry.1).map (·, entry.2)

def widenedKind (tag : BinaryTag) (lhs rhs : Kind) : Option Kind :=
  match BitBlast.extendKind 1 lhs, BitBlast.extendKind 1 rhs with
  | some k, some k' => BitBlast.binaryKind tag k k'
  | _, _ => none

def signCasesKind (signedTag unsignedTag : BinaryTag) (lhs_p rhs_p : Kind × Bool) : Option Kind :=
  if lhs_p.2 && rhs_p.2 then
    BitBlast.binaryKind signedTag lhs_p.1 rhs_p.1
  else if !(lhs_p.2 || rhs_p.2) then
    BitBlast.binaryKind unsignedTag lhs_p.1 rhs_p.1
  else
    widenedKind signedTag lhs_p.1 rhs_p.1

def binaryOprKind (op : BinaryOperator) (fst snd : Kind × Bool) : Option Kind :=
  match op with
  | .andOpr => BitBlast.binaryKind .bvand fst.1 snd.1
  | .orOpr => BitBlast.binaryKind .bvor fst.1 snd.1
  | .logicalAndOpr => BitBlast.binaryKind .and fst.1 snd.1
  | .logicalOrOpr => BitBlast.binaryKind .or fst.1 snd.1
  | .xorOpr => BitBlast.binaryKind .bvxor fst.1 snd.1
  | .equalOpr => BitBlast.binaryKind .equal fst.1 snd.1
  | .notEqualOpr => BitBlast.binaryKind .nequal fst.1 snd.1
  | .lessOpr => signCasesKind .bvslt .bvult fst snd
  | .lessEqualOpr => signCasesKind .bvsle .bvule fst snd
  | .greaterOpr => signCasesKind .bvsgt .bvugt fst snd
  | .greaterEqualOpr => signCasesKind .bvsge .bvuge fst snd
  | .plusOpr => BitBlast.binaryKind .bvadd fst.1 snd.1
  | .minusOpr => BitBlast.binaryKind .bvsub fst.1 snd.1
  | .multipliesOpr => BitBlast.binaryKind .bvmul fst.1 snd.1
  | .devideOpr => signCasesKind .bvsdiv .bvudiv fst snd
  | .moduloOpr => BitBlast.binaryKind (if fst.2 then .bvsrem else .bvurem) fst.1 snd.1
  | .shiftLeftOpr => BitBlast.binaryKind .bvshl fst.1 snd.1
  | .shiftRightOpr => BitBlast.binaryKind .bvshr fst.1 snd.1

def binarySort (op : BinaryOperator) (fst snd : Kind × Bool) : Option (Kind × Bool) :=
  (binaryOprKind op fst snd).map (·, binarySign op fst.2 snd.2)

/-- The condition has to be a predicate. -/
def iteSort (fst snd trd : Kind × Bool) : Option (Kind × Bool) :=
  (BitBlast.iteKind fst.1 snd.1 trd.1).map (·, false)

def bitsliceSort (r l : Nat) (entry : Kind × Bool) : Option (Kind × Bool) :=
  (BitBlast.extractKind r l entry.1).map (·, false)

def sort : Node -> Option (Kind × Bool)
  | .placeholder _ => none
  | .variableExpr _ bitsize sign => some (variableKind bitsize sign, sign)
  | .constant c => some (constantKind c, c.sign)
  | .vectorExpr _ _ _ => none
  | .unaryOpr op child => (sort child).bind (unarySort op)
  | .inside child collection => (sort child).bind (insideSort · collection)
  | .extendExpr child value => (sort child).bind (extendSort value)
  | .binaryOpr op lhs rhs => (sort lhs).bind fun fst => (sort rhs).bind (binarySort op fst)
  | .vectorAccess _ _ => none
  | .ifThenElse a b c =>
      (sort a).bind fun fst => (sort b).bind fun snd => (sort c).bind (iteSort fst snd)
  | .forEach _ _ => none
  | .unique _ => none
  | .bitslice child r l => (sort child).bind (bitsliceSort r l)

/-- Whether the expression is a predicate, so that it can be asserted. -/
def isPredicate (n : Node) : Bool :=
  match sort n with
  | some (.predicate, _) => true
  | _ => false

/-- `b() == 1` for a Boolean variable: the width visitor extends a predicate. -/
example : isPredicate (.binaryOpr .equalOpr (.extendExpr (.variableExpr 1 1 true) 31)
    (.constant ⟨1, 32, true⟩)) = false := by
  decide

end BitBlastVisitor

/-!
## What a solver takes
-/

/-- The expressions that can be asserted to a solver.  `evaluate` throws on a term that it
cannot sort, and so does the comparison with `True` of a term that is no predicate; how
strict a solver is differs, but none throws on a predicate. -/
structure SortCheck where
  accepts : Node -> Bool
  predicate : forall n, BitBlastVisitor.isPredicate n = true -> accepts n = true

namespace SortCheck

/-- Solvers that tell predicates and vectors of one bit apart. -/
def strict : SortCheck :=
  { accepts := BitBlastVisitor.isPredicate
    predicate := fun _ h => h }

end SortCheck

end MetaSmt

namespace Ir
namespace Node

/-- The expression with the widths that its variables were met with before. -/
def withWidths (terminals_ : Nat -> Option Nat) : Node -> Node
  | placeholder id => placeholder id
  | variableExpr id bitsize sign => variableExpr id ((terminals_ id).getD bitsize) sign
  | constant c => constant c
  | vectorExpr id bitsize sign => vectorExpr id bitsize sign
  | unaryOpr op child => unaryOpr op (child.withWidths terminals_)
  | inside child collection => inside (child.withWidths terminals_) collection
  | extendExpr child value => extendExpr (child.withWidths terminals_) value
  | binaryOpr op lhs rhs =>
      binaryOpr op (lhs.withWidths terminals_) (rhs.withWidths terminals_)
  | vectorAccess lhs rhs =>
      vectorAccess (lhs.withWidths terminals_) (rhs.withWidths terminals_)
  | ifThenElse a b c =>
      ifThenElse (a.withWidths terminals_) (b.withWidths terminals_) (c.withWidths terminals_)
  | forEach lhs rhs => forEach (lhs.withWidths terminals_) (rhs.withWidths terminals_)
  | unique child => unique (child.withWidths terminals_)
  | bitslice child r l => bitslice (child.withWidths terminals_) r l

end Node
end Ir
end Crave
