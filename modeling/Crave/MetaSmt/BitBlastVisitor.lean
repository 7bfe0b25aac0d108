import Crave.Backend.WellSorted
import Crave.MetaSmt.BitBlastOperators

/-!
# The visitor on the bit-blaster

`metaSMTVisitorImpl` is a template over the solver.  On the bit-blaster its results are
predicates and vectors of predicates, and a Boolean variable is a predicate while every
other variable is a vector.  The module has that instance of the visitor.
-/

namespace Crave
namespace MetaSmt

open Foundation Ir Backend

/-- `solver_` and `terminals_`: the number of variables that the solver has made, and the
result for each identifier that was met. -/
structure VisitorState (result_base : Type) where
  size : Nat
  terminals_ : Nat -> Option (Result result_base)

namespace BitBlastVisitor

variable {result_base : Type} (_solver : PredicateSolver result_base)

abbrev Entry (result_base : Type) := Result result_base × Bool

/-- `new_variable` and `new_bitvector`, on the variables from the given one on. -/
def terminal (first : Nat) : Kind -> Result result_base
  | .predicate => .base (_solver.var_tag first)
  | .vector width => BitBlast.bitvector _solver first width

def visitVariableExpr (id bitsize : Nat) (sign : Bool) (st : VisitorState result_base) :
    Entry result_base × VisitorState result_base :=
  match st.terminals_ id with
  | some result => ((result, sign), st)
  | none =>
      let kind := variableKind bitsize sign
      let result := terminal _solver st.size kind
      ((result, sign),
        { size := st.size + kind.width
          terminals_ := Function.update st.terminals_ id (some result) })

def visitConstant (c : Constant) : Entry result_base :=
  if c.isBool then
    (.base (if c.value = 0 then _solver.false_tag else _solver.true_tag), c.sign)
  else if c.sign then
    (BitBlast.bvsint _solver c.value c.bitsize, c.sign)
  else
    (BitBlast.bvuint _solver c.value.toNat c.bitsize, c.sign)

/-- `exprStack_.push` of what `evaluate` returns. -/
def push (sign : Bool) (e : Except String (Result result_base)) :
    Except String (Entry result_base) :=
  match e with
  | .error msg => .error msg
  | .ok result => .ok (result, sign)

def visitUnaryOpr (op : UnaryOperator) (entry : Entry result_base) :
    Except String (Entry result_base) :=
  push entry.2 (BitBlast.unary _solver (unaryTag op) entry.1)

def insideStep (entry : Entry result_base) (result : Result result_base) (c : Constant) :
    Except String (Result result_base) :=
  match BitBlast.binary _solver .equal entry.1 (visitConstant _solver c).1 with
  | .error msg => .error msg
  | .ok eq => BitBlast.binary _solver .or result eq

def visitInside (entry : Entry result_base) (collection : List Constant) :
    Except String (Entry result_base) :=
  push false (collection.foldlM (insideStep _solver entry) (.base _solver.false_tag))

def extend (sign : Bool) (value : Nat) (result : Result result_base) :
    Except String (Result result_base) :=
  if sign then BitBlast.sign_extend value result else BitBlast.zero_extend _solver value result

def visitExtendExpr (value : Nat) (entry : Entry result_base) :
    Except String (Entry result_base) :=
  push entry.2 (extend _solver entry.2 value entry.1)

def numberOpr (tag : BinaryTag) (fst snd : Entry result_base) :
    Except String (Entry result_base) :=
  push (fst.2 || snd.2) (BitBlast.binary _solver tag fst.1 snd.1)

def equalityOpr (tag : BinaryTag) (fst snd : Entry result_base) :
    Except String (Entry result_base) :=
  push false (BitBlast.binary _solver tag fst.1 snd.1)

def shiftOpr (tag : BinaryTag) (fst snd : Entry result_base) :
    Except String (Entry result_base) :=
  push fst.2 (BitBlast.binary _solver tag fst.1 snd.1)

/-- Operands of different signs: both are widened by one bit. -/
def widened (tag : BinaryTag) (lhs_p rhs_p : Entry result_base) :
    Except String (Result result_base) :=
  match extend _solver lhs_p.2 1 lhs_p.1 with
  | .error msg => .error msg
  | .ok lhs =>
      match extend _solver rhs_p.2 1 rhs_p.1 with
      | .error msg => .error msg
      | .ok rhs => BitBlast.binary _solver tag lhs rhs

def signCases (signedTag unsignedTag : BinaryTag) (lhs_p rhs_p : Entry result_base) :
    Except String (Result result_base) :=
  if lhs_p.2 && rhs_p.2 then
    BitBlast.binary _solver signedTag lhs_p.1 rhs_p.1
  else if !(lhs_p.2 || rhs_p.2) then
    BitBlast.binary _solver unsignedTag lhs_p.1 rhs_p.1
  else
    widened _solver signedTag lhs_p rhs_p

def visitBinaryOpr (op : BinaryOperator) (fst snd : Entry result_base) :
    Except String (Entry result_base) :=
  match op with
  | .andOpr => numberOpr _solver .bvand fst snd
  | .orOpr => numberOpr _solver .bvor fst snd
  | .logicalAndOpr => numberOpr _solver .and fst snd
  | .logicalOrOpr => numberOpr _solver .or fst snd
  | .xorOpr => numberOpr _solver .bvxor fst snd
  | .equalOpr => equalityOpr _solver .equal fst snd
  | .notEqualOpr => equalityOpr _solver .nequal fst snd
  | .lessOpr => push false (signCases _solver .bvslt .bvult fst snd)
  | .lessEqualOpr => push false (signCases _solver .bvsle .bvule fst snd)
  | .greaterOpr => push false (signCases _solver .bvsgt .bvugt fst snd)
  | .greaterEqualOpr => push false (signCases _solver .bvsge .bvuge fst snd)
  | .plusOpr => numberOpr _solver .bvadd fst snd
  | .minusOpr => numberOpr _solver .bvsub fst snd
  | .multipliesOpr => numberOpr _solver .bvmul fst snd
  | .devideOpr => push (fst.2 || snd.2) (signCases _solver .bvsdiv .bvudiv fst snd)
  | .moduloOpr => numberOpr _solver (if fst.2 then .bvsrem else .bvurem) fst snd
  | .shiftLeftOpr => shiftOpr _solver .bvshl fst snd
  | .shiftRightOpr => shiftOpr _solver .bvshr fst snd

def visitIfThenElse (fst snd trd : Entry result_base) : Except String (Entry result_base) :=
  match BitBlast.binary _solver .equal fst.1 (.base _solver.true_tag) with
  | .error msg => .error msg
  | .ok c => push false (BitBlast.ite _solver c snd.1 trd.1)

def visitBitslice (r l : Nat) (entry : Entry result_base) : Except String (Entry result_base) :=
  push false (BitBlast.extract r l entry.1)

/-- The result of the last operation, with the state after its operands. -/
def withState (st : VisitorState result_base) (e : Except String (Entry result_base)) :
    Except String (Entry result_base × VisitorState result_base) :=
  match e with
  | .error msg => .error msg
  | .ok entry => .ok (entry, st)

def visit : Node -> VisitorState result_base ->
    Except String (Entry result_base × VisitorState result_base)
  | .placeholder _, _ => .error "exprStack_.size() >= 1"
  | .variableExpr id bitsize sign, st => .ok (visitVariableExpr _solver id bitsize sign st)
  | .constant c, st => .ok (visitConstant _solver c, st)
  | .vectorExpr _ _ _, _ => .error "VectorExpr is not allowed in metaSMTNodeVisitor."
  | .unaryOpr op child, st =>
      match visit child st with
      | .error msg => .error msg
      | .ok (entry, st) => withState st (visitUnaryOpr _solver op entry)
  | .inside child collection, st =>
      match visit child st with
      | .error msg => .error msg
      | .ok (entry, st) => withState st (visitInside _solver entry collection)
  | .extendExpr child value, st =>
      match visit child st with
      | .error msg => .error msg
      | .ok (entry, st) => withState st (visitExtendExpr _solver value entry)
  | .binaryOpr op lhs rhs, st =>
      match visit lhs st with
      | .error msg => .error msg
      | .ok (fst, st) =>
          match visit rhs st with
          | .error msg => .error msg
          | .ok (snd, st) => withState st (visitBinaryOpr _solver op fst snd)
  | .vectorAccess _ _, _ => .error "VectorAccess is not allowed in metaSMTNodeVisitor."
  | .ifThenElse a b c, st =>
      match visit a st with
      | .error msg => .error msg
      | .ok (fst, st) =>
          match visit b st with
          | .error msg => .error msg
          | .ok (snd, st) =>
              match visit c st with
              | .error msg => .error msg
              | .ok (trd, st) => withState st (visitIfThenElse _solver fst snd trd)
  | .forEach _ _, _ => .error "ForEach is not allowed in metaSMTNodeVisitor."
  | .unique _, _ => .error "Unique is not allowed in metaSMTNodeVisitor."
  | .bitslice child r l, st =>
      match visit child st with
      | .error msg => .error msg
      | .ok (entry, st) => withState st (visitBitslice r l entry)

end BitBlastVisitor
end MetaSmt
end Crave
