import Crave.MetaSmt.PredicateSolver
import Mathlib.Data.List.Basic

/-!
# The bit-blaster

`BitBlast` makes a solver for bit-vectors out of a solver for predicates: a bit-vector is
the vector of its bits, the lowest one first, and every operation is a circuit over the
predicates.  A result is either a predicate or a vector of bits; taking it for the other
kind throws.
-/

namespace Crave
namespace MetaSmt

/-- `boost::variant<result_base, bv_result>` -/
inductive Result (result_base : Type) where
  | base (e : result_base)
  | bv (bits : List result_base)
deriving DecidableEq, Repr

namespace Result

variable {result_base : Type}

/-- `boost::get<result_base>` -/
def getBase : Result result_base -> Except String result_base
  | base e => .ok e
  | bv _ => .error "boost::bad_get"

/-- `boost::get<bv_result>` -/
def getBv : Result result_base -> Except String (List result_base)
  | base _ => .error "boost::bad_get"
  | bv bits => .ok bits

end Result

namespace BitBlast

variable {result_base : Type} (_solver : PredicateSolver result_base)

/-- The two vectors that an operation works on, with the check of their sizes. -/
def operands (arg1 arg2 : Result result_base) :
    Except String (List result_base × List result_base) :=
  match arg1.getBv with
  | .error e => .error e
  | .ok a =>
      match arg2.getBv with
      | .error e => .error e
      | .ok b => if a.length = b.length then .ok (a, b) else .error "a.size()==b.size()"

/-!
## Variables and constants
-/

/-- `var_tag`: the first of the variables has the given index. -/
def bitvector (first width : Nat) : Result result_base :=
  .bv ((List.range width).map fun i => _solver.var_tag (first + i))

def bvuint (value width : Nat) : Result result_base :=
  .bv ((List.range width).map fun i =>
    if (value >>> i).testBit 0 then _solver.true_tag else _solver.false_tag)

/-- `bvsint_tag`: the shift of a signed number keeps the sign. -/
def bvsint (value : BitVec 64) (width : Nat) : Result result_base :=
  .bv ((List.range width).map fun i =>
    if (value.sshiftRight i).getLsbD 0 then _solver.true_tag else _solver.false_tag)

/-!
## Bitwise operations
-/

def bitwise (tag : result_base -> result_base -> result_base) (arg1 arg2 : Result result_base) :
    Except String (Result result_base) :=
  match operands arg1 arg2 with
  | .error e => .error e
  | .ok (a, b) => .ok (.bv (List.zipWith tag a b))

def bvand (arg1 arg2 : Result result_base) : Except String (Result result_base) :=
  bitwise _solver.and_tag arg1 arg2

def bvor (arg1 arg2 : Result result_base) : Except String (Result result_base) :=
  bitwise _solver.or_tag arg1 arg2

def bvxor (arg1 arg2 : Result result_base) : Except String (Result result_base) :=
  bitwise _solver.xor_tag arg1 arg2

def bvnot (arg1 : Result result_base) : Except String (Result result_base) :=
  match arg1.getBv with
  | .error e => .error e
  | .ok a => .ok (.bv (a.map _solver.not_tag))

/-!
## Predicates

Equality and the conditional work on predicates when one of their operands is no vector;
the other connectives work on predicates only.
-/

/-- The fallback for an operator with two operands. -/
def fallback (tag : result_base -> result_base -> result_base) (arg1 arg2 : Result result_base) :
    Except String (Result result_base) :=
  match arg1.getBase with
  | .error e => .error e
  | .ok a =>
      match arg2.getBase with
      | .error e => .error e
      | .ok b => .ok (.base (tag a b))

def not (arg1 : Result result_base) : Except String (Result result_base) :=
  match arg1.getBase with
  | .error e => .error e
  | .ok a => .ok (.base (_solver.not_tag a))

def and (arg1 arg2 : Result result_base) : Except String (Result result_base) :=
  fallback _solver.and_tag arg1 arg2

def or (arg1 arg2 : Result result_base) : Except String (Result result_base) :=
  fallback _solver.or_tag arg1 arg2

def implies (arg1 arg2 : Result result_base) : Except String (Result result_base) :=
  fallback _solver.implies_tag arg1 arg2

/-- The bits are compared one by one, from the lowest one on. -/
def collect (tag join : result_base -> result_base -> result_base) (unit : result_base)
    (a b : List result_base) : result_base :=
  (a.zip b).foldl (fun ret bit => join (tag bit.1 bit.2) ret) unit

def equal (arg1 arg2 : Result result_base) : Except String (Result result_base) :=
  match arg1, arg2 with
  | .bv a, .bv b =>
      if a.length = b.length then
        .ok (.base (collect _solver.equal_tag _solver.and_tag _solver.true_tag a b))
      else
        .error "a.size()==b.size()"
  | _, _ => fallback _solver.equal_tag arg1 arg2

def nequal (arg1 arg2 : Result result_base) : Except String (Result result_base) :=
  match arg1, arg2 with
  | .bv a, .bv b =>
      if a.length = b.length then
        .ok (.base (collect _solver.nequal_tag _solver.or_tag _solver.false_tag a b))
      else
        .error "a.size()==b.size()"
  | _, _ => fallback _solver.nequal_tag arg1 arg2

def ite (arg1 arg2 arg3 : Result result_base) : Except String (Result result_base) :=
  match arg1.getBase with
  | .error e => .error e
  | .ok c =>
      match arg2, arg3 with
      | .bv a, .bv b =>
          if a.length = b.length then .ok (.bv (List.zipWith (_solver.ite_tag c) a b))
          else .error "a.size()==b.size()"
      | _, _ => fallback (_solver.ite_tag c) arg2 arg3

/-!
## Comparisons

The bits are compared from the highest one down.  The comparisons differ in what the
highest bits and the lower bits have to be, and in whether equal operands count.
-/

def less (a b : result_base) : result_base :=
  _solver.and_tag (_solver.not_tag a) b

def great (a b : result_base) : result_base :=
  _solver.and_tag a (_solver.not_tag b)

/-- The body of the loops: `ret` and `equal` after a lower bit. -/
def compareStep (now : result_base -> result_base -> result_base)
    (bit : result_base × result_base) (state : result_base × result_base) :
    result_base × result_base :=
  (_solver.or_tag state.1 (_solver.and_tag state.2 (now bit.1 bit.2)),
    _solver.and_tag (_solver.xnor_tag bit.1 bit.2) state.2)

def compare (top now : result_base -> result_base -> result_base) (orEqual : Bool)
    (arg1 arg2 : Result result_base) : Except String (Result result_base) :=
  match operands arg1 arg2 with
  | .error e => .error e
  | .ok (a, b) =>
      match (a.zip b).reverse with
      | [] => .error "a.size()>0"
      | bit :: rest =>
          let state := rest.foldl (fun state bit => compareStep _solver now bit state)
            (top bit.1 bit.2, _solver.xnor_tag bit.1 bit.2)
          .ok (.base (if orEqual then _solver.or_tag state.1 state.2 else state.1))

def bvult (arg1 arg2 : Result result_base) : Except String (Result result_base) :=
  compare _solver (less _solver) (less _solver) false arg1 arg2

def bvugt (arg1 arg2 : Result result_base) : Except String (Result result_base) :=
  compare _solver (great _solver) (great _solver) false arg1 arg2

def bvsgt (arg1 arg2 : Result result_base) : Except String (Result result_base) :=
  compare _solver (less _solver) (great _solver) false arg1 arg2

def bvslt (arg1 arg2 : Result result_base) : Except String (Result result_base) :=
  compare _solver (great _solver) (less _solver) false arg1 arg2

def bvule (arg1 arg2 : Result result_base) : Except String (Result result_base) :=
  compare _solver (less _solver) (less _solver) true arg1 arg2

def bvuge (arg1 arg2 : Result result_base) : Except String (Result result_base) :=
  compare _solver (great _solver) (great _solver) true arg1 arg2

def bvsge (arg1 arg2 : Result result_base) : Except String (Result result_base) :=
  compare _solver (less _solver) (great _solver) true arg1 arg2

def bvsle (arg1 arg2 : Result result_base) : Except String (Result result_base) :=
  compare _solver (great _solver) (less _solver) true arg1 arg2

/-!
## Widening and slices
-/

def zero_extend (width : Nat) (arg1 : Result result_base) : Except String (Result result_base) :=
  match arg1.getBv with
  | .error e => .error e
  | .ok a => .ok (.bv (a ++ List.replicate width _solver.false_tag))

def sign_extend (width : Nat) (arg1 : Result result_base) : Except String (Result result_base) :=
  match arg1.getBv with
  | .error e => .error e
  | .ok a =>
      match a.getLast? with
      | none => .error "!a.empty()"
      | some back => .ok (.bv (a ++ List.replicate width back))

/-- The vector has to have the bits that are copied. -/
def extract (upper lower : Nat) (e : Result result_base) : Except String (Result result_base) :=
  match e with
  | .base _ => .error "expected bitvector here."
  | .bv bits =>
      if lower ≤ upper ∧ upper < bits.length then
        .ok (.bv ((bits.drop lower).take (upper - lower + 1)))
      else
        .error "bv.begin()+upper+1"

/-- `shiftR`, with the bit that comes in at the top. -/
def shiftR (a : List result_base) (value : Nat) (x : result_base) : List result_base :=
  (List.range a.length).map fun i => a.getD (value + i) x

def shiftL (a : List result_base) (value : Nat) : List result_base :=
  (List.range a.length).map fun i =>
    if i < value then _solver.false_tag else a.getD (i - value) _solver.false_tag

/-!
## Arithmetic
-/

/-- The loop of `bvadd_tag`. -/
def adder : List result_base -> List result_base -> result_base -> List result_base
  | a :: as, b :: bs, carry =>
      _solver.xor_tag (_solver.xor_tag a b) carry ::
        adder as bs (_solver.or_tag (_solver.and_tag a b)
          (_solver.and_tag carry (_solver.or_tag a b)))
  | _, _, _ => []

def bvadd (arg1 arg2 : Result result_base) : Except String (Result result_base) :=
  match operands arg1 arg2 with
  | .error e => .error e
  | .ok (a, b) => .ok (.bv (adder _solver a b _solver.false_tag))

def bvneg (arg1 : Result result_base) : Except String (Result result_base) :=
  match arg1.getBv with
  | .error e => .error e
  | .ok a =>
      match bvnot _solver arg1 with
      | .error e => .error e
      | .ok tmp2 =>
          bvadd _solver tmp2
            (.bv ((List.replicate a.length _solver.false_tag).set 0 _solver.true_tag))

def bvsub (arg1 arg2 : Result result_base) : Except String (Result result_base) :=
  match bvneg _solver arg2 with
  | .error e => .error e
  | .ok tmp => bvadd _solver arg1 tmp

/-- The body of the loop of `bvmul_tag`. -/
def addShifted (w : Nat) (arg2 ret : Result result_base) (bit : result_base × Nat) :
    Except String (Result result_base) :=
  match sign_extend (w - 1) (.bv [bit.1]) with
  | .error e => .error e
  | .ok tmp1 =>
      match bvand _solver arg2 tmp1 with
      | .error e => .error e
      | .ok tmp1 =>
          match tmp1.getBv with
          | .error e => .error e
          | .ok bits => bvadd _solver ret (.bv (shiftL _solver bits bit.2))

def bvmul (arg1 arg2 : Result result_base) : Except String (Result result_base) :=
  match arg1.getBv with
  | .error e => .error e
  | .ok a =>
      a.zipIdx.foldlM (addShifted _solver a.length arg2)
        (.bv (List.replicate a.length _solver.false_tag))

/-!
## Shifts

One case for every distance below the width; the longer distances keep the first value.
-/

def shiftCase (w : Nat) (shifted : Nat -> List result_base) (value ret : Result result_base)
    (i : Nat) : Except String (Result result_base) :=
  match equal _solver value (bvuint _solver i w) with
  | .error e => .error e
  | .ok eq => ite _solver eq (.bv (shifted i)) ret

def bvshr (arg1 value : Result result_base) : Except String (Result result_base) :=
  match arg1.getBv with
  | .error e => .error e
  | .ok a =>
      (List.range a.length).foldlM
        (shiftCase _solver a.length (fun i => shiftR a i _solver.false_tag) value)
        (.bv (List.replicate a.length _solver.false_tag))

def bvshl (arg1 value : Result result_base) : Except String (Result result_base) :=
  match arg1.getBv with
  | .error e => .error e
  | .ok a =>
      (List.range a.length).foldlM (shiftCase _solver a.length (shiftL _solver a) value)
        (.bv (List.replicate a.length _solver.false_tag))

/-!
## Division
-/

/-- The body of the first loop of `uDivRem`: the divisor is shifted up until its highest
bit is set. -/
def normaliseStep (divisor : Result result_base) : Except String (Result result_base) :=
  match divisor.getBv with
  | .error e => .error e
  | .ok b =>
      match b.getLast? with
      | none => .error "b.back()"
      | some tmp => ite _solver (.base tmp) divisor (.bv (shiftL _solver b 1))

def normalise : Nat -> Result result_base -> Except String (Result result_base)
  | 0, divisor => .ok divisor
  | n + 1, divisor =>
      match normaliseStep _solver divisor with
      | .error e => .error e
      | .ok divisor => normalise n divisor

/-- The variables of the second loop of `uDivRem`. -/
structure DivRem (result_base : Type) where
  arg1 : Result result_base
  divisor : Result result_base
  ret : List result_base
  checker : Result result_base

/-- The body of the second loop. -/
def divRemStep (w : Nat) (arg2 : Result result_base) (i : Nat) (st : DivRem result_base) :
    Except String (DivRem result_base) := do
  let do_devide <- bvuge _solver st.arg1 st.divisor
  let eq <- equal _solver st.divisor arg2
  let difference <- bvsub _solver st.arg1 st.divisor
  let arg1 <- ite _solver do_devide difference st.arg1
  let bits <- st.divisor.getBv
  let divisor <- ite _solver eq st.divisor (.bv (shiftR bits 1 _solver.false_tag))
  let do_devide <- ite _solver st.checker (.base _solver.false_tag) do_devide
  let bit <- do_devide.getBase
  let ret := st.ret.set (w - i) bit
  let bo <- ite _solver st.checker (.bv (shiftR ret 1 _solver.false_tag)) (.bv ret)
  let ret <- bo.getBv
  let checker <- ite _solver eq (.base _solver.true_tag) st.checker
  return { arg1 := arg1, divisor := divisor, ret := ret, checker := checker }

def divRem (w : Nat) (arg2 : Result result_base) :
    Nat -> DivRem result_base -> Except String (DivRem result_base)
  | 0, st => .ok st
  | n + 1, st =>
      match divRem w arg2 n st with
      | .error e => .error e
      | .ok st => divRemStep _solver w arg2 (n + 1) st

def uDivRem (arg1 arg2 : Result result_base) (value : Bool) :
    Except String (Result result_base) := do
  let a <- arg1.getBv
  let _ <- arg2.getBv
  let divisor <- normalise _solver a.length arg2
  let st <- divRem _solver a.length arg2 a.length
    { arg1 := arg1, divisor := divisor, ret := List.replicate a.length _solver.false_tag
      checker := .base _solver.false_tag }
  return if value then .bv st.ret else st.arg1

/-- The highest bit of a vector that is not empty. -/
def back (bits : List result_base) : Except String result_base :=
  match bits.getLast? with
  | none => .error "a.back()"
  | some bit => .ok bit

def sDivRem (arg1 arg2 : Result result_base) (value : Bool) :
    Except String (Result result_base) := do
  let a <- arg1.getBv
  let b <- arg2.getBv
  let tmp1 <- bvneg _solver arg1
  let tmp2 <- bvneg _solver arg2
  let signA <- back a
  let signB <- back b
  let aneg <- ite _solver (.base signA) tmp1 arg1
  let bneg <- ite _solver (.base signB) tmp2 arg2
  let test <- uDivRem _solver aneg bneg value
  let negated <- bvneg _solver test
  ite _solver (.base (_solver.xor_tag signA signB)) negated test

def bvudiv (arg1 arg2 : Result result_base) : Except String (Result result_base) :=
  uDivRem _solver arg1 arg2 true

def bvurem (arg1 arg2 : Result result_base) : Except String (Result result_base) :=
  uDivRem _solver arg1 arg2 false

def bvsdiv (arg1 arg2 : Result result_base) : Except String (Result result_base) :=
  sDivRem _solver arg1 arg2 true

def bvsrem (arg1 arg2 : Result result_base) : Except String (Result result_base) :=
  sDivRem _solver arg1 arg2 false

end BitBlast
end MetaSmt
end Crave
