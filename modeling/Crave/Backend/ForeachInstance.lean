import Crave.Backend.VectorBody
import Crave.Foundation.TwosComplement
import Crave.Ir.IndexArithmetic
import Mathlib.Data.BitVec

/-!
# Instances of a foreach

What the instance of a `foreach` for one index is meant to be, with the subscripts of
its accesses taken as integers, and when `ReplaceVisitor` produces it.
-/

namespace Crave
namespace Backend

open Foundation Ir ReplaceVisitor

/-!
## Index expressions as integers
-/

def integerOf (c : Constant) : Int :=
  if c.sign then c.value.toInt else c.value.toNat

def unaryInteger : UnaryOperator -> Int -> Int
  | .notOpr, idx => boolInt (idx == 0)
  | .negOpr, idx => -idx
  | .complementOpr, idx => -idx - 1

def binaryInteger : BinaryOperator -> Int -> Int -> Option Int
  | .andOpr, l_val, r_val => some (Int.land l_val r_val)
  | .orOpr, l_val, r_val => some (Int.lor l_val r_val)
  | .xorOpr, l_val, r_val => some (Int.xor l_val r_val)
  | .logicalAndOpr, l_val, r_val => some (boolInt (l_val != 0 && r_val != 0))
  | .logicalOrOpr, l_val, r_val => some (boolInt (l_val != 0 || r_val != 0))
  | .equalOpr, l_val, r_val => some (boolInt (l_val == r_val))
  | .notEqualOpr, l_val, r_val => some (boolInt (l_val != r_val))
  | .lessOpr, l_val, r_val => some (boolInt (l_val < r_val))
  | .lessEqualOpr, l_val, r_val => some (boolInt (l_val ≤ r_val))
  | .greaterOpr, l_val, r_val => some (boolInt (l_val > r_val))
  | .greaterEqualOpr, l_val, r_val => some (boolInt (l_val ≥ r_val))
  | .plusOpr, l_val, r_val => some (l_val + r_val)
  | .minusOpr, l_val, r_val => some (l_val - r_val)
  | .multipliesOpr, l_val, r_val => some (l_val * r_val)
  | .devideOpr, l_val, r_val => if r_val = 0 then none else some (l_val.tdiv r_val)
  | .moduloOpr, l_val, r_val => if r_val = 0 then none else some (l_val.tmod r_val)
  | .shiftLeftOpr, l_val, r_val => if 0 ≤ r_val then some (l_val * 2 ^ r_val.toNat) else none
  | .shiftRightOpr, l_val, r_val => if 0 ≤ r_val then some (l_val >>> r_val.toNat) else none

/-- The value of a logical operator that its first operand decides. -/
def decided : BinaryOperator -> Int -> Option Int
  | .logicalAndOpr, l_val => if l_val = 0 then some 0 else none
  | .logicalOrOpr, l_val => if l_val = 0 then none else some 1
  | _, _ => none

/-- The integer that an index expression stands for.  Only the branch that is chosen and
the operands that count have to stand for one. -/
def integer (i : Nat) : Node -> Option Int
  | .placeholder _ => some i
  | .constant c => some (integerOf c)
  | .unaryOpr op child => (integer i child).map (unaryInteger op)
  | .extendExpr child _ => integer i child
  | .binaryOpr op lhs rhs =>
      match integer i lhs with
      | none => none
      | some l_val =>
          match decided op l_val with
          | some k => some k
          | none =>
              match integer i rhs with
              | none => none
              | some r_val => binaryInteger op l_val r_val
  | .ifThenElse a b c =>
      match integer i a with
      | none => none
      | some a_val => if a_val ≠ 0 then integer i b else integer i c
  | _ => none

/-!
## The instance that is meant
-/

/-- The index expressions of the accesses of a body. -/
def indices : Node -> List Node
  | .unaryOpr _ child => indices child
  | .inside child _ => indices child
  | .extendExpr child _ => indices child
  | .binaryOpr _ lhs rhs => indices lhs ++ indices rhs
  | .vectorAccess _ rhs => [rhs]
  | .ifThenElse a b c => indices a ++ indices b ++ indices c
  | .bitslice child _ _ => indices child
  | _ => []

/-- Every index expression stands for a position of a vector of the given size. -/
def IndicesInRange (i size : Nat) (body : Node) : Prop :=
  forall e, e ∈ indices body -> exists k : Int, integer i e = some k ∧ 0 ≤ k ∧ k < size

/-- The body for one index, where every access is the variable of its element. -/
def instanceOf (d : VarDecl) (ids : List Nat) (i : Nat) : Node -> Node
  | .unaryOpr op child => .unaryOpr op (instanceOf d ids i child)
  | .placeholder _ => .constant ⟨BitVec.ofNat 64 i, placeholder_bitsize, false⟩
  | .inside child collection => .inside (instanceOf d ids i child) collection
  | .extendExpr child value => .extendExpr (instanceOf d ids i child) value
  | .binaryOpr op lhs rhs => .binaryOpr op (instanceOf d ids i lhs) (instanceOf d ids i rhs)
  | .vectorAccess lhs rhs =>
      match integer i rhs with
      | some k => .variableExpr (ids.getD k.toNat 0) d.bitsize d.sign
      | none => .vectorAccess lhs rhs
  | .ifThenElse a b c =>
      .ifThenElse (instanceOf d ids i a) (instanceOf d ids i b) (instanceOf d ids i c)
  | .bitslice child r l => .bitslice (instanceOf d ids i child) r l
  | n => n

/-- The visit of a `foreach` for one index ends normally, accepts the instance exactly when
all index expressions are in range, and then has made the instance that is meant. -/
def InstanceCorrect (i v : Nat) (d : VarDecl) (body : Node) (es : List Element) : Prop :=
  exists (node : Node) (idx : Int) (st : State),
    visit i (.forEach (.vectorExpr v d.bitsize d.sign) body) ⟨es, true⟩ =
        .ok (node, idx, st) ∧
      (st.okay_ = true ↔ IndicesInRange i es.length body) ∧
      (IndicesInRange i es.length body ->
        node = instanceOf d (es.map Element.id) i body)

/-!
## Where the visitor computes with integers
-/

/-- The sums, differences, products and negations of a body before they wrap around, with
variables and elements as zero. -/
def sums (i : Nat) : Node -> List Int
  | .unaryOpr op child =>
      sums i child ++
        match op, auxiliary i child with
        | .negOpr, some k => [-k]
        | _, _ => []
  | .inside child _ => sums i child
  | .extendExpr child _ => sums i child
  | .binaryOpr op lhs rhs =>
      sums i lhs ++ sums i rhs ++
        match op, auxiliary i lhs, auxiliary i rhs with
        | .plusOpr, some l_val, some r_val => [l_val + r_val]
        | .minusOpr, some l_val, some r_val => [l_val - r_val]
        | .multipliesOpr, some l_val, some r_val => [l_val * r_val]
        | _, _, _ => []
  | .vectorAccess lhs rhs => sums i lhs ++ sums i rhs
  | .ifThenElse a b c => sums i a ++ sums i b ++ sums i c
  | .forEach _ rhs => sums i rhs
  | .bitslice child _ _ => sums i child
  | _ => []

/-- The constants of an index expression are `int`s and its left shifts stay in `int`. -/
def Exact (i : Nat) : Node -> Prop
  | .constant c => IsInt (integerOf c)
  | .unaryOpr _ child => Exact i child
  | .extendExpr child _ => Exact i child
  | .binaryOpr op lhs rhs =>
      Exact i lhs ∧ Exact i rhs ∧
        (op = .shiftLeftOpr -> forall l_val r_val, integer i lhs = some l_val ->
          integer i rhs = some r_val -> IsInt (l_val * 2 ^ r_val.toNat))
  | .ifThenElse a b c => Exact i a ∧ Exact i b ∧ Exact i c
  | _ => True

/-- The host arithmetic of the body is defined: divisions and shifts are safe and no sum
leaves the range of `int`. -/
def ArithmeticDefined (i : Nat) (body : Node) : Prop :=
  (forall a, a ∈ applications body -> a.Safe i) ∧ forall k, k ∈ sums i body -> IsInt k

/-- The visitor computes with the integers that are meant. -/
structure Accurate (i size : Nat) (body : Node) : Prop where
  size : size < 2 ^ 31
  defined : ArithmeticDefined i body
  exact_index : forall e, e ∈ indices body -> Exact i e

/-- The subscripts of the visitor name the elements that the integers name. -/
def SameTargets (i : Nat) (ids : List Nat) (body : Node) : Prop :=
  forall e, e ∈ indices body -> forall k k' : Int, subscript i e = some k ->
    integer i e = some k' -> ids[k.toNat]? = ids[k'.toNat]?

/-- What the subscripts of the visitor have to agree on with the integers. -/
structure Agrees (i : Nat) (ids : List Nat) (body : Node) : Prop where
  defined : ArithmeticDefined i body
  verdict : IndicesInRange i ids.length body ↔
    InRange (castInt ids.length).toNat (accessed i body)
  targets : IndicesInRange i ids.length body -> SameTargets i ids body

section Arithmetic

variable {i : Nat} {n : Node} {idx : Int}

theorem throws_of_isPlainIndex (h : isPlainIndex n = true) : throws n = false := by
  induction n with
  | placeholder id => rfl
  | constant c => rfl
  | unaryOpr op child ih => exact ih h
  | extendExpr child value ih => exact ih h
  | binaryOpr op lhs rhs ihl ihr =>
      have hboth := Bool.and_eq_true_iff.mp h
      exact Bool.or_eq_false_iff.mpr ⟨ihl hboth.left, ihr hboth.right⟩
  | ifThenElse a b c iha ihb ihc =>
      have hall := Bool.and_eq_true_iff.mp h
      have hboth := Bool.and_eq_true_iff.mp hall.left
      exact Bool.or_eq_false_iff.mpr
        ⟨Bool.or_eq_false_iff.mpr ⟨iha hboth.left, ihb hboth.right⟩, ihc hall.right⟩
  | _ => cases h

theorem throws_of_isForeachBody {v : Nat} {d : VarDecl} (h : isForeachBody v d n = true) :
    throws n = false := by
  induction n with
  | placeholder id => rfl
  | variableExpr id bitsize sign => rfl
  | constant c => rfl
  | vectorExpr id bitsize sign => cases h
  | unaryOpr op child ih => exact ih h
  | inside child collection ih => exact ih h
  | extendExpr child value ih => exact ih h
  | binaryOpr op lhs rhs ihl ihr =>
      have hboth := Bool.and_eq_true_iff.mp h
      exact Bool.or_eq_false_iff.mpr ⟨ihl hboth.left, ihr hboth.right⟩
  | vectorAccess lhs rhs ihl ihr =>
      have hboth := Bool.and_eq_true_iff.mp h
      rw [eq_of_beq hboth.left]
      exact throws_of_isPlainIndex (n := rhs) hboth.right
  | ifThenElse a b c iha ihb ihc =>
      have hall := Bool.and_eq_true_iff.mp h
      have hboth := Bool.and_eq_true_iff.mp hall.left
      exact Bool.or_eq_false_iff.mpr
        ⟨Bool.or_eq_false_iff.mpr ⟨iha hboth.left, ihb hboth.right⟩, ihc hall.right⟩
  | forEach lhs rhs ihl ihr => cases h
  | unique child ih => cases h
  | bitslice child r l ih => exact ih h

theorem isInt_of_checkedInt_eq_some {k : Int} (h : checkedInt idx = some k) : IsInt idx := by
  unfold checkedInt at h
  split at h
  · next hin => exact hin
  · cases h

theorem checkedInt_of_isInt (h : IsInt idx) : checkedInt idx = some idx :=
  if_pos h

/-- An operator with safe operands whose sums are in range has a subscript. -/
theorem exists_binarySubscript {op : BinaryOperator} {lhs rhs : Node} {l_val r_val : Int}
    (hl : auxiliary i lhs = some l_val) (hr : auxiliary i rhs = some r_val)
    (hsafe : SafeOperands op l_val r_val)
    (hsums : forall k, k ∈ sums i (.binaryOpr op lhs rhs) -> IsInt k) :
    exists k, binarySubscript op l_val r_val = some k := by
  simp only [sums, hl, hr, List.forall_mem_append] at hsums
  have hauxiliary := exists_binaryAuxiliary (isInt_auxiliary hl) (isInt_auxiliary hr) hsafe
  cases op with
  | plusOpr => exact ⟨_, checkedInt_of_isInt (List.forall_mem_singleton.mp hsums.right)⟩
  | minusOpr => exact ⟨_, checkedInt_of_isInt (List.forall_mem_singleton.mp hsums.right)⟩
  | multipliesOpr => exact ⟨_, checkedInt_of_isInt (List.forall_mem_singleton.mp hsums.right)⟩
  | _ => exact hauxiliary

theorem exists_subscript (hthrows : throws n = false) (h : ArithmeticDefined i n) :
    exists idx, subscript i n = some idx := by
  induction n with
  | placeholder id => exact ⟨_, rfl⟩
  | variableExpr id bitsize sign => exact ⟨_, rfl⟩
  | constant c => exact ⟨_, rfl⟩
  | vectorExpr id bitsize sign => exact ⟨_, rfl⟩
  | unaryOpr op child ih =>
      have hsums := h.right
      simp only [sums, List.forall_mem_append] at hsums
      cases ih hthrows ⟨h.left, hsums.left⟩ with
      | intro k hk =>
          have hlast := hsums.right
          rw [auxiliary_of_subscript hk] at hlast
          rw [subscript, hk]
          cases op with
          | negOpr => exact ⟨_, checkedInt_of_isInt (List.forall_mem_singleton.mp hlast)⟩
          | _ => exact ⟨_, rfl⟩
  | inside child collection ih => exact ih hthrows h
  | extendExpr child value ih => exact ih hthrows h
  | binaryOpr op lhs rhs ihl ihr =>
      have hthrows' := Bool.or_eq_false_iff.mp hthrows
      have hsums := h.right
      have hsafe := h.left
      simp only [sums, List.forall_mem_append] at hsums
      simp only [applications, hthrows'.left, hthrows'.right, Bool.false_eq_true, if_false,
        List.forall_mem_append, List.forall_mem_singleton] at hsafe
      cases ihl hthrows'.left ⟨hsafe.left, hsums.left.left⟩ with
      | intro l_val hl =>
          cases ihr hthrows'.right ⟨hsafe.right.left, hsums.left.right⟩ with
          | intro r_val hr =>
              have hl' := auxiliary_of_subscript hl
              have hr' := auxiliary_of_subscript hr
              rw [subscript, hl, hr]
              exact exists_binarySubscript hl' hr' (hsafe.right.right l_val r_val hl' hr') h.right
  | vectorAccess lhs rhs ihl ihr =>
      have hthrows' := Bool.or_eq_false_iff.mp hthrows
      have hsums := h.right
      have hsafe := h.left
      simp only [sums, List.forall_mem_append] at hsums
      simp only [applications, hthrows'.left, Bool.false_eq_true, if_false,
        List.forall_mem_append] at hsafe
      cases ihl hthrows'.left ⟨hsafe.left, hsums.left⟩ with
      | intro l_val hl =>
          cases ihr hthrows'.right ⟨hsafe.right, hsums.right⟩ with
          | intro r_val hr =>
              rw [subscript, hl, hr]
              exact ⟨_, rfl⟩
  | ifThenElse a b c iha ihb ihc =>
      have hthrows' := Bool.or_eq_false_iff.mp hthrows
      have hthrowsab := Bool.or_eq_false_iff.mp hthrows'.left
      have hsums := h.right
      have hsafe := h.left
      simp only [sums, List.forall_mem_append] at hsums
      simp only [applications, hthrowsab.left, hthrowsab.right, Bool.false_eq_true, if_false,
        List.forall_mem_append] at hsafe
      cases iha hthrowsab.left ⟨hsafe.left, hsums.left.left⟩ with
      | intro a_val ha =>
          cases ihb hthrowsab.right ⟨hsafe.right.left, hsums.left.right⟩ with
          | intro b_val hb =>
              cases ihc hthrows'.right ⟨hsafe.right.right, hsums.right⟩ with
              | intro c_val hc =>
                  rw [subscript, ha, hb, hc]
                  exact ⟨_, rfl⟩
  | forEach lhs rhs ihl ihr => exact ihr hthrows h
  | unique child ih => cases hthrows
  | bitslice child r l ih =>
      cases ih hthrows h with
      | intro k hk =>
          rw [subscript, hk]
          exact ⟨_, rfl⟩

theorem isInt_sums_of_subscript (h : subscript i n = some idx) :
    forall k, k ∈ sums i n -> IsInt k := by
  induction n generalizing idx with
  | placeholder id => exact List.forall_mem_nil _
  | variableExpr id bitsize sign => exact List.forall_mem_nil _
  | constant c => exact List.forall_mem_nil _
  | vectorExpr id bitsize sign => exact List.forall_mem_nil _
  | unaryOpr op child ih =>
      rw [subscript] at h
      split at h
      · next k hk =>
          simp only [sums, auxiliary_of_subscript hk, List.forall_mem_append]
          constructor
          · exact ih hk
          · cases op with
            | negOpr => exact List.forall_mem_singleton.mpr (isInt_of_checkedInt_eq_some h)
            | _ => exact List.forall_mem_nil _
      · cases h
  | inside child collection ih => exact ih h
  | extendExpr child value ih => exact ih h
  | binaryOpr op lhs rhs ihl ihr =>
      rw [subscript] at h
      split at h
      · next l_val r_val hl hr =>
          simp only [sums, auxiliary_of_subscript hl, auxiliary_of_subscript hr,
            List.forall_mem_append]
          refine ⟨⟨ihl hl, ihr hr⟩, ?_⟩
          cases op with
          | plusOpr => exact List.forall_mem_singleton.mpr (isInt_of_checkedInt_eq_some h)
          | minusOpr => exact List.forall_mem_singleton.mpr (isInt_of_checkedInt_eq_some h)
          | multipliesOpr => exact List.forall_mem_singleton.mpr (isInt_of_checkedInt_eq_some h)
          | _ => exact List.forall_mem_nil _
      · cases h
  | vectorAccess lhs rhs ihl ihr =>
      rw [subscript] at h
      split at h
      · next l_val r_val hl hr =>
          exact List.forall_mem_append.mpr ⟨ihl hl, ihr hr⟩
      · cases h
  | ifThenElse a b c iha ihb ihc =>
      rw [subscript] at h
      split at h
      · next a_val b_val c_val ha hb hc =>
          exact List.forall_mem_append.mpr
            ⟨List.forall_mem_append.mpr ⟨iha ha, ihb hb⟩, ihc hc⟩
      · cases h
  | forEach lhs rhs ihl ihr => exact ihr h
  | unique child ih => cases h
  | bitslice child r l ih =>
      rcases Option.map_eq_some_iff.mp h with ⟨k, hk, _⟩
      exact ih hk

theorem arithmeticDefined_of_subscript (h : subscript i n = some idx) : ArithmeticDefined i n :=
  ⟨safe_of_subscript h, isInt_sums_of_subscript h⟩

/-!
### Subscripts that are integers
-/

theorem toInt_setWidth_value {c : Constant} (h : IsInt (integerOf c)) :
    (c.value.setWidth 32).toInt = integerOf c := by
  unfold IsInt at h
  have hmod : (c.value.setWidth 32).toInt = (integerOf c).bmod (2 ^ 32) := by
    unfold integerOf
    rw [BitVec.toInt_setWidth]
    split
    · rw [BitVec.toInt_eq_toNat_bmod]
      exact (Int.bmod_bmod_of_dvd (by decide)).symm
    · rfl
  rw [hmod]
  exact Int.bmod_eq_of_le (by omega) (by omega)

theorem bitwiseInt_eq {f : BitVec 32 -> BitVec 32 -> BitVec 32} {g : Int -> Int -> Int}
    (h : forall x y, (f x y).toInt = g x.toInt y.toInt) {l_val r_val : Int} (hl : IsInt l_val)
    (hr : IsInt r_val) : bitwiseInt f l_val r_val = g l_val r_val := by
  have hl' : (BitVec.ofInt 32 l_val).toInt = l_val := wrapInt_eq hl
  have hr' : (BitVec.ofInt 32 r_val).toInt = r_val := wrapInt_eq hr
  rw [bitwiseInt, h, hl', hr']

theorem toInt_shiftLeft {l_val : Int} {k : Nat} (h : IsInt (l_val * 2 ^ k)) :
    (BitVec.ofInt 32 l_val <<< k).toInt = l_val * 2 ^ k := by
  have hshift : BitVec.ofInt 32 l_val <<< k = BitVec.ofInt 32 (l_val * 2 ^ k) := by
    rw [BitVec.ofInt_mul, BitVec.shiftLeft_eq_mul_twoPow]
    apply congrArg
    have hpow : (2 ^ k : Int) = ((2 ^ k : Nat) : Int) := by norm_cast
    rw [hpow, BitVec.ofInt_natCast]
    apply BitVec.eq_of_toNat_eq
    rw [BitVec.toNat_twoPow, BitVec.toNat_ofNat]
  rw [hshift]
  exact wrapInt_eq h

theorem eq_of_checkedInt {k : Int} (h : checkedInt idx = some k) : idx = k := by
  unfold checkedInt at h
  split at h
  · exact Option.some.inj h
  · cases h

theorem unaryInteger_of_unarySubscript {op : UnaryOperator} {k : Int}
    (h : unarySubscript op k = some idx) : unaryInteger op k = idx := by
  cases op with
  | negOpr => exact eq_of_checkedInt h
  | _ => exact Option.some.inj h

theorem binaryInteger_of_binarySubscript {op : BinaryOperator} {l_val r_val : Int}
    (hl : IsInt l_val) (hr : IsInt r_val)
    (hshift : op = .shiftLeftOpr -> IsInt (l_val * 2 ^ r_val.toNat))
    (h : binarySubscript op l_val r_val = some idx) :
    binaryInteger op l_val r_val = some idx := by
  cases op with
  | andOpr => rw [binaryInteger, ← bitwiseInt_eq toInt_and hl hr, ← h, binarySubscript]
  | orOpr => rw [binaryInteger, ← bitwiseInt_eq toInt_or hl hr, ← h, binarySubscript]
  | xorOpr => rw [binaryInteger, ← bitwiseInt_eq toInt_xor hl hr, ← h, binarySubscript]
  | plusOpr => exact congrArg some (eq_of_checkedInt h)
  | minusOpr => exact congrArg some (eq_of_checkedInt h)
  | multipliesOpr => exact congrArg some (eq_of_checkedInt h)
  | devideOpr =>
      rw [binarySubscript] at h
      split at h
      · cases h
      · next hne => rw [binaryInteger, if_neg hne, eq_of_checkedInt h]
  | moduloOpr =>
      rw [binarySubscript] at h
      split at h
      · cases h
      · next hne =>
          rcases Option.map_eq_some_iff.mp h with ⟨_, _, hidx⟩
          rw [binaryInteger, if_neg hne, hidx]
  | shiftLeftOpr =>
      rw [binarySubscript] at h
      split at h
      · next hin =>
          rw [toInt_shiftLeft (hshift rfl)] at h
          rw [binaryInteger, if_pos hin.left, h]
      · cases h
  | shiftRightOpr =>
      rw [binarySubscript] at h
      split at h
      · next hin => rw [binaryInteger, if_pos hin.left, h]
      · cases h
  | _ => exact h

/-- A logical operator that its first operand decides has the same value with the second. -/
theorem binaryInteger_of_decided {op : BinaryOperator} {l_val k : Int}
    (h : decided op l_val = some k) (r_val : Int) : binaryInteger op l_val r_val = some k := by
  cases op with
  | logicalAndOpr =>
      rw [decided] at h
      split at h
      · next hzero =>
          rw [← h, hzero]
          rfl
      · cases h
  | logicalOrOpr =>
      rw [decided] at h
      split at h
      · cases h
      · next hne =>
          rw [← h, binaryInteger, bne_iff_ne.mpr hne]
          rfl
  | _ => cases h

/-- On an index expression whose constants and left shifts are in range the subscript is the
integer that is meant. -/
theorem integer_of_subscript (hplain : isPlainIndex n = true) (hi : i < 2 ^ 31)
    (hexact : Exact i n) (h : subscript i n = some idx) : integer i n = some idx := by
  induction n generalizing idx with
  | placeholder id =>
      rw [subscript, toInt_placeholder hi] at h
      exact h
  | constant c =>
      rw [subscript, toInt_setWidth_value hexact] at h
      exact h
  | unaryOpr op child ih =>
      rw [subscript] at h
      split at h
      · next k hk =>
          rw [integer, ih hplain hexact hk, Option.map_some, unaryInteger_of_unarySubscript h]
      · cases h
  | extendExpr child value ih => exact ih hplain hexact h
  | binaryOpr op lhs rhs ihl ihr =>
      have hboth := Bool.and_eq_true_iff.mp hplain
      rw [subscript] at h
      split at h
      · next l_val r_val hl hr =>
          have hl' := ihl hboth.left hexact.left hl
          have hr' := ihr hboth.right hexact.right.left hr
          have hvalue := binaryInteger_of_binarySubscript
            (isInt_auxiliary (auxiliary_of_subscript hl))
            (isInt_auxiliary (auxiliary_of_subscript hr))
            (fun hop => hexact.right.right hop l_val r_val hl' hr') h
          simp only [integer, hl', hr']
          cases hdecided : decided op l_val with
          | none => exact hvalue
          | some k =>
              have hsame := binaryInteger_of_decided hdecided r_val
              rw [hvalue] at hsame
              exact hsame.symm
      · cases h
  | ifThenElse a b c iha ihb ihc =>
      have hall := Bool.and_eq_true_iff.mp hplain
      have hboth := Bool.and_eq_true_iff.mp hall.left
      rw [subscript] at h
      split at h
      · next a_val b_val c_val ha hb hc =>
          rw [integer, iha hboth.left hexact.left ha]
          cases h
          show (if a_val ≠ 0 then integer i b else integer i c) = _
          split
          · exact ihb hboth.right hexact.right.left hb
          · exact ihc hall.right hexact.right.right hc
      · cases h
  | _ => cases hplain

end Arithmetic

/-!
## Visits of a body
-/

section Visit

variable {v : Nat} {d : VarDecl} {i : Nat} {n node : Node} {st st' : State} {idx : Int}

theorem length_of_ids_eq (h : st'.ids = st.ids) :
    st'.variables_.length = st.variables_.length := by
  have hlength := congrArg List.length h
  simp only [State.ids, List.length_map] at hlength
  exact hlength

theorem exists_visitVectorAccess (id bitsize : Nat) (sign : Bool) (k : Int)
    (hpos : 0 < st.variables_.length) :
    exists (node : Node) (st' : State),
      visitVectorAccess (.vectorExpr id bitsize sign) k st = .ok (node, st') := by
  unfold visitVectorAccess
  split
  · next hrange =>
      have hle := castInt_le st.variables_.length
      have hlt : k.toNat < st.variables_.length := by omega
      rw [List.getElem?_eq_getElem hlt]
      exact ⟨_, _, rfl⟩
  · rw [List.getElem?_eq_getElem hpos]
    exact ⟨_, _, rfl⟩

/-- The visit of an expression ends normally when it has a subscript, and is undefined when
it has none. -/
def Follows (i : Nat) (n : Node) (st : State) : Prop :=
  match subscript i n with
  | some idx => exists (node : Node) (st' : State), visit i n st = .ok (node, idx, st')
  | none => visit i n st = .error "undefined"

theorem Follows.cases (h : Follows i n st) :
    (exists (idx : Int) (node : Node) (st' : State),
      subscript i n = some idx ∧ visit i n st = .ok (node, idx, st') ∧ st'.ids = st.ids) ∨
    subscript i n = none ∧ visit i n st = .error "undefined" := by
  unfold Follows at h
  split at h
  · next idx hsub =>
      rcases h with ⟨node, st', hvisit⟩
      exact Or.inl ⟨idx, node, st', hsub, hvisit, (visit_spec hvisit).ids_eq⟩
  · next hsub => exact Or.inr ⟨hsub, h⟩

theorem Follows.unaryOpr {child : Node} (h : Follows i child st) (op : UnaryOperator) :
    Follows i (.unaryOpr op child) st := by
  unfold Follows
  cases h.cases with
  | inl h =>
      rcases h with ⟨k, node, st', hsub, hvisit, _⟩
      simp only [subscript, visit, hsub, hvisit]
      cases unarySubscript op k with
      | some idx => exact ⟨_, _, rfl⟩
      | none => rfl
  | inr h => simp only [subscript, visit, h.left, h.right]

theorem Follows.inside {child : Node} (h : Follows i child st) (collection : List Constant) :
    Follows i (.inside child collection) st := by
  unfold Follows
  cases h.cases with
  | inl h =>
      rcases h with ⟨k, node, st', hsub, hvisit, _⟩
      simp only [subscript, visit, hsub, hvisit]
      exact ⟨_, _, rfl⟩
  | inr h => simp only [subscript, visit, h.left, h.right]

theorem Follows.extendExpr {child : Node} (h : Follows i child st) (value : Nat) :
    Follows i (.extendExpr child value) st := by
  unfold Follows
  cases h.cases with
  | inl h =>
      rcases h with ⟨k, node, st', hsub, hvisit, _⟩
      simp only [subscript, visit, hsub, hvisit]
      exact ⟨_, _, rfl⟩
  | inr h => simp only [subscript, visit, h.left, h.right]

theorem Follows.bitslice {child : Node} (h : Follows i child st) (r l : Nat) :
    Follows i (.bitslice child r l) st := by
  unfold Follows
  cases h.cases with
  | inl h =>
      rcases h with ⟨k, node, st', hsub, hvisit, _⟩
      simp only [subscript, visit, hsub, hvisit, Option.map_some]
      exact ⟨_, _, rfl⟩
  | inr h => simp only [subscript, visit, h.left, h.right, Option.map_none]

theorem Follows.binaryOpr {lhs rhs : Node} (hl : Follows i lhs st)
    (hr : forall st' : State, st'.ids = st.ids -> Follows i rhs st') (op : BinaryOperator) :
    Follows i (.binaryOpr op lhs rhs) st := by
  unfold Follows
  cases hl.cases with
  | inl hl =>
      rcases hl with ⟨l_val, fst, st₁, hsubl, hvisitl, hids⟩
      cases (hr st₁ hids).cases with
      | inl hr =>
          rcases hr with ⟨r_val, snd, st₂, hsubr, hvisitr, _⟩
          simp only [subscript, visit, hsubl, hvisitl, hsubr, hvisitr]
          cases binarySubscript op l_val r_val with
          | some idx => exact ⟨_, _, rfl⟩
          | none => rfl
      | inr hr => simp only [subscript, visit, hsubl, hvisitl, hr.left, hr.right]
  | inr hl => simp only [subscript, visit, hl.left, hl.right]

theorem Follows.ifThenElse {a b c : Node} (ha : Follows i a st)
    (hb : forall st' : State, st'.ids = st.ids -> Follows i b st')
    (hc : forall st' : State, st'.ids = st.ids -> Follows i c st') :
    Follows i (.ifThenElse a b c) st := by
  unfold Follows
  cases ha.cases with
  | inl ha =>
      rcases ha with ⟨a_val, fst, st₁, hsuba, hvisita, hidsa⟩
      cases (hb st₁ hidsa).cases with
      | inl hb =>
          rcases hb with ⟨b_val, snd, st₂, hsubb, hvisitb, hidsb⟩
          cases (hc st₂ (hidsb.trans hidsa)).cases with
          | inl hc =>
              rcases hc with ⟨c_val, trd, st₃, hsubc, hvisitc, _⟩
              simp only [subscript, visit, hsuba, hvisita, hsubb, hvisitb, hsubc, hvisitc]
              exact ⟨_, _, rfl⟩
          | inr hc =>
              simp only [subscript, visit, hsuba, hvisita, hsubb, hvisitb, hc.left, hc.right]
      | inr hb => simp only [subscript, visit, hsuba, hvisita, hb.left, hb.right]
  | inr ha => simp only [subscript, visit, ha.left, ha.right]

theorem follows_of_isPlainIndex (hplain : isPlainIndex n = true) (st : State) :
    Follows i n st := by
  induction n generalizing st with
  | placeholder id => exact ⟨_, _, rfl⟩
  | constant c => exact ⟨_, _, rfl⟩
  | unaryOpr op child ih => exact (ih hplain st).unaryOpr op
  | extendExpr child value ih => exact (ih hplain st).extendExpr value
  | binaryOpr op lhs rhs ihl ihr =>
      have hboth := Bool.and_eq_true_iff.mp hplain
      exact (ihl hboth.left st).binaryOpr (fun st' _ => ihr hboth.right st') op
  | ifThenElse a b c iha ihb ihc =>
      have hall := Bool.and_eq_true_iff.mp hplain
      have hboth := Bool.and_eq_true_iff.mp hall.left
      exact (iha hboth.left st).ifThenElse (fun st' _ => ihb hboth.right st')
        (fun st' _ => ihc hall.right st')
  | _ => cases hplain

theorem follows_of_isForeachBody (hbody : isForeachBody v d n = true)
    (hpos : 0 < st.variables_.length) : Follows i n st := by
  have hkeeps : forall st' : State, st'.ids = st.ids -> 0 < st'.variables_.length := by
    intro st' hids
    rw [length_of_ids_eq hids]
    exact hpos
  induction n generalizing st with
  | placeholder id => exact ⟨_, _, rfl⟩
  | variableExpr id bitsize sign => exact ⟨_, _, rfl⟩
  | constant c => exact ⟨_, _, rfl⟩
  | vectorExpr id bitsize sign => cases hbody
  | unaryOpr op child ih => exact (ih hbody hpos hkeeps).unaryOpr op
  | inside child collection ih => exact (ih hbody hpos hkeeps).inside collection
  | extendExpr child value ih => exact (ih hbody hpos hkeeps).extendExpr value
  | binaryOpr op lhs rhs ihl ihr =>
      have hboth := Bool.and_eq_true_iff.mp hbody
      apply (ihl hboth.left hpos hkeeps).binaryOpr
      intro st' hids
      exact ihr hboth.right (hkeeps st' hids) fun st'' hids' => hkeeps st'' (hids'.trans hids)
  | vectorAccess lhs rhs ihl ihr =>
      have hboth := Bool.and_eq_true_iff.mp hbody
      unfold Follows
      rw [eq_of_beq hboth.left]
      cases (@follows_of_isPlainIndex i rhs hboth.right st).cases with
      | inl h =>
          rcases h with ⟨k, snd, st₁, hsub, hvisit, hids⟩
          rcases exists_visitVectorAccess v d.bitsize d.sign k (hkeeps st₁ hids) with
            ⟨node, st₂, haccess⟩
          simp only [subscript, visit, hsub, hvisit, haccess]
          exact ⟨_, _, rfl⟩
      | inr h => simp only [subscript, visit, h.left, h.right]
  | ifThenElse a b c iha ihb ihc =>
      have hall := Bool.and_eq_true_iff.mp hbody
      have hboth := Bool.and_eq_true_iff.mp hall.left
      apply (iha hboth.left hpos hkeeps).ifThenElse
      · intro st' hids
        exact ihb hboth.right (hkeeps st' hids) fun st'' hids' => hkeeps st'' (hids'.trans hids)
      · intro st' hids
        exact ihc hall.right (hkeeps st' hids) fun st'' hids' => hkeeps st'' (hids'.trans hids)
  | forEach lhs rhs ihl ihr => cases hbody
  | unique child ih => cases hbody
  | bitslice child r l ih => exact (ih hbody hpos hkeeps).bitslice r l

/-!
## The instance that is made
-/

theorem inRange_of_replace {ids : List Nat} (hbody : isForeachBody v d n = true)
    (h : replace i ids n = some node) :
    InRange (castInt ids.length).toNat (accessed i n) := by
  induction n generalizing node with
  | placeholder id => exact List.forall_mem_nil _
  | variableExpr id bitsize sign => exact List.forall_mem_nil _
  | constant c => exact List.forall_mem_nil _
  | vectorExpr id bitsize sign => cases hbody
  | unaryOpr op child ih =>
      rcases replace_unaryOpr_some h with ⟨fst, hfst, rfl⟩
      exact ih hbody hfst
  | inside child collection ih =>
      rcases Option.map_eq_some_iff.mp h with ⟨fst, hfst, _⟩
      exact ih hbody hfst
  | extendExpr child value ih =>
      rcases Option.map_eq_some_iff.mp h with ⟨fst, hfst, _⟩
      exact ih hbody hfst
  | binaryOpr op lhs rhs ihl ihr =>
      have hboth := Bool.and_eq_true_iff.mp hbody
      rcases replace_binaryOpr_some h with ⟨fst, snd, hfst, hsnd, rfl⟩
      exact inRange_append.mpr ⟨ihl hboth.left hfst, ihr hboth.right hsnd⟩
  | vectorAccess lhs rhs ihl ihr =>
      rcases replace_vectorAccess hbody h with ⟨k, id, hsub, hrange, _, _⟩
      rw [accessed, hsub]
      intro k' hk'
      rw [List.mem_singleton.mp hk']
      omega
  | ifThenElse a b c iha ihb ihc =>
      have hall := Bool.and_eq_true_iff.mp hbody
      have hboth := Bool.and_eq_true_iff.mp hall.left
      rcases replace_ifThenElse_some h with ⟨fst, snd, trd, hfst, hsnd, htrd, rfl⟩
      exact inRange_append.mpr
        ⟨inRange_append.mpr ⟨iha hboth.left hfst, ihb hboth.right hsnd⟩,
          ihc hall.right htrd⟩
  | forEach lhs rhs ihl ihr => cases hbody
  | unique child ih => cases hbody
  | bitslice child r l ih =>
      rcases Option.map_eq_some_iff.mp h with ⟨fst, hfst, _⟩
      exact ih hbody hfst

/-- The replacement is the instance that is meant exactly when the subscripts name the same
elements. -/
theorem replace_eq_instanceOf_iff {ids : List Nat} (hbody : isForeachBody v d n = true)
    (hrange : IndicesInRange i ids.length n) (h : replace i ids n = some node) :
    node = instanceOf d ids i n ↔ SameTargets i ids n := by
  induction n generalizing node with
  | placeholder id =>
      cases h
      exact ⟨fun _ => List.forall_mem_nil _, fun _ => rfl⟩
  | variableExpr id bitsize sign =>
      cases h
      exact ⟨fun _ => List.forall_mem_nil _, fun _ => rfl⟩
  | constant c =>
      cases h
      exact ⟨fun _ => List.forall_mem_nil _, fun _ => rfl⟩
  | vectorExpr id bitsize sign => cases hbody
  | unaryOpr op child ih =>
      rcases replace_unaryOpr_some h with ⟨fst, hfst, rfl⟩
      have hchild := ih hbody hrange hfst
      rw [instanceOf, Node.unaryOpr.injEq]
      exact (and_iff_right rfl).trans hchild
  | inside child collection ih =>
      rcases Option.map_eq_some_iff.mp h with ⟨fst, hfst, hnode⟩
      have hchild := ih hbody hrange hfst
      rw [← hnode, instanceOf, Node.inside.injEq]
      exact (and_iff_left rfl).trans hchild
  | extendExpr child value ih =>
      rcases Option.map_eq_some_iff.mp h with ⟨fst, hfst, hnode⟩
      have hchild := ih hbody hrange hfst
      rw [← hnode, instanceOf, Node.extendExpr.injEq]
      exact (and_iff_left rfl).trans hchild
  | binaryOpr op lhs rhs ihl ihr =>
      have hboth := Bool.and_eq_true_iff.mp hbody
      have hranges := List.forall_mem_append.mp hrange
      rcases replace_binaryOpr_some h with ⟨fst, snd, hfst, hsnd, rfl⟩
      rw [instanceOf, Node.binaryOpr.injEq, ihl hboth.left hranges.left hfst,
        ihr hboth.right hranges.right hsnd]
      exact (and_iff_right rfl).trans List.forall_mem_append.symm
  | vectorAccess lhs rhs ihl ihr =>
      rcases replace_vectorAccess hbody h with ⟨k, id, hsub, _, hid, hnode⟩
      rcases hrange rhs (List.mem_singleton_self rhs) with ⟨k', hk', hpos, hlt⟩
      have hlt' : k'.toNat < ids.length := by omega
      have hget : ids[k'.toNat]? = some (ids.getD k'.toNat 0) := by
        rw [List.getD_eq_getElem?_getD, List.getElem?_eq_getElem hlt']
        rfl
      simp only [hnode, instanceOf, hk', Node.variableExpr.injEq, and_true]
      constructor
      · intro heq e he j j' hj hj'
        rw [List.mem_singleton.mp he] at hj hj'
        rw [hsub] at hj
        rw [hk'] at hj'
        cases hj
        cases hj'
        rw [hid, hget, heq]
      · intro hsame
        have hequal := hsame rhs (List.mem_singleton_self rhs) k k' hsub hk'
        rw [hid, hget] at hequal
        exact Option.some.inj hequal
  | ifThenElse a b c iha ihb ihc =>
      have hall := Bool.and_eq_true_iff.mp hbody
      have hboth := Bool.and_eq_true_iff.mp hall.left
      have hranges := List.forall_mem_append.mp hrange
      have hranges' := List.forall_mem_append.mp hranges.left
      rcases replace_ifThenElse_some h with ⟨fst, snd, trd, hfst, hsnd, htrd, rfl⟩
      rw [instanceOf, Node.ifThenElse.injEq, iha hboth.left hranges'.left hfst,
        ihb hboth.right hranges'.right hsnd, ihc hall.right hranges.right htrd, ← and_assoc]
      exact (and_congr_left' List.forall_mem_append.symm).trans List.forall_mem_append.symm
  | forEach lhs rhs ihl ihr => cases hbody
  | unique child ih => cases hbody
  | bitslice child r l ih =>
      rcases Option.map_eq_some_iff.mp h with ⟨fst, hfst, hnode⟩
      have hchild := ih hbody hrange hfst
      rw [← hnode, instanceOf, Node.bitslice.injEq]
      exact (and_iff_left ⟨rfl, rfl⟩).trans hchild

theorem verdict_of_visit {es : List Element} (hbody : isForeachBody v d n = true)
    (h : visit i n ⟨es, true⟩ = .ok (node, idx, st)) :
    (st.okay_ = true ↔ InRange (castInt (es.map Element.id).length).toNat (accessed i n)) ∧
      (st.okay_ = true -> replace i (es.map Element.id) n = some node) := by
  have hspec := visit_spec h
  rcases hspec.replaced with ⟨b, hb, hreplace⟩
  have hokay : st.okay_ = b := hb.trans (Bool.true_and b)
  cases b with
  | true =>
      have hreplace' : replace i (es.map Element.id) n = some node := hreplace
      constructor
      · constructor
        · intro _
          exact inRange_of_replace hbody hreplace'
        · intro _
          exact hokay
      · intro _
        exact hreplace'
  | false =>
      have hreplace' : replace i (es.map Element.id) n = none := hreplace
      constructor
      · constructor
        · intro htrue
          rw [hokay] at htrue
          cases htrue
        · intro hrange
          rcases exists_replace_of_inRange hbody hspec.subscript_eq hrange with ⟨node', hnode'⟩
          rw [hreplace'] at hnode'
          cases hnode'
      · intro htrue
        rw [hokay] at htrue
        cases htrue

/-!
## When the instance is the one that is meant
-/

theorem isPlainIndex_of_mem_indices (hbody : isForeachBody v d n = true) {e : Node}
    (he : e ∈ indices n) : isPlainIndex e = true := by
  induction n with
  | unaryOpr op child ih => exact ih hbody he
  | inside child collection ih => exact ih hbody he
  | extendExpr child value ih => exact ih hbody he
  | binaryOpr op lhs rhs ihl ihr =>
      have hboth := Bool.and_eq_true_iff.mp hbody
      exact (List.mem_append.mp he).elim (ihl hboth.left) (ihr hboth.right)
  | vectorAccess lhs rhs ihl ihr =>
      rw [List.mem_singleton.mp he]
      exact (Bool.and_eq_true_iff.mp hbody).right
  | ifThenElse a b c iha ihb ihc =>
      have hall := Bool.and_eq_true_iff.mp hbody
      have hboth := Bool.and_eq_true_iff.mp hall.left
      cases List.mem_append.mp he with
      | inl he => exact (List.mem_append.mp he).elim (iha hboth.left) (ihb hboth.right)
      | inr he => exact ihc hall.right he
  | bitslice child r l ih => exact ih hbody he
  | _ => cases he

/-- The index expressions of a body that has a subscript have one. -/
theorem exists_subscript_of_mem_indices (h : subscript i n = some idx) {e : Node}
    (he : e ∈ indices n) : exists k, subscript i e = some k := by
  induction n generalizing idx with
  | unaryOpr op child ih =>
      rw [subscript] at h
      split at h
      · next k hk => exact ih hk he
      · cases h
  | inside child collection ih => exact ih h he
  | extendExpr child value ih => exact ih h he
  | binaryOpr op lhs rhs ihl ihr =>
      rw [subscript] at h
      split at h
      · next l_val r_val hl hr => exact (List.mem_append.mp he).elim (ihl hl) (ihr hr)
      · cases h
  | vectorAccess lhs rhs ihl ihr =>
      rw [List.mem_singleton.mp he]
      rw [subscript] at h
      split at h
      · next l_val r_val _ hr => exact ⟨r_val, hr⟩
      · cases h
  | ifThenElse a b c iha ihb ihc =>
      rw [subscript] at h
      split at h
      · next a_val b_val c_val ha hb hc =>
          cases List.mem_append.mp he with
          | inl he => exact (List.mem_append.mp he).elim (iha ha) (ihb hb)
          | inr he => exact ihc hc he
      · cases h
  | bitslice child r l ih =>
      rcases Option.map_eq_some_iff.mp h with ⟨k, hk, _⟩
      exact ih hk he
  | _ => cases he

/-- The positions that a body accesses are the subscripts of its index expressions. -/
theorem mem_accessed_iff (hbody : isForeachBody v d n = true) {k : Int} :
    k ∈ accessed i n ↔ exists e, e ∈ indices n ∧ subscript i e = some k := by
  have happend : forall ks ks' : List Node, (exists e, e ∈ ks ++ ks' ∧ subscript i e = some k) ↔
      (exists e, e ∈ ks ∧ subscript i e = some k) ∨
        exists e, e ∈ ks' ∧ subscript i e = some k := by
    intro ks ks'
    simp only [List.mem_append, or_and_right, exists_or]
  induction n with
  | placeholder id => simp [accessed, indices]
  | variableExpr id bitsize sign => simp [accessed, indices]
  | constant c => simp [accessed, indices]
  | vectorExpr id bitsize sign => cases hbody
  | unaryOpr op child ih => exact ih hbody
  | inside child collection ih => exact ih hbody
  | extendExpr child value ih => exact ih hbody
  | binaryOpr op lhs rhs ihl ihr =>
      have hboth := Bool.and_eq_true_iff.mp hbody
      exact List.mem_append.trans
        ((or_congr (ihl hboth.left) (ihr hboth.right)).trans (happend _ _).symm)
  | vectorAccess lhs rhs ihl ihr => simp [accessed, indices]
  | ifThenElse a b c iha ihb ihc =>
      have hall := Bool.and_eq_true_iff.mp hbody
      have hboth := Bool.and_eq_true_iff.mp hall.left
      have hab := List.mem_append.trans
        ((or_congr (iha hboth.left) (ihb hboth.right)).trans (happend _ _).symm)
      exact List.mem_append.trans ((or_congr hab (ihc hall.right)).trans (happend _ _).symm)
  | forEach lhs rhs ihl ihr => cases hbody
  | unique child ih => cases hbody
  | bitslice child r l ih => exact ih hbody

theorem agrees_of_accurate {ids : List Nat} (hbody : isForeachBody v d n = true)
    (hi : i < ids.length) (h : Accurate i ids.length n) : Agrees i ids n := by
  have hi' : i < 2 ^ 31 := hi.trans h.size
  cases exists_subscript (throws_of_isForeachBody hbody) h.defined with
  | intro idx hidx =>
      have hinteger : forall e, e ∈ indices n -> forall k, subscript i e = some k ->
          integer i e = some k := by
        intro e he k hk
        exact integer_of_subscript (isPlainIndex_of_mem_indices hbody he) hi' (h.exact_index e he)
          hk
      refine ⟨h.defined, ?_, ?_⟩
      · rw [castInt_eq h.size]
        constructor
        · intro hrange k hk
          rcases (mem_accessed_iff hbody).mp hk with ⟨e, he, hsub⟩
          rcases hrange e he with ⟨k', hk', hin⟩
          rw [hinteger e he k hsub] at hk'
          cases hk'
          exact hin
        · intro hrange e he
          cases exists_subscript_of_mem_indices hidx he with
          | intro k hk =>
              exact ⟨k, hinteger e he k hk, hrange k ((mem_accessed_iff hbody).mpr ⟨e, he, hk⟩)⟩
      · intro _ e he k k' hk hk'
        rw [hinteger e he k hk] at hk'
        cases hk'
        rfl

/-- The instance is correct exactly when the subscripts of the visitor agree with the
integers. -/
theorem instanceCorrect_iff_agrees {body : Node} {es : List Element}
    (hbody : isForeachBody v d body = true) (hi : i < es.length) :
    InstanceCorrect i v d body es ↔ Agrees i (es.map Element.id) body := by
  have hlength : (es.map Element.id).length = es.length := List.length_map _
  have hpos : 0 < es.length := Nat.lt_of_le_of_lt (Nat.zero_le i) hi
  constructor
  · rintro ⟨node, idx, st, hvisit, hverdict, hmeant⟩
    have hvisit' : visit i body ⟨es, true⟩ = .ok (node, idx, st) := hvisit
    have hsub : subscript i body = some idx := (visit_spec hvisit').subscript_eq
    have hmade := verdict_of_visit hbody hvisit'
    refine ⟨arithmeticDefined_of_subscript hsub, ?_, ?_⟩
    · rw [hlength, ← hlength] at *
      exact hverdict.symm.trans hmade.left
    · intro hrange
      have hrange' : IndicesInRange i es.length body := by
        rw [← hlength]
        exact hrange
      exact (replace_eq_instanceOf_iff hbody hrange (hmade.right (hverdict.mpr hrange'))).mp
        (hmeant hrange')
  · intro h
    cases exists_subscript (throws_of_isForeachBody hbody) h.defined with
    | intro idx hidx =>
        have hfollows := @follows_of_isForeachBody v d i body ⟨es, true⟩ hbody hpos
        unfold Follows at hfollows
        rw [hidx] at hfollows
        rcases hfollows with ⟨node, st, hvisit⟩
        have hmade := verdict_of_visit hbody hvisit
        have hverdict := hmade.left.trans h.verdict.symm
        refine ⟨node, idx, st, hvisit, ?_, ?_⟩
        · rw [← hlength]
          exact hverdict
        · intro hrange
          rw [← hlength] at hrange
          exact (replace_eq_instanceOf_iff hbody hrange (hmade.right (hverdict.mpr hrange))).mpr
            (h.targets hrange)

/-!
## The order of the indices
-/

/-- What the loop over the indices takes from a visit. -/
def accepted : Except String (Node × Int × State) -> Except String (Option Node)
  | .ok (node, _, st) => .ok (if st.okay_ then some node else none)
  | .error e => .error e

/-- The elements after the visits for the given indices. -/
def visitAll (foreach : Node) : List Nat -> List Element -> Except String (List Element)
  | [], es => .ok es
  | i :: rest, es =>
      match visit i foreach ⟨es, true⟩ with
      | .error e => .error e
      | .ok (_, _, st) => visitAll foreach rest st.variables_

theorem ids_visitAll {foreach : Node} {is : List Nat} {es es' : List Element}
    (h : visitAll foreach is es = .ok es') : es'.map Element.id = es.map Element.id := by
  induction is generalizing es with
  | nil =>
      cases h
      rfl
  | cons i rest ih =>
      simp only [visitAll] at h
      split at h
      · cases h
      · next node idx st hvisit => exact (ih h).trans (visit_spec hvisit).ids_eq

/-- The types that the elements were accessed at before play no part. -/
theorem accepted_eq_of_ids_eq {es es' : List Element} (hbody : isForeachBody v d n = true)
    (hpos : 0 < es.length) (hids : es'.map Element.id = es.map Element.id) :
    accepted (visit i n ⟨es', true⟩) = accepted (visit i n ⟨es, true⟩) := by
  have hlength : es'.length = es.length := by
    rw [← List.length_map Element.id, hids, List.length_map]
  have hpos' : 0 < es'.length := by
    rw [hlength]
    exact hpos
  cases (@follows_of_isForeachBody v d i n ⟨es, true⟩ hbody hpos).cases with
  | inl h =>
      rcases h with ⟨idx, node, st, hsub, hvisit, _⟩
      cases (@follows_of_isForeachBody v d i n ⟨es', true⟩ hbody hpos').cases with
      | inl h' =>
          rcases h' with ⟨idx', node', st', _, hvisit', _⟩
          have hmade := verdict_of_visit hbody hvisit
          have hmade' := verdict_of_visit hbody hvisit'
          rw [hids] at hmade'
          rw [hvisit, hvisit']
          simp only [accepted]
          cases hokay : st.okay_ with
          | true =>
              have hokay' := hmade'.left.mpr (hmade.left.mp hokay)
              have hsame := (hmade'.right hokay').symm.trans (hmade.right hokay)
              rw [hokay', if_pos rfl, if_pos rfl, hsame]
          | false =>
              have hokay' : st'.okay_ = false := by
                apply Bool.eq_false_iff.mpr
                intro htrue
                have hback := hmade.left.mpr (hmade'.left.mp htrue)
                rw [hokay] at hback
                cases hback
              rw [hokay']
              rfl
      | inr h' =>
          rw [hsub] at h'
          cases h'.left
  | inr h =>
      cases (@follows_of_isForeachBody v d i n ⟨es', true⟩ hbody hpos').cases with
      | inl h' =>
          rcases h' with ⟨idx', node', st', hsub', _, _⟩
          rw [h.left] at hsub'
          cases hsub'
      | inr h' => rw [h.right, h'.right]

/-- The visit of a `foreach` for one index makes the instance that is meant where it computes
with integers, and generally exactly when its subscripts agree with the integers.  The
visits for other indices before it make no difference. -/
theorem foreach_instance {body : Node} {es : List Element}
    (hbody : isForeachBody v d body = true) (hi : i < es.length) :
    (Accurate i es.length body -> InstanceCorrect i v d body es) ∧
      (InstanceCorrect i v d body es ↔ Agrees i (es.map Element.id) body) ∧
      forall (before : List Nat) (es' : List Element),
        visitAll (.forEach (.vectorExpr v d.bitsize d.sign) body) before es = .ok es' ->
        accepted (visit i (.forEach (.vectorExpr v d.bitsize d.sign) body) ⟨es', true⟩) =
          accepted (visit i (.forEach (.vectorExpr v d.bitsize d.sign) body) ⟨es, true⟩) := by
  have hiff := instanceCorrect_iff_agrees hbody hi
  have hlength : (es.map Element.id).length = es.length := List.length_map _
  refine ⟨?_, hiff, ?_⟩
  · intro haccurate
    apply hiff.mpr
    apply agrees_of_accurate hbody
    · rw [hlength]
      exact hi
    · rw [hlength]
      exact haccurate
  · intro before es' hbefore
    show accepted (visit i body ⟨es', true⟩) = accepted (visit i body ⟨es, true⟩)
    exact accepted_eq_of_ids_eq hbody (Nat.lt_of_le_of_lt (Nat.zero_le i) hi)
      (ids_visitAll hbefore)

end Visit

/-!
## A constant that is no host integer
-/

def byte : VarDecl :=
  { bitsize := 8, sign := false }

/-- `v[_i + 4294967296] == 0` -/
def farElementZero : Node :=
  .binaryOpr .equalOpr
    (.vectorAccess (.vectorExpr 1 8 false)
      (.binaryOpr .plusOpr (.extendExpr (.placeholder 2) 1) (.constant ⟨2 ^ 32, 33, false⟩)))
    (.extendExpr (.constant ⟨0, 1, false⟩) 7)

/-- In a vector of one element the instance for the index 0 is accepted. -/
theorem far_element_accepted :
    ¬ forall (i v : Nat) (d : VarDecl) (body : Node) (es : List Element),
      isForeachBody v d body = true ->
      (forall e, e ∈ indices body -> (integer i e).isSome = true) -> i < es.length ->
      InstanceCorrect i v d body es := by
  intro h
  have hcorrect := h 0 1 byte farElementZero [⟨5, 1, true⟩] (by decide) (by decide +kernel)
    (by decide)
  have hagrees := (instanceCorrect_iff_agrees (by decide) (by decide)).mp hcorrect
  have hrange : InRange (castInt 1).toNat (accessed 0 farElementZero) := by decide +kernel
  rcases hagrees.verdict.mpr hrange _ (List.mem_singleton_self _) with ⟨k, hk, _, hlt⟩
  have hfar : integer 0 (.binaryOpr .plusOpr (.extendExpr (.placeholder 2) 1)
      (.constant ⟨2 ^ 32, 33, false⟩)) = some (2 ^ 32) := by
    decide +kernel
  rw [hfar] at hk
  cases hk
  revert hlt
  decide

/-- `v[_i] == v[_i - 1]` -/
def equalToPrevious : Node :=
  .binaryOpr .equalOpr (.vectorAccess (.vectorExpr 1 8 false) (.placeholder 2))
    (.vectorAccess (.vectorExpr 1 8 false)
      (.binaryOpr .minusOpr (.placeholder 2) (.extendExpr (.constant ⟨1, 1, false⟩) 31)))

def threeElements : List Element :=
  [⟨5, 1, true⟩, ⟨6, 1, true⟩, ⟨7, 1, true⟩]

theorem foreach_instance_previous :
    InstanceCorrect 2 1 byte equalToPrevious threeElements ∧
      forall es', visitAll (.forEach (.vectorExpr 1 8 false) equalToPrevious) [0, 1]
          threeElements = .ok es' ->
        accepted (visit 2 (.forEach (.vectorExpr 1 8 false) equalToPrevious) ⟨es', true⟩) =
          accepted (visit 2 (.forEach (.vectorExpr 1 8 false) equalToPrevious)
            ⟨threeElements, true⟩) := by
  have haccurate : Accurate 2 3 equalToPrevious := by
    have hoperators : forall a, a ∈ applications equalToPrevious ->
        a.op = .equalOpr ∨ a.op = .minusOpr := by decide
    have hsums : sums 2 equalToPrevious = [1] := by decide +kernel
    have hindices : indices equalToPrevious = [.placeholder 2,
        .binaryOpr .minusOpr (.placeholder 2) (.extendExpr (.constant ⟨1, 1, false⟩) 31)] := rfl
    refine ⟨by decide, ⟨?_, ?_⟩, ?_⟩
    · intro a ha l_val r_val _ _
      rcases hoperators a ha with hop | hop
      · rw [hop]
        trivial
      · rw [hop]
        trivial
    · intro k hk
      rw [hsums, List.mem_singleton] at hk
      rw [hk]
      exact ⟨by decide, by decide⟩
    · intro e he
      rw [hindices] at he
      rcases List.mem_cons.mp he with rfl | he
      · trivial
      · rw [List.mem_singleton.mp he]
        refine ⟨trivial, ⟨by decide, by decide⟩, ?_⟩
        intro hshift
        cases hshift
  have hinstance := @foreach_instance 1 byte 2 _ threeElements
    (show isForeachBody 1 byte equalToPrevious = true by decide) (by decide)
  exact ⟨hinstance.left haccurate, hinstance.right.right [0, 1]⟩

end Backend
end Crave
