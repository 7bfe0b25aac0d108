import Crave.Ir.Constraint
import Crave.Ir.ReplaceVisitor
import Mathlib.Data.Int.Init
import Mathlib.Tactic.Linarith

/-!
# Host arithmetic of the subscripts

`ReplaceVisitor` computes a subscript for every expression that it meets, not only
for those inside of accesses, and it computes with the operators of the host
language.  The module lists the divisions and shifts that a visit performs and says
when all of them are defined.
-/

namespace Crave
namespace Ir
namespace ReplaceVisitor

/-!
## Host operations
-/

inductive IntOperation where
  | quotient (l_val r_val : Int)
  | shift (amount : Int)
deriving DecidableEq, Repr

/-- The divisor is not zero and the quotient is an `int`; the amount of a shift is not
negative and less than the width of `int`. -/
def IntOperation.Defined : IntOperation -> Prop
  | quotient l_val r_val =>
      r_val ≠ 0 ∧ -(2 ^ 31) ≤ l_val.tdiv r_val ∧ l_val.tdiv r_val < 2 ^ 31
  | shift amount => 0 ≤ amount ∧ amount < 32

/-- A remainder comes with the quotient. -/
def binaryOperations : BinaryOperator -> Int -> Int -> List IntOperation
  | .devideOpr, l_val, r_val => [.quotient l_val r_val]
  | .moduloOpr, l_val, r_val => [.quotient l_val r_val]
  | .shiftLeftOpr, _, r_val => [.shift r_val]
  | .shiftRightOpr, _, r_val => [.shift r_val]
  | _, _, _ => []

def wrapInt (i : Int) : Int :=
  (BitVec.ofInt 32 i).toInt

def unaryAuxiliary : UnaryOperator -> Int -> Int
  | .notOpr, idx => boolInt (idx == 0)
  | .negOpr, idx => wrapInt (-idx)
  | .complementOpr, idx => -idx - 1

def binaryAuxiliary : BinaryOperator -> Int -> Int -> Option Int
  | .plusOpr, l_val, r_val => some (wrapInt (l_val + r_val))
  | .minusOpr, l_val, r_val => some (wrapInt (l_val - r_val))
  | .multipliesOpr, l_val, r_val => some (wrapInt (l_val * r_val))
  | op, l_val, r_val => binarySubscript op l_val r_val

/-- The number that a visit leaves on `subscript_stack_` where sums and products wrap
around.  There is none after a division or shift that is not defined. -/
def auxiliary (vec_idx_ : Nat) : Node -> Option Int
  | .placeholder _ => some (BitVec.ofNat 32 vec_idx_).toInt
  | .variableExpr _ _ _ => some 0
  | .constant c => some (c.value.setWidth 32).toInt
  | .vectorExpr _ _ _ => some 0
  | .unaryOpr op child => (auxiliary vec_idx_ child).map (unaryAuxiliary op)
  | .inside child _ => auxiliary vec_idx_ child
  | .extendExpr child _ => auxiliary vec_idx_ child
  | .binaryOpr op lhs rhs =>
      match auxiliary vec_idx_ lhs, auxiliary vec_idx_ rhs with
      | some l_val, some r_val => binaryAuxiliary op l_val r_val
      | _, _ => none
  | .vectorAccess lhs rhs =>
      match auxiliary vec_idx_ lhs, auxiliary vec_idx_ rhs with
      | some _, some _ => some 0
      | _, _ => none
  | .ifThenElse a b c =>
      match auxiliary vec_idx_ a, auxiliary vec_idx_ b, auxiliary vec_idx_ c with
      | some a_val, some b_val, some c_val => some (if a_val ≠ 0 then b_val else c_val)
      | _, _, _ => none
  | .forEach _ rhs => auxiliary vec_idx_ rhs
  | .unique _ => none
  | .bitslice child _ _ => (auxiliary vec_idx_ child).map fun idx => boolInt (idx == 0)

/-- The divisions and shifts of a visit, in their order. -/
def operations (vec_idx_ : Nat) : Node -> List IntOperation
  | .unaryOpr _ child => operations vec_idx_ child
  | .inside child _ => operations vec_idx_ child
  | .extendExpr child _ => operations vec_idx_ child
  | .binaryOpr op lhs rhs =>
      operations vec_idx_ lhs ++
        match auxiliary vec_idx_ lhs with
        | none => []
        | some l_val =>
            operations vec_idx_ rhs ++
              match auxiliary vec_idx_ rhs with
              | none => []
              | some r_val => binaryOperations op l_val r_val
  | .vectorAccess lhs rhs =>
      operations vec_idx_ lhs ++
        match auxiliary vec_idx_ lhs with
        | none => []
        | some _ => operations vec_idx_ rhs
  | .ifThenElse a b c =>
      operations vec_idx_ a ++
        match auxiliary vec_idx_ a with
        | none => []
        | some _ =>
            operations vec_idx_ b ++
              match auxiliary vec_idx_ b with
              | none => []
              | some _ => operations vec_idx_ c
  | .forEach _ rhs => operations vec_idx_ rhs
  | .bitslice child _ _ => operations vec_idx_ child
  | _ => []

/-!
## When they are defined
-/

/-- A binary operator with its operands in a body. -/
structure Application where
  op : BinaryOperator
  lhs : Node
  rhs : Node
deriving DecidableEq, Repr

/-- A visit ends with an exception, which `Unique` throws. -/
def throws : Node -> Bool
  | .unaryOpr _ child => throws child
  | .inside child _ => throws child
  | .extendExpr child _ => throws child
  | .binaryOpr _ lhs rhs => throws lhs || throws rhs
  | .vectorAccess lhs rhs => throws lhs || throws rhs
  | .ifThenElse a b c => throws a || throws b || throws c
  | .forEach _ rhs => throws rhs
  | .unique _ => true
  | .bitslice child _ _ => throws child
  | _ => false

/-- The binary operators of a body, index expressions included, without those that come
after an exception. -/
def applications : Node -> List Application
  | .unaryOpr _ child => applications child
  | .inside child _ => applications child
  | .extendExpr child _ => applications child
  | .binaryOpr op lhs rhs =>
      applications lhs ++
        if throws lhs then
          []
        else
          applications rhs ++ if throws rhs then [] else [⟨op, lhs, rhs⟩]
  | .vectorAccess lhs rhs =>
      applications lhs ++ if throws lhs then [] else applications rhs
  | .ifThenElse a b c =>
      applications a ++
        if throws a then
          []
        else
          applications b ++ if throws b then [] else applications c
  | .forEach _ rhs => applications rhs
  | .bitslice child _ _ => applications child
  | _ => []

/-- A divisor is not zero and does not take the least `int` out of range; the amount of a
shift is between zero and 31. -/
def SafeOperands : BinaryOperator -> Int -> Int -> Prop
  | .devideOpr, l_val, r_val => r_val ≠ 0 ∧ ¬ (l_val = -(2 ^ 31) ∧ r_val = -1)
  | .moduloOpr, l_val, r_val => r_val ≠ 0 ∧ ¬ (l_val = -(2 ^ 31) ∧ r_val = -1)
  | .shiftLeftOpr, _, r_val => 0 ≤ r_val ∧ r_val < 32
  | .shiftRightOpr, _, r_val => 0 ≤ r_val ∧ r_val < 32
  | _, _, _ => True

/-- The operator is safe on the values that its operands have when variables and elements
count as zero. -/
def Application.Safe (vec_idx_ : Nat) (a : Application) : Prop :=
  forall l_val r_val, auxiliary vec_idx_ a.lhs = some l_val ->
    auxiliary vec_idx_ a.rhs = some r_val -> SafeOperands a.op l_val r_val

/-- A number of the type `int`. -/
def IsInt (i : Int) : Prop :=
  -(2 ^ 31) ≤ i ∧ i < 2 ^ 31

theorem isInt_toInt (x : BitVec 32) : IsInt x.toInt :=
  ⟨BitVec.le_toInt x, BitVec.toInt_lt⟩

theorem isInt_boolInt (b : Bool) : IsInt (boolInt b) := by
  unfold IsInt boolInt
  split
  · decide
  · decide

theorem isInt_of_checkedInt {i k : Int} (h : checkedInt i = some k) : IsInt k := by
  unfold checkedInt at h
  split at h
  · next hin =>
      cases h
      exact hin
  · cases h

theorem isInt_shiftRight {i : Int} (h : IsInt i) (k : Nat) : IsInt (i >>> k) := by
  have hpow : (1 : Int) ≤ 2 ^ k := one_le_pow₀ (by decide)
  have hpos : (0 : Int) < 2 ^ k := by linarith
  rw [IsInt, Int.shiftRight_eq_div_pow]
  push_cast
  constructor
  · apply Int.le_ediv_of_mul_le hpos
    nlinarith [h.left]
  · apply Int.ediv_lt_of_lt_mul hpos
    nlinarith [h.right]

theorem isInt_tmod {i k : Int} (hk : IsInt k) (hne : k ≠ 0) : IsInt (i.tmod k) := by
  have habs : (i.tmod k).natAbs = i.natAbs % k.natAbs := Int.natAbs_tmod i k
  have hlt : i.natAbs % k.natAbs < k.natAbs := Nat.mod_lt _ (Int.natAbs_pos.mpr hne)
  unfold IsInt at hk ⊢
  omega

theorem isInt_binaryAuxiliary {op : BinaryOperator} {l_val r_val k : Int} (hl : IsInt l_val)
    (hr : IsInt r_val) (h : binaryAuxiliary op l_val r_val = some k) : IsInt k := by
  cases op with
  | plusOpr =>
      cases h
      exact isInt_toInt _
  | minusOpr =>
      cases h
      exact isInt_toInt _
  | multipliesOpr =>
      cases h
      exact isInt_toInt _
  | devideOpr =>
      simp only [binaryAuxiliary, binarySubscript] at h
      split at h
      · cases h
      · exact isInt_of_checkedInt h
  | moduloOpr =>
      simp only [binaryAuxiliary, binarySubscript] at h
      split at h
      · cases h
      · next hne =>
          rcases Option.map_eq_some_iff.mp h with ⟨_, _, hk⟩
          rw [← hk]
          exact isInt_tmod hr hne
  | shiftLeftOpr =>
      simp only [binaryAuxiliary, binarySubscript] at h
      split at h
      · cases h
        exact isInt_toInt _
      · cases h
  | shiftRightOpr =>
      simp only [binaryAuxiliary, binarySubscript] at h
      split at h
      · cases h
        exact isInt_shiftRight hl _
      · cases h
  | andOpr =>
      cases h
      exact isInt_toInt _
  | orOpr =>
      cases h
      exact isInt_toInt _
  | xorOpr =>
      cases h
      exact isInt_toInt _
  | _ =>
      cases h
      exact isInt_boolInt _

theorem isInt_unaryAuxiliary (op : UnaryOperator) {idx : Int} (h : IsInt idx) :
    IsInt (unaryAuxiliary op idx) := by
  cases op with
  | notOpr => exact isInt_boolInt _
  | negOpr => exact isInt_toInt _
  | complementOpr =>
      show IsInt (-idx - 1)
      unfold IsInt at h ⊢
      omega

theorem isInt_auxiliary {vec_idx_ : Nat} {n : Node} {idx : Int}
    (h : auxiliary vec_idx_ n = some idx) : IsInt idx := by
  induction n generalizing idx with
  | placeholder id =>
      cases h
      exact isInt_toInt _
  | variableExpr id bitsize sign =>
      cases h
      exact ⟨by decide, by decide⟩
  | constant c =>
      cases h
      exact isInt_toInt _
  | vectorExpr id bitsize sign =>
      cases h
      exact ⟨by decide, by decide⟩
  | unaryOpr op child ih =>
      rcases Option.map_eq_some_iff.mp h with ⟨k, hk, hidx⟩
      rw [← hidx]
      exact isInt_unaryAuxiliary op (ih hk)
  | inside child collection ih => exact ih h
  | extendExpr child value ih => exact ih h
  | binaryOpr op lhs rhs ihl ihr =>
      simp only [auxiliary] at h
      split at h
      · next l_val r_val hl hr => exact isInt_binaryAuxiliary (ihl hl) (ihr hr) h
      · cases h
  | vectorAccess lhs rhs ihl ihr =>
      simp only [auxiliary] at h
      split at h
      · cases h
        exact ⟨by decide, by decide⟩
      · cases h
  | ifThenElse a b c iha ihb ihc =>
      simp only [auxiliary] at h
      split at h
      · next a_val b_val c_val ha hb hc =>
          cases h
          split
          · exact ihb hb
          · exact ihc hc
      · cases h
  | forEach lhs rhs ihl ihr => exact ihr h
  | unique child ih => cases h
  | bitslice child r l ih =>
      rcases Option.map_eq_some_iff.mp h with ⟨k, _, hidx⟩
      rw [← hidx]
      exact isInt_boolInt _

theorem defined_quotient_iff {l_val r_val : Int} (hl : IsInt l_val) (hr : IsInt r_val) :
    (IntOperation.quotient l_val r_val).Defined ↔
      r_val ≠ 0 ∧ ¬ (l_val = -(2 ^ 31) ∧ r_val = -1) := by
  unfold IntOperation.Defined
  constructor
  · intro h
    constructor
    · exact h.left
    · intro hleast
      have hlt := h.right.right
      rw [hleast.left, hleast.right] at hlt
      revert hlt
      decide
  · intro h
    have habs : (l_val.tdiv r_val).natAbs = l_val.natAbs / r_val.natAbs := Int.natAbs_tdiv l_val r_val
    have hpos := Int.natAbs_pos.mpr h.left
    refine ⟨h.left, ?_⟩
    unfold IsInt at hl hr
    by_cases hone : r_val = -1
    · rw [hone, Int.tdiv_neg, Int.tdiv_one]
      have hne : l_val ≠ -(2 ^ 31) := fun heq => h.right ⟨heq, hone⟩
      omega
    · by_cases hone' : r_val = 1
      · rw [hone', Int.tdiv_one]
        exact hl
      · have hhalf : l_val.natAbs / r_val.natAbs ≤ l_val.natAbs / 2 :=
          Nat.div_le_div_left (by omega) (by decide)
        omega

theorem defined_binaryOperations_iff {op : BinaryOperator} {l_val r_val : Int}
    (hl : IsInt l_val) (hr : IsInt r_val) :
    (forall o, o ∈ binaryOperations op l_val r_val -> o.Defined) ↔
      SafeOperands op l_val r_val := by
  cases op with
  | devideOpr => exact List.forall_mem_singleton.trans (defined_quotient_iff hl hr)
  | moduloOpr => exact List.forall_mem_singleton.trans (defined_quotient_iff hl hr)
  | shiftLeftOpr => exact List.forall_mem_singleton
  | shiftRightOpr => exact List.forall_mem_singleton
  | _ => exact ⟨fun _ => trivial, fun _ o ho => by cases ho⟩

theorem exists_binaryAuxiliary {op : BinaryOperator} {l_val r_val : Int} (hl : IsInt l_val)
    (hr : IsInt r_val) (h : SafeOperands op l_val r_val) :
    exists k, binaryAuxiliary op l_val r_val = some k := by
  cases op with
  | devideOpr =>
      have hdefined := (defined_quotient_iff hl hr).mpr h
      simp only [binaryAuxiliary, binarySubscript]
      rw [if_neg h.left, checkedInt, if_pos hdefined.right]
      exact ⟨_, rfl⟩
  | moduloOpr =>
      have hdefined := (defined_quotient_iff hl hr).mpr h
      simp only [binaryAuxiliary, binarySubscript]
      rw [if_neg h.left, checkedInt, if_pos hdefined.right]
      exact ⟨_, rfl⟩
  | shiftLeftOpr =>
      have hamount : 0 ≤ r_val ∧ r_val < 32 := h
      simp only [binaryAuxiliary, binarySubscript]
      rw [if_pos hamount]
      exact ⟨_, rfl⟩
  | shiftRightOpr =>
      have hamount : 0 ≤ r_val ∧ r_val < 32 := h
      simp only [binaryAuxiliary, binarySubscript]
      rw [if_pos hamount]
      exact ⟨_, rfl⟩
  | _ => exact ⟨_, rfl⟩

theorem auxiliary_of_throws {vec_idx_ : Nat} {n : Node} (h : throws n = true) :
    auxiliary vec_idx_ n = none := by
  induction n with
  | placeholder id => cases h
  | variableExpr id bitsize sign => cases h
  | constant c => cases h
  | vectorExpr id bitsize sign => cases h
  | unaryOpr op child ih => rw [auxiliary, ih h, Option.map_none]
  | inside child collection ih => exact ih h
  | extendExpr child value ih => exact ih h
  | binaryOpr op lhs rhs ihl ihr =>
      rw [auxiliary]
      cases Bool.or_eq_true_iff.mp h with
      | inl hl => rw [ihl hl]
      | inr hr =>
          rw [ihr hr]
          cases auxiliary vec_idx_ lhs with
          | none => rfl
          | some l_val => rfl
  | vectorAccess lhs rhs ihl ihr =>
      rw [auxiliary]
      cases Bool.or_eq_true_iff.mp h with
      | inl hl => rw [ihl hl]
      | inr hr =>
          rw [ihr hr]
          cases auxiliary vec_idx_ lhs with
          | none => rfl
          | some l_val => rfl
  | ifThenElse a b c iha ihb ihc =>
      rw [auxiliary]
      cases Bool.or_eq_true_iff.mp h with
      | inl hab =>
          cases Bool.or_eq_true_iff.mp hab with
          | inl ha => rw [iha ha]
          | inr hb =>
              rw [ihb hb]
              cases auxiliary vec_idx_ a with
              | none => rfl
              | some a_val => rfl
      | inr hc =>
          rw [ihc hc]
          cases auxiliary vec_idx_ a with
          | none => rfl
          | some a_val =>
              cases auxiliary vec_idx_ b with
              | none => rfl
              | some b_val => rfl
  | forEach lhs rhs ihl ihr => exact ihr h
  | unique child ih => rfl
  | bitslice child r l ih => rw [auxiliary, ih h, Option.map_none]

theorem safe_iff {vec_idx_ : Nat} {op : BinaryOperator} {lhs rhs : Node} {l_val r_val : Int}
    (hl : auxiliary vec_idx_ lhs = some l_val) (hr : auxiliary vec_idx_ rhs = some r_val) :
    (Application.mk op lhs rhs).Safe vec_idx_ ↔ SafeOperands op l_val r_val := by
  constructor
  · intro h
    exact h l_val r_val hl hr
  · intro h l_val' r_val' hl' hr'
    rw [hl] at hl'
    rw [hr] at hr'
    cases hl'
    cases hr'
    exact h

/-- The operations are defined when the operators are safe, and then a visit that throws
no exception has a value. -/
theorem operations_spec (vec_idx_ : Nat) (n : Node) :
    ((forall o, o ∈ operations vec_idx_ n -> o.Defined) ↔
        forall a, a ∈ applications n -> a.Safe vec_idx_) ∧
      ((forall o, o ∈ operations vec_idx_ n -> o.Defined) -> throws n = false ->
        exists idx, auxiliary vec_idx_ n = some idx) := by
  induction n with
  | placeholder id => exact ⟨⟨fun _ => List.forall_mem_nil _, fun _ => List.forall_mem_nil _⟩,
      fun _ _ => ⟨_, rfl⟩⟩
  | variableExpr id bitsize sign =>
      exact ⟨⟨fun _ => List.forall_mem_nil _, fun _ => List.forall_mem_nil _⟩,
        fun _ _ => ⟨_, rfl⟩⟩
  | constant c => exact ⟨⟨fun _ => List.forall_mem_nil _, fun _ => List.forall_mem_nil _⟩,
      fun _ _ => ⟨_, rfl⟩⟩
  | vectorExpr id bitsize sign =>
      exact ⟨⟨fun _ => List.forall_mem_nil _, fun _ => List.forall_mem_nil _⟩,
        fun _ _ => ⟨_, rfl⟩⟩
  | unaryOpr op child ih =>
      constructor
      · exact ih.left
      · intro h hthrows
        cases ih.right h hthrows with
        | intro idx hidx =>
            rw [auxiliary, hidx]
            exact ⟨_, rfl⟩
  | inside child collection ih => exact ih
  | extendExpr child value ih => exact ih
  | binaryOpr op lhs rhs ihl ihr =>
      simp only [operations, applications, List.forall_mem_append, throws]
      cases hl : throws lhs with
      | true =>
          rw [auxiliary_of_throws hl, ← ihl.left]
          constructor
          · simp
          · intro _ hthrows
            cases hthrows
      | false =>
          constructor
          · rw [← ihl.left]
            apply and_congr_right
            intro hdefl
            cases ihl.right hdefl hl with
            | intro l_val hlval =>
                rw [hlval]
                simp only [Bool.false_eq_true, if_false, List.forall_mem_append]
                rw [← ihr.left]
                apply and_congr_right
                intro hdefr
                cases hr : throws rhs with
                | true =>
                    rw [auxiliary_of_throws hr]
                    simp
                | false =>
                    cases ihr.right hdefr hr with
                    | intro r_val hrval =>
                        rw [hrval]
                        simp only [Bool.false_eq_true, if_false, List.forall_mem_singleton]
                        exact (defined_binaryOperations_iff (isInt_auxiliary hlval)
                          (isInt_auxiliary hrval)).trans (safe_iff hlval hrval).symm
          · intro h hthrows
            cases ihl.right h.left hl with
            | intro l_val hlval =>
                have hrest := h.right
                rw [hlval] at hrest
                simp only [List.forall_mem_append] at hrest
                cases ihr.right hrest.left hthrows with
                | intro r_val hrval =>
                    have hlast := hrest.right
                    rw [hrval] at hlast
                    rw [auxiliary, hlval, hrval]
                    exact exists_binaryAuxiliary (isInt_auxiliary hlval) (isInt_auxiliary hrval)
                      ((defined_binaryOperations_iff (isInt_auxiliary hlval)
                        (isInt_auxiliary hrval)).mp hlast)
  | vectorAccess lhs rhs ihl ihr =>
      simp only [operations, applications, List.forall_mem_append, throws]
      cases hl : throws lhs with
      | true =>
          rw [auxiliary_of_throws hl, ← ihl.left]
          constructor
          · simp
          · intro _ hthrows
            cases hthrows
      | false =>
          constructor
          · rw [← ihl.left]
            apply and_congr_right
            intro hdefl
            cases ihl.right hdefl hl with
            | intro l_val hlval =>
                rw [hlval]
                exact ihr.left
          · intro h hthrows
            cases ihl.right h.left hl with
            | intro l_val hlval =>
                have hrest := h.right
                rw [hlval] at hrest
                cases ihr.right hrest hthrows with
                | intro r_val hrval =>
                    rw [auxiliary, hlval, hrval]
                    exact ⟨_, rfl⟩
  | ifThenElse a b c iha ihb ihc =>
      simp only [operations, applications, List.forall_mem_append, throws]
      cases ha : throws a with
      | true =>
          rw [auxiliary_of_throws ha, ← iha.left]
          constructor
          · simp
          · intro _ hthrows
            cases hthrows
      | false =>
          constructor
          · rw [← iha.left]
            apply and_congr_right
            intro hdefa
            cases iha.right hdefa ha with
            | intro a_val haval =>
                rw [haval]
                simp only [Bool.false_eq_true, if_false, List.forall_mem_append]
                rw [← ihb.left]
                apply and_congr_right
                intro hdefb
                cases hb : throws b with
                | true =>
                    rw [auxiliary_of_throws hb]
                    simp
                | false =>
                    cases ihb.right hdefb hb with
                    | intro b_val hbval =>
                        rw [hbval]
                        exact ihc.left
          · intro h hthrows
            have hthrows' := Bool.or_eq_false_iff.mp hthrows
            cases iha.right h.left ha with
            | intro a_val haval =>
                have hrest := h.right
                rw [haval] at hrest
                simp only [List.forall_mem_append] at hrest
                cases ihb.right hrest.left hthrows'.left with
                | intro b_val hbval =>
                    have hlast := hrest.right
                    rw [hbval] at hlast
                    cases ihc.right hlast hthrows'.right with
                    | intro c_val hcval =>
                        rw [auxiliary, haval, hbval, hcval]
                        exact ⟨_, rfl⟩
  | forEach lhs rhs ihl ihr => exact ihr
  | unique child ih =>
      constructor
      · exact ⟨fun _ => List.forall_mem_nil _, fun _ => List.forall_mem_nil _⟩
      · intro _ hthrows
        cases hthrows
  | bitslice child r l ih =>
      constructor
      · exact ih.left
      · intro h hthrows
        cases ih.right h hthrows with
        | intro idx hidx =>
            rw [auxiliary, hidx]
            exact ⟨_, rfl⟩

/-!
## Visits that end normally
-/

theorem wrapInt_eq {i : Int} (h : IsInt i) : wrapInt i = i := by
  unfold wrapInt
  rw [BitVec.toInt_ofInt]
  unfold IsInt at h
  exact Int.bmod_eq_of_le (by omega) (by omega)

theorem wrapInt_of_checkedInt {i k : Int} (h : checkedInt i = some k) : wrapInt i = k := by
  unfold checkedInt at h
  split at h
  · next hin =>
      cases h
      exact wrapInt_eq hin
  · cases h

theorem unaryAuxiliary_of_unarySubscript {op : UnaryOperator} {idx k : Int}
    (h : unarySubscript op idx = some k) : unaryAuxiliary op idx = k := by
  cases op with
  | negOpr => exact wrapInt_of_checkedInt h
  | _ => exact Option.some.inj h

theorem binaryAuxiliary_of_binarySubscript {op : BinaryOperator} {l_val r_val k : Int}
    (h : binarySubscript op l_val r_val = some k) : binaryAuxiliary op l_val r_val = some k := by
  cases op with
  | plusOpr => exact congrArg some (wrapInt_of_checkedInt h)
  | minusOpr => exact congrArg some (wrapInt_of_checkedInt h)
  | multipliesOpr => exact congrArg some (wrapInt_of_checkedInt h)
  | _ => exact h

/-- The subscript of the visitor is the number that it has with wrap-around. -/
theorem auxiliary_of_subscript {vec_idx_ : Nat} {n : Node} {idx : Int}
    (h : subscript vec_idx_ n = some idx) : auxiliary vec_idx_ n = some idx := by
  induction n generalizing idx with
  | placeholder id => exact h
  | variableExpr id bitsize sign => exact h
  | constant c => exact h
  | vectorExpr id bitsize sign => exact h
  | unaryOpr op child ih =>
      rw [subscript] at h
      split at h
      · next k hk =>
          rw [auxiliary, ih hk, Option.map_some, unaryAuxiliary_of_unarySubscript h]
      · cases h
  | inside child collection ih => exact ih h
  | extendExpr child value ih => exact ih h
  | binaryOpr op lhs rhs ihl ihr =>
      rw [subscript] at h
      split at h
      · next l_val r_val hl hr =>
          rw [auxiliary, ihl hl, ihr hr]
          exact binaryAuxiliary_of_binarySubscript h
      · cases h
  | vectorAccess lhs rhs ihl ihr =>
      rw [subscript] at h
      split at h
      · next l_val r_val hl hr =>
          rw [auxiliary, ihl hl, ihr hr]
          exact h
      · cases h
  | ifThenElse a b c iha ihb ihc =>
      rw [subscript] at h
      split at h
      · next a_val b_val c_val ha hb hc =>
          rw [auxiliary, iha ha, ihb hb, ihc hc]
          exact h
      · cases h
  | forEach lhs rhs ihl ihr => exact ihr h
  | unique child ih => cases h
  | bitslice child r l ih =>
      rcases Option.map_eq_some_iff.mp h with ⟨k, hk, hidx⟩
      rw [auxiliary, ih hk, Option.map_some, hidx]

theorem safeOperands_of_binarySubscript {op : BinaryOperator} {l_val r_val k : Int}
    (h : binarySubscript op l_val r_val = some k) : SafeOperands op l_val r_val := by
  have hquotient : forall i : Int, checkedInt (l_val.tdiv r_val) = some i ->
      ¬ (l_val = -(2 ^ 31) ∧ r_val = -1) := by
    intro i hi hleast
    rw [hleast.left, hleast.right] at hi
    revert hi
    simp [checkedInt]
  cases op with
  | devideOpr =>
      rw [binarySubscript] at h
      split at h
      · cases h
      · next hne => exact ⟨hne, hquotient k h⟩
  | moduloOpr =>
      rw [binarySubscript] at h
      split at h
      · cases h
      · next hne =>
          rcases Option.map_eq_some_iff.mp h with ⟨i, hi, _⟩
          exact ⟨hne, hquotient i hi⟩
  | shiftLeftOpr =>
      rw [binarySubscript] at h
      split at h
      · next hin => exact hin
      · cases h
  | shiftRightOpr =>
      rw [binarySubscript] at h
      split at h
      · next hin => exact hin
      · cases h
  | _ => trivial

theorem safe_of_subscript {vec_idx_ : Nat} {n : Node} {idx : Int}
    (h : subscript vec_idx_ n = some idx) :
    forall a, a ∈ applications n -> a.Safe vec_idx_ := by
  induction n generalizing idx with
  | placeholder id => exact List.forall_mem_nil _
  | variableExpr id bitsize sign => exact List.forall_mem_nil _
  | constant c => exact List.forall_mem_nil _
  | vectorExpr id bitsize sign => exact List.forall_mem_nil _
  | unaryOpr op child ih =>
      rw [subscript] at h
      split at h
      · next k hk => exact ih hk
      · cases h
  | inside child collection ih => exact ih h
  | extendExpr child value ih => exact ih h
  | binaryOpr op lhs rhs ihl ihr =>
      rw [subscript] at h
      split at h
      · next l_val r_val hl hr =>
          intro a ha
          simp only [applications] at ha
          cases List.mem_append.mp ha with
          | inl ha => exact ihl hl a ha
          | inr ha =>
              split at ha
              · cases ha
              · cases List.mem_append.mp ha with
                | inl ha => exact ihr hr a ha
                | inr ha =>
                    split at ha
                    · cases ha
                    · rw [List.mem_singleton.mp ha]
                      exact (safe_iff (auxiliary_of_subscript hl)
                        (auxiliary_of_subscript hr)).mpr (safeOperands_of_binarySubscript h)
      · cases h
  | vectorAccess lhs rhs ihl ihr =>
      rw [subscript] at h
      split at h
      · next l_val r_val hl hr =>
          intro a ha
          simp only [applications] at ha
          cases List.mem_append.mp ha with
          | inl ha => exact ihl hl a ha
          | inr ha =>
              split at ha
              · cases ha
              · exact ihr hr a ha
      · cases h
  | ifThenElse a b c iha ihb ihc =>
      rw [subscript] at h
      split at h
      · next a_val b_val c_val ha hb hc =>
          intro x hx
          simp only [applications] at hx
          cases List.mem_append.mp hx with
          | inl hx => exact iha ha x hx
          | inr hx =>
              split at hx
              · cases hx
              · cases List.mem_append.mp hx with
                | inl hx => exact ihb hb x hx
                | inr hx =>
                    split at hx
                    · cases hx
                    · exact ihc hc x hx
      · cases h
  | forEach lhs rhs ihl ihr => exact ihr h
  | unique child ih => cases h
  | bitslice child r l ih =>
      rcases Option.map_eq_some_iff.mp h with ⟨k, hk, _⟩
      exact ih hk

/-- A visit that ends normally has performed no operation that is not defined. -/
theorem defined_of_visit {vec_idx_ : Nat} {n node : Node} {idx : Int} {st st' : State}
    (h : visit vec_idx_ n st = .ok (node, idx, st')) :
    forall o, o ∈ operations vec_idx_ n -> o.Defined :=
  (operations_spec vec_idx_ n).left.mpr (safe_of_subscript (visit_spec h).subscript_eq)

/-!
## The body in arithmetic modulo 2 ^ 32

What a body stands for when its variables and elements are zero, as a word of 32 bits.  No
part of the visitor is used: the operators are those of two's complement numbers.
-/

def truthWord (b : Bool) : BitVec 32 :=
  if b then 1 else 0

def unaryWord : UnaryOperator -> BitVec 32 -> BitVec 32
  | .notOpr, x => truthWord (x == 0)
  | .negOpr, x => -x
  | .complementOpr, x => ~~~x

def binaryWord : BinaryOperator -> BitVec 32 -> BitVec 32 -> BitVec 32
  | .andOpr, x, y => x &&& y
  | .orOpr, x, y => x ||| y
  | .logicalAndOpr, x, y => truthWord (x != 0 && y != 0)
  | .logicalOrOpr, x, y => truthWord (x != 0 || y != 0)
  | .xorOpr, x, y => x ^^^ y
  | .equalOpr, x, y => truthWord (x == y)
  | .notEqualOpr, x, y => truthWord (x != y)
  | .lessOpr, x, y => truthWord (x.slt y)
  | .lessEqualOpr, x, y => truthWord (x.sle y)
  | .greaterOpr, x, y => truthWord (y.slt x)
  | .greaterEqualOpr, x, y => truthWord (y.sle x)
  | .plusOpr, x, y => x + y
  | .minusOpr, x, y => x - y
  | .multipliesOpr, x, y => x * y
  | .devideOpr, x, y => x.sdiv y
  | .moduloOpr, x, y => x.srem y
  | .shiftLeftOpr, x, y => x <<< y.toNat
  | .shiftRightOpr, x, y => x.sshiftRight y.toNat

def word (vec_idx_ : Nat) : Node -> BitVec 32
  | .placeholder _ => BitVec.ofNat 32 vec_idx_
  | .constant c => c.value.setWidth 32
  | .unaryOpr op child => unaryWord op (word vec_idx_ child)
  | .inside child _ => word vec_idx_ child
  | .extendExpr child _ => word vec_idx_ child
  | .binaryOpr op lhs rhs => binaryWord op (word vec_idx_ lhs) (word vec_idx_ rhs)
  | .ifThenElse a b c => if word vec_idx_ a ≠ 0 then word vec_idx_ b else word vec_idx_ c
  | .forEach _ rhs => word vec_idx_ rhs
  | .bitslice child _ _ => truthWord (word vec_idx_ child == 0)
  | _ => 0

/-- No division by zero or of the least number by minus one, and no shift by 32 or more (the
numbers below zero are 2 ^ 31 or more as amounts). -/
def SafeWords : BinaryOperator -> BitVec 32 -> BitVec 32 -> Prop
  | .devideOpr, x, y => y ≠ 0 ∧ ¬ (x = BitVec.intMin 32 ∧ y = -1)
  | .moduloOpr, x, y => y ≠ 0 ∧ ¬ (x = BitVec.intMin 32 ∧ y = -1)
  | .shiftLeftOpr, _, y => y.toNat < 32
  | .shiftRightOpr, _, y => y.toNat < 32
  | _, _, _ => True

theorem toInt_truthWord (b : Bool) : (truthWord b).toInt = boolInt b := by
  cases b <;> rfl

theorem toInt_beq (x y : BitVec 32) : (x.toInt == y.toInt) = (x == y) := by
  rw [Bool.eq_iff_iff, beq_iff_eq, beq_iff_eq, BitVec.toInt_inj]

theorem toInt_bne (x y : BitVec 32) : (x.toInt != y.toInt) = (x != y) := by
  rw [bne, bne, toInt_beq]

theorem toNat_toInt {x : BitVec 32} (h : 0 ≤ x.toInt) : x.toInt.toNat = x.toNat := by
  have hlt := x.isLt
  rw [BitVec.toInt_eq_toNat_cond] at h ⊢
  split at h <;> omega

theorem safeOperands_toInt_iff (op : BinaryOperator) (x y : BitVec 32) :
    SafeOperands op x.toInt y.toInt ↔ SafeWords op x y := by
  have hzero : y.toInt ≠ 0 ↔ y ≠ 0 := not_congr (BitVec.toInt_inj (y := 0#32))
  have hleast : x.toInt = -(2 ^ 31) ↔ x = BitVec.intMin 32 :=
    BitVec.toInt_inj (y := BitVec.intMin 32)
  have hminus : y.toInt = -1 ↔ y = -1 := BitVec.toInt_inj (y := -1#32)
  have hamount : 0 ≤ y.toInt ∧ y.toInt < 32 ↔ y.toNat < 32 := by
    have hlt := y.isLt
    rw [BitVec.toInt_eq_toNat_cond]
    split <;> omega
  cases op with
  | devideOpr => exact and_congr hzero (not_congr (and_congr hleast hminus))
  | moduloOpr => exact and_congr hzero (not_congr (and_congr hleast hminus))
  | shiftLeftOpr => exact hamount
  | shiftRightOpr => exact hamount
  | _ => exact Iff.rfl

theorem unaryAuxiliary_toInt (op : UnaryOperator) (x : BitVec 32) :
    unaryAuxiliary op x.toInt = (unaryWord op x).toInt := by
  cases op with
  | notOpr =>
      rw [unaryAuxiliary, unaryWord, toInt_truthWord, ← toInt_beq]
      rfl
  | negOpr => rw [unaryAuxiliary, unaryWord, wrapInt, BitVec.ofInt_neg, BitVec.ofInt_toInt]
  | complementOpr =>
      have hlt := x.isLt
      rw [unaryAuxiliary, unaryWord, BitVec.toInt_eq_toNat_cond, BitVec.toInt_eq_toNat_cond,
        BitVec.toNat_not]
      split <;> split <;> omega

theorem binaryAuxiliary_toInt {op : BinaryOperator} {x y : BitVec 32} {k : Int}
    (h : binaryAuxiliary op x.toInt y.toInt = some k) : k = (binaryWord op x y).toInt := by
  cases op with
  | plusOpr =>
      cases h
      rw [wrapInt, BitVec.ofInt_add, BitVec.ofInt_toInt, BitVec.ofInt_toInt]
      rfl
  | minusOpr =>
      cases h
      rw [wrapInt, sub_eq_add_neg, BitVec.ofInt_add, BitVec.ofInt_neg, BitVec.ofInt_toInt,
        BitVec.ofInt_toInt, ← BitVec.sub_eq_add_neg]
      rfl
  | multipliesOpr =>
      cases h
      rw [wrapInt, BitVec.ofInt_mul, BitVec.ofInt_toInt, BitVec.ofInt_toInt]
      rfl
  | devideOpr =>
      have hsubscript : binarySubscript .devideOpr x.toInt y.toInt = some k := h
      have hsafe := (safeOperands_toInt_iff _ x y).mp (safeOperands_of_binarySubscript hsubscript)
      have hne : x ≠ BitVec.intMin 32 ∨ y ≠ -1#32 := by
        by_contra hboth
        rw [not_or, not_not, not_not] at hboth
        exact hsafe.right hboth
      simp only [binaryAuxiliary, binarySubscript] at h
      split at h
      · cases h
      · rw [← wrapInt_of_checkedInt h, wrapInt, binaryWord, ← BitVec.toInt_sdiv_of_ne_or_ne x y hne,
          BitVec.ofInt_toInt]
  | moduloOpr =>
      simp only [binaryAuxiliary, binarySubscript] at h
      split at h
      · cases h
      · rcases Option.map_eq_some_iff.mp h with ⟨_, _, hk⟩
        rw [← hk, binaryWord, BitVec.toInt_srem]
  | shiftLeftOpr =>
      simp only [binaryAuxiliary, binarySubscript] at h
      split at h
      · next hamount =>
          cases h
          rw [binaryWord, BitVec.ofInt_toInt, toNat_toInt hamount.left]
      · cases h
  | shiftRightOpr =>
      simp only [binaryAuxiliary, binarySubscript] at h
      split at h
      · next hamount =>
          cases h
          rw [binaryWord, BitVec.toInt_sshiftRight, toNat_toInt hamount.left]
      · cases h
  | andOpr =>
      cases h
      rw [bitwiseInt, BitVec.ofInt_toInt, BitVec.ofInt_toInt]
      rfl
  | orOpr =>
      cases h
      rw [bitwiseInt, BitVec.ofInt_toInt, BitVec.ofInt_toInt]
      rfl
  | xorOpr =>
      cases h
      rw [bitwiseInt, BitVec.ofInt_toInt, BitVec.ofInt_toInt]
      rfl
  | logicalAndOpr =>
      cases h
      rw [binaryWord, toInt_truthWord, ← toInt_bne, ← toInt_bne]
      rfl
  | logicalOrOpr =>
      cases h
      rw [binaryWord, toInt_truthWord, ← toInt_bne, ← toInt_bne]
      rfl
  | equalOpr =>
      cases h
      rw [binaryWord, toInt_truthWord, ← toInt_beq]
  | notEqualOpr =>
      cases h
      rw [binaryWord, toInt_truthWord, ← toInt_bne]
  | _ =>
      cases h
      exact (toInt_truthWord _).symm

theorem auxiliary_eq_toInt {vec_idx_ : Nat} {n : Node} {idx : Int}
    (h : auxiliary vec_idx_ n = some idx) : idx = (word vec_idx_ n).toInt := by
  induction n generalizing idx with
  | placeholder id =>
      cases h
      rfl
  | variableExpr id bitsize sign =>
      cases h
      rfl
  | constant c =>
      cases h
      rfl
  | vectorExpr id bitsize sign =>
      cases h
      rfl
  | unaryOpr op child ih =>
      rcases Option.map_eq_some_iff.mp h with ⟨k, hk, hidx⟩
      rw [← hidx, ih hk]
      exact unaryAuxiliary_toInt op _
  | inside child collection ih => exact ih h
  | extendExpr child value ih => exact ih h
  | binaryOpr op lhs rhs ihl ihr =>
      simp only [auxiliary] at h
      split at h
      · next l_val r_val hl hr =>
          rw [ihl hl, ihr hr] at h
          exact binaryAuxiliary_toInt h
      · cases h
  | vectorAccess lhs rhs ihl ihr =>
      simp only [auxiliary] at h
      split at h
      · cases h
        rfl
      · cases h
  | ifThenElse a b c iha ihb ihc =>
      simp only [auxiliary] at h
      split at h
      · next a_val b_val c_val ha hb hc =>
          cases h
          have hzero : a_val ≠ 0 ↔ word vec_idx_ a ≠ 0 := by
            rw [iha ha]
            exact not_congr (BitVec.toInt_inj (y := 0#32))
          rw [word]
          by_cases hcond : a_val ≠ 0
          · rw [if_pos hcond, if_pos (hzero.mp hcond)]
            exact ihb hb
          · rw [if_neg hcond, if_neg (fun hword => hcond (hzero.mpr hword))]
            exact ihc hc
      · cases h
  | forEach lhs rhs ihl ihr => exact ihr h
  | unique child ih => cases h
  | bitslice child r l ih =>
      rcases Option.map_eq_some_iff.mp h with ⟨k, hk, hidx⟩
      rw [← hidx, ih hk, word, toInt_truthWord, ← toInt_beq]
      rfl

/-- The operands of an operator are visited without an exception, and what is applied in them
is among the given applications. -/
def OperandsIn (a : Application) (as : List Application) : Prop :=
  throws a.lhs = false ∧ throws a.rhs = false ∧
    (forall x, x ∈ applications a.lhs -> x ∈ as) ∧ forall x, x ∈ applications a.rhs -> x ∈ as

theorem OperandsIn.mono {a : Application} {as bs : List Application} (h : OperandsIn a as)
    (hsub : forall x, x ∈ as -> x ∈ bs) : OperandsIn a bs :=
  ⟨h.left, h.right.left, fun x hx => hsub x (h.right.right.left x hx),
    fun x hx => hsub x (h.right.right.right x hx)⟩

theorem mem_of_mem_unless {b : Bool} {a : Application} {as : List Application}
    (h : a ∈ if b = true then [] else as) : b = false ∧ a ∈ as := by
  cases b with
  | true => cases h
  | false => exact ⟨rfl, h⟩

theorem operandsIn_of_mem {n : Node} {a : Application} (ha : a ∈ applications n) :
    OperandsIn a (applications n) := by
  induction n with
  | unaryOpr op child ih => exact ih ha
  | inside child collection ih => exact ih ha
  | extendExpr child value ih => exact ih ha
  | forEach lhs rhs ihl ihr => exact ihr ha
  | bitslice child r l ih => exact ih ha
  | binaryOpr op lhs rhs ihl ihr =>
      rw [applications] at ha ⊢
      rcases List.mem_append.mp ha with ha | ha
      · exact (ihl ha).mono fun x hx => List.mem_append_left _ hx
      · rcases mem_of_mem_unless ha with ⟨hlhs, ha⟩
        rw [hlhs]
        rcases List.mem_append.mp ha with ha | ha
        · exact (ihr ha).mono fun x hx => List.mem_append_right _ (List.mem_append_left _ hx)
        · rcases mem_of_mem_unless ha with ⟨hrhs, ha⟩
          rw [List.mem_singleton.mp ha]
          exact ⟨hlhs, hrhs, fun x hx => List.mem_append_left _ hx,
            fun x hx => List.mem_append_right _ (List.mem_append_left _ hx)⟩
  | vectorAccess lhs rhs ihl ihr =>
      rw [applications] at ha ⊢
      rcases List.mem_append.mp ha with ha | ha
      · exact (ihl ha).mono fun x hx => List.mem_append_left _ hx
      · rcases mem_of_mem_unless ha with ⟨hlhs, ha⟩
        rw [hlhs]
        exact (ihr ha).mono fun x hx => List.mem_append_right _ hx
  | ifThenElse a b c iha ihb ihc =>
      rw [applications] at ha ⊢
      rcases List.mem_append.mp ha with ha | ha
      · exact (iha ha).mono fun x hx => List.mem_append_left _ hx
      · rcases mem_of_mem_unless ha with ⟨hfst, ha⟩
        rw [hfst]
        rcases List.mem_append.mp ha with ha | ha
        · exact (ihb ha).mono fun x hx => List.mem_append_right _ (List.mem_append_left _ hx)
        · rcases mem_of_mem_unless ha with ⟨hsnd, ha⟩
          rw [hsnd]
          exact (ihc ha).mono fun x hx => List.mem_append_right _ (List.mem_append_right _ hx)
  | _ => cases ha

/-- The divisions and shifts that a visit performs are all defined exactly when, with zero
for the variables and elements and modulo 2 ^ 32, no operator of the body divides by zero or
the least number by minus one, or shifts by 32 or more.  A visit that ends normally has
performed no other ones. -/
theorem index_arithmetic_defined_iff (vec_idx_ : Nat) (n : Node) :
    ((forall o, o ∈ operations vec_idx_ n -> o.Defined) ↔
        forall a, a ∈ applications n ->
          SafeWords a.op (word vec_idx_ a.lhs) (word vec_idx_ a.rhs)) ∧
      forall st found, visit vec_idx_ n st = .ok found ->
        forall o, o ∈ operations vec_idx_ n -> o.Defined := by
  refine ⟨?_, fun st found hfound => defined_of_visit hfound⟩
  rw [(operations_spec vec_idx_ n).left]
  constructor
  · intro h a ha
    rcases operandsIn_of_mem ha with ⟨hlhs, hrhs, hsubl, hsubr⟩
    rcases (operations_spec vec_idx_ a.lhs).right
      ((operations_spec vec_idx_ a.lhs).left.mpr fun x hx => h x (hsubl x hx)) hlhs with ⟨l_val, hl⟩
    rcases (operations_spec vec_idx_ a.rhs).right
      ((operations_spec vec_idx_ a.rhs).left.mpr fun x hx => h x (hsubr x hx)) hrhs with ⟨r_val, hr⟩
    have hsafe := h a ha l_val r_val hl hr
    rw [auxiliary_eq_toInt hl, auxiliary_eq_toInt hr] at hsafe
    exact (safeOperands_toInt_iff _ _ _).mp hsafe
  · intro h a ha l_val r_val hl hr
    rw [auxiliary_eq_toInt hl, auxiliary_eq_toInt hr]
    exact (safeOperands_toInt_iff _ _ _).mpr (h a ha)

/-- `foreach(v, v[_i] % v[_i - 1] == 0)` -/
def remainderOfNeighbours : Node :=
  .forEach (.vectorExpr 1 8 false)
    (.binaryOpr .equalOpr
      (.binaryOpr .moduloOpr
        (.vectorAccess (.vectorExpr 1 8 false) (.placeholder 2))
        (.vectorAccess (.vectorExpr 1 8 false)
          (.binaryOpr .minusOpr (.placeholder 2) (.constant ⟨1, 1, false⟩))))
      (.constant ⟨0, 1, false⟩))

theorem remainder_by_zero :
    ¬ forall (mng mng' : ConstraintManager) (name : String) (c_id : Nat) (n : Node)
      (soft cover : Bool), n.isForEach = true ->
      mng.makeConstraint name c_id (FixWidthVisitor.fixWidth n) soft cover = .ok mng' ->
      forall (vec_idx_ : Nat) (o : IntOperation),
        o ∈ operations vec_idx_ (FixWidthVisitor.fixWidth n) -> o.Defined := by
  intro h
  have hmem : IntOperation.quotient 0 0 ∈
      operations 1 (FixWidthVisitor.fixWidth remainderOfNeighbours) := by
    decide +kernel
  have hdefined := h ⟨[], [], false⟩ _ "neighbours" 0 remainderOfNeighbours false false rfl rfl 1
    _ hmem
  exact hdefined.left rfl

end ReplaceVisitor
end Ir
end Crave
