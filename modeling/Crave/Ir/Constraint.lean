import Crave.Ir.Context
import Crave.Ir.FixWidth
import Mathlib.Data.List.Nodup

/-!
# Constraints and their managers

A constraint keeps its width-fixed expression, the support set and its kind.
A manager owns the constraints that were made through one generator and
remembers whether they changed since the generator was last built.
-/

namespace Crave
namespace Ir

/-- A user constraint.  `unique_` is present for a vector constraint and tells
whether it is a `unique` or a `foreach`. -/
structure UserConstraint where
  id_ : Nat
  expr_ : Node
  name_ : String
  support_vars_ : Finset Nat
  unique_ : Option Bool
  soft_ : Bool
  cover_ : Bool
  enabled_ : Bool
  complexity_ : Nat
deriving DecidableEq

namespace UserConstraint

def isVectorConstraint (c : UserConstraint) : Bool :=
  c.unique_.isSome

def isUnique (c : UserConstraint) : Bool :=
  c.unique_ == some true

/-- Neither soft nor a coverage goal. -/
def isHard (c : UserConstraint) : Bool :=
  !c.soft_ && !c.cover_

/-- The expression is over declared variables and the support set is its own. -/
structure Made (variables_ : Declarations) (c : UserConstraint) : Prop where
  declared : c.expr_.DeclaredIn variables_
  support : c.support_vars_ = c.expr_.supportVars

end UserConstraint

/-!
## Complexity estimation
-/

namespace ComplexityEstimationVisitor

/-- The operators whose complexities are multiplied. -/
def isComplex : BinaryOperator -> Bool
  | .multipliesOpr | .devideOpr | .moduloOpr => true
  | _ => false

def visitBinExpr (op : BinaryOperator) (lhs rhs : Nat) : Nat :=
  if isComplex op then
    if 0 < lhs then
      if 0 < rhs then lhs * rhs % 2 ^ 32 else lhs
    else
      rhs
  else
    (lhs + rhs) % 2 ^ 32

def visit : Node -> Except String Nat
  | .placeholder _ => .error "Placeholder is not allowed in ComplexityEstimationVisitor."
  | .variableExpr _ bitsize _ => .ok bitsize
  | .constant _ => .ok 0
  | .vectorExpr _ bitsize _ => .ok bitsize
  | .unaryOpr _ child => visit child
  | .inside child _ => visit child
  | .extendExpr child _ => visit child
  | .binaryOpr op lhs rhs =>
      match visit lhs with
      | .error e => .error e
      | .ok l =>
          match visit rhs with
          | .error e => .error e
          | .ok r => .ok (visitBinExpr op l r)
  | .vectorAccess _ _ =>
      .error "VectorAccess is not allowed in ComplexityEstimationVisitor."
  | .ifThenElse a b c =>
      match visit a with
      | .error e => .error e
      | .ok x =>
          match visit b with
          | .error e => .error e
          | .ok y =>
              match visit c with
              | .error e => .error e
              | .ok z => .ok ((x + y + z) % 2 ^ 32)
  | .forEach _ _ => .error "ForEach is not allowed in ComplexityEstimationVisitor."
  | .unique _ => .error "Unique is not allowed in ComplexityEstimationVisitor."
  | .bitslice child r l =>
      match visit child with
      | .error e => .error e
      | .ok _ => .ok (r - l + 1)

end ComplexityEstimationVisitor

/-!
## Constraint managers
-/

/-- The constraints of one generator in the order in which they were made.
`constr_map_` leads from a name to the position of the constraint. -/
structure ConstraintManager where
  constraints_ : List UserConstraint
  constr_map_ : List (String × Nat)
  changed_ : Bool

namespace ConstraintManager

def new : ConstraintManager :=
  { constraints_ := [], constr_map_ := [], changed_ := false }

/-- The constraint that `constr_map_` has under a name, with its position. -/
def find (mng : ConstraintManager) (key : String) : Option (Nat × UserConstraint) :=
  match mng.constr_map_.lookup key with
  | some i => (mng.constraints_[i]?).map fun c => (i, c)
  | none => none

def isConstraintEnabled (mng : ConstraintManager) (key : String) : Bool :=
  match mng.find key with
  | some (_, c) => c.enabled_
  | none => false

def isChanged (mng : ConstraintManager) : Bool :=
  mng.changed_

def resetChanged (mng : ConstraintManager) : ConstraintManager :=
  { mng with changed_ := false }

/-- Enable or disable the constraint at a position. -/
def setEnabled (mng : ConstraintManager) (i : Nat) (c : UserConstraint) (enabled : Bool) :
    ConstraintManager :=
  { mng with
    constraints_ := mng.constraints_.set i { c with enabled_ := enabled }
    changed_ := true }

def enableConstraint (mng : ConstraintManager) (key : String) : ConstraintManager × Bool :=
  match mng.find key with
  | some (i, c) => (if !c.enabled_ then mng.setEnabled i c true else mng, true)
  | none => (mng, false)

def disableConstraint (mng : ConstraintManager) (key : String) : ConstraintManager × Bool :=
  match mng.find key with
  | some (i, c) => (if c.enabled_ then mng.setEnabled i c false else mng, true)
  | none => (mng, false)

def makeConstraint (mng : ConstraintManager) (name : String) (c_id : Nat) (n : Node)
    (soft cover : Bool) : Except String ConstraintManager :=
  if (mng.constr_map_.lookup name).isSome then
    .error (name ++ "Constraint already exists.")
  else
    let unique_ :=
      if n.isForEach then some false else if n.isUnique then some true else none
    if soft && cover then
      .error "!c->isSoft() || !c->isCover()"
    else if unique_.isSome && cover then
      .error "!c->isVectorConstraint() || !c->isCover()"
    else
      match if unique_.isSome then .ok 0 else ComplexityEstimationVisitor.visit n with
      | .error e => .error e
      | .ok complexity_ =>
          .ok
            { constraints_ := mng.constraints_ ++
                [{ id_ := c_id
                   expr_ := n
                   name_ := name
                   support_vars_ := n.supportVars
                   unique_ := unique_
                   soft_ := soft
                   cover_ := cover
                   enabled_ := true
                   complexity_ := complexity_ }]
              constr_map_ := (name, mng.constraints_.length) :: mng.constr_map_
              changed_ := true }

def enabled (mng : ConstraintManager) : List UserConstraint :=
  mng.constraints_.filter UserConstraint.enabled_

/-!
## The name map

The map and the list are in bijection: a name leads to a position exactly when
the constraint at the position has the name.
-/

def Consistent (mng : ConstraintManager) : Prop :=
  forall key i, mng.constr_map_.lookup key = some i ↔
    (mng.constraints_[i]?).map UserConstraint.name_ = some key

section Consistent

variable {mng mng' : ConstraintManager} {key : String} {i : Nat} {c : UserConstraint}

theorem consistent_new : Consistent new := by
  intro key i
  simp [new]

theorem Consistent.names_nodup (h : Consistent mng) :
    (mng.constraints_.map UserConstraint.name_).Nodup := by
  rw [List.nodup_iff_getElem?_ne_getElem?]
  intro i j hij hj heq
  rw [List.getElem?_map, List.getElem?_map] at heq
  have hlen : j < mng.constraints_.length := by simpa using hj
  have hname : (mng.constraints_[j]?).map UserConstraint.name_ =
      some mng.constraints_[j].name_ := by
    rw [List.getElem?_eq_getElem hlen]
    rfl
  have hi := (h _ _).mpr (heq.trans hname)
  have hj' := (h _ _).mpr hname
  rw [hi] at hj'
  exact (Nat.ne_of_lt hij) (Option.some.inj hj')

theorem mem_of_find (h : mng.find key = some (i, c)) : mng.constraints_[i]? = some c := by
  unfold find at h
  split at h
  · rcases Option.map_eq_some_iff.mp h with ⟨d, hd, heq⟩
    cases heq
    exact hd
  · cases h

theorem map_setEnabled {α : Type} (f : UserConstraint -> α)
    (hf : forall d enabled, f { d with enabled_ := enabled } = f d)
    (hc : mng.constraints_[i]? = some c) (enabled : Bool) :
    (mng.setEnabled i c enabled).constraints_.map f = mng.constraints_.map f := by
  unfold setEnabled
  rw [List.map_set, hf]
  apply List.ext_getElem?
  intro j
  by_cases hj : i = j
  · subst hj
    have hlt : i < mng.constraints_.length := (List.getElem?_eq_some_iff.mp hc).1
    rw [List.getElem?_set_self (by simpa using hlt), List.getElem?_map, hc]
    rfl
  · rw [List.getElem?_set_ne hj]

theorem Consistent.setEnabled (h : Consistent mng) (hc : mng.constraints_[i]? = some c)
    (enabled : Bool) : Consistent (mng.setEnabled i c enabled) := by
  intro key j
  have hnames := map_setEnabled UserConstraint.name_ (fun _ _ => rfl) hc enabled
  rw [← List.getElem?_map, hnames, List.getElem?_map]
  exact h key j

/-- Enabling or disabling leaves the manager or sets a flag and marks the change. -/
theorem enableConstraint_cases (mng : ConstraintManager) (key : String) :
    (mng.enableConstraint key).1 = mng ∨ exists i c, mng.constraints_[i]? = some c ∧
      (mng.enableConstraint key).1 = mng.setEnabled i c true := by
  unfold enableConstraint
  split
  · rename_i i c hfind
    simp only
    split
    · exact Or.inr ⟨i, c, mem_of_find hfind, rfl⟩
    · exact Or.inl rfl
  · exact Or.inl rfl

theorem disableConstraint_cases (mng : ConstraintManager) (key : String) :
    (mng.disableConstraint key).1 = mng ∨ exists i c, mng.constraints_[i]? = some c ∧
      (mng.disableConstraint key).1 = mng.setEnabled i c false := by
  unfold disableConstraint
  split
  · rename_i i c hfind
    simp only
    split
    · exact Or.inr ⟨i, c, mem_of_find hfind, rfl⟩
    · exact Or.inl rfl
  · exact Or.inl rfl

theorem makeConstraint_spec {name : String} {c_id : Nat} {n : Node} {soft cover : Bool}
    (h : mng.makeConstraint name c_id n soft cover = .ok mng') :
    mng.constr_map_.lookup name = none ∧ exists c : UserConstraint,
      mng' =
        { constraints_ := mng.constraints_ ++ [c]
          constr_map_ := (name, mng.constraints_.length) :: mng.constr_map_
          changed_ := true } ∧
      c.id_ = c_id ∧ c.expr_ = n ∧ c.name_ = name ∧ c.support_vars_ = n.supportVars ∧
      c.soft_ = soft ∧ c.cover_ = cover ∧ c.enabled_ = true := by
  unfold makeConstraint at h
  split at h
  · cases h
  · rename_i hlookup
    generalize (if n.isForEach = true then some false
      else if n.isUnique = true then some true else none) = unique_ at h
    simp only at h
    split at h
    · cases h
    · split at h
      · cases h
      · split at h
        · cases h
        · cases h
          exact ⟨Option.not_isSome_iff_eq_none.mp hlookup, _, rfl, rfl, rfl, rfl, rfl, rfl, rfl, rfl⟩

/-- No constraint is made that is soft and a coverage goal as well. -/
theorem makeConstraint_exclusive {name : String} {c_id : Nat} {n : Node} {soft cover : Bool}
    (hall : forall d, d ∈ mng.constraints_ -> (d.soft_ && d.cover_) = false)
    (h : mng.makeConstraint name c_id n soft cover = .ok mng') :
    forall d, d ∈ mng'.constraints_ -> (d.soft_ && d.cover_) = false := by
  rcases makeConstraint_spec h with ⟨_, d, hmng', _, _, _, _, hsoft, hcover, _⟩
  have hboth : (soft && cover) = false := by
    unfold ConstraintManager.makeConstraint at h
    split at h
    · cases h
    · simp only at h
      split at h
      · cases h
      · next hne => exact Bool.eq_false_iff.mpr hne
  intro d' hd'
  rw [hmng'] at hd'
  cases List.mem_append.mp hd' with
  | inl hold => exact hall d' hold
  | inr hnew =>
      rw [List.mem_singleton.mp hnew, hsoft, hcover]
      exact hboth

theorem Consistent.makeConstraint (h : Consistent mng) {name : String} {c_id : Nat} {n : Node}
    {soft cover : Bool} (hm : mng.makeConstraint name c_id n soft cover = .ok mng') :
    Consistent mng' := by
  rcases makeConstraint_spec hm with ⟨hfresh, c, rfl, -, -, hname, -⟩
  intro key i
  have hnew : (mng.constraints_ ++ [c])[mng.constraints_.length]? = some c := by simp
  rw [List.lookup_cons]
  by_cases hkey : key = name
  · subst hkey
    rw [beq_self_eq_true]
    constructor
    · intro heq
      cases heq
      rw [hnew, Option.map_some, hname]
    · intro heq
      by_cases hi : i < mng.constraints_.length
      · rw [List.getElem?_append_left hi, ← h, hfresh] at heq
        cases heq
      · rcases Nat.lt_or_ge mng.constraints_.length i with hlt | hle
        · rw [List.getElem?_eq_none (by simpa using Nat.succ_le_of_lt hlt)] at heq
          cases heq
        · rw [Nat.le_antisymm hle (Nat.le_of_not_lt hi)]
  · have hne : (key == name) = false := beq_eq_false_iff_ne.mpr hkey
    rw [hne]
    simp only [h key i]
    by_cases hi : i < mng.constraints_.length
    · rw [List.getElem?_append_left hi]
    · rw [List.getElem?_eq_none (Nat.le_of_not_lt hi)]
      constructor
      · intro heq
        cases heq
      · intro heq
        rcases Nat.lt_or_ge mng.constraints_.length i with hlt | hle
        · rw [List.getElem?_eq_none (by simpa using Nat.succ_le_of_lt hlt)] at heq
          cases heq
        · have hlast : i = mng.constraints_.length :=
            Nat.le_antisymm hle (Nat.le_of_not_lt hi)
          rw [hlast, hnew, Option.map_some, hname] at heq
          exact absurd (Option.some.inj heq).symm hkey

end Consistent

end ConstraintManager

/-!
## Width fixing and declarations
-/

open FixWidthVisitor in
/-- Extension nodes carry no variable, so fixing the widths keeps declarations. -/
theorem Node.DeclaredIn.fixWidth {variables_ : Declarations} {n : Node}
    (h : n.DeclaredIn variables_) : (FixWidthVisitor.fixWidth n).DeclaredIn variables_ := by
  have hext : forall fst snd : StackEntry, fst.1.DeclaredIn variables_ ->
      snd.1.DeclaredIn variables_ ->
      (evalBinExpr fst snd).1.1.DeclaredIn variables_ ∧
        (evalBinExpr fst snd).2.1.DeclaredIn variables_ := by
    intro fst snd hfst hsnd
    unfold evalBinExpr
    split
    · exact ⟨hfst, hsnd⟩
    · split
      · exact ⟨hfst, hsnd⟩
      · exact ⟨hfst, hsnd⟩
  unfold FixWidthVisitor.fixWidth
  induction n with
  | placeholder id => trivial
  | variableExpr id bitsize sign => exact h
  | constant c => trivial
  | vectorExpr id bitsize sign => trivial
  | unaryOpr op child ih => exact ih h
  | inside child collection ih => exact ih h
  | extendExpr child value ih => exact ih h
  | binaryOpr op lhs rhs ihl ihr =>
      rw [visit, visitBinaryOpr_eq]
      exact hext _ _ (ihl h.1) (ihr h.2)
  | vectorAccess lhs rhs ihl ihr => exact ⟨ihl h.1, ihr h.2⟩
  | ifThenElse a b c iha ihb ihc => exact ⟨iha h.1, ihb h.2.1, ihc h.2.2⟩
  | forEach lhs rhs ihl ihr => exact ⟨ihl h.1, ihr h.2⟩
  | unique child ih => exact ih h
  | bitslice child r l ih => exact ih h

end Ir
end Crave
