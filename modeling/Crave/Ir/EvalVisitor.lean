import Crave.Ir.Context

/-!
# Evaluation on host integers

`EvalVisitor` computes an expression on 64-bit host integers.  Every value
comes with the flag whether it is known; unassigned variables and divisions by
zero are not.
-/

namespace Crave
namespace Ir
namespace EvalVisitor

abbrev StackEntry := Constant × Bool

abbrev EvalMap := Nat -> Option Constant

def visitVariableExpr (id : Nat) (evalMap_ : EvalMap) : StackEntry :=
  match evalMap_ id with
  | some c => (c, true)
  | none => (Constant.unknown, false)

def visitUnaryOpr (op : UnaryOperator) (e : StackEntry) : StackEntry :=
  match op with
  | .notOpr => (Constant.ofBool (e.1.value == 0), e.2)
  | .negOpr => ({ e.1 with value := -e.1.value }, e.2)
  | .complementOpr => ({ e.1 with value := ~~~e.1.value }, e.2)

def visitInside (e : StackEntry) (collection : List Constant) : StackEntry :=
  (Constant.ofBool (collection.any fun c => c.value == e.1.value), e.2)

def visitExtendExpr (value : Nat) (e : StackEntry) : StackEntry :=
  ({ e.1 with bitsize := e.1.bitsize + value }, e.2)

def numberResult (f : BitVec 64 -> BitVec 64 -> BitVec 64) (lhs rhs : StackEntry) :
    StackEntry :=
  ({ value := f lhs.1.value rhs.1.value
     bitsize := lhs.1.bitsize
     sign := lhs.1.sign || rhs.1.sign }, lhs.2 && rhs.2)

def booleanResult (f : BitVec 64 -> BitVec 64 -> Bool) (lhs rhs : StackEntry) :
    StackEntry :=
  (Constant.ofBool (f lhs.1.value rhs.1.value), lhs.2 && rhs.2)

/-- Division and remainder are signed as soon as one operand is.  The quotient
of the least integer and minus one is undefined. -/
def divisionResult (signedOp unsignedOp : BitVec 64 -> BitVec 64 -> BitVec 64)
    (lhs rhs : StackEntry) : Except String StackEntry :=
  if rhs.1.value = 0 then
    .ok (Constant.unknown, false)
  else if lhs.1.sign || rhs.1.sign then
    if lhs.1.value = BitVec.intMin 64 ∧ rhs.1.value = -1 then
      .error "undefined"
    else
      .ok ({ value := signedOp lhs.1.value rhs.1.value
             bitsize := lhs.1.bitsize
             sign := true }, lhs.2 && rhs.2)
  else
    .ok ({ value := unsignedOp lhs.1.value rhs.1.value
           bitsize := lhs.1.bitsize
           sign := false }, lhs.2 && rhs.2)

/-- A shift by the width of the host integer or more is undefined. -/
def shiftResult (f : BitVec 64 -> BitVec 64 -> BitVec 64) (lhs rhs : StackEntry) :
    Except String StackEntry :=
  if rhs.1.value.toNat < 64 then
    .ok (numberResult f lhs rhs)
  else
    .error "undefined"

def visitBinaryOpr (op : BinaryOperator) (lhs rhs : StackEntry) :
    Except String StackEntry :=
  match op with
  | .andOpr => .ok (numberResult (· &&& ·) lhs rhs)
  | .orOpr => .ok (numberResult (· ||| ·) lhs rhs)
  | .logicalAndOpr => .ok (booleanResult (fun x y => x != 0 && y != 0) lhs rhs)
  | .logicalOrOpr => .ok (booleanResult (fun x y => x != 0 || y != 0) lhs rhs)
  | .xorOpr => .ok (numberResult (· ^^^ ·) lhs rhs)
  | .equalOpr => .ok (booleanResult (· == ·) lhs rhs)
  | .notEqualOpr => .ok (booleanResult (· != ·) lhs rhs)
  | .lessOpr => .ok (booleanResult (fun x y => x.ult y) lhs rhs)
  | .lessEqualOpr => .ok (booleanResult (fun x y => x.ule y) lhs rhs)
  | .greaterOpr => .ok (booleanResult (fun x y => y.ult x) lhs rhs)
  | .greaterEqualOpr => .ok (booleanResult (fun x y => y.ule x) lhs rhs)
  | .plusOpr => .ok (numberResult (· + ·) lhs rhs)
  | .minusOpr => .ok (numberResult (· - ·) lhs rhs)
  | .multipliesOpr => .ok (numberResult (· * ·) lhs rhs)
  | .devideOpr => divisionResult BitVec.sdiv BitVec.udiv lhs rhs
  | .moduloOpr => divisionResult BitVec.srem BitVec.umod lhs rhs
  | .shiftLeftOpr => shiftResult (· <<< ·) lhs rhs
  | .shiftRightOpr => shiftResult (· >>> ·) lhs rhs

def visitIfThenElse (a b c : StackEntry) : StackEntry :=
  if a.1.value ≠ 0 then b else c

def sliceMask (r l : Nat) : BitVec 64 :=
  (List.range' l (r + 1 - l)).foldl (fun v i => v ||| (1#64 <<< i)) 0

/-- A slice is never marked as known. -/
def visitBitslice (r l : Nat) (e : StackEntry) : StackEntry :=
  ({ value := (sliceMask r l &&& e.1.value) >>> l
     bitsize := r - l + 1
     sign := false }, false)

/-- An equality between an assigned and an unassigned variable assigns the
latter. -/
def bindTemporary (id₁ id₂ : Nat) (evalMap_ : EvalMap) : EvalMap :=
  if id₁ ≠ 0 ∧ id₂ ≠ 0 then
    match evalMap_ id₁, evalMap_ id₂ with
    | some c, none => Function.update evalMap_ id₂ (some c)
    | none, some c => Function.update evalMap_ id₁ (some c)
    | _, _ => evalMap_
  else
    evalMap_

/-- The identifier that `static_cast<VariableExpr*>` finds in a node.  For a
node that is no variable it is whatever is stored there. -/
def castId (stored : Node -> Nat) : Node -> Nat
  | .variableExpr id _ _ => id
  | n => stored n

def visit (stored : Node -> Nat) : Node -> EvalMap -> Except String (StackEntry × EvalMap)
  | .placeholder _, _ => .error "exprStack_.size() >= 1"
  | .variableExpr id _ _, evalMap_ => .ok (visitVariableExpr id evalMap_, evalMap_)
  | .constant c, evalMap_ => .ok ((c, true), evalMap_)
  | .vectorExpr id _ _, evalMap_ => .ok (visitVariableExpr id evalMap_, evalMap_)
  | .unaryOpr op child, evalMap_ =>
      match visit stored child evalMap_ with
      | .error e => .error e
      | .ok (entry, evalMap_) => .ok (visitUnaryOpr op entry, evalMap_)
  | .inside child collection, evalMap_ =>
      match visit stored child evalMap_ with
      | .error e => .error e
      | .ok (entry, evalMap_) => .ok (visitInside entry collection, evalMap_)
  | .extendExpr child value, evalMap_ =>
      match visit stored child evalMap_ with
      | .error e => .error e
      | .ok (entry, evalMap_) => .ok (visitExtendExpr value entry, evalMap_)
  | .binaryOpr op lhs rhs, evalMap_ =>
      let bound :=
        if op = .equalOpr then
          bindTemporary (castId stored lhs) (castId stored rhs) evalMap_
        else
          evalMap_
      match visit stored lhs bound with
      | .error e => .error e
      | .ok (fst, evalMap_) =>
          match visit stored rhs evalMap_ with
          | .error e => .error e
          | .ok (snd, evalMap_) =>
              match visitBinaryOpr op fst snd with
              | .error e => .error e
              | .ok entry => .ok (entry, evalMap_)
  | .vectorAccess _ _, _ => .error "VectorAccess is not allowed in EvalVisitor."
  | .ifThenElse a b c, evalMap_ =>
      match visit stored a evalMap_ with
      | .error e => .error e
      | .ok (fst, evalMap_) =>
          match visit stored b evalMap_ with
          | .error e => .error e
          | .ok (snd, evalMap_) =>
              match visit stored c evalMap_ with
              | .error e => .error e
              | .ok (trd, evalMap_) => .ok (visitIfThenElse fst snd trd, evalMap_)
  | .forEach _ _, _ => .error "ForEach is not allowed in EvalVisitor."
  | .unique _, _ => .error "Unique is not allowed in EvalVisitor."
  | .bitslice child r l, evalMap_ =>
      match visit stored child evalMap_ with
      | .error e => .error e
      | .ok (entry, evalMap_) => .ok (visitBitslice r l entry, evalMap_)

/-!
## Assigned variables

When every variable has a value no equality assigns one, and the value of an
expression is a function of the assignment.
-/

def value (evalMap_ : EvalMap) : Node -> Except String StackEntry
  | .placeholder _ => .error "exprStack_.size() >= 1"
  | .variableExpr id _ _ => .ok (visitVariableExpr id evalMap_)
  | .constant c => .ok (c, true)
  | .vectorExpr id _ _ => .ok (visitVariableExpr id evalMap_)
  | .unaryOpr op child =>
      match value evalMap_ child with
      | .error e => .error e
      | .ok entry => .ok (visitUnaryOpr op entry)
  | .inside child collection =>
      match value evalMap_ child with
      | .error e => .error e
      | .ok entry => .ok (visitInside entry collection)
  | .extendExpr child value' =>
      match value evalMap_ child with
      | .error e => .error e
      | .ok entry => .ok (visitExtendExpr value' entry)
  | .binaryOpr op lhs rhs =>
      match value evalMap_ lhs with
      | .error e => .error e
      | .ok fst =>
          match value evalMap_ rhs with
          | .error e => .error e
          | .ok snd => visitBinaryOpr op fst snd
  | .vectorAccess _ _ => .error "VectorAccess is not allowed in EvalVisitor."
  | .ifThenElse a b c =>
      match value evalMap_ a with
      | .error e => .error e
      | .ok fst =>
          match value evalMap_ b with
          | .error e => .error e
          | .ok snd =>
              match value evalMap_ c with
              | .error e => .error e
              | .ok trd => .ok (visitIfThenElse fst snd trd)
  | .forEach _ _ => .error "ForEach is not allowed in EvalVisitor."
  | .unique _ => .error "Unique is not allowed in EvalVisitor."
  | .bitslice child r l =>
      match value evalMap_ child with
      | .error e => .error e
      | .ok entry => .ok (visitBitslice r l entry)

/-- A node over one child has a value only when the child has one. -/
theorem child_ok {evalMap_ : EvalMap} {child : Node} {f : StackEntry -> StackEntry}
    {entry : StackEntry}
    (h : (match value evalMap_ child with
      | .error e => .error e
      | .ok e => .ok (f e)) = Except.ok (ε := String) entry) :
    exists e, value evalMap_ child = .ok e ∧ entry = f e := by
  cases hchild : value evalMap_ child with
  | error e =>
      rw [hchild] at h
      cases h
  | ok e =>
      rw [hchild] at h
      exact ⟨e, rfl, (Except.ok.inj h).symm⟩

theorem value_unaryOpr_ok {evalMap_ : EvalMap} {op : UnaryOperator} {child : Node}
    {entry : StackEntry} (h : value evalMap_ (.unaryOpr op child) = .ok entry) :
    exists e, value evalMap_ child = .ok e ∧ entry = visitUnaryOpr op e :=
  child_ok h

theorem value_inside_ok {evalMap_ : EvalMap} {child : Node} {collection : List Constant}
    {entry : StackEntry} (h : value evalMap_ (.inside child collection) = .ok entry) :
    exists e, value evalMap_ child = .ok e ∧ entry = visitInside e collection :=
  child_ok h

theorem value_extendExpr_ok {evalMap_ : EvalMap} {child : Node} {value' : Nat}
    {entry : StackEntry} (h : value evalMap_ (.extendExpr child value') = .ok entry) :
    exists e, value evalMap_ child = .ok e ∧ entry = visitExtendExpr value' e :=
  child_ok h

theorem value_binaryOpr_ok {evalMap_ : EvalMap} {op : BinaryOperator} {lhs rhs : Node}
    {entry : StackEntry} (h : value evalMap_ (.binaryOpr op lhs rhs) = .ok entry) :
    exists fst snd, value evalMap_ lhs = .ok fst ∧ value evalMap_ rhs = .ok snd ∧
      visitBinaryOpr op fst snd = .ok entry := by
  simp only [value] at h
  cases hlhs : value evalMap_ lhs with
  | error e =>
      rw [hlhs] at h
      cases h
  | ok fst =>
      rw [hlhs] at h
      cases hrhs : value evalMap_ rhs with
      | error e =>
          rw [hrhs] at h
          cases h
      | ok snd =>
          rw [hrhs] at h
          exact ⟨fst, snd, rfl, rfl, h⟩

theorem value_ifThenElse_ok {evalMap_ : EvalMap} {a b c : Node} {entry : StackEntry}
    (h : value evalMap_ (.ifThenElse a b c) = .ok entry) :
    exists fst snd trd, value evalMap_ a = .ok fst ∧ value evalMap_ b = .ok snd ∧
      value evalMap_ c = .ok trd ∧ entry = visitIfThenElse fst snd trd := by
  simp only [value] at h
  cases ha : value evalMap_ a with
  | error e =>
      rw [ha] at h
      cases h
  | ok fst =>
      rw [ha] at h
      cases hb : value evalMap_ b with
      | error e =>
          rw [hb] at h
          cases h
      | ok snd =>
          rw [hb] at h
          cases hc : value evalMap_ c with
          | error e =>
              rw [hc] at h
              cases h
          | ok trd =>
              rw [hc] at h
              exact ⟨fst, snd, trd, rfl, rfl, rfl, (Except.ok.inj h).symm⟩

theorem value_bitslice_ok {evalMap_ : EvalMap} {child : Node} {r l : Nat} {entry : StackEntry}
    (h : value evalMap_ (.bitslice child r l) = .ok entry) :
    exists e, value evalMap_ child = .ok e ∧ entry = visitBitslice r l e :=
  child_ok h

def Extends (evalMap_ later : EvalMap) : Prop :=
  forall id c, evalMap_ id = some c -> later id = some c

theorem extends_update {evalMap_ : EvalMap} {id : Nat} (hid : evalMap_ id = none)
    (c : Constant) : Extends evalMap_ (Function.update evalMap_ id (some c)) := by
  intro i d hi
  have hne : i ≠ id := by
    intro heq
    rw [heq, hid] at hi
    cases hi
  simpa [Function.update, hne] using hi

theorem extends_bindTemporary (id₁ id₂ : Nat) (evalMap_ : EvalMap) :
    Extends evalMap_ (bindTemporary id₁ id₂ evalMap_) := by
  unfold bindTemporary
  split
  · cases h₁ : evalMap_ id₁ with
    | none =>
        cases h₂ : evalMap_ id₂ with
        | none => exact fun _ _ hid => hid
        | some c => exact extends_update h₁ c
    | some c =>
        cases h₂ : evalMap_ id₂ with
        | none => exact extends_update h₂ c
        | some d => exact fun _ _ hid => hid
  · exact fun _ _ hid => hid

/-- Every variable of the support has a value. -/
def Assigns (evalMap_ : EvalMap) (assignment : Nat -> Constant) (support : Finset Nat) :
    Prop :=
  forall id, id ∈ support -> evalMap_ id = some (assignment id)

theorem Assigns.extend {evalMap_ later : EvalMap} {assignment : Nat -> Constant}
    {support : Finset Nat} (h : Assigns evalMap_ assignment support)
    (hlater : Extends evalMap_ later) : Assigns later assignment support :=
  fun id hid => hlater id _ (h id hid)

theorem visit_eq_value (stored : Node -> Nat) {assignment : Nat -> Constant} {n : Node}
    {evalMap_ : EvalMap} (h : Assigns evalMap_ assignment n.supportVars) :
    exists later, Extends evalMap_ later ∧
      visit stored n evalMap_ =
        match value (fun id => some (assignment id)) n with
        | .error e => .error e
        | .ok entry => .ok (entry, later) := by
  induction n generalizing evalMap_ with
  | placeholder id => exact ⟨evalMap_, fun _ _ hid => hid, rfl⟩
  | variableExpr id bitsize sign =>
      refine ⟨evalMap_, fun _ _ hid => hid, ?_⟩
      simp only [visit, value, visitVariableExpr, h id (Finset.mem_singleton_self id)]
  | constant c => exact ⟨evalMap_, fun _ _ hid => hid, rfl⟩
  | vectorExpr id bitsize sign =>
      refine ⟨evalMap_, fun _ _ hid => hid, ?_⟩
      simp only [visit, value, visitVariableExpr, h id (Finset.mem_singleton_self id)]
  | unaryOpr op child ih =>
      rcases ih h with ⟨later, hlater, hvisit⟩
      refine ⟨later, hlater, ?_⟩
      simp only [visit, value, hvisit]
      cases value (fun id => some (assignment id)) child <;> rfl
  | inside child collection ih =>
      rcases ih h with ⟨later, hlater, hvisit⟩
      refine ⟨later, hlater, ?_⟩
      simp only [visit, value, hvisit]
      cases value (fun id => some (assignment id)) child <;> rfl
  | extendExpr child value' ih =>
      rcases ih h with ⟨later, hlater, hvisit⟩
      refine ⟨later, hlater, ?_⟩
      simp only [visit, value, hvisit]
      cases value (fun id => some (assignment id)) child <;> rfl
  | binaryOpr op lhs rhs ihl ihr =>
      have hbound : exists bound, bound = (if op = .equalOpr then
          bindTemporary (castId stored lhs) (castId stored rhs) evalMap_
        else evalMap_) ∧ Extends evalMap_ bound := by
        refine ⟨_, rfl, ?_⟩
        split
        · exact extends_bindTemporary _ _ _
        · exact fun _ _ hid => hid
      rcases hbound with ⟨bound, hbound, hextends⟩
      have hl := fun id hid => h id (Finset.mem_union_left _ hid)
      have hr := fun id hid => h id (Finset.mem_union_right _ hid)
      rcases ihl (Assigns.extend hl hextends) with ⟨mid, hmid, hvisitl⟩
      have hmid' : Extends evalMap_ mid := fun id c hid => hmid id c (hextends id c hid)
      rcases ihr (Assigns.extend hr hmid') with ⟨later, hlater, hvisitr⟩
      refine ⟨later, fun id c hid => hlater id c (hmid' id c hid), ?_⟩
      simp only [visit, ← hbound, hvisitl, value]
      cases value (fun id => some (assignment id)) lhs with
      | error e => rfl
      | ok fst =>
          simp only [hvisitr]
          cases value (fun id => some (assignment id)) rhs with
          | error e => rfl
          | ok snd => cases visitBinaryOpr op fst snd <;> rfl
  | vectorAccess lhs rhs ihl ihr => exact ⟨evalMap_, fun _ _ hid => hid, rfl⟩
  | ifThenElse a b c iha ihb ihc =>
      have ha := fun id hid =>
        h id (Finset.mem_union_left _ (Finset.mem_union_left _ hid))
      have hb := fun id hid =>
        h id (Finset.mem_union_left _ (Finset.mem_union_right _ hid))
      have hc := fun id hid => h id (Finset.mem_union_right _ hid)
      rcases iha ha with ⟨first, hfirst, hvisita⟩
      rcases ihb (Assigns.extend hb hfirst) with ⟨second, hsecond, hvisitb⟩
      have hsecond' : Extends evalMap_ second :=
        fun id c hid => hsecond id c (hfirst id c hid)
      rcases ihc (Assigns.extend hc hsecond') with ⟨later, hlater, hvisitc⟩
      refine ⟨later, fun id c hid => hlater id c (hsecond' id c hid), ?_⟩
      simp only [visit, hvisita, value]
      cases value (fun id => some (assignment id)) a with
      | error e => rfl
      | ok fst =>
          simp only [hvisitb]
          cases value (fun id => some (assignment id)) b with
          | error e => rfl
          | ok snd =>
              simp only [hvisitc]
              cases value (fun id => some (assignment id)) c <;> rfl
  | forEach lhs rhs ihl ihr => exact ⟨evalMap_, fun _ _ hid => hid, rfl⟩
  | unique child ih => exact ⟨evalMap_, fun _ _ hid => hid, rfl⟩
  | bitslice child r l ih =>
      rcases ih h with ⟨later, hlater, hvisit⟩
      refine ⟨later, hlater, ?_⟩
      simp only [visit, value, hvisit]
      cases value (fun id => some (assignment id)) child <;> rfl

end EvalVisitor
end Ir
end Crave
