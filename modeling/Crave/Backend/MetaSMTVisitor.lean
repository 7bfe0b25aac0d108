import Crave.Foundation.BitVectorTerm
import Crave.Ir.Context

/-!
# Translation of expressions to solver terms

`metaSMTVisitorImpl` walks an expression and pushes, for every node, a solver
term together with the sign it is to be read with.  Solver variables are made
at the first visit of an identifier and reused afterwards; `terminals_`
remembers them.
-/

namespace Crave
namespace Backend

open Foundation Ir

/-- The variables of a solver: one for each front-end identifier it has met,
and the fresh predicates that conflict analysis introduces. -/
inductive SolverVar where
  | terminal (id : Nat)
  | selector (k : Nat)
deriving DecidableEq, Repr

abbrev Formula := Term SolverVar

/-- `terminals_`: the width of the solver variable made for an identifier. -/
abbrev Terminals := Nat -> Option Nat

abbrev Entry := Formula × Bool

namespace MetaSMTVisitor

/-- A Boolean variable is a predicate and any other one a vector; in a term a predicate
counts as one bit. -/
def newTerminal (id bitsize : Nat) (sign : Bool) : Formula :=
  if bitsize == 1 && sign then .var (.terminal id) 1 else .var (.terminal id) bitsize

@[simp] theorem newTerminal_eq (id bitsize : Nat) (sign : Bool) :
    newTerminal id bitsize sign = .var (.terminal id) bitsize := by
  unfold newTerminal
  split
  · next h =>
      simp only [Bool.and_eq_true, beq_iff_eq] at h
      rw [h.left]
  · rfl

def visitVariableExpr (id bitsize : Nat) (sign : Bool) (terminals_ : Terminals) :
    Entry × Terminals :=
  match terminals_ id with
  | some width => ((.var (.terminal id) width, sign), terminals_)
  | none =>
      ((newTerminal id bitsize sign, sign),
        Function.update terminals_ id (some bitsize))

def visitConstant (c : Constant) : Entry :=
  if c.isBool then
    (if c.value = 0 then Term.false else Term.true, c.sign)
  else if c.sign then
    (.const ⟨c.bitsize, BitVec.ofInt c.bitsize c.value.toInt⟩, c.sign)
  else
    (.const ⟨c.bitsize, BitVec.ofNat c.bitsize c.value.toNat⟩, c.sign)

def visitNotOpr (entry : Entry) : Entry :=
  (.unary .not entry.1, entry.2)

def visitNegOpr (entry : Entry) : Entry :=
  (.unary .bvneg entry.1, entry.2)

def visitComplementOpr (entry : Entry) : Entry :=
  (.unary .bvnot entry.1, entry.2)

def visitUnaryOpr : UnaryOperator -> Entry -> Entry
  | .notOpr => visitNotOpr
  | .negOpr => visitNegOpr
  | .complementOpr => visitComplementOpr

def visitInside (entry : Entry) (collection : List Constant) : Entry :=
  (collection.foldl
    (fun result c =>
      .binary .or result (.binary .equal entry.1 (visitConstant c).1))
    Term.false, false)

def visitExtendExpr (value : Nat) (entry : Entry) : Entry :=
  if entry.2 then
    (.signExtend value entry.1, entry.2)
  else
    (.zeroExtend value entry.1, entry.2)

/-- The bitwise and arithmetic operators: the result is signed when an operand is. -/
def numberOpr (tag : BinaryTag) (fst snd : Entry) : Entry :=
  (.binary tag fst.1 snd.1, fst.2 || snd.2)

/-- Equality compares the bits, whatever the signs. -/
def equalityOpr (tag : BinaryTag) (fst snd : Entry) : Entry :=
  (.binary tag fst.1 snd.1, false)

/-- A shift keeps the sign of what is shifted. -/
def shiftOpr (tag : BinaryTag) (fst snd : Entry) : Entry :=
  (.binary tag fst.1 snd.1, fst.2)

/-- The four cases of operand signs that the orderings and the division share:
operands of different signs are widened by one bit and treated as signed. -/
def signCases (signedTag unsignedTag : BinaryTag) (lhs_p rhs_p : Entry) :
    Formula :=
  if lhs_p.2 && rhs_p.2 then
    .binary signedTag lhs_p.1 rhs_p.1
  else if !(lhs_p.2 || rhs_p.2) then
    .binary unsignedTag lhs_p.1 rhs_p.1
  else if lhs_p.2 then
    .binary signedTag (.signExtend 1 lhs_p.1) (.zeroExtend 1 rhs_p.1)
  else
    .binary signedTag (.zeroExtend 1 lhs_p.1) (.signExtend 1 rhs_p.1)

def visitLessOpr (lhs_p rhs_p : Entry) : Entry :=
  (signCases .bvslt .bvult lhs_p rhs_p, false)

def visitLessEqualOpr (lhs_p rhs_p : Entry) : Entry :=
  (signCases .bvsle .bvule lhs_p rhs_p, false)

def visitGreaterOpr (lhs_p rhs_p : Entry) : Entry :=
  (signCases .bvsgt .bvugt lhs_p rhs_p, false)

def visitGreaterEqualOpr (lhs_p rhs_p : Entry) : Entry :=
  (signCases .bvsge .bvuge lhs_p rhs_p, false)

def visitDevideOpr (lhs_p rhs_p : Entry) : Entry :=
  (signCases .bvsdiv .bvudiv lhs_p rhs_p, lhs_p.2 || rhs_p.2)

/-- Only the sign of the left operand selects the remainder. -/
def visitModuloOpr (lhs_p rhs_p : Entry) : Entry :=
  (.binary (if lhs_p.2 then .bvsrem else .bvurem) lhs_p.1 rhs_p.1,
    lhs_p.2 || rhs_p.2)

def visitBinaryOpr : BinaryOperator -> Entry -> Entry -> Entry
  | .andOpr => numberOpr .bvand
  | .orOpr => numberOpr .bvor
  | .logicalAndOpr => numberOpr .and
  | .logicalOrOpr => numberOpr .or
  | .xorOpr => numberOpr .bvxor
  | .equalOpr => equalityOpr .equal
  | .notEqualOpr => equalityOpr .nequal
  | .lessOpr => visitLessOpr
  | .lessEqualOpr => visitLessEqualOpr
  | .greaterOpr => visitGreaterOpr
  | .greaterEqualOpr => visitGreaterEqualOpr
  | .plusOpr => numberOpr .bvadd
  | .minusOpr => numberOpr .bvsub
  | .multipliesOpr => numberOpr .bvmul
  | .devideOpr => visitDevideOpr
  | .moduloOpr => visitModuloOpr
  | .shiftLeftOpr => shiftOpr .bvshl
  | .shiftRightOpr => shiftOpr .bvshr

def visitIfThenElse (fst snd trd : Entry) : Entry :=
  (.ite (.binary .equal fst.1 Term.true) snd.1 trd.1, false)

def visitBitslice (r l : Nat) (entry : Entry) : Entry :=
  (.extract r l entry.1, false)

/-- The visitor.  A placeholder pushes nothing, so that the next `pop` finds the
stack too short; the vector nodes throw before any child is visited. -/
def visit : Node -> Terminals -> Except String (Entry × Terminals)
  | .placeholder _, _ => .error "exprStack_.size() >= 1"
  | .variableExpr id bitsize sign, terminals_ =>
      .ok (visitVariableExpr id bitsize sign terminals_)
  | .constant c, terminals_ => .ok (visitConstant c, terminals_)
  | .vectorExpr _ _ _, _ =>
      .error "VectorExpr is not allowed in metaSMTNodeVisitor."
  | .unaryOpr op child, terminals_ =>
      match visit child terminals_ with
      | .error e => .error e
      | .ok (entry, terminals_) => .ok (visitUnaryOpr op entry, terminals_)
  | .inside child collection, terminals_ =>
      match visit child terminals_ with
      | .error e => .error e
      | .ok (entry, terminals_) =>
          .ok (visitInside entry collection, terminals_)
  | .extendExpr child value, terminals_ =>
      match visit child terminals_ with
      | .error e => .error e
      | .ok (entry, terminals_) => .ok (visitExtendExpr value entry, terminals_)
  | .binaryOpr op lhs rhs, terminals_ =>
      match visit lhs terminals_ with
      | .error e => .error e
      | .ok (fst, terminals_) =>
          match visit rhs terminals_ with
          | .error e => .error e
          | .ok (snd, terminals_) => .ok (visitBinaryOpr op fst snd, terminals_)
  | .vectorAccess _ _, _ =>
      .error "VectorAccess is not allowed in metaSMTNodeVisitor."
  | .ifThenElse a b c, terminals_ =>
      match visit a terminals_ with
      | .error e => .error e
      | .ok (fst, terminals_) =>
          match visit b terminals_ with
          | .error e => .error e
          | .ok (snd, terminals_) =>
              match visit c terminals_ with
              | .error e => .error e
              | .ok (trd, terminals_) =>
                  .ok (visitIfThenElse fst snd trd, terminals_)
  | .forEach _ _, _ => .error "ForEach is not allowed in metaSMTNodeVisitor."
  | .unique _, _ => .error "Unique is not allowed in metaSMTNodeVisitor."
  | .bitslice child r l, terminals_ =>
      match visit child terminals_ with
      | .error e => .error e
      | .ok (entry, terminals_) => .ok (visitBitslice r l entry, terminals_)

/-- The term of a constant has its recorded width and its low bits. -/
theorem eval_visitConstant (m : Model SolverVar) {c : Constant} (hrange : c.InRange)
    (hsize : c.bitsize ≤ 64) :
    (visitConstant c).1.eval m = some ⟨c.bitsize, c.value.setWidth c.bitsize⟩ := by
  rcases c with ⟨value, bitsize, sign⟩
  simp only [Constant.InRange] at hrange
  unfold visitConstant
  split
  · rename_i hbool
    rw [if_pos hbool] at hrange
    simp only [Constant.isBool, Bool.and_eq_true, beq_iff_eq] at hbool
    rcases hbool with ⟨rfl, rfl⟩
    rcases hrange with rfl | rfl
    · rfl
    · rfl
  · split
    · have hsign : value.signExtend bitsize = value.setWidth bitsize :=
        BitVec.signExtend_eq_setWidth_of_le value hsize
      simp only [Term.eval, ← hsign]
      rfl
    · simp only [Term.eval, BitVec.ofNat_toNat]

/-!
## Translation without the table of terminals

When every variable node carries the width of its declaration, the table of
terminals has no influence on the term, and the visitor is a function of the
expression alone.
-/

def translate : Node -> Except String Entry
  | .placeholder _ => .error "exprStack_.size() >= 1"
  | .variableExpr id bitsize sign => .ok (.var (.terminal id) bitsize, sign)
  | .constant c => .ok (visitConstant c)
  | .vectorExpr _ _ _ =>
      .error "VectorExpr is not allowed in metaSMTNodeVisitor."
  | .unaryOpr op child =>
      match translate child with
      | .error e => .error e
      | .ok entry => .ok (visitUnaryOpr op entry)
  | .inside child collection =>
      match translate child with
      | .error e => .error e
      | .ok entry => .ok (visitInside entry collection)
  | .extendExpr child value =>
      match translate child with
      | .error e => .error e
      | .ok entry => .ok (visitExtendExpr value entry)
  | .binaryOpr op lhs rhs =>
      match translate lhs with
      | .error e => .error e
      | .ok fst =>
          match translate rhs with
          | .error e => .error e
          | .ok snd => .ok (visitBinaryOpr op fst snd)
  | .vectorAccess _ _ =>
      .error "VectorAccess is not allowed in metaSMTNodeVisitor."
  | .ifThenElse a b c =>
      match translate a with
      | .error e => .error e
      | .ok fst =>
          match translate b with
          | .error e => .error e
          | .ok snd =>
              match translate c with
              | .error e => .error e
              | .ok trd => .ok (visitIfThenElse fst snd trd)
  | .forEach _ _ => .error "ForEach is not allowed in metaSMTNodeVisitor."
  | .unique _ => .error "Unique is not allowed in metaSMTNodeVisitor."
  | .bitslice child r l =>
      match translate child with
      | .error e => .error e
      | .ok entry => .ok (visitBitslice r l entry)

/-- A node over one child is translated only when the child is. -/
theorem translate_child_ok {child : Node} {f : Entry -> Entry} {entry : Entry}
    (h : (match translate child with
      | .error e => .error e
      | .ok e => .ok (f e)) = Except.ok (ε := String) entry) :
    exists e, translate child = .ok e ∧ entry = f e := by
  cases hchild : translate child with
  | error e =>
      rw [hchild] at h
      cases h
  | ok e =>
      rw [hchild] at h
      exact ⟨e, rfl, (Except.ok.inj h).symm⟩

theorem translate_unaryOpr_ok {op : UnaryOperator} {child : Node} {entry : Entry}
    (h : translate (.unaryOpr op child) = .ok entry) :
    exists e, translate child = .ok e ∧ entry = visitUnaryOpr op e :=
  translate_child_ok h

theorem translate_inside_ok {child : Node} {collection : List Constant} {entry : Entry}
    (h : translate (.inside child collection) = .ok entry) :
    exists e, translate child = .ok e ∧ entry = visitInside e collection :=
  translate_child_ok h

theorem translate_extendExpr_ok {child : Node} {value : Nat} {entry : Entry}
    (h : translate (.extendExpr child value) = .ok entry) :
    exists e, translate child = .ok e ∧ entry = visitExtendExpr value e :=
  translate_child_ok h

theorem translate_binaryOpr_ok {op : BinaryOperator} {lhs rhs : Node} {entry : Entry}
    (h : translate (.binaryOpr op lhs rhs) = .ok entry) :
    exists fst snd, translate lhs = .ok fst ∧ translate rhs = .ok snd ∧
      entry = visitBinaryOpr op fst snd := by
  simp only [translate] at h
  cases hlhs : translate lhs with
  | error e =>
      rw [hlhs] at h
      cases h
  | ok fst =>
      rw [hlhs] at h
      rcases translate_child_ok h with ⟨snd, hsnd, hentry⟩
      exact ⟨fst, snd, rfl, hsnd, hentry⟩

theorem translate_ifThenElse_ok {a b c : Node} {entry : Entry}
    (h : translate (.ifThenElse a b c) = .ok entry) :
    exists fst snd trd, translate a = .ok fst ∧ translate b = .ok snd ∧
      translate c = .ok trd ∧ entry = visitIfThenElse fst snd trd := by
  simp only [translate] at h
  cases ha : translate a with
  | error e =>
      rw [ha] at h
      cases h
  | ok fst =>
      rw [ha] at h
      cases hb : translate b with
      | error e =>
          rw [hb] at h
          cases h
      | ok snd =>
          rw [hb] at h
          rcases translate_child_ok h with ⟨trd, htrd, hentry⟩
          exact ⟨fst, snd, trd, rfl, rfl, htrd, hentry⟩

theorem translate_bitslice_ok {child : Node} {r l : Nat} {entry : Entry}
    (h : translate (.bitslice child r l) = .ok entry) :
    exists e, translate child = .ok e ∧ entry = visitBitslice r l e :=
  translate_child_ok h

/-- The table after the variables of a support set have been met. -/
def Terminals.declare (variables_ : Declarations) (support : Finset Nat)
    (terminals_ : Terminals) : Terminals :=
  fun id =>
    if id ∈ support then (variables_ id).map VarDecl.bitsize else terminals_ id

/-- A table whose solver variables have the declared widths. -/
def Terminals.Within (variables_ : Declarations) (terminals_ : Terminals) : Prop :=
  forall id width, terminals_ id = some width ->
    (variables_ id).map VarDecl.bitsize = some width

theorem Terminals.Within.declare {variables_ : Declarations}
    {terminals_ : Terminals} (h : Terminals.Within variables_ terminals_)
    (support : Finset Nat) :
    Terminals.Within variables_
      (Terminals.declare variables_ support terminals_) := by
  intro id width hid
  unfold Terminals.declare at hid
  split at hid
  · exact hid
  · exact h id width hid

theorem Terminals.declare_declare (variables_ : Declarations)
    (s t : Finset Nat) (terminals_ : Terminals) :
    Terminals.declare variables_ t (Terminals.declare variables_ s terminals_) =
      Terminals.declare variables_ (s ∪ t) terminals_ := by
  funext id
  simp only [Terminals.declare, Finset.mem_union]
  by_cases ht : id ∈ t
  · simp [ht]
  · simp [ht]

@[simp] theorem Terminals.declare_empty (variables_ : Declarations)
    (terminals_ : Terminals) :
    Terminals.declare variables_ ∅ terminals_ = terminals_ := by
  funext id
  simp [Terminals.declare]

/-- Every solver variable of the first table is in the second one. -/
def Terminals.Extends (terminals_ later : Terminals) : Prop :=
  forall id width, terminals_ id = some width -> later id = some width

theorem Terminals.Extends.refl (terminals_ : Terminals) :
    Terminals.Extends terminals_ terminals_ :=
  fun _ _ h => h

theorem Terminals.Extends.trans {a b c : Terminals} (hab : Terminals.Extends a b)
    (hbc : Terminals.Extends b c) : Terminals.Extends a c :=
  fun id width h => hbc id width (hab id width h)

theorem Terminals.Within.extends_declare {variables_ : Declarations}
    {terminals_ : Terminals} (h : Terminals.Within variables_ terminals_)
    (support : Finset Nat) :
    Terminals.Extends terminals_ (Terminals.declare variables_ support terminals_) := by
  intro id width hid
  unfold Terminals.declare
  split
  · exact h id width hid
  · exact hid

theorem isSome_visitVariableExpr (id bitsize : Nat) (sign : Bool) (terminals_ : Terminals)
    (i : Nat) :
    ((visitVariableExpr id bitsize sign terminals_).2 i).isSome = true ↔
      (terminals_ i).isSome = true ∨ i = id := by
  unfold visitVariableExpr
  cases hid : terminals_ id with
  | some width =>
      constructor
      · exact Or.inl
      · rintro (h | rfl)
        · exact h
        · simp [hid]
  | none =>
      by_cases hi : i = id
      · subst hi
        simp
      · simp [hi]

theorem isSome_visit {n : Node} {terminals_ terminals' : Terminals} {entry : Entry}
    (h : visit n terminals_ = .ok (entry, terminals')) (id : Nat) :
    (terminals' id).isSome = true ↔
      (terminals_ id).isSome = true ∨ id ∈ n.supportVars := by
  induction n generalizing terminals_ terminals' entry with
  | placeholder i => cases h
  | variableExpr i bitsize sign =>
      have hterminals : (visitVariableExpr i bitsize sign terminals_).2 = terminals' :=
        congrArg Prod.snd (Except.ok.inj h)
      rw [← hterminals, isSome_visitVariableExpr, Node.supportVars, Finset.mem_singleton]
  | constant c =>
      cases h
      simp [Node.supportVars]
  | vectorExpr i bitsize sign => cases h
  | unaryOpr op child ih =>
      simp only [visit] at h
      split at h
      · cases h
      · rename_i hchild
        cases h
        exact ih hchild
  | inside child collection ih =>
      simp only [visit] at h
      split at h
      · cases h
      · rename_i hchild
        cases h
        exact ih hchild
  | extendExpr child value ih =>
      simp only [visit] at h
      split at h
      · cases h
      · rename_i hchild
        cases h
        exact ih hchild
  | binaryOpr op lhs rhs ihl ihr =>
      simp only [visit] at h
      split at h
      · cases h
      · rename_i hlhs
        split at h
        · cases h
        · rename_i hrhs
          cases h
          rw [ihr hrhs, ihl hlhs, Node.supportVars, Finset.mem_union, or_assoc]
  | vectorAccess lhs rhs ihl ihr => cases h
  | ifThenElse a b c iha ihb ihc =>
      simp only [visit] at h
      split at h
      · cases h
      · rename_i ha
        split at h
        · cases h
        · rename_i hb
          split at h
          · cases h
          · rename_i hc
            cases h
            rw [ihc hc, ihb hb, iha ha, Node.supportVars, Finset.mem_union, Finset.mem_union]
            simp only [or_assoc]
  | forEach lhs rhs ihl ihr => cases h
  | unique child ih => cases h
  | bitslice child r l ih =>
      simp only [visit] at h
      split at h
      · cases h
      · rename_i hchild
        cases h
        exact ih hchild

theorem visitVariableExpr_eq {variables_ : Declarations} {terminals_ : Terminals}
    (hT : Terminals.Within variables_ terminals_) {id bitsize : Nat} {sign : Bool}
    (hdecl : variables_ id = some ⟨bitsize, sign⟩) :
    visitVariableExpr id bitsize sign terminals_ =
      ((.var (.terminal id) bitsize, sign),
        Terminals.declare variables_ {id} terminals_) := by
  unfold visitVariableExpr
  cases hid : terminals_ id with
  | none =>
      simp only [newTerminal_eq, Prod.mk.injEq, true_and]
      funext i
      by_cases hi : i = id
      · subst hi
        simp [Terminals.declare, hdecl]
      · simp [Terminals.declare, hi]
  | some width =>
      have hwidth := hT id width hid
      rw [hdecl] at hwidth
      cases hwidth
      simp only [Prod.mk.injEq, true_and]
      funext i
      by_cases hi : i = id
      · subst hi
        simp [Terminals.declare, hdecl, hid]
      · simp [Terminals.declare, hi]

/-- The visitor computes the translation and meets exactly the support set. -/
theorem visit_eq_translate {variables_ : Declarations} {n : Node}
    (hn : n.DeclaredIn variables_) {terminals_ : Terminals}
    (hT : Terminals.Within variables_ terminals_) :
    visit n terminals_ =
      match translate n with
      | .error e => .error e
      | .ok entry =>
          .ok (entry, Terminals.declare variables_ n.supportVars terminals_) := by
  induction n generalizing terminals_ with
  | placeholder id => rfl
  | variableExpr id bitsize sign =>
      simp only [visit, translate, Node.supportVars, visitVariableExpr_eq hT hn]
  | constant c => simp only [visit, translate, Node.supportVars, Terminals.declare_empty]
  | vectorExpr id bitsize sign => rfl
  | unaryOpr op child ih =>
      simp only [visit, translate, Node.supportVars, ih hn hT]
      cases translate child <;> rfl
  | inside child collection ih =>
      simp only [visit, translate, Node.supportVars, ih hn hT]
      cases translate child <;> rfl
  | extendExpr child value ih =>
      simp only [visit, translate, Node.supportVars, ih hn hT]
      cases translate child <;> rfl
  | binaryOpr op lhs rhs ihl ihr =>
      simp only [visit, translate, Node.supportVars, ihl hn.1 hT]
      cases translate lhs with
      | error e => rfl
      | ok fst =>
          simp only [ihr hn.2 (hT.declare lhs.supportVars)]
          cases translate rhs with
          | error e => rfl
          | ok snd => simp only [Terminals.declare_declare]
  | vectorAccess lhs rhs ihl ihr => rfl
  | ifThenElse a b c iha ihb ihc =>
      simp only [visit, translate, Node.supportVars, iha hn.1 hT]
      cases translate a with
      | error e => rfl
      | ok fst =>
          simp only [ihb hn.2.1 (hT.declare a.supportVars)]
          cases translate b with
          | error e => rfl
          | ok snd =>
              simp only [Terminals.declare_declare,
                ihc hn.2.2 (hT.declare (a.supportVars ∪ b.supportVars))]
              cases translate c with
              | error e => rfl
              | ok trd => simp only
  | forEach lhs rhs ihl ihr => rfl
  | unique child ih => rfl
  | bitslice child r l ih =>
      simp only [visit, translate, Node.supportVars, ih hn hT]
      cases translate child <;> rfl

/-!
## Support of the translation

The term of an expression reads only the variables inside the expression, at
the widths they have there, so its value depends on nothing else.
-/

theorem atoms_visitConstant (c : Constant) : (visitConstant c).1.atoms = [] := by
  unfold visitConstant
  split
  · split <;> rfl
  · split <;> rfl

theorem atoms_visitInside (entry : Entry) (collection : List Constant) :
    forall a, a ∈ (visitInside entry collection).1.atoms -> a ∈ entry.1.atoms := by
  have hfold : forall (cs : List Constant) (acc : Formula),
      (forall a, a ∈ acc.atoms -> a ∈ entry.1.atoms) ->
      forall a, a ∈ (cs.foldl
        (fun result c =>
          Term.binary .or result (.binary .equal entry.1 (visitConstant c).1))
        acc).atoms -> a ∈ entry.1.atoms := by
    intro cs
    induction cs with
    | nil =>
        intro acc hacc
        exact hacc
    | cons c rest ih =>
        intro acc hacc
        apply ih
        intro a ha
        simp only [Term.atoms, List.mem_append, atoms_visitConstant,
          List.not_mem_nil, or_false] at ha
        rcases ha with ha | ha
        · exact hacc a ha
        · exact ha
  exact hfold collection Term.false fun a ha => absurd ha List.not_mem_nil

theorem atoms_visitBinaryOpr (op : BinaryOperator) (fst snd : Entry) :
    (visitBinaryOpr op fst snd).1.atoms = fst.1.atoms ++ snd.1.atoms := by
  have hsign : forall s u : BinaryTag,
      (signCases s u fst snd).atoms = fst.1.atoms ++ snd.1.atoms := by
    intro s u
    unfold signCases
    split
    · rfl
    · split
      · rfl
      · split <;> rfl
  cases op with
  | lessOpr => exact hsign _ _
  | lessEqualOpr => exact hsign _ _
  | greaterOpr => exact hsign _ _
  | greaterEqualOpr => exact hsign _ _
  | devideOpr => exact hsign _ _
  | _ => rfl

/-- A variable of the term comes from a variable inside the expression. -/
def ReadBy (n : Node) (a : SolverVar × Nat) : Prop :=
  exists id bitsize sign,
    .variableExpr id bitsize sign ∈ n.subterms ∧ a = (.terminal id, bitsize)

theorem ReadBy.mono {n n' : Node} (hsub : forall u, u ∈ n.subterms -> u ∈ n'.subterms)
    {a : SolverVar × Nat} (h : ReadBy n a) : ReadBy n' a := by
  rcases h with ⟨id, bitsize, sign, hmem, ha⟩
  exact ⟨id, bitsize, sign, hsub _ hmem, ha⟩

theorem atoms_translate {n : Node} {entry : Entry} (h : translate n = .ok entry) :
    forall a, a ∈ entry.1.atoms -> ReadBy n a := by
  induction n generalizing entry with
  | placeholder id => cases h
  | variableExpr id bitsize sign =>
      cases h
      intro a ha
      exact ⟨id, bitsize, sign, List.mem_singleton_self _, List.mem_singleton.mp ha⟩
  | constant c =>
      cases h
      intro a ha
      rw [atoms_visitConstant] at ha
      cases ha
  | vectorExpr id bitsize sign => cases h
  | unaryOpr op child ih =>
      rcases translate_unaryOpr_ok h with ⟨e, he, rfl⟩
      intro a ha
      have ha' : a ∈ e.1.atoms := by cases op <;> exact ha
      exact (ih he a ha').mono fun u hu => by simp [Node.subterms, hu]
  | inside child collection ih =>
      rcases translate_inside_ok h with ⟨e, he, rfl⟩
      intro a ha
      exact (ih he a (atoms_visitInside e collection a ha)).mono
        fun u hu => by simp [Node.subterms, hu]
  | extendExpr child value ih =>
      rcases translate_extendExpr_ok h with ⟨e, he, rfl⟩
      intro a ha
      have ha' : a ∈ e.1.atoms := by
        unfold visitExtendExpr at ha
        split at ha <;> exact ha
      exact (ih he a ha').mono fun u hu => by simp [Node.subterms, hu]
  | binaryOpr op lhs rhs ihl ihr =>
      rcases translate_binaryOpr_ok h with ⟨fst, snd, hfst, hsnd, rfl⟩
      intro a ha
      rw [atoms_visitBinaryOpr, List.mem_append] at ha
      rcases ha with ha | ha
      · exact (ihl hfst a ha).mono fun u hu => by simp [Node.subterms, hu]
      · exact (ihr hsnd a ha).mono fun u hu => by simp [Node.subterms, hu]
  | vectorAccess lhs rhs ihl ihr => cases h
  | ifThenElse c t e ihc iht ihe =>
      rcases translate_ifThenElse_ok h with ⟨fst, snd, trd, hfst, hsnd, htrd, rfl⟩
      intro a ha
      simp only [visitIfThenElse, Term.atoms, Term.true, List.append_nil,
        List.mem_append] at ha
      rcases ha with (ha | ha) | ha
      · exact (ihc hfst a ha).mono fun u hu => by simp [Node.subterms, hu]
      · exact (iht hsnd a ha).mono fun u hu => by simp [Node.subterms, hu]
      · exact (ihe htrd a ha).mono fun u hu => by simp [Node.subterms, hu]
  | forEach lhs rhs ihl ihr => cases h
  | unique child ih => cases h
  | bitslice child r l ih =>
      rcases translate_bitslice_ok h with ⟨e, he, rfl⟩
      intro a ha
      exact (ih he a ha).mono fun u hu => by simp [Node.subterms, hu]

end MetaSMTVisitor

open MetaSMTVisitor

/-- An expression is true in a model when its translation is. -/
def NodeHolds (m : Model SolverVar) (n : Node) : Prop :=
  match translate n with
  | .error _ => False
  | .ok entry => Term.Holds m entry.1

instance (m : Model SolverVar) (n : Node) : Decidable (NodeHolds m n) := by
  unfold NodeHolds
  cases translate n <;> infer_instance

/-- Two models agree on the declared bits of the given variables. -/
def AgreeOn (variables_ : Declarations) (support : Finset Nat) (m m' : Model SolverVar) :
    Prop :=
  forall id d, id ∈ support -> variables_ id = some d ->
    Term.AgreeAt m m' (.terminal id) d.bitsize

theorem AgreeOn.mono {variables_ : Declarations} {s t : Finset Nat} {m m' : Model SolverVar}
    (h : AgreeOn variables_ t m m') (hsub : s ⊆ t) : AgreeOn variables_ s m m' :=
  fun id d hid hd => h id d (hsub hid) hd

/-- Truth of an expression depends only on the declared bits of its support set. -/
theorem nodeHolds_congr {variables_ : Declarations} {m m' : Model SolverVar} {n : Node}
    (hn : n.DeclaredIn variables_) (h : AgreeOn variables_ n.supportVars m m') :
    NodeHolds m n ↔ NodeHolds m' n := by
  unfold NodeHolds
  cases htr : translate n with
  | error e => exact Iff.rfl
  | ok entry =>
      apply Term.holds_congr
      intro v w hv
      rcases atoms_translate htr (v, w) hv with ⟨id, bitsize, sign, hmem, heq⟩
      cases heq
      exact h id _ (Node.mem_supportVars hmem) (hn.of_mem_subterms hmem)

end Backend
end Crave
