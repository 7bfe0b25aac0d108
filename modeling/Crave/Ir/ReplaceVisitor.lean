import Crave.Ir.FixWidth

/-!
# Instances of a vector constraint

`ReplaceVisitor` turns the body of a `foreach` into an expression over scalar
variables for one value of the iteration variable: accesses become the
variables of the elements and the placeholder becomes a constant.  Along with
the expression it computes a subscript, the host integer that the expression
would have as an index.
-/

namespace Crave
namespace Ir
namespace ReplaceVisitor

/-- An entry of `vec_elements_`: the variable of an element with the type it
was last accessed at. -/
structure Element where
  id : Nat
  bitsize : Nat
  sign : Bool
deriving DecidableEq, Repr

def Element.toNode (e : Element) : Node :=
  .variableExpr e.id e.bitsize e.sign

/-- The elements and whether every access so far was in range. -/
structure State where
  variables_ : List Element
  okay_ : Bool
deriving DecidableEq, Repr

def State.ids (st : State) : List Nat :=
  st.variables_.map Element.id

/-!
## Subscripts

Subscripts are values of the host type `int`.  What the host language leaves
undefined has no subscript.
-/

def checkedInt (i : Int) : Option Int :=
  if -(2 ^ 31) ≤ i ∧ i < 2 ^ 31 then some i else none

/-- `static_cast<int>` of a size. -/
def castInt (size : Nat) : Int :=
  (BitVec.ofNat 32 size).toInt

def boolInt (b : Bool) : Int :=
  if b then 1 else 0

def bitwiseInt (f : BitVec 32 -> BitVec 32 -> BitVec 32) (l_val r_val : Int) : Int :=
  (f (BitVec.ofInt 32 l_val) (BitVec.ofInt 32 r_val)).toInt

def unarySubscript : UnaryOperator -> Int -> Option Int
  | .notOpr, idx => some (boolInt (idx == 0))
  | .negOpr, idx => checkedInt (-idx)
  | .complementOpr, idx => some (-idx - 1)

def binarySubscript : BinaryOperator -> Int -> Int -> Option Int
  | .andOpr, l_val, r_val => some (bitwiseInt (· &&& ·) l_val r_val)
  | .orOpr, l_val, r_val => some (bitwiseInt (· ||| ·) l_val r_val)
  | .logicalAndOpr, l_val, r_val => some (boolInt (l_val != 0 && r_val != 0))
  | .logicalOrOpr, l_val, r_val => some (boolInt (l_val != 0 || r_val != 0))
  | .xorOpr, l_val, r_val => some (bitwiseInt (· ^^^ ·) l_val r_val)
  | .equalOpr, l_val, r_val => some (boolInt (l_val == r_val))
  | .notEqualOpr, l_val, r_val => some (boolInt (l_val != r_val))
  | .lessOpr, l_val, r_val => some (boolInt (l_val < r_val))
  | .lessEqualOpr, l_val, r_val => some (boolInt (l_val ≤ r_val))
  | .greaterOpr, l_val, r_val => some (boolInt (l_val > r_val))
  | .greaterEqualOpr, l_val, r_val => some (boolInt (l_val ≥ r_val))
  | .plusOpr, l_val, r_val => checkedInt (l_val + r_val)
  | .minusOpr, l_val, r_val => checkedInt (l_val - r_val)
  | .multipliesOpr, l_val, r_val => checkedInt (l_val * r_val)
  | .devideOpr, l_val, r_val =>
      if r_val = 0 then none else checkedInt (l_val.tdiv r_val)
  | .moduloOpr, l_val, r_val =>
      if r_val = 0 then
        none
      else
        (checkedInt (l_val.tdiv r_val)).map fun _ => l_val.tmod r_val
  | .shiftLeftOpr, l_val, r_val =>
      if 0 ≤ r_val ∧ r_val < 32 then
        some (BitVec.ofInt 32 l_val <<< r_val.toNat).toInt
      else
        none
  | .shiftRightOpr, l_val, r_val =>
      if 0 ≤ r_val ∧ r_val < 32 then some (l_val >>> r_val.toNat) else none

theorem castInt_le (size : Nat) : castInt size ≤ size := by
  unfold castInt
  rw [BitVec.toInt_ofNat', Int.bmod_def]
  omega

theorem castInt_eq {size : Nat} (hsize : size < 2 ^ 31) : castInt size = size := by
  unfold castInt
  rw [BitVec.toInt_ofNat']
  exact Int.bmod_eq_of_le (by omega) (by omega)

/-- The subscript of an expression.  Variables and accesses count as zero. -/
def subscript (vec_idx_ : Nat) : Node -> Option Int
  | .placeholder _ => some (BitVec.ofNat 32 vec_idx_).toInt
  | .variableExpr _ _ _ => some 0
  | .constant c => some (c.value.setWidth 32).toInt
  | .vectorExpr _ _ _ => some 0
  | .unaryOpr op child =>
      match subscript vec_idx_ child with
      | some idx => unarySubscript op idx
      | none => none
  | .inside child _ => subscript vec_idx_ child
  | .extendExpr child _ => subscript vec_idx_ child
  | .binaryOpr op lhs rhs =>
      match subscript vec_idx_ lhs, subscript vec_idx_ rhs with
      | some l_val, some r_val => binarySubscript op l_val r_val
      | _, _ => none
  | .vectorAccess lhs rhs =>
      match subscript vec_idx_ lhs, subscript vec_idx_ rhs with
      | some _, some _ => some 0
      | _, _ => none
  | .ifThenElse a b c =>
      match subscript vec_idx_ a, subscript vec_idx_ b, subscript vec_idx_ c with
      | some a_val, some b_val, some c_val =>
          some (if a_val ≠ 0 then b_val else c_val)
      | _, _, _ => none
  | .forEach _ rhs => subscript vec_idx_ rhs
  | .unique _ => none
  | .bitslice child _ _ =>
      (subscript vec_idx_ child).map fun idx => boolInt (idx == 0)

/-!
## The visitor
-/

/-- An access in range gives the element the type of the vector; any other
access stands for the first element and spoils the instance. -/
def visitVectorAccess (lhs : Node) (i : Int) (st : State) :
    Except String (Node × State) :=
  if 0 ≤ i ∧ i < castInt st.variables_.length then
    match lhs, st.variables_[i.toNat]? with
    | .vectorExpr _ bitsize sign, some var =>
        let element : Element := { id := var.id, bitsize := bitsize, sign := sign }
        .ok (element.toNode,
          { st with variables_ := st.variables_.set i.toNat element })
    | _, _ => .error "static_cast<VectorExpr*>"
  else
    match st.variables_[0]? with
    | some var => .ok (var.toNode, { st with okay_ := false })
    | none => .error "vector::at"

/-- The visitor, with the subscript of the expression.  The table of nodes that
were already made for an identifier only saves making an equal node again. -/
def visit (vec_idx_ : Nat) : Node -> State -> Except String (Node × Int × State)
  | .placeholder _, st =>
      .ok (.constant ⟨BitVec.ofNat 64 vec_idx_, placeholder_bitsize, false⟩,
        (BitVec.ofNat 32 vec_idx_).toInt, st)
  | .variableExpr id bitsize sign, st => .ok (.variableExpr id bitsize sign, 0, st)
  | .constant c, st => .ok (.constant c, (c.value.setWidth 32).toInt, st)
  | .vectorExpr id bitsize sign, st => .ok (.vectorExpr id bitsize sign, 0, st)
  | .unaryOpr op child, st =>
      match visit vec_idx_ child st with
      | .error e => .error e
      | .ok (node, idx, st) =>
          match unarySubscript op idx with
          | some idx => .ok (.unaryOpr op node, idx, st)
          | none => .error "undefined"
  | .inside child collection, st =>
      match visit vec_idx_ child st with
      | .error e => .error e
      | .ok (node, idx, st) => .ok (.inside node collection, idx, st)
  | .extendExpr child value, st =>
      match visit vec_idx_ child st with
      | .error e => .error e
      | .ok (node, idx, st) => .ok (.extendExpr node value, idx, st)
  | .binaryOpr op lhs rhs, st =>
      match visit vec_idx_ lhs st with
      | .error e => .error e
      | .ok (fst, l_val, st) =>
          match visit vec_idx_ rhs st with
          | .error e => .error e
          | .ok (snd, r_val, st) =>
              match binarySubscript op l_val r_val with
              | some idx => .ok (.binaryOpr op fst snd, idx, st)
              | none => .error "undefined"
  | .vectorAccess lhs rhs, st =>
      match visit vec_idx_ lhs st with
      | .error e => .error e
      | .ok (fst, _, st) =>
          match visit vec_idx_ rhs st with
          | .error e => .error e
          | .ok (_, i, st) =>
              match visitVectorAccess fst i st with
              | .error e => .error e
              | .ok (node, st) => .ok (node, 0, st)
  | .ifThenElse a b c, st =>
      match visit vec_idx_ a st with
      | .error e => .error e
      | .ok (fst, a_val, st) =>
          match visit vec_idx_ b st with
          | .error e => .error e
          | .ok (snd, b_val, st) =>
              match visit vec_idx_ c st with
              | .error e => .error e
              | .ok (trd, c_val, st) =>
                  .ok (.ifThenElse fst snd trd,
                    if a_val ≠ 0 then b_val else c_val, st)
  | .forEach _ rhs, st => visit vec_idx_ rhs st
  | .unique _, _ => .error "Unique is not allowed in ReplaceVisitor."
  | .bitslice child r l, st =>
      match visit vec_idx_ child st with
      | .error e => .error e
      | .ok (node, idx, st) => .ok (.bitslice node r l, boolInt (idx == 0), st)

/-!
## Replacement

The instance as a function of the expression: it exists when every access is
in range, and then the types that the visitor keeps play no part in it.
-/

def replaceAccess (ids : List Nat) (lhs : Node) (i : Int) : Option Node :=
  match lhs with
  | .vectorExpr _ bitsize sign =>
      if 0 ≤ i ∧ i < castInt ids.length then
        (ids[i.toNat]?).map fun id => .variableExpr id bitsize sign
      else
        none
  | _ => none

def replace (vec_idx_ : Nat) (ids : List Nat) : Node -> Option Node
  | .placeholder _ =>
      some (.constant ⟨BitVec.ofNat 64 vec_idx_, placeholder_bitsize, false⟩)
  | .variableExpr id bitsize sign => some (.variableExpr id bitsize sign)
  | .constant c => some (.constant c)
  | .vectorExpr id bitsize sign => some (.vectorExpr id bitsize sign)
  | .unaryOpr op child =>
      match replace vec_idx_ ids child, subscript vec_idx_ (.unaryOpr op child) with
      | some node, some _ => some (.unaryOpr op node)
      | _, _ => none
  | .inside child collection =>
      (replace vec_idx_ ids child).map fun node => .inside node collection
  | .extendExpr child value =>
      (replace vec_idx_ ids child).map fun node => .extendExpr node value
  | .binaryOpr op lhs rhs =>
      match replace vec_idx_ ids lhs, replace vec_idx_ ids rhs,
        subscript vec_idx_ (.binaryOpr op lhs rhs) with
      | some fst, some snd, some _ => some (.binaryOpr op fst snd)
      | _, _, _ => none
  | .vectorAccess lhs rhs =>
      match replace vec_idx_ ids lhs, replace vec_idx_ ids rhs,
        subscript vec_idx_ rhs with
      | some fst, some _, some i => replaceAccess ids fst i
      | _, _, _ => none
  | .ifThenElse a b c =>
      match replace vec_idx_ ids a, replace vec_idx_ ids b,
        replace vec_idx_ ids c with
      | some fst, some snd, some trd => some (.ifThenElse fst snd trd)
      | _, _, _ => none
  | .forEach _ rhs => replace vec_idx_ ids rhs
  | .unique _ => none
  | .bitslice child r l =>
      (replace vec_idx_ ids child).map fun node => .bitslice node r l

section Replace

variable {vec_idx_ : Nat} {ids : List Nat} {node : Node}

theorem replace_unaryOpr_some {op : UnaryOperator} {child : Node}
    (h : replace vec_idx_ ids (.unaryOpr op child) = some node) :
    exists fst, replace vec_idx_ ids child = some fst ∧ node = .unaryOpr op fst := by
  rw [replace] at h
  split at h
  · next fst _ hfst _ => exact ⟨fst, hfst, (Option.some.inj h).symm⟩
  · cases h

theorem replace_binaryOpr_some {op : BinaryOperator} {lhs rhs : Node}
    (h : replace vec_idx_ ids (.binaryOpr op lhs rhs) = some node) :
    exists fst snd, replace vec_idx_ ids lhs = some fst ∧ replace vec_idx_ ids rhs = some snd ∧
      node = .binaryOpr op fst snd := by
  rw [replace] at h
  split at h
  · next fst snd _ hfst hsnd _ => exact ⟨fst, snd, hfst, hsnd, (Option.some.inj h).symm⟩
  · cases h

theorem replace_ifThenElse_some {a b c : Node}
    (h : replace vec_idx_ ids (.ifThenElse a b c) = some node) :
    exists fst snd trd, replace vec_idx_ ids a = some fst ∧ replace vec_idx_ ids b = some snd ∧
      replace vec_idx_ ids c = some trd ∧ node = .ifThenElse fst snd trd := by
  rw [replace] at h
  split at h
  · next fst snd trd hfst hsnd htrd =>
      exact ⟨fst, snd, trd, hfst, hsnd, htrd, (Option.some.inj h).symm⟩
  · cases h

end Replace

/-- What a visit does: the elements keep their identifiers, and the instance is
spoiled exactly when the replacement does not exist. -/
structure Visited (vec_idx_ : Nat) (n : Node) (st : State) (node : Node)
    (idx : Int) (st' : State) : Prop where
  subscript_eq : subscript vec_idx_ n = some idx
  ids_eq : st'.ids = st.ids
  replaced : exists b : Bool, st'.okay_ = (st.okay_ && b) ∧
    replace vec_idx_ st.ids n = if b then some node else none

theorem ids_set (st : State) (k : Nat) {var : Element}
    (hvar : st.variables_[k]? = some var) (bitsize : Nat) (sign : Bool) :
    ({ st with variables_ := st.variables_.set k ⟨var.id, bitsize, sign⟩ } : State).ids =
      st.ids := by
  unfold State.ids
  rw [List.map_set]
  apply List.ext_getElem?
  intro j
  by_cases hj : k = j
  · subst hj
    have hlt : k < st.variables_.length := (List.getElem?_eq_some_iff.mp hvar).1
    rw [List.getElem?_set_self (by simpa using hlt), List.getElem?_map, hvar]
    rfl
  · rw [List.getElem?_set_ne hj]

theorem visitVectorAccess_spec {lhs node : Node} {i : Int} {st st' : State}
    (h : visitVectorAccess lhs i st = .ok (node, st')) :
    st'.ids = st.ids ∧ exists b : Bool, st'.okay_ = (st.okay_ && b) ∧
      replaceAccess st.ids lhs i = if b then some node else none := by
  unfold visitVectorAccess at h
  split at h
  · rename_i hrange
    split at h
    · rename_i id bitsize sign var hvar
      cases h
      refine ⟨ids_set st _ hvar bitsize sign, true, ?_, ?_⟩
      · simp
      · simp only [replaceAccess, State.ids, List.length_map]
        rw [if_pos hrange, List.getElem?_map, hvar]
        rfl
    · cases h
  · rename_i hrange
    have hnone : replaceAccess st.ids lhs i = none := by
      unfold replaceAccess
      split
      · simp only [State.ids, List.length_map]
        rw [if_neg hrange]
      · rfl
    split at h
    · cases h
      exact ⟨rfl, false, by simp, hnone⟩
    · cases h

theorem visit_spec {vec_idx_ : Nat} {n node : Node} {idx : Int} {st st' : State}
    (h : visit vec_idx_ n st = .ok (node, idx, st')) :
    Visited vec_idx_ n st node idx st' := by
  induction n generalizing node idx st st' with
  | placeholder id =>
      cases h
      exact ⟨rfl, rfl, true, by simp, rfl⟩
  | variableExpr id bitsize sign =>
      cases h
      exact ⟨rfl, rfl, true, by simp, rfl⟩
  | constant c =>
      cases h
      exact ⟨rfl, rfl, true, by simp, rfl⟩
  | vectorExpr id bitsize sign =>
      cases h
      exact ⟨rfl, rfl, true, by simp, rfl⟩
  | unaryOpr op child ih =>
      simp only [visit] at h
      split at h
      · cases h
      · rename_i hchild
        rcases ih hchild with ⟨hsub, hids, b, hb, hrep⟩
        split at h
        · rename_i hop
          cases h
          have hsub' : subscript vec_idx_ (.unaryOpr op child) = some idx := by
            simp only [subscript, hsub, hop]
          refine ⟨hsub', hids, b, hb, ?_⟩
          simp only [replace, hrep, hsub']
          cases b <;> rfl
        · cases h
  | inside child collection ih =>
      simp only [visit] at h
      split at h
      · cases h
      · rename_i hchild
        cases h
        rcases ih hchild with ⟨hsub, hids, b, hb, hrep⟩
        refine ⟨hsub, hids, b, hb, ?_⟩
        simp only [replace, hrep]
        cases b <;> rfl
  | extendExpr child value ih =>
      simp only [visit] at h
      split at h
      · cases h
      · rename_i hchild
        cases h
        rcases ih hchild with ⟨hsub, hids, b, hb, hrep⟩
        refine ⟨hsub, hids, b, hb, ?_⟩
        simp only [replace, hrep]
        cases b <;> rfl
  | binaryOpr op lhs rhs ihl ihr =>
      simp only [visit] at h
      split at h
      · cases h
      · rename_i hlhs
        rcases ihl hlhs with ⟨hsubl, hidsl, b, hb, hrepl⟩
        split at h
        · cases h
        · rename_i hrhs
          rcases ihr hrhs with ⟨hsubr, hidsr, c, hc, hrepr⟩
          rw [hidsl] at hidsr hrepr
          split at h
          · rename_i hop
            cases h
            have hsub : subscript vec_idx_ (.binaryOpr op lhs rhs) = some idx := by
              simp only [subscript, hsubl, hsubr, hop]
            refine ⟨hsub, hidsr, b && c, by rw [hc, hb, Bool.and_assoc], ?_⟩
            simp only [replace, hrepl, hrepr, hsub]
            cases b <;> cases c <;> rfl
          · cases h
  | vectorAccess lhs rhs ihl ihr =>
      simp only [visit] at h
      split at h
      · cases h
      · rename_i hlhs
        rcases ihl hlhs with ⟨hsubl, hidsl, b, hb, hrepl⟩
        split at h
        · cases h
        · rename_i hrhs
          rcases ihr hrhs with ⟨hsubr, hidsr, c, hc, hrepr⟩
          rw [hidsl] at hidsr hrepr
          split at h
          · cases h
          · rename_i haccess
            cases h
            rcases visitVectorAccess_spec haccess with ⟨hids, d, hd, hrep⟩
            rw [hidsr] at hids hrep
            refine ⟨by simp only [subscript, hsubl, hsubr], hids, b && c && d,
              by rw [hd, hc, hb, Bool.and_assoc, Bool.and_assoc, Bool.and_assoc], ?_⟩
            simp only [replace, hrepl, hrepr, hsubr]
            cases b <;> cases c <;> simp [hrep]
  | ifThenElse a b c iha ihb ihc =>
      simp only [visit] at h
      split at h
      · cases h
      · rename_i ha
        rcases iha ha with ⟨hsuba, hidsa, p, hp, hrepa⟩
        split at h
        · cases h
        · rename_i hb
          rcases ihb hb with ⟨hsubb, hidsb, q, hq, hrepb⟩
          rw [hidsa] at hidsb hrepb
          split at h
          · cases h
          · rename_i hc
            cases h
            rcases ihc hc with ⟨hsubc, hidsc, r, hr, hrepc⟩
            rw [hidsb] at hidsc hrepc
            refine ⟨by simp only [subscript, hsuba, hsubb, hsubc], hidsc,
              p && q && r, by rw [hr, hq, hp, Bool.and_assoc, Bool.and_assoc,
                Bool.and_assoc], ?_⟩
            simp only [replace, hrepa, hrepb, hrepc]
            cases p <;> cases q <;> cases r <;> rfl
  | forEach lhs rhs ihl ihr =>
      rcases ihr h with ⟨hsub, hids, b, hb, hrep⟩
      exact ⟨hsub, hids, b, hb, hrep⟩
  | unique child ih => cases h
  | bitslice child r l ih =>
      simp only [visit] at h
      split at h
      · cases h
      · rename_i hchild
        cases h
        rcases ih hchild with ⟨hsub, hids, b, hb, hrep⟩
        refine ⟨by simp only [subscript, hsub, Option.map_some], hids, b, hb, ?_⟩
        simp only [replace, hrep]
        cases b <;> rfl

/-- An instance that is handed to the solver is the replacement of the body. -/
theorem replace_eq_of_okay {vec_idx_ : Nat} {n node : Node} {idx : Int}
    {st st' : State} (h : visit vec_idx_ n st = .ok (node, idx, st'))
    (hokay : st'.okay_ = true) :
    replace vec_idx_ st.ids n = some node := by
  rcases visit_spec h with ⟨-, -, b, hb, hrep⟩
  rw [hokay] at hb
  have hbtrue : b = true := (Bool.and_eq_true_iff.mp hb.symm).2
  rw [hrep, hbtrue]
  rfl

end ReplaceVisitor
end Ir
end Crave
