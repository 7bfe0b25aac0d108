import Crave.Backend.VectorGenerator

/-!
# Bodies of vector constraints

What the body of a `foreach` says about the contents of a vector, and when the copy
that is handed to a solver says the same about the variables of the elements.
-/

namespace Crave
namespace Backend

open Foundation Ir MetaSMTVisitor ReplaceVisitor

/-!
## Reading a body
-/

/-- The values of the scalar variables and the contents of the vectors. -/
structure Values where
  scalar : Nat -> Nat
  vector : Nat -> List Nat

/-- The host integer for the bits of a type. -/
def hostInt (d : VarDecl) (bits : Nat) : Int :=
  if d.sign && d.bitsize != 1 then (BitVec.ofNat d.bitsize bits).toInt
  else (BitVec.ofNat d.bitsize bits).toNat

namespace Values

/-- The element at a position, when the position is inside of the vector. -/
def element (values : Values) (id : Nat) (k : Int) : Option Nat :=
  if 0 ≤ k then (values.vector id)[k.toNat]? else none

/-- The host integer that an index expression stands for. -/
def index (values : Values) (i : Nat) : Node -> Option Int
  | .placeholder _ => some i
  | .variableExpr id bitsize sign => some (hostInt ⟨bitsize, sign⟩ (values.scalar id))
  | .constant c => some (c.value.setWidth 32).toInt
  | .vectorExpr _ _ _ => none
  | .unaryOpr op child =>
      match index values i child with
      | some idx => unarySubscript op idx
      | none => none
  | .inside child collection =>
      (index values i child).map fun idx =>
        boolInt (collection.any fun c => (c.value.setWidth 32).toInt == idx)
  | .extendExpr child _ => index values i child
  | .binaryOpr op lhs rhs =>
      match index values i lhs, index values i rhs with
      | some l_val, some r_val => binarySubscript op l_val r_val
      | _, _ => none
  | .vectorAccess lhs rhs =>
      match lhs, index values i rhs with
      | .vectorExpr id bitsize sign, some k =>
          (values.element id k).map (hostInt ⟨bitsize, sign⟩)
      | _, _ => none
  | .ifThenElse a b c =>
      match index values i a, index values i b, index values i c with
      | some a_val, some b_val, some c_val => some (if a_val ≠ 0 then b_val else c_val)
      | _, _, _ => none
  | .forEach _ _ => none
  | .unique _ => none
  | .bitslice child r l =>
      (index values i child).map fun idx => idx / 2 ^ l % 2 ^ (r - l + 1)

/-- The body for one value of the iteration variable, with the elements that it
accesses; there is none when an access is outside of its vector. -/
def instantiate (values : Values) (i : Nat) : Node -> Option Node
  | .placeholder _ => some (.constant ⟨BitVec.ofNat 64 i, placeholder_bitsize, false⟩)
  | .variableExpr id bitsize sign => some (.variableExpr id bitsize sign)
  | .constant c => some (.constant c)
  | .vectorExpr id bitsize sign => some (.vectorExpr id bitsize sign)
  | .unaryOpr op child => (instantiate values i child).map (.unaryOpr op)
  | .inside child collection =>
      (instantiate values i child).map fun node => .inside node collection
  | .extendExpr child value =>
      (instantiate values i child).map fun node => .extendExpr node value
  | .binaryOpr op lhs rhs =>
      match instantiate values i lhs, instantiate values i rhs with
      | some fst, some snd => some (.binaryOpr op fst snd)
      | _, _ => none
  | .vectorAccess lhs rhs =>
      match lhs, index values i rhs with
      | .vectorExpr id bitsize sign, some k =>
          (values.element id k).map fun bits =>
            .constant (toConstantExpr ⟨bitsize, sign⟩ bits)
      | _, _ => none
  | .ifThenElse a b c =>
      match instantiate values i a, instantiate values i b, instantiate values i c with
      | some fst, some snd, some trd => some (.ifThenElse fst snd trd)
      | _, _, _ => none
  | .forEach _ rhs => instantiate values i rhs
  | .unique _ => none
  | .bitslice child r l => (instantiate values i child).map fun node => .bitslice node r l

/-- The body is true for every position of the vector for which all accesses are
inside of their vectors. -/
def BodyHolds (values : Values) (v : Nat) (body : Node) : Prop :=
  forall i, i < (values.vector v).length -> forall node,
    instantiate values i body = some node -> NodeHolds (modelOf values.scalar) node

end Values

/-!
## Bodies over the elements of one vector
-/

/-- An index expression of the iteration variable and of constants. -/
def isPlainIndex : Node -> Bool
  | .placeholder _ => true
  | .constant _ => true
  | .unaryOpr _ child => isPlainIndex child
  | .extendExpr child _ => isPlainIndex child
  | .binaryOpr _ lhs rhs => isPlainIndex lhs && isPlainIndex rhs
  | .ifThenElse a b c => isPlainIndex a && isPlainIndex b && isPlainIndex c
  | _ => false

/-- No variable occurs but the elements of the given vector, and they are accessed at
plain index expressions. -/
def isElementwise (v : Nat) (d : VarDecl) : Node -> Bool
  | .placeholder _ => true
  | .variableExpr _ _ _ => false
  | .constant _ => true
  | .vectorExpr _ _ _ => false
  | .unaryOpr _ child => isElementwise v d child
  | .inside child _ => isElementwise v d child
  | .extendExpr child _ => isElementwise v d child
  | .binaryOpr _ lhs rhs => isElementwise v d lhs && isElementwise v d rhs
  | .vectorAccess lhs rhs => lhs == .vectorExpr v d.bitsize d.sign && isPlainIndex rhs
  | .ifThenElse a b c => isElementwise v d a && isElementwise v d b && isElementwise v d c
  | .forEach _ _ => false
  | .unique _ => false
  | .bitslice child _ _ => isElementwise v d child

/-- No vector occurs but the given one, and its elements are accessed at plain index
expressions. -/
def isForeachBody (v : Nat) (d : VarDecl) : Node -> Bool
  | .placeholder _ => true
  | .variableExpr _ _ _ => true
  | .constant _ => true
  | .vectorExpr _ _ _ => false
  | .unaryOpr _ child => isForeachBody v d child
  | .inside child _ => isForeachBody v d child
  | .extendExpr child _ => isForeachBody v d child
  | .binaryOpr _ lhs rhs => isForeachBody v d lhs && isForeachBody v d rhs
  | .vectorAccess lhs rhs => lhs == .vectorExpr v d.bitsize d.sign && isPlainIndex rhs
  | .ifThenElse a b c => isForeachBody v d a && isForeachBody v d b && isForeachBody v d c
  | .forEach _ _ => false
  | .unique _ => false
  | .bitslice child _ _ => isForeachBody v d child

/-- A `foreach` over the elements of the given vector. -/
def isElementwiseForeach (v : Nat) (d : VarDecl) : Node -> Bool
  | .forEach lhs body => lhs == .vectorExpr v d.bitsize d.sign && isElementwise v d body
  | _ => false

/-- The positions that a body accesses. -/
def accessed (i : Nat) : Node -> List Int
  | .unaryOpr _ child => accessed i child
  | .inside child _ => accessed i child
  | .extendExpr child _ => accessed i child
  | .binaryOpr _ lhs rhs => accessed i lhs ++ accessed i rhs
  | .vectorAccess _ rhs => (subscript i rhs).toList
  | .ifThenElse a b c => accessed i a ++ accessed i b ++ accessed i c
  | .forEach _ rhs => accessed i rhs
  | .bitslice child _ _ => accessed i child
  | _ => []

/-- The positions are inside of a vector of the given size. -/
def InRange (size : Nat) (ks : List Int) : Prop :=
  forall k, k ∈ ks -> 0 ≤ k ∧ k < size

instance (size : Nat) (ks : List Int) : Decidable (InRange size ks) :=
  inferInstanceAs (Decidable (forall k, k ∈ ks -> 0 ≤ k ∧ k < size))

theorem isForeachBody_of_isElementwise {v : Nat} {d : VarDecl} {n : Node}
    (h : isElementwise v d n = true) : isForeachBody v d n = true := by
  induction n with
  | placeholder id => rfl
  | variableExpr id bitsize sign => rfl
  | constant c => rfl
  | vectorExpr id bitsize sign => cases h
  | unaryOpr op child ih => exact ih h
  | inside child collection ih => exact ih h
  | extendExpr child value ih => exact ih h
  | binaryOpr op lhs rhs ihl ihr =>
      have hboth := Bool.and_eq_true_iff.mp h
      exact Bool.and_eq_true_iff.mpr ⟨ihl hboth.left, ihr hboth.right⟩
  | vectorAccess lhs rhs ihl ihr => exact h
  | ifThenElse a b c iha ihb ihc =>
      have hall := Bool.and_eq_true_iff.mp h
      have hboth := Bool.and_eq_true_iff.mp hall.left
      exact Bool.and_eq_true_iff.mpr
        ⟨Bool.and_eq_true_iff.mpr ⟨iha hboth.left, ihb hboth.right⟩, ihc hall.right⟩
  | forEach lhs rhs ihl ihr => cases h
  | unique child ih => cases h
  | bitslice child r l ih => exact ih h

theorem inRange_append {size : Nat} {ks ks' : List Int} :
    InRange size (ks ++ ks') ↔ InRange size ks ∧ InRange size ks' :=
  List.forall_mem_append

section Body

variable {v : Nat} {d : VarDecl} {values : Values} {i : Nat} {n : Node} {idx : Int}

theorem toInt_placeholder (hi : i < 2 ^ 31) : (BitVec.ofNat 32 i).toInt = i := by
  rw [BitVec.toInt_eq_toNat_of_lt]
  · rw [BitVec.toNat_ofNat, Nat.mod_eq_of_lt (by omega)]
  · rw [BitVec.toNat_ofNat]
    omega

theorem index_eq_subscript (hplain : isPlainIndex n = true) (hi : i < 2 ^ 31) :
    values.index i n = subscript i n := by
  induction n with
  | placeholder id =>
      rw [Values.index, subscript, toInt_placeholder hi]
  | constant c => rfl
  | unaryOpr op child ih =>
      have hchild := ih hplain
      cases hsub : subscript i child with
      | none => simp only [Values.index, subscript, hchild, hsub]
      | some idx => simp only [Values.index, subscript, hchild, hsub]
  | extendExpr child value ih => exact ih hplain
  | binaryOpr op lhs rhs ihl ihr =>
      have h := Bool.and_eq_true_iff.mp hplain
      have hl := ihl h.left
      have hr := ihr h.right
      cases hlhs : subscript i lhs with
      | none => simp only [Values.index, subscript, hl, hlhs]
      | some l_val =>
          cases hrhs : subscript i rhs with
          | none => simp only [Values.index, subscript, hl, hr, hlhs, hrhs]
          | some r_val => simp only [Values.index, subscript, hl, hr, hlhs, hrhs]
  | ifThenElse a b c iha ihb ihc =>
      have h := Bool.and_eq_true_iff.mp hplain
      have h' := Bool.and_eq_true_iff.mp h.left
      have ha := iha h'.left
      have hb := ihb h'.right
      have hc := ihc h.right
      cases hsub : subscript i a with
      | none => simp only [Values.index, subscript, ha, hsub]
      | some a_val =>
          cases hsub' : subscript i b with
          | none => simp only [Values.index, subscript, ha, hb, hsub, hsub']
          | some b_val =>
              cases hlast : subscript i c with
              | none => simp only [Values.index, subscript, ha, hb, hc, hsub, hsub', hlast]
              | some c_val => simp only [Values.index, subscript, ha, hb, hc, hsub, hsub', hlast]
  | _ => cases hplain

/-!
## Copies of a body
-/

/-- The variables of the elements, with the type of the elements. -/
def elementDeclarations (ids : List Nat) (d : VarDecl) : Declarations :=
  fun id => if id ∈ ids then some d else none

variable {ids : List Nat} {node : Node}

theorem exists_replace_of_plain (hplain : isPlainIndex n = true)
    (hsub : subscript i n = some idx) (ids : List Nat) :
    exists node, replace i ids n = some node := by
  induction n generalizing idx with
  | placeholder id => exact ⟨_, rfl⟩
  | constant c => exact ⟨_, rfl⟩
  | unaryOpr op child ih =>
      have hchild := hsub
      rw [subscript] at hchild
      split at hchild
      · next k hk =>
          cases ih hplain hk with
          | intro node hnode =>
              rw [replace, hnode, hsub]
              exact ⟨_, rfl⟩
      · cases hchild
  | extendExpr child value ih =>
      cases ih hplain hsub with
      | intro node hnode =>
          rw [replace, hnode]
          exact ⟨_, rfl⟩
  | binaryOpr op lhs rhs ihl ihr =>
      have h := Bool.and_eq_true_iff.mp hplain
      have hboth := hsub
      rw [subscript] at hboth
      split at hboth
      · next l_val r_val hl hr =>
          cases ihl h.left hl with
          | intro fst hfst =>
              cases ihr h.right hr with
              | intro snd hsnd =>
                  rw [replace, hfst, hsnd, hsub]
                  exact ⟨_, rfl⟩
      · cases hboth
  | ifThenElse a b c iha ihb ihc =>
      have h := Bool.and_eq_true_iff.mp hplain
      have h' := Bool.and_eq_true_iff.mp h.left
      rw [subscript] at hsub
      split at hsub
      · next a_val b_val c_val ha hb hc =>
          cases iha h'.left ha with
          | intro fst hfst =>
              cases ihb h'.right hb with
              | intro snd hsnd =>
                  cases ihc h.right hc with
                  | intro trd htrd =>
                      rw [replace, hfst, hsnd, htrd]
                      exact ⟨_, rfl⟩
      · cases hsub
  | _ => cases hplain

/-- A copy exists when all its accesses are in range of the size that the visitor
compares with. -/
theorem exists_replace_of_inRange (hbody : isForeachBody v d n = true)
    (hsub : subscript i n = some idx)
    (hrange : InRange (castInt ids.length).toNat (accessed i n)) :
    exists node, replace i ids n = some node := by
  induction n generalizing idx with
  | placeholder id => exact ⟨_, rfl⟩
  | variableExpr id bitsize sign => exact ⟨_, rfl⟩
  | constant c => exact ⟨_, rfl⟩
  | vectorExpr id bitsize sign => cases hbody
  | unaryOpr op child ih =>
      have hchild := hsub
      rw [subscript] at hchild
      split at hchild
      · next k hk =>
          cases ih hbody hk hrange with
          | intro node hnode =>
              rw [replace, hnode, hsub]
              exact ⟨_, rfl⟩
      · cases hchild
  | inside child collection ih =>
      cases ih hbody hsub hrange with
      | intro node hnode =>
          rw [replace, hnode]
          exact ⟨_, rfl⟩
  | extendExpr child value ih =>
      cases ih hbody hsub hrange with
      | intro node hnode =>
          rw [replace, hnode]
          exact ⟨_, rfl⟩
  | binaryOpr op lhs rhs ihl ihr =>
      have h := Bool.and_eq_true_iff.mp hbody
      have hin := inRange_append.mp hrange
      have hboth := hsub
      rw [subscript] at hboth
      split at hboth
      · next l_val r_val hl hr =>
          cases ihl h.left hl hin.left with
          | intro fst hfst =>
              cases ihr h.right hr hin.right with
              | intro snd hsnd =>
                  rw [replace, hfst, hsnd, hsub]
                  exact ⟨_, rfl⟩
      · cases hboth
  | vectorAccess lhs rhs ihl ihr =>
      have h := Bool.and_eq_true_iff.mp hbody
      have hlhs := eq_of_beq h.left
      rw [subscript] at hsub
      split at hsub
      · next l_val k _ hk =>
          cases exists_replace_of_plain h.right hk ids with
          | intro snd hsnd =>
              have hin := hrange k (by rw [accessed, hk]; exact List.mem_singleton_self k)
              have hle := castInt_le ids.length
              have hlt : k.toNat < ids.length := by omega
              rw [replace, hsnd, hk, hlhs]
              have hcast : 0 ≤ k ∧ k < castInt ids.length := by omega
              simp only [replace, replaceAccess, if_pos hcast, List.getElem?_eq_getElem hlt]
              exact ⟨_, rfl⟩
      · cases hsub
  | ifThenElse a b c iha ihb ihc =>
      have h := Bool.and_eq_true_iff.mp hbody
      have h' := Bool.and_eq_true_iff.mp h.left
      have hin := inRange_append.mp hrange
      have hin' := inRange_append.mp hin.left
      rw [subscript] at hsub
      split at hsub
      · next a_val b_val c_val ha hb hc =>
          cases iha h'.left ha hin'.left with
          | intro fst hfst =>
              cases ihb h'.right hb hin'.right with
              | intro snd hsnd =>
                  cases ihc h.right hc hin.right with
                  | intro trd htrd =>
                      rw [replace, hfst, hsnd, htrd]
                      exact ⟨_, rfl⟩
      · cases hsub
  | forEach lhs rhs ihl ihr => cases hbody
  | unique child ih => cases hbody
  | bitslice child r l ih =>
      rw [subscript] at hsub
      cases hchild : subscript i child with
      | none =>
          rw [hchild] at hsub
          cases hsub
      | some k =>
          cases ih hbody hchild hrange with
          | intro node hnode =>
              rw [replace, hnode]
              exact ⟨_, rfl⟩

theorem exists_replace (hbody : isForeachBody v d n = true) (hids : ids.length < 2 ^ 31)
    (hsub : subscript i n = some idx) (hrange : InRange ids.length (accessed i n)) :
    exists node, replace i ids n = some node := by
  apply exists_replace_of_inRange hbody hsub
  rw [castInt_eq hids]
  exact hrange

theorem replace_vectorAccess {lhs rhs : Node}
    (hbody : isForeachBody v d (.vectorAccess lhs rhs) = true)
    (h : replace i ids (.vectorAccess lhs rhs) = some node) :
    exists k id, subscript i rhs = some k ∧ (0 ≤ k ∧ k < castInt ids.length) ∧
      ids[k.toNat]? = some id ∧
      node = .variableExpr id d.bitsize d.sign := by
  have hlhs := eq_of_beq (Bool.and_eq_true_iff.mp hbody).left
  rw [hlhs, replace] at h
  split at h
  · next fst snd k hfst _ hk =>
      cases hfst
      simp only [replaceAccess] at h
      split at h
      · next hpos =>
          rcases Option.map_eq_some_iff.mp h with ⟨id, hid, hnode⟩
          exact ⟨k, id, hk, hpos, hid, hnode.symm⟩
      · cases h
  · cases h

theorem declaredIn_of_replace (hbody : isElementwise v d n = true)
    (h : replace i ids n = some node) : node.DeclaredIn (elementDeclarations ids d) := by
  induction n generalizing node with
  | placeholder id =>
      cases h
      trivial
  | variableExpr id bitsize sign => cases hbody
  | constant c =>
      cases h
      trivial
  | vectorExpr id bitsize sign => cases hbody
  | unaryOpr op child ih =>
      rcases replace_unaryOpr_some h with ⟨fst, hfst, rfl⟩
      have hchild := ih hbody hfst
      exact hchild
  | inside child collection ih =>
      rcases Option.map_eq_some_iff.mp h with ⟨fst, hfst, hnode⟩
      rw [← hnode]
      have hchild := ih hbody hfst
      exact hchild
  | extendExpr child value ih =>
      rcases Option.map_eq_some_iff.mp h with ⟨fst, hfst, hnode⟩
      rw [← hnode]
      have hchild := ih hbody hfst
      exact hchild
  | binaryOpr op lhs rhs ihl ihr =>
      have hboth := Bool.and_eq_true_iff.mp hbody
      rcases replace_binaryOpr_some h with ⟨fst, snd, hfst, hsnd, rfl⟩
      exact ⟨ihl hboth.left hfst, ihr hboth.right hsnd⟩
  | vectorAccess lhs rhs ihl ihr =>
      rcases replace_vectorAccess hbody h with ⟨k, id, _, _, hid, hnode⟩
      rw [hnode]
      exact if_pos (List.mem_of_getElem? hid)
  | ifThenElse a b c iha ihb ihc =>
      have hall := Bool.and_eq_true_iff.mp hbody
      have hboth := Bool.and_eq_true_iff.mp hall.left
      rcases replace_ifThenElse_some h with ⟨fst, snd, trd, hfst, hsnd, htrd, rfl⟩
      exact ⟨iha hboth.left hfst, ihb hboth.right hsnd, ihc hall.right htrd⟩
  | forEach lhs rhs ihl ihr => cases hbody
  | unique child ih => cases hbody
  | bitslice child r l ih =>
      rcases Option.map_eq_some_iff.mp h with ⟨fst, hfst, hnode⟩
      rw [← hnode]
      have hchild := ih hbody hfst
      exact hchild

theorem mem_supportVars_of_replace (hbody : isElementwise v d n = true)
    (h : replace i ids n = some node) {k : Int} (hk : k ∈ accessed i n) {id : Nat}
    (hid : ids[k.toNat]? = some id) : id ∈ node.supportVars := by
  induction n generalizing node with
  | placeholder id => cases hk
  | variableExpr id bitsize sign => cases hbody
  | constant c => cases hk
  | vectorExpr id bitsize sign => cases hbody
  | unaryOpr op child ih =>
      rcases replace_unaryOpr_some h with ⟨fst, hfst, rfl⟩
      have hchild := ih hbody hfst hk
      exact hchild
  | inside child collection ih =>
      rcases Option.map_eq_some_iff.mp h with ⟨fst, hfst, hnode⟩
      rw [← hnode]
      have hchild := ih hbody hfst hk
      exact hchild
  | extendExpr child value ih =>
      rcases Option.map_eq_some_iff.mp h with ⟨fst, hfst, hnode⟩
      rw [← hnode]
      have hchild := ih hbody hfst hk
      exact hchild
  | binaryOpr op lhs rhs ihl ihr =>
      have hboth := Bool.and_eq_true_iff.mp hbody
      rcases replace_binaryOpr_some h with ⟨fst, snd, hfst, hsnd, rfl⟩
      cases List.mem_append.mp hk with
      | inl hk => exact Finset.mem_union_left _ (ihl hboth.left hfst hk)
      | inr hk => exact Finset.mem_union_right _ (ihr hboth.right hsnd hk)
  | vectorAccess lhs rhs ihl ihr =>
      rcases replace_vectorAccess hbody h with ⟨k', id', hsub, _, hid', hnode⟩
      rw [accessed, hsub] at hk
      rw [List.mem_singleton.mp hk, hid'] at hid
      rw [hnode, Option.some.inj hid]
      exact Finset.mem_singleton_self id
  | ifThenElse a b c iha ihb ihc =>
      have hall := Bool.and_eq_true_iff.mp hbody
      have hboth := Bool.and_eq_true_iff.mp hall.left
      rcases replace_ifThenElse_some h with ⟨fst, snd, trd, hfst, hsnd, htrd, rfl⟩
      cases List.mem_append.mp hk with
      | inl hk =>
          cases List.mem_append.mp hk with
          | inl hk =>
              exact Finset.mem_union_left _
                (Finset.mem_union_left _ (iha hboth.left hfst hk))
          | inr hk =>
              exact Finset.mem_union_left _
                (Finset.mem_union_right _ (ihb hboth.right hsnd hk))
      | inr hk => exact Finset.mem_union_right _ (ihc hall.right htrd hk)
  | forEach lhs rhs ihl ihr => cases hbody
  | unique child ih => cases hbody
  | bitslice child r l ih =>
      rcases Option.map_eq_some_iff.mp h with ⟨fst, hfst, hnode⟩
      rw [← hnode]
      have hchild := ih hbody hfst hk
      exact hchild

/-!
## Bodies over contents
-/

theorem instantiate_vectorAccess {lhs rhs : Node}
    (hbody : isElementwise v d (.vectorAccess lhs rhs) = true) (hi : i < 2 ^ 31)
    (h : values.instantiate i (.vectorAccess lhs rhs) = some node) :
    exists k bits, subscript i rhs = some k ∧ 0 ≤ k ∧
      (values.vector v)[k.toNat]? = some bits ∧
      node = .constant (toConstantExpr d bits) := by
  have hboth := Bool.and_eq_true_iff.mp hbody
  have hindex := @index_eq_subscript values i rhs hboth.right hi
  rw [eq_of_beq hboth.left] at h
  cases hk : subscript i rhs with
  | none =>
      rw [hk] at hindex
      simp only [Values.instantiate, hindex] at h
      cases h
  | some k =>
      rw [hk] at hindex
      simp only [Values.instantiate, hindex] at h
      rcases Option.map_eq_some_iff.mp h with ⟨bits, hbits, hnode⟩
      rw [Values.element] at hbits
      split at hbits
      · next hpos => exact ⟨k, bits, rfl, hpos, hbits, hnode.symm⟩
      · cases hbits

/-- A body that can be read accesses positions of the vector only. -/
theorem inRange_of_instantiate (hbody : isElementwise v d n = true) (hi : i < 2 ^ 31)
    (h : values.instantiate i n = some node) :
    InRange (values.vector v).length (accessed i n) := by
  induction n generalizing node with
  | placeholder id => exact List.forall_mem_nil _
  | variableExpr id bitsize sign => cases hbody
  | constant c => exact List.forall_mem_nil _
  | vectorExpr id bitsize sign => cases hbody
  | unaryOpr op child ih =>
      rcases Option.map_eq_some_iff.mp h with ⟨fst, hfst, _⟩
      exact ih hbody hfst
  | inside child collection ih =>
      rcases Option.map_eq_some_iff.mp h with ⟨fst, hfst, _⟩
      exact ih hbody hfst
  | extendExpr child value ih =>
      rcases Option.map_eq_some_iff.mp h with ⟨fst, hfst, _⟩
      exact ih hbody hfst
  | binaryOpr op lhs rhs ihl ihr =>
      have hboth := Bool.and_eq_true_iff.mp hbody
      rw [Values.instantiate] at h
      split at h
      · next fst snd hfst hsnd =>
          exact inRange_append.mpr ⟨ihl hboth.left hfst, ihr hboth.right hsnd⟩
      · cases h
  | vectorAccess lhs rhs ihl ihr =>
      rcases instantiate_vectorAccess hbody hi h with ⟨k, bits, hsub, hpos, hbits, _⟩
      have hlt : k.toNat < (values.vector v).length := (List.getElem?_eq_some_iff.mp hbits).1
      rw [accessed, hsub]
      intro k' hk'
      rw [List.mem_singleton.mp hk']
      constructor
      · exact hpos
      · omega
  | ifThenElse a b c iha ihb ihc =>
      have hall := Bool.and_eq_true_iff.mp hbody
      have hboth := Bool.and_eq_true_iff.mp hall.left
      rw [Values.instantiate] at h
      split at h
      · next fst snd trd hfst hsnd htrd =>
          apply inRange_append.mpr
          constructor
          · exact inRange_append.mpr ⟨iha hboth.left hfst, ihb hboth.right hsnd⟩
          · exact ihc hall.right htrd
      · cases h
  | forEach lhs rhs ihl ihr => cases hbody
  | unique child ih => cases hbody
  | bitslice child r l ih =>
      rcases Option.map_eq_some_iff.mp h with ⟨fst, hfst, _⟩
      exact ih hbody hfst

/-!
## Elements and their variables
-/

/-- Two entries with one sign and one value, each in its own model. -/
structure SameEntry (m m' : Model SolverVar) (e e' : Entry) : Prop where
  sign : e.2 = e'.2
  eval : e.1.eval m = e'.1.eval m'

variable {m m' : Model SolverVar} {e e' fst fst' snd snd' trd trd' : Entry}

theorem eval_constant (m m' : Model SolverVar) (c : Constant) :
    (visitConstant c).1.eval m = (visitConstant c).1.eval m' := by
  apply Term.eval_congr
  intro v w h
  rw [atoms_visitConstant] at h
  cases h

theorem SameEntry.binary (h : fst.1.eval m = fst'.1.eval m') (h' : snd.1.eval m = snd'.1.eval m')
    (tag : BinaryTag) :
    Term.eval m (.binary tag fst.1 snd.1) = Term.eval m' (.binary tag fst'.1 snd'.1) := by
  simp only [Term.eval, h, h']

theorem SameEntry.visitUnaryOpr (h : SameEntry m m' e e') (op : UnaryOperator) :
    SameEntry m m' (visitUnaryOpr op e) (visitUnaryOpr op e') := by
  cases op with
  | notOpr => exact ⟨h.sign, by simp only [MetaSMTVisitor.visitUnaryOpr, visitNotOpr, Term.eval, h.eval]⟩
  | negOpr => exact ⟨h.sign, by simp only [MetaSMTVisitor.visitUnaryOpr, visitNegOpr, Term.eval, h.eval]⟩
  | complementOpr =>
      exact ⟨h.sign, by simp only [MetaSMTVisitor.visitUnaryOpr, visitComplementOpr, Term.eval, h.eval]⟩

theorem SameEntry.visitInside (h : SameEntry m m' e e') (collection : List Constant) :
    SameEntry m m' (visitInside e collection) (visitInside e' collection) := by
  have hfold : forall (cs : List Constant) (acc acc' : Formula), acc.eval m = acc'.eval m' ->
      (cs.foldl (fun result c =>
        Term.binary .or result (.binary .equal e.1 (visitConstant c).1)) acc).eval m =
      (cs.foldl (fun result c =>
        Term.binary .or result (.binary .equal e'.1 (visitConstant c).1)) acc').eval m' := by
    intro cs
    induction cs with
    | nil =>
        intro acc acc' hacc
        exact hacc
    | cons c rest ih =>
        intro acc acc' hacc
        apply ih
        simp only [Term.eval, hacc, h.eval, eval_constant m m' c]
  exact ⟨rfl, hfold collection Term.false Term.false rfl⟩

theorem SameEntry.visitExtendExpr (h : SameEntry m m' e e') (value : Nat) :
    SameEntry m m' (visitExtendExpr value e) (visitExtendExpr value e') := by
  simp only [MetaSMTVisitor.visitExtendExpr, h.sign]
  split
  · exact ⟨rfl, by simp only [Term.eval, h.eval]⟩
  · exact ⟨rfl, by simp only [Term.eval, h.eval]⟩

theorem SameEntry.signCases (h : SameEntry m m' fst fst') (h' : SameEntry m m' snd snd')
    (signedTag unsignedTag : BinaryTag) :
    (signCases signedTag unsignedTag fst snd).eval m =
      (signCases signedTag unsignedTag fst' snd').eval m' := by
  simp only [MetaSMTVisitor.signCases, h.sign, h'.sign]
  split
  · simp only [Term.eval, h.eval, h'.eval]
  · split
    · simp only [Term.eval, h.eval, h'.eval]
    · split
      · simp only [Term.eval, h.eval, h'.eval]
      · simp only [Term.eval, h.eval, h'.eval]

theorem SameEntry.visitBinaryOpr (h : SameEntry m m' fst fst') (h' : SameEntry m m' snd snd')
    (op : BinaryOperator) :
    SameEntry m m' (visitBinaryOpr op fst snd) (visitBinaryOpr op fst' snd') := by
  have hsign : (fst.2 || snd.2) = (fst'.2 || snd'.2) := by rw [h.sign, h'.sign]
  cases op with
  | lessOpr => exact ⟨rfl, h.signCases h' _ _⟩
  | lessEqualOpr => exact ⟨rfl, h.signCases h' _ _⟩
  | greaterOpr => exact ⟨rfl, h.signCases h' _ _⟩
  | greaterEqualOpr => exact ⟨rfl, h.signCases h' _ _⟩
  | devideOpr => exact ⟨hsign, h.signCases h' _ _⟩
  | moduloOpr =>
      refine ⟨hsign, ?_⟩
      simp only [MetaSMTVisitor.visitBinaryOpr, visitModuloOpr, h.sign]
      exact SameEntry.binary h.eval h'.eval _
  | equalOpr => exact ⟨rfl, SameEntry.binary h.eval h'.eval _⟩
  | notEqualOpr => exact ⟨rfl, SameEntry.binary h.eval h'.eval _⟩
  | shiftLeftOpr => exact ⟨h.sign, SameEntry.binary h.eval h'.eval _⟩
  | shiftRightOpr => exact ⟨h.sign, SameEntry.binary h.eval h'.eval _⟩
  | _ => exact ⟨hsign, SameEntry.binary h.eval h'.eval _⟩

theorem SameEntry.visitIfThenElse (h : SameEntry m m' fst fst') (h' : SameEntry m m' snd snd')
    (h'' : SameEntry m m' trd trd') :
    SameEntry m m' (visitIfThenElse fst snd trd) (visitIfThenElse fst' snd' trd') := by
  refine ⟨rfl, ?_⟩
  simp only [MetaSMTVisitor.visitIfThenElse, Term.eval, h.eval, h'.eval, h''.eval, Term.true]

theorem SameEntry.visitBitslice (h : SameEntry m m' e e') (r l : Nat) :
    SameEntry m m' (visitBitslice r l e) (visitBitslice r l e') :=
  ⟨rfl, by simp only [MetaSMTVisitor.visitBitslice, Term.eval, h.eval]⟩

/-- The variables of the elements have the values of the elements. -/
def ElementsAgree (values : Values) (v : Nat) (d : VarDecl) (ids : List Nat)
    (m : Model SolverVar) : Prop :=
  forall k id bits : Nat, ids[k]? = some id -> (values.vector v)[k]? = some bits ->
    BitVec.ofNat d.bitsize (m (.terminal id)) = BitVec.ofNat d.bitsize bits

theorem sameEntry_element (hd : d.bitsize ≤ 64) {id bits : Nat}
    (hagree : BitVec.ofNat d.bitsize (m (.terminal id)) = BitVec.ofNat d.bitsize bits) :
    SameEntry m m' (.var (.terminal id) d.bitsize, d.sign)
      (visitConstant (toConstantExpr d bits)) := by
  constructor
  · show d.sign = (visitConstant (toConstantExpr d bits)).2
    unfold visitConstant
    split
    · rfl
    · split
      · rfl
      · rfl
  · rw [eval_visitConstant m' (toConstantExpr_inRange hd bits) hd]
    show some (SizedBits.mk d.bitsize (BitVec.ofNat d.bitsize (m (.terminal id)))) =
      some (SizedBits.mk d.bitsize ((toConstantExpr d bits).value.setWidth d.bitsize))
    rw [setWidth_toConstantExpr hd, hagree]

/-- A copy and the body with the elements in it are translated alike. -/
theorem sameEntry_of_replace (hd : d.bitsize ≤ 64) (hbody : isElementwise v d n = true)
    (hi : i < 2 ^ 31) (hagree : ElementsAgree values v d ids m) {node node' : Node}
    (hcopy : replace i ids n = some node) (hread : values.instantiate i n = some node')
    (htranslate : MetaSMTVisitor.translate node = .ok e) :
    exists e', MetaSMTVisitor.translate node' = .ok e' ∧ SameEntry m m' e e' := by
  induction n generalizing node node' e with
  | placeholder id =>
      cases hcopy
      cases hread
      exact ⟨e, htranslate, by cases htranslate; exact ⟨rfl, eval_constant m m' _⟩⟩
  | variableExpr id bitsize sign => cases hbody
  | constant c =>
      cases hcopy
      cases hread
      exact ⟨e, htranslate, by cases htranslate; exact ⟨rfl, eval_constant m m' _⟩⟩
  | vectorExpr id bitsize sign => cases hbody
  | unaryOpr op child ih =>
      rcases Option.map_eq_some_iff.mp hread with ⟨inner', hinner', hnode'⟩
      rcases replace_unaryOpr_some hcopy with ⟨inner, hinner, rfl⟩
      rcases MetaSMTVisitor.translate_unaryOpr_ok htranslate with ⟨e₁, he₁, rfl⟩
      rcases ih hbody hinner hinner' he₁ with ⟨e₁', he₁', hsame⟩
      rw [← hnode', MetaSMTVisitor.translate, he₁']
      exact ⟨_, rfl, hsame.visitUnaryOpr op⟩
  | inside child collection ih =>
      rcases Option.map_eq_some_iff.mp hread with ⟨inner', hinner', hnode'⟩
      rcases Option.map_eq_some_iff.mp hcopy with ⟨inner, hinner, rfl⟩
      rcases MetaSMTVisitor.translate_inside_ok htranslate with ⟨e₁, he₁, rfl⟩
      rcases ih hbody hinner hinner' he₁ with ⟨e₁', he₁', hsame⟩
      rw [← hnode', MetaSMTVisitor.translate, he₁']
      exact ⟨_, rfl, hsame.visitInside collection⟩
  | extendExpr child value ih =>
      rcases Option.map_eq_some_iff.mp hread with ⟨inner', hinner', hnode'⟩
      rcases Option.map_eq_some_iff.mp hcopy with ⟨inner, hinner, rfl⟩
      rcases MetaSMTVisitor.translate_extendExpr_ok htranslate with ⟨e₁, he₁, rfl⟩
      rcases ih hbody hinner hinner' he₁ with ⟨e₁', he₁', hsame⟩
      rw [← hnode', MetaSMTVisitor.translate, he₁']
      exact ⟨_, rfl, hsame.visitExtendExpr value⟩
  | binaryOpr op lhs rhs ihl ihr =>
      have hboth := Bool.and_eq_true_iff.mp hbody
      rw [Values.instantiate] at hread
      split at hread
      · next fst' snd' hfst' hsnd' =>
          cases hread
          rcases replace_binaryOpr_some hcopy with ⟨fst, snd, hfst, hsnd, rfl⟩
          rcases MetaSMTVisitor.translate_binaryOpr_ok htranslate with
            ⟨e₁, e₂, he₁, he₂, rfl⟩
          rcases ihl hboth.left hfst hfst' he₁ with ⟨e₁', he₁', hsame₁⟩
          rcases ihr hboth.right hsnd hsnd' he₂ with ⟨e₂', he₂', hsame₂⟩
          simp only [MetaSMTVisitor.translate, he₁', he₂']
          exact ⟨_, rfl, hsame₁.visitBinaryOpr hsame₂ op⟩
      · cases hread
  | vectorAccess lhs rhs ihl ihr =>
      rcases replace_vectorAccess hbody hcopy with ⟨k, id, hk, _, hid, hnode⟩
      rcases instantiate_vectorAccess hbody hi hread with ⟨k', bits, hk', _, hbits, hnode'⟩
      rw [hk] at hk'
      cases hk'
      rw [hnode] at htranslate
      cases htranslate
      rw [hnode']
      exact ⟨_, rfl, sameEntry_element hd (hagree k.toNat id bits hid hbits)⟩
  | ifThenElse a b c iha ihb ihc =>
      have hall := Bool.and_eq_true_iff.mp hbody
      have hboth := Bool.and_eq_true_iff.mp hall.left
      rw [Values.instantiate] at hread
      split at hread
      · next fst' snd' trd' hfst' hsnd' htrd' =>
          cases hread
          rcases replace_ifThenElse_some hcopy with ⟨fst, snd, trd, hfst, hsnd, htrd, rfl⟩
          rcases MetaSMTVisitor.translate_ifThenElse_ok htranslate with
            ⟨e₁, e₂, e₃, he₁, he₂, he₃, rfl⟩
          rcases iha hboth.left hfst hfst' he₁ with ⟨e₁', he₁', hsame₁⟩
          rcases ihb hboth.right hsnd hsnd' he₂ with ⟨e₂', he₂', hsame₂⟩
          rcases ihc hall.right htrd htrd' he₃ with ⟨e₃', he₃', hsame₃⟩
          simp only [MetaSMTVisitor.translate, he₁', he₂', he₃']
          exact ⟨_, rfl, hsame₁.visitIfThenElse hsame₂ hsame₃⟩
      · cases hread
  | forEach lhs rhs ihl ihr => cases hbody
  | unique child ih => cases hbody
  | bitslice child r l ih =>
      rcases Option.map_eq_some_iff.mp hread with ⟨inner', hinner', hnode'⟩
      rcases Option.map_eq_some_iff.mp hcopy with ⟨inner, hinner, rfl⟩
      rcases MetaSMTVisitor.translate_bitslice_ok htranslate with ⟨e₁, he₁, rfl⟩
      rcases ih hbody hinner hinner' he₁ with ⟨e₁', he₁', hsame⟩
      rw [← hnode', MetaSMTVisitor.translate, he₁']
      exact ⟨_, rfl, hsame.visitBitslice r l⟩

/-- When the copy is true of the variables of the elements, the body is true of the
elements. -/
theorem nodeHolds_of_replace (hd : d.bitsize ≤ 64) (hbody : isElementwise v d n = true)
    (hi : i < 2 ^ 31) (hagree : ElementsAgree values v d ids m) {node node' : Node}
    (hcopy : replace i ids n = some node) (hread : values.instantiate i n = some node')
    (hholds : NodeHolds m node) : NodeHolds m' node' := by
  unfold NodeHolds at hholds ⊢
  cases htranslate : MetaSMTVisitor.translate node with
  | error what =>
      rw [htranslate] at hholds
      cases hholds
  | ok e =>
      rw [htranslate] at hholds
      have hsame : exists e', MetaSMTVisitor.translate node' = .ok e' ∧ SameEntry m m' e e' :=
        sameEntry_of_replace hd hbody hi hagree hcopy hread htranslate
      rcases hsame with ⟨e', htranslate', hsame⟩
      rw [htranslate']
      show e'.1.eval m' = _
      rw [← hsame.eval]
      exact hholds

end Body

end Backend
end Crave
