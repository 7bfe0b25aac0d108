import Crave.Backend.SolverState
import Crave.Ir.ConstraintPartition
import Mathlib.Data.List.Nodup

/-!
# Variables and the program variables behind them

The container knows the declared variables and three kinds of references: read
references fix a variable to the current value of a program variable, write
references receive the solution, and distribution references suggest a value.
A program variable is a location of the memory that holds its bits.
-/

namespace Crave
namespace Backend

open Foundation Ir MetaSMTVisitor

abbrev Memory := Nat -> Nat

/-- Everything outside the generators that their operations change. -/
structure World where
  memory : Memory
  vectors : Nat -> List Nat
  time : Nat
  var_ID : Nat
  constraint_ID : Nat

/-!
## Host values as constants
-/

/-- `to_constant_expr`: the constant for the bits of a host variable. -/
def toConstantExpr (d : VarDecl) (bits : Nat) : Constant :=
  { value :=
      if d.sign && d.bitsize != 1 then (BitVec.ofNat d.bitsize bits).signExtend 64
      else (BitVec.ofNat d.bitsize bits).setWidth 64
    bitsize := d.bitsize
    sign := d.sign }

theorem setWidth_signExtend {w : Nat} (hle : w ≤ 64) (x : BitVec w) :
    (x.signExtend 64).setWidth w = x := by
  apply BitVec.eq_of_getLsbD_eq
  intro i hi
  rw [BitVec.getLsbD_setWidth, BitVec.getLsbD_signExtend]
  simp [hi, lt_of_lt_of_le hi hle]

theorem setWidth_setWidth {w : Nat} (hle : w ≤ 64) (x : BitVec w) :
    (x.setWidth 64).setWidth w = x := by
  rw [BitVec.setWidth_setWidth_of_le _ hle, BitVec.setWidth_eq]

theorem setWidth_toConstantExpr {d : VarDecl} (hle : d.bitsize ≤ 64) (bits : Nat) :
    (toConstantExpr d bits).value.setWidth d.bitsize = BitVec.ofNat d.bitsize bits := by
  unfold toConstantExpr
  simp only
  split
  · exact setWidth_signExtend hle _
  · exact setWidth_setWidth hle _

theorem toNat_setWidth_lt {w : Nat} (hle : w ≤ 64) (x : BitVec w) :
    (x.setWidth 64).toNat < 2 ^ w := by
  rw [BitVec.toNat_setWidth_of_le hle]
  exact x.isLt

theorem toConstantExpr_inRange {d : VarDecl} (hle : d.bitsize ≤ 64) (bits : Nat) :
    (toConstantExpr d bits).InRange := by
  rcases d with ⟨w, sign⟩
  unfold Constant.InRange Constant.isBool toConstantExpr
  simp only
  cases sign with
  | false =>
      simp only [Bool.and_false, Bool.false_and, Bool.false_eq_true, if_false]
      exact toNat_setWidth_lt hle _
  | true =>
      by_cases hw : w = 1
      · subst hw
        have hlt := toNat_setWidth_lt hle (BitVec.ofNat 1 bits)
        simp only [BEq.rfl, Bool.and_self, if_true, bne_self_eq_false, Bool.and_false,
          Bool.false_eq_true, if_false]
        rcases Nat.lt_succ_iff_lt_or_eq.mp hlt with h | h
        · exact Or.inl (BitVec.eq_of_toNat_eq (Nat.lt_one_iff.mp h))
        · exact Or.inr (BitVec.eq_of_toNat_eq h)
      · have hbool : (w == 1) = false := by simpa using hw
        have hne : (w != 1) = true := by simpa using hw
        simp only [hbool, hne, Bool.false_and, Bool.and_self, Bool.false_eq_true, if_false,
          if_true]
        rw [setWidth_signExtend hle]

/-!
## Equations between a variable and a constant
-/

/-- `EqualOpr(var, Constant(..))` for a variable of the given declaration. -/
def equalConstant (id : Nat) (d : VarDecl) (c : Constant) : Node :=
  .binaryOpr .equalOpr (.variableExpr id d.bitsize d.sign) (.constant c)

theorem equalConstant_declared {variables_ : Declarations} {id : Nat} {d : VarDecl}
    (hd : variables_ id = some d) (c : Constant) :
    (equalConstant id d c).DeclaredIn variables_ :=
  ⟨hd, trivial⟩

theorem supportVars_equalConstant (id : Nat) (d : VarDecl) (c : Constant) :
    (equalConstant id d c).supportVars = {id} :=
  Finset.union_empty _

theorem nodeHolds_equalConstant (m : Model SolverVar) (id : Nat) {d : VarDecl}
    (hle : d.bitsize ≤ 64) (bits : Nat) :
    NodeHolds m (equalConstant id d (toConstantExpr d bits)) ↔
      BitVec.ofNat d.bitsize (m (.terminal id)) = BitVec.ofNat d.bitsize bits := by
  have heval := eval_visitConstant m (toConstantExpr_inRange hle bits) (by exact hle)
  have hbits : (toConstantExpr d bits).bitsize = d.bitsize := rfl
  rw [hbits, setWidth_toConstantExpr hle] at heval
  change Term.eval m (.binary .equal (.var (.terminal id) d.bitsize)
    (visitConstant (toConstantExpr d bits)).1) = _ ↔ _
  simp only [Term.eval, heval, SizedBits.binary_mk, BinaryTag.apply, Option.some.injEq]
  constructor
  · intro h
    exact eq_of_beq (SizedBits.ofBool_injective h)
  · intro h
    rw [h, beq_self_eq_true]

/-!
## The container
-/

/-- References are pairs of an identifier and a location.  Every identifier is
entered once, when its variable is declared, and every write reference belongs
to a program variable of its own. -/
structure VariableContainer where
  variables_ : Declarations
  vector_variables : Declarations
  read_references : List (Nat × Nat)
  write_references : List (Nat × Nat)
  dist_references : List (Nat × (Nat -> BitVec 64))
  dist_ref_to_var_map : Nat -> Option Nat
  supported : forall id d, variables_ id = some d -> 0 < d.bitsize ∧ d.bitsize ≤ 64
  declared : forall id,
    id ∈ read_references.map Prod.fst ++ write_references.map Prod.fst ++
      dist_references.map Prod.fst -> exists d, variables_ id = some d
  ids_nodup : (read_references.map Prod.fst ++ write_references.map Prod.fst ++
    dist_references.map Prod.fst).Nodup
  locations_nodup : (write_references.map Prod.snd).Nodup

namespace VariableContainer

section Restrict

variable {value : Type}

/-- The references whose identifiers are in the support of a partition. -/
def select (support : Finset Nat) (refs : List (Nat × value)) : List (Nat × value) :=
  refs.filter fun pair => pair.1 ∈ support

theorem select_sublist (support : Finset Nat) (refs : List (Nat × value)) :
    (select support refs).Sublist refs :=
  List.filter_sublist

theorem mem_select {support : Finset Nat} {refs : List (Nat × value)} {pair : Nat × value} :
    pair ∈ select support refs ↔ pair ∈ refs ∧ pair.1 ∈ support := by
  simp [select]

end Restrict

/-- The part of the container that belongs to the support of a partition. -/
def restrict (vcon : VariableContainer) (support : Finset Nat) : VariableContainer :=
  { variables_ := fun id => if id ∈ support then vcon.variables_ id else none
    vector_variables := vcon.vector_variables
    read_references := select support vcon.read_references
    write_references := select support vcon.write_references
    dist_references := select support vcon.dist_references
    dist_ref_to_var_map := vcon.dist_ref_to_var_map
    supported := by
      intro id d hd
      split at hd
      · exact vcon.supported id d hd
      · cases hd
    declared := by
      intro id hid
      have hmem : id ∈ support ∧ id ∈ vcon.read_references.map Prod.fst ++
          vcon.write_references.map Prod.fst ++ vcon.dist_references.map Prod.fst := by
        simp only [List.mem_append, List.mem_map, mem_select] at hid ⊢
        rcases hid with (⟨p, ⟨hp, hs⟩, rfl⟩ | ⟨p, ⟨hp, hs⟩, rfl⟩) | ⟨p, ⟨hp, hs⟩, rfl⟩
        · exact ⟨hs, Or.inl (Or.inl ⟨p, hp, rfl⟩)⟩
        · exact ⟨hs, Or.inl (Or.inr ⟨p, hp, rfl⟩)⟩
        · exact ⟨hs, Or.inr ⟨p, hp, rfl⟩⟩
      rw [if_pos hmem.1]
      exact vcon.declared id hmem.2
    ids_nodup := by
      refine vcon.ids_nodup.sublist ?_
      exact (((select_sublist support _).map Prod.fst).append
        ((select_sublist support _).map Prod.fst)).append
          ((select_sublist support _).map Prod.fst)
    locations_nodup :=
      vcon.locations_nodup.sublist ((select_sublist support _).map Prod.snd) }

def declOf (vcon : VariableContainer) (id : Nat) : VarDecl :=
  (vcon.variables_ id).getD { bitsize := 1, sign := true }

theorem variables_declOf {vcon : VariableContainer} {id : Nat} {d : VarDecl}
    (h : vcon.variables_ id = some d) : vcon.declOf id = d := by
  rw [declOf, h]
  rfl

theorem variables_of_read {vcon : VariableContainer} {pair : Nat × Nat}
    (h : pair ∈ vcon.read_references) :
    vcon.variables_ pair.1 = some (vcon.declOf pair.1) := by
  have hmem : pair.1 ∈ vcon.read_references.map Prod.fst := List.mem_map_of_mem h
  rcases vcon.declared pair.1
    (List.mem_append_left _ (List.mem_append_left _ hmem)) with ⟨d, hd⟩
  rw [variables_declOf hd, hd]

theorem variables_of_write {vcon : VariableContainer} {pair : Nat × Nat}
    (h : pair ∈ vcon.write_references) :
    vcon.variables_ pair.1 = some (vcon.declOf pair.1) := by
  have hmem : pair.1 ∈ vcon.write_references.map Prod.fst := List.mem_map_of_mem h
  rcases vcon.declared pair.1
    (List.mem_append_left _ (List.mem_append_right _ hmem)) with ⟨d, hd⟩
  rw [variables_declOf hd, hd]

theorem variables_of_dist {vcon : VariableContainer} {pair : Nat × (Nat -> BitVec 64)}
    (h : pair ∈ vcon.dist_references) :
    vcon.variables_ pair.1 = some (vcon.declOf pair.1) := by
  have hmem : pair.1 ∈ vcon.dist_references.map Prod.fst := List.mem_map_of_mem h
  rcases vcon.declared pair.1 (List.mem_append_right _ hmem) with ⟨d, hd⟩
  rw [variables_declOf hd, hd]

/-- A container of variables of one type; the program variable of each has the
identifier as its location. -/
def ofReferences (d : VarDecl) (hd : 0 < d.bitsize ∧ d.bitsize ≤ 64) (read write : List Nat)
    (hnodup : (read ++ write).Nodup) : VariableContainer :=
  { variables_ := fun id => if id ∈ read ++ write then some d else none
    vector_variables := fun _ => none
    read_references := read.map fun id => (id, id)
    write_references := write.map fun id => (id, id)
    dist_references := []
    dist_ref_to_var_map := fun _ => none
    supported := by
      intro id d' hd'
      split at hd'
      · cases hd'
        exact hd
      · cases hd'
    declared := by
      intro id hid
      have hmem : id ∈ read ++ write := by simpa using hid
      exact ⟨d, if_pos hmem⟩
    ids_nodup := by simpa [Function.comp_def] using hnodup
    locations_nodup := by
      simpa [Function.comp_def] using (List.nodup_append.mp hnodup).2.1 }

theorem byte_supported : 0 < (⟨8, false⟩ : VarDecl).bitsize ∧ (⟨8, false⟩ : VarDecl).bitsize ≤ 64 := by
  decide

theorem nodup_write_one : (([] : List Nat) ++ [1]).Nodup := by
  decide

end VariableContainer

/-!
## Writing a solution back
-/

/-- `solver_->read(variable, reference)`: a variable that the solver has not met
leaves the program variable as it is. -/
def readInto (s : MetaSMTVisitor) (memory : Memory) (pair : Nat × Nat) : Memory :=
  match s.read pair.1 with
  | some v => Function.update memory pair.2 v
  | none => memory

def writeBack (s : MetaSMTVisitor) (refs : List (Nat × Nat)) (memory : Memory) : Memory :=
  refs.foldl (readInto s) memory

theorem readInto_of_ne {s : MetaSMTVisitor} {pair : Nat × Nat} {loc : Nat} (h : loc ≠ pair.2)
    (memory : Memory) : readInto s memory pair loc = memory loc := by
  unfold readInto
  cases s.read pair.1 with
  | none => rfl
  | some v => exact Function.update_of_ne h v memory

theorem readInto_self (s : MetaSMTVisitor) (memory : Memory) (pair : Nat × Nat) :
    readInto s memory pair pair.2 = (s.read pair.1).getD (memory pair.2) := by
  unfold readInto
  cases s.read pair.1 with
  | none => rfl
  | some v => exact Function.update_self pair.2 v memory

theorem writeBack_of_not_mem {s : MetaSMTVisitor} {refs : List (Nat × Nat)} {loc : Nat}
    (h : loc ∉ refs.map Prod.snd) (memory : Memory) :
    writeBack s refs memory loc = memory loc := by
  induction refs generalizing memory with
  | nil => rfl
  | cons pair rest ih =>
      simp only [List.map_cons, List.mem_cons, not_or] at h
      change writeBack s rest _ loc = memory loc
      rw [ih h.2, readInto_of_ne h.1]

theorem writeBack_of_mem {s : MetaSMTVisitor} {refs : List (Nat × Nat)}
    (hnodup : (refs.map Prod.snd).Nodup) {pair : Nat × Nat} (h : pair ∈ refs)
    (memory : Memory) :
    writeBack s refs memory pair.2 = (s.read pair.1).getD (memory pair.2) := by
  induction refs generalizing memory with
  | nil => cases h
  | cons first rest ih =>
      rw [List.map_cons, List.nodup_cons] at hnodup
      change writeBack s rest _ pair.2 = _
      rcases List.mem_cons.mp h with rfl | hrest
      · rw [writeBack_of_not_mem hnodup.1, readInto_self]
      · have hne : pair.2 ≠ first.2 := by
          intro heq
          exact hnodup.1 (heq ▸ List.mem_map_of_mem hrest)
        rw [ih hnodup.2 hrest, readInto_of_ne hne]

end Backend
end Crave
