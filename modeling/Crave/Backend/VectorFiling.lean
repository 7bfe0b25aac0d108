import Crave.Backend.GeneratorVectors

/-!
# The vector of a constraint

A `foreach` and a `unique` are over one vector.  The generator recovers it as the
first identifier of the support of the constraint, which also has the scalar
variables of the body.
-/

namespace Crave
namespace Backend

open Foundation Ir

def vectorOf (c : UserConstraint) : Option Nat :=
  match c.expr_ with
  | .forEach (.vectorExpr id _ _) _ => some id
  | .unique (.vectorExpr id _ _) => some id
  | _ => none

namespace VectorGenerator

/-- The constraint is in a solver of its vector, together with the constraints over the same
vector and with no others. -/
def FiledUnderOwnVector (vecs : List UserConstraint) (c : UserConstraint) : Prop :=
  exists (v : Nat) (vs : VectorSolver), vectorOf c = some v ∧
    (v, vs) ∈ (reset vecs).vector_solvers_ ∧ vs.vector_id_ = v ∧ c ∈ vs.constraints_ ∧
    vs.constraints_ = vecs.filter fun c' => vectorOf c' == some v

section Filing

variable {vecs : List UserConstraint} {c : UserConstraint} {v : Nat}

theorem mem_supportVars_of_vectorOf (h : vectorOf c = some v) : v ∈ c.expr_.supportVars := by
  unfold vectorOf at h
  split at h
  · next id bitsize sign body hexpr =>
      cases h
      rw [hexpr]
      exact Finset.mem_union_left _ (Finset.mem_singleton_self _)
  · next id bitsize sign hexpr =>
      cases h
      rw [hexpr]
      exact Finset.mem_singleton_self _
  · cases h

theorem getVectorId_eq_iff (hv : v ∈ c.support_vars_) :
    getVectorId c = v ↔ forall id, id ∈ c.support_vars_ -> v ≤ id := by
  unfold getVectorId
  constructor
  · intro hmin id hid
    rcases Finset.min_of_mem hv with ⟨least, hleast⟩
    rw [hleast] at hmin
    have heq : least = v := hmin
    have hle := Finset.min_le hid
    rw [hleast, heq] at hle
    exact WithTop.coe_le_coe.mp hle
  · intro hleast
    have hmin : c.support_vars_.min = v := by
      apply le_antisymm
      · exact Finset.min_le hv
      · apply Finset.le_min
        intro id hid
        exact WithTop.coe_le_coe.mpr (hleast id hid)
    rw [hmin]
    rfl

theorem getVectorId_of_mem {pair : Nat × VectorSolver}
    (hpair : pair ∈ (reset vecs).vector_solvers_) (hc : c ∈ pair.2.constraints_) :
    getVectorId c = pair.1 := by
  have hconstraints : pair.2.constraints_ = filed vecs pair.1 :=
    ((grouped_reset vecs).entry _ (List.mem_map_of_mem hpair)).right
  rw [hconstraints] at hc
  exact eq_of_beq (List.mem_filter.mp hc).right

theorem exists_solver_of_mem (hc : c ∈ vecs) :
    exists vs : VectorSolver, (getVectorId c, vs) ∈ (reset vecs).vector_solvers_ ∧
      vs.vector_id_ = getVectorId c ∧ vs.constraints_ = filed vecs (getVectorId c) := by
  have hkey := (grouped_reset vecs).total c hc
  rw [map_fst_contents] at hkey
  rcases List.mem_map.mp hkey with ⟨pair, hpair, hfst⟩
  have hgroup := (grouped_reset vecs).entry _ (List.mem_map_of_mem hpair)
  rw [← hfst]
  exact ⟨pair.2, hpair, hgroup⟩

/-- `getVectorId` is the vector of a constraint exactly when the vector was declared before
everything else in the support, and all constraints are filed under their own vectors
exactly when that holds of all of them. -/
theorem filed_under_own_vector_iff (vecs : List UserConstraint)
    (hmade : forall c, c ∈ vecs -> c.support_vars_ = c.expr_.supportVars)
    (hover : forall c, c ∈ vecs -> (vectorOf c).isSome = true) :
    (forall c v, c ∈ vecs -> vectorOf c = some v ->
        (getVectorId c = v ↔ forall id, id ∈ c.expr_.supportVars -> v ≤ id)) ∧
      ((forall c, c ∈ vecs -> FiledUnderOwnVector vecs c) ↔
        forall c v, c ∈ vecs -> vectorOf c = some v ->
          forall id, id ∈ c.expr_.supportVars -> v ≤ id) := by
  have heach : forall c v, c ∈ vecs -> vectorOf c = some v ->
      (getVectorId c = v ↔ forall id, id ∈ c.expr_.supportVars -> v ≤ id) := by
    intro c v hc hv
    rw [← hmade c hc]
    apply getVectorId_eq_iff
    rw [hmade c hc]
    exact mem_supportVars_of_vectorOf hv
  refine ⟨heach, ?_⟩
  constructor
  · intro hfiled c v hc hv
    rcases hfiled c hc with ⟨v', vs, hv', hvs, _, hmem, _⟩
    rw [hv] at hv'
    cases hv'
    exact (heach c v hc hv).mp (getVectorId_of_mem hvs hmem)
  · intro hleast
    have hsame : forall c, c ∈ vecs -> vectorOf c = some (getVectorId c) := by
      intro c hc
      rcases Option.isSome_iff_exists.mp (hover c hc) with ⟨v, hv⟩
      rw [(heach c v hc hv).mpr (hleast c v hc hv)]
      exact hv
    intro c hc
    rcases exists_solver_of_mem hc with ⟨vs, hvs, hid, hconstraints⟩
    refine ⟨getVectorId c, vs, hsame c hc, hvs, hid, ?_, ?_⟩
    · rw [hconstraints]
      exact List.mem_filter.mpr ⟨hc, beq_self_eq_true _⟩
    · rw [hconstraints]
      apply List.filter_congr
      intro c' hc'
      rw [hsame c' hc']
      rfl

end Filing

/-!
## A scalar that is declared before the vector
-/

/-- `foreach(v, v[_i] == x)` over the vector with the identifier `v_id`. -/
def equalToScalar (v_id x_id : Nat) : UserConstraint :=
  let expr : Node :=
    .forEach (.vectorExpr v_id 8 false)
      (.binaryOpr .equalOpr (.vectorAccess (.vectorExpr v_id 8 false) (.placeholder 0))
        (.variableExpr x_id 8 false))
  { id_ := 0
    expr_ := expr
    name_ := "equal"
    support_vars_ := expr.supportVars
    unique_ := some false
    soft_ := false
    cover_ := false
    enabled_ := true
    complexity_ := 0 }

theorem filed_under_scalar :
    ¬ forall (c : UserConstraint) (v : Nat), c.support_vars_ = c.expr_.supportVars ->
      vectorOf c = some v -> getVectorId c = v := by
  intro h
  have hid := h (equalToScalar 2 1) 2 rfl rfl
  revert hid
  decide

/-- Two constraints over the vector 1 and between them one over the vector 3. -/
def threeForeach : List UserConstraint :=
  [equalToScalar 1 2, equalToScalar 3 4, equalToScalar 1 5]

theorem filed_under_own_vector_three :
    FiledUnderOwnVector threeForeach (equalToScalar 1 2) ∧
      FiledUnderOwnVector threeForeach (equalToScalar 3 4) ∧
      FiledUnderOwnVector threeForeach (equalToScalar 1 5) := by
  have hmem : forall c, c ∈ threeForeach -> exists v_id x_id,
      c = equalToScalar v_id x_id ∧ v_id ≤ x_id := by
    intro c hc
    simp only [threeForeach, List.mem_cons, List.not_mem_nil, or_false] at hc
    rcases hc with rfl | rfl | rfl
    · exact ⟨1, 2, rfl, by decide⟩
    · exact ⟨3, 4, rfl, by decide⟩
    · exact ⟨1, 5, rfl, by decide⟩
  have hfiled : forall c, c ∈ threeForeach -> FiledUnderOwnVector threeForeach c := by
    apply (filed_under_own_vector_iff threeForeach ?_ ?_).right.mpr ?_
    · intro c hc
      rcases hmem c hc with ⟨v_id, x_id, rfl, _⟩
      rfl
    · intro c hc
      rcases hmem c hc with ⟨v_id, x_id, rfl, _⟩
      rfl
    · intro c v hc hv id hid
      rcases hmem c hc with ⟨v_id, x_id, rfl, hle⟩
      cases hv
      have hsupport : (equalToScalar v x_id).expr_.supportVars = {v, x_id} := by
        simp [equalToScalar, Node.supportVars]
      rw [hsupport, Finset.mem_insert, Finset.mem_singleton] at hid
      rcases hid with rfl | rfl
      · exact Nat.le_refl _
      · exact hle
  refine ⟨hfiled _ List.mem_cons_self, hfiled _ (List.mem_cons_of_mem _ List.mem_cons_self), ?_⟩
  exact hfiled _ (List.mem_cons_of_mem _ (List.mem_cons_of_mem _ List.mem_cons_self))

end VectorGenerator

end Backend
end Crave
