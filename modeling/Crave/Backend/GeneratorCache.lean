import Crave.Backend.Generator

/-!
# What a generator keeps between calls

As long as its constraint manager has not changed, a generator has solvers for
exactly the partitions of the enabled constraints.  Every operation that ends
normally keeps it that way.
-/

namespace Crave
namespace Backend

open Foundation Ir


/-!
## Solvers built for given constraints
-/

/-- The enabled constraints that are partitioned, and those over vectors. -/
def scalarConstraints (mng : ConstraintManager) : List UserConstraint :=
  mng.enabled.filter fun c => !c.isVectorConstraint

def vectorConstraints (mng : ConstraintManager) : List UserConstraint :=
  mng.enabled.filter UserConstraint.isVectorConstraint

namespace Generator

open VectorGenerator (contents)

/-- The partitions, the vector constraints and all solvers are those of the given
constraints. -/
structure BuiltFor (vcon : VariableContainer) (cs vecs : List UserConstraint) (g : Generator) :
    Prop where
  partitions : g.constr_pttn_.partitions_ = ConstraintPartitioner.partition cs
  merged : g.constr_pttn_.constraints_ = []
  vectors : g.constr_pttn_.vec_constraints_ = vecs
  var_gen : List.Forall₂ (VariableDefaultSolver.Built vcon) g.constr_pttn_.partitions_
    g.var_gen_.solvers_
  var_cov_gen : List.Forall₂ (VariableCoverageSolver.Built vcon) g.constr_pttn_.partitions_
    g.var_cov_gen_.solvers_
  vec_gen : contents g.vec_gen_.vector_solvers_ =
    contents (VectorGenerator.reset vecs).vector_solvers_

theorem BuiltFor.setCovered {vcon : VariableContainer} {cs vecs : List UserConstraint}
    {g : Generator} (h : BuiltFor vcon cs vecs g) (covered : Bool) :
    BuiltFor vcon cs vecs { g with covered_ := covered } :=
  ⟨h.partitions, h.merged, h.vectors, h.var_gen, h.var_cov_gen, h.vec_gen⟩

/-- Constraints with identifiers of their own over declared variables. -/
structure WellMade (vcon : VariableContainer) (cs : List UserConstraint) : Prop where
  ids : (ConstraintPartitioner.ids cs).Nodup
  made : forall c, c ∈ cs -> c.Made vcon.variables_

theorem WellMade.separated {vcon : VariableContainer} {cs : List UserConstraint}
    (h : WellMade vcon cs) : Separated vcon (ConstraintPartitioner.partition cs) :=
  separated_of_isPartition (ConstraintPartitioner.partition_isPartition cs h.ids) h.made

theorem WellMade.sublist {vcon : VariableContainer} {cs ds : List UserConstraint}
    (h : WellMade vcon ds) (hsub : cs.Sublist ds) : WellMade vcon cs :=
  ⟨h.ids.sublist (hsub.map UserConstraint.id_), fun c hc => h.made c (hsub.subset hc)⟩

section Rebuild

variable {env : Environment} {vcon : VariableContainer} {cs vecs : List UserConstraint}
  {g g' : Generator} {w w' : World}

theorem resetCoverage_spec {outcome : Except String Unit}
    (h : resetCoverage env vcon g = (outcome, g')) :
    g' = { g with var_cov_gen_ := g'.var_cov_gen_, covered_ := false } := by
  cases h
  rfl

theorem BuiltFor.resetCoverage (hbuilt : BuiltFor vcon cs vecs g)
    (hps : Separated vcon g.constr_pttn_.partitions_)
    (h : resetCoverage env vcon g = (.ok (), g')) :
    BuiltFor vcon cs vecs g' ∧ forall vs, vs ∈ g'.var_cov_gen_.solvers_ -> vs.covered_set_ = ∅ := by
  cases hcreate : VariableCoverageGenerator.createSolvers env vcon g.constr_pttn_.partitions_ with
  | mk solvers_ outcome =>
      simp only [Generator.resetCoverage, VariableCoverageGenerator.reset, hcreate] at h
      cases h
      rcases VariableCoverageGenerator.built_createSolvers hps hcreate with ⟨hcov, hempty⟩
      exact ⟨⟨hbuilt.partitions, hbuilt.merged, hbuilt.vectors, hbuilt.var_gen, hcov,
        hbuilt.vec_gen⟩, hempty⟩

theorem rebuild_spec {selfInclude : Bool} (hfresh : g.constr_pttn_.partitions_ = [])
    (hmerged : (if selfInclude then g.merge g else g).constr_pttn_.constraints_ = cs)
    (hvectors : (if selfInclude then g.merge g else g).constr_pttn_.vec_constraints_ = vecs)
    (hmade : WellMade vcon cs) (h : rebuild env vcon selfInclude g w = (.ok (), g', w')) :
    BuiltFor vcon cs vecs g' ∧
      (forall vs, vs ∈ g'.var_cov_gen_.solvers_ -> vs.covered_set_ = ∅) ∧
      g'.constr_mng_ = g.constr_mng_ ∧ g'.covered_ = g.covered_ ∧
      g'.to_be_generated_vec_ids_ = g.to_be_generated_vec_ids_ ∧
      w' = { w with time := w'.time } := by
  unfold rebuild at h
  have hmng : (if selfInclude then g.merge g else g).constr_mng_ = g.constr_mng_ ∧
      (if selfInclude then g.merge g else g).covered_ = g.covered_ ∧
      (if selfInclude then g.merge g else g).to_be_generated_vec_ids_ =
        g.to_be_generated_vec_ids_ ∧
      (if selfInclude then g.merge g else g).constr_pttn_.partitions_ = [] := by
    cases selfInclude with
    | true => exact ⟨rfl, rfl, rfl, hfresh⟩
    | false => exact ⟨rfl, rfl, rfl, hfresh⟩
  generalize (if selfInclude then g.merge g else g) = merged at h hmng hmerged hvectors
  rcases hmng with ⟨hmng, hcovered, hids, hnone⟩
  have hrun : merged.constr_pttn_.run.partitions_ = ConstraintPartitioner.partition cs := by
    rw [ConstraintPartitioner.run, hnone, hmerged]
    rfl
  have hps := hmade.separated
  rw [← hrun] at hps
  cases hcreate : VariableGenerator.createSolvers env vcon merged.constr_pttn_.run.partitions_
      w.time with
  | mk solvers_ q =>
      rcases q with ⟨time, outcome⟩
      simp only [VariableGenerator.reset, hcreate] at h
      cases outcome with
      | error e => cases h
      | ok u =>
          cases hcov : VariableCoverageGenerator.createSolvers env vcon
              merged.constr_pttn_.run.partitions_ with
          | mk covs outcome =>
              simp only [VariableCoverageGenerator.reset, hcov] at h
              cases h
              rcases VariableCoverageGenerator.built_createSolvers hps hcov with
                ⟨hbuiltCov, hempty⟩
              refine ⟨⟨hrun, rfl, hvectors, ?_, hbuiltCov, ?_⟩, hempty, hmng, hcovered, hids, rfl⟩
              · exact VariableGenerator.built_createSolvers hps hcreate
              · exact congrArg (fun v => contents (VectorGenerator.reset v).vector_solvers_)
                  hvectors

end Rebuild

/-!
## Calls of the solvers
-/

section Solve

variable {env : Environment} {vcon : VariableContainer} {cs vecs : List UserConstraint}
  {g g' : Generator} {w w' : World}

/-- What generating keeps of a generator and of the world. -/
structure Kept (vcon : VariableContainer) (cs vecs : List UserConstraint) (g g' : Generator)
    (w w' : World) : Prop where
  built : BuiltFor vcon cs vecs g'
  constr_mng : g'.constr_mng_ = g.constr_mng_
  constraint_ID : w'.constraint_ID = w.constraint_ID

theorem Kept.refl (h : BuiltFor vcon cs vecs g) (w : World) : Kept vcon cs vecs g g w w :=
  ⟨h, rfl, rfl⟩

theorem Kept.trans {g₁ : Generator} {w₁ : World} (h : Kept vcon cs vecs g g₁ w w₁)
    (h' : Kept vcon cs vecs g₁ g' w₁ w') : Kept vcon cs vecs g g' w w' :=
  ⟨h'.built, h'.constr_mng.trans h.constr_mng, h'.constraint_ID.trans h.constraint_ID⟩

theorem kept_solveVectors {var_gen : List VariableSolver} (hbuilt : BuiltFor vcon cs vecs g)
    {result : Except String Bool} (h : solveVectors env var_gen g w = (result, g', w')) :
    Kept vcon cs vecs g g' w w' := by
  unfold solveVectors at h
  split at h
  · cases h
    exact Kept.refl hbuilt w
  · rename_i r vec_gen_ w₁ hsolve
    cases h
    rcases VectorGenerator.solve_frame hsolve with ⟨hcontents, -, hid⟩
    exact ⟨⟨hbuilt.partitions, hbuilt.merged, hbuilt.vectors, hbuilt.var_gen,
      hbuilt.var_cov_gen, hcontents.trans hbuilt.vec_gen⟩, rfl, hid⟩

theorem kept_var_gen (hbuilt : BuiltFor vcon cs vecs g) {var_gen_ : VariableGenerator}
    {result : Bool} (h : g.var_gen_.solve env w = .ok (result, var_gen_, w')) :
    Kept vcon cs vecs g { g with var_gen_ := var_gen_ } w w' := by
  rcases bind_eq_ok.mp h with ⟨⟨r, solvers', w₁⟩, hsolve, h⟩
  cases h
  rcases VariableGenerator.solveFrom_spec hbuilt.var_gen hsolve with ⟨hsolvers, -, -, -, hid⟩
  exact ⟨⟨hbuilt.partitions, hbuilt.merged, hbuilt.vectors, hsolvers, hbuilt.var_cov_gen,
    hbuilt.vec_gen⟩, rfl, hid⟩

theorem kept_var_cov_gen (hbuilt : BuiltFor vcon cs vecs g)
    (hps : Separated vcon g.constr_pttn_.partitions_) {var_cov_gen_ : VariableCoverageGenerator}
    {result : Bool} (h : g.var_cov_gen_.solve env w = .ok (result, var_cov_gen_, w')) :
    Kept vcon cs vecs g { g with var_cov_gen_ := var_cov_gen_ } w w' := by
  rcases bind_eq_ok.mp h with ⟨⟨r, solvers', w₁⟩, hsolve, h⟩
  cases h
  rcases VariableCoverageGenerator.built_solveFrom hps hbuilt.var_cov_gen hsolve with
    ⟨hsolvers, hid⟩
  exact ⟨⟨hbuilt.partitions, hbuilt.merged, hbuilt.vectors, hbuilt.var_gen, hsolvers,
    hbuilt.vec_gen⟩, rfl, hid⟩

theorem kept_solve (hbuilt : BuiltFor vcon cs vecs g) {result : Except String Bool}
    (h : solve env g w = (result, g', w')) : Kept vcon cs vecs g g' w w' := by
  unfold solve at h
  split at h
  · cases h
    exact Kept.refl hbuilt w
  · rename_i var_gen_ w₁ hsolve
    cases h
    exact kept_var_gen hbuilt hsolve
  · rename_i var_gen_ w₁ hsolve
    have hkept := kept_var_gen hbuilt hsolve
    exact hkept.trans (kept_solveVectors hkept.built h)

theorem kept_solveCoverage (hbuilt : BuiltFor vcon cs vecs g)
    (hps : Separated vcon g.constr_pttn_.partitions_) {result : Except String Bool}
    (h : solveCoverage env g w = (result, g', w')) : Kept vcon cs vecs g g' w w' := by
  unfold solveCoverage at h
  split at h
  · cases h
    exact Kept.refl hbuilt w
  · rename_i var_cov_gen_ w₁ hsolve
    cases h
    exact kept_var_cov_gen hbuilt hps hsolve
  · rename_i var_cov_gen_ w₁ hsolve
    have hkept := kept_var_cov_gen hbuilt hps hsolve
    exact hkept.trans (kept_solveVectors hkept.built h)

end Solve

end Generator
end Backend
end Crave
