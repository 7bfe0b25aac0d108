import Crave.Backend.Buildable
import Crave.Backend.GeneratorRuns

/-!
# Generators after any operations

An operation may throw, and what a rebuild has left then is what the later calls use.
The solvers may be those of some partitions only, or those of constraints that another
generator has merged. The module says what holds of a generator all the same, and for
what the solvers of its next call are.
-/

namespace Crave
namespace Backend

open Foundation Ir

theorem map_of_built {solver : Type} {R : ConstraintPartition -> solver -> Prop}
    {constr_pttn_ : solver -> ConstraintPartition} (hR : forall p vs, R p vs -> constr_pttn_ vs = p)
    {ps : List ConstraintPartition} {solvers_ : List solver} (h : List.Forall₂ R ps solvers_) :
    solvers_.map constr_pttn_ = ps := by
  induction h with
  | nil => rfl
  | cons hhead _ ih => rw [List.map_cons, ih, hR _ _ hhead]

namespace VariableGenerator

variable {env : Environment} {vcon : VariableContainer} {ps : List ConstraintPartition}
  {solvers_ : List VariableDefaultSolver}

/-- The partitions that the solvers were built for. -/
def partitionsOf (solvers_ : List VariableDefaultSolver) : List ConstraintPartition :=
  solvers_.map fun vs => vs.constr_pttn_

theorem partitionsOf_built (hbuilt : List.Forall₂ (VariableDefaultSolver.Built vcon) ps solvers_) :
    partitionsOf solvers_ = ps :=
  map_of_built (fun _ _ h => h.constr_pttn) hbuilt

theorem forall_createSolvers {P : VariableDefaultSolver -> Prop}
    (hnew : forall p, p ∈ ps -> forall vs time time',
      VariableDefaultSolver.new env vcon p time = .ok (vs, time') -> P vs)
    {time time' : Nat} {outcome : Except String Unit}
    (h : createSolvers env vcon ps time = (solvers_, time', outcome)) :
    forall vs, vs ∈ solvers_ -> P vs := by
  induction ps generalizing time solvers_ with
  | nil =>
      cases h
      intro vs hvs
      cases hvs
  | cons p rest ih =>
      simp only [createSolvers] at h
      split at h
      · cases h
        intro vs hvs
        cases hvs
      · next vs₁ time₁ hfirst =>
          cases hrest : createSolvers env vcon rest time₁ with
          | mk rest' q =>
              rw [hrest] at h
              cases h
              intro vs hvs
              cases List.mem_cons.mp hvs with
              | inl hhead =>
                  rw [hhead]
                  exact hnew p List.mem_cons_self _ _ _ hfirst
              | inr htail =>
                  exact ih (fun q hq => hnew q (List.mem_cons_of_mem p hq)) hrest vs htail

end VariableGenerator

namespace VariableCoverageGenerator

def partitionsOf (solvers_ : List VariableCoverageSolver) : List ConstraintPartition :=
  solvers_.map fun vs => vs.constr_pttn_

theorem partitionsOf_built {vcon : VariableContainer} {ps : List ConstraintPartition}
    {solvers_ : List VariableCoverageSolver}
    (hbuilt : List.Forall₂ (VariableCoverageSolver.Built vcon) ps solvers_) :
    partitionsOf solvers_ = ps :=
  map_of_built (fun _ _ h => h.constr_pttn) hbuilt

end VariableCoverageGenerator

/-- What solvers are for: partitions, partitions for coverage with the names that are
covered, and vectors. -/
structure Scope where
  partitions : List ConstraintPartition
  goals : List (ConstraintPartition × Finset String)
  vectors : List (Nat × VectorSolver)

def Scope.support (scope : Scope) : Set Nat :=
  supportOf (scope.partitions ++ scope.goals.map Prod.fst)

/-- New solvers for given constraints. -/
def Scope.ofConstraints (cs vecs : List UserConstraint) : Scope :=
  { partitions := ConstraintPartitioner.partition cs
    goals := (ConstraintPartitioner.partition cs).map fun p => (p, ∅)
    vectors := (VectorGenerator.reset vecs).vector_solvers_ }

theorem Scope.map_fst_ofConstraints (cs vecs : List UserConstraint) :
    (Scope.ofConstraints cs vecs).goals.map Prod.fst = ConstraintPartitioner.partition cs := by
  rw [Scope.ofConstraints, List.map_map]
  exact List.map_id'' (fun _ => rfl) _

section Scope

variable {vcon : VariableContainer} {scope : Scope}

theorem Scope.partitions_subset (scope : Scope) : supportOf scope.partitions ⊆ scope.support :=
  supportOf_subset fun _ hp => List.mem_append_left _ hp

theorem Scope.goals_subset (scope : Scope) :
    supportOf (scope.goals.map Prod.fst) ⊆ scope.support :=
  supportOf_subset fun _ hp => List.mem_append_right _ hp

end Scope

namespace Generator

open VectorGenerator (contents)

/-- The solvers that are there. -/
def built (g : Generator) : Scope :=
  { partitions := VariableGenerator.partitionsOf g.var_gen_.solvers_
    goals := g.var_cov_gen_.solvers_.map fun vs => (vs.constr_pttn_, vs.covered_set_)
    vectors := g.vec_gen_.vector_solvers_ }

/-- The solvers of the next call, which are new ones when the constraints have changed. -/
def scope (g : Generator) : Scope :=
  if g.isChanged then
    .ofConstraints (scalarConstraints g.constr_mng_) (vectorConstraints g.constr_mng_)
  else
    g.built

/-- Solvers that can be called: those of partitions without a common variable. -/
structure Ready (vcon : VariableContainer) (g : Generator) : Prop where
  separated : Separated vcon g.built.partitions
  declared : forall p, p ∈ g.built.partitions -> forall id, id ∈ p.support_vars_ ->
    (vcon.variables_ id).isSome = true
  var_gen : List.Forall₂ (VariableDefaultSolver.Built vcon) g.built.partitions
    g.var_gen_.solvers_
  covers : Separated vcon (VariableCoverageGenerator.partitionsOf g.var_cov_gen_.solvers_)
  var_cov_gen : List.Forall₂ (VariableCoverageSolver.Built vcon)
    (VariableCoverageGenerator.partitionsOf g.var_cov_gen_.solvers_) g.var_cov_gen_.solvers_
  vec_gen : exists vecs, contents g.vec_gen_.vector_solvers_ =
    contents (VectorGenerator.reset vecs).vector_solvers_

/-- What holds between two operations, also after one that threw. -/
structure Standing (vcon : VariableContainer) (g : Generator) (w : World) : Prop where
  owned : Owned vcon g.constr_mng_ w
  separated : Separated vcon g.constr_pttn_.partitions_
  ready : Ready vcon g

/-- Constraints have the identifiers of before or identifiers that were not given out. -/
structure Numbering (g g' : Generator) (w w' : World) : Prop where
  le : w.constraint_ID ≤ w'.constraint_ID
  ids : forall c, c ∈ g'.constr_mng_.constraints_ ->
    w.constraint_ID < c.id_ ∨ exists d, d ∈ g.constr_mng_.constraints_ ∧ d.id_ = c.id_

/-- The hard ones of these constraints belong to these partitions. -/
def HardsIn (cs : List UserConstraint) (ps : List ConstraintPartition) : Prop :=
  forall c, c ∈ cs -> c.isHard = true -> exists p, p ∈ ps ∧ c ∈ p.constraints_

instance (cs : List UserConstraint) (ps : List ConstraintPartition) :
    Decidable (HardsIn cs ps) := by
  unfold HardsIn
  infer_instance

section Used

variable {env : Environment} {vcon : VariableContainer} {cs vecs : List UserConstraint}
  {g g₁ g' : Generator} {w w₁ w' : World}

theorem hardsIn_partition (hmade : WellMade vcon cs) :
    HardsIn cs (ConstraintPartitioner.partition cs) := by
  intro c hc _
  have hparts := ConstraintPartitioner.partition_isPartition cs hmade.ids
  rcases (hparts.components.mem_iff c).mp hc with ⟨q, hq, hmem⟩
  rcases List.mem_map.mp hq with ⟨p, hp, rfl⟩
  exact ⟨p, hp, hmem⟩

theorem map_fst_goals (g : Generator) : g.built.goals.map Prod.fst =
    VariableCoverageGenerator.partitionsOf g.var_cov_gen_.solvers_ := by
  rw [built, List.map_map]
  rfl

theorem separated_nil (vcon : VariableContainer) : Separated vcon [] := by
  constructor
  · exact List.Pairwise.nil
  · intro p hp
    cases hp
  · intro p hp
    cases hp

theorem Numbering.refl (g : Generator) (w : World) : Numbering g g w w :=
  ⟨Nat.le_refl _, fun c hc => Or.inr ⟨c, hc, rfl⟩⟩

theorem Numbering.of_same (hmng : g'.constr_mng_.constraints_ = g.constr_mng_.constraints_)
    (hle : w.constraint_ID ≤ w'.constraint_ID) : Numbering g g' w w' := by
  constructor
  · exact hle
  · intro c hc
    rw [hmng] at hc
    exact Or.inr ⟨c, hc, rfl⟩

theorem Numbering.trans (h : Numbering g g₁ w w₁) (h' : Numbering g₁ g' w₁ w') :
    Numbering g g' w w' := by
  constructor
  · exact Nat.le_trans h.le h'.le
  · intro c hc
    cases h'.ids c hc with
    | inl hlt => exact Or.inl (Nat.lt_of_le_of_lt h.le hlt)
    | inr hold =>
        rcases hold with ⟨d, hd, hid⟩
        rw [← hid]
        exact h.ids d hd

theorem Standing.mono (h : Standing vcon g w) (hle : w.constraint_ID ≤ w'.constraint_ID) :
    Standing vcon g w' :=
  ⟨h.owned.mono hle, h.separated, h.ready⟩

theorem Ready.congr (h : Ready vcon g) (hvar_gen : g'.var_gen_ = g.var_gen_)
    (hvar_cov_gen : g'.var_cov_gen_ = g.var_cov_gen_) (hvec_gen : g'.vec_gen_ = g.vec_gen_) :
    Ready vcon g' := by
  have hbuilt : g'.built = g.built := by
    rw [built, built, hvar_gen, hvar_cov_gen, hvec_gen]
  constructor
  · rw [hbuilt]
    exact h.separated
  · rw [hbuilt]
    exact h.declared
  · rw [hbuilt, hvar_gen]
    exact h.var_gen
  · rw [hvar_cov_gen]
    exact h.covers
  · rw [hvar_cov_gen]
    exact h.var_cov_gen
  · rw [hvec_gen]
    exact h.vec_gen

theorem Standing.setManager (h : Standing vcon g w) {mng : ConstraintManager}
    (howned : Owned vcon mng w') : Standing vcon { g with constr_mng_ := mng } w' :=
  ⟨howned, h.separated, h.ready.congr rfl rfl rfl⟩

theorem Standing.setCovered (h : Standing vcon g w) (covered : Bool) :
    Standing vcon { g with covered_ := covered } w :=
  ⟨h.owned, h.separated, h.ready.congr rfl rfl rfl⟩

theorem Ready.setVarGen (h : Ready vcon g) {ps : List ConstraintPartition}
    {solvers_ : List VariableDefaultSolver} (hps : Separated vcon ps)
    (hdeclared : forall p, p ∈ ps -> forall id, id ∈ p.support_vars_ ->
      (vcon.variables_ id).isSome = true)
    (hsolvers : List.Forall₂ (VariableDefaultSolver.Built vcon) ps solvers_) :
    Ready vcon { g with var_gen_ := { solvers_ := solvers_ } } := by
  have hsame : VariableGenerator.partitionsOf solvers_ = ps :=
    VariableGenerator.partitionsOf_built hsolvers
  constructor
  · show Separated vcon (VariableGenerator.partitionsOf solvers_)
    rw [hsame]
    exact hps
  · show forall p, p ∈ VariableGenerator.partitionsOf solvers_ -> _
    rw [hsame]
    exact hdeclared
  · show List.Forall₂ _ (VariableGenerator.partitionsOf solvers_) solvers_
    rw [hsame]
    exact hsolvers
  · exact h.covers
  · exact h.var_cov_gen
  · exact h.vec_gen

theorem Ready.setCoverage (h : Ready vcon g) {ps : List ConstraintPartition}
    {solvers_ : List VariableCoverageSolver} (hps : Separated vcon ps)
    (hsolvers : List.Forall₂ (VariableCoverageSolver.Built vcon) ps solvers_) :
    Ready vcon { g with var_cov_gen_ := { solvers_ := solvers_ } } := by
  have hsame : VariableCoverageGenerator.partitionsOf solvers_ = ps :=
    VariableCoverageGenerator.partitionsOf_built hsolvers
  constructor
  · exact h.separated
  · exact h.declared
  · exact h.var_gen
  · show Separated vcon (VariableCoverageGenerator.partitionsOf solvers_)
    rw [hsame]
    exact hps
  · show List.Forall₂ _ (VariableCoverageGenerator.partitionsOf solvers_) solvers_
    rw [hsame]
    exact hsolvers
  · exact h.vec_gen

theorem Ready.setVectors (h : Ready vcon g) {vec_gen_ : VectorGenerator}
    (hvec_gen : exists vecs, contents vec_gen_.vector_solvers_ =
      contents (VectorGenerator.reset vecs).vector_solvers_) :
    Ready vcon { g with vec_gen_ := vec_gen_ } :=
  ⟨h.separated, h.declared, h.var_gen, h.covers, h.var_cov_gen, hvec_gen⟩

theorem ready_new (vcon : VariableContainer) : Ready vcon Generator.new := by
  constructor
  · exact separated_nil vcon
  · intro p hp
    cases hp
  · exact List.Forall₂.nil
  · exact separated_nil vcon
  · exact List.Forall₂.nil
  · exact ⟨[], rfl⟩

theorem standing_new (w : World) : Standing vcon Generator.new w :=
  ⟨(Invariant.new w).owned, separated_nil vcon, ready_new vcon⟩

theorem Standing.noVarGen (h : Standing vcon g w) :
    Standing vcon { g with var_gen_ := VariableGenerator.new } w := by
  refine ⟨h.owned, h.separated, h.ready.setVarGen (separated_nil vcon) ?_ List.Forall₂.nil⟩
  intro p hp
  cases hp

theorem Standing.setVectors (h : Standing vcon g w) {vec_gen_ : VectorGenerator}
    (hcontents : contents vec_gen_.vector_solvers_ = contents g.vec_gen_.vector_solvers_) :
    Standing vcon { g with vec_gen_ := vec_gen_ } w := by
  rcases h.ready.vec_gen with ⟨vecs, hvecs⟩
  exact ⟨h.owned, h.separated, h.ready.setVectors ⟨vecs, hcontents.trans hvecs⟩⟩

/-!
## Building
-/

/-- What building leaves, whether it ends normally or not. -/
structure Rebuilt (env : Environment) (vcon : VariableContainer) (cs vecs : List UserConstraint)
    (g g' : Generator) (w w' : World) (result : Except String Unit) : Prop where
  ready : Ready vcon g'
  partitions : g'.constr_pttn_.partitions_ = ConstraintPartitioner.partition cs
  constr_mng : g'.constr_mng_ = g.constr_mng_
  covered : g'.covered_ = g.covered_
  world : w' = { w with time := w'.time }
  goals : forall q, q ∈ g'.built.goals -> q.1 ∈ ConstraintPartitioner.partition cs ∧ q.2 = ∅
  upTo : UpTo env vcon (ConstraintPartitioner.partition cs) g'.built.partitions
  outcome : (g'.built.partitions = ConstraintPartitioner.partition cs ∧
      g'.vec_gen_ = VectorGenerator.reset vecs ∧
      UpTo env vcon (ConstraintPartitioner.partition cs)
        (VariableCoverageGenerator.partitionsOf g'.var_cov_gen_.solvers_)) ∨
    (unbuilt env vcon (ConstraintPartitioner.partition cs) ≠ [] ∧ g'.vec_gen_ = g.vec_gen_ ∧
      g'.var_cov_gen_.solvers_ = [])
  scope : result = .ok () -> g'.built = Scope.ofConstraints cs vecs

theorem declared_createSolvers {ps : List ConstraintPartition} (hps : Separated vcon ps)
    {time time' : Nat} {solvers_ : List VariableDefaultSolver} {outcome : Except String Unit}
    (h : VariableGenerator.createSolvers env vcon ps time = (solvers_, time', outcome)) :
    forall p, p ∈ VariableGenerator.partitionsOf solvers_ -> forall id, id ∈ p.support_vars_ ->
      (vcon.variables_ id).isSome = true := by
  intro p hp
  rcases List.mem_map.mp hp with ⟨vs, hvs, rfl⟩
  refine VariableGenerator.forall_createSolvers (P := fun vs => forall id,
    id ∈ vs.constr_pttn_.support_vars_ -> (vcon.variables_ id).isSome = true) ?_ h vs hvs
  intro p hp vs time time' hnew
  have hbuilt := VariableDefaultSolver.built_new (hps.made p hp) (hps.support p hp) hnew
  rw [hbuilt.constr_pttn]
  exact (VariableDefaultSolver.new_cases (hps.made p hp) hnew).left

theorem goals_of_built {ps : List ConstraintPartition} {covs : List VariableCoverageSolver}
    (hbuilt : List.Forall₂ (VariableCoverageSolver.Built vcon) ps covs)
    (hempty : forall vs, vs ∈ covs -> vs.covered_set_ = ∅) :
    (covs.map fun vs => (vs.constr_pttn_, vs.covered_set_)) = ps.map fun p => (p, ∅) := by
  induction hbuilt with
  | nil => rfl
  | cons hhead _ ih =>
      rw [List.map_cons, List.map_cons, ih fun vs hvs => hempty vs (List.mem_cons_of_mem _ hvs),
        hhead.constr_pttn, hempty _ List.mem_cons_self]

theorem rebuilt_rebuild {selfInclude : Bool} (hready : Ready vcon g)
    (hnone : g.var_cov_gen_.solvers_ = []) (hfresh : g.constr_pttn_.partitions_ = [])
    (hmerged : (if selfInclude then g.merge g else g).constr_pttn_.constraints_ = cs)
    (hvectors : (if selfInclude then g.merge g else g).constr_pttn_.vec_constraints_ = vecs)
    (hmade : WellMade vcon cs) {result : Except String Unit}
    (h : rebuild env vcon selfInclude g w = (result, g', w')) :
    Rebuilt env vcon cs vecs g g' w w' result := by
  have hparts := ConstraintPartitioner.partition_isPartition cs hmade.ids
  have hps := hmade.separated
  have hmerge : exists constr_pttn_, (if selfInclude then g.merge g else g) =
      { g with constr_pttn_ := constr_pttn_ } ∧ constr_pttn_.partitions_ = [] := by
    cases selfInclude with
    | true => exact ⟨_, rfl, hfresh⟩
    | false => exact ⟨_, rfl, hfresh⟩
  rcases hmerge with ⟨constr_pttn_, hsame, hpartitions⟩
  rw [hsame] at hmerged hvectors
  unfold rebuild at h
  rw [hsame] at h
  have hrun : constr_pttn_.run.partitions_ = ConstraintPartitioner.partition cs := by
    rw [ConstraintPartitioner.run, hpartitions, ← hmerged]
    rfl
  have hvecs : constr_pttn_.run.vec_constraints_ = vecs := hvectors
  simp only [VariableGenerator.reset, hrun, hvecs] at h
  cases hcreate : VariableGenerator.createSolvers env vcon (ConstraintPartitioner.partition cs)
      w.time with
  | mk solvers_ q =>
      cases q with
      | mk time outcome =>
          rw [hcreate] at h
          rcases upTo_createSolvers hps (fun p hp => filed_of_isPartition hparts hp) hcreate with
            ⟨ps, hupTo, hbuilt, hcases⟩
          have hdeclared := declared_createSolvers hps hcreate
          have hpartsOf := VariableGenerator.partitionsOf_built hbuilt
          rw [hpartsOf] at hdeclared
          have hready₁ := hready.setVarGen (hps.upTo hupTo) hdeclared hbuilt
          cases outcome with
          | error e =>
              cases h
              constructor
              · exact hready₁.congr rfl rfl rfl
              · exact hrun
              · rfl
              · rfl
              · rfl
              · intro q hq
                have hq' : q ∈ g.built.goals := hq
                rw [built, hnone] at hq'
                cases hq'
              · show UpTo env vcon _ (VariableGenerator.partitionsOf solvers_)
                rw [hpartsOf]
                exact hupTo
              · cases hcases with
                | inl hok => cases hok.left
                | inr herror => exact Or.inr ⟨herror.right, rfl, hnone⟩
              · intro hresult
                cases hresult
          | ok u =>
              cases hcov : VariableCoverageGenerator.createSolvers env vcon
                  (ConstraintPartitioner.partition cs) with
              | mk covs outcome =>
                  rcases upTo_createCoverageSolvers hps hcov with
                    ⟨qs, hupTo', hbuiltCov, hempty, hall⟩
                  simp only [VariableCoverageGenerator.reset, hcov] at h
                  cases h
                  have hready₂ := (hready₁.setVectors ⟨vecs, rfl⟩).setCoverage
                    (hps.upTo hupTo') hbuiltCov
                  have hgoals := goals_of_built hbuiltCov hempty
                  have hps' : ps = ConstraintPartitioner.partition cs := by
                    rcases hcases with ⟨_, heq⟩ | ⟨⟨e, he⟩, _⟩
                    · exact heq
                    · cases he
                  rw [hps'] at hpartsOf hupTo
                  constructor
                  · exact hready₂.congr rfl rfl rfl
                  · exact hrun
                  · rfl
                  · rfl
                  · rfl
                  · intro q hq
                    have hq' : q ∈ covs.map fun vs => (vs.constr_pttn_, vs.covered_set_) := hq
                    rw [hgoals] at hq'
                    rcases List.mem_map.mp hq' with ⟨p, hp, rfl⟩
                    exact ⟨hupTo'.subset hp, rfl⟩
                  · show UpTo env vcon _ (VariableGenerator.partitionsOf solvers_)
                    rw [hpartsOf]
                    exact hupTo
                  · refine Or.inl ⟨hpartsOf, rfl, ?_⟩
                    show UpTo env vcon _ (VariableCoverageGenerator.partitionsOf covs)
                    rw [VariableCoverageGenerator.partitionsOf_built hbuiltCov]
                    exact hupTo'
                  · intro hresult
                    show Scope.mk (VariableGenerator.partitionsOf solvers_)
                      (covs.map fun vs => (vs.constr_pttn_, vs.covered_set_))
                      (VectorGenerator.reset vecs).vector_solvers_ = _
                    rw [hpartsOf, hgoals, hall hresult]
                    rfl

theorem rebuilt_self (h : Standing vcon g w) {result : Except String Unit}
    (hrebuild : rebuild env vcon true (reset env vcon g) w = (result, g', w')) :
    Rebuilt env vcon (scalarConstraints g.constr_mng_) (vectorConstraints g.constr_mng_)
      (reset env vcon g) g' w w' result := by
  have hready : Ready vcon (reset env vcon g) := by
    refine (h.ready.setCoverage (separated_nil vcon) List.Forall₂.nil).congr rfl rfl rfl
  exact rebuilt_rebuild hready (by rfl) (by rfl) (by rfl) (by rfl) h.owned.scalars hrebuild

theorem Rebuilt.standing {result : Except String Unit}
    (h : Rebuilt env vcon cs vecs g g' w w' result) (howned : Owned vcon g.constr_mng_ w)
    (hmade : WellMade vcon cs) : Standing vcon g' w' := by
  constructor
  · rw [h.constr_mng, h.world]
    exact howned.mono (Nat.le_refl _)
  · rw [h.partitions]
    exact hmade.separated
  · exact h.ready

/-!
## Solving
-/

/-- What solving leaves, whether it ends normally or not. -/
structure Solved (vcon : VariableContainer) (g g' : Generator) (w w' : World) : Prop where
  ready : Ready vcon g'
  partitions : g'.built.partitions = g.built.partitions
  covers : VariableCoverageGenerator.partitionsOf g'.var_cov_gen_.solvers_ =
    VariableCoverageGenerator.partitionsOf g.var_cov_gen_.solvers_
  contents : contents g'.vec_gen_.vector_solvers_ = contents g.vec_gen_.vector_solvers_
  constr_mng : g'.constr_mng_ = g.constr_mng_
  constr_pttn : g'.constr_pttn_ = g.constr_pttn_
  covered : g'.covered_ = g.covered_
  constraint_ID : w'.constraint_ID = w.constraint_ID

theorem Solved.refl (h : Ready vcon g) (w : World) : Solved vcon g g w w :=
  ⟨h, rfl, rfl, rfl, rfl, rfl, rfl, rfl⟩

theorem Solved.trans (h : Solved vcon g g₁ w w₁) (h' : Solved vcon g₁ g' w₁ w') :
    Solved vcon g g' w w' :=
  ⟨h'.ready, h'.partitions.trans h.partitions, h'.covers.trans h.covers,
    h'.contents.trans h.contents, h'.constr_mng.trans h.constr_mng,
    h'.constr_pttn.trans h.constr_pttn, h'.covered.trans h.covered,
    h'.constraint_ID.trans h.constraint_ID⟩

theorem Solved.standing (h : Solved vcon g g' w w') (hg : Standing vcon g w) :
    Standing vcon g' w' := by
  constructor
  · rw [h.constr_mng]
    exact hg.owned.mono (Nat.le_of_eq h.constraint_ID.symm)
  · rw [h.constr_pttn]
    exact hg.separated
  · exact h.ready

theorem solved_solveVectors (h : Ready vcon g) {var_gen : List VariableSolver}
    {result : Except String Bool} (hsolve : solveVectors env var_gen g w = (result, g', w')) :
    Solved vcon g g' w w' := by
  unfold solveVectors at hsolve
  split at hsolve
  · cases hsolve
    exact Solved.refl h w
  · next hvectors =>
      cases hsolve
      rcases VectorGenerator.solve_frame hvectors with ⟨hcontents, _, hid⟩
      rcases h.vec_gen with ⟨vecs, hvecs⟩
      exact ⟨h.setVectors ⟨vecs, hcontents.trans hvecs⟩, rfl, rfl, hcontents, rfl, rfl, rfl, hid⟩

theorem solved_var_gen (h : Ready vcon g) {var_gen_ : VariableGenerator} {result : Bool}
    (hsolve : g.var_gen_.solve env w = .ok (result, var_gen_, w')) :
    Solved vcon g { g with var_gen_ := var_gen_ } w w' := by
  rcases bind_eq_ok.mp hsolve with ⟨⟨r, solvers', w₁⟩, hfrom, hsolve⟩
  cases hsolve
  rcases VariableGenerator.solveFrom_spec h.var_gen hfrom with ⟨hsolvers, _, _, _, hid⟩
  exact ⟨h.setVarGen h.separated h.declared hsolvers,
    VariableGenerator.partitionsOf_built hsolvers, rfl, rfl, rfl, rfl, rfl, hid⟩

theorem solved_var_cov_gen (h : Ready vcon g) {var_cov_gen_ : VariableCoverageGenerator}
    {result : Bool} (hsolve : g.var_cov_gen_.solve env w = .ok (result, var_cov_gen_, w')) :
    Solved vcon g { g with var_cov_gen_ := var_cov_gen_ } w w' := by
  rcases bind_eq_ok.mp hsolve with ⟨⟨r, solvers', w₁⟩, hfrom, hsolve⟩
  cases hsolve
  rcases VariableCoverageGenerator.built_solveFrom h.covers h.var_cov_gen hfrom with
    ⟨hsolvers, hid⟩
  exact ⟨h.setCoverage h.covers hsolvers, rfl,
    VariableCoverageGenerator.partitionsOf_built hsolvers, rfl, rfl, rfl, rfl, hid⟩

theorem solved_solve (h : Ready vcon g) {result : Except String Bool}
    (hsolve : solve env g w = (result, g', w')) : Solved vcon g g' w w' := by
  unfold solve at hsolve
  split at hsolve
  · cases hsolve
    exact Solved.refl h w
  · next hvariables =>
      cases hsolve
      exact solved_var_gen h hvariables
  · next hvariables =>
      have hsolved := solved_var_gen h hvariables
      exact hsolved.trans (solved_solveVectors hsolved.ready hsolve)

theorem solved_solveCoverage (h : Ready vcon g) {result : Except String Bool}
    (hsolve : solveCoverage env g w = (result, g', w')) : Solved vcon g g' w w' := by
  unfold solveCoverage at hsolve
  split at hsolve
  · cases hsolve
    exact Solved.refl h w
  · next hvariables =>
      cases hsolve
      exact solved_var_cov_gen h hvariables
  · next hvariables =>
      have hsolved := solved_var_cov_gen h hvariables
      exact hsolved.trans (solved_solveVectors hsolved.ready hsolve)

theorem standing_resetCoverage (h : Standing vcon g w) {result : Except String Unit}
    (hreset : resetCoverage env vcon g = (result, g')) :
    Standing vcon g' w ∧ g'.constr_mng_ = g.constr_mng_ := by
  cases hcov : VariableCoverageGenerator.createSolvers env vcon g.constr_pttn_.partitions_ with
  | mk covs outcome =>
      simp only [resetCoverage, VariableCoverageGenerator.reset, hcov] at hreset
      cases hreset
      rcases upTo_createCoverageSolvers h.separated hcov with ⟨qs, hqs, hbuilt, _, _⟩
      have hready := h.ready.setCoverage (h.separated.upTo hqs) hbuilt
      exact ⟨⟨h.owned, h.separated, hready.congr rfl rfl rfl⟩, rfl⟩

/-!
## Operations
-/

theorem exists_outcome {x : Outcome Unit} {result : Except String Bool}
    (h : toBool x = (result, g', w')) : exists outcome, x = (outcome, g', w') := by
  rcases x with ⟨outcome, g₁, w₁⟩
  exists outcome
  cases outcome with
  | error what =>
      cases h
      rfl
  | ok u =>
      cases h
      rfl

end Used

/-- What every part of an operation keeps, whether it ends normally or throws. -/
structure Stable (env : Environment) (vcon : VariableContainer)
    (P : Generator -> World -> Prop) : Prop where
  owned : forall {g w}, P g w -> Owned vcon g.constr_mng_ w
  mono : forall {g w w'}, P g w -> w.constraint_ID ≤ w'.constraint_ID -> P g w'
  setManager : forall {g w w' mng}, P g w -> Owned vcon mng w' ->
    Numbering g { g with constr_mng_ := mng } w w' -> mng.changed_ = true ->
      P { g with constr_mng_ := mng } w'
  setCovered : forall {g w}, P g w -> forall covered, P { g with covered_ := covered } w
  noVarGen : forall {g w}, P g w -> P { g with var_gen_ := VariableGenerator.new } w
  rebuild : forall {g g' w w' result}, P g w ->
    rebuild env vcon true (reset env vcon g) w = (result, g', w') -> P g' w'
  resetCoverage : forall {g g' w result}, P g w -> resetCoverage env vcon g = (result, g') -> P g' w
  solve : forall {g g' w w' result}, P g w -> solve env g w = (result, g', w') -> P g' w'
  solveCoverage : forall {g g' w w' result}, P g w ->
    solveCoverage env g w = (result, g', w') -> P g' w'

namespace Stable

variable {env : Environment} {vcon : VariableContainer} {P : Generator -> World -> Prop}
  {g g' : Generator} {w w' : World}

theorem update (hP : Stable env vcon P) (h : P g w) {result : Except String Unit}
    (hupdate : update env vcon g w = (result, g', w')) : P g' w' := by
  unfold Generator.update at hupdate
  split at hupdate
  · exact hP.rebuild h hupdate
  · cases hupdate
    exact h

theorem next (hP : Stable env vcon P) (h : P g w) {result : Except String Bool}
    (hnext : next env vcon g w = (result, g', w')) : P g' w' := by
  unfold Generator.next at hnext
  split at hnext
  · next hupdate =>
      cases hnext
      exact hP.update h hupdate
  · next hupdate => exact hP.solve (hP.update h hupdate) hnext

theorem nextCov (hP : Stable env vcon P) (h : P g w) {result : Except String Bool}
    (hnext : nextCov env vcon g w = (result, g', w')) : P g' w' := by
  unfold Generator.nextCov at hnext
  split at hnext
  · next hupdate =>
      cases hnext
      exact hP.update h hupdate
  · next hupdate =>
      have hupdated := hP.update h hupdate
      split at hnext
      · exact hP.next hupdated hnext
      · split at hnext
        · next hsolve =>
            cases hnext
            exact hP.solveCoverage hupdated hsolve
        · next hsolve =>
            cases hnext
            exact hP.solveCoverage hupdated hsolve
        · next hsolve => exact hP.next (hP.setCovered (hP.solveCoverage hupdated hsolve) true) hnext

theorem setEnabled (hP : Stable env vcon P) (h : P g w) {mng' : ConstraintManager}
    {enabled : Bool}
    (hcases : mng' = g.constr_mng_ ∨ exists i c, g.constr_mng_.constraints_[i]? = some c ∧
      mng' = g.constr_mng_.setEnabled i c enabled) : P { g with constr_mng_ := mng' } w := by
  rcases hcases with rfl | ⟨i, c, hc, rfl⟩
  · exact h
  · refine hP.setManager h ((hP.owned h).setEnabled hc enabled) ?_ rfl
    constructor
    · exact Nat.le_refl _
    · intro d hd
      apply Or.inr
      cases List.mem_or_eq_of_mem_set hd with
      | inl hold => exact ⟨d, hold, rfl⟩
      | inr hnew =>
          rw [hnew]
          exact ⟨c, List.mem_of_getElem? hc, rfl⟩

theorem makeConstraint (hP : Stable env vcon P) (h : P g w) {name : Option String} {e : Node}
    {soft cover : Bool} (he : e.DeclaredIn vcon.variables_) {result : Except String Unit}
    (hmake : makeConstraint g name e soft cover w = (result, g', w')) : P g' w' := by
  cases result with
  | error what =>
      rcases makeConstraint_error hmake with ⟨rfl, rfl⟩
      exact hP.mono h (Nat.le_succ _)
  | ok u =>
      rcases makeConstraint_ok hmake with ⟨mng', hmng, rfl, rfl⟩
      have howned : Owned vcon mng' { w with constraint_ID := w.constraint_ID + 1 } :=
        (hP.owned h).makeConstraint he.fixWidth hmng (Nat.le_refl _)
      rcases ConstraintManager.makeConstraint_spec hmng with ⟨_, c, rfl, hid, _⟩
      refine hP.setManager h howned ?_ rfl
      constructor
      · exact Nat.le_succ _
      · intro d hd
        cases List.mem_append.mp hd with
        | inl hold => exact Or.inr ⟨d, hold, rfl⟩
        | inr hnew =>
            rw [List.mem_singleton.mp hnew, hid]
            exact Or.inl (Nat.lt_succ_self _)

/-- No operation, whatever its outcome, breaks what its parts keep. -/
theorem perform (hP : Stable env vcon P) (h : P g w) {op : Operation} (hop : op.Over vcon)
    {result : Except String Bool} (hperform : perform env vcon g w op = (result, g', w')) :
    P g' w' := by
  cases op with
  | makeConstraint name e soft cover =>
      rcases exists_outcome hperform with ⟨outcome, hmake⟩
      exact hP.makeConstraint h (Context.Builds.declaredIn hop) hmake
  | enableConstraint name =>
      cases hperform
      exact hP.setEnabled h (ConstraintManager.enableConstraint_cases g.constr_mng_ name)
  | disableConstraint name =>
      cases hperform
      exact hP.setEnabled h (ConstraintManager.disableConstraint_cases g.constr_mng_ name)
  | next => exact hP.next h hperform
  | nextCov => exact hP.nextCov h hperform
  | resetCoverage =>
      rcases exists_outcome hperform with ⟨outcome, hreset⟩
      cases hreset
      exact hP.resetCoverage h rfl
  | enable_multithreading =>
      rcases exists_outcome hperform with ⟨outcome, hrebuild⟩
      exact hP.rebuild (hP.noVarGen h) hrebuild

end Stable

section Standing

variable {env : Environment} {vcon : VariableContainer} {g g' : Generator} {w w' : World}

theorem stable_standing (env : Environment) (vcon : VariableContainer) (g₀ : Generator)
    (w₀ : World) :
    Stable env vcon fun g w => Standing vcon g w ∧ Numbering g₀ g w₀ w := by
  have hsolved : forall {g g' w w'}, Standing vcon g w ∧ Numbering g₀ g w₀ w ->
      Solved vcon g g' w w' -> Standing vcon g' w' ∧ Numbering g₀ g' w₀ w' := by
    intro g g' w w' h hsolved
    refine ⟨hsolved.standing h.left, h.right.trans (Numbering.of_same ?_ ?_)⟩
    · rw [hsolved.constr_mng]
    · exact Nat.le_of_eq hsolved.constraint_ID.symm
  constructor
  · intro g w h
    exact h.left.owned
  · intro g w w' h hle
    exact ⟨h.left.mono hle, h.right.trans (Numbering.of_same rfl hle)⟩
  · intro g w w' mng h howned hnumbering _
    exact ⟨h.left.setManager howned, h.right.trans hnumbering⟩
  · intro g w h covered
    exact ⟨h.left.setCovered covered, h.right.trans (Numbering.of_same rfl (Nat.le_refl _))⟩
  · intro g w h
    exact ⟨h.left.noVarGen, h.right.trans (Numbering.of_same rfl (Nat.le_refl _))⟩
  · intro g g' w w' result h hrebuild
    have hrebuilt := rebuilt_self h.left hrebuild
    refine ⟨hrebuilt.standing h.left.owned.resetChanged h.left.owned.scalars,
      h.right.trans (Numbering.of_same ?_ ?_)⟩
    · rw [hrebuilt.constr_mng]
      rfl
    · rw [hrebuilt.world]
  · intro g g' w result h hreset
    rcases standing_resetCoverage h.left hreset with ⟨hstanding, hmng⟩
    exact ⟨hstanding, h.right.trans (Numbering.of_same (by rw [hmng]) (Nat.le_refl _))⟩
  · intro g g' w w' result h hsolve
    exact hsolved h (solved_solve h.left.ready hsolve)
  · intro g g' w w' result h hsolve
    exact hsolved h (solved_solveCoverage h.left.ready hsolve)

theorem standing_perform (h : Standing vcon g w) {op : Operation} (hop : op.Over vcon)
    {result : Except String Bool} (hperform : perform env vcon g w op = (result, g', w')) :
    Standing vcon g' w' ∧ Numbering g g' w w' :=
  (stable_standing env vcon g w).perform ⟨h, Numbering.refl g w⟩ hop hperform

theorem Reachable.standing (h : Reachable env vcon g w) : Standing vcon g w := by
  induction h with
  | new w => exact standing_new w
  | step _ h ih =>
      cases h with
      | perform op result hover h => exact (standing_perform ih hover h).left
      | rejected name e soft cover what h =>
          rcases makeConstraint_error h with ⟨rfl, rfl⟩
          exact ih.mono (Nat.le_succ _)
      | outside h => exact ih.mono h

theorem Used.standing {allowed : Operation -> Prop} (h : Used env vcon allowed g w) :
    Standing vcon g w := by
  induction h with
  | new w => exact standing_new w
  | perform _ op hover _ result h ih => exact (standing_perform ih hover h).left
  | interrupted _ vec_gen_ h ih => exact ih.setVectors h
  | outside _ h ih => exact ih.mono h

/-!
## Generators that are used alone
-/

/-- The partitions are those of the constraints of the generator, and there are no solvers for
others. -/
structure OwnPartitions (g : Generator) : Prop where
  stored : g.constr_pttn_.partitions_ =
    ConstraintPartitioner.partition (scalarConstraints g.constr_mng_)
  built : g.built.partitions ⊆ ConstraintPartitioner.partition (scalarConstraints g.constr_mng_)
  goals : g.built.goals.map Prod.fst ⊆
    ConstraintPartitioner.partition (scalarConstraints g.constr_mng_)

/-- Between two operations this is so unless the constraints have changed. -/
def UsedAlone (vcon : VariableContainer) (g : Generator) (w : World) : Prop :=
  Standing vcon g w ∧ (g.isChanged = false -> OwnPartitions g)

theorem UsedAlone.mono (h : UsedAlone vcon g w) (hle : w.constraint_ID ≤ w'.constraint_ID) :
    UsedAlone vcon g w' :=
  ⟨h.left.mono hle, h.right⟩

theorem UsedAlone.setVectors (h : UsedAlone vcon g w) {vec_gen_ : VectorGenerator}
    (hcontents : contents vec_gen_.vector_solvers_ = contents g.vec_gen_.vector_solvers_) :
    UsedAlone vcon { g with vec_gen_ := vec_gen_ } w := by
  refine ⟨h.left.setVectors hcontents, ?_⟩
  intro hunchanged
  have hown := h.right hunchanged
  exact ⟨hown.stored, hown.built, hown.goals⟩

theorem usedAlone_new (w : World) : UsedAlone vcon Generator.new w := by
  refine ⟨standing_new w, ?_⟩
  intro _
  constructor
  · change [] = ConstraintPartitioner.partition []
    rw [ConstraintPartitioner.partition]
  · exact List.nil_subset _
  · exact List.nil_subset _

theorem Solved.usedAlone (h : Solved vcon g g' w w') (hg : UsedAlone vcon g w) :
    UsedAlone vcon g' w' := by
  refine ⟨h.standing hg.left, ?_⟩
  intro hunchanged
  rw [isChanged, h.constr_mng] at hunchanged
  have hown := hg.right hunchanged
  constructor
  · rw [h.constr_pttn, h.constr_mng]
    exact hown.stored
  · rw [h.partitions, h.constr_mng]
    exact hown.built
  · rw [map_fst_goals, h.covers, ← map_fst_goals, h.constr_mng]
    exact hown.goals

theorem usedAlone_rebuild (h : Standing vcon g w) {result : Except String Unit}
    (hrebuild : rebuild env vcon true (reset env vcon g) w = (result, g', w')) :
    UsedAlone vcon g' w' := by
  have hrebuilt := rebuilt_self h hrebuild
  refine ⟨hrebuilt.standing h.owned.resetChanged h.owned.scalars, ?_⟩
  intro _
  have hsame : scalarConstraints g'.constr_mng_ = scalarConstraints g.constr_mng_ := by
    rw [hrebuilt.constr_mng]
    rfl
  constructor
  · rw [hrebuilt.partitions, hsame]
  · rw [hsame]
    exact hrebuilt.upTo.subset
  · rw [hsame]
    intro p hp
    rcases List.mem_map.mp hp with ⟨q, hq, rfl⟩
    exact (hrebuilt.goals q hq).left

theorem usedAlone_resetCoverage (h : UsedAlone vcon g w) {result : Except String Unit}
    (hreset : resetCoverage env vcon g = (result, g')) : UsedAlone vcon g' w := by
  refine ⟨(standing_resetCoverage h.left hreset).left, ?_⟩
  cases hcov : VariableCoverageGenerator.createSolvers env vcon g.constr_pttn_.partitions_ with
  | mk covs outcome =>
      simp only [resetCoverage, VariableCoverageGenerator.reset, hcov] at hreset
      cases hreset
      intro hunchanged
      have hown := h.right hunchanged
      rcases upTo_createCoverageSolvers h.left.separated hcov with ⟨qs, hqs, hbuilt, _, _⟩
      refine ⟨hown.stored, hown.built, ?_⟩
      rw [map_fst_goals]
      show VariableCoverageGenerator.partitionsOf covs ⊆ _
      rw [VariableCoverageGenerator.partitionsOf_built hbuilt, ← hown.stored]
      exact hqs.subset

theorem stable_usedAlone (env : Environment) (vcon : VariableContainer) :
    Stable env vcon (UsedAlone vcon) := by
  constructor
  · intro g w h
    exact h.left.owned
  · intro g w w' h hle
    exact h.mono hle
  · intro g w w' mng h howned _ hchanged
    refine ⟨h.left.setManager howned, ?_⟩
    intro hunchanged
    have hfalse : mng.changed_ = false := hunchanged
    rw [hchanged] at hfalse
    cases hfalse
  · intro g w h covered
    refine ⟨h.left.setCovered covered, ?_⟩
    intro hunchanged
    have hown := h.right hunchanged
    exact ⟨hown.stored, hown.built, hown.goals⟩
  · intro g w h
    refine ⟨h.left.noVarGen, ?_⟩
    intro hunchanged
    have hown := h.right hunchanged
    exact ⟨hown.stored, List.nil_subset _, hown.goals⟩
  · intro g g' w w' result h hrebuild
    exact usedAlone_rebuild h.left hrebuild
  · intro g g' w result h hreset
    exact usedAlone_resetCoverage h hreset
  · intro g g' w w' result h hsolve
    exact (solved_solve h.left.ready hsolve).usedAlone h
  · intro g g' w w' result h hsolve
    exact (solved_solveCoverage h.left.ready hsolve).usedAlone h

theorem Used.usedAlone {allowed : Operation -> Prop} (h : Used env vcon allowed g w) :
    UsedAlone vcon g w := by
  induction h with
  | new w => exact usedAlone_new w
  | perform _ op hover _ result h ih => exact (stable_usedAlone env vcon).perform ih hover h
  | interrupted _ vec_gen_ h ih => exact ih.setVectors h
  | outside _ h ih => exact ih.mono h

/-- The next call builds solvers for the constraints of the generator, or the solvers that
there are belong to these. -/
theorem UsedAlone.scope (h : UsedAlone vcon g w) :
    g.scope.partitions ⊆ ConstraintPartitioner.partition (scalarConstraints g.constr_mng_) ∧
      g.scope.goals.map Prod.fst ⊆
        ConstraintPartitioner.partition (scalarConstraints g.constr_mng_) := by
  unfold Generator.scope
  split
  · rw [Scope.map_fst_ofConstraints]
    exact ⟨List.Subset.refl _, List.Subset.refl _⟩
  · next hchanged =>
      have hown := h.right (Bool.eq_false_iff.mpr hchanged)
      exact ⟨hown.built, hown.goals⟩

/-!
## The solvers of a call
-/

/-- What is known when a call goes on to solve. The solvers are those of a scope; they may have
been built just now. -/
structure Updated (vcon : VariableContainer) (pending : Bool) (scope : Scope) (g g₁ : Generator)
    (w w₁ : World) : Prop where
  ready : Ready vcon g₁
  built : g₁.built = scope
  unchanged : g₁.isChanged = false
  same : pending = false -> g₁ = g
  uncovered : pending = true -> g₁.covered_ = false
  memory : w₁.memory = w.memory
  var_ID : w₁.var_ID = w.var_ID

theorem updated_of_update {g₁ : Generator} {w₁ : World} (h : Standing vcon g w)
    (hupdate : update env vcon g w = (.ok (), g₁, w₁)) :
    Updated vcon g.isChanged g.scope g g₁ w w₁ := by
  unfold update at hupdate
  split at hupdate
  · next hchanged =>
      have hrebuilt := rebuilt_self h hupdate
      constructor
      · exact hrebuilt.ready
      · rw [hrebuilt.scope rfl, scope, if_pos hchanged]
      · rw [isChanged, hrebuilt.constr_mng]
        rfl
      · intro hfalse
        rw [hchanged] at hfalse
        cases hfalse
      · intro _
        exact hrebuilt.covered
      · rw [hrebuilt.world]
      · rw [hrebuilt.world]
  · next hchanged =>
      cases hupdate
      have hfalse := Bool.eq_false_iff.mpr hchanged
      constructor
      · exact h.ready
      · rw [scope, if_neg hchanged]
      · exact hfalse
      · intro _
        rfl
      · intro htrue
        exact absurd htrue hchanged
      · rfl
      · rfl

/-- The next call of a generator that has changed builds solvers for all its constraints, and
so have the calls of a run without exceptions done. -/
theorem hardsIn_scope (h : Invariant vcon g w) :
    HardsIn (scalarConstraints g.constr_mng_) g.scope.partitions := by
  have hin := hardsIn_partition h.owned.scalars
  unfold scope
  split
  · exact hin
  · next hchanged =>
      have hbuilt := h.cached (Bool.eq_false_iff.mpr hchanged)
      rw [← hbuilt.partitions, ← VariableGenerator.partitionsOf_built hbuilt.var_gen] at hin
      exact hin

end Standing

/-!
### A constraint over a whole vector
-/

/-- One variable and one vector. -/
def vconVector : VariableContainer :=
  { VariableContainer.ofReferences ⟨8, false⟩ VariableContainer.byte_supported [] [1]
      VariableContainer.nodup_write_one with
    vector_variables := fun id => if id = 2 then some ⟨8, false⟩ else none }

/-- All variables are zero, and all selectors are set. -/
def envZero : Environment :=
  Environment.simple
    (Oracle.ofModel fun
      | .terminal _ => 0
      | .selector _ => 1)
    id

def worldZero : World :=
  { memory := fun _ => 0, vectors := fun _ => [], time := 0, var_ID := 2, constraint_ID := 0 }

/-- `v() == v()` -/
def wholeVector : Node :=
  .binaryOpr .equalOpr (.vectorExpr 2 8 false) (.vectorExpr 2 8 false)

end Generator

end Backend
end Crave
