import Crave.Backend.CoverageSizes

/-!
# Coverage over whole runs

From a reset on, a name counts as covered in a partition when a goal of that name was hit.
The invariant of these runs links the names, the goals and the solutions that `nextCov`
has returned, and it says what is left when everything counts as covered.
-/

namespace Crave
namespace Backend

open Foundation Ir MetaSMTVisitor

namespace VariableCoverageGenerator

variable {env : Environment} {vcon : VariableContainer} {before after : Memory}

theorem Outcomes.exists_outcome {ps : List ConstraintPartition}
    {solvers_ solvers' : List VariableCoverageSolver} {result : Bool}
    (h : Outcomes env vcon before after ps solvers_ solvers' result)
    {q : ConstraintPartition × VariableCoverageSolver} (hq : q ∈ ps.zip solvers') :
    exists vs hit, (q.1, vs) ∈ ps.zip solvers_ ∧ (hit = true -> result = true) ∧
      Outcome env vcon before after q.1 vs q.2 hit := by
  induction h with
  | nil => cases hq
  | @cons p vs vs' hit res ps rest rest' head tail ih =>
      rw [List.zip_cons_cons] at hq ⊢
      cases List.mem_cons.mp hq with
      | inl heq =>
          rw [heq]
          exists vs, hit
          constructor
          · exact List.mem_cons_self
          · constructor
            · intro hhit
              rw [hhit]
              rfl
            · exact head
      | inr hq =>
          rcases ih hq with ⟨vs, hit', hmem, himp, houtcome⟩
          exists vs, hit'
          constructor
          · exact List.mem_cons_of_mem _ hmem
          · constructor
            · intro hhit
              rw [himp hhit, Bool.or_true]
            · exact houtcome

end VariableCoverageGenerator

namespace Generator

/-!
## Runs after a reset
-/

/-- The values that the coverage solvers hold. -/
def solved (g : Generator) (id : Nat) : Nat :=
  (g.var_cov_gen_.read id 0).2

/-- After a call of `nextCov`: the values of the solvers that have answered it. -/
def answered (g : Generator) : Nat -> Nat :=
  if g.covered_ then g.reported else g.solved

/-- The constraint is true of a solution that `nextCov` has left. -/
def SolutionHolds (vcon : VariableContainer) (solution : Generator × World)
    (c : UserConstraint) : Prop :=
  HoldsIn vcon solution.2.memory solution.1.answered c

/-- The solutions so far, with the one of a call that returned true. -/
def record (result : Except String Bool) (solution : Generator × World)
    (solutions : List (Generator × World)) : List (Generator × World) :=
  match result with
  | .ok true => solution :: solutions
  | _ => solutions

/-- Calls of `nextCov` and `next`, which may throw, and anything else that leaves the constraints
and the read references of a generator, with the solutions for which `nextCov` returned true.
The states in which `nextCov` is called may be restricted. -/
inductive CoverageRun (env : Environment) (vcon : VariableContainer)
    (ok : Generator -> World -> Prop) (g₀ : Generator) (w₀ : World) :
    Generator -> World -> List (Generator × World) -> Prop where
  | start : CoverageRun env vcon ok g₀ w₀ g₀ w₀ []
  | nextCov {g g' : Generator} {w w' : World} {solutions : List (Generator × World)}
      (result : Except String Bool) (before : CoverageRun env vcon ok g₀ w₀ g w solutions)
      (hok : ok g w) (h : Generator.nextCov env vcon g w = (result, g', w')) :
      CoverageRun env vcon ok g₀ w₀ g' w' (record result (g', w') solutions)
  | next {g g' : Generator} {w w' : World} {solutions : List (Generator × World)}
      (result : Except String Bool) (before : CoverageRun env vcon ok g₀ w₀ g w solutions)
      (h : Generator.next env vcon g w = (result, g', w')) :
      CoverageRun env vcon ok g₀ w₀ g' w' solutions
  | interrupted {g : Generator} {w : World} {solutions : List (Generator × World)}
      (before : CoverageRun env vcon ok g₀ w₀ g w solutions) (vec_gen_ : VectorGenerator)
      (h : VectorGenerator.contents vec_gen_.vector_solvers_ =
        VectorGenerator.contents g.vec_gen_.vector_solvers_) :
      CoverageRun env vcon ok g₀ w₀ { g with vec_gen_ := vec_gen_ } w solutions
  | outside {g : Generator} {w w' : World} {solutions : List (Generator × World)}
      (before : CoverageRun env vcon ok g₀ w₀ g w solutions)
      (h : SameReads vcon g₀.built.support w.memory w'.memory) :
      CoverageRun env vcon ok g₀ w₀ g w' solutions

/-- The state that a reset leaves, also when it throws. -/
structure Fresh (vcon : VariableContainer) (cs : List UserConstraint) (g : Generator) :
    Prop where
  wellMade : WellMade vcon cs
  ready : Ready vcon g
  unchanged : g.isChanged = false
  uncovered : g.covered_ = false
  goals : forall q, q ∈ g.built.goals -> q.1 ∈ ConstraintPartitioner.partition cs ∧ q.2 = ∅

/-- The calls that reset the coverage of a generator that is used alone: `resetCoverage`,
and those that build all solvers again. -/
inductive Reset (env : Environment) (vcon : VariableContainer) (g : Generator) (w : World) :
    Generator -> World -> Prop where
  | resetCoverage {g' : Generator} (hunchanged : g.isChanged = false)
      (result : Except String Unit) (h : Generator.resetCoverage env vcon g = (result, g')) :
      Reset env vcon g w g' w
  | update {g' : Generator} {w' : World} (hchanged : g.isChanged = true)
      (result : Except String Unit) (h : Generator.update env vcon g w = (result, g', w')) :
      Reset env vcon g w g' w'
  | enable_multithreading {g' : Generator} {w' : World} (result : Except String Unit)
      (h : Generator.enable_multithreading env vcon g w = (result, g', w')) :
      Reset env vcon g w g' w'

/-- Every name that counts as covered is that of a goal of the same partition which holds in
one of the solutions. When everything counts as covered, no other goal has a solution. -/
structure Progress (vcon : VariableContainer) (cs : List UserConstraint) (g₀ : Generator)
    (start : Memory) (g : Generator) (w : World) (solutions : List (Generator × World)) :
    Prop where
  ready : Ready vcon g
  unchanged : g.isChanged = false
  partitions : g.built.partitions = g₀.built.partitions
  covers : g.built.goals.map Prod.fst = g₀.built.goals.map Prod.fst
  reads : SameReads vcon g₀.built.support start w.memory
  names : forall q, q ∈ g.pairs -> forall name, name ∈ q.2.covered_set_ ->
    exists c solution, c ∈ q.1.constraints_ ∧ c.cover_ = true ∧ c.name_ = name ∧
      solution ∈ solutions ∧ SolutionHolds vcon solution c
  solvers : g.covered_ = true -> forall c, c ∈ cs -> c.cover_ = true ->
    exists q, q ∈ g.pairs ∧ c ∈ q.1.constraints_
  exhausted : g.covered_ = true -> forall q, q ∈ g.pairs ->
    forall c, c ∈ q.1.constraints_ -> c.cover_ = true -> c.name_ ∉ q.2.covered_set_ ->
      ¬ Term.Satisfiable (VariableCoverageSolver.goalQuery vcon q.1 start c)

section Progress

variable {env : Environment} {vcon : VariableContainer} {cs : List UserConstraint}
  {start : Memory} {g g₀ g' : Generator} {w w₀ w' : World}
  {solutions : List (Generator × World)}

theorem mem_map_fst_goals {p : ConstraintPartition} :
    p ∈ g.built.goals.map Prod.fst ↔ exists vs, (p, vs) ∈ g.pairs := by
  rw [map_fst_goals, VariableCoverageGenerator.partitionsOf]
  constructor
  · intro hp
    rcases List.mem_map.mp hp with ⟨vs, hvs, rfl⟩
    exact ⟨vs, List.mem_map_of_mem hvs⟩
  · rintro ⟨vs, hq⟩
    rcases List.mem_map.mp hq with ⟨vs', hvs', heq⟩
    cases heq
    exact List.mem_map_of_mem hvs'

theorem Progress.wider (h : Progress vcon cs g₀ start g w solutions)
    (result : Except String Bool) (solution : Generator × World) :
    Progress vcon cs g₀ start g w (record result solution solutions) := by
  have hsub : forall old, old ∈ solutions -> old ∈ record result solution solutions := by
    intro old hold
    unfold record
    split
    · exact List.mem_cons_of_mem solution hold
    · exact hold
  constructor
  · exact h.ready
  · exact h.unchanged
  · exact h.partitions
  · exact h.covers
  · exact h.reads
  · intro q hq name hname
    rcases h.names q hq name hname with ⟨c, old, hc, hcover, heq, hmem, hholds⟩
    exact ⟨c, old, hc, hcover, heq, hsub old hmem, hholds⟩
  · exact h.solvers
  · exact h.exhausted

theorem Progress.unwritten (h : Progress vcon cs g₀ start g w solutions)
    (hunwritten : Unwritten vcon g₀.built.support) :
    Unwritten vcon (supportOf (g.built.goals.map Prod.fst)) := by
  rw [h.covers]
  exact hunwritten.mono (Scope.goals_subset _)

theorem Progress.sameReads (h : Progress vcon cs g₀ start g w solutions)
    (hunwritten : Unwritten vcon g₀.built.support) {support : Set Nat}
    (hsub : support ⊆ g₀.built.support) {memory : Memory}
    (hwritten : WrittenOnly vcon support w.memory memory) :
    SameReads vcon g₀.built.support start memory :=
  h.reads.trans ((hwritten.mono hsub).sameReads hunwritten)

/-!
## Resets
-/

theorem fresh_resetCoverage (hstanding : Standing vcon g w) (hmade : WellMade vcon cs)
    (hpartitions : g.constr_pttn_.partitions_ = ConstraintPartitioner.partition cs)
    (hunchanged : g.isChanged = false) {result : Except String Unit}
    (h : Generator.resetCoverage env vcon g = (result, g')) : Fresh vcon cs g' := by
  have hstanding' := (standing_resetCoverage hstanding h).left
  cases hcreate : VariableCoverageGenerator.createSolvers env vcon g.constr_pttn_.partitions_ with
  | mk covs outcome =>
      rcases upTo_createCoverageSolvers hstanding.separated hcreate with
        ⟨qs, hqs, hbuilt, hempty, _⟩
      simp only [Generator.resetCoverage, VariableCoverageGenerator.reset, hcreate] at h
      cases h
      refine ⟨hmade, hstanding'.ready, hunchanged, rfl, ?_⟩
      intro q hq
      have hq' : q ∈ covs.map fun vs => (vs.constr_pttn_, vs.covered_set_) := hq
      rw [goals_of_built hbuilt hempty] at hq'
      rcases List.mem_map.mp hq' with ⟨p, hp, rfl⟩
      have hmem := hqs.subset hp
      rw [hpartitions] at hmem
      exact ⟨hmem, rfl⟩

theorem Rebuilt.fresh {vecs : List UserConstraint} {result : Except String Unit}
    (h : Rebuilt env vcon cs vecs g g' w w' result) (hmade : WellMade vcon cs)
    (hunchanged : g.isChanged = false) (huncovered : g.covered_ = false) :
    Fresh vcon cs g' := by
  refine ⟨hmade, h.ready, ?_, ?_, h.goals⟩
  · rw [isChanged, h.constr_mng]
    exact hunchanged
  · rw [h.covered]
    exact huncovered

theorem fresh_rebuild (h : Standing vcon g w) {result : Except String Unit}
    (hrebuild : rebuild env vcon true (Generator.reset env vcon g) w = (result, g', w')) :
    Fresh vcon (scalarConstraints g.constr_mng_) g' :=
  (rebuilt_self h hrebuild).fresh h.owned.scalars rfl rfl

theorem fresh_update (h : Standing vcon g w) (hchanged : g.isChanged = true)
    {result : Except String Unit} (hupdate : Generator.update env vcon g w = (result, g', w')) :
    Fresh vcon (scalarConstraints g.constr_mng_) g' := by
  unfold update at hupdate
  rw [if_pos hchanged] at hupdate
  exact fresh_rebuild h hupdate

/-- After a reset the goals of a generator that is used alone are those of its constraints. -/
theorem Reset.fresh (hg : UsedAlone vcon g w) (h : Reset env vcon g w g₀ w₀) :
    Fresh vcon (scalarConstraints g.constr_mng_) g₀ := by
  have hstanding := hg.left
  cases h with
  | resetCoverage hunchanged result h =>
      exact fresh_resetCoverage hstanding hstanding.owned.scalars (hg.right hunchanged).stored
        hunchanged h
  | update hchanged result h => exact fresh_update hstanding hchanged h
  | enable_multithreading result h =>
      exact @fresh_rebuild env vcon { g with var_gen_ := VariableGenerator.new } g₀ w w₀
        hstanding.noVarGen result h

theorem Fresh.progress (h : Fresh vcon cs g₀) (w₀ : World) :
    Progress vcon cs g₀ w₀.memory g₀ w₀ [] := by
  constructor
  · exact h.ready
  · exact h.unchanged
  · rfl
  · rfl
  · exact SameReads.refl w₀.memory
  · intro q hq name hname
    rcases List.mem_map.mp hq with ⟨vs, hvs, rfl⟩
    have hempty : vs.covered_set_ = ∅ := (h.goals _ (List.mem_map_of_mem hvs)).right
    have hname' : name ∈ vs.covered_set_ := hname
    rw [hempty] at hname'
    cases hname'
  · intro hcovered
    rw [h.uncovered] at hcovered
    cases hcovered
  · intro hcovered
    rw [h.uncovered] at hcovered
    cases hcovered

/-!
## Calls of `next`
-/

theorem solve_keeps (hready : Ready vcon g) {result : Except String Bool}
    (h : solve env g w = (result, g', w')) :
    g'.var_cov_gen_ = g.var_cov_gen_ ∧
      WrittenOnly vcon (supportOf g.built.partitions) w.memory w'.memory := by
  have hwritten : forall {r var_gen_ w₁},
      g.var_gen_.solve env w = .ok (r, var_gen_, w₁) ->
        WrittenOnly vcon (supportOf g.built.partitions) w.memory w₁.memory := by
    intro r var_gen_ w₁ hsolve
    rcases bind_eq_ok.mp hsolve with ⟨⟨r', solvers', w₂⟩, hfrom, hreturn⟩
    cases hreturn
    exact (VariableGenerator.solveFrom_spec hready.var_gen hfrom).2.1
  unfold solve at h
  split at h
  · cases h
    exact ⟨rfl, WrittenOnly.refl _⟩
  · next hsolve =>
      cases h
      exact ⟨rfl, hwritten hsolve⟩
  · next hsolve =>
      unfold solveVectors at h
      split at h
      · cases h
        exact ⟨rfl, hwritten hsolve⟩
      · next hvectors =>
          cases h
          rw [(VectorGenerator.solve_frame hvectors).2.1]
          exact ⟨rfl, hwritten hsolve⟩

theorem Progress.solve (hunwritten : Unwritten vcon g₀.built.support)
    (h : Progress vcon cs g₀ start g w solutions) {result : Except String Bool}
    (hsolve : Generator.solve env g w = (result, g', w')) :
    Progress vcon cs g₀ start g' w' solutions := by
  have hsolved := solved_solve h.ready hsolve
  rcases solve_keeps h.ready hsolve with ⟨hsolvers, hwritten⟩
  have hpairs : g'.pairs = g.pairs := by rw [pairs, pairs, hsolvers]
  rw [h.partitions] at hwritten
  constructor
  · exact hsolved.ready
  · rw [isChanged, hsolved.constr_mng]
    exact h.unchanged
  · rw [hsolved.partitions]
    exact h.partitions
  · rw [map_fst_goals, hsolved.covers, ← map_fst_goals]
    exact h.covers
  · exact h.sameReads hunwritten (Scope.partitions_subset _) hwritten
  · rw [hpairs]
    exact h.names
  · rw [hpairs, hsolved.covered]
    exact h.solvers
  · rw [hpairs, hsolved.covered]
    exact h.exhausted

theorem Progress.next (hunwritten : Unwritten vcon g₀.built.support)
    (h : Progress vcon cs g₀ start g w solutions) {result : Except String Bool}
    (hnext : Generator.next env vcon g w = (result, g', w')) :
    Progress vcon cs g₀ start g' w' solutions := by
  rw [next_of_unchanged h.unchanged] at hnext
  exact h.solve hunwritten hnext

/-!
## A coverage step
-/

theorem holdsIn_solved (hready : Ready vcon g)
    {q : ConstraintPartition × VariableCoverageSolver} (hq : q ∈ g.pairs)
    {c : UserConstraint} (hc : c ∈ q.1.constraints_) {memory : Memory}
    (hsettled : Settled vcon (c :: hards q.1) q.2.solver_ memory) :
    HoldsIn vcon memory g.solved c := by
  have hp : q.1 ∈ VariableCoverageGenerator.partitionsOf g.var_cov_gen_.solvers_ := by
    rw [← map_fst_goals]
    exact mem_map_fst_goals.mpr ⟨q.2, hq⟩
  rw [← zip_partitionsOf] at hq
  apply hsettled.nodeHolds List.mem_cons_self (hready.covers.made q.1 hp c hc)
  · intro pair _ _
    rfl
  · intro id d hid hd
    rcases hsettled.met c List.mem_cons_self id hid with ⟨d', hd', hterminal⟩
    rw [hd] at hd'
    cases hd'
    have hsupport := hready.covers.support q.1 hp c hc hid
    rw [solved, VariableCoverageGenerator.read,
      VariableCoverageGenerator.readFrom_of_mem_zip hready.covers hready.var_cov_gen hq hsupport]
    exact ofNat_read hterminal

theorem outcomes_of_solve (hready : Ready vcon g)
    (hunwritten : Unwritten vcon (supportOf (g.built.goals.map Prod.fst))) {result : Bool}
    {var_cov_gen_ : VariableCoverageGenerator}
    (h : g.var_cov_gen_.solve env w = .ok (result, var_cov_gen_, w')) :
    VariableCoverageGenerator.Outcomes env vcon w.memory w'.memory
        (g.built.goals.map Prod.fst) g.var_cov_gen_.solvers_ var_cov_gen_.solvers_ result ∧
      WrittenOnly vcon (supportOf (g.built.goals.map Prod.fst)) w.memory w'.memory := by
  rcases bind_eq_ok.mp h with ⟨⟨r, solvers', w₁⟩, hfrom, hreturn⟩
  cases hreturn
  rw [map_fst_goals] at hunwritten ⊢
  rcases VariableCoverageGenerator.solveFrom_spec hready.covers hunwritten hready.var_cov_gen
    hfrom with ⟨_, houtcomes, hwritten, _⟩
  exact ⟨houtcomes, hwritten⟩

theorem zip_of_solve (hready : Ready vcon g) {result : Bool}
    {var_cov_gen_ : VariableCoverageGenerator}
    (h : g.var_cov_gen_.solve env w = .ok (result, var_cov_gen_, w')) :
    (g.built.goals.map Prod.fst).zip var_cov_gen_.solvers_ =
      pairs { g with var_cov_gen_ := var_cov_gen_ } := by
  have hcovers := (solved_var_cov_gen hready h).covers
  rw [map_fst_goals, ← hcovers]
  exact zip_partitionsOf { g with var_cov_gen_ := var_cov_gen_ }

/-- A step that succeeds: its goals hold in the solution that it leaves. -/
theorem Progress.hit (hsound : env.Sound) (hunwritten : Unwritten vcon g₀.built.support)
    (h : Progress vcon cs g₀ start g w solutions) (huncovered : g.covered_ = false)
    (hsolve : solveCoverage env g w = (.ok true, g', w')) :
    Progress vcon cs g₀ start g' w' ((g', w') :: solutions) := by
  have hsolved := solved_solveCoverage h.ready hsolve
  rcases solveCoverage_true_cases hsolve with
    ⟨var_cov_gen_, w₁, vec_gen_, hsolvers, hvectors, hg'⟩
  rcases outcomes_of_solve h.ready (h.unwritten hunwritten) hsolvers with ⟨houtcomes, hwritten⟩
  have hmemory : w'.memory = w₁.memory := (VectorGenerator.solve_frame hvectors).2.1
  have hcovered : g'.covered_ = false := by
    rw [hg']
    exact huncovered
  have hpairs : (g.built.goals.map Prod.fst).zip var_cov_gen_.solvers_ = g'.pairs := by
    rw [zip_of_solve h.ready hsolvers, hg']
    rfl
  have hzip : (g.built.goals.map Prod.fst).zip g.var_cov_gen_.solvers_ = g.pairs := by
    rw [map_fst_goals]
    exact zip_partitionsOf g
  constructor
  · exact hsolved.ready
  · rw [isChanged, hsolved.constr_mng]
    exact h.unchanged
  · rw [hsolved.partitions]
    exact h.partitions
  · rw [map_fst_goals, hsolved.covers, ← map_fst_goals]
    exact h.covers
  · rw [hmemory]
    rw [h.covers] at hwritten
    exact h.sameReads hunwritten (Scope.goals_subset _) hwritten
  · intro q hq name hname
    have hq' := hq
    rw [← hpairs] at hq'
    rcases houtcomes.exists_outcome hq' with ⟨vs, hit, hvs, _, houtcome⟩
    rw [hzip] at hvs
    have hold : name ∈ vs.covered_set_ ->
        exists c solution, c ∈ q.1.constraints_ ∧ c.cover_ = true ∧ c.name_ = name ∧
          solution ∈ (g', w') :: solutions ∧ SolutionHolds vcon solution c := by
      intro hmem
      exact (h.wider (.ok true) (g', w')).names (q.1, vs) hvs name hmem
    cases houtcome with
    | missed covered goals same =>
        rw [covered] at hname
        exact hold hname
    | hit c mem cover fresh covered satisfiable settled =>
        rw [covered] at hname
        cases Finset.mem_insert.mp hname with
        | inr hmem => exact hold hmem
        | inl heq =>
            -- the name is new, and its goal is settled by the solution of this step
            refine ⟨c, (g', w'), mem, cover, heq.symm, List.mem_cons_self, ?_⟩
            have hholds := holdsIn_solved hsolved.ready hq mem (settled hsound)
            rw [← hmemory] at hholds
            unfold SolutionHolds answered
            rw [hcovered]
            exact hholds
  · intro htrue
    rw [hcovered] at htrue
    cases htrue
  · intro htrue
    rw [hcovered] at htrue
    cases htrue

/-- A step that hits nothing: no goal that is left has a solution. -/
theorem Progress.miss (hcomplete : env.Complete) (hunwritten : Unwritten vcon g₀.built.support)
    (h : Progress vcon cs g₀ start g w solutions)
    (hgoals : forall c, c ∈ cs -> c.cover_ = true ->
      exists q, q ∈ g.built.goals ∧ c ∈ q.1.constraints_)
    {var_cov_gen_ : VariableCoverageGenerator}
    (hsolve : g.var_cov_gen_.solve env w = .ok (false, var_cov_gen_, w')) :
    Progress vcon cs g₀ start { g with var_cov_gen_ := var_cov_gen_, covered_ := true } w'
      solutions := by
  have hsolved := solved_var_cov_gen h.ready hsolve
  rcases outcomes_of_solve h.ready (h.unwritten hunwritten) hsolve with ⟨houtcomes, hwritten⟩
  rw [h.covers] at hwritten
  have hpairs := zip_of_solve h.ready hsolve
  have hzip : (g.built.goals.map Prod.fst).zip g.var_cov_gen_.solvers_ = g.pairs := by
    rw [map_fst_goals]
    exact zip_partitionsOf g
  have hmissed : forall q, q ∈ pairs { g with var_cov_gen_ := var_cov_gen_ } ->
      exists vs, (q.1, vs) ∈ g.pairs ∧
        VariableCoverageGenerator.Outcome env vcon w.memory w'.memory q.1 vs q.2 false := by
    intro q hq
    rw [← hpairs] at hq
    rcases houtcomes.exists_outcome hq with ⟨vs, hit, hvs, himp, houtcome⟩
    rw [hzip] at hvs
    cases hit with
    | true => cases himp rfl
    | false => exact ⟨vs, hvs, houtcome⟩
  have hcovers : (pairs { g with var_cov_gen_ := var_cov_gen_ }).map Prod.fst =
      g.built.goals.map Prod.fst := by
    rw [map_fst_goals, ← hsolved.covers, pairs, List.map_map]
    rfl
  constructor
  · exact hsolved.ready.congr rfl rfl rfl
  · exact h.unchanged
  · exact h.partitions
  · show (built { g with var_cov_gen_ := var_cov_gen_ }).goals.map Prod.fst = _
    rw [map_fst_goals, hsolved.covers, ← map_fst_goals]
    exact h.covers
  · exact h.sameReads hunwritten (Scope.goals_subset _) hwritten
  · intro q hq name hname
    rcases hmissed q hq with ⟨vs, hvs, houtcome⟩
    cases houtcome with
    | missed covered goals same =>
        rw [covered] at hname
        exact h.names (q.1, vs) hvs name hname
  · intro _ c hc hcover
    rcases hgoals c hc hcover with ⟨q, hq, hmem⟩
    have hq' := List.mem_map_of_mem (f := Prod.fst) hq
    rw [← hcovers] at hq'
    rcases List.mem_map.mp hq' with ⟨q', hq', heq⟩
    rw [← heq] at hmem
    exact ⟨q', hq', hmem⟩
  · intro _ q hq c hc hcover hname
    rcases hmissed q hq with ⟨vs, hvs, houtcome⟩
    cases houtcome with
    | missed covered goals same =>
        rw [covered] at hname
        have hsupport : (q.1.support_vars_ : Set Nat) ⊆ g₀.built.support := by
          apply Set.Subset.trans _ (Scope.goals_subset _)
          apply support_subset_supportOf
          rw [← h.covers]
          exact mem_map_fst_goals.mpr ⟨vs, hvs⟩
        rw [VariableCoverageGenerator.goalQuery_of_sameReads (h.reads.mono hsupport)]
        exact goals hcomplete c hc hcover hname

theorem Progress.nextCov (hsound : env.Sound) (hcomplete : env.Complete)
    (hunwritten : Unwritten vcon g₀.built.support)
    (h : Progress vcon cs g₀ start g w solutions)
    (hconclusive : Conclusive env vcon cs g w) {result : Except String Bool}
    (hnext : Generator.nextCov env vcon g w = (result, g', w')) :
    Progress vcon cs g₀ start g' w' (record result (g', w') solutions) := by
  unfold Generator.nextCov at hnext
  rw [update, if_neg (by rw [h.unchanged]; exact Bool.false_ne_true)] at hnext
  simp only at hnext
  split at hnext
  · exact (h.next hunwritten hnext).wider result (g', w')
  · next hcovered =>
      have huncovered := Bool.eq_false_iff.mpr hcovered
      cases hstep : solveCoverage env g w with
      | mk outcome rest =>
          rcases rest with ⟨g₁, w₁⟩
          rw [hstep] at hnext
          rcases solveCoverage_of_conclusive hsound hcomplete h.ready (h.unwritten hunwritten)
            huncovered hconclusive hstep with
            ⟨rfl, rfl, e, rfl⟩ | ⟨var_cov_gen_, rfl, hmissed, rfl⟩ | rfl
          · cases hnext
            exact h
          · have hmiss := h.miss hcomplete hunwritten hconclusive.left hmissed
            exact (hmiss.next hunwritten hnext).wider result (g', w')
          · cases hnext
            exact h.hit hsound hunwritten huncovered hstep

/-- The invariant of the runs in which every call of `nextCov` is conclusive. -/
theorem Fresh.progress_of_run (hsound : env.Sound) (hcomplete : env.Complete)
    (hunwritten : Unwritten vcon g₀.built.support) (hfresh : Fresh vcon cs g₀)
    (hrun : CoverageRun env vcon (Conclusive env vcon cs) g₀ w₀ g w solutions) :
    Progress vcon cs g₀ w₀.memory g w solutions := by
  induction hrun with
  | start => exact hfresh.progress w₀
  | nextCov result _ hok hnext ih => exact ih.nextCov hsound hcomplete hunwritten hok hnext
  | next result _ hnext ih => exact ih.next hunwritten hnext
  | interrupted _ vec_gen_ hcontents ih =>
      rcases ih.ready.vec_gen with ⟨vecs, hvecs⟩
      have hready := ih.ready.setVectors ⟨vecs, hcontents.trans hvecs⟩
      exact ⟨hready, ih.unchanged, ih.partitions, ih.covers, ih.reads, ih.names, ih.solvers,
        ih.exhausted⟩
  | outside _ hreads ih =>
      exact ⟨ih.ready, ih.unchanged, ih.partitions, ih.covers, ih.reads.trans hreads, ih.names,
        ih.solvers, ih.exhausted⟩

/-!
## What is covered at the end
-/

/-- Some values satisfy the hard constraints and the given one, with the read references as
they are. -/
def SatisfiableWith (vcon : VariableContainer) (memory : Memory) (cs : List UserConstraint)
    (c : UserConstraint) : Prop :=
  exists m, (forall pair, pair ∈ vcon.read_references ->
      pair.1 ∈ supportOf (ConstraintPartitioner.partition cs) -> RefersTo vcon m memory pair) ∧
    (forall d, d ∈ cs -> d.isHard = true -> NodeHolds m d.expr_) ∧ NodeHolds m c.expr_

/-- No other goal that is solved together with the given one has its name. -/
def OwnName (cs : List UserConstraint) (c : UserConstraint) : Prop :=
  forall p, p ∈ ConstraintPartitioner.partition cs -> c ∈ p.constraints_ ->
    forall d, d ∈ p.constraints_ -> d.cover_ = true -> d.name_ = c.name_ -> d = c

theorem SatisfiableWith.goalQuery (hmade : WellMade vcon cs) {memory : Memory}
    {c : UserConstraint} (h : SatisfiableWith vcon memory cs c) {p : ConstraintPartition}
    (hp : p ∈ ConstraintPartitioner.partition cs) :
    Term.Satisfiable (VariableCoverageSolver.goalQuery vcon p memory c) := by
  rcases h with ⟨m, hrefs, hhards, hgoal⟩
  exists m
  unfold VariableCoverageSolver.goalQuery
  rw [Term.satisfies_append, Term.satisfies_append]
  constructor
  · intro f hf
    rcases List.mem_map.mp hf with ⟨d, hd, rfl⟩
    rw [holds_equalTrue, holds_formula]
    exact hhards d (mem_of_mem_partition hmade hp (mem_hards.mp hd).left) (mem_hards.mp hd).right
  · constructor
    · apply satisfies_of_refersTo
      intro pair hpair hid
      exact hrefs pair hpair ⟨p, hp, hid⟩
    · intro f hf
      rw [List.mem_singleton.mp hf, holds_equalTrue, holds_formula]
      exact hgoal

theorem ownName_of_nodup (hmade : WellMade vcon cs)
    (hnodup : (cs.map UserConstraint.name_).Nodup) (c : UserConstraint) : OwnName cs c := by
  intro p hp hc d hd _ hname
  have hmem := mem_of_mem_partition hmade hp hc
  exact List.inj_on_of_nodup_map hnodup (mem_of_mem_partition hmade hp hd) hmem hname

/-- The goals of a generator that is used alone have names of their own. -/
theorem ownName_of_consistent (howned : Owned vcon g.constr_mng_ w) (c : UserConstraint) :
    OwnName (scalarConstraints g.constr_mng_) c := by
  have hsub : (scalarConstraints g.constr_mng_).Sublist g.constr_mng_.constraints_ :=
    List.filter_sublist.trans List.filter_sublist
  exact ownName_of_nodup howned.scalars
    (howned.consistent.names_nodup.sublist (hsub.map UserConstraint.name_)) c

/-- When a generator whose coverage was reset says that it is covered, every goal with a name
of its own that has a solution holds in one of the solutions since. -/
theorem Fresh.covered (hsound : env.Sound) (hcomplete : env.Complete)
    (hunwritten : Unwritten vcon g₀.built.support) (hfresh : Fresh vcon cs g₀)
    (hrun : CoverageRun env vcon (Conclusive env vcon cs) g₀ w₀ g w solutions)
    (hcovered : g.isCovered = true) {c : UserConstraint} (hc : c ∈ cs)
    (hcover : c.cover_ = true) (hown : OwnName cs c)
    (hsat : SatisfiableWith vcon w₀.memory cs c) :
    exists solution, solution ∈ solutions ∧ SolutionHolds vcon solution c := by
  have h := hfresh.progress_of_run hsound hcomplete hunwritten hrun
  rcases h.solvers hcovered c hc hcover with ⟨q, hq, hcq⟩
  have hp : q.1 ∈ ConstraintPartitioner.partition cs := by
    have hmem : q.1 ∈ g.built.goals.map Prod.fst := mem_map_fst_goals.mpr ⟨q.2, hq⟩
    rw [h.covers] at hmem
    rcases List.mem_map.mp hmem with ⟨q', hq', heq⟩
    rw [← heq]
    exact (hfresh.goals q' hq').left
  by_cases hname : c.name_ ∈ q.2.covered_set_
  · rcases h.names q hq c.name_ hname with ⟨d, solution, hd, hdcover, heq, hmem, hholds⟩
    rw [hown q.1 hp hcq d hd hdcover heq] at hholds
    exact ⟨solution, hmem, hholds⟩
  · exact absurd (hsat.goalQuery hfresh.wellMade hp)
      (h.exhausted hcovered q hq c hcq hcover hname)

end Progress

end Generator

end Backend
end Crave
