import Crave.Backend.GeneratorSoundness

/-!
# What a coverage step leaves in force

A coverage step solves the partitions that have a goal to hit and leaves the others as
they are. The hard constraints of a partition that is left hold after the step if they
held before, and if the values that are reported are not out of date.
-/

namespace Crave
namespace Backend

open Foundation Ir MetaSMTVisitor

/-- The constraint is true of the program variables and of the values that are reported
for the other variables. -/
def HoldsIn (vcon : VariableContainer) (memory : Memory) (read : Nat -> Nat)
    (c : UserConstraint) : Prop :=
  NodeHolds (assignment vcon memory memory read) c.expr_

instance (vcon : VariableContainer) (memory : Memory) (read : Nat -> Nat)
    (c : UserConstraint) : Decidable (HoldsIn vcon memory read c) :=
  inferInstanceAs (Decidable (NodeHolds (assignment vcon memory memory read) c.expr_))

/-- Every variable of the constraints has a program variable behind it. -/
def Referenced (vcon : VariableContainer) (cs : List UserConstraint) : Prop :=
  forall c, c ∈ cs -> forall id, id ∈ c.support_vars_ -> id ∈ vcon.references.map Prod.fst

/-- A coverage goal of the partition that is not yet covered has a solution. -/
def Reaches (vcon : VariableContainer) (memory : Memory) (p : ConstraintPartition)
    (covered_set_ : Finset String) : Prop :=
  exists c, c ∈ p.constraints_ ∧ c.cover_ = true ∧ c.name_ ∉ covered_set_ ∧
    Term.Satisfiable (VariableCoverageSolver.goalQuery vcon p memory c)

/-- The hard constraints of a partition hold already, and no out of date value is reported
after a solution; or a goal is going to be hit. -/
def KeptOrHit (env : Environment) (vcon : VariableContainer) (memory : Memory)
    (read : Nat -> Nat) (p : ConstraintPartition) (covered_set_ : Finset String) : Prop :=
  ((forall c, c ∈ hards p -> HoldsIn vcon memory read c) ∧
      (Referenced vcon (hards p) ∨ ¬ Reaches vcon memory p covered_set_)) ∨
    (env.Complete ∧ Reaches vcon memory p covered_set_ ∧ Referenced vcon (hards p))

section Values

variable {vcon : VariableContainer} {c : UserConstraint}

/-- The values that are reported do not matter for referenced variables. -/
theorem holdsIn_congr {before after : Memory} {read read' : Nat -> Nat}
    (hmade : c.Made vcon.variables_)
    (hsame : SameAt vcon c.support_vars_ before after)
    (hread : read' = read ∨ forall id, id ∈ c.support_vars_ ->
      id ∈ vcon.references.map Prod.fst)
    (h : HoldsIn vcon before read c) : HoldsIn vcon after read' c := by
  unfold HoldsIn at h ⊢
  apply (nodeHolds_congr hmade.declared _).mp h
  intro id d hid hd
  rw [← hmade.support] at hid
  unfold Term.AgreeAt
  by_cases href : id ∈ vcon.references.map Prod.fst
  · rcases List.mem_map.mp href with ⟨pair, hpair, rfl⟩
    have hafter := hsame pair hpair hid
    cases List.mem_append.mp hpair with
    | inl hreads => rw [assignment_read hreads, assignment_read hreads, hafter]
    | inr hwrites => rw [assignment_write hwrites, assignment_write hwrites, hafter]
  · rw [assignment_other href, assignment_other href]
    cases hread with
    | inl heq => rw [heq]
    | inr hall => exact absurd (hall id hid) href

theorem holdsIn_of_settled {cs : List UserConstraint} {solver_ : MetaSMTVisitor}
    {memory : Memory} (hs : Settled vcon cs solver_ memory) (hc : c ∈ cs)
    (hmade : c.Made vcon.variables_)
    (href : forall id, id ∈ c.support_vars_ -> id ∈ vcon.references.map Prod.fst)
    (read : Nat -> Nat) : HoldsIn vcon memory read c := by
  have hmodel : HoldsIn vcon memory (fun id => solver_.model (.terminal id)) c :=
    hs.nodeHolds hc hmade (fun _ _ _ => rfl) fun _ _ _ _ => rfl
  exact holdsIn_congr hmade (fun _ _ _ => rfl) (Or.inr href) hmodel

end Values

namespace VariableCoverageGenerator

variable {env : Environment} {vcon : VariableContainer} {before after : Memory}
  {p : ConstraintPartition} {vs vs' : VariableCoverageSolver} {hit : Bool}

theorem Outcome.holdsIn (hsound : env.Sound) (h : Outcome env vcon before after p vs vs' hit)
    (hmade : forall c, c ∈ p.constraints_ -> c.Made vcon.variables_)
    (hsupport : forall c, c ∈ p.constraints_ -> c.support_vars_ ⊆ p.support_vars_)
    {read : Nat -> Nat} (hkept : KeptOrHit env vcon before read p vs.covered_set_)
    {c : UserConstraint} (hc : c ∈ hards p) : HoldsIn vcon after read c := by
  have hcp := (mem_hards.mp hc).left
  cases h with
  | hit goal mem cover fresh covered satisfiable settled =>
      have hreaches : Reaches vcon before p vs.covered_set_ :=
        ⟨goal, mem, cover, fresh, satisfiable hsound⟩
      have href : Referenced vcon (hards p) := by
        cases hkept with
        | inl hheld =>
            cases hheld.right with
            | inl href => exact href
            | inr hnone => exact absurd hreaches hnone
        | inr hgoal => exact hgoal.right.right
      exact holdsIn_of_settled (settled hsound) (List.mem_cons_of_mem goal hc) (hmade c hcp)
        (href c hc) read
  | missed covered goals same =>
      cases hkept with
      | inl hheld =>
          apply holdsIn_congr (hmade c hcp) _ (Or.inl rfl) (hheld.left c hc)
          intro pair hpair hid
          exact same pair hpair (hsupport c hcp hid)
      | inr hgoal =>
          rcases hgoal.right.left with ⟨goal, mem, cover, fresh, satisfiable⟩
          exact absurd satisfiable (goals hgoal.left goal mem cover fresh)

theorem Outcomes.holdsIn (hsound : env.Sound) {ps : List ConstraintPartition}
    {solvers_ solvers' : List VariableCoverageSolver} {result : Bool}
    (h : Outcomes env vcon before after ps solvers_ solvers' result)
    (hps : Separated vcon ps) {read : Nat -> Nat}
    (hkept : forall q, q ∈ ps.zip (solvers_.map VariableCoverageSolver.covered_set_) ->
      KeptOrHit env vcon before read q.1 q.2)
    {p : ConstraintPartition} (hp : p ∈ ps) {c : UserConstraint} (hc : c ∈ hards p) :
    HoldsIn vcon after read c := by
  induction h with
  | nil => cases hp
  | @cons q vs vs' hit res ps rest rest' head tail ih =>
      rw [List.map_cons, List.zip_cons_cons] at hkept
      cases List.mem_cons.mp hp with
      | inl heq =>
          rw [heq] at hc
          exact head.holdsIn hsound (hps.made q List.mem_cons_self)
            (hps.support q List.mem_cons_self) (hkept _ List.mem_cons_self) hc
      | inr hp =>
          exact ih hps.tail (fun r hr => hkept r (List.mem_cons_of_mem _ hr)) hp

theorem Outcomes.eq_false (hsound : env.Sound) {ps : List ConstraintPartition}
    {solvers_ solvers' : List VariableCoverageSolver} {result : Bool}
    (h : Outcomes env vcon before after ps solvers_ solvers' result)
    (hnone : forall q, q ∈ ps.zip (solvers_.map VariableCoverageSolver.covered_set_) ->
      ¬ Reaches vcon before q.1 q.2) : result = false := by
  induction h with
  | nil => rfl
  | @cons q vs vs' hit res ps rest rest' head tail ih =>
      rw [List.map_cons, List.zip_cons_cons] at hnone
      rw [ih fun r hr => hnone r (List.mem_cons_of_mem _ hr), Bool.or_false]
      cases head with
      | hit goal mem cover fresh covered satisfiable settled =>
          exact absurd ⟨goal, mem, cover, fresh, satisfiable hsound⟩
            (hnone _ List.mem_cons_self)
      | missed covered goals same => rfl

end VariableCoverageGenerator

namespace Generator

/-- The values that are reported for variables. -/
def reported (g : Generator) (id : Nat) : Nat :=
  (g.var_gen_.read id 0).2

/-- The solvers of the scope are for all hard constraints, and `next` is going to be called as
everything is covered or nothing can be hit; or also the coverage solvers are for all hard
constraints, and every partition is kept or hit. -/
def CoverageKeeps (env : Environment) (vcon : VariableContainer) (pending : Bool)
    (g : Generator) (scope : Scope) (cs : List UserConstraint) (memory : Memory) : Prop :=
  HardsIn cs scope.partitions ∧
    ((pending = false ∧ g.covered_ = true) ∨
      (forall q, q ∈ scope.goals -> ¬ Reaches vcon memory q.1 q.2) ∨
      HardsIn cs (scope.goals.map Prod.fst) ∧
        forall q, q ∈ scope.goals ->
          KeptOrHit env vcon memory g.reported q.1 q.2 ∧
            (pending = true -> Referenced vcon (hards q.1)))

section Sound

variable {env : Environment} {vcon : VariableContainer} {cs : List UserConstraint}
  {c : UserConstraint} {g g' g₁ : Generator} {w w' w₁ : World}

theorem solveCoverage_true_cases (h : solveCoverage env g w = (.ok true, g', w')) :
    exists var_cov_gen_ w₁ vec_gen_, g.var_cov_gen_.solve env w = .ok (true, var_cov_gen_, w₁) ∧
      g.vec_gen_.solve env
        (var_cov_gen_.solvers_.map VariableCoverageSolver.toVariableSolver)
        g.to_be_generated_vec_ids_ w₁ = .ok (true, vec_gen_, w') ∧
      g' = { g with var_cov_gen_ := var_cov_gen_, vec_gen_ := vec_gen_ } := by
  unfold solveCoverage at h
  split at h
  · cases h
  · cases h
  · next var_cov_gen_ w₁ hsolve =>
      unfold solveVectors at h
      split at h
      · cases h
      · next result vec_gen_ w₂ hvectors =>
          cases h
          exact ⟨var_cov_gen_, w₁, vec_gen_, hsolve, hvectors, rfl⟩

theorem zip_covered_set (g : Generator) :
    (VariableCoverageGenerator.partitionsOf g.var_cov_gen_.solvers_).zip
      (g.var_cov_gen_.solvers_.map VariableCoverageSolver.covered_set_) = g.built.goals := by
  rw [VariableCoverageGenerator.partitionsOf, List.zip_map']
  rfl

theorem holdsIn_of_solveCoverage (hsound : env.Sound) (hready : Ready vcon g)
    (hunwritten : Unwritten vcon (supportOf (g.built.goals.map Prod.fst)))
    (hkeeps : (forall q, q ∈ g.built.goals -> ¬ Reaches vcon w.memory q.1 q.2) ∨
      (exists p, p ∈ g.built.goals.map Prod.fst ∧ c ∈ p.constraints_) ∧
        forall q, q ∈ g.built.goals -> KeptOrHit env vcon w.memory g.reported q.1 q.2)
    (h : solveCoverage env g w = (.ok true, g', w')) (hhard : c.isHard = true) :
    HoldsIn vcon w'.memory g'.reported c := by
  rcases solveCoverage_true_cases h with ⟨var_cov_gen_, w₁, vec_gen_, hsolve, hvectors, rfl⟩
  rcases bind_eq_ok.mp hsolve with ⟨⟨r, solvers', w₂⟩, hfrom, hsolve⟩
  cases hsolve
  rw [map_fst_goals] at hunwritten hkeeps
  rw [← zip_covered_set] at hkeeps
  rcases VariableCoverageGenerator.solveFrom_spec hready.covers hunwritten hready.var_cov_gen
      hfrom with ⟨_, houtcomes, _⟩
  rw [(VectorGenerator.solve_frame hvectors).2.1]
  cases hkeeps with
  | inl hnone =>
      have hfalse := houtcomes.eq_false hsound hnone
      cases hfalse
  | inr hkept =>
      rcases hkept.left with ⟨p, hp, hcp⟩
      exact houtcomes.holdsIn hsound hready.covers hkept.right hp (mem_hards.mpr ⟨hcp, hhard⟩)

/-- A successful call of `next` by a generator that has not changed. -/
theorem holdsIn_of_next (hsound : env.Sound) (hready : Ready vcon g)
    (hunwritten : Unwritten vcon (supportOf g.built.partitions))
    (hunchanged : g.isChanged = false) (h : next env vcon g w = (.ok true, g', w'))
    (hin : exists p, p ∈ g.built.partitions ∧ c ∈ p.constraints_) (hhard : c.isHard = true) :
    HoldsIn vcon w'.memory g'.reported c := by
  rw [next_of_unchanged hunchanged] at h
  exact nodeHolds_with_references hsound hready hunwritten h (fun _ _ _ => rfl) hin hhard

/-- After a successful call of `nextCov` the hard constraints hold, provided that the
coverage step keeps or hits every partition. -/
theorem holdsIn_of_nextCov (hsound : env.Sound) {pending : Bool} {scope : Scope} {w₀ : World}
    (hunwritten : Unwritten vcon scope.support)
    (hupdated : Updated vcon pending scope g g₁ w₀ w₁)
    (hkeeps : CoverageKeeps env vcon pending g scope cs w₁.memory)
    (hcases : (g₁.covered_ = true ∧ next env vcon g₁ w₁ = (.ok true, g', w')) ∨
      (g₁.covered_ = false ∧ solveCoverage env g₁ w₁ = (.ok true, g', w')) ∨
      (g₁.covered_ = false ∧ exists g₂ w₂, solveCoverage env g₁ w₁ = (.ok false, g₂, w₂) ∧
        next env vcon { g₂ with covered_ := true } w₂ = (.ok true, g', w')))
    (hc : c ∈ cs) (hhard : c.isHard = true) : HoldsIn vcon w'.memory g'.reported c := by
  have hready := hupdated.ready
  have hvariables := hunwritten.mono scope.partitions_subset
  have hgoals := hunwritten.mono scope.goals_subset
  rw [← hupdated.built] at hvariables hgoals hkeeps
  have hin := hkeeps.left c hc hhard
  rcases hcases with ⟨_, hnext⟩ | ⟨huncovered, hsolve⟩ | ⟨_, g₂, w₂, hsolve, hnext⟩
  · exact holdsIn_of_next hsound hready hvariables hupdated.unchanged hnext hin hhard
  · apply holdsIn_of_solveCoverage hsound hready hgoals _ hsolve hhard
    rcases hkeeps.right with ⟨hpending, hcovered⟩ | hnone | ⟨hcovers, hkept⟩
    · rw [← hupdated.same hpending, huncovered] at hcovered
      cases hcovered
    · exact Or.inl hnone
    · apply Or.inr
      refine ⟨hcovers c hc hhard, ?_⟩
      intro q hq
      have hboth := hkept q hq
      cases hpending : pending with
      | false =>
          rw [hupdated.same hpending]
          exact hboth.left
      | true =>
          -- the generator reports other values now, which referenced variables do not need
          have href := hboth.right hpending
          cases hboth.left with
          | inr hgoal => exact Or.inr hgoal
          | inl hheld =>
              apply Or.inl
              constructor
              · intro d hd
                have hp : q.1 ∈ VariableCoverageGenerator.partitionsOf
                    g₁.var_cov_gen_.solvers_ := by
                  rw [← map_fst_goals]
                  exact List.mem_map_of_mem hq
                apply holdsIn_congr (hready.covers.made q.1 hp d (mem_hards.mp hd).left)
                  (fun _ _ _ => rfl) (Or.inr (href d hd)) (hheld.left d hd)
              · exact Or.inl href
  · have hsolved := solved_solveCoverage hready hsolve
    have hunchanged : g₂.isChanged = false := by
      rw [isChanged, hsolved.constr_mng]
      exact hupdated.unchanged
    rw [← hsolved.partitions] at hvariables hin
    have hready₂ : Ready vcon { g₂ with covered_ := true } := hsolved.ready.congr rfl rfl rfl
    exact holdsIn_of_next hsound hready₂ hvariables hunchanged hnext hin hhard

theorem holdsIn_of_standing (hsound : env.Sound) (h : Standing vcon g w)
    (hunwritten : Unwritten vcon g.scope.support)
    (hkeeps : CoverageKeeps env vcon g.isChanged g g.scope cs w.memory)
    (hnext : nextCov env vcon g w = (.ok true, g', w')) (hc : c ∈ cs)
    (hhard : c.isHard = true) : HoldsIn vcon w'.memory g'.reported c := by
  rcases nextCov_cases hnext with ⟨g₁, w₁, hupdate, hcases⟩
  have hupdated := updated_of_update h hupdate
  rw [← hupdated.memory] at hkeeps
  apply holdsIn_of_nextCov hsound hunwritten hupdated hkeeps _ hc hhard
  rcases hcases with hnext | ⟨huncovered, _, hsolve⟩ | hfailed
  · exact Or.inl hnext
  · exact Or.inr (Or.inl ⟨huncovered, hsolve⟩)
  · exact Or.inr (Or.inr hfailed)

theorem holdsIn_next_of_standing (hsound : env.Sound) (h : Standing vcon g w)
    (hunwritten : Unwritten vcon (supportOf g.scope.partitions))
    (hin : HardsIn cs g.scope.partitions) (hnext : next env vcon g w = (.ok true, g', w'))
    (hc : c ∈ cs) (hhard : c.isHard = true) : HoldsIn vcon w'.memory g'.reported c := by
  rcases next_cases hnext with ⟨g₁, w₁, hupdate, hsolve⟩
  have hupdated := updated_of_update h hupdate
  have hagain : next env vcon g₁ w₁ = (.ok true, g', w') :=
    (next_of_unchanged hupdated.unchanged).trans hsolve
  rw [← hupdated.built] at hunwritten hin
  exact holdsIn_of_next hsound hupdated.ready hunwritten hupdated.unchanged hagain
    (hin c hc hhard) hhard

theorem coverageKeeps_of_no_goal {pending : Bool} {scope : Scope} {memory : Memory}
    (hin : HardsIn cs scope.partitions)
    (hcover : forall q, q ∈ scope.goals -> forall c, c ∈ q.1.constraints_ -> c.cover_ = false) :
    CoverageKeeps env vcon pending g scope cs memory := by
  refine ⟨hin, Or.inr (Or.inl ?_)⟩
  intro q hq hreaches
  rcases hreaches with ⟨c, hc, hgoal, _⟩
  rw [hcover q hq c hc] at hgoal
  cases hgoal

end Sound

end Generator
end Backend
end Crave
