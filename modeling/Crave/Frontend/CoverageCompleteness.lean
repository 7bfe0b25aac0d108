import Crave.Backend.CoverageRuns
import Crave.Frontend.RandObjCoverage

/-!
# Coverage that is complete

What was hit when a generator says that it is covered, for a generator that is used alone
and for one that gathers the constraints of a hierarchy.
-/

namespace Crave
namespace Frontend

open Foundation Ir Backend MetaSMTVisitor

namespace RandObjs

/-- The calls that reset the coverage of the generator of an object, with the constraints
that its coverage solvers are for. They may throw. -/
inductive ResetFor (env : Environment) (vcon : VariableContainer) (s : RandObjs) (i : Nat)
    (w : World) : List UserConstraint -> Generator -> World -> Prop where
  | rebuild {s' : RandObjs} {w' : World} (hrequested : s.rebuild_ i = true)
      (result : Except String Unit) (h : s.rebuild env vcon i w = (result, s', w')) :
      ResetFor env vcon s i w (s.subtreeScalars i) (s'.constraint i) w'
  | resetCoverage {cs : List UserConstraint} {g : Generator}
      (hmade : Generator.WellMade vcon cs)
      (hpartitions : (s.constraint i).constr_pttn_.partitions_ =
        ConstraintPartitioner.partition cs)
      (hunchanged : (s.constraint i).isChanged = false) (result : Except String Unit)
      (h : Generator.resetCoverage env vcon (s.constraint i) = (result, g)) :
      ResetFor env vcon s i w cs g w
  | update {g : Generator} {w' : World} (hchanged : (s.constraint i).isChanged = true)
      (result : Except String Unit)
      (h : Generator.update env vcon (s.constraint i) w = (result, g, w')) :
      ResetFor env vcon s i w (scalarConstraints (s.constraint i).constr_mng_) g w'

theorem ResetFor.fresh {env : Environment} {vcon : VariableContainer} {s : RandObjs} {i : Nat}
    {w w₀ : World} {cs : List UserConstraint} {g₀ : Generator} (hinv : Invariant vcon s w)
    (h : ResetFor env vcon s i w cs g₀ w₀) : Generator.Fresh vcon cs g₀ := by
  cases h with
  | rebuild hrequested result h =>
      rcases rebuild_cases hinv h with ⟨hnot, _⟩ | ⟨_, g, flags, rfl, hg⟩
      · rw [hrequested] at hnot
        cases hnot
      · have hself : ({ s.setConstraint i g with rebuild_ := flags } : RandObjs).constraint i = g :=
          constraint_setConstraint_self s i g
        rw [hself]
        refine ⟨hinv.wellMade i, hg.ready, ?_, hg.covered, hg.goals⟩
        rw [Generator.isChanged, hg.constr_mng]
        rfl
  | resetCoverage hmade hpartitions hunchanged result h =>
      exact Generator.fresh_resetCoverage (hinv.standing i) hmade hpartitions hunchanged h
  | update hchanged result h => exact Generator.fresh_update (hinv.standing i) hchanged h

end RandObjs

/-- When every call of `nextCov` since a reset was conclusive and the generator says that it is
covered, every goal that can hold together with the hard constraints holds in one of the
solutions since the reset. A goal of a hierarchy must have a name of its own. -/
theorem coverage_complete {env : Environment} {vcon : VariableContainer} (hsound : env.Sound)
    (hcomplete : env.Complete) :
    (forall (allowed : Generator.Operation -> Prop) (g g₀ g' : Generator) (w w₀ w' : World)
        (solutions : List (Generator × World)),
      Generator.Used env vcon allowed g w -> Generator.Reset env vcon g w g₀ w₀ ->
      Unwritten vcon g₀.built.support ->
      Generator.CoverageRun env vcon
        (Generator.Conclusive env vcon (scalarConstraints g.constr_mng_)) g₀ w₀ g' w'
        solutions ->
      g'.isCovered = true ->
      forall c, c ∈ scalarConstraints g.constr_mng_ -> c.cover_ = true ->
        Generator.SatisfiableWith vcon w₀.memory (scalarConstraints g.constr_mng_) c ->
          exists solution, solution ∈ solutions ∧ Generator.SolutionHolds vcon solution c) ∧
    (forall (s : RandObjs) (i : Nat) (cs : List UserConstraint) (g₀ g' : Generator)
        (w w₀ w' : World) (solutions : List (Generator × World)),
      RandObjs.Used env vcon s w -> RandObjs.ResetFor env vcon s i w cs g₀ w₀ ->
      Unwritten vcon g₀.built.support ->
      Generator.CoverageRun env vcon (Generator.Conclusive env vcon cs) g₀ w₀ g' w' solutions ->
      g'.isCovered = true ->
      forall c, c ∈ cs -> c.cover_ = true -> Generator.OwnName cs c ->
        Generator.SatisfiableWith vcon w₀.memory cs c ->
          exists solution, solution ∈ solutions ∧ Generator.SolutionHolds vcon solution c) := by
  constructor
  · intro allowed g g₀ g' w w₀ w' solutions h hreset hunwritten hrun hcovered c hc hcover hsat
    exact (hreset.fresh h.usedAlone).covered hsound hcomplete hunwritten hrun hcovered hc hcover
      (Generator.ownName_of_consistent h.standing.owned c) hsat
  · intro s i cs g₀ g' w w₀ w' solutions h hreset hunwritten hrun hcovered c hc hcover hown hsat
    exact (hreset.fresh h.invariant).covered hsound hcomplete hunwritten hrun hcovered hc hcover
      hown hsat

/-!
### Two goals of one hierarchy

A child and its parent have a goal each, over the same variable of one byte.
-/

/-- A backend that answers 7 or 5 where it can. -/
noncomputable def envGoals : Environment :=
  Environment.simple ((Oracle.ofModels [
    fun v => match v with | .terminal _ => 7 | .selector _ => 1,
    fun v => match v with | .terminal _ => 5 | .selector _ => 1]).orElse Oracle.ideal) id

theorem sound_envGoals : envGoals.Sound :=
  Oracle.orElse_sound (Oracle.ofModels_sound _) Oracle.ideal_sound

theorem complete_envGoals : envGoals.Complete := by
  constructor
  · exact Oracle.orElse_complete Oracle.ideal_complete
  · intro time assertions s _ hnone
    cases hnone

/-- `x == 5` -/
def isFiveToo : Node :=
  .binaryOpr .equalOpr (.variableExpr 1 8 false) (.constant ⟨5, 8, false⟩)

/-- The goals with the given names, gathered by the parent. -/
noncomputable def gathered (child parent : String) : RandObjs × World :=
  let s := (RandObjs.empty.rand_obj none).rand_obj (some 0)
  let (_, s, w) := s.perform envGoals RandObjs.vconFamily RandObjs.worldFamily
    (.constraint 1 (.makeConstraint (some child) RandObjs.isSeven false true))
  (s.perform envGoals RandObjs.vconFamily w
    (.constraint 0 (.makeConstraint (some parent) isFiveToo false true))).2

theorem used_gathered (child parent : String) :
    RandObjs.Used envGoals RandObjs.vconFamily (gathered child parent).1
      (gathered child parent).2 :=
  .perform (.perform (.perform (.perform (.empty RandObjs.worldFamily)
    (.rand_obj none) trivial _ rfl) (.rand_obj (some 0)) trivial _ rfl)
    (.constraint 1 (.makeConstraint (some child) RandObjs.isSeven false true))
      ⟨rfl, by decide, by decide, by decide⟩ _ rfl)
    (.constraint 0 (.makeConstraint (some parent) isFiveToo false true))
      ⟨rfl, by decide, by decide, by decide⟩ _ rfl

/-- The generator of the parent when the solvers have been built. -/
noncomputable def rebuilt (child parent : String) : Generator × World :=
  let after := ((gathered child parent).1.rebuild envGoals RandObjs.vconFamily 0
    (gathered child parent).2).2
  (after.1.constraint 0, after.2)

theorem resetFor_gathered (child parent : String)
    (hrequested : (gathered child parent).1.rebuild_ 0 = true) :
    RandObjs.ResetFor envGoals RandObjs.vconFamily (gathered child parent).1 0
      (gathered child parent).2 ((gathered child parent).1.subtreeScalars 0)
      (rebuilt child parent).1 (rebuilt child parent).2 :=
  RandObjs.ResetFor.rebuild hrequested _ rfl

/-- The states after some calls of `nextCov`. -/
noncomputable def afterCalls (start : Generator × World) : Nat -> Generator × World
  | 0 => start
  | n + 1 =>
      (Generator.nextCov envGoals RandObjs.vconFamily (afterCalls start n).1
        (afterCalls start n).2).2

/-- The solutions of these calls, when they all return true. -/
noncomputable def solutionsOf (start : Generator × World) : Nat -> List (Generator × World)
  | 0 => []
  | n + 1 => afterCalls start (n + 1) :: solutionsOf start n

theorem run_afterCalls {start : Generator × World} {ok : Generator -> World -> Prop} {n : Nat}
    (hok : forall k, k < n -> ok (afterCalls start k).1 (afterCalls start k).2)
    (hresult : forall k, k < n ->
      (Generator.nextCov envGoals RandObjs.vconFamily (afterCalls start k).1
        (afterCalls start k).2).1.toOption.any id = true) :
    Generator.CoverageRun envGoals RandObjs.vconFamily ok start.1 start.2
      (afterCalls start n).1 (afterCalls start n).2 (solutionsOf start n) := by
  induction n with
  | zero => exact Generator.CoverageRun.start
  | succ n ih =>
      have hrun := ih (fun k hk => hok k (Nat.lt_succ_of_lt hk))
        fun k hk => hresult k (Nat.lt_succ_of_lt hk)
      rcases exists_of_any (hresult n (Nat.lt_succ_self n)) with ⟨result, heq, htrue⟩
      exact hrun.nextCov (.ok true) (hok n (Nat.lt_succ_self n))
        (Prod.ext (heq.trans (congrArg Except.ok htrue)) rfl)

/-- The goals have solvers, and there is no vector that could fail. -/
def Plain (cs : List UserConstraint) (g : Generator) : Prop :=
  (forall c, c ∈ cs -> c.cover_ = true -> exists q, q ∈ g.built.goals ∧ c ∈ q.1.constraints_) ∧
    (g.to_be_generated_vec_ids_.isEmpty && g.vec_gen_.vector_solvers_.isEmpty) = true

instance (cs : List UserConstraint) (g : Generator) : Decidable (Plain cs g) := by
  unfold Plain
  infer_instance

theorem Plain.conclusive {env : Environment} {vcon : VariableContainer}
    {cs : List UserConstraint} {g : Generator} {w : World} (h : Plain cs g) :
    Generator.Conclusive env vcon cs g w := by
  rcases h with ⟨hgoals, hempty⟩
  rcases Bool.and_eq_true_iff.mp hempty with ⟨hids, hvectors⟩
  refine ⟨hgoals, Or.inr (Or.inr ⟨?_, ?_⟩)⟩
  · intro id hid
    rw [List.isEmpty_iff.mp hids] at hid
    cases hid
  · intro pair hpair
    rw [List.isEmpty_iff.mp hvectors] at hpair
    cases hpair

theorem satisfiableWith_seven {memory : Memory} {cs : List UserConstraint}
    (hhard : forall c, c ∈ cs -> c.isHard = false) {c : UserConstraint}
    (hc : NodeHolds (fun _ => 7) c.expr_) :
    Generator.SatisfiableWith RandObjs.vconFamily memory cs c := by
  exists fun _ => 7
  constructor
  · intro pair hpair
    cases hpair
  · constructor
    · intro d hd htrue
      rw [hhard d hd] at htrue
      cases htrue
    · exact hc

/-- Both goals in a generator that is used alone. -/
noncomputable def alone : Generator × World :=
  let (_, g, w) := Generator.perform envGoals RandObjs.vconFamily Generator.new RandObjs.worldFamily
    (.makeConstraint (some "seven") RandObjs.isSeven false true)
  (Generator.perform envGoals RandObjs.vconFamily g w
    (.makeConstraint (some "five") isFiveToo false true)).2

theorem used_alone :
    Generator.Used envGoals RandObjs.vconFamily (fun _ => True) alone.1 alone.2 :=
  .perform (.perform (.new RandObjs.worldFamily)
    (.makeConstraint (some "seven") RandObjs.isSeven false true)
      ⟨rfl, by decide, by decide, by decide⟩ trivial _ rfl)
    (.makeConstraint (some "five") isFiveToo false true) ⟨rfl, by decide, by decide, by decide⟩
      trivial _ rfl

/-- The generator that is used alone when the solvers have been built. -/
noncomputable def updated : Generator × World :=
  (Generator.update envGoals RandObjs.vconFamily alone.1 alone.2).2

/-- Goals with different names are both hit, by a generator that is used alone and by one that
gathers. -/
theorem coverage_complete_goals :
    (exists solution, solution ∈ solutionsOf updated 3 ∧
      HoldsIn RandObjs.vconFamily solution.2.memory solution.1.answered
        ((scalarConstraints alone.1.constr_mng_).head (by decide +kernel))) ∧
    (exists solution, solution ∈ solutionsOf (rebuilt "seven" "five") 3 ∧
      HoldsIn RandObjs.vconFamily solution.2.memory solution.1.answered
        ((scalarConstraints ((gathered "seven" "five").1.constraint 1).constr_mng_).head
          (by decide +kernel))) := by
  constructor
  · have hreset : Generator.Reset envGoals RandObjs.vconFamily alone.1 alone.2 updated.1
        updated.2 := Generator.Reset.update (by decide +kernel) _ rfl
    have hresults : forall k, k < 3 ->
        (Generator.nextCov envGoals RandObjs.vconFamily (afterCalls updated k).1
          (afterCalls updated k).2).1.toOption.any id = true := by
      decide +kernel
    have hplain : forall k, k < 3 ->
        Plain (scalarConstraints alone.1.constr_mng_) (afterCalls updated k).1 := by
      decide +kernel
    have hhard : forall c, c ∈ scalarConstraints alone.1.constr_mng_ -> c.isHard = false := by
      decide +kernel
    exact (coverage_complete sound_envGoals complete_envGoals).left _ _ _ _ _ _ _ _
      used_alone hreset (RandObjs.unwritten_vconFamily _)
      (run_afterCalls (fun k hk => (hplain k hk).conclusive) hresults)
      (by decide +kernel) _
      (List.head_mem _) (by decide +kernel)
      (satisfiableWith_seven hhard (by decide +kernel))
  · have hreset := resetFor_gathered "seven" "five" (by decide +kernel)
    have hresults : forall k, k < 3 ->
        (Generator.nextCov envGoals RandObjs.vconFamily (afterCalls (rebuilt "seven" "five") k).1
          (afterCalls (rebuilt "seven" "five") k).2).1.toOption.any id = true := by
      decide +kernel
    have hplain : forall k, k < 3 ->
        Plain ((gathered "seven" "five").1.subtreeScalars 0)
          (afterCalls (rebuilt "seven" "five") k).1 := by
      decide +kernel
    have hhard : forall c, c ∈ (gathered "seven" "five").1.subtreeScalars 0 ->
        c.isHard = false := by
      decide +kernel
    have hnames : (((gathered "seven" "five").1.subtreeScalars 0).map
        UserConstraint.name_).Nodup := by
      decide +kernel
    have hmade := (used_gathered "seven" "five").invariant.wellMade 0
    exact (coverage_complete sound_envGoals complete_envGoals).right _ _ _ _ _ _ _ _ _
      (used_gathered "seven" "five") hreset (RandObjs.unwritten_vconFamily _)
      (run_afterCalls (fun k hk => (hplain k hk).conclusive) hresults)
      (by decide +kernel) _ (by decide +kernel) (by decide +kernel)
      (Generator.ownName_of_nodup hmade hnames _)
      (satisfiableWith_seven hhard (by decide +kernel))

/-- The goal of the child is not covered, as it has the name of the goal of its parent. -/
theorem goal_shadowed :
    ¬ forall (env : Environment) (vcon : VariableContainer) (s : RandObjs) (i : Nat)
        (cs : List UserConstraint) (g₀ g' : Generator) (w w₀ w' : World)
        (solutions : List (Generator × World)),
      env.Sound -> env.Complete -> (forall support, Unwritten vcon support) ->
      RandObjs.Used env vcon s w -> RandObjs.ResetFor env vcon s i w cs g₀ w₀ ->
      Generator.CoverageRun env vcon (fun _ _ => True) g₀ w₀ g' w' solutions ->
      g'.isCovered = true ->
      forall c, c ∈ cs -> c.cover_ = true ->
        Generator.SatisfiableWith vcon w₀.memory cs c ->
          exists solution, solution ∈ solutions ∧ Generator.SolutionHolds vcon solution c := by
  intro hclaim
  have hreset := resetFor_gathered "goal" "goal" (by decide +kernel)
  have hresults : forall k, k < 2 ->
      (Generator.nextCov envGoals RandObjs.vconFamily (afterCalls (rebuilt "goal" "goal") k).1
        (afterCalls (rebuilt "goal" "goal") k).2).1.toOption.any id = true := by
    decide +kernel
  have hrun := @run_afterCalls (rebuilt "goal" "goal") (fun _ _ => True) 2
    (fun _ _ => trivial) hresults
  have hcovered : (afterCalls (rebuilt "goal" "goal") 2).1.isCovered = true := by
    decide +kernel
  have hhard : forall c, c ∈ (gathered "goal" "goal").1.subtreeScalars 0 -> c.isHard = false := by
    decide +kernel
  let c := (scalarConstraints ((gathered "goal" "goal").1.constraint 1).constr_mng_).head
    (by decide +kernel)
  have hc : c ∈ (gathered "goal" "goal").1.subtreeScalars 0 := by
    decide +kernel
  have hseven : NodeHolds (fun _ => 7) c.expr_ := by
    decide +kernel
  rcases hclaim envGoals RandObjs.vconFamily _ _ _ _ _ _ _ _ _ sound_envGoals complete_envGoals
    RandObjs.unwritten_vconFamily (used_gathered "goal" "goal") hreset hrun hcovered c hc
    (by decide +kernel) (satisfiableWith_seven hhard hseven) with ⟨solution, hmem, hholds⟩
  have hfails : forall solution, solution ∈ solutionsOf (rebuilt "goal" "goal") 2 ->
      ¬ HoldsIn RandObjs.vconFamily solution.2.memory solution.1.answered c := by
    intro solution hsolution
    cases List.mem_cons.mp hsolution with
    | inl hsecond =>
        rw [hsecond]
        decide +kernel
    | inr hrest =>
        rw [List.mem_singleton.mp hrest]
        decide +kernel
  exact hfails solution hmem hholds

end Frontend
end Crave
