import Crave.Backend.UsedGenerators

/-!
# Generators after an exception

A rebuild forgets that the constraints changed before it builds the solvers. When a
partition cannot be built, only the solvers of the partitions before it are there, and
the later calls use just these.
-/

namespace Crave
namespace Backend
namespace Generator

open Foundation Ir
open VectorGenerator (contents)

section Exceptions

variable {env : Environment} {vcon : VariableContainer} {g g' : Generator} {w w' : World}

/-!
## What no call changes
-/

theorem constr_mng_solveVectors {var_gen : List VariableSolver} {result : Except String Bool}
    (h : solveVectors env var_gen g w = (result, g', w')) : g'.constr_mng_ = g.constr_mng_ := by
  unfold solveVectors at h
  split at h
  · cases h
    rfl
  · cases h
    rfl

theorem constr_mng_solve {result : Except String Bool} (h : solve env g w = (result, g', w')) :
    g'.constr_mng_ = g.constr_mng_ := by
  unfold solve at h
  split at h
  · cases h
    rfl
  · cases h
    rfl
  · exact (constr_mng_solveVectors h).trans rfl

theorem constr_mng_solveCoverage {result : Except String Bool}
    (h : solveCoverage env g w = (result, g', w')) : g'.constr_mng_ = g.constr_mng_ := by
  unfold solveCoverage at h
  split at h
  · cases h
    rfl
  · cases h
    rfl
  · exact (constr_mng_solveVectors h).trans rfl

theorem constraints_update {result : Except String Unit}
    (h : update env vcon g w = (result, g', w')) :
    g'.constr_mng_.constraints_ = g.constr_mng_.constraints_ := by
  unfold update at h
  split at h
  · simp only [rebuild, if_true] at h
    split at h
    · cases h
      rfl
    · cases h
      rfl
  · cases h
    rfl

theorem constraints_next {result : Except String Bool}
    (h : next env vcon g w = (result, g', w')) :
    g'.constr_mng_.constraints_ = g.constr_mng_.constraints_ := by
  unfold next at h
  split at h
  · next hupdate =>
      cases h
      exact constraints_update hupdate
  · next hupdate => rw [constr_mng_solve h, constraints_update hupdate]

/-- Whatever its outcome, a call leaves the constraints that were made. -/
theorem constraints_nextCov {result : Except String Bool}
    (h : nextCov env vcon g w = (result, g', w')) :
    g'.constr_mng_.constraints_ = g.constr_mng_.constraints_ := by
  unfold nextCov at h
  split at h
  · next hupdate =>
      cases h
      exact constraints_update hupdate
  · next hupdate =>
      rw [← constraints_update hupdate]
      split at h
      · exact constraints_next h
      · split at h
        · next hsolve =>
            cases h
            rw [constr_mng_solveCoverage hsolve]
        · next hsolve =>
            cases h
            rw [constr_mng_solveCoverage hsolve]
        · next hsolve => rw [constraints_next h, constr_mng_solveCoverage hsolve]

/-!
## What is solved
-/

def HardVectorsIn (cs : List UserConstraint) (vec_gen_ : VectorGenerator) : Prop :=
  forall c, c ∈ cs -> c.isHard = true ->
    exists pair, pair ∈ vec_gen_.vector_solvers_ ∧ c ∈ pair.2.constraints_

/-- Every enabled hard constraint is in one of the partitions or with the solver of a
vector. -/
def NothingLeftOut (ps : List ConstraintPartition) (g : Generator) : Prop :=
  HardsIn (scalarConstraints g.constr_mng_) ps ∧
    HardVectorsIn (vectorConstraints g.constr_mng_) g.vec_gen_

/-- When a partition cannot be built, no enabled hard constraint is in it or behind
it, and the vector solvers that are there have the enabled hard vector constraints. -/
def Meets (env : Environment) (vcon : VariableContainer) (g : Generator) : Prop :=
  let ps := unbuilt env vcon (ConstraintPartitioner.partition (scalarConstraints g.constr_mng_))
  g.isChanged = true -> ps ≠ [] ->
    (forall p, p ∈ ps -> forall c, c ∈ p.constraints_ -> c.isHard = false) ∧
      HardVectorsIn (vectorConstraints g.constr_mng_) g.vec_gen_

/-- The operations that change the set of enabled constraints. -/
def Operation.Changes : Operation -> Prop
  | .makeConstraint _ _ _ _ => True
  | .enableConstraint _ => True
  | .disableConstraint _ => True
  | _ => False

/-- Calls of `next` and `nextCov` that may throw, with any changes of the constraints
between them. -/
inductive Called (env : Environment) (vcon : VariableContainer) : Generator -> World -> Prop where
  | start {g : Generator} {w : World} (h : Reachable env vcon g w) : Called env vcon g w
  | next {g g' : Generator} {w w' : World} (before : Called env vcon g w) (meets : Meets env vcon g)
      (result : Except String Bool) (h : next env vcon g w = (result, g', w')) :
      Called env vcon g' w'
  | nextCov {g g' : Generator} {w w' : World} (before : Called env vcon g w)
      (meets : Meets env vcon g) (result : Except String Bool)
      (h : nextCov env vcon g w = (result, g', w')) : Called env vcon g' w'
  | change {g g' : Generator} {w w' : World} (before : Called env vcon g w) (op : Operation)
      (changes : op.Changes) (hover : op.Over vcon) (result : Except String Bool)
      (h : perform env vcon g w op = (result, g', w')) : Called env vcon g' w'
  | outside {g : Generator} {w w' : World} (before : Called env vcon g w)
      (h : w.constraint_ID ≤ w'.constraint_ID) : Called env vcon g w'

/-!
## The invariant
-/

/-- The solvers are for partitions that have all enabled hard constraints; the coverage
solvers may be missing altogether. -/
structure Partly (g : Generator) : Prop where
  var_gen : HardsIn (scalarConstraints g.constr_mng_) g.built.partitions
  var_cov_gen : g.var_cov_gen_.solvers_ = [] ∨ HardsIn (scalarConstraints g.constr_mng_)
    (VariableCoverageGenerator.partitionsOf g.var_cov_gen_.solvers_)
  vec_gen : HardVectorsIn (vectorConstraints g.constr_mng_) g.vec_gen_

structure Usable (vcon : VariableContainer) (g : Generator) (w : World) : Prop where
  standing : Standing vcon g w
  solvers : g.isChanged = false -> Partly g

theorem hardVectorsIn_of_contents {cs : List UserConstraint} {vec_gen_ vec_gen' : VectorGenerator}
    (h : contents vec_gen'.vector_solvers_ = contents vec_gen_.vector_solvers_)
    (hin : HardVectorsIn cs vec_gen_) : HardVectorsIn cs vec_gen' := by
  intro c hc hhard
  rcases hin c hc hhard with ⟨pair, hpair, hmem⟩
  have hentry : (pair.1, pair.2.vector_id_, pair.2.constraints_) ∈
      contents vec_gen'.vector_solvers_ := by
    rw [h]
    exact List.mem_map_of_mem hpair
  rcases List.mem_map.mp hentry with ⟨pair', hpair', heq⟩
  refine ⟨pair', hpair', ?_⟩
  have hconstraints : pair'.2.constraints_ = pair.2.constraints_ := by
    injection heq with _ h
    injection h
  rw [hconstraints]
  exact hmem

theorem hardVectorsIn_reset (vecs : List UserConstraint) :
    HardVectorsIn vecs (VectorGenerator.reset vecs) := by
  intro c hc _
  rcases List.mem_flatten.mp ((reset_perm vecs).mem_iff.mpr hc) with ⟨cs, hcs, hmem⟩
  rcases List.mem_map.mp hcs with ⟨pair, hpair, rfl⟩
  exact ⟨pair, hpair, hmem⟩

/-!
## Building
-/

theorem HardsIn.upTo {cs : List UserConstraint} {ps qs : List ConstraintPartition}
    (h : HardsIn cs ps) (hqs : UpTo env vcon ps qs)
    (hnone : forall p, p ∈ unbuilt env vcon ps ->
      forall c, c ∈ p.constraints_ -> c.isHard = false) :
    HardsIn cs qs := by
  intro c hc hhard
  rcases h c hc hhard with ⟨p, hp, hmem⟩
  rcases hqs with ⟨rest, rfl, hrest⟩
  cases List.mem_append.mp hp with
  | inl hp => exact ⟨p, hp, hmem⟩
  | inr hp =>
      have hsoft := hnone p (mem_unbuilt_append hrest hp) c hmem
      rw [hhard] at hsoft
      cases hsoft

/-- A rebuild leaves solvers for the enabled hard constraints, also when it throws. -/
theorem partly_rebuild (h : Standing vcon g w) (hchanged : g.isChanged = true)
    (hmeets : Meets env vcon g) {result : Except String Unit}
    (hrebuild : rebuild env vcon true (reset env vcon g) w = (result, g', w')) : Partly g' := by
  have hrebuilt := rebuilt_self h hrebuild
  have hin := hardsIn_partition h.owned.scalars
  have hsame : scalarConstraints g'.constr_mng_ = scalarConstraints g.constr_mng_ ∧
      vectorConstraints g'.constr_mng_ = vectorConstraints g.constr_mng_ := by
    rw [hrebuilt.constr_mng]
    exact ⟨rfl, rfl⟩
  rcases hrebuilt.outcome with ⟨hall, hvectors, hcovers⟩ | ⟨hunbuilt, hvectors, hnone⟩
  · constructor
    · rw [hsame.left, hall]
      exact hin
    · apply Or.inr
      rw [hsame.left]
      apply hin.upTo hcovers
      intro p hp
      exact (hmeets hchanged fun hnil => by rw [hnil] at hp; cases hp).left p hp
    · rw [hsame.right, hvectors]
      exact hardVectorsIn_reset _
  · have hcondition := hmeets hchanged hunbuilt
    constructor
    · rw [hsame.left]
      exact hin.upTo hrebuilt.upTo hcondition.left
    · exact Or.inl hnone
    · rw [hsame.right, hvectors]
      exact hcondition.right

theorem partly_update (h : Usable vcon g w) (hmeets : Meets env vcon g)
    {result : Except String Unit} (hupdate : update env vcon g w = (result, g', w')) :
    Partly g' ∧ g'.isChanged = false := by
  unfold update at hupdate
  split at hupdate
  · next hchanged =>
      refine ⟨partly_rebuild h.standing hchanged hmeets hupdate, ?_⟩
      rw [isChanged, (rebuilt_self h.standing hupdate).constr_mng]
      rfl
  · next hchanged =>
      cases hupdate
      have hfalse := Bool.eq_false_iff.mpr hchanged
      exact ⟨h.solvers hfalse, hfalse⟩

/-!
## Solving
-/

/-- Solving keeps the partitions of the solvers, and the constraints of the vectors. -/
theorem Partly.solved (h : Partly g) (hsolved : Solved vcon g g' w w') : Partly g' := by
  constructor
  · rw [hsolved.constr_mng, hsolved.partitions]
    exact h.var_gen
  · rw [hsolved.constr_mng, hsolved.covers]
    cases h.var_cov_gen with
    | inl hnone =>
        apply Or.inl
        have hcovers := hsolved.covers
        rw [hnone] at hcovers
        exact List.map_eq_nil_iff.mp hcovers
    | inr hin => exact Or.inr hin
  · rw [hsolved.constr_mng]
    exact hardVectorsIn_of_contents hsolved.contents h.vec_gen

theorem solvers_of_hit (hsolve : solveCoverage env g w = (.ok true, g', w')) :
    g'.var_cov_gen_.solvers_ ≠ [] := by
  intro hempty
  unfold solveCoverage at hsolve
  split at hsolve
  · cases hsolve
  · cases hsolve
  · next var_cov_gen_ w₁ hvariables =>
      have hsame : g'.var_cov_gen_ = var_cov_gen_ := by
        unfold solveVectors at hsolve
        split at hsolve
        · cases hsolve
        · cases hsolve
          rfl
      rcases bind_eq_ok.mp hvariables with ⟨⟨r, solvers', w₂⟩, hfrom, hvariables⟩
      cases hvariables
      rw [hsame] at hempty
      have hnone : solvers' = [] := hempty
      rw [hnone] at hfrom
      cases hsolvers : g.var_cov_gen_.solvers_ with
      | nil =>
          rw [hsolvers] at hfrom
          cases hfrom
      | cons vs rest =>
          rw [hsolvers] at hfrom
          rcases bind_eq_ok.mp hfrom with ⟨⟨hit, vs', w₃⟩, _, hfrom⟩
          rcases bind_eq_ok.mp hfrom with ⟨⟨res, rest', w₄⟩, _, hfrom⟩
          injection hfrom with hpair
          injection hpair with _ hpair
          injection hpair with hlist _
          cases hlist

/-!
## Calls
-/

/-- What a call leaves: solvers, and constraints that have not changed since. -/
structure Left (vcon : VariableContainer) (g' : Generator) (w' : World) : Prop where
  standing : Standing vcon g' w'
  partly : Partly g'
  unchanged : g'.isChanged = false

theorem Left.solved (h : Left vcon g w) (hsolved : Solved vcon g g' w w') : Left vcon g' w' := by
  refine ⟨hsolved.standing h.standing, h.partly.solved hsolved, ?_⟩
  rw [Generator.isChanged, hsolved.constr_mng]
  exact h.unchanged

theorem Left.usable (h : Left vcon g w) : Usable vcon g w :=
  ⟨h.standing, fun _ => h.partly⟩

theorem Left.setCovered (h : Left vcon g w) (covered : Bool) :
    Left vcon { g with covered_ := covered } w :=
  ⟨h.standing.setCovered covered, ⟨h.partly.var_gen, h.partly.var_cov_gen, h.partly.vec_gen⟩,
    h.unchanged⟩

theorem left_update (h : Usable vcon g w) (hmeets : Meets env vcon g)
    {result : Except String Unit} (hupdate : update env vcon g w = (result, g', w')) :
    Left vcon g' w' := by
  rcases partly_update h hmeets hupdate with ⟨hpartly, hunchanged⟩
  exact ⟨((stable_standing env vcon g w).update ⟨h.standing, Numbering.refl g w⟩ hupdate).left,
    hpartly, hunchanged⟩

theorem left_next (h : Usable vcon g w) (hmeets : Meets env vcon g) {result : Except String Bool}
    (hnext : next env vcon g w = (result, g', w')) : Left vcon g' w' := by
  unfold next at hnext
  split at hnext
  · next hupdate =>
      cases hnext
      exact left_update h hmeets hupdate
  · next hupdate =>
      have hleft := left_update h hmeets hupdate
      exact hleft.solved (solved_solve hleft.standing.ready hnext)

theorem solved_next (h : Left vcon g w) {result : Except String Bool}
    (hnext : next env vcon g w = (result, g', w')) : Solved vcon g g' w w' := by
  rw [next_of_unchanged h.unchanged] at hnext
  exact solved_solve h.standing.ready hnext

/-- A call of `nextCov` that ends with `covered_` unset has hit a goal, or thrown. -/
theorem left_nextCov (h : Usable vcon g w) (hmeets : Meets env vcon g) {result : Except String Bool}
    (hnext : nextCov env vcon g w = (result, g', w')) :
    Left vcon g' w' ∧ (result = .ok true -> g'.covered_ = false ->
      g'.var_cov_gen_.solvers_ ≠ []) := by
  unfold nextCov at hnext
  split at hnext
  · next e g₁ w₁ hupdate =>
      cases hnext
      exact ⟨left_update h hmeets hupdate, fun hresult => by cases hresult⟩
  · next g₁ w₁ hupdate =>
      have hleft := left_update h hmeets hupdate
      split at hnext
      · next hcovered =>
          have hsolved := solved_next hleft hnext
          refine ⟨hleft.solved hsolved, ?_⟩
          intro _ hunset
          rw [hsolved.covered, hcovered] at hunset
          cases hunset
      · split at hnext
        · next e g₂ w₂ hsolve =>
            cases hnext
            exact ⟨hleft.solved (solved_solveCoverage hleft.standing.ready hsolve),
              fun hresult => by cases hresult⟩
        · next g₂ w₂ hsolve =>
            cases hnext
            refine ⟨hleft.solved (solved_solveCoverage hleft.standing.ready hsolve), ?_⟩
            intro _ _
            exact solvers_of_hit hsolve
        · next g₂ w₂ hsolve =>
            have hleft₂ := (hleft.solved (solved_solveCoverage hleft.standing.ready
              hsolve)).setCovered true
            have hfinal := solved_next hleft₂ hnext
            refine ⟨hleft₂.solved hfinal, ?_⟩
            intro _ hunset
            rw [hfinal.covered] at hunset
            cases hunset

theorem Usable.mono (h : Usable vcon g w) (hle : w.constraint_ID ≤ w'.constraint_ID) :
    Usable vcon g w' :=
  ⟨h.standing.mono hle, h.solvers⟩

/-- A change of the constraints either is none or is remembered. -/
theorem usable_change (h : Usable vcon g w) {op : Operation} (hchanges : op.Changes)
    (hover : op.Over vcon) {result : Except String Bool}
    (hperform : perform env vcon g w op = (result, g', w')) : Usable vcon g' w' := by
  refine ⟨(standing_perform h.standing hover hperform).left, ?_⟩
  have hset : forall {mng' : ConstraintManager} {enabled}, (mng' = g.constr_mng_ ∨
      exists i c, g.constr_mng_.constraints_[i]? = some c ∧
        mng' = g.constr_mng_.setEnabled i c enabled) ->
      ({ g with constr_mng_ := mng' } : Generator).isChanged = false ->
        Partly { g with constr_mng_ := mng' } := by
    intro mng' enabled hcases hunchanged
    rcases hcases with rfl | ⟨i, c, hc, rfl⟩
    · exact h.solvers hunchanged
    · cases hunchanged
  cases op with
  | makeConstraint name e soft cover =>
      rcases exists_outcome hperform with ⟨outcome, hmake⟩
      cases outcome with
      | error what =>
          rcases makeConstraint_error hmake with ⟨rfl, rfl⟩
          exact h.solvers
      | ok u =>
          rcases makeConstraint_ok hmake with ⟨mng', hmng, rfl, rfl⟩
          rcases ConstraintManager.makeConstraint_spec hmng with ⟨_, c, hmng', _⟩
          intro hunchanged
          rw [hmng'] at hunchanged
          cases hunchanged
  | enableConstraint name =>
      cases hperform
      exact hset (ConstraintManager.enableConstraint_cases g.constr_mng_ name)
  | disableConstraint name =>
      cases hperform
      exact hset (ConstraintManager.disableConstraint_cases g.constr_mng_ name)
  | next => cases hchanges
  | nextCov => cases hchanges
  | resetCoverage => cases hchanges
  | enable_multithreading => cases hchanges

theorem usable_of_invariant (hstanding : Standing vcon g w) (h : Invariant vcon g w) :
    Usable vcon g w := by
  refine ⟨hstanding, fun hunchanged => ?_⟩
  have hbuilt := h.cached hunchanged
  have hin := hardsIn_partition h.owned.scalars
  rw [← hbuilt.partitions] at hin
  constructor
  · have hsame := VariableGenerator.partitionsOf_built hbuilt.var_gen
    rw [built, hsame]
    exact hin
  · apply Or.inr
    rw [VariableCoverageGenerator.partitionsOf_built hbuilt.var_cov_gen]
    exact hin
  · exact hardVectorsIn_of_contents hbuilt.vec_gen (hardVectorsIn_reset _)

theorem Called.usable (h : Called env vcon g w) : Usable vcon g w := by
  induction h with
  | start h => exact usable_of_invariant h.standing h.invariant
  | next _ meets result h ih => exact (left_next ih meets h).usable
  | nextCov _ meets result h ih => exact (left_nextCov ih meets h).left.usable
  | change _ op changes hover result h ih => exact usable_change ih changes hover h
  | outside _ h ih => exact ih.mono h

/-!
## What the calls solve
-/

theorem Left.nothingLeftOut (h : Left vcon g w) :
    NothingLeftOut (g.var_gen_.solvers_.map fun vs => vs.constr_pttn_) g :=
  ⟨h.partly.var_gen, h.partly.vec_gen⟩

theorem Left.nothingLeftOut_coverage (h : Left vcon g w) (hsolvers : g.var_cov_gen_.solvers_ ≠ []) :
    NothingLeftOut (g.var_cov_gen_.solvers_.map fun vs => vs.constr_pttn_) g :=
  ⟨h.partly.var_cov_gen.resolve_left hsolvers, h.partly.vec_gen⟩

/-- In every sequence of calls that meet the condition, a call that returns true leaves
no enabled hard constraint out: `next` runs the solvers of the variables, and so does
`nextCov` unless it hits a goal, with `covered_` still unset. -/
theorem nothing_left_out (h : Called env vcon g w) (hmeets : Meets env vcon g) :
    (forall g' w', next env vcon g w = (.ok true, g', w') ->
        NothingLeftOut (g'.var_gen_.solvers_.map fun vs => vs.constr_pttn_) g') ∧
      forall g' w', nextCov env vcon g w = (.ok true, g', w') ->
        if g'.covered_ then NothingLeftOut (g'.var_gen_.solvers_.map fun vs => vs.constr_pttn_) g'
        else NothingLeftOut (g'.var_cov_gen_.solvers_.map fun vs => vs.constr_pttn_) g' := by
  constructor
  · intro g' w' hnext
    exact (left_next h.usable hmeets hnext).nothingLeftOut
  · intro g' w' hnext
    rcases left_nextCov h.usable hmeets hnext with ⟨hleft, hhit⟩
    split
    · exact hleft.nothingLeftOut
    · next hunset =>
        exact hleft.nothingLeftOut_coverage (hhit rfl (by simpa using hunset))

/-!
### A constraint over a whole vector
-/

/-- The first call throws, and the second one returns true without a solver for the
constraint. -/
theorem hard_left_out :
    ¬ forall (env : Environment) (vcon : VariableContainer) (g g₁ g₂ : Generator)
        (w w₁ w₂ : World) (e : String), Reachable env vcon g w ->
      next env vcon g w = (.error e, g₁, w₁) -> next env vcon g₁ w₁ = (.ok true, g₂, w₂) ->
        NothingLeftOut (g₂.var_gen_.solvers_.map fun vs => vs.constr_pttn_) g₂ := by
  intro h
  let made := perform envZero vconVector Generator.new worldZero
    (.makeConstraint (some "c") wholeVector false false)
  have hreachable : Reachable envZero vconVector made.2.1 made.2.2 :=
    .step (.new worldZero) (.perform (.makeConstraint (some "c") wholeVector false false) true
      ⟨rfl, rfl⟩ rfl)
  let first := next envZero vconVector made.2.1 made.2.2
  let second := next envZero vconVector first.2.1 first.2.2
  have htest : (first.1.toOption.isNone && second.1.toOption == some true &&
      second.2.1.var_gen_.solvers_.isEmpty &&
        (scalarConstraints second.2.1.constr_mng_).any UserConstraint.isHard) = true := by
    decide +kernel
  simp only [Bool.and_eq_true] at htest
  rcases htest with ⟨⟨⟨hfirst, hsecond⟩, hnone⟩, hhard⟩
  cases hcall : first.1 with
  | ok result =>
      rw [hcall] at hfirst
      cases hfirst
  | error e =>
      cases hcall' : second.1 with
      | error e' =>
          rw [hcall'] at hsecond
          cases hsecond
      | ok result =>
          rw [hcall'] at hsecond
          cases result with
          | false => cases hsecond
          | true =>
              have hall := (h envZero vconVector made.2.1 first.2.1 second.2.1 made.2.2 first.2.2
                second.2.2 e hreachable (Prod.ext hcall rfl) (Prod.ext hcall' rfl)).left
              rcases List.any_eq_true.mp hhard with ⟨c, hc, hhard⟩
              rcases hall c hc hhard with ⟨p, hp, _⟩
              rw [List.isEmpty_iff.mp hnone] at hp
              cases hp

instance (env : Environment) (vcon : VariableContainer) (g : Generator) :
    Decidable (Meets env vcon g) := by
  unfold Meets HardVectorsIn
  infer_instance

theorem nothing_left_out_soft :
    let hard : Node := .binaryOpr .equalOpr (.variableExpr 1 8 false) (.variableExpr 1 8 false)
    let g₁ := perform envZero vconVector Generator.new worldZero
      (.makeConstraint (some "hard") hard false false)
    let g₂ := perform envZero vconVector g₁.2.1 g₁.2.2
      (.makeConstraint (some "soft") wholeVector true false)
    let g₃ := next envZero vconVector g₂.2.1 g₂.2.2
    g₃.1.toOption = none ∧ (next envZero vconVector g₃.2.1 g₃.2.2).1.toOption = some true ∧
      forall g' w', next envZero vconVector g₃.2.1 g₃.2.2 = (.ok true, g', w') ->
        NothingLeftOut (g'.var_gen_.solvers_.map fun vs => vs.constr_pttn_) g' := by
  intro hard g₁ g₂ g₃
  have h₁ : Called envZero vconVector g₁.2.1 g₁.2.2 :=
    .change (.start (.new worldZero)) (.makeConstraint (some "hard") hard false false) trivial
      ⟨rfl, rfl⟩ g₁.1 rfl
  have h₂ : Called envZero vconVector g₂.2.1 g₂.2.2 :=
    .change h₁ (.makeConstraint (some "soft") wholeVector true false) trivial ⟨rfl, rfl⟩ g₂.1 rfl
  have h₃ : Called envZero vconVector g₃.2.1 g₃.2.2 :=
    .next h₂ (by decide +kernel) g₃.1 rfl
  refine ⟨by decide +kernel, by decide +kernel, ?_⟩
  exact (nothing_left_out h₃ (by decide +kernel)).left

end Exceptions

end Generator
end Backend
end Crave
