import Crave.Backend.GeneratorRuns
import Crave.Foundation.Countdown

/-!
# Coverage comes to an end

A call of `nextCov` that returns has hit a goal that was open before, or it makes the
generator count as covered. So the open goals of all partitions together count down, for
whatever answers the solvers give.
-/

namespace Crave
namespace Backend

open Foundation Ir

/-- The number of cover constraints in a list. -/
def goals (cs : List UserConstraint) : Nat :=
  cs.countP UserConstraint.cover_

theorem goals_append (cs ds : List UserConstraint) : goals (cs ++ ds) = goals cs + goals ds :=
  List.countP_append

theorem goals_perm {cs ds : List UserConstraint} (h : cs.Perm ds) : goals cs = goals ds :=
  h.countP_eq UserConstraint.cover_

/-!
## One partition
-/

namespace VariableCoverageSolver

def isOpen (covered_set_ : Finset String) (c : UserConstraint) : Bool :=
  c.cover_ && !decide (c.name_ ∈ covered_set_)

def openGoals (vs : VariableCoverageSolver) : Nat :=
  vs.constr_pttn_.constraints_.countP (isOpen vs.covered_set_)

theorem isOpen_insert {covered_set_ : Finset String} {name : String} {c : UserConstraint}
    (h : isOpen (insert name covered_set_) c = true) : isOpen covered_set_ c = true := by
  simp only [isOpen, Bool.and_eq_true, Bool.not_eq_true', decide_eq_false_iff_not,
    Finset.mem_insert, not_or] at h ⊢
  exact ⟨h.left, h.right.right⟩

/-- All goals with the name of the one that was hit are closed with it. -/
theorem countP_insert_lt {cs : List UserConstraint} {covered_set_ : Finset String}
    {c : UserConstraint} (hc : c ∈ cs) (hopen : isOpen covered_set_ c = true) :
    cs.countP (isOpen (insert c.name_ covered_set_)) < cs.countP (isOpen covered_set_) := by
  have hclosed : isOpen (insert c.name_ covered_set_) c = false := by
    simp [isOpen]
  induction cs with
  | nil => cases hc
  | cons d rest ih =>
      rw [List.countP_cons, List.countP_cons]
      cases List.mem_cons.mp hc with
      | inl heq =>
          have hle : rest.countP (isOpen (insert c.name_ covered_set_)) ≤
              rest.countP (isOpen covered_set_) :=
            List.countP_mono_left fun e _ => isOpen_insert
          rw [← heq, hclosed, hopen]
          simp only [Bool.false_eq_true, if_false, if_true]
          omega
      | inr hrest =>
          have hlt := ih hrest
          have hle : (if isOpen (insert c.name_ covered_set_) d = true then 1 else 0) ≤
              if isOpen covered_set_ d = true then 1 else 0 := by
            split
            · next hd => rw [if_pos (isOpen_insert hd)]
            · exact Nat.zero_le _
          omega

/-- A call that returns true covers the name of an open goal, and one that returns false
covers nothing. -/
theorem covered_of_solveFrom {env : Environment} {cs : List UserConstraint}
    {vs vs' : VariableCoverageSolver} {w w' : World} {result : Bool}
    (h : solveFrom env cs vs w = .ok (result, vs', w')) :
    vs'.constr_pttn_ = vs.constr_pttn_ ∧
      (result = true -> exists c, c ∈ cs ∧ isOpen vs.covered_set_ c = true ∧
        vs'.covered_set_ = insert c.name_ vs.covered_set_) ∧
      (result = false -> vs'.covered_set_ = vs.covered_set_) := by
  induction cs generalizing vs w with
  | nil =>
      cases h
      exact ⟨rfl, fun htrue => (by cases htrue), fun _ => rfl⟩
  | cons c rest ih =>
      have hlater : forall {vs₁ : VariableCoverageSolver} {w₁ : World},
          solveFrom env rest vs₁ w₁ = .ok (result, vs', w') ->
            vs₁.constr_pttn_ = vs.constr_pttn_ -> vs₁.covered_set_ = vs.covered_set_ ->
            vs'.constr_pttn_ = vs.constr_pttn_ ∧
              (result = true -> exists d, d ∈ c :: rest ∧ isOpen vs.covered_set_ d = true ∧
                vs'.covered_set_ = insert d.name_ vs.covered_set_) ∧
              (result = false -> vs'.covered_set_ = vs.covered_set_) := by
        intro vs₁ w₁ hrest hpttn hcovered
        rcases ih hrest with ⟨hpttn', hhit, hmissed⟩
        rw [hcovered] at hhit hmissed
        constructor
        · exact hpttn'.trans hpttn
        · constructor
          · intro htrue
            rcases hhit htrue with ⟨d, hd, hopen, hinsert⟩
            exact ⟨d, List.mem_cons_of_mem c hd, hopen, hinsert⟩
          · exact hmissed
      unfold solveFrom at h
      split at h
      · exact hlater h rfl rfl
      · next htried =>
          rcases bind_eq_ok.mp h with ⟨s, _, h⟩
          cases hsolve : s.solve env.solver env.random true w.time with
          | mk r p =>
              rcases p with ⟨s', time'⟩
              simp only [hsolve] at h
              cases r with
              | false =>
                  have hrest : solveFrom env rest { vs with solver_ := s' }
                      { w with time := time' } = .ok (result, vs', w') := h
                  exact hlater hrest rfl rfl
              | true =>
                  cases h
                  have hopen : isOpen vs.covered_set_ c = true := by
                    simpa [isOpen] using htried
                  constructor
                  · rfl
                  · constructor
                    · intro _
                      exact ⟨c, List.mem_cons_self, hopen, rfl⟩
                    · intro hfalse
                      cases hfalse

theorem openGoals_of_solve {env : Environment} {vs vs' : VariableCoverageSolver} {w w' : World}
    {result : Bool} (h : vs.solve env w = .ok (result, vs', w')) :
    vs'.openGoals + result.toNat ≤ vs.openGoals := by
  rcases covered_of_solveFrom h with ⟨hpttn, hhit, hmissed⟩
  unfold openGoals
  rw [hpttn]
  cases result with
  | true =>
      rcases hhit rfl with ⟨c, hc, hopen, hinsert⟩
      rw [hinsert]
      exact countP_insert_lt hc hopen
  | false =>
      rw [hmissed rfl]
      exact Nat.le_refl _

theorem openGoals_new {vcon : VariableContainer} {cp : ConstraintPartition}
    {vs : VariableCoverageSolver} (h : new env vcon cp = .ok vs) :
    vs.openGoals = goals cp.constraints_ := by
  rcases bind_eq_ok.mp h with ⟨vs₁, hnew, h⟩
  rcases bind_eq_ok.mp h with ⟨s₁, _, h⟩
  unfold VariableSolver.new at hnew
  split at hnew
  · cases hnew
    cases h
    show cp.constraints_.countP (isOpen ∅) = cp.constraints_.countP UserConstraint.cover_
    apply List.countP_congr
    intro c _
    simp [isOpen]
  · cases hnew

end VariableCoverageSolver

/-!
## All partitions
-/

namespace VariableCoverageGenerator

open VariableCoverageSolver (openGoals)

def openGoals (g : VariableCoverageGenerator) : Nat :=
  (g.solvers_.map VariableCoverageSolver.openGoals).sum

theorem openGoals_of_solveFrom {env : Environment} {solvers_ solvers' : List VariableCoverageSolver}
    {w w' : World} {result : Bool} (h : solveFrom env solvers_ w = .ok (result, solvers', w')) :
    (solvers'.map VariableCoverageSolver.openGoals).sum + result.toNat ≤
      (solvers_.map VariableCoverageSolver.openGoals).sum := by
  induction solvers_ generalizing solvers' w result with
  | nil =>
      cases h
      exact Nat.le_refl _
  | cons vs rest ih =>
      rcases bind_eq_ok.mp h with ⟨⟨hit, vs', w₁⟩, hhead, h⟩
      rcases bind_eq_ok.mp h with ⟨⟨res, rest', w₂⟩, htail, h⟩
      cases h
      have hfirst := VariableCoverageSolver.openGoals_of_solve hhead
      have hlater := ih htail
      have hor : (hit || res).toNat ≤ hit.toNat + res.toNat := by
        cases hit with
        | true => exact Nat.le_add_right 1 res.toNat
        | false => exact Nat.le_add_left res.toNat 0
      simp only [List.map_cons, List.sum_cons]
      omega

theorem openGoals_of_solve {env : Environment} {g g' : VariableCoverageGenerator} {w w' : World}
    {result : Bool} (h : g.solve env w = .ok (result, g', w')) :
    g'.openGoals + result.toNat ≤ g.openGoals := by
  rcases bind_eq_ok.mp h with ⟨⟨r, solvers', w₁⟩, hsolve, h⟩
  cases h
  exact openGoals_of_solveFrom hsolve

/-- A reset that throws has built the solvers up to some partition. -/
theorem openGoals_reset (env : Environment) (vcon : VariableContainer)
    (ps : List ConstraintPartition) :
    (reset env vcon ps).1.openGoals ≤ goals (ps.flatMap ConstraintPartition.constraints_) := by
  show ((createSolvers env vcon ps).1.map VariableCoverageSolver.openGoals).sum ≤ _
  induction ps with
  | nil => exact Nat.le_refl _
  | cons p rest ih =>
      rw [List.flatMap_cons, goals_append]
      unfold createSolvers
      split
      · exact Nat.zero_le _
      · next vs hnew =>
          have hfirst := VariableCoverageSolver.openGoals_new hnew
          simp only [List.map_cons, List.sum_cons]
          omega

end VariableCoverageGenerator

/-!
## Generators
-/

namespace Generator

/-- The goals that are open, when a rebuild that is due has been made. -/
def openGoals (g : Generator) : Nat :=
  if g.isChanged then goals (scalarConstraints g.constr_mng_) else g.var_cov_gen_.openGoals

/-- A change resets the coverage, so it is never due when everything is covered. -/
def CoverageDue (g : Generator) : Prop :=
  g.isChanged = true -> g.covered_ = false

/-- What every call of the generator leaves of the coverage. -/
structure CoverageKept (g g' : Generator) : Prop where
  unchanged : g'.isChanged = false
  constraints : g'.constr_mng_.constraints_ = g.constr_mng_.constraints_
  covered : g.CoverageDue -> g.covered_ = true -> g'.covered_ = true
  openGoals : g'.openGoals ≤ g.openGoals

section Calls

variable {env : Environment} {vcon : VariableContainer} {g g' : Generator} {w w' : World}

theorem CoverageKept.due (h : CoverageKept g g') : g'.CoverageDue := by
  intro hchanged
  rw [h.unchanged] at hchanged
  cases hchanged

theorem CoverageKept.trans {g₁ : Generator} (h : CoverageKept g g₁) (h' : CoverageKept g₁ g') :
    CoverageKept g g' := by
  constructor
  · exact h'.unchanged
  · exact h'.constraints.trans h.constraints
  · exact fun hdue hcovered => h'.covered h.due (h.covered hdue hcovered)
  · exact h'.openGoals.trans h.openGoals

theorem openGoals_of_unchanged (h : g.isChanged = false) :
    g.openGoals = g.var_cov_gen_.openGoals := by
  rw [openGoals, h]
  rfl

/-- A rebuild has opened the goals that were merged, as far as it has come. -/
theorem openGoals_rebuild {selfInclude : Bool} {outcome : Except String Unit}
    (h : rebuild env vcon selfInclude g w = (outcome, g', w')) :
    g'.constr_mng_ = g.constr_mng_ ∧ g'.covered_ = g.covered_ ∧
      (g'.var_cov_gen_ = g.var_cov_gen_ ∨ g'.var_cov_gen_.openGoals ≤
        goals ((if selfInclude then g.merge g else g).constr_pttn_.run.partitions_.flatMap
          ConstraintPartition.constraints_)) := by
  unfold rebuild at h
  have hmng : (if selfInclude then g.merge g else g).constr_mng_ = g.constr_mng_ ∧
      (if selfInclude then g.merge g else g).covered_ = g.covered_ ∧
      (if selfInclude then g.merge g else g).var_cov_gen_ = g.var_cov_gen_ := by
    cases selfInclude with
    | true => exact ⟨rfl, rfl, rfl⟩
    | false => exact ⟨rfl, rfl, rfl⟩
  generalize (if selfInclude then g.merge g else g) = merged at h hmng ⊢
  simp only at h
  split at h
  · cases h
    exact ⟨hmng.left, hmng.right.left, Or.inl hmng.right.right⟩
  · cases h
    exact ⟨hmng.left, hmng.right.left, Or.inr (VariableCoverageGenerator.openGoals_reset env vcon _)⟩

theorem coverageKept_update {outcome : Except String Unit}
    (h : update env vcon g w = (outcome, g', w')) : CoverageKept g g' := by
  unfold update at h
  split at h
  · next hchanged =>
      rcases openGoals_rebuild h with ⟨hmng, hcovered, hgoals⟩
      have hunchanged : g'.isChanged = false := by
        rw [isChanged, hmng]
        rfl
      have hall : g.openGoals = goals (scalarConstraints g.constr_mng_) := by
        rw [openGoals, hchanged]
        rfl
      constructor
      · exact hunchanged
      · rw [hmng]
        rfl
      · intro hdue htrue
        rw [hdue hchanged] at htrue
        cases htrue
      · rw [openGoals_of_unchanged hunchanged, hall]
        cases hgoals with
        | inl hsame =>
            rw [hsame]
            exact Nat.zero_le _
        | inr hle =>
            exact hle.trans (Nat.le_of_eq (goals_perm (ConstraintPartitioner.partition_perm _)))
  · next hunchanged =>
      cases h
      exact ⟨Bool.eq_false_iff.mpr hunchanged, rfl, fun _ => id, Nat.le_refl _⟩

theorem solveVectors_eq {var_gen : List VariableSolver} {outcome : Except String Bool}
    (h : solveVectors env var_gen g w = (outcome, g', w')) :
    g' = { g with vec_gen_ := g'.vec_gen_ } := by
  unfold solveVectors at h
  split at h
  · cases h
    rfl
  · cases h
    rfl

theorem solve_eq {outcome : Except String Bool} (h : solve env g w = (outcome, g', w')) :
    g' = { g with var_gen_ := g'.var_gen_, vec_gen_ := g'.vec_gen_ } := by
  unfold solve at h
  split at h
  · cases h
    rfl
  · cases h
    rfl
  · rw [solveVectors_eq h]

theorem coverageKept_solve (hunchanged : g.isChanged = false) {outcome : Except String Bool}
    (h : solve env g w = (outcome, g', w')) : CoverageKept g g' := by
  rw [solve_eq h]
  exact ⟨hunchanged, rfl, fun _ => id, Nat.le_refl _⟩

/-- Whether the vectors are solved or not, a goal that was hit is closed. -/
theorem coverageKept_solveCoverage (hunchanged : g.isChanged = false)
    {outcome : Except String Bool} (h : solveCoverage env g w = (outcome, g', w')) :
    CoverageKept g g' ∧ (outcome = .ok true -> g'.openGoals < g.openGoals) := by
  have hkept : forall {var_cov_gen_ : VariableCoverageGenerator} {vec_gen_ : VectorGenerator}
      {w₁ : World} {result : Bool}, g.var_cov_gen_.solve env w = .ok (result, var_cov_gen_, w₁) ->
        CoverageKept g { g with var_cov_gen_ := var_cov_gen_, vec_gen_ := vec_gen_ } ∧
          Generator.openGoals { g with var_cov_gen_ := var_cov_gen_, vec_gen_ := vec_gen_ } +
            result.toNat ≤ g.openGoals := by
    intro var_cov_gen_ vec_gen_ w₁ result hsolve
    have hle := VariableCoverageGenerator.openGoals_of_solve hsolve
    rw [← openGoals_of_unchanged hunchanged] at hle
    have heq := @openGoals_of_unchanged
      { g with var_cov_gen_ := var_cov_gen_, vec_gen_ := vec_gen_ } hunchanged
    rw [← heq] at hle
    constructor
    · exact ⟨hunchanged, rfl, fun _ => id, (Nat.le_add_right _ _).trans hle⟩
    · exact hle
  unfold solveCoverage at h
  split at h
  · cases h
    constructor
    · exact ⟨hunchanged, rfl, fun _ => id, Nat.le_refl _⟩
    · intro htrue
      cases htrue
  · next var_cov_gen_ w₁ hsolve =>
      cases h
      constructor
      · exact (hkept hsolve).left
      · intro htrue
        cases htrue
  · next var_cov_gen_ w₁ hsolve =>
      rw [solveVectors_eq h]
      constructor
      · exact (hkept hsolve).left
      · intro _
        exact (hkept hsolve).right

theorem coverageKept_next {outcome : Except String Bool}
    (h : next env vcon g w = (outcome, g', w')) : CoverageKept g g' := by
  unfold next at h
  split at h
  · next hupdate =>
      cases h
      exact coverageKept_update hupdate
  · next g₁ w₁ hupdate =>
      have hkept := coverageKept_update hupdate
      exact hkept.trans (coverageKept_solve hkept.unchanged h)

/-- A call of `nextCov` that returns has closed a goal, or everything counts as covered. -/
theorem coverageKept_nextCov {outcome : Except String Bool}
    (h : nextCov env vcon g w = (outcome, g', w')) :
    CoverageKept g g' ∧ (forall result, outcome = .ok result ->
      g'.covered_ = true ∨ g'.openGoals < g.openGoals) := by
  unfold nextCov at h
  split at h
  · next hupdate =>
      cases h
      constructor
      · exact coverageKept_update hupdate
      · intro result hok
        cases hok
  · next g₁ w₁ hupdate =>
      have hkept := coverageKept_update hupdate
      split at h
      · next hcovered =>
          have hnext := coverageKept_next h
          constructor
          · exact hkept.trans hnext
          · intro _ _
            exact Or.inl (hnext.covered hkept.due hcovered)
      · split at h
        · next hsolve =>
            cases h
            constructor
            · exact hkept.trans (coverageKept_solveCoverage hkept.unchanged hsolve).left
            · intro result hok
              cases hok
        · next hsolve =>
            cases h
            have hclosed := coverageKept_solveCoverage hkept.unchanged hsolve
            constructor
            · exact hkept.trans hclosed.left
            · intro _ _
              exact Or.inr ((hclosed.right rfl).trans_le hkept.openGoals)
        · next g₂ w₂ hsolve =>
            have hmissed := (coverageKept_solveCoverage hkept.unchanged hsolve).left
            have hset : CoverageKept g₂ { g₂ with covered_ := true } :=
              ⟨hmissed.unchanged, rfl, fun _ _ => rfl, Nat.le_refl _⟩
            have hnext := coverageKept_next h
            constructor
            · exact ((hkept.trans hmissed).trans hset).trans hnext
            · intro _ _
              exact Or.inl (hnext.covered hset.due rfl)

end Calls

/-!
## Runs after a reset of the coverage
-/

/-- The goals that a reset opens: those of the partitions, or of all enabled constraints
when a rebuild is due. -/
def coverGoals (g : Generator) : Nat :=
  if g.isChanged then
    goals (scalarConstraints g.constr_mng_)
  else
    goals (g.constr_pttn_.partitions_.flatMap ConstraintPartition.constraints_)

/-- Calls that leave the constraints as they are, and whatever else happens in the world. A
call of `nextCov` that throws is one that failed. -/
inductive CoverageCall where
  | nextCov
  | failed
  | next
  | outside

def CoverageCall.isNextCov : CoverageCall -> Bool
  | .nextCov => true
  | _ => false

inductive CoverageStep (env : Environment) (vcon : VariableContainer) :
    CoverageCall -> Generator × World -> Generator × World -> Prop where
  | nextCov {g g' : Generator} {w w' : World} (result : Bool)
      (h : Generator.nextCov env vcon g w = (.ok result, g', w')) :
      CoverageStep env vcon .nextCov (g, w) (g', w')
  | failed {g g' : Generator} {w w' : World} (what : String)
      (h : Generator.nextCov env vcon g w = (.error what, g', w')) :
      CoverageStep env vcon .failed (g, w) (g', w')
  | next {g g' : Generator} {w w' : World} (outcome : Except String Bool)
      (h : Generator.next env vcon g w = (outcome, g', w')) :
      CoverageStep env vcon .next (g, w) (g', w')
  | outside (g : Generator) (w w' : World) : CoverageStep env vcon .outside (g, w) (g, w')

section Runs

variable {env : Environment} {vcon : VariableContainer} {g g' : Generator} {w : World}

theorem coverage_countdown (env : Environment) (vcon : VariableContainer) :
    Countdown (CoverageStep env vcon) CoverageCall.isNextCov (fun p => p.1.CoverageDue)
      (fun p => p.1.covered_ = true) (fun p => p.1.openGoals) := by
  have hkept : forall l s s', CoverageStep env vcon l s s' -> s.1.CoverageDue ->
      s'.1.CoverageDue ∧ (s.1.covered_ = true -> s'.1.covered_ = true) ∧
        (s'.1.covered_ = true ∨ s'.1.openGoals + l.isNextCov.toNat ≤ s.1.openGoals) := by
    intro l s s' hstep hdue
    cases hstep with
    | nextCov result h =>
        have hcall := coverageKept_nextCov h
        exact ⟨hcall.left.due, hcall.left.covered hdue, hcall.right result rfl⟩
    | failed what h =>
        have hcall := (coverageKept_nextCov h).left
        exact ⟨hcall.due, hcall.covered hdue, Or.inr hcall.openGoals⟩
    | next outcome h =>
        have hcall := coverageKept_next h
        exact ⟨hcall.due, hcall.covered hdue, Or.inr hcall.openGoals⟩
    | outside g w w' => exact ⟨hdue, id, Or.inr (Nat.le_refl _)⟩
  constructor
  · exact fun l s s' hstep hdue => (hkept l s s' hstep hdue).left
  · exact fun l s s' hstep hdue => (hkept l s s' hstep hdue).right.left
  · exact fun l s s' hstep hdue => (hkept l s s' hstep hdue).right.right

theorem due_resetCoverage (env : Environment) (vcon : VariableContainer) (g : Generator) :
    (resetCoverage env vcon g).2.CoverageDue :=
  fun _ => rfl

theorem openGoals_resetCoverage (env : Environment) (vcon : VariableContainer) (g : Generator) :
    (resetCoverage env vcon g).2.openGoals ≤ g.coverGoals := by
  unfold openGoals coverGoals
  show (if g.isChanged then _ else _) ≤ _
  split
  · exact Nat.le_refl _
  · exact VariableCoverageGenerator.openGoals_reset env vcon g.constr_pttn_.partitions_

theorem Reachable.coverGoals (h : Reachable env vcon g w) :
    g.coverGoals = goals (scalarConstraints g.constr_mng_) := by
  unfold Generator.coverGoals
  split
  · rfl
  · next hunchanged =>
      have hbuilt := h.invariant.cached (Bool.eq_false_iff.mpr hunchanged)
      rw [hbuilt.partitions]
      exact goals_perm (ConstraintPartitioner.partition_perm _)

end Runs

end Generator
end Backend
end Crave
