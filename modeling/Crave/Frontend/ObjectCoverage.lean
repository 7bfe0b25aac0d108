import Crave.Backend.CoverageTermination
import Crave.Frontend.RandObjRuns

/-!
# Coverage of random objects comes to an end

The generator of an object also loses what it has covered when a rebuild was requested.
So the goals that are open count the constraints of the whole subtree until the rebuild has
been made, and they count down with every call of `next_cov` that returns.
-/

namespace Crave
namespace Frontend

open Foundation Ir Backend

namespace RandObjs

/-- The goals of an object that are open, when what is due has been built. -/
def openGoals (s : RandObjs) (i : Nat) : Nat :=
  if s.rebuild_ i then goals (s.subtreeScalars i) else (s.constraint i).openGoals

def isCovered (s : RandObjs) (i : Nat) : Bool :=
  (s.constraint i).isCovered

/-- Nothing is covered while the generator has to be built again. -/
structure CoverageDue (s : RandObjs) (i : Nat) : Prop where
  requested : s.rebuild_ i = true -> s.isCovered i = false
  changed : (s.constraint i).CoverageDue

/-- What a call of an object leaves of the objects and of their coverage. -/
structure CoverageKept (i : Nat) (s s' : RandObjs) : Prop where
  tree : s'.tree = s.tree
  constraints : forall j, (s'.constraint j).constr_mng_.constraints_ =
    (s.constraint j).constr_mng_.constraints_
  others : forall j, j ≠ i -> s'.constraint j = s.constraint j ∧ s'.rebuild_ j = s.rebuild_ j
  due : s.CoverageDue i -> s'.CoverageDue i
  covered : s.CoverageDue i -> s.isCovered i = true -> s'.isCovered i = true
  openGoals : s'.openGoals i ≤ s.openGoals i

section Calls

variable {env : Environment} {vcon : VariableContainer} {s s' : RandObjs} {i j : Nat}
  {w w' : World}

theorem CoverageKept.refl (i : Nat) (s : RandObjs) : CoverageKept i s s :=
  ⟨rfl, fun _ => rfl, fun _ _ => ⟨rfl, rfl⟩, id, fun _ => id, Nat.le_refl _⟩

theorem CoverageKept.trans {s₁ : RandObjs} (h : CoverageKept i s s₁)
    (h' : CoverageKept i s₁ s') : CoverageKept i s s' := by
  constructor
  · exact h'.tree.trans h.tree
  · exact fun j => (h'.constraints j).trans (h.constraints j)
  · intro j hj
    exact ⟨(h'.others j hj).left.trans (h.others j hj).left,
      (h'.others j hj).right.trans (h.others j hj).right⟩
  · exact fun hdue => h'.due (h.due hdue)
  · exact fun hdue hcovered => h'.covered (h.due hdue) (h.covered hdue hcovered)
  · exact h'.openGoals.trans h.openGoals

theorem CoverageKept.other (h : CoverageKept i s s') (hj : j ≠ i) :
    (s.CoverageDue j -> s'.CoverageDue j) ∧ s'.isCovered j = s.isCovered j ∧
      s'.openGoals j = s.openGoals j := by
  rcases h.others j hj with ⟨hconstraint, hrebuild⟩
  have hgoals := (subtree_congr h.tree h.constraints j).left
  have hcovered : s'.isCovered j = s.isCovered j := by
    rw [isCovered, isCovered, hconstraint]
  constructor
  · intro hdue
    constructor
    · rw [hrebuild, hcovered]
      exact hdue.requested
    · rw [hconstraint]
      exact hdue.changed
  · constructor
    · exact hcovered
    · rw [RandObjs.openGoals, RandObjs.openGoals, hrebuild, hconstraint, hgoals]

theorem openGoals_of_built (h : s.rebuild_ i = false) :
    s.openGoals i = (s.constraint i).openGoals := by
  rw [RandObjs.openGoals, h]
  rfl

/-- A call of the generator when nothing is to be built for the object. -/
theorem coverageKept_setConstraint {g : Generator} (hbuilt : s.rebuild_ i = false)
    (h : Generator.CoverageKept (s.constraint i) g) : CoverageKept i s (s.setConstraint i g) := by
  have hself := constraint_setConstraint_self s i g
  have hbuilt' : (s.setConstraint i g).rebuild_ i = false := hbuilt
  constructor
  · rfl
  · intro j
    by_cases hj : j = i
    · rw [hj, hself]
      exact h.constraints
    · rw [constraint_setConstraint_of_ne s hj]
  · intro j hj
    exact ⟨constraint_setConstraint_of_ne s hj g, rfl⟩
  · intro _
    constructor
    · intro hrequested
      rw [hbuilt'] at hrequested
      cases hrequested
    · rw [hself]
      exact h.due
  · intro hdue hcovered
    show ((s.setConstraint i g).constraint i).covered_ = true
    rw [hself]
    exact h.covered hdue.changed hcovered
  · rw [openGoals_of_built hbuilt', openGoals_of_built hbuilt, hself]
    exact h.openGoals

theorem var_cov_gen_gather_constraints (s : RandObjs) (i : Nat) (gen : Generator) :
    (s.gather_constraints i gen).var_cov_gen_ = gen.var_cov_gen_ := by
  rw [gather_constraints_postorder]
  generalize s.tree.postorder i = is
  induction is generalizing gen with
  | nil => rfl
  | cons c rest ih =>
      rcases exists_gatherOne s gen c with ⟨vec_ids, heq⟩
      rw [List.foldl_cons, ih, heq]

/-- What the generator of an object holds after a rebuild, also after one that throws. -/
structure Reopened (s : RandObjs) (i : Nat) (g : Generator) : Prop where
  unchanged : g.isChanged = false
  constraints : g.constr_mng_.constraints_ = (s.constraint i).constr_mng_.constraints_
  uncovered : g.covered_ = false
  openGoals : g.openGoals ≤ goals (s.subtreeScalars i)

theorem reopened_rebuild {outcome : Except String Unit} {g : Generator}
    (h : Generator.rebuild env vcon false
      ((s.setConstraint i (Generator.reset env vcon (s.constraint i))).gather_constraints i
        (Generator.reset env vcon (s.constraint i))) w = (outcome, g, w')) : Reopened s i g := by
  have hsame : forall j, ((s.setConstraint i
        (Generator.reset env vcon (s.constraint i))).constraint j).constr_mng_.constraints_ =
      (s.constraint j).constr_mng_.constraints_ := by
    intro j
    by_cases hj : j = i
    · rw [hj, constraint_setConstraint_self]
      rfl
    · rw [constraint_setConstraint_of_ne s hj]
  have hsubtree := (@subtree_congr s
    (s.setConstraint i (Generator.reset env vcon (s.constraint i))) rfl hsame i).left
  have hgathering := gathering_gather_constraints
    (s.setConstraint i (Generator.reset env vcon (s.constraint i))) i
    (Generator.reset env vcon (s.constraint i))
  have hgen := var_cov_gen_gather_constraints
    (s.setConstraint i (Generator.reset env vcon (s.constraint i))) i
    (Generator.reset env vcon (s.constraint i))
  generalize (s.setConstraint i (Generator.reset env vcon (s.constraint i))).gather_constraints i
    (Generator.reset env vcon (s.constraint i)) = gathered at h hgathering hgen
  rcases Generator.openGoals_rebuild h with ⟨hmng, hcovered, hgoals⟩
  have hmng' := hmng.trans hgathering.constr_mng
  have hunchanged : g.isChanged = false := by
    rw [Generator.isChanged, hmng']
    rfl
  constructor
  · exact hunchanged
  · rw [hmng']
    rfl
  · rw [hcovered, hgathering.covered]
    rfl
  · rw [Generator.openGoals_of_unchanged hunchanged]
    cases hgoals with
    | inl hold =>
        rw [hold, hgen]
        exact Nat.zero_le _
    | inr hle =>
        have hscalars : gathered.constr_pttn_.constraints_ = s.subtreeScalars i :=
          hgathering.scalars.trans hsubtree
        have hpartitions : gathered.constr_pttn_.run.partitions_ =
            ConstraintPartitioner.partition (s.subtreeScalars i) := by
          rw [ConstraintPartitioner.run, hgathering.partitions, hscalars]
          rfl
        rw [← goals_perm (ConstraintPartitioner.partition_perm (s.subtreeScalars i)),
          ← hpartitions]
        exact hle

/-- The generator that was built again takes its place, and the flag may stay. -/
theorem coverageKept_reopened {g : Generator} (hrequested : s.rebuild_ i = true)
    (h : Reopened s i g) {rebuild_ : Nat -> Bool}
    (hrebuild : forall j, j ≠ i -> rebuild_ j = s.rebuild_ j) :
    CoverageKept i s { s.setConstraint i g with rebuild_ := rebuild_ } := by
  have hself : (s.setConstraint i g).constraint i = g := constraint_setConstraint_self s i g
  have hconstraints : forall j, ((s.setConstraint i g).constraint j).constr_mng_.constraints_ =
      (s.constraint j).constr_mng_.constraints_ := by
    intro j
    by_cases hj : j = i
    · rw [hj, hself]
      exact h.constraints
    · rw [constraint_setConstraint_of_ne s hj]
  constructor
  · rfl
  · exact hconstraints
  · intro j hj
    exact ⟨constraint_setConstraint_of_ne s hj g, hrebuild j hj⟩
  · intro _
    constructor
    · intro _
      show ((s.setConstraint i g).constraint i).covered_ = false
      rw [hself]
      exact h.uncovered
    · intro hchanged
      have hchanged' : ((s.setConstraint i g).constraint i).isChanged = true := hchanged
      rw [hself, h.unchanged] at hchanged'
      cases hchanged'
  · intro hdue hcovered
    rw [hdue.requested hrequested] at hcovered
    cases hcovered
  · have hall : s.openGoals i = goals (s.subtreeScalars i) := by
      rw [RandObjs.openGoals, hrequested]
      rfl
    rw [hall]
    unfold RandObjs.openGoals
    split
    · exact Nat.le_of_eq (congrArg goals (@subtree_congr s
        { s.setConstraint i g with rebuild_ := rebuild_ } rfl hconstraints i).left)
    · show ((s.setConstraint i g).constraint i).openGoals ≤ _
      rw [hself]
      exact h.openGoals

theorem coverageKept_rebuild {outcome : Except String Unit}
    (h : s.rebuild env vcon i w = (outcome, s', w')) :
    CoverageKept i s s' ∧ (outcome = .ok () -> s'.rebuild_ i = false) := by
  unfold rebuild at h
  split at h
  · next hrequested =>
      simp only [constraint_setConstraint_self] at h
      split at h
      · next g w₁ hrebuild =>
          cases h
          have heq : (s.setConstraint i (Generator.reset env vcon (s.constraint i))).setConstraint i
              g = { s.setConstraint i g with rebuild_ := s.rebuild_ } := by
            unfold setConstraint
            rw [Function.update_idem]
          rw [heq]
          constructor
          · exact coverageKept_reopened hrequested (reopened_rebuild hrebuild) fun _ _ => rfl
          · intro hok
            cases hok
      · next g w₁ hrebuild =>
          cases h
          have heq : { (s.setConstraint i (Generator.reset env vcon
                (s.constraint i))).setConstraint i g with
              rebuild_ := Function.update s.rebuild_ i false } =
              { s.setConstraint i g with rebuild_ := Function.update s.rebuild_ i false } := by
            unfold setConstraint
            simp only [Function.update_idem]
          constructor
          · show CoverageKept i s { (s.setConstraint i (Generator.reset env vcon
                (s.constraint i))).setConstraint i g with
              rebuild_ := Function.update s.rebuild_ i false }
            rw [heq]
            apply coverageKept_reopened hrequested (reopened_rebuild hrebuild)
            intro j hj
            exact Function.update_of_ne hj false s.rebuild_
          · intro _
            exact Function.update_self i false s.rebuild_
  · next hrequested =>
      cases h
      constructor
      · exact CoverageKept.refl i s
      · intro _
        exact Bool.eq_false_iff.mpr hrequested

theorem coverageKept_next {outcome : Except String Bool}
    (h : s.next env vcon i w = (outcome, s', w')) : CoverageKept i s s' := by
  rcases gen_base_children_spec env s i w with ⟨w₁, hgen, _⟩
  unfold next at h
  rw [hgen] at h
  simp only at h
  split at h
  · next hrebuild =>
      cases h
      exact (coverageKept_rebuild hrebuild).left
  · next s₁ w₂ hrebuild =>
      rcases onConstraint_eq h with ⟨g, hnext, hs'⟩
      have hkept := coverageKept_rebuild hrebuild
      rw [hs']
      exact hkept.left.trans
        (coverageKept_setConstraint (hkept.right rfl) (Generator.coverageKept_next hnext))

/-- A call of `next_cov` that returns has closed a goal of the object, or everything counts
as covered. -/
theorem coverageKept_next_cov {outcome : Except String Bool}
    (h : s.next_cov env vcon i w = (outcome, s', w')) :
    CoverageKept i s s' ∧ (forall result, outcome = .ok result ->
      s'.isCovered i = true ∨ s'.openGoals i < s.openGoals i) := by
  rcases gen_base_children_spec env s i w with ⟨w₁, hgen, _⟩
  unfold next_cov at h
  rw [hgen] at h
  simp only at h
  split at h
  · next hrebuild =>
      cases h
      constructor
      · exact (coverageKept_rebuild hrebuild).left
      · intro result hok
        cases hok
  · next s₁ w₂ hrebuild =>
      rcases onConstraint_eq h with ⟨g, hcall, hs'⟩
      rcases coverageKept_rebuild hrebuild with ⟨hkept, hbuilt⟩
      have hclosed := Generator.coverageKept_nextCov hcall
      have hafter := coverageKept_setConstraint (hbuilt rfl) hclosed.left
      have hself := constraint_setConstraint_self s₁ i g
      rw [hs']
      constructor
      · exact hkept.trans hafter
      · intro result hok
        cases hclosed.right result hok with
        | inl hcovered =>
            apply Or.inl
            show ((s₁.setConstraint i g).constraint i).covered_ = true
            rw [hself]
            exact hcovered
        | inr hlt =>
            apply Or.inr
            have hopen : (s₁.setConstraint i g).openGoals i = g.openGoals := by
              have hbuilt' : (s₁.setConstraint i g).rebuild_ i = false := hbuilt rfl
              rw [openGoals_of_built hbuilt', hself]
            rw [hopen]
            rw [← openGoals_of_built (hbuilt rfl)] at hlt
            exact hlt.trans_le hkept.openGoals

end Calls

/-!
## Runs
-/

/-- Calls that leave the constraints as they are, and whatever else happens in the world. A
call of `next_cov` that throws is one that failed. -/
inductive CoverageCall where
  | next_cov (i : Nat)
  | failed (i : Nat)
  | next (i : Nat)
  | outside

def CoverageCall.isNextCov (i : Nat) : CoverageCall -> Bool
  | .next_cov j => j == i
  | _ => false

inductive CoverageStep (env : Environment) (vcon : VariableContainer) :
    CoverageCall -> RandObjs × World -> RandObjs × World -> Prop where
  | next_cov {s s' : RandObjs} {w w' : World} (i : Nat) (result : Bool)
      (h : s.next_cov env vcon i w = (.ok result, s', w')) :
      CoverageStep env vcon (.next_cov i) (s, w) (s', w')
  | failed {s s' : RandObjs} {w w' : World} (i : Nat) (what : String)
      (h : s.next_cov env vcon i w = (.error what, s', w')) :
      CoverageStep env vcon (.failed i) (s, w) (s', w')
  | next {s s' : RandObjs} {w w' : World} (i : Nat) (outcome : Except String Bool)
      (h : s.next env vcon i w = (outcome, s', w')) :
      CoverageStep env vcon (.next i) (s, w) (s', w')
  | outside (s : RandObjs) (w w' : World) : CoverageStep env vcon .outside (s, w) (s, w')

/-- What the calls of one object do to the coverage of another, or of itself. -/
theorem CoverageKept.countdown {s s' : RandObjs} {i j : Nat} {counted : Bool}
    (h : CoverageKept i s s') (hother : j ≠ i -> counted = false)
    (hself : j = i -> s'.isCovered i = true ∨ s'.openGoals i + counted.toNat ≤ s.openGoals i)
    (hdue : s.CoverageDue j) :
    s'.CoverageDue j ∧ (s.isCovered j = true -> s'.isCovered j = true) ∧
      (s'.isCovered j = true ∨ s'.openGoals j + counted.toNat ≤ s.openGoals j) := by
  by_cases hj : j = i
  · have hclosed := hself hj
    rw [hj] at hdue ⊢
    exact ⟨h.due hdue, h.covered hdue, hclosed⟩
  · rcases h.other hj with ⟨hdue', hcovered, hgoals⟩
    rw [hcovered, hgoals, hother hj]
    exact ⟨hdue' hdue, id, Or.inr (Nat.le_refl _)⟩

theorem coverage_countdown (env : Environment) (vcon : VariableContainer) (i : Nat) :
    Countdown (CoverageStep env vcon) (CoverageCall.isNextCov i) (fun p => p.1.CoverageDue i)
      (fun p => p.1.isCovered i = true) (fun p => p.1.openGoals i) := by
  have hkept : forall l p p', CoverageStep env vcon l p p' -> p.1.CoverageDue i ->
      p'.1.CoverageDue i ∧ (p.1.isCovered i = true -> p'.1.isCovered i = true) ∧
        (p'.1.isCovered i = true ∨
          p'.1.openGoals i + (l.isNextCov i).toNat ≤ p.1.openGoals i) := by
    intro l p p' hstep hdue
    cases hstep with
    | next_cov k result h =>
        have hcall := coverageKept_next_cov h
        apply hcall.left.countdown _ _ hdue
        · intro hne
          exact beq_false_of_ne (Ne.symm hne)
        · intro heq
          rw [heq, CoverageCall.isNextCov, beq_self_eq_true]
          exact hcall.right result rfl
    | failed k what h =>
        have hcall := (coverageKept_next_cov h).left
        exact hcall.countdown (fun _ => rfl) (fun _ => Or.inr hcall.openGoals) hdue
    | next k outcome h =>
        have hcall := coverageKept_next h
        exact hcall.countdown (fun _ => rfl) (fun _ => Or.inr hcall.openGoals) hdue
    | outside s w w' => exact ⟨hdue, id, Or.inr (Nat.le_refl _)⟩
  constructor
  · exact fun l p p' hstep hdue => (hkept l p p' hstep hdue).left
  · exact fun l p p' hstep hdue => (hkept l p p' hstep hdue).right.left
  · exact fun l p p' hstep hdue => (hkept l p p' hstep hdue).right.right

end RandObjs

end Frontend
end Crave
