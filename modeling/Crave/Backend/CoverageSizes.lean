import Crave.Backend.CoverageSoundness
import Crave.Backend.VectorSoundness

/-!
# Vectors in a coverage step

After the coverage solvers the vectors are solved, with the sizes that the coverage solvers
report. A solver that hits nothing reports its last model. The module says which sizes a
step can report, and when no vector can fail.
-/

namespace Crave
namespace Backend

open Foundation Ir MetaSMTVisitor

/-!
## Models after a step
-/

section Models

variable {o : Oracle SolverVar} {random : Nat -> Nat} {ignoreSofts : Bool}
  {s s' : MetaSMTVisitor} {time time' : Nat}

theorem MetaSMTVisitor.model_of_solve_false
    (h : s.solve o random ignoreSofts time = (false, s', time')) : s'.model = s.model := by
  simp only [MetaSMTVisitor.solve] at h
  split at h
  · cases h
  · cases h
    rfl

theorem model_makeAssumption {n : Node} (h : s.makeAssumption n = .ok s') :
    s'.model = s.model := by
  unfold MetaSMTVisitor.makeAssumption at h
  split at h
  · cases h
  · next f s₁ hpop =>
      rcases MetaSMTVisitor.visitPop_ok hpop with ⟨entry, terminals_, _, _, _, rfl⟩
      cases h
      rfl

theorem model_assumeReferences {var_ctn_ : VariableContainer} {memory : Memory}
    {refs : List (Nat × Nat)} (h : assumeReferences var_ctn_ memory refs s = .ok s') :
    s'.model = s.model := by
  induction refs generalizing s with
  | nil =>
      cases h
      rfl
  | cons pair rest ih =>
      rcases bind_eq_ok.mp h with ⟨s₁, hassume, h⟩
      exact (ih h).trans (model_makeAssumption hassume)

end Models

namespace VariableCoverageSolver

variable {env : Environment}

theorem model_assumeGoal {memory : Memory} {c : UserConstraint} {vs : VariableCoverageSolver}
    {s : MetaSMTVisitor} (h : assumeGoal memory c vs = .ok s) :
    s.model = vs.solver_.model := by
  rcases bind_eq_ok.mp h with ⟨s₁, hrefs, h⟩
  exact (model_makeAssumption h).trans (model_assumeReferences hrefs)

theorem model_of_solveFrom_false {cs : List UserConstraint} {vs vs' : VariableCoverageSolver}
    {w w' : World} (h : solveFrom env cs vs w = .ok (false, vs', w')) :
    vs'.solver_.model = vs.solver_.model := by
  induction cs generalizing vs w with
  | nil =>
      cases h
      rfl
  | cons c rest ih =>
      unfold solveFrom at h
      split at h
      · exact ih h
      · rcases bind_eq_ok.mp h with ⟨s, hgoal, h⟩
        cases hsolve : s.solve env.solver env.random true w.time with
        | mk result q =>
            rcases q with ⟨s', time'⟩
            simp only [hsolve] at h
            cases result with
            | true => cases h
            | false =>
                have hrest := ih h
                rw [hrest]
                exact (MetaSMTVisitor.model_of_solve_false hsolve).trans (model_assumeGoal hgoal)

end VariableCoverageSolver

namespace VariableCoverageGenerator

/-- The model of a solver after a step: a solution of a goal that was not covered, or the
one from before. -/
def Reports (vcon : VariableContainer) (memory : Memory) (p : ConstraintPartition)
    (vs : VariableCoverageSolver) (m : Model SolverVar) : Prop :=
  m = vs.solver_.model ∨
    exists c, c ∈ p.constraints_ ∧ c.cover_ = true ∧ c.name_ ∉ vs.covered_set_ ∧
      Term.Satisfies m (VariableCoverageSolver.goalQuery vcon p memory c)

section Reports

variable {env : Environment} {vcon : VariableContainer}

theorem reports_solve (hsound : env.Sound) {p : ConstraintPartition}
    (hmade : forall c, c ∈ p.constraints_ -> c.Made vcon.variables_)
    {vs vs' : VariableCoverageSolver} (hbuilt : VariableCoverageSolver.Built vcon p vs)
    {w w' : World} {hit : Bool} (h : vs.solve env w = .ok (hit, vs', w')) :
    Reports vcon w.memory p vs vs'.solver_.model := by
  cases hit with
  | true =>
      rcases (VariableCoverageSolver.solve_spec hmade hbuilt h).2.1 rfl with ⟨c, hc, hit⟩
      exact Or.inr ⟨c, hc, hit.cover, hit.fresh, hit.satisfied hsound⟩
  | false => exact Or.inl (VariableCoverageSolver.model_of_solveFrom_false h)

theorem Reports.memory_congr {p : ConstraintPartition} {vs : VariableCoverageSolver}
    {m : Model SolverVar} {before after : Memory}
    (hsame : SameAt vcon p.support_vars_ before after) (h : Reports vcon after p vs m) :
    Reports vcon before p vs m := by
  cases h with
  | inl hlast => exact Or.inl hlast
  | inr hgoal =>
      rcases hgoal with ⟨c, hc, hcover, hfresh, hsat⟩
      rw [← goalQuery_congr hsame] at hsat
      exact Or.inr ⟨c, hc, hcover, hfresh, hsat⟩

theorem reports_solveFrom (hsound : env.Sound) {ps : List ConstraintPartition}
    (hps : Separated vcon ps) (hunwritten : Unwritten vcon (supportOf ps))
    {solvers_ solvers' : List VariableCoverageSolver}
    (hbuilt : List.Forall₂ (VariableCoverageSolver.Built vcon) ps solvers_) {w w' : World}
    {result : Bool} (h : solveFrom env solvers_ w = .ok (result, solvers', w')) :
    List.Forall₂ (fun q vs' => Reports vcon w.memory q.1 q.2 vs'.solver_.model)
      (ps.zip solvers_) solvers' := by
  induction hbuilt generalizing solvers' w result with
  | nil =>
      cases h
      exact List.Forall₂.nil
  | @cons p vs ps rest hvs hrest ih =>
      rcases bind_eq_ok.mp h with ⟨⟨hit, vs', w₁⟩, hhead, h⟩
      rcases bind_eq_ok.mp h with ⟨⟨res, rest', w₂⟩, htail, h⟩
      cases h
      rw [supportOf_cons] at hunwritten
      have hmade := hps.made p List.mem_cons_self
      have hwritten := (solver_spec hmade (hps.support p List.mem_cons_self)
        (hunwritten.mono Set.subset_union_left) hvs hhead).2.1
      rw [List.zip_cons_cons]
      constructor
      · exact reports_solve hsound hmade hvs hhead
      · have htails := ih hps.tail (hunwritten.mono Set.subset_union_right) htail
        rw [Set.union_comm] at hunwritten
        have hsame := hwritten.sameAt hunwritten hps.disjoint_tail.symm
        have hmem : forall q, q ∈ ps.zip rest ->
            SameAt vcon q.1.support_vars_ w.memory w₁.memory := by
          intro q hq
          exact hsame.mono (support_subset_supportOf (List.of_mem_zip hq).left)
        exact ((List.forall₂_and_left _ _).mpr ⟨hmem, htails⟩).imp
          fun q vs' hboth => Reports.memory_congr hboth.left hboth.right

end Reports

/-!
## Sizes
-/

/-- A size that a step can report for a vector: the default, or a value in a model of the
solver of its partition. -/
def StepSize (vcon : VariableContainer) (memory : Memory)
    (qs : List (ConstraintPartition × VariableCoverageSolver)) (size_var size : Nat) : Prop :=
  size = default_rand_vec_size ∨
    exists q m, q ∈ qs ∧ size_var ∈ q.1.support_vars_ ∧ Reports vcon memory q.1 q.2 m ∧
      size = m (.terminal size_var) % 2 ^ (vcon.declOf size_var).bitsize % 2 ^ 32

section Sizes

variable {env : Environment} {vcon : VariableContainer}

theorem readFrom_of_mem_zip {ps : List ConstraintPartition} (hps : Separated vcon ps)
    {solvers_ : List VariableCoverageSolver}
    (h : List.Forall₂ (VariableCoverageSolver.Built vcon) ps solvers_)
    {q : ConstraintPartition × VariableCoverageSolver} (hq : q ∈ ps.zip solvers_) {id : Nat}
    (hid : id ∈ q.1.support_vars_) (value : Nat) :
    readFrom (solvers_.map VariableCoverageSolver.toVariableSolver) id value =
      (true, (q.2.solver_.read id).getD value) := by
  induction h with
  | nil => cases hq
  | @cons p vs ps rest hvs hrest ih =>
      rw [List.map_cons, readFrom]
      rw [List.zip_cons_cons] at hq
      cases List.mem_cons.mp hq with
      | inl heq =>
          rw [heq] at hid ⊢
          rcases hvs.declared id hid with ⟨d, hd⟩
          have hread : vs.toVariableSolver.read id value =
              (true, (vs.solver_.read id).getD value) := by
            unfold VariableSolver.read
            rw [hvs.var_ctn]
            simp [VariableContainer.restrict, hid, hd]
          rw [hread]
          rfl
      | inr hq =>
          have hother : id ∉ p.support_vars_ := fun hp =>
            Set.disjoint_left.mp hps.disjoint_tail hp ⟨q.1, (List.of_mem_zip hq).left, hid⟩
          have hskip : (vs.toVariableSolver.read id value).1 = false := by
            unfold VariableSolver.read
            rw [hvs.var_ctn]
            simp [VariableContainer.restrict, hother]
          rw [hskip]
          exact ih hps.tail hq

theorem exists_mem_zip {α β : Type} {R : α -> β -> Prop} {as : List α} {bs : List β}
    (h : List.Forall₂ R as bs) {a : α} (ha : a ∈ as) : exists b, (a, b) ∈ as.zip bs ∧ R a b := by
  induction h with
  | nil => cases ha
  | @cons a' b' as bs hhead _ ih =>
      rw [List.zip_cons_cons]
      cases List.mem_cons.mp ha with
      | inl heq =>
          rw [heq]
          exact ⟨b', List.mem_cons_self, hhead⟩
      | inr ha =>
          rcases ih ha with ⟨b, hb, hR⟩
          exact ⟨b, List.mem_cons_of_mem _ hb, hR⟩

theorem read_eq_of_built {p : ConstraintPartition} {vs : VariableCoverageSolver}
    (h : VariableCoverageSolver.Built vcon p vs) {id value : Nat}
    (hread : vs.solver_.read id = some value) :
    value = vs.solver_.model (.terminal id) % 2 ^ (vcon.declOf id).bitsize := by
  unfold MetaSMTVisitor.read at hread
  rcases Option.map_eq_some_iff.mp hread with ⟨width, hwidth, heq⟩
  have hdeclared := h.within id width hwidth
  rcases hdecl : vcon.variables_ id with _ | d
  · rw [hdecl] at hdeclared
    cases hdeclared
  · rw [hdecl] at hdeclared
    rw [VariableContainer.variables_declOf hdecl, ← heq, ← Option.some.inj hdeclared]

theorem stepSize_of_solveFrom (hsound : env.Sound) {ps : List ConstraintPartition}
    (hps : Separated vcon ps) (hunwritten : Unwritten vcon (supportOf ps))
    {solvers_ solvers' : List VariableCoverageSolver}
    (hbuilt : List.Forall₂ (VariableCoverageSolver.Built vcon) ps solvers_) {w w' : World}
    {result : Bool} (h : solveFrom env solvers_ w = .ok (result, solvers', w'))
    (vector : RandVec) :
    StepSize vcon w.memory (ps.zip solvers_) vector.size_var
      (vectorSize (solvers'.map VariableCoverageSolver.toVariableSolver) vector) := by
  have hbuilt' := (solveFrom_spec hps hunwritten hbuilt h).1
  have hreports := reports_solveFrom hsound hps hunwritten hbuilt h
  have hlength : ps.length = solvers_.length := hbuilt.length_eq
  unfold vectorSize
  by_cases hmem : exists p, p ∈ ps ∧ vector.size_var ∈ p.support_vars_
  · rcases hmem with ⟨p, hp, hid⟩
    rcases exists_mem_zip hbuilt hp with ⟨vs, hq, _⟩
    rcases exists_mem_zip hreports hq with ⟨vs', hq', hreport⟩
    have hzip : (p, vs') ∈ ps.zip solvers' := by
      have hfst := List.mem_map_of_mem (f := fun r => (r.1.1, r.2)) hq'
      have hmap : ((ps.zip solvers_).zip solvers').map (fun r => (r.1.1, r.2)) =
          ps.zip solvers' := by
        conv_rhs => rw [← List.map_fst_zip (Nat.le_of_eq hlength)]
        rw [List.zip_map_left]
        rfl
      rw [← hmap]
      exact hfst
    rw [readFrom_of_mem_zip hps hbuilt' hzip hid]
    cases hread : vs'.solver_.read vector.size_var with
    | none => exact Or.inl rfl
    | some value =>
        apply Or.inr
        have hvs' : VariableCoverageSolver.Built vcon p vs' := by
          exact List.forall₂_zip hbuilt' hzip
        refine ⟨(p, vs), vs'.solver_.model, hq, hid, hreport, ?_⟩
        rw [← read_eq_of_built hvs' hread]
        rfl
  · apply Or.inl
    have hsolvers : List.Forall₂ (fun p (vs : VariableSolver) =>
        vs.var_ctn_ = vcon.restrict p.support_vars_) ps
          (solvers'.map VariableCoverageSolver.toVariableSolver) :=
      List.forall₂_map_right_iff.mpr (hbuilt'.imp fun _ _ hs => hs.var_ctn)
    rw [VariableGenerator.readFrom_of_not_mem hsolvers fun p hp hid => hmem ⟨p, hp, hid⟩]
    rfl

end Sizes

end VariableCoverageGenerator

/-!
## Vectors that cannot fail
-/

section Vectors

variable {env : Environment} {var_gen : List VariableSolver}

namespace VectorSolver

/-- The vector is known, and its constraints can be built and have a solution for the given
size, whatever the identifiers of the new elements. -/
def SolvableAt (env : Environment) (vs : VectorSolver) (vector : RandVec) (size var_ID : Nat) :
    Prop :=
  env.vectorBaseMap vs.vector_id_ = some vector ∧
    forall next, var_ID ≤ next -> exists built next',
      buildSolver env.check vs size next = .ok (built, next') ∧
      Term.Satisfiable built.solver_.assertions

theorem solve_of_solvableAt (hcomplete : env.Complete) {vs : VectorSolver} {vector : RandVec}
    {w : World} (h : SolvableAt env vs vector (vectorSize var_gen vector) w.var_ID) :
    exists vs' w', vs.solve env var_gen w = .ok (true, vs', w') := by
  rcases h.right w.var_ID (Nat.le_refl _) with ⟨built, next', hbuild, hsat⟩
  unfold solve
  rw [h.left]
  simp only [hbuild]
  cases htwice : solveTwice env built.solver_ w.time with
  | mk result q =>
      rcases q with ⟨s, time⟩
      cases result with
      | false => exact absurd hsat (not_satisfiable_of_solveTwice hcomplete htwice)
      | true =>
          simp only [bind, Except.bind, htwice, if_true]
          cases readVector s vector.element built.vec_elements_ with
          | some values => exact ⟨_, _, rfl⟩
          | none => exact ⟨_, _, rfl⟩

end VectorSolver

namespace VectorGenerator

theorem solveFrom_of_solvableAt (hcomplete : env.Complete) {solvers_ : List (Nat × VectorSolver)}
    {w : World}
    (h : forall pair, pair ∈ solvers_ -> exists vector,
      VectorSolver.SolvableAt env pair.2 vector (vectorSize var_gen vector) w.var_ID) :
    exists solvers' w', solveFrom env var_gen solvers_ w = .ok (true, solvers', w') := by
  induction solvers_ generalizing w with
  | nil => exact ⟨[], w, rfl⟩
  | cons pair rest ih =>
      rcases h pair List.mem_cons_self with ⟨vector, hvector⟩
      rcases VectorSolver.solve_of_solvableAt hcomplete hvector with ⟨vs', w₁, hhead⟩
      have hle := (VectorSolver.solve_frame hhead).right.right.var_ID
      have hrest : forall pair, pair ∈ rest -> exists vector,
          VectorSolver.SolvableAt env pair.2 vector (vectorSize var_gen vector) w₁.var_ID := by
        intro other hother
        rcases h other (List.mem_cons_of_mem pair hother) with ⟨vector', hvector', hbuild⟩
        exact ⟨vector', hvector', fun next hnext => hbuild next (Nat.le_trans hle hnext)⟩
      rcases ih hrest with ⟨rest', w₂, htail⟩
      refine ⟨(pair.1, vs') :: rest', w₂, ?_⟩
      unfold solveFrom
      simp only [hhead, bind, Except.bind, if_true, htail]
      rfl

theorem genUnconstrained_of_known {keys vec_ids : List Nat}
    (h : forall id, id ∈ vec_ids -> (env.vectorBaseMap id).isSome = true) (w : World) :
    exists w', genUnconstrained env var_gen keys vec_ids w = .ok w' := by
  induction vec_ids generalizing w with
  | nil => exact ⟨w, rfl⟩
  | cons id rest ih =>
      have hrest := fun w => ih (fun other hother => h other (List.mem_cons_of_mem id hother)) w
      unfold genUnconstrained
      split
      · exact hrest w
      · rcases Option.isSome_iff_exists.mp (h id List.mem_cons_self) with ⟨vector, hvector⟩
        rw [hvector]
        exact hrest _

theorem solve_of_solvableAt (hcomplete : env.Complete) {g : VectorGenerator}
    {vec_ids : List Nat} {w : World}
    (hknown : forall id, id ∈ vec_ids -> (env.vectorBaseMap id).isSome = true)
    (h : forall pair, pair ∈ g.vector_solvers_ -> exists vector,
      VectorSolver.SolvableAt env pair.2 vector (vectorSize var_gen vector) w.var_ID) :
    exists g' w', g.solve env var_gen vec_ids w = .ok (true, g', w') := by
  rcases solveFrom_of_solvableAt hcomplete h with ⟨solvers', w₁, hfrom⟩
  rcases @genUnconstrained_of_known env var_gen (solvers'.map Prod.fst) vec_ids hknown w₁ with
    ⟨w₂, hgen⟩
  refine ⟨{ vector_solvers_ := solvers' }, w₂, ?_⟩
  unfold solve
  simp only [hfrom, bind, Except.bind, if_true, hgen]
  rfl

end VectorGenerator

end Vectors

/-!
## Steps that are conclusive
-/

namespace Generator

/-- The partitions with their coverage solvers. -/
def pairs (g : Generator) : List (ConstraintPartition × VariableCoverageSolver) :=
  g.var_cov_gen_.solvers_.map fun vs => (vs.constr_pttn_, vs)

/-- Every vector can be solved for every size that the next step can report. -/
def VectorsSolvable (env : Environment) (vcon : VariableContainer) (g : Generator) (w : World) :
    Prop :=
  (forall id, id ∈ g.to_be_generated_vec_ids_ -> (env.vectorBaseMap id).isSome = true) ∧
    forall pair, pair ∈ g.vec_gen_.vector_solvers_ -> exists vector, forall size,
      VariableCoverageGenerator.StepSize vcon w.memory g.pairs vector.size_var size ->
        VectorSolver.SolvableAt env pair.2 vector size w.var_ID

/-- The goals have coverage solvers. And everything is covered, nothing can be hit, or no
vector can fail. -/
def Conclusive (env : Environment) (vcon : VariableContainer) (cs : List UserConstraint)
    (g : Generator) (w : World) : Prop :=
  (forall c, c ∈ cs -> c.cover_ = true -> exists q, q ∈ g.built.goals ∧ c ∈ q.1.constraints_) ∧
    (g.covered_ = true ∨
      (forall q, q ∈ g.built.goals -> ¬ Reaches vcon w.memory q.1 q.2) ∨
      VectorsSolvable env vcon g w)

section Conclusive

variable {env : Environment} {vcon : VariableContainer} {cs : List UserConstraint}
  {g g' : Generator} {w w' : World}

theorem zip_partitionsOf (g : Generator) :
    (VariableCoverageGenerator.partitionsOf g.var_cov_gen_.solvers_).zip
      g.var_cov_gen_.solvers_ = g.pairs := by
  rw [VariableCoverageGenerator.partitionsOf, pairs]
  conv_lhs =>
    rw [← List.map_id g.var_cov_gen_.solvers_, List.map_map, List.zip_map']
  rfl

/-- A conclusive step of the coverage solvers hits nothing, or the vectors are solved, too. -/
theorem solveCoverage_of_conclusive (hsound : env.Sound) (hcomplete : env.Complete)
    (hready : Ready vcon g) (hunwritten : Unwritten vcon (supportOf (g.built.goals.map Prod.fst)))
    (huncovered : g.covered_ = false) (hconclusive : Conclusive env vcon cs g w)
    {result : Except String Bool} (h : solveCoverage env g w = (result, g', w')) :
    (g' = g ∧ w' = w ∧ exists e, result = .error e) ∨
      (exists var_cov_gen_, result = .ok false ∧
        g.var_cov_gen_.solve env w = .ok (false, var_cov_gen_, w') ∧
          g' = { g with var_cov_gen_ := var_cov_gen_ }) ∨
      result = .ok true := by
  unfold solveCoverage at h
  split at h
  · next e _ =>
      cases h
      exact Or.inl ⟨rfl, rfl, e, rfl⟩
  · next var_cov_gen_ w₁ hsolve =>
      cases h
      exact Or.inr (Or.inl ⟨var_cov_gen_, rfl, hsolve, rfl⟩)
  · next var_cov_gen_ w₁ hsolve =>
      apply Or.inr
      apply Or.inr
      rcases bind_eq_ok.mp hsolve with ⟨⟨r, solvers', w₂⟩, hfrom, hreturn⟩
      cases hreturn
      rw [map_fst_goals] at hunwritten
      rcases VariableCoverageGenerator.solveFrom_spec hready.covers hunwritten hready.var_cov_gen
        hfrom with ⟨_, houtcomes, _, _, hvar_ID⟩
      rcases hconclusive.right with hcovered | hnone | hsolvable
      · rw [huncovered] at hcovered
        cases hcovered
      · rw [← zip_covered_set] at hnone
        have hfalse := houtcomes.eq_false hsound hnone
        cases hfalse
      · have hsizes : forall pair, pair ∈ g.vec_gen_.vector_solvers_ -> exists vector,
            VectorSolver.SolvableAt env pair.2 vector
              (vectorSize (solvers'.map VariableCoverageSolver.toVariableSolver) vector)
              w₁.var_ID := by
          intro pair hpair
          rcases hsolvable.right pair hpair with ⟨vector, hvector⟩
          have hsize := VariableCoverageGenerator.stepSize_of_solveFrom hsound hready.covers
            hunwritten hready.var_cov_gen hfrom vector
          rw [zip_partitionsOf] at hsize
          rw [hvar_ID]
          exact ⟨vector, hvector _ hsize⟩
        rcases VectorGenerator.solve_of_solvableAt hcomplete hsolvable.left hsizes with
          ⟨vec_gen_, w₂, hvectors⟩
        unfold solveVectors at h
        simp only [hvectors] at h
        cases h
        rfl

end Conclusive

end Generator

end Backend
end Crave
