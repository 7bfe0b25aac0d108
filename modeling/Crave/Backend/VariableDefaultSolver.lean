import Crave.Backend.VariableSolver

/-!
# The default solver of a partition

`VariableDefaultSolver` asserts the hard constraints, analyses contradictions
and soft constraints when it is built, and solves for random values.
-/

namespace Crave
namespace Backend

open Foundation Ir MetaSMTVisitor

structure VariableDefaultSolver extends VariableSolver where
  bdd_solvers_ : Nat -> Option MetaSMTVisitor
  random_write_refs_ : List (Nat × Nat)

namespace VariableDefaultSolver

/-- `analyseHards`: the names of the hard constraints of every conflict. -/
def analyseHards (env : Environment) (cp : ConstraintPartition) (time : Nat) :
    Except String (List (List String) × Nat) := do
  let hards := cp.constraints_.filter UserConstraint.isHard
  let (results, time) <- analyseContradiction env (hards.map UserConstraint.expr_) time
  return (results.map fun result =>
    result.map fun i => ((hards.map UserConstraint.name_)[i]?).getD "", time)

/-- The names of the soft constraints at the given positions among the softs. -/
def softNames : List UserConstraint -> List Nat -> Nat -> List String
  | [], _, _ => []
  | _, [], _ => []
  | c :: rest, i :: result, cnt =>
      if c.soft_ then
        if i = cnt then
          c.name_ :: softNames rest result (cnt + 1)
        else
          softNames rest (i :: result) (cnt + 1)
      else
        softNames rest (i :: result) cnt

/-- `analyseConstraints`, on a solver that has all constraints. -/
def analyseConstraints (env : Environment) (vs : VariableSolver) (time : Nat) :
    Except String (VariableSolver × Nat) := do
  let (contradictions_, time) <- analyseHards env vs.constr_pttn_ time
  if contradictions_ = [] then
    let (result, solver_, time) := analyseSofts env.solver vs.solver_ time
    let inactive_softs_ := softNames vs.constr_pttn_.constraints_ result 0
    return ({ vs with solver_ := solver_, inactive_softs_ := inactive_softs_ }, time)
  else
    return ({ vs with contradictions_ := contradictions_ }, time)

/-- The constraints of one variable that are simple enough for a BDD. -/
def assertBounded (limit : Nat) : List UserConstraint -> MetaSMTVisitor ->
    Except String MetaSMTVisitor
  | [], s => .ok s
  | c :: rest, s =>
      if 0 < c.complexity_ ∧ c.complexity_ < limit then do
        assertBounded limit rest (<- s.makeAssertion c.expr_)
      else
        assertBounded limit rest s

def createBddSolvers (limit : Nat) (svc_map : Nat -> List UserConstraint) :
    List (Nat × Nat) -> (Nat -> Option MetaSMTVisitor) -> Finset Nat ->
      Except String ((Nat -> Option MetaSMTVisitor) × Finset Nat)
  | [], bdd_solvers_, vars_with_dist => .ok (bdd_solvers_, vars_with_dist)
  | (id, _) :: rest, bdd_solvers_, vars_with_dist =>
      if (svc_map id).isEmpty || id ∈ vars_with_dist then
        createBddSolvers limit svc_map rest bdd_solvers_ vars_with_dist
      else do
        let bdd_solver <- assertBounded limit (svc_map id) (MetaSMTVisitor.new .strict)
        createBddSolvers limit svc_map rest
          (Function.update bdd_solvers_ id (some bdd_solver)) (insert id vars_with_dist)

/-- The variables that a distribution of the partition is about. -/
def varsWithDist (var_ctn_ : VariableContainer) : Finset Nat :=
  (var_ctn_.dist_references.map fun pair =>
    (var_ctn_.dist_ref_to_var_map pair.1).getD 0).toFinset

/-- The write references whose values are to be suggested at random. -/
def randomWriteRefs (write_references : List (Nat × Nat)) (vars_with_dist : Finset Nat) :
    List (Nat × Nat) :=
  if 2 * vars_with_dist.card > write_references.length then
    []
  else
    write_references.filter fun pair => pair.1 ∉ vars_with_dist

/-- The BDD solvers of a partition, where such solvers are available. -/
def setUpBdd (env : Environment) (cp : ConstraintPartition)
    (write_references : List (Nat × Nat)) (vars_with_dist : Finset Nat) :
    Except String ((Nat -> Option MetaSMTVisitor) × Finset Nat) :=
  match env.bdd with
  | none => .ok (fun _ => none, vars_with_dist)
  | some _ =>
      createBddSolvers env.complexity_limit_for_bdd cp.singleVariableConstraintMap_
        write_references (fun _ => none) vars_with_dist

/-- The part of the constructor behind `analyseConstraints`. -/
def setUpRandom (env : Environment) (vs : VariableSolver) :
    Except String VariableDefaultSolver := do
  let write_references := vs.var_ctn_.write_references
  let (bdd_solvers_, vars_with_dist) <-
    setUpBdd env vs.constr_pttn_ write_references (varsWithDist vs.var_ctn_)
  return { vs with
    bdd_solvers_ := bdd_solvers_
    random_write_refs_ := randomWriteRefs write_references vars_with_dist }

def new (env : Environment) (vcon : VariableContainer) (cp : ConstraintPartition)
    (time : Nat) : Except String (VariableDefaultSolver × Nat) := do
  let vs <- VariableSolver.new env vcon cp
  let solver_ <- addConstraints cp.constraints_ vs.solver_
  let vs := { vs with solver_ := solver_ }
  if env.bypass_constraint_analysis then
    return ({ vs with bdd_solvers_ := fun _ => none, random_write_refs_ := [] }, time)
  else
    let (vs, time) <- analyseConstraints env vs time
    let vs <- setUpRandom env vs
    return (vs, time)

/-- The value that the BDD of a variable yields is suggested. -/
def suggestBdd (o : Oracle SolverVar) (random : Nat -> Nat) :
    List (Nat × Nat) -> VariableDefaultSolver -> Nat ->
      Except String (VariableDefaultSolver × Nat)
  | [], vs, time => .ok (vs, time)
  | (id, _) :: rest, vs, time =>
      match vs.bdd_solvers_ id with
      | none => suggestBdd o random rest vs time
      | some bdd_solver => do
          let (result, bdd_solver, time) := bdd_solver.solve o random true time
          if result then
            let d := vs.var_ctn_.declOf id
            let solver_ <- vs.solver_.makeSuggestion
              (equalConstant id d (toConstantExpr d ((bdd_solver.read id).getD 0)))
            suggestBdd o random rest
              { vs with
                solver_ := solver_
                bdd_solvers_ := Function.update vs.bdd_solvers_ id (some bdd_solver) } time
          else
            throw "check failed: bdd_solver->solve()"

def suggestSingle (env : Environment) (vs : VariableDefaultSolver) (time : Nat) :
    Except String (VariableDefaultSolver × Nat) :=
  match env.bdd with
  | none => .ok (vs, time)
  | some o => suggestBdd o env.random vs.var_ctn_.write_references vs time

/-- Everything that is suggested or assumed before a call of the solver. -/
def prepare (env : Environment) (vs : VariableDefaultSolver) (w : World) :
    Except String (VariableDefaultSolver × Nat) := do
  let (vs, time) <- suggestSingle env vs w.time
  let solver_ <- assumeReferences vs.var_ctn_ w.memory vs.var_ctn_.read_references vs.solver_
  let (solver_, time) <-
    suggestDistributions vs.var_ctn_ env.random vs.var_ctn_.dist_references solver_ time
  let (refs, time) := randomShuffle env.random time vs.random_write_refs_
  let solver_ <- suggestValues vs.var_ctn_ w.memory (refs.take ((refs.length + 1) / 2)) solver_
  return ({ vs with solver_ := solver_, random_write_refs_ := refs }, time)

def solve (env : Environment) (vs : VariableDefaultSolver) (w : World) :
    Except String (Bool × VariableDefaultSolver × World) :=
  if vs.contradictions_ = [] then do
    let (vs, time) <- prepare env vs w
    let (result, solver_, time) := vs.solver_.solve env.solver env.random true time
    if result then
      return (true, { vs with solver_ := solver_ },
        { w with
          memory := writeBack solver_ vs.var_ctn_.write_references w.memory
          time := time })
    else
      return (false, { vs with solver_ := solver_ }, { w with time := time })
  else
    return (false, vs, w)

/-!
## A call of `solve`
-/

/-- What holds of a solver between two calls. -/
structure Ready (variables_ : Declarations) (vs : VariableDefaultSolver) : Prop where
  within : Terminals.Within variables_ vs.solver_.terminals_
  container : forall id d, vs.var_ctn_.variables_ id = some d -> variables_ id = some d
  random : forall pair, pair ∈ vs.random_write_refs_ -> pair ∈ vs.var_ctn_.write_references
  settled : vs.solver_.assumptions_ = []

/-- Only the solver instance and what serves the suggestions has changed. -/
def SameBase (vs vs' : VariableDefaultSolver) : Prop :=
  vs'.toVariableSolver = { vs.toVariableSolver with solver_ := vs'.solver_ }

section Solve

variable {variables_ : Declarations} {env : Environment} {vs vs' : VariableDefaultSolver}
  {w w' : World} {time time' : Nat}

theorem SameBase.refl (vs : VariableDefaultSolver) : SameBase vs vs :=
  rfl

theorem SameBase.trans {vs'' : VariableDefaultSolver} (h : SameBase vs vs')
    (h' : SameBase vs' vs'') : SameBase vs vs'' := by
  unfold SameBase at h h' ⊢
  rw [h', h]

theorem SameBase.var_ctn (h : SameBase vs vs') : vs'.var_ctn_ = vs.var_ctn_ := by
  unfold SameBase at h
  rw [h]

theorem SameBase.constr_pttn (h : SameBase vs vs') : vs'.constr_pttn_ = vs.constr_pttn_ := by
  unfold SameBase at h
  rw [h]

theorem SameBase.contradictions (h : SameBase vs vs') :
    vs'.contradictions_ = vs.contradictions_ := by
  unfold SameBase at h
  rw [h]

theorem suggestBdd_spec {o : Oracle SolverVar} {random : Nat -> Nat} {refs : List (Nat × Nat)}
    (hrefs : forall pair, pair ∈ refs ->
      variables_ pair.1 = some (vs.var_ctn_.declOf pair.1))
    (hs : Terminals.Within variables_ vs.solver_.terminals_)
    (h : suggestBdd o random refs vs time = .ok (vs', time')) :
    SameBase vs vs' ∧ Suggested variables_ vs.solver_ vs'.solver_ ∧
      vs'.random_write_refs_ = vs.random_write_refs_ := by
  induction refs generalizing vs time with
  | nil =>
      cases h
      exact ⟨SameBase.refl _, Suggested.refl _, rfl⟩
  | cons pair rest ih =>
      rcases pair with ⟨id, loc⟩
      have hd := hrefs (id, loc) List.mem_cons_self
      have hrest := fun p hp => hrefs p (List.mem_cons_of_mem _ hp)
      unfold suggestBdd at h
      split at h
      · exact ih hrest hs h
      · rename_i bdd_solver hbdd
        simp only at h
        split at h
        · rcases bind_eq_ok.mp h with ⟨s₁, hadd, h⟩
          have hs₁ := suggested_of_makeSuggestion (equalConstant_declared hd _) hs hadd
          rcases ih (by exact hrest) (by exact hs₁.within hs) h with ⟨hbase, hsuggested, hrandom⟩
          refine ⟨SameBase.trans ?_ hbase, hs₁.trans hsuggested, hrandom⟩
          rfl
        · cases h

theorem suggestSingle_spec (hready : Ready variables_ vs)
    (h : suggestSingle env vs time = .ok (vs', time')) :
    SameBase vs vs' ∧ Suggested variables_ vs.solver_ vs'.solver_ ∧
      vs'.random_write_refs_ = vs.random_write_refs_ := by
  unfold suggestSingle at h
  split at h
  · cases h
    exact ⟨SameBase.refl _, Suggested.refl _, rfl⟩
  · refine suggestBdd_spec (fun pair hpair => ?_) hready.within h
    exact hready.container _ _ (VariableContainer.variables_of_write hpair)

/-- Before the call of the solver the read references are assumed; everything
else that was added is a suggestion. -/
theorem prepare_spec (hready : Ready variables_ vs) (h : prepare env vs w = .ok (vs', time)) :
    SameBase vs vs' ∧
      (forall pair, pair ∈ vs'.random_write_refs_ -> pair ∈ vs.var_ctn_.write_references) ∧
      exists fs support,
        vs'.solver_ = { vs.solver_ with
          assumptions_ := referenceFormulas vs.var_ctn_ w.memory vs.var_ctn_.read_references
          suggestions_ := fs
          terminals_ := Terminals.declare variables_ support vs.solver_.terminals_ } ∧
        forall pair, pair ∈ vs.var_ctn_.read_references -> pair.1 ∈ support := by
  rcases bind_eq_ok.mp h with ⟨⟨vs₁, time₁⟩, hsingle, h⟩
  rcases suggestSingle_spec hready hsingle with ⟨hbase, ⟨fs₁, support₁, hs₁⟩, hrandom⟩
  have hwithin₁ := Suggested.within ⟨fs₁, support₁, hs₁⟩ hready.within
  have hdecl : forall id d, vs₁.var_ctn_.variables_ id = some d -> variables_ id = some d := by
    rw [hbase.var_ctn]
    exact hready.container
  rcases bind_eq_ok.mp h with ⟨s₂, hassume, h⟩
  rcases assumeReferences_spec
    (fun pair hpair => hdecl _ _ (VariableContainer.variables_of_read hpair)) hwithin₁ hassume
    with ⟨support₂, hs₂, hread⟩
  have hwithin₂ : Terminals.Within variables_ s₂.terminals_ := by
    rw [hs₂]
    exact hwithin₁.declare support₂
  rcases bind_eq_ok.mp h with ⟨⟨s₃, time₃⟩, hdist, h⟩
  have hs₃ := suggested_suggestDistributions
    (fun pair hpair => hdecl _ _ (VariableContainer.variables_of_dist hpair)) hwithin₂ hdist
  have hwithin₃ := hs₃.within hwithin₂
  have hshuffle := randomShuffle_perm env.random time₃ vs₁.random_write_refs_
  have hrefs : forall pair,
      pair ∈ (randomShuffle env.random time₃ vs₁.random_write_refs_).1 ->
        pair ∈ vs.var_ctn_.write_references := by
    intro pair hpair
    rw [hshuffle.mem_iff, hrandom] at hpair
    exact hready.random pair hpair
  rcases bind_eq_ok.mp h with ⟨s₄, hvalues, h⟩
  have hs₄ := suggested_suggestValues (fun pair hpair => hdecl _ _ (by
    rw [hbase.var_ctn]
    exact VariableContainer.variables_of_write (hrefs pair (List.mem_of_mem_take hpair))))
    hwithin₃ hvalues
  rcases hs₃.trans hs₄ with ⟨fs₄, support₄, hs'⟩
  cases h
  refine ⟨SameBase.trans hbase rfl, hrefs, vs.solver_.suggestions_ ++ fs₁ ++ fs₄,
    support₁ ∪ support₂ ∪ support₄, ?_, ?_⟩
  · simp only
    rw [hs', hs₂, hs₁, hready.settled, hbase.var_ctn]
    simp only [List.nil_append, Terminals.declare_declare, Finset.union_assoc]
  · intro pair hpair
    have hmem : pair.1 ∈ support₂ := hread pair (by rwa [hbase.var_ctn])
    exact Finset.mem_union_left _ (Finset.mem_union_right _ hmem)

/-- The two courses of a call: the partition is known to be contradictory, or
the instance is asked. -/
theorem solve_cases {result : Bool} (h : solve env vs w = .ok (result, vs', w')) :
    (vs.contradictions_ ≠ [] ∧ result = false ∧ vs' = vs ∧ w' = w) ∨
      (vs.contradictions_ = [] ∧
        exists vs₁ time₁ s' time', prepare env vs w = .ok (vs₁, time₁) ∧
          vs₁.solver_.solve env.solver env.random true time₁ = (result, s', time') ∧
          vs' = { vs₁ with solver_ := s' } ∧
          w' = { w with
            memory :=
              if result then writeBack s' vs₁.var_ctn_.write_references w.memory
              else w.memory
            time := time' }) := by
  unfold solve at h
  split at h
  · rename_i hcontr
    rcases bind_eq_ok.mp h with ⟨⟨vs₁, time₁⟩, hprepare, h⟩
    refine Or.inr ⟨hcontr, vs₁, time₁, ?_⟩
    cases hsolve : vs₁.solver_.solve env.solver env.random true time₁ with
    | mk r p =>
        rcases p with ⟨s', time'⟩
        simp only [hsolve] at h
        cases r with
        | true =>
            cases h
            exact ⟨s', time', hprepare, rfl, rfl, rfl⟩
        | false =>
            cases h
            exact ⟨s', time', hprepare, rfl, rfl, rfl⟩
  · rename_i hcontr
    cases h
    exact Or.inl ⟨hcontr, rfl, rfl, rfl⟩

/-- What a call keeps of a solver and of the world. -/
structure Kept (variables_ : Declarations) (vs vs' : VariableDefaultSolver) : Prop where
  base : SameBase vs vs'
  assertions : vs'.solver_.assertions = vs.solver_.assertions
  ready : Ready variables_ vs'
  extends_ : Terminals.Extends vs.solver_.terminals_ vs'.solver_.terminals_

theorem kept_solve (hready : Ready variables_ vs) {result : Bool}
    (h : solve env vs w = .ok (result, vs', w')) : Kept variables_ vs vs' := by
  rcases solve_cases h with ⟨-, -, rfl, rfl⟩ | ⟨-, vs₁, time₁, s', time', hprepare, hsolve, rfl, -⟩
  · exact ⟨SameBase.refl _, rfl, hready, Terminals.Extends.refl _⟩
  · rcases prepare_spec hready hprepare with ⟨hbase, hrandom, fs, support, hs₁, -⟩
    have hframe := MetaSMTVisitor.solve_frame hsolve
    have hterminals : s'.terminals_ =
        Terminals.declare variables_ support vs.solver_.terminals_ := by
      rw [hframe, hs₁]
    constructor
    · exact SameBase.trans hbase rfl
    · change s'.assertions = _
      rw [hframe, hs₁]
    · constructor
      · change Terminals.Within variables_ s'.terminals_
        rw [hterminals]
        exact hready.within.declare support
      · change forall id d, vs₁.var_ctn_.variables_ id = some d -> variables_ id = some d
        rw [hbase.var_ctn]
        exact hready.container
      · change forall pair, pair ∈ vs₁.random_write_refs_ -> pair ∈ vs₁.var_ctn_.write_references
        rw [hbase.var_ctn]
        exact hrandom
      · change s'.assumptions_ = []
        rw [hframe]
    · change Terminals.Extends _ s'.terminals_
      rw [hterminals]
      exact hready.within.extends_declare support

theorem world_solve (hready : Ready variables_ vs) {result : Bool}
    (h : solve env vs w = .ok (result, vs', w')) :
    w' = { w with
      memory :=
        if result then writeBack vs'.solver_ vs.var_ctn_.write_references w.memory
        else w.memory
      time := w'.time } := by
  rcases solve_cases h with ⟨-, rfl, -, rfl⟩ | ⟨-, vs₁, time₁, s', time', hprepare, -, rfl, rfl⟩
  · rfl
  · rcases prepare_spec hready hprepare with ⟨hbase, -⟩
    rw [hbase.var_ctn]

/-- The query that decides a call, suggestions apart. -/
def query (vs : VariableDefaultSolver) (memory : Memory) : List Formula :=
  vs.solver_.assertions ++
    referenceFormulas vs.var_ctn_ memory vs.var_ctn_.read_references

theorem satisfies_of_solve (hready : Ready variables_ vs) (hsound : env.Sound)
    (h : solve env vs w = .ok (true, vs', w')) :
    Term.Satisfies vs'.solver_.model (query vs w.memory) := by
  rcases solve_cases h with ⟨-, hfalse, -⟩ | ⟨-, vs₁, time₁, s', time', hprepare, hsolve, rfl, -⟩
  · cases hfalse
  · rcases prepare_spec hready hprepare with ⟨-, -, fs, support, hs₁, -⟩
    have hsat := MetaSMTVisitor.satisfies_of_solve hsound hsolve
    rw [hs₁] at hsat
    exact hsat.mono fun t ht => List.mem_append_left _ ht

theorem solve_of_satisfiable (hready : Ready variables_ vs) (hcomplete : env.Complete)
    (hcontr : vs.contradictions_ = []) (hsat : Term.Satisfiable (query vs w.memory))
    {result : Bool} (h : solve env vs w = .ok (result, vs', w')) : result = true := by
  rcases solve_cases h with ⟨hne, -⟩ | ⟨-, vs₁, time₁, s', time', hprepare, hsolve, -, -⟩
  · exact absurd hcontr hne
  · rcases prepare_spec hready hprepare with ⟨-, -, fs, support, hs₁, -⟩
    have htrue := @MetaSMTVisitor.solve_eq_true _ env.random true vs₁.solver_ time₁
      hcomplete.solver (by
        rw [hs₁]
        refine hsat.mono fun t ht => ?_
        simpa [softQuery, query] using ht)
    rw [hsolve] at htrue
    exact htrue

end Solve

/-!
## A solver that was built for a partition
-/

/-- Built for a partition and used any number of times since. -/
structure Built (vcon : VariableContainer) (cp : ConstraintPartition)
    (vs : VariableDefaultSolver) : Prop where
  ready : Ready vcon.variables_ vs
  var_ctn : vs.var_ctn_ = vcon.restrict cp.support_vars_
  constr_pttn : vs.constr_pttn_ = cp
  asserted : exists accepted,
    vs.solver_.assertions = hardFormulas cp.constraints_ ++ accepted ∧
      forall f, f ∈ accepted -> f ∈ (softFormulas cp.constraints_).map equalTrue
  met : forall c, c ∈ cp.constraints_ -> c.cover_ = false ->
    forall id, id ∈ c.support_vars_ -> exists d, vcon.variables_ id = some d ∧
      vs.solver_.terminals_ id = some d.bitsize

section Build

variable {env : Environment} {vcon : VariableContainer} {cp : ConstraintPartition}
  {time time' : Nat}

theorem setUpRandom_spec {vs : VariableSolver} {vs' : VariableDefaultSolver}
    (h : setUpRandom env vs = .ok vs') :
    vs'.toVariableSolver = vs ∧
      forall pair, pair ∈ vs'.random_write_refs_ -> pair ∈ vs.var_ctn_.write_references := by
  rcases bind_eq_ok.mp h with ⟨⟨bdd_solvers_, vars_with_dist⟩, -, h⟩
  cases h
  refine ⟨rfl, fun pair hpair => ?_⟩
  change pair ∈ randomWriteRefs vs.var_ctn_.write_references vars_with_dist at hpair
  unfold randomWriteRefs at hpair
  split at hpair
  · cases hpair
  · exact List.mem_of_mem_filter hpair

/-- The analysis may add accepted soft formulas to the assertions. -/
theorem analyseConstraints_frame {vs vs' : VariableSolver}
    (h : analyseConstraints env vs time = .ok (vs', time')) :
    vs'.var_ctn_ = vs.var_ctn_ ∧ vs'.constr_pttn_ = vs.constr_pttn_ ∧
      exists accepted softs m, vs'.solver_ = { vs.solver_ with
          assertions := vs.solver_.assertions ++ accepted
          softs_ := softs
          model := m } ∧
        forall f, f ∈ accepted -> f ∈ vs.solver_.softs_.map equalTrue := by
  rcases bind_eq_ok.mp h with ⟨⟨contradictions_, time₁⟩, -, h⟩
  simp only at h
  split at h
  · rcases analyseSoftsFrom_frame 0 vs.solver_.softs_ { vs.solver_ with softs_ := [] } time₁
      with ⟨accepted, m, hframe, hmem⟩
    rcases Prod.mk.inj (Except.ok.inj h) with ⟨rfl, -⟩
    exact ⟨rfl, rfl, accepted, [], m, hframe, hmem⟩
  · cases h
    refine ⟨rfl, rfl, [], vs.solver_.softs_, vs.solver_.model, ?_,
      fun f hf => absurd hf List.not_mem_nil⟩
    rw [List.append_nil]

/-- The contradictions that a solver keeps are those of the conflict analysis. -/
theorem analyseHards_of_analyseConstraints {vs vs' : VariableSolver}
    (hnone : vs.contradictions_ = [])
    (h : analyseConstraints env vs time = .ok (vs', time')) :
    exists time₁, analyseHards env vs.constr_pttn_ time = .ok (vs'.contradictions_, time₁) := by
  rcases bind_eq_ok.mp h with ⟨⟨contradictions_, time₁⟩, hhards, h⟩
  exists time₁
  simp only at h
  split at h
  · next hnil =>
      cases h
      rw [hnil] at hhards
      rw [hnone]
      exact hhards
  · cases h
    exact hhards

/-- With a sound and complete backend the conflict analysis reports nothing exactly when
the hard constraints have a model. -/
theorem analyseHards_eq_nil_iff {variables_ : Declarations} (hsound : env.Sound)
    (hcomplete : env.Complete) (hcs : forall c, c ∈ cp.constraints_ -> c.Made variables_)
    {contradictions_ : List (List String)}
    (h : analyseHards env cp time = .ok (contradictions_, time')) :
    contradictions_ = [] ↔ exists m, forall c, c ∈ cp.constraints_ -> c.isHard = true ->
      NodeHolds m c.expr_ := by
  rcases bind_eq_ok.mp h with ⟨results, hanalyse, h⟩
  cases h
  have hdeclared : forall n,
      n ∈ (cp.constraints_.filter UserConstraint.isHard).map UserConstraint.expr_ ->
        n.DeclaredIn variables_ := by
    intro n hn
    rcases List.mem_map.mp hn with ⟨c, hc, rfl⟩
    exact (hcs c (List.mem_of_mem_filter hc)).declared
  rw [List.map_eq_nil_iff, analyseContradiction_eq_nil_iff hsound hcomplete hdeclared hanalyse]
  constructor
  · rintro ⟨m, hm⟩
    exact ⟨m, fun c hc hhard =>
      hm _ (List.mem_map_of_mem (List.mem_filter.mpr ⟨hc, hhard⟩))⟩
  · rintro ⟨m, hm⟩
    refine ⟨m, fun n hn => ?_⟩
    rcases List.mem_map.mp hn with ⟨c, hc, rfl⟩
    rcases List.mem_filter.mp hc with ⟨hc, hhard⟩
    exact hm c hc hhard

/-- With a sound and complete backend the analysis finds a contradiction exactly
when the hard constraints have no model, and asserts the greedy soft formulas
otherwise. -/
theorem analyseConstraints_exact {variables_ : Declarations} (hsound : env.Sound)
    (hcomplete : env.Complete) {vs vs' : VariableSolver}
    (hcs : forall c, c ∈ vs.constr_pttn_.constraints_ -> c.Made variables_)
    (hnone : vs.contradictions_ = [])
    (h : analyseConstraints env vs time = .ok (vs', time')) :
    (vs'.contradictions_ = [] ↔ exists m, forall c, c ∈ vs.constr_pttn_.constraints_ ->
      c.isHard = true -> NodeHolds m c.expr_) ∧
    (vs'.contradictions_ = [] -> vs'.solver_.assertions = vs.solver_.assertions ++
      Term.greedy vs.solver_.assertions (vs.solver_.softs_.map equalTrue)) := by
  cases analyseHards_of_analyseConstraints hnone h with
  | intro time₂ hhards =>
      constructor
      · exact analyseHards_eq_nil_iff hsound hcomplete hcs hhards
      · intro hnil
        rcases bind_eq_ok.mp h with ⟨⟨contradictions_, time₁⟩, _, h⟩
        simp only at h
        split at h
        · cases h
          exact assertions_analyseSoftsFrom hsound hcomplete.solver 0 _
            { vs.solver_ with softs_ := [] } _
        · next hne =>
            cases h
            exact absurd hnil hne

/-- The solver of a partition with all constraints, before any analysis. -/
def loaded (env : Environment) (vcon : VariableContainer) (cp : ConstraintPartition)
    (support : Finset Nat) : VariableSolver :=
  { var_ctn_ := vcon.restrict cp.support_vars_
    constr_pttn_ := cp
    solver_ :=
      { MetaSMTVisitor.new env.check with
        assertions := hardFormulas cp.constraints_
        softs_ := softFormulas cp.constraints_
        terminals_ := Terminals.declare vcon.variables_ support fun _ => none }
    contradictions_ := []
    inactive_softs_ := [] }

/-- The two courses of the constructor: without the analysis, and with it. -/
theorem new_cases (hcs : forall c, c ∈ cp.constraints_ -> c.Made vcon.variables_)
    {vs : VariableDefaultSolver} (h : new env vcon cp time = .ok (vs, time')) :
    (forall id, id ∈ cp.support_vars_ -> (vcon.variables_ id).isSome = true) ∧
      exists support,
        (forall c, c ∈ cp.constraints_ -> c.cover_ = false -> c.support_vars_ ⊆ support) ∧
        ((env.bypass_constraint_analysis = true ∧
            vs = { loaded env vcon cp support with
              bdd_solvers_ := fun _ => none
              random_write_refs_ := [] }) ∨
          (env.bypass_constraint_analysis = false ∧
            exists vs₁,
              analyseConstraints env (loaded env vcon cp support) time = .ok (vs₁, time') ∧
              setUpRandom env vs₁ = .ok vs)) := by
  rcases bind_eq_ok.mp h with ⟨vs₀, hnew, h⟩
  rcases bind_eq_ok.mp h with ⟨s, hadd, h⟩
  unfold VariableSolver.new at hnew
  split at hnew
  · next hdeclared =>
      cases hnew
      rcases addConstraints_spec hcs (fun id width hid => by cases hid) hadd with
        ⟨support, hs, hsupport⟩
      cases hs
      refine ⟨hdeclared, support, hsupport, ?_⟩
      simp only at h
      split at h
      · next hbypass =>
          cases h
          exact Or.inl ⟨hbypass, rfl⟩
      · next hbypass =>
          rcases bind_eq_ok.mp h with ⟨⟨vs₁, time₁⟩, hanalyse, h⟩
          rcases bind_eq_ok.mp h with ⟨vs₂, hrandom, h⟩
          cases h
          exact Or.inr ⟨Bool.eq_false_iff.mpr hbypass, vs₁, hanalyse, hrandom⟩
  · cases hnew

theorem built_new (hcs : forall c, c ∈ cp.constraints_ -> c.Made vcon.variables_)
    (hsupport : forall c, c ∈ cp.constraints_ -> c.support_vars_ ⊆ cp.support_vars_)
    {vs : VariableDefaultSolver} (h : new env vcon cp time = .ok (vs, time')) :
    Built vcon cp vs := by
  rcases new_cases hcs h with ⟨hdeclared, support, hmet, hcourse⟩
  have hwithin : Terminals.Within vcon.variables_ (loaded env vcon cp support).solver_.terminals_ :=
    Terminals.Within.declare (fun id width hid => by cases hid) support
  have hmet₁ : forall c, c ∈ cp.constraints_ -> c.cover_ = false ->
      forall id, id ∈ c.support_vars_ -> exists d, vcon.variables_ id = some d ∧
        (loaded env vcon cp support).solver_.terminals_ id = some d.bitsize := by
    intro c hc hcover id hid
    rcases Option.isSome_iff_exists.mp (hdeclared id (hsupport c hc hid)) with ⟨d, hd⟩
    refine ⟨d, hd, ?_⟩
    simp [loaded, Terminals.declare, hmet c hc hcover hid, hd]
  have hcontainer : forall id d, (vcon.restrict cp.support_vars_).variables_ id = some d ->
      vcon.variables_ id = some d := by
    intro id d hd
    simp only [VariableContainer.restrict] at hd
    split at hd
    · exact hd
    · cases hd
  rcases hcourse with ⟨_, rfl⟩ | ⟨_, vs₁, hanalyse, hrandom⟩
  · refine ⟨⟨hwithin, hcontainer, fun pair hpair => absurd hpair List.not_mem_nil, rfl⟩, rfl,
      rfl, ?_, hmet₁⟩
    refine ⟨[], ?_, fun f hf => absurd hf List.not_mem_nil⟩
    rw [List.append_nil]
    rfl
  · rcases analyseConstraints_frame hanalyse with
      ⟨hctn, hpttn, accepted, softs, m, hs, haccepted⟩
    rcases setUpRandom_spec hrandom with ⟨hbase, hrefs⟩
    have hctn' : vs.var_ctn_ = vcon.restrict cp.support_vars_ := by
      rw [hbase, hctn]
      rfl
    have hs' : vs.solver_ = { (loaded env vcon cp support).solver_ with
        assertions := hardFormulas cp.constraints_ ++ accepted
        softs_ := softs
        model := m } := by
      rw [hbase, hs]
      rfl
    refine ⟨⟨?_, ?_, ?_, ?_⟩, hctn', ?_, ?_, ?_⟩
    · rw [hs']
      exact hwithin
    · rw [hctn']
      exact hcontainer
    · intro pair hpair
      rw [hbase]
      exact hrefs pair hpair
    · rw [hs']
      rfl
    · rw [hbase, hpttn]
      rfl
    · refine ⟨accepted, ?_, haccepted⟩
      rw [hs']
    · intro c hc hcover id hid
      rw [hs']
      exact hmet₁ c hc hcover id hid

theorem Built.solve {vs vs' : VariableDefaultSolver} (hbuilt : Built vcon cp vs) {w w' : World}
    {result : Bool} (h : solve env vs w = .ok (result, vs', w')) : Built vcon cp vs' := by
  have hkept := kept_solve hbuilt.ready h
  constructor
  · exact hkept.ready
  · rw [hkept.base.var_ctn, hbuilt.var_ctn]
  · rw [hkept.base.constr_pttn, hbuilt.constr_pttn]
  · rw [hkept.assertions]
    exact hbuilt.asserted
  · intro c hc hcover id hid
    rcases hbuilt.met c hc hcover id hid with ⟨d, hd, hterminal⟩
    exact ⟨d, hd, hkept.extends_ id _ hterminal⟩

/-- After a successful call the model satisfies the hard constraints. -/
theorem Built.nodeHolds_of_solve {vs vs' : VariableDefaultSolver} (hbuilt : Built vcon cp vs)
    (hsound : env.Sound) {w w' : World}
    (h : VariableDefaultSolver.solve env vs w = .ok (true, vs', w'))
    {c : UserConstraint} (hc : c ∈ cp.constraints_) (hhard : c.isHard = true) :
    NodeHolds vs'.solver_.model c.expr_ := by
  have hmem : equalTrue (formula c.expr_) ∈ hardFormulas cp.constraints_ :=
    List.mem_map_of_mem (List.mem_filter.mpr ⟨hc, hhard⟩)
  rcases hbuilt.asserted with ⟨accepted, hassertions, -⟩
  have hsat := satisfies_of_solve hbuilt.ready hsound h (equalTrue (formula c.expr_)) (by
    rw [query, hassertions]
    exact List.mem_append_left _ (List.mem_append_left _ hmem))
  exact (holds_formula _ _).mp ((holds_equalTrue _ _).mp hsat)

end Build

end VariableDefaultSolver

end Backend
end Crave
