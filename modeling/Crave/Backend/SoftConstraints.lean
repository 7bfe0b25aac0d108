import Crave.Backend.Buildable

/-!
# Calls of solvers with soft constraints

Soft constraints are accepted once, when the solver of a partition is built. The
references are read at every call, so the accepted ones may contradict them later.
-/

namespace Crave
namespace Backend

open Foundation Ir MetaSmt MetaSMTVisitor

/-!
## Preparing a call
-/

section Prepare

variable {check : SortCheck} {variables_ : Declarations} {n : Node} {s : MetaSMTVisitor}

theorem exists_makeSuggestion (h : Taken check variables_ n) (hs : Standard check variables_ s) :
    exists s', s.makeSuggestion n = .ok s' ∧ Standard check variables_ s' := by
  rcases exists_visitPop h hs with ⟨f, s₁, hpop, hstandard⟩
  simp only [makeSuggestion, hpop]
  exact ⟨_, rfl, hstandard⟩

theorem exists_makeAssumption (h : Taken check variables_ n) (hs : Standard check variables_ s) :
    exists s', s.makeAssumption n = .ok s' ∧ Standard check variables_ s' := by
  rcases exists_visitPop h hs with ⟨f, s₁, hpop, hstandard⟩
  simp only [makeAssumption, hpop]
  exact ⟨_, rfl, hstandard⟩

/-- Both sides of the equation are predicates, or both are vectors of one width. -/
theorem isPredicate_equalConstant (id : Nat) (d : VarDecl) (value : BitVec 64) :
    BitBlastVisitor.isPredicate (equalConstant id d ⟨value, d.bitsize, d.sign⟩) = true := by
  have hkind : BitBlastVisitor.constantKind ⟨value, d.bitsize, d.sign⟩ =
      BitBlastVisitor.variableKind d.bitsize d.sign := rfl
  simp [BitBlastVisitor.isPredicate, equalConstant, BitBlastVisitor.sort, hkind,
    BitBlastVisitor.binarySort, BitBlastVisitor.binaryOprKind, BitBlast.binaryKind,
    BitBlast.resultKind]

theorem taken_equalConstant (check : SortCheck) {id : Nat} {d : VarDecl}
    (hd : variables_ id = some d) (value : BitVec 64) :
    Taken check variables_ (equalConstant id d ⟨value, d.bitsize, d.sign⟩) :=
  ⟨rfl, check.predicate _ (isPredicate_equalConstant id d value), equalConstant_declared hd _⟩

variable {var_ctn_ : VariableContainer}

theorem exists_assumeReferences (memory : Memory) {refs : List (Nat × Nat)}
    (hrefs : forall pair, pair ∈ refs -> variables_ pair.1 = some (var_ctn_.declOf pair.1))
    (hs : Standard check variables_ s) :
    exists s', assumeReferences var_ctn_ memory refs s = .ok s' ∧
      Standard check variables_ s' := by
  induction refs generalizing s with
  | nil => exact ⟨s, rfl, hs⟩
  | cons pair rest ih =>
      cases pair with
      | mk id loc =>
          rw [assumeReferences]
          rcases exists_makeAssumption
            (taken_equalConstant check (hrefs (id, loc) List.mem_cons_self) _) hs with
            ⟨s₁, hs₁, hstandard⟩
          rw [toConstantExpr, hs₁]
          exact ih (fun p hp => hrefs p (List.mem_cons_of_mem _ hp)) hstandard

theorem exists_suggestDistributions (random : Nat -> Nat)
    {refs : List (Nat × (Nat -> BitVec 64))}
    (hrefs : forall pair, pair ∈ refs -> variables_ pair.1 = some (var_ctn_.declOf pair.1))
    (hs : Standard check variables_ s) (time : Nat) :
    exists s' time', suggestDistributions var_ctn_ random refs s time = .ok (s', time') ∧
      Standard check variables_ s' := by
  induction refs generalizing s time with
  | nil => exact ⟨s, time, rfl, hs⟩
  | cons pair rest ih =>
      cases pair with
      | mk id nextValue =>
          rw [suggestDistributions]
          rcases exists_makeSuggestion
            (taken_equalConstant check (hrefs (id, nextValue) List.mem_cons_self) _) hs with
            ⟨s₁, hs₁, hstandard⟩
          rw [hs₁]
          exact ih (fun p hp => hrefs p (List.mem_cons_of_mem _ hp)) hstandard (time + 1)

theorem exists_suggestValues (memory : Memory) {refs : List (Nat × Nat)}
    (hrefs : forall pair, pair ∈ refs -> variables_ pair.1 = some (var_ctn_.declOf pair.1))
    (hs : Standard check variables_ s) :
    exists s', suggestValues var_ctn_ memory refs s = .ok s' := by
  induction refs generalizing s with
  | nil => exact ⟨s, rfl⟩
  | cons pair rest ih =>
      cases pair with
      | mk id loc =>
          rw [suggestValues]
          rcases exists_makeSuggestion
            (taken_equalConstant check (hrefs (id, loc) List.mem_cons_self) _) hs with
            ⟨s₁, hs₁, hstandard⟩
          rw [toConstantExpr, hs₁]
          exact ih (fun p hp => hrefs p (List.mem_cons_of_mem _ hp)) hstandard

end Prepare

namespace VariableDefaultSolver

variable {env : Environment} {vcon : VariableContainer} {cp : ConstraintPartition}
  {vs vs' : VariableDefaultSolver} {w w' : World} {time time' : Nat}

/-!
## The BDD solvers
-/

/-- A BDD solver has some of the hard constraints of its partition and nothing else. -/
structure BddOf (cp : ConstraintPartition) (bdd_solver : MetaSMTVisitor) : Prop where
  asserted : bdd_solver.assertions ⊆ hardFormulas cp.constraints_
  settled : bdd_solver.assumptions_ = []

theorem bddOf_assertBounded {limit : Nat} {cs : List UserConstraint}
    (hcs : forall c, c ∈ cs -> c ∈ cp.constraints_ ∧ c.isHard = true)
    (hmade : forall c, c ∈ cp.constraints_ -> c.Made vcon.variables_) {s s' : MetaSMTVisitor}
    (hs : Terminals.Within vcon.variables_ s.terminals_) (hbdd : BddOf cp s)
    (h : assertBounded limit cs s = .ok s') : BddOf cp s' := by
  induction cs generalizing s with
  | nil =>
      cases h
      exact hbdd
  | cons c rest ih =>
      have hc := hcs c List.mem_cons_self
      have hrest := fun d hd => hcs d (List.mem_cons_of_mem c hd)
      rw [assertBounded] at h
      split at h
      · rcases bind_eq_ok.mp h with ⟨s₁, hassert, h⟩
        have hs₁ := makeAssertion_spec (hmade c hc.left).declared hs hassert
        apply ih hrest ?_ ?_ h
        · rw [hs₁]
          exact hs.declare _
        · rw [hs₁]
          constructor
          · apply List.append_subset.mpr
            constructor
            · exact hbdd.asserted
            · intro f hf
              rw [List.mem_singleton.mp hf]
              exact List.mem_map_of_mem (List.mem_filter.mpr hc)
          · exact hbdd.settled
      · exact ih hrest hs hbdd h

theorem bddOf_createBddSolvers {limit : Nat} (hfiled : Filed cp)
    (hmade : forall c, c ∈ cp.constraints_ -> c.Made vcon.variables_)
    {refs : List (Nat × Nat)} {bdd_solvers_ : Nat -> Option MetaSMTVisitor}
    {vars_with_dist : Finset Nat} {r : (Nat -> Option MetaSMTVisitor) × Finset Nat}
    (hbdd : forall id b, bdd_solvers_ id = some b -> BddOf cp b)
    (h : createBddSolvers limit cp.singleVariableConstraintMap_ refs bdd_solvers_
      vars_with_dist = .ok r) :
    forall id b, r.1 id = some b -> BddOf cp b := by
  induction refs generalizing bdd_solvers_ vars_with_dist with
  | nil =>
      cases h
      exact hbdd
  | cons pair rest ih =>
      rw [createBddSolvers] at h
      split at h
      · exact ih hbdd h
      · rcases bind_eq_ok.mp h with ⟨b, hassert, h⟩
        have hb : BddOf cp b := by
          apply bddOf_assertBounded (hfiled pair.1) hmade ?_ ?_ hassert
          · intro id width hid
            cases hid
          · constructor
            · exact List.nil_subset _
            · rfl
        apply ih ?_ h
        intro id b' hb'
        by_cases hid : id = pair.1
        · rw [hid, Function.update_self] at hb'
          cases hb'
          exact hb
        · rw [Function.update_of_ne hid] at hb'
          exact hbdd id b' hb'

theorem bddOf_setUpRandom (hfiled : Filed cp)
    (hmade : forall c, c ∈ cp.constraints_ -> c.Made vcon.variables_) {vs : VariableSolver}
    (hcp : vs.constr_pttn_ = cp) (h : setUpRandom env vs = .ok vs') :
    forall id b, vs'.bdd_solvers_ id = some b -> BddOf cp b := by
  rcases bind_eq_ok.mp h with ⟨⟨bdd_solvers_, vars_with_dist⟩, hbdd, h⟩
  cases h
  rw [setUpBdd, hcp] at hbdd
  split at hbdd
  · cases hbdd
    intro id b hb
    cases hb
  · exact bddOf_createBddSolvers hfiled hmade (fun id b hb => by cases hb) hbdd

theorem BddOf.solve {b b' : MetaSMTVisitor} (h : BddOf cp b) {o : Oracle SolverVar}
    {random : Nat -> Nat} {result : Bool}
    (hsolve : b.solve o random true time = (result, b', time')) : BddOf cp b' := by
  have hframe := MetaSMTVisitor.solve_frame hsolve
  rw [hframe]
  exact ⟨h.asserted, rfl⟩

theorem BddOf.satisfiable {b : MetaSMTVisitor} (h : BddOf cp b)
    (hsat : Term.Satisfiable (hardFormulas cp.constraints_)) :
    Term.Satisfiable b.assertions :=
  hsat.mono h.asserted

theorem BddOf.solve_eq_true {b : MetaSMTVisitor} (h : BddOf cp b) {o : Oracle SolverVar}
    (hcomplete : o.Complete) (hsat : Term.Satisfiable (hardFormulas cp.constraints_))
    (random : Nat -> Nat) (time : Nat) : (b.solve o random true time).1 = true := by
  apply MetaSMTVisitor.solve_eq_true hcomplete
  rw [h.settled, List.append_nil]
  exact (h.satisfiable hsat).mono fun f hf => by simpa [softQuery] using hf

theorem bddOf_suggestBdd {o : Oracle SolverVar} {random : Nat -> Nat} {refs : List (Nat × Nat)}
    (hbdd : forall id b, vs.bdd_solvers_ id = some b -> BddOf cp b)
    (h : suggestBdd o random refs vs time = .ok (vs', time')) :
    forall id b, vs'.bdd_solvers_ id = some b -> BddOf cp b := by
  induction refs generalizing vs time with
  | nil =>
      cases h
      exact hbdd
  | cons pair rest ih =>
      rw [suggestBdd] at h
      split at h
      · exact ih hbdd h
      · next b hb =>
          cases hsolve : b.solve o random true time with
          | mk result p =>
              cases p with
              | mk b₁ time₁ =>
                  simp only [hsolve] at h
                  split at h
                  · rcases bind_eq_ok.mp h with ⟨s₁, _, h⟩
                    apply ih ?_ h
                    intro id b' hb'
                    by_cases hid : id = pair.1
                    · rw [hid] at hb'
                      simp only [Function.update_self] at hb'
                      cases hb'
                      exact (hbdd pair.1 b hb).solve hsolve
                    · simp only [Function.update_of_ne hid] at hb'
                      exact hbdd id b' hb'
                  · cases h

/-- No check of a BDD solver fails when the hard constraints have a model. -/
theorem exists_suggestBdd {o : Oracle SolverVar} (hcomplete : o.Complete)
    (hsat : Term.Satisfiable (hardFormulas cp.constraints_)) (random : Nat -> Nat)
    {variables_ : Declarations} {refs : List (Nat × Nat)}
    (hrefs : forall pair, pair ∈ refs -> variables_ pair.1 = some (vs.var_ctn_.declOf pair.1))
    (hs : Terminals.Within variables_ vs.solver_.terminals_)
    (hbdd : forall id b, vs.bdd_solvers_ id = some b -> BddOf cp b)
    (time : Nat) : exists r, suggestBdd o random refs vs time = .ok r := by
  induction refs generalizing vs time with
  | nil => exact ⟨_, rfl⟩
  | cons pair rest ih =>
      have hrest := fun p hp => hrefs p (List.mem_cons_of_mem pair hp)
      rw [suggestBdd]
      split
      · exact ih hrest hs hbdd time
      · next b hb =>
          have hb' := hbdd pair.1 b hb
          have htrue := hb'.solve_eq_true hcomplete hsat random time
          cases hsolve : b.solve o random true time with
          | mk result p =>
              cases p with
              | mk b₁ time₁ =>
                  rw [hsolve] at htrue
                  simp only [if_pos htrue]
                  rcases exists_makeSuggestion (taken_equalConstant vs.solver_.check
                    (hrefs pair List.mem_cons_self) _) ⟨rfl, hs⟩ with ⟨s₁, hs₁, hstandard⟩
                  rw [toConstantExpr, hs₁]
                  apply ih (by exact hrest) (by exact hstandard.right)
                  intro id b₂ hb₂
                  by_cases hid : id = pair.1
                  · rw [hid] at hb₂
                    simp only [Function.update_self] at hb₂
                    cases hb₂
                    exact hb'.solve hsolve
                  · simp only [Function.update_of_ne hid] at hb₂
                    exact hbdd id b₂ hb₂

/-!
## Solvers in use
-/

/-- The soft constraints that are accepted when the solver of a partition is built. -/
noncomputable def acceptedSofts (env : Environment) (cp : ConstraintPartition) : List Formula :=
  if env.bypass_constraint_analysis then []
  else
    Term.greedy (hardFormulas cp.constraints_) ((softFormulas cp.constraints_).map equalTrue)

/-- The equations between the read references of a partition and their values. -/
def readFormulas (vcon : VariableContainer) (cp : ConstraintPartition) (memory : Memory) :
    List Formula :=
  referenceFormulas (vcon.restrict cp.support_vars_) memory
    (vcon.restrict cp.support_vars_).read_references

/-- Built for a partition and called any number of times, with any values in the memory. -/
inductive Reached (env : Environment) (vcon : VariableContainer) (cp : ConstraintPartition) :
    VariableDefaultSolver -> Prop where
  | new {vs : VariableDefaultSolver} {time time' : Nat}
      (h : VariableDefaultSolver.new env vcon cp time = .ok (vs, time')) : Reached env vcon cp vs
  | solve {vs vs' : VariableDefaultSolver} {w w' : World} {result : Bool}
      (before : Reached env vcon cp vs)
      (h : VariableDefaultSolver.solve env vs w = .ok (result, vs', w')) :
      Reached env vcon cp vs'

/-- The invariant: what the analysis found out stays as it is. -/
structure Analysed (env : Environment) (vcon : VariableContainer) (cp : ConstraintPartition)
    (vs : VariableDefaultSolver) : Prop where
  built : Built vcon cp vs
  bdd : forall id b, vs.bdd_solvers_ id = some b -> BddOf cp b
  consistent : Term.Satisfiable (hardFormulas cp.constraints_) -> vs.contradictions_ = []
  assertions : vs.contradictions_ = [] ->
    vs.solver_.assertions = hardFormulas cp.constraints_ ++ acceptedSofts env cp

theorem satisfies_hardFormulas (m : Model SolverVar) (cs : List UserConstraint) :
    Term.Satisfies m (hardFormulas cs) ↔
      forall c, c ∈ cs -> c.isHard = true -> NodeHolds m c.expr_ := by
  constructor
  · intro h c hc hhard
    have hmem : equalTrue (formula c.expr_) ∈ hardFormulas cs :=
      List.mem_map_of_mem (List.mem_filter.mpr ⟨hc, hhard⟩)
    exact (holds_formula m c.expr_).mp ((holds_equalTrue m _).mp (h _ hmem))
  · intro h f hf
    rcases List.mem_map.mp hf with ⟨c, hc, hfc⟩
    have hc' := List.mem_filter.mp hc
    rw [← hfc]
    exact (holds_equalTrue m _).mpr ((holds_formula m c.expr_).mpr (h c hc'.left hc'.right))

theorem satisfiable_hardFormulas_iff (cs : List UserConstraint) :
    Term.Satisfiable (hardFormulas cs) ↔
      exists m, forall c, c ∈ cs -> c.isHard = true -> NodeHolds m c.expr_ := by
  constructor
  · intro h
    cases h with
    | intro m hm => exact ⟨m, (satisfies_hardFormulas m cs).mp hm⟩
  · intro h
    cases h with
    | intro m hm => exact ⟨m, (satisfies_hardFormulas m cs).mpr hm⟩

theorem analysed_new (hsound : env.Sound) (hcomplete : env.Complete)
    (hmade : forall c, c ∈ cp.constraints_ -> c.Made vcon.variables_)
    (hgrown : ConstraintPartitioner.Grown cp)
    (h : VariableDefaultSolver.new env vcon cp time = .ok (vs, time')) :
    Analysed env vcon cp vs := by
  have hsupport : forall c, c ∈ cp.constraints_ -> c.support_vars_ ⊆ cp.support_vars_ := by
    intro c hc v hv
    exact (hgrown.support v).mpr ⟨c, hc, hv⟩
  have hfiled : Filed cp := by
    intro id c hc
    have hmem := List.mem_filter.mp ((hgrown.single id).mem_iff.mp hc)
    exact ⟨hmem.left, (Bool.and_eq_true _ _ ▸ hmem.right).left⟩
  have hbuilt := built_new hmade hsupport h
  rcases new_cases hmade h with ⟨_, support, _, ⟨hbypass, rfl⟩ | ⟨hbypass, vs₁, hanalyse, hrandom⟩⟩
  · constructor
    · exact hbuilt
    · intro id b hb
      cases hb
    · intro _
      rfl
    · intro _
      rw [acceptedSofts, if_pos hbypass, List.append_nil]
      rfl
  · have hexact := analyseConstraints_exact hsound hcomplete hmade rfl hanalyse
    have hbase := (setUpRandom_spec hrandom).left
    have hpttn := (analyseConstraints_frame hanalyse).right.left
    constructor
    · exact hbuilt
    · exact bddOf_setUpRandom hfiled hmade hpttn hrandom
    · intro hsat
      rw [hbase]
      exact hexact.left.mpr ((satisfiable_hardFormulas_iff cp.constraints_).mp hsat)
    · intro hcontradictions
      rw [hbase] at hcontradictions ⊢
      rw [hexact.right hcontradictions, acceptedSofts, if_neg (by rw [hbypass]; decide)]
      rfl

theorem exists_prepare {variables_ : Declarations} (hready : Ready variables_ vs)
    (hsingle : exists r, suggestSingle env vs w.time = .ok r) :
    exists r, prepare env vs w = .ok r := by
  rcases hsingle with ⟨⟨vs₁, time₁⟩, hsingle⟩
  rcases suggestSingle_spec hready hsingle with ⟨hbase, hsuggested, hrandom⟩
  have hwithin := hsuggested.within hready.within
  have hdecl : forall id d, vs₁.var_ctn_.variables_ id = some d -> variables_ id = some d := by
    rw [hbase.var_ctn]
    exact hready.container
  have hreads : forall pair, pair ∈ vs₁.var_ctn_.read_references ->
      variables_ pair.1 = some (vs₁.var_ctn_.declOf pair.1) :=
    fun pair hpair => hdecl _ _ (VariableContainer.variables_of_read hpair)
  have hdists : forall pair, pair ∈ vs₁.var_ctn_.dist_references ->
      variables_ pair.1 = some (vs₁.var_ctn_.declOf pair.1) :=
    fun pair hpair => hdecl _ _ (VariableContainer.variables_of_dist hpair)
  rcases exists_assumeReferences w.memory hreads ⟨rfl, hwithin⟩ with ⟨s₂, hs₂, hstandard₂⟩
  rcases exists_suggestDistributions env.random hdists hstandard₂ time₁ with
    ⟨s₃, time₃, hs₃, hstandard₃⟩
  let refs := (randomShuffle env.random time₃ vs₁.random_write_refs_).1
  have hrefs : forall pair, pair ∈ refs.take ((refs.length + 1) / 2) ->
      variables_ pair.1 = some (vs₁.var_ctn_.declOf pair.1) := by
    intro pair hpair
    apply hdecl _ _ (VariableContainer.variables_of_write ?_)
    rw [hbase.var_ctn]
    apply hready.random
    rw [← hrandom]
    exact (randomShuffle_perm env.random time₃ vs₁.random_write_refs_).mem_iff.mp
      (List.mem_of_mem_take hpair)
  cases exists_suggestValues w.memory hrefs hstandard₃ with
  | intro s₄ hs₄ =>
      simp only [prepare, hsingle, hs₂, hs₃, bind, Except.bind]
      simp only [refs] at hs₄
      rw [hs₄]
      exact ⟨_, rfl⟩

theorem exists_solve_of_suggestSingle {variables_ : Declarations} (hready : Ready variables_ vs)
    (hsingle : vs.contradictions_ = [] -> exists r, suggestSingle env vs w.time = .ok r) :
    exists result vs' w', VariableDefaultSolver.solve env vs w = .ok (result, vs', w') := by
  by_cases hnone : vs.contradictions_ = []
  · cases exists_prepare hready (hsingle hnone) with
    | intro r hr =>
        rw [VariableDefaultSolver.solve, if_pos hnone, hr]
        cases hsolve : r.1.solver_.solve env.solver env.random true r.2 with
        | mk result p =>
            cases p with
            | mk s' time' =>
                simp only [bind, Except.bind, hsolve]
                split
                · exact ⟨_, _, _, rfl⟩
                · exact ⟨_, _, _, rfl⟩
  · rw [VariableDefaultSolver.solve, if_neg hnone]
    exact ⟨_, _, _, rfl⟩

theorem exists_suggestSingle {variables_ : Declarations} (hready : Ready variables_ vs)
    (hbdd : forall o, env.bdd = some o -> o.Complete)
    (hsat : Term.Satisfiable (hardFormulas cp.constraints_))
    (hsolvers : forall id b, vs.bdd_solvers_ id = some b -> BddOf cp b) (time : Nat) :
    exists r, suggestSingle env vs time = .ok r := by
  rw [suggestSingle]
  split
  · exact ⟨_, rfl⟩
  · next o ho =>
      exact exists_suggestBdd (hbdd o ho) hsat _
        (fun pair hpair => hready.container _ _ (VariableContainer.variables_of_write hpair))
        hready.within hsolvers _

theorem Analysed.exists_solve (h : Analysed env vcon cp vs)
    (hbdd : forall o, env.bdd = some o -> o.Complete)
    (hsat : Term.Satisfiable (hardFormulas cp.constraints_)) (w : World) :
    exists result vs' w', VariableDefaultSolver.solve env vs w = .ok (result, vs', w') :=
  exists_solve_of_suggestSingle h.built.ready fun _ =>
    exists_suggestSingle h.built.ready hbdd hsat h.bdd _

theorem bddOf_solve (hbdd : forall id b, vs.bdd_solvers_ id = some b -> BddOf cp b)
    {result : Bool} (h : VariableDefaultSolver.solve env vs w = .ok (result, vs', w')) :
    forall id b, vs'.bdd_solvers_ id = some b -> BddOf cp b := by
  cases solve_cases h with
  | inl hcontr =>
      rw [hcontr.right.right.left]
      exact hbdd
  | inr hasked =>
      rcases hasked with ⟨_, vs₁, time₁, s', time', hprepare, _, rfl, _⟩
      rcases bind_eq_ok.mp hprepare with ⟨⟨vs₂, time₂⟩, hsingle, hprepare⟩
      rcases bind_eq_ok.mp hprepare with ⟨s₂, _, hprepare⟩
      rcases bind_eq_ok.mp hprepare with ⟨⟨s₃, time₃⟩, _, hprepare⟩
      rcases bind_eq_ok.mp hprepare with ⟨s₄, _, hprepare⟩
      cases hprepare
      show forall id b, vs₂.bdd_solvers_ id = some b -> BddOf cp b
      rw [suggestSingle] at hsingle
      split at hsingle
      · cases hsingle
        exact hbdd
      · exact bddOf_suggestBdd hbdd hsingle

theorem Analysed.solve (h : Analysed env vcon cp vs) {result : Bool}
    (hsolve : VariableDefaultSolver.solve env vs w = .ok (result, vs', w')) :
    Analysed env vcon cp vs' := by
  have hkept := kept_solve h.built.ready hsolve
  constructor
  · exact h.built.solve hsolve
  · exact bddOf_solve h.bdd hsolve
  · intro hsat
    rw [hkept.base.contradictions]
    exact h.consistent hsat
  · intro hnone
    rw [hkept.assertions]
    rw [hkept.base.contradictions] at hnone
    exact h.assertions hnone

theorem Reached.analysed (hsound : env.Sound) (hcomplete : env.Complete)
    (hmade : forall c, c ∈ cp.constraints_ -> c.Made vcon.variables_)
    (hgrown : ConstraintPartitioner.Grown cp) (h : Reached env vcon cp vs) :
    Analysed env vcon cp vs := by
  induction h with
  | new hnew => exact analysed_new hsound hcomplete hmade hgrown hnew
  | solve _ hsolve ih => exact ih.solve hsolve

/-- A call succeeds exactly when the values of the references agree with the hard and
the accepted soft constraints. -/
theorem Analysed.solve_iff (h : Analysed env vcon cp vs) (hsound : env.Sound)
    (hcomplete : env.Complete) (hbdd : forall o, env.bdd = some o -> o.Complete) (w : World) :
    (exists vs' w', VariableDefaultSolver.solve env vs w = .ok (true, vs', w')) ↔
      Term.Satisfiable (hardFormulas cp.constraints_ ++ acceptedSofts env cp ++
        readFormulas vcon cp w.memory) := by
  have hquery : vs.contradictions_ = [] -> query vs w.memory =
      hardFormulas cp.constraints_ ++ acceptedSofts env cp ++ readFormulas vcon cp w.memory := by
    intro hnone
    rw [query, h.assertions hnone, h.built.var_ctn]
    rfl
  constructor
  · intro hok
    rcases hok with ⟨vs', w', hok⟩
    have hnone : vs.contradictions_ = [] := by
      cases solve_cases hok with
      | inl hcontr => cases hcontr.right.left
      | inr hasked => exact hasked.left
    rw [← hquery hnone]
    exact ⟨_, satisfies_of_solve h.built.ready hsound hok⟩
  · intro hsat
    have hhards : Term.Satisfiable (hardFormulas cp.constraints_) :=
      hsat.mono fun f hf => List.mem_append_left _ (List.mem_append_left _ hf)
    have hnone := h.consistent hhards
    rcases h.exists_solve hbdd hhards w with ⟨result, vs', w', hok⟩
    have htrue := solve_of_satisfiable h.built.ready hcomplete hnone
      (by rwa [hquery hnone]) hok
    rw [htrue] at hok
    exact ⟨vs', w', hok⟩

/-- The soft constraints do no harm exactly when the accepted ones agree with the
current values of the references, or else the hard constraints do not agree either. -/
theorem softs_harmless_iff (hsound : env.Sound) (hcomplete : env.Complete)
    (hbdd : forall o, env.bdd = some o -> o.Complete)
    (hmade : forall c, c ∈ cp.constraints_ -> c.Made vcon.variables_)
    (hgrown : ConstraintPartitioner.Grown cp) (h : Reached env vcon cp vs) (w : World) :
    (Term.Satisfiable (hardFormulas cp.constraints_ ++ readFormulas vcon cp w.memory) ->
        exists vs' w', VariableDefaultSolver.solve env vs w = .ok (true, vs', w')) ↔
      (Term.Satisfiable (hardFormulas cp.constraints_ ++ readFormulas vcon cp w.memory) ->
        Term.Satisfiable (hardFormulas cp.constraints_ ++ acceptedSofts env cp ++
          readFormulas vcon cp w.memory)) := by
  have hiff := (h.analysed hsound hcomplete hmade hgrown).solve_iff hsound hcomplete hbdd w
  constructor
  · intro hok hsat
    exact hiff.mp (hok hsat)
  · intro hagree hsat
    exact hiff.mpr (hagree hsat)

/-!
### A reference that moves away from an accepted constraint
-/

/-- The soft constraint that the variable 1 has no bits. -/
def softZero : UserConstraint :=
  { id_ := 0
    expr_ := equalConstant 1 ⟨8, false⟩ (toConstantExpr ⟨8, false⟩ 0)
    name_ := "soft_zero"
    support_vars_ := {1}
    unique_ := none
    soft_ := true
    cover_ := false
    enabled_ := true
    complexity_ := 8 }

def vconRead : VariableContainer :=
  VariableContainer.ofReferences ⟨8, false⟩ VariableContainer.byte_supported [1] [] (by decide)

noncomputable def envIdeal : Environment :=
  Environment.simple Oracle.ideal fun _ => 0

theorem envIdeal_sound : envIdeal.Sound :=
  Oracle.ideal_sound

theorem envIdeal_complete : envIdeal.Complete := by
  constructor
  · exact Oracle.ideal_complete
  · intro time assertions s _ hnil
    cases hnil

theorem made_softZero :
    forall c, c ∈ (ConstraintPartition.start softZero).constraints_ ->
      c.Made vconRead.variables_ := by
  intro c hc
  rw [List.mem_singleton.mp hc]
  constructor
  · exact equalConstant_declared rfl _
  · exact (supportVars_equalConstant 1 _ _).symm

theorem exists_reached_softZero :
    exists vs, Reached envIdeal vconRead (ConstraintPartition.start softZero) vs := by
  have hfiled : forall id c,
      c ∈ (ConstraintPartition.start softZero).singleVariableConstraintMap_ id ->
        c ∈ (ConstraintPartition.start softZero).constraints_ ∧ c.isHard = true := by
    intro id c hc
    cases hc
  cases @exists_defaultSolver envIdeal vconRead (ConstraintPartition.start softZero)
    (by decide) made_softZero hfiled 0 with
  | intro r hr => exact ⟨r.1, Reached.new hr⟩

theorem holds_equal (value : Nat) (m : Model SolverVar) :
    Term.Holds m
        (equalTrue (formula (equalConstant 1 ⟨8, false⟩ (toConstantExpr ⟨8, false⟩ value)))) ↔
      BitVec.ofNat 8 (m (.terminal 1)) = BitVec.ofNat 8 value := by
  rw [holds_equalTrue, holds_formula]
  exact nodeHolds_equalConstant m 1 (d := ⟨8, false⟩) (by decide) value

/-- The reference agrees with the hard constraints, as there are none. -/
theorem satisfiable_softZero (value : Nat) :
    Term.Satisfiable (hardFormulas (ConstraintPartition.start softZero).constraints_ ++
      readFormulas vconRead (ConstraintPartition.start softZero) fun _ => value) := by
  exists fun _ => value
  intro f hf
  rw [show f = _ from List.mem_singleton.mp hf]
  exact (holds_equal value _).mpr rfl

theorem acceptedSofts_softZero :
    acceptedSofts envIdeal (ConstraintPartition.start softZero) =
      [equalTrue (formula softZero.expr_)] := by
  have hsat : Term.Satisfiable ([] ++ [equalTrue (formula softZero.expr_)]) := by
    refine ⟨fun _ => 0, ?_⟩
    intro f hf
    rw [List.mem_singleton.mp hf]
    exact (holds_equal 0 _).mpr rfl
  show Term.greedy [] [equalTrue (formula softZero.expr_)] = _
  rw [Term.greedy, if_pos hsat]
  rfl

/-- The soft constraint was accepted, so a call fails as soon as the reference is 1. -/
theorem soft_zero_fails :
    ¬ forall (env : Environment) (vcon : VariableContainer) (cp : ConstraintPartition)
        (vs : VariableDefaultSolver) (w : World),
      env.Sound -> env.Complete -> (forall o, env.bdd = some o -> o.Complete) ->
      (forall c, c ∈ cp.constraints_ -> c.Made vcon.variables_) ->
      ConstraintPartitioner.Grown cp -> Reached env vcon cp vs ->
      Term.Satisfiable (hardFormulas cp.constraints_ ++ readFormulas vcon cp w.memory) ->
      exists vs' w', VariableDefaultSolver.solve env vs w = .ok (true, vs', w') := by
  intro h
  cases exists_reached_softZero with
  | intro vs hreached =>
      let w : World :=
        { memory := fun _ => 1, vectors := fun _ => [], time := 0, var_ID := 1
          constraint_ID := 1 }
      have hgrown := ConstraintPartitioner.grown_start softZero
      have hok := h envIdeal vconRead _ vs w envIdeal_sound envIdeal_complete
        (fun o ho => by cases ho) made_softZero hgrown hreached (satisfiable_softZero 1)
      have hanalysed := hreached.analysed envIdeal_sound envIdeal_complete made_softZero hgrown
      have hsat := (hanalysed.solve_iff envIdeal_sound envIdeal_complete
        (fun o ho => by cases ho) w).mp hok
      rw [acceptedSofts_softZero] at hsat
      cases hsat with
      | intro m hm =>
          have hzero := (holds_equal 0 m).mp (hm _ List.mem_cons_self)
          have hone := (holds_equal 1 m).mp (hm _ (List.mem_cons_of_mem _ List.mem_cons_self))
          rw [hzero] at hone
          cases hone

theorem softs_harmless_zero :
    exists vs, Reached envIdeal vconRead (ConstraintPartition.start softZero) vs ∧
      exists vs' w', VariableDefaultSolver.solve envIdeal vs
        { memory := fun _ => 0, vectors := fun _ => [], time := 0, var_ID := 1
          constraint_ID := 1 } = .ok (true, vs', w') := by
  cases exists_reached_softZero with
  | intro vs hreached =>
      exists vs
      constructor
      · exact hreached
      · apply (softs_harmless_iff envIdeal_sound envIdeal_complete (fun o ho => by cases ho)
          made_softZero (ConstraintPartitioner.grown_start softZero) hreached _).mpr
        · intro _
          exists fun _ => 0
          rw [acceptedSofts_softZero]
          intro f hf
          rcases List.mem_cons.mp hf with hf | hf
          · rw [hf]
            exact (holds_equal 0 _).mpr rfl
          · rw [show f = _ from List.mem_singleton.mp hf]
            exact (holds_equal 0 _).mpr rfl
        · exact satisfiable_softZero 0

end VariableDefaultSolver

end Backend
end Crave
