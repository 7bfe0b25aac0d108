import Crave.Backend.VariableSolver

/-!
# The coverage solver of a partition

`VariableCoverageSolver` asserts the hard constraints of its partition.  A call
of `solve` looks for the first cover constraint that was not hit before and has
a solution.
-/

namespace Crave
namespace Backend

open Foundation Ir MetaSMTVisitor

structure VariableCoverageSolver extends VariableSolver where
  covered_set_ : Finset String

namespace VariableCoverageSolver

/-- Soft and cover constraints are not asserted. -/
def assertHards : List UserConstraint -> MetaSMTVisitor -> Except String MetaSMTVisitor
  | [], s => .ok s
  | c :: rest, s =>
      if c.soft_ || c.cover_ then
        assertHards rest s
      else do
        assertHards rest (<- s.makeAssertion c.expr_)

def new (env : Environment) (vcon : VariableContainer) (cp : ConstraintPartition) :
    Except String VariableCoverageSolver := do
  let vs <- VariableSolver.new env vcon cp
  let solver_ <- assertHards cp.constraints_ vs.solver_
  let vs := { vs with solver_ := solver_ }
  return { vs with covered_set_ := ∅ }

/-- The read references and a cover constraint are assumed. -/
def assumeGoal (memory : Memory) (c : UserConstraint) (vs : VariableCoverageSolver) :
    Except String MetaSMTVisitor := do
  let solver_ <- assumeReferences vs.var_ctn_ memory vs.var_ctn_.read_references vs.solver_
  solver_.makeAssumption c.expr_

/-- The loop over the constraints of the partition. -/
def solveFrom (env : Environment) : List UserConstraint -> VariableCoverageSolver -> World ->
    Except String (Bool × VariableCoverageSolver × World)
  | [], vs, w => .ok (false, vs, w)
  | c :: rest, vs, w =>
      if !c.cover_ || c.name_ ∈ vs.covered_set_ then
        solveFrom env rest vs w
      else do
        let solver_ <- assumeGoal w.memory c vs
        let (result, solver_, time) := solver_.solve env.solver env.random true w.time
        if result then
          return (true,
            { vs with solver_ := solver_, covered_set_ := insert c.name_ vs.covered_set_ },
            { w with
              memory := writeBack solver_ vs.var_ctn_.write_references w.memory
              time := time })
        else
          solveFrom env rest { vs with solver_ := solver_ } { w with time := time }

def solve (env : Environment) (vs : VariableCoverageSolver) (w : World) :
    Except String (Bool × VariableCoverageSolver × World) :=
  solveFrom env vs.constr_pttn_.constraints_ vs w

/-!
## What a solver keeps
-/

/-- Built for a partition and used any number of times since. -/
structure Built (vcon : VariableContainer) (cp : ConstraintPartition)
    (vs : VariableCoverageSolver) : Prop where
  within : Terminals.Within vcon.variables_ vs.solver_.terminals_
  settled : vs.solver_.assumptions_ = []
  var_ctn : vs.var_ctn_ = vcon.restrict cp.support_vars_
  constr_pttn : vs.constr_pttn_ = cp
  declared : forall id, id ∈ cp.support_vars_ -> exists d, vcon.variables_ id = some d
  assertions : vs.solver_.assertions = hardFormulas cp.constraints_
  met : forall c, c ∈ cp.constraints_ -> c.isHard = true ->
    forall id, id ∈ c.support_vars_ -> exists d, vcon.variables_ id = some d ∧
      vs.solver_.terminals_ id = some d.bitsize

section Build

variable {env : Environment} {vcon : VariableContainer} {cp : ConstraintPartition}

theorem assertHards_spec {variables_ : Declarations} {cs : List UserConstraint}
    (hcs : forall c, c ∈ cs -> c.Made variables_) {s s' : MetaSMTVisitor}
    (hs : Terminals.Within variables_ s.terminals_) (h : assertHards cs s = .ok s') :
    exists support,
      s' = { s with
        assertions := s.assertions ++ hardFormulas cs
        terminals_ := Terminals.declare variables_ support s.terminals_ } ∧
      forall c, c ∈ cs -> c.isHard = true -> c.support_vars_ ⊆ support := by
  induction cs generalizing s with
  | nil =>
      cases h
      refine ⟨∅, ?_, fun c hc => absurd hc List.not_mem_nil⟩
      simp [hardFormulas]
  | cons c rest ih =>
      have hc := hcs c List.mem_cons_self
      have hrest := fun d hd => hcs d (List.mem_cons_of_mem c hd)
      unfold assertHards at h
      split at h
      · rename_i hskip
        have hhard : c.isHard = false := by
          rw [UserConstraint.isHard, ← Bool.not_or, hskip]
          rfl
        rcases ih hrest hs h with ⟨support, rfl, hsupport⟩
        refine ⟨support, ?_, fun d hd hdhard => ?_⟩
        · simp [hardFormulas, hhard]
        · rcases List.mem_cons.mp hd with rfl | hd
          · rw [hhard] at hdhard
            cases hdhard
          · exact hsupport d hd hdhard
      · rename_i hskip
        have hhard : c.isHard = true := by
          rw [UserConstraint.isHard, ← Bool.not_or]
          simpa using hskip
        rcases bind_eq_ok.mp h with ⟨s₁, hadd, h⟩
        have hs₁ := makeAssertion_spec hc.declared hs hadd
        rcases ih hrest (by rw [hs₁]; exact hs.declare _) h with ⟨support, hs', hsupport⟩
        refine ⟨c.support_vars_ ∪ support, ?_, fun d hd hdhard => ?_⟩
        · rw [hs', hs₁, hc.support]
          simp [hardFormulas, hhard, Terminals.declare_declare]
        · rcases List.mem_cons.mp hd with rfl | hd
          · exact Finset.subset_union_left
          · exact (hsupport d hd hdhard).trans Finset.subset_union_right

theorem built_new (hcs : forall c, c ∈ cp.constraints_ -> c.Made vcon.variables_)
    (hsupport : forall c, c ∈ cp.constraints_ -> c.support_vars_ ⊆ cp.support_vars_)
    {vs : VariableCoverageSolver} (h : new env vcon cp = .ok vs) :
    Built vcon cp vs ∧ vs.covered_set_ = ∅ := by
  rcases bind_eq_ok.mp h with ⟨vs₁, hnew, h⟩
  rcases bind_eq_ok.mp h with ⟨s₁, hadd, h⟩
  unfold VariableSolver.new at hnew
  split at hnew
  · rename_i hdeclared
    cases hnew
    have hempty : Terminals.Within vcon.variables_ (MetaSMTVisitor.new env.check).terminals_ :=
      fun id width hid => by cases hid
    rcases assertHards_spec hcs hempty hadd with ⟨support, hs₁, hmet⟩
    cases h
    refine ⟨⟨?_, ?_, rfl, rfl, ?_, ?_, ?_⟩, rfl⟩
    · change Terminals.Within vcon.variables_ s₁.terminals_
      rw [hs₁]
      exact hempty.declare support
    · change s₁.assumptions_ = []
      rw [hs₁]
      rfl
    · exact fun id hid => Option.isSome_iff_exists.mp (hdeclared id hid)
    · change s₁.assertions = _
      rw [hs₁]
      rfl
    · intro c hc hhard id hid
      rcases Option.isSome_iff_exists.mp (hdeclared id (hsupport c hc hid)) with ⟨d, hd⟩
      refine ⟨d, hd, ?_⟩
      change s₁.terminals_ id = _
      rw [hs₁]
      simp [Terminals.declare, hmet c hc hhard hid, hd]
  · cases hnew

/-- A solver instance that assumes and solves keeps what `Built` promises. -/
theorem Built.setSolver {vs : VariableCoverageSolver} (hbuilt : Built vcon cp vs)
    {s : MetaSMTVisitor} {support : Finset Nat} {covered_set_ : Finset String}
    (hassertions : s.assertions = vs.solver_.assertions) (hsettled : s.assumptions_ = [])
    (hterminals : s.terminals_ =
      Terminals.declare vcon.variables_ support vs.solver_.terminals_) :
    Built vcon cp { vs with solver_ := s, covered_set_ := covered_set_ } := by
  constructor
  · change Terminals.Within vcon.variables_ s.terminals_
    rw [hterminals]
    exact hbuilt.within.declare support
  · exact hsettled
  · exact hbuilt.var_ctn
  · exact hbuilt.constr_pttn
  · exact hbuilt.declared
  · change s.assertions = _
    rw [hassertions, hbuilt.assertions]
  · intro c hc hhard id hid
    rcases hbuilt.met c hc hhard id hid with ⟨d, hd, hterminal⟩
    refine ⟨d, hd, ?_⟩
    change s.terminals_ id = _
    rw [hterminals]
    exact hbuilt.within.extends_declare support id _ hterminal

/-!
## A goal that is tried
-/

/-- The query for a cover constraint: the hard constraints, the values of the
read references and the goal. -/
def goalQuery (vcon : VariableContainer) (cp : ConstraintPartition) (memory : Memory)
    (c : UserConstraint) : List Formula :=
  hardFormulas cp.constraints_ ++
    (referenceFormulas (vcon.restrict cp.support_vars_) memory
      (vcon.restrict cp.support_vars_).read_references ++ [equalTrue (formula c.expr_)])

theorem variables_of_restrict {support : Finset Nat} {id : Nat} {d : VarDecl}
    (h : (vcon.restrict support).variables_ id = some d) : vcon.variables_ id = some d := by
  simp only [VariableContainer.restrict] at h
  split at h
  · exact h
  · cases h

theorem assumeGoal_spec {vs : VariableCoverageSolver} (hbuilt : Built vcon cp vs)
    {c : UserConstraint} (hc : c.Made vcon.variables_) {memory : Memory} {s : MetaSMTVisitor}
    (h : assumeGoal memory c vs = .ok s) :
    s.assertions ++ s.assumptions_ = goalQuery vcon cp memory c ∧
      s.assertions = vs.solver_.assertions ∧
      exists support, c.support_vars_ ⊆ support ∧ s.terminals_ =
        Terminals.declare vcon.variables_ support vs.solver_.terminals_ := by
  rcases bind_eq_ok.mp h with ⟨s₁, hrefs, h⟩
  rw [hbuilt.var_ctn] at hrefs
  rcases assumeReferences_spec
    (fun pair hpair => variables_of_restrict (VariableContainer.variables_of_read hpair))
    hbuilt.within hrefs with ⟨support, hs₁, -⟩
  have hs := makeAssumption_spec hc.declared (by
    rw [hs₁]
    exact hbuilt.within.declare support) h
  refine ⟨?_, ?_, support ∪ c.support_vars_, Finset.subset_union_right, ?_⟩
  · rw [hs, hs₁]
    simp only [hbuilt.assertions, hbuilt.settled, List.nil_append]
    rfl
  · rw [hs, hs₁]
  · rw [hs, hs₁, hc.support]
    simp only [Terminals.declare_declare]

/-- One goal is tried: the solver stays built, and the answer is that of the
query of the goal. -/
theorem tryGoal_spec {vs : VariableCoverageSolver} (hbuilt : Built vcon cp vs)
    {c : UserConstraint} (hc : c.Made vcon.variables_) {memory : Memory}
    {s s' : MetaSMTVisitor} {result : Bool} {time time' : Nat}
    (hgoal : assumeGoal memory c vs = .ok s)
    (hsolve : s.solve env.solver env.random true time = (result, s', time'))
    (covered_set_ : Finset String) :
    Built vcon cp { vs with solver_ := s', covered_set_ := covered_set_ } ∧
      (forall id d, id ∈ c.support_vars_ -> vcon.variables_ id = some d ->
        s'.terminals_ id = some d.bitsize) ∧
      (env.Sound -> result = true ->
        Term.Satisfies s'.model (goalQuery vcon cp memory c)) ∧
      (env.Complete -> result = false -> ¬ Term.Satisfiable (goalQuery vcon cp memory c)) := by
  rcases assumeGoal_spec hbuilt hc hgoal with
    ⟨hquery, hassertions, support, hsupport, hterminals⟩
  have hframe := MetaSMTVisitor.solve_frame hsolve
  have hterminals' : s'.terminals_ =
      Terminals.declare vcon.variables_ support vs.solver_.terminals_ := by
    rw [hframe, hterminals]
  refine ⟨?_, ?_, ?_, ?_⟩
  · refine hbuilt.setSolver ?_ ?_ hterminals'
    · rw [hframe, hassertions]
    · rw [hframe]
  · intro id d hid hd
    rw [hterminals']
    simp [Terminals.declare, hsupport hid, hd]
  · rintro hsound rfl
    have hsat := MetaSMTVisitor.satisfies_of_solve hsound hsolve
    rw [hquery] at hsat
    exact hsat.mono fun t ht => List.mem_append_left _ ht
  · rintro hcomplete rfl hsat
    have htrue := @MetaSMTVisitor.solve_eq_true _ env.random true s time hcomplete.solver (by
      rw [hquery]
      simpa [softQuery] using hsat)
    rw [hsolve] at htrue
    cases htrue

/-- A call that hits a goal. -/
structure Hit (env : Environment) (vcon : VariableContainer) (cp : ConstraintPartition)
    (vs vs' : VariableCoverageSolver) (w w' : World) (c : UserConstraint) : Prop where
  cover : c.cover_ = true
  fresh : c.name_ ∉ vs.covered_set_
  covered : vs'.covered_set_ = insert c.name_ vs.covered_set_
  met : forall id d, id ∈ c.support_vars_ -> vcon.variables_ id = some d ->
    vs'.solver_.terminals_ id = some d.bitsize
  satisfied : env.Sound -> Term.Satisfies vs'.solver_.model (goalQuery vcon cp w.memory c)
  world : w' = { w with
    memory := writeBack vs'.solver_ (vcon.restrict cp.support_vars_).write_references w.memory
    time := w'.time }

/-- A call that hits no goal. -/
structure Missed (env : Environment) (vcon : VariableContainer) (cp : ConstraintPartition)
    (cs : List UserConstraint) (vs vs' : VariableCoverageSolver) (w w' : World) : Prop where
  covered : vs'.covered_set_ = vs.covered_set_
  goals : env.Complete -> forall c, c ∈ cs -> c.cover_ = true ->
    c.name_ ∉ vs.covered_set_ -> ¬ Term.Satisfiable (goalQuery vcon cp w.memory c)
  world : w' = { w with time := w'.time }

theorem solveFrom_spec {cs : List UserConstraint}
    (hcs : forall c, c ∈ cs -> c.Made vcon.variables_) {vs vs' : VariableCoverageSolver}
    (hbuilt : Built vcon cp vs) {w w' : World} {result : Bool}
    (h : solveFrom env cs vs w = .ok (result, vs', w')) :
    Built vcon cp vs' ∧
      (result = true -> exists c, c ∈ cs ∧ Hit env vcon cp vs vs' w w' c) ∧
      (result = false -> Missed env vcon cp cs vs vs' w w') := by
  induction cs generalizing vs w with
  | nil =>
      cases h
      constructor
      · exact hbuilt
      constructor
      · intro hr
        cases hr
      · intro _
        exact ⟨rfl, fun _ c hc => absurd hc List.not_mem_nil, rfl⟩
  | cons c rest ih =>
      have hrest := fun d hd => hcs d (List.mem_cons_of_mem c hd)
      unfold solveFrom at h
      split at h
      · rename_i hskip
        rcases ih hrest hbuilt h with ⟨hbuilt', hhit, hmissed⟩
        refine ⟨hbuilt', fun hr => ?_, fun hr => ?_⟩
        · rcases hhit hr with ⟨d, hd, hit⟩
          exact ⟨d, List.mem_cons_of_mem c hd, hit⟩
        · rcases hmissed hr with ⟨hcovered, hgoals, hworld⟩
          refine ⟨hcovered, fun hcomplete d hd hcover hname => ?_, hworld⟩
          rcases List.mem_cons.mp hd with rfl | hd
          · simp [hcover, hname] at hskip
          · exact hgoals hcomplete d hd hcover hname
      · rename_i hskip
        have hcover : c.cover_ = true ∧ c.name_ ∉ vs.covered_set_ := by simpa using hskip
        rcases bind_eq_ok.mp h with ⟨s, hgoal, h⟩
        cases hsolve : s.solve env.solver env.random true w.time with
        | mk r p =>
            rcases p with ⟨s', time'⟩
            have hmade := hcs c List.mem_cons_self
            have htry := tryGoal_spec hbuilt hmade hgoal hsolve
            simp only [hsolve] at h
            cases r with
            | true =>
                cases h
                refine ⟨(htry _).1, fun _ => ⟨c, List.mem_cons_self, ?_⟩, fun hr => by cases hr⟩
                refine ⟨hcover.1, hcover.2, rfl, (htry ∅).2.1,
                  fun hsound => (htry ∅).2.2.1 hsound rfl, ?_⟩
                rw [hbuilt.var_ctn]
            | false =>
                rcases ih hrest (htry vs.covered_set_).1 h with ⟨hbuilt', hhit, hmissed⟩
                refine ⟨hbuilt', fun hr => ?_, fun hr => ?_⟩
                · rcases hhit hr with ⟨d, hd, hit⟩
                  exact ⟨d, List.mem_cons_of_mem c hd, hit.cover, hit.fresh, hit.covered,
                    hit.met, hit.satisfied, hit.world⟩
                · rcases hmissed hr with ⟨hcovered, hgoals, hworld⟩
                  refine ⟨hcovered, fun hcomplete d hd hcover' hname => ?_, hworld⟩
                  rcases List.mem_cons.mp hd with rfl | hd
                  · exact (htry ∅).2.2.2 hcomplete rfl
                  · exact hgoals hcomplete d hd hcover' hname

theorem solve_spec (hcs : forall c, c ∈ cp.constraints_ -> c.Made vcon.variables_)
    {vs vs' : VariableCoverageSolver} (hbuilt : Built vcon cp vs) {w w' : World} {result : Bool}
    (h : solve env vs w = .ok (result, vs', w')) :
    Built vcon cp vs' ∧
      (result = true -> exists c, c ∈ cp.constraints_ ∧ Hit env vcon cp vs vs' w w' c) ∧
      (result = false -> Missed env vcon cp cp.constraints_ vs vs' w w') := by
  unfold solve at h
  rw [hbuilt.constr_pttn] at h
  exact solveFrom_spec hcs hbuilt h

end Build

end VariableCoverageSolver
end Backend
end Crave
