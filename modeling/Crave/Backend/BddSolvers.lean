import Crave.Backend.PriorValues

/-!
# The BDD solvers of a partition

A BDD solver proposes values of one variable. It has the simple hard constraints over that
variable alone, and a call relies on it that these can be solved.
-/

namespace Crave
namespace Backend

open Foundation Ir MetaSMTVisitor

namespace VariableDefaultSolver

variable {variables_ : Declarations} {env : Environment} {vcon : VariableContainer}
  {cp : ConstraintPartition} {vs vs' : VariableDefaultSolver} {w w' : World} {result : Bool}
  {time time' : Nat}

/-!
## What a BDD solver has
-/

theorem filed_of_collected (h : ConstraintPartitioner.Collected cp) : Filed cp := by
  have hadd : forall (before : ConstraintPartition) (d : UserConstraint), Filed before ->
      Filed (before.add d) := by
    intro before d hbefore id c hc
    have hkept : c ∈ before.constraints_ ∧ c.isHard = true ->
        c ∈ (before.add d).constraints_ ∧ c.isHard = true := by
      intro hold
      constructor
      · exact (ConstraintPartitioner.mem_insertConstraint d c _).mpr (Or.inr hold.left)
      · exact hold.right
    simp only [ConstraintPartition.add] at hc
    split at hc
    · next hsingle =>
        cases List.mem_append.mp hc with
        | inl hold => exact hkept (hbefore id c hold)
        | inr hnew =>
            rw [List.mem_singleton.mp hnew]
            constructor
            · exact (ConstraintPartitioner.mem_insertConstraint d d _).mpr (Or.inl rfl)
            · exact (Bool.and_eq_true _ _ ▸ hsingle.left).left
    · exact hkept (hbefore id c hc)
  induction h with
  | start c =>
      apply hadd
      intro id d hd
      cases hd
  | absorb _ c ih => exact hadd _ c ih

/-- Every variable with a hard constraint of its own and without a distribution has a
BDD solver. -/
theorem isSome_createBddSolvers {limit : Nat} {svc_map : Nat -> List UserConstraint}
    {refs : List (Nat × Nat)} {bdd_solvers_ : Nat -> Option MetaSMTVisitor}
    {vars_with_dist : Finset Nat} {r : (Nat -> Option MetaSMTVisitor) × Finset Nat}
    (h : createBddSolvers limit svc_map refs bdd_solvers_ vars_with_dist = .ok r) {id : Nat}
    (hid : (bdd_solvers_ id).isSome = true ∨
      (exists loc, (id, loc) ∈ refs) ∧ svc_map id ≠ [] ∧ id ∉ vars_with_dist) :
    (r.1 id).isSome = true := by
  induction refs generalizing bdd_solvers_ vars_with_dist with
  | nil =>
      cases h
      cases hid with
      | inl hsome => exact hsome
      | inr hopen =>
          rcases hopen with ⟨⟨loc, hloc⟩, _⟩
          cases hloc
  | cons pair rest ih =>
      rw [createBddSolvers] at h
      split at h
      · next hskip =>
          apply ih h
          cases hid with
          | inl hsome => exact Or.inl hsome
          | inr hopen =>
              rcases hopen with ⟨⟨loc, hloc⟩, hfiled, hdist⟩
              cases List.mem_cons.mp hloc with
              | inl hself =>
                  rw [← hself] at hskip
                  simp only [Bool.or_eq_true, List.isEmpty_iff, decide_eq_true_iff] at hskip
                  exact absurd hskip (not_or.mpr ⟨hfiled, hdist⟩)
              | inr hrest => exact Or.inr ⟨⟨loc, hrest⟩, hfiled, hdist⟩
      · rcases bind_eq_ok.mp h with ⟨b, _, h⟩
        apply ih h
        by_cases hself : id = pair.1
        · left
          rw [hself, Function.update_self]
          rfl
        · rw [Function.update_of_ne hself, Finset.mem_insert]
          cases hid with
          | inl hsome => exact Or.inl hsome
          | inr hopen =>
              rcases hopen with ⟨⟨loc, hloc⟩, hfiled, hdist⟩
              right
              refine ⟨⟨loc, ?_⟩, hfiled, not_or.mpr ⟨hself, hdist⟩⟩
              cases List.mem_cons.mp hloc with
              | inl hfirst =>
                  rw [← hfirst] at hself
                  exact absurd rfl hself
              | inr hrest => exact hrest

/-!
## The BDD solvers
-/

/-- The BDD solvers have some of the hard constraints, and these have a model when no
conflict was found. -/
def Checked (vs : VariableDefaultSolver) : Prop :=
  forall id b, vs.bdd_solvers_ id = some b -> BddOf vs.constr_pttn_ b ∧
    (vs.contradictions_ = [] -> Term.Satisfiable (hardFormulas vs.constr_pttn_.constraints_))

/-- The conflict analysis of a partition reports nothing exactly when the hard constraints
have a model. -/
def AnalysisExact (env : Environment) (cp : ConstraintPartition) : Prop :=
  forall time contradictions_ time',
    analyseHards env cp time = .ok (contradictions_, time') ->
      (contradictions_ = [] ↔ Term.Satisfiable (hardFormulas cp.constraints_))

theorem analysisExact_of_complete (hsound : env.Sound) (hcomplete : env.Complete)
    (hmade : forall c, c ∈ cp.constraints_ -> c.Made vcon.variables_) :
    AnalysisExact env cp := by
  intro time contradictions_ time' h
  rw [satisfiable_hardFormulas_iff]
  exact analyseHards_eq_nil_iff hsound hcomplete hmade h

theorem checked_of_analysisExact (hanalysis : AnalysisExact env cp)
    (hmade : forall c, c ∈ cp.constraints_ -> c.Made vcon.variables_) (hfiled : Filed cp)
    (h : new env vcon cp time = .ok (vs, time')) : Checked vs := by
  rcases new_cases hmade h with ⟨_, support, _, ⟨_, rfl⟩ | ⟨_, vs₁, hanalyse, hrandom⟩⟩
  · intro id b hb
    cases hb
  · rcases analyseHards_of_analyseConstraints rfl hanalyse with ⟨time₁, hhards⟩
    have hpttn : vs₁.constr_pttn_ = cp := (analyseConstraints_frame hanalyse).right.left
    have hbase := (setUpRandom_spec hrandom).left
    intro id b hb
    rw [hbase, hpttn]
    constructor
    · exact bddOf_setUpRandom hfiled hmade hpttn hrandom id b hb
    · exact (hanalysis _ _ _ hhards).mp

theorem checked_new (hsound : env.Sound) (hcomplete : env.Complete)
    (hmade : forall c, c ∈ cp.constraints_ -> c.Made vcon.variables_) (hfiled : Filed cp)
    (h : new env vcon cp time = .ok (vs, time')) : Checked vs :=
  checked_of_analysisExact (analysisExact_of_complete hsound hcomplete hmade) hmade hfiled h

theorem Checked.solve (h : Checked vs) (hready : Ready variables_ vs)
    (hcall : solve env vs w = .ok (result, vs', w')) : Checked vs' := by
  have hkept := (kept_solve hready hcall).base
  intro id b hb
  rw [hkept.constr_pttn, hkept.contradictions]
  constructor
  · exact bddOf_solve (fun id b hb => (h id b hb).left) hcall id b hb
  · cases hbefore : vs.bdd_solvers_ id with
    | some b₀ => exact (h id b₀ hbefore).right
    | none =>
        rw [bdd_solvers_solve hready hcall hbefore] at hb
        cases hb

theorem Checked.exists_solve (h : Checked vs) (hready : Ready variables_ vs)
    (hbdd : forall o, env.bdd = some o -> o.Complete) (w : World) :
    exists result vs' w', VariableDefaultSolver.solve env vs w = .ok (result, vs', w') := by
  apply exists_solve_of_suggestSingle hready
  intro hnone
  by_cases hsome : exists id b, vs.bdd_solvers_ id = some b
  · rcases hsome with ⟨id, b, hb⟩
    exact exists_suggestSingle hready hbdd ((h id b hb).right hnone)
      (fun id b hb => (h id b hb).left) _
  · -- without BDD solvers no constraint has to be satisfied
    have hempty : Term.Satisfiable
        (hardFormulas { vs.constr_pttn_ with constraints_ := [] }.constraints_) :=
      ⟨fun _ => 0, fun f hf => absurd hf List.not_mem_nil⟩
    exact exists_suggestSingle hready hbdd hempty
      (fun id b hb => absurd ⟨id, b, hb⟩ hsome) _

/-!
## Every call of a solver
-/

theorem support_of_collected (h : ConstraintPartitioner.Collected cp) :
    forall c, c ∈ cp.constraints_ -> c.support_vars_ ⊆ cp.support_vars_ := by
  induction h with
  | start d =>
      intro c hc
      rw [List.mem_singleton.mp hc]
      exact Finset.Subset.refl _
  | absorb _ d ih =>
      intro c hc
      cases (ConstraintPartitioner.mem_insertConstraint d c _).mp hc with
      | inl hnew =>
          rw [hnew]
          exact Finset.subset_union_right
      | inr hold => exact (ih c hold).trans Finset.subset_union_left

theorem Reached.checked (hcollected : ConstraintPartitioner.Collected cp)
    (hmade : forall c, c ∈ cp.constraints_ -> c.Made vcon.variables_)
    (hanalysis : AnalysisExact env cp) (h : Reached env vcon cp vs) :
    Built vcon cp vs ∧ Checked vs := by
  induction h with
  | new hnew =>
      constructor
      · exact built_new hmade (support_of_collected hcollected) hnew
      · exact checked_of_analysisExact hanalysis hmade (filed_of_collected hcollected) hnew
  | solve _ hsolve ih =>
      constructor
      · exact ih.left.solve hsolve
      · exact ih.right.solve ih.left.ready hsolve

/-- The BDD solvers of `isSome_createBddSolvers` are there after the constructor. -/
theorem isSome_bdd_new (hmade : forall c, c ∈ cp.constraints_ -> c.Made vcon.variables_)
    (hbypass : env.bypass_constraint_analysis = false) {o : Oracle SolverVar}
    (hbdd : env.bdd = some o) (h : new env vcon cp time = .ok (vs, time')) {id loc : Nat}
    (hwrite : (id, loc) ∈ (vcon.restrict cp.support_vars_).write_references)
    (hfiled : cp.singleVariableConstraintMap_ id ≠ [])
    (hdist : id ∉ varsWithDist (vcon.restrict cp.support_vars_)) :
    (vs.bdd_solvers_ id).isSome = true := by
  rcases new_cases hmade h with ⟨_, support, _, ⟨htrue, _⟩ | ⟨_, vs₁, hanalyse, hrandom⟩⟩
  · rw [hbypass] at htrue
    cases htrue
  · rcases analyseConstraints_frame hanalyse with ⟨hvar, hpttn, _⟩
    rcases bind_eq_ok.mp hrandom with ⟨r, hcreate, hrandom⟩
    cases hrandom
    rw [setUpBdd, hbdd, hpttn, hvar] at hcreate
    exact isSome_createBddSolvers hcreate (Or.inr ⟨⟨loc, hwrite⟩, hfiled, hdist⟩)

/-- No check of a BDD solver fails in any call, whatever the references are. -/
theorem bdd_checks_hold (hbdd : forall o, env.bdd = some o -> o.Complete)
    (hcollected : ConstraintPartitioner.Collected cp)
    (hmade : forall c, c ∈ cp.constraints_ -> c.Made vcon.variables_)
    (hanalysis : AnalysisExact env cp) (h : Reached env vcon cp vs) :
    (vs.contradictions_ = [] -> forall id b, vs.bdd_solvers_ id = some b ->
      Term.Satisfiable b.assertions ∧
        forall o time, env.bdd = some o -> (b.solve o env.random true time).1 = true) ∧
    forall w, exists result vs' w', VariableDefaultSolver.solve env vs w =
      .ok (result, vs', w') := by
  rcases h.checked hcollected hmade hanalysis with ⟨hbuilt, hchecked⟩
  constructor
  · intro hnone id b hb
    rcases hchecked id b hb with ⟨hof, hsat⟩
    constructor
    · exact hof.satisfiable (hsat hnone)
    · intro o time ho
      exact hof.solve_eq_true (hbdd o ho) (hsat hnone) env.random time
  · exact hchecked.exists_solve hbuilt.ready hbdd

/-!
### A soft constraint, a cover and a reference beside a hard constraint
-/

noncomputable def envBdd : Environment :=
  { envIdeal with bdd := some Oracle.ideal }

theorem nodup_vconFive : ([2] ++ [1]).Nodup := by
  decide

/-- The variable 1 is to be randomized, the variable 2 is a reference. -/
def vconFive : VariableContainer :=
  VariableContainer.ofReferences ⟨8, false⟩ VariableContainer.byte_supported [2] [1]
    nodup_vconFive

def byteConstraint (c_id : Nat) (n : Node) (soft cover : Bool) : UserConstraint :=
  { id_ := c_id
    expr_ := n
    name_ := toString c_id
    support_vars_ := n.supportVars
    unique_ := none
    soft_ := soft
    cover_ := cover
    enabled_ := true
    complexity_ := (ComplexityEstimationVisitor.visit n).toOption.getD 0 }

def equalByte (value : Nat) : Node :=
  equalConstant 1 ⟨8, false⟩ (toConstantExpr ⟨8, false⟩ value)

def equalReference : Node :=
  .binaryOpr .equalOpr (.variableExpr 1 8 false) (.variableExpr 2 8 false)

/-- The variable 1 is 5, should better be 6, is to be covered at 7, and equals the
reference. -/
def cpFive : ConstraintPartition :=
  (((ConstraintPartition.start (byteConstraint 0 (equalByte 5) false false)).absorb
    (byteConstraint 1 (equalByte 6) true false)).absorb
      (byteConstraint 2 (equalByte 7) false true)).absorb
        (byteConstraint 3 equalReference false false)

theorem collected_cpFive : ConstraintPartitioner.Collected cpFive :=
  (((ConstraintPartitioner.Collected.start _).absorb _).absorb _).absorb _

theorem mem_cpFive {c : UserConstraint} (h : c ∈ cpFive.constraints_) :
    exists c_id n soft cover, c = byteConstraint c_id n soft cover ∧
      (n = equalReference ∨ exists value, n = equalByte value) := by
  have hlist : cpFive.constraints_ =
      [byteConstraint 3 equalReference false false, byteConstraint 2 (equalByte 7) false true,
        byteConstraint 1 (equalByte 6) true false,
        byteConstraint 0 (equalByte 5) false false] := rfl
  rw [hlist] at h
  simp only [List.mem_cons, List.not_mem_nil, or_false] at h
  rcases h with h | h | h | h
  · exact ⟨_, _, _, _, h, Or.inl rfl⟩
  · exact ⟨_, _, _, _, h, Or.inr ⟨7, rfl⟩⟩
  · exact ⟨_, _, _, _, h, Or.inr ⟨6, rfl⟩⟩
  · exact ⟨_, _, _, _, h, Or.inr ⟨5, rfl⟩⟩

theorem made_cpFive : forall c, c ∈ cpFive.constraints_ -> c.Made vconFive.variables_ := by
  intro c hc
  rcases mem_cpFive hc with ⟨c_id, n, soft, cover, rfl, hn⟩
  have hdeclared : n.DeclaredIn vconFive.variables_ := by
    cases hn with
    | inl hreference =>
        rw [hreference]
        exact ⟨rfl, rfl⟩
    | inr hbyte =>
        cases hbyte with
        | intro value hvalue =>
            rw [hvalue]
            exact equalConstant_declared rfl _
  constructor
  · exact hdeclared
  · exact rfl

theorem envBdd_sound : envBdd.Sound :=
  Oracle.ideal_sound

theorem envBdd_complete : envBdd.Complete :=
  ⟨envIdeal_complete.solver, envIdeal_complete.conflicts⟩

theorem satisfiable_cpFive : Term.Satisfiable (hardFormulas cpFive.constraints_) := by
  rw [satisfiable_hardFormulas_iff]
  exact ⟨fun _ => 5, by decide⟩

/-- The BDD solver of the variable 1 can be solved at every call, also when the reference
is not 5. -/
theorem bdd_checks_hold_five :
    exists vs, Reached envBdd vconFive cpFive vs ∧
      (exists b, vs.bdd_solvers_ 1 = some b ∧ Term.Satisfiable b.assertions) ∧
      forall w, exists result vs' w', VariableDefaultSolver.solve envBdd vs w =
        .ok (result, vs', w') := by
  have hbdd : forall o, envBdd.bdd = some o -> o.Complete := by
    intro o ho
    cases ho
    exact Oracle.ideal_complete
  have hgrown : ConstraintPartitioner.Grown cpFive := by
    apply ConstraintPartitioner.Grown.absorb _ (by decide)
    apply ConstraintPartitioner.Grown.absorb _ (by decide)
    apply ConstraintPartitioner.Grown.absorb _ (by decide)
    exact ConstraintPartitioner.grown_start _
  rcases @exists_defaultSolver envBdd vconFive cpFive (by decide +kernel) made_cpFive
    (filed_of_collected collected_cpFive) 0 with ⟨⟨vs, time'⟩, hnew⟩
  have hnone : vs.contradictions_ = [] :=
    (analysed_new envBdd_sound envBdd_complete made_cpFive hgrown hnew).consistent
      satisfiable_cpFive
  have hholds := bdd_checks_hold hbdd collected_cpFive made_cpFive
    (analysisExact_of_complete envBdd_sound envBdd_complete made_cpFive) (Reached.new hnew)
  have hwrite : (1, 1) ∈ (vconFive.restrict cpFive.support_vars_).write_references := by
    decide
  have hsome : (vs.bdd_solvers_ 1).isSome = true :=
    isSome_bdd_new made_cpFive rfl rfl hnew hwrite (by decide) (by decide)
  cases Option.isSome_iff_exists.mp hsome with
  | intro b hb =>
      exists vs
      refine ⟨Reached.new hnew, ⟨b, hb, ?_⟩, hholds.right⟩
      exact (hholds.left hnone 1 b hb).left

end VariableDefaultSolver

end Backend
end Crave
