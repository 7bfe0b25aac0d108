import Crave.Backend.SoftConstraints

/-!
# The values from before a call

A solver looks at the program variables behind the read references of its partition and,
for its suggestions, at those behind some of the random write references. What it does to
the other variables does not depend on the values they had before.
-/

namespace Crave
namespace Backend

open Foundation Ir MetaSMTVisitor

/-!
## What is looked at
-/

section Lists

variable {var_ctn_ : VariableContainer} {memory memory' : Memory} {refs : List (Nat × Nat)}

theorem assumeReferences_congr (h : forall pair, pair ∈ refs -> memory' pair.2 = memory pair.2)
    (s : MetaSMTVisitor) :
    assumeReferences var_ctn_ memory' refs s = assumeReferences var_ctn_ memory refs s := by
  induction refs generalizing s with
  | nil => rfl
  | cons pair rest ih =>
      cases pair with
      | mk id loc =>
          have hloc : memory' loc = memory loc := h (id, loc) List.mem_cons_self
          simp only [assumeReferences, hloc]
          congr 1
          funext s₁
          exact ih (fun p hp => h p (List.mem_cons_of_mem _ hp)) s₁

theorem suggestValues_congr (h : forall pair, pair ∈ refs -> memory' pair.2 = memory pair.2)
    (s : MetaSMTVisitor) :
    suggestValues var_ctn_ memory' refs s = suggestValues var_ctn_ memory refs s := by
  induction refs generalizing s with
  | nil => rfl
  | cons pair rest ih =>
      cases pair with
      | mk id loc =>
          have hloc : memory' loc = memory loc := h (id, loc) List.mem_cons_self
          simp only [suggestValues, hloc]
          congr 1
          funext s₁
          exact ih (fun p hp => h p (List.mem_cons_of_mem _ hp)) s₁

theorem referenceFormulas_congr
    (h : forall pair, pair ∈ refs -> memory' pair.2 = memory pair.2) :
    referenceFormulas var_ctn_ memory' refs = referenceFormulas var_ctn_ memory refs := by
  unfold referenceFormulas
  apply List.map_congr_left
  intro pair hpair
  rw [h pair hpair]

end Lists

/-- Another value of a program variable. -/
def World.setValue (w : World) (loc a : Nat) : World :=
  { w with memory := Function.update w.memory loc a }

theorem writeBack_update_of_not_mem (s : MetaSMTVisitor) {refs : List (Nat × Nat)} {loc : Nat}
    (h : loc ∉ refs.map Prod.snd) (memory : Memory) (a : Nat) :
    writeBack s refs (Function.update memory loc a) =
      Function.update (writeBack s refs memory) loc a := by
  induction refs generalizing memory with
  | nil => rfl
  | cons pair rest ih =>
      simp only [List.map_cons, List.mem_cons, not_or] at h
      have hread : readInto s (Function.update memory loc a) pair =
          Function.update (readInto s memory pair) loc a := by
        unfold readInto
        cases s.read pair.1 with
        | none => rfl
        | some value => exact Function.update_comm h.left a value memory
      show writeBack s rest (readInto s (Function.update memory loc a) pair) = _
      rw [hread]
      exact ih h.right _

theorem writeBack_update_of_mem {s : MetaSMTVisitor} {refs : List (Nat × Nat)}
    {pair : Nat × Nat} (hmet : (s.read pair.1).isSome = true)
    (hnodup : (refs.map Prod.snd).Nodup) (h : pair ∈ refs) (memory : Memory) (a : Nat) :
    writeBack s refs (Function.update memory pair.2 a) = writeBack s refs memory := by
  funext loc
  rcases Option.isSome_iff_exists.mp hmet with ⟨value, hvalue⟩
  by_cases hloc : loc = pair.2
  · rw [hloc, writeBack_of_mem hnodup h, writeBack_of_mem hnodup h, hvalue]
    rfl
  · by_cases hmem : loc ∈ refs.map Prod.snd
    · rcases List.mem_map.mp hmem with ⟨p, hp, rfl⟩
      rw [writeBack_of_mem hnodup hp, writeBack_of_mem hnodup hp, Function.update_of_ne hloc]
    · rw [writeBack_of_not_mem hmem, writeBack_of_not_mem hmem, Function.update_of_ne hloc]

namespace MetaSMTVisitor

/-- Suggestions that can be followed together with everything else are followed. -/
theorem satisfies_suggestions_of_solve {o : Oracle SolverVar} (hsound : o.Sound)
    (hcomplete : o.Complete) {random : Nat -> Nat} {s s' : MetaSMTVisitor} {time time' : Nat}
    (hsat : Term.Satisfiable (s.assertions ++ s.assumptions_ ++ s.suggestions_))
    (h : s.solve o random true time = (true, s', time')) :
    Term.Satisfies s'.model s.suggestions_ := by
  have hanswer := (solve_answer h).left.mp rfl
  have hperm := randomShuffle_perm random (randomShuffle random time s.assumptions_).2
    s.suggestions_
  have hkept : (s.answer o random true time).suggestions =
      (randomShuffle random (randomShuffle random time s.assumptions_).2 s.suggestions_).1 := by
    apply Oracle.suggestions_retry hcomplete
    apply hsat.mono
    intro t ht
    have hassume : t ∈ (randomShuffle random time s.assumptions_).1 ↔ t ∈ s.assumptions_ :=
      (randomShuffle_perm random time s.assumptions_).mem_iff
    change t ∈ s.assertions ++ (randomShuffle random time s.assumptions_).1 ++
      (randomShuffle random (randomShuffle random time s.assumptions_).2 s.suggestions_).1 ++
        [] at ht
    rw [List.append_nil, List.mem_append, List.mem_append, hassume, hperm.mem_iff] at ht
    rw [List.mem_append, List.mem_append]
    exact ht
  have hsatisfies := Oracle.satisfies_suggestions hsound hanswer
  intro t ht
  apply hsatisfies
  show t ∈ (s.answer o random true time).suggestions
  rw [hkept, hperm.mem_iff]
  exact ht

end MetaSMTVisitor

namespace VariableDefaultSolver

variable {variables_ : Declarations} {env : Environment} {vs vs' : VariableDefaultSolver}
  {w w' w₂ : World} {result : Bool}

/-- The write references whose values are suggested, after the shuffle. -/
def suggestedRefs (vs : VariableDefaultSolver) : List (Nat × Nat) :=
  vs.random_write_refs_.take ((vs.random_write_refs_.length + 1) / 2)

theorem prepare_congr {time : Nat} (h : prepare env vs w = .ok (vs', time))
    (hvar : vs'.var_ctn_ = vs.var_ctn_) (htime : w₂.time = w.time)
    (hreads : forall pair, pair ∈ vs.var_ctn_.read_references ->
      w₂.memory pair.2 = w.memory pair.2)
    (hsuggested : forall pair, pair ∈ suggestedRefs vs' -> w₂.memory pair.2 = w.memory pair.2) :
    prepare env vs w₂ = .ok (vs', time) := by
  rcases bind_eq_ok.mp h with ⟨⟨vs₁, time₁⟩, hsingle, h⟩
  rcases bind_eq_ok.mp h with ⟨s₂, hassume, h⟩
  rcases bind_eq_ok.mp h with ⟨⟨s₃, time₃⟩, hdist, h⟩
  rcases bind_eq_ok.mp h with ⟨s₄, hvalues, h⟩
  cases h
  have hctn : vs₁.var_ctn_ = vs.var_ctn_ := hvar
  apply bind_eq_ok.mpr
  exists (vs₁, time₁)
  constructor
  · rw [htime]
    exact hsingle
  · apply bind_eq_ok.mpr
    exists s₂
    constructor
    · rw [assumeReferences_congr (fun pair hpair => hreads pair (by rwa [hctn] at hpair))]
      exact hassume
    · apply bind_eq_ok.mpr
      exists (s₃, time₃)
      constructor
      · exact hdist
      · apply bind_eq_ok.mpr
        exists s₄
        constructor
        · exact (suggestValues_congr hsuggested s₃).trans hvalues
        · rfl

/-- A call has the same course for all worlds with the same time that have the same
values where it looks. -/
theorem solve_congr (hready : Ready variables_ vs) (h : solve env vs w = .ok (result, vs', w'))
    (htime : w₂.time = w.time)
    (hreads : forall pair, pair ∈ vs.var_ctn_.read_references ->
      w₂.memory pair.2 = w.memory pair.2)
    (hsuggested : forall pair, pair ∈ suggestedRefs vs' -> w₂.memory pair.2 = w.memory pair.2) :
    solve env vs w₂ = .ok (result, vs',
      { w₂ with
        memory :=
          if result then writeBack vs'.solver_ vs.var_ctn_.write_references w₂.memory
          else w₂.memory
        time := w'.time }) := by
  rcases solve_cases h with ⟨hcontr, rfl, rfl, rfl⟩ |
    ⟨hcontr, vs₁, time₁, s', time', hprepare, hsolve, rfl, rfl⟩
  · rw [solve, if_neg hcontr, ← htime]
    rfl
  · rcases prepare_spec hready hprepare with ⟨hbase, _⟩
    have hprepare₂ := prepare_congr hprepare hbase.var_ctn htime hreads hsuggested
    rw [solve, if_pos hcontr]
    apply bind_eq_ok.mpr
    exists (vs₁, time₁)
    constructor
    · exact hprepare₂
    · simp only [hsolve, hbase.var_ctn]
      cases result with
      | true => rfl
      | false => rfl

/-!
## Solvers that can succeed
-/

/-- No conflict was found, and the constraints have a solution with the values of the read
references. -/
def Solvable (vs : VariableDefaultSolver) (memory : Memory) : Prop :=
  vs.contradictions_ = [] ∧ Term.Satisfiable (query vs memory)

theorem solve_eq_true_iff (hready : Ready variables_ vs) (hsound : env.Sound)
    (hcomplete : env.Complete) (h : solve env vs w = .ok (result, vs', w')) :
    result = true ↔ Solvable vs w.memory := by
  constructor
  · intro htrue
    rw [htrue] at h
    constructor
    · rcases solve_cases h with ⟨_, hfalse, _⟩ | ⟨hcontr, _⟩
      · cases hfalse
      · exact hcontr
    · exact ⟨_, satisfies_of_solve hready hsound h⟩
  · intro hsolvable
    exact solve_of_satisfiable hready hcomplete hsolvable.left hsolvable.right h

theorem query_congr {memory memory' : Memory} (h : forall pair,
    pair ∈ vs.var_ctn_.read_references -> memory' pair.2 = memory pair.2) :
    query vs memory' = query vs memory := by
  unfold query
  rw [referenceFormulas_congr h]

theorem solvable_congr {memory memory' : Memory} (h : forall pair,
    pair ∈ vs.var_ctn_.read_references -> memory' pair.2 = memory pair.2) :
    Solvable vs memory' ↔ Solvable vs memory := by
  unfold Solvable
  rw [query_congr h]

/-!
## The random write references
-/

/-- What holds of the suggestions between two calls. A solver whose only write reference
is suggested suggests nothing else. -/
structure Drawn (vs : VariableDefaultSolver) : Prop where
  suggestions : vs.solver_.suggestions_ = []
  nodup : vs.random_write_refs_.Nodup
  alone : forall pair, vs.var_ctn_.write_references = [pair] ->
    vs.random_write_refs_ = [pair] ->
      vs.var_ctn_.dist_references = [] ∧ vs.bdd_solvers_ pair.1 = none

theorem bdd_solvers_suggestBdd {o : Oracle SolverVar} {random : Nat -> Nat}
    {refs : List (Nat × Nat)} {time time' : Nat}
    (h : suggestBdd o random refs vs time = .ok (vs', time')) {id : Nat}
    (hnone : vs.bdd_solvers_ id = none) : vs'.bdd_solvers_ id = none := by
  induction refs generalizing vs time with
  | nil =>
      cases h
      exact hnone
  | cons pair rest ih =>
      unfold suggestBdd at h
      split at h
      · exact ih h hnone
      · next bdd_solver hbdd =>
          simp only at h
          split at h
          · rcases bind_eq_ok.mp h with ⟨s₁, _, h⟩
            apply ih h
            have hne : id ≠ pair.1 := by
              intro heq
              rw [heq, hbdd] at hnone
              cases hnone
            exact (Function.update_of_ne hne _ _).trans hnone
          · cases h

theorem bdd_solvers_suggestSingle {time time' : Nat}
    (h : suggestSingle env vs time = .ok (vs', time')) {id : Nat}
    (hnone : vs.bdd_solvers_ id = none) : vs'.bdd_solvers_ id = none := by
  unfold suggestSingle at h
  split at h
  · cases h
    exact hnone
  · exact bdd_solvers_suggestBdd h hnone

theorem prepare_random {time : Nat} (hready : Ready variables_ vs)
    (h : prepare env vs w = .ok (vs', time)) :
    vs'.random_write_refs_.Perm vs.random_write_refs_ ∧
      forall id, vs.bdd_solvers_ id = none -> vs'.bdd_solvers_ id = none := by
  rcases bind_eq_ok.mp h with ⟨⟨vs₁, time₁⟩, hsingle, h⟩
  rcases bind_eq_ok.mp h with ⟨s₂, _, h⟩
  rcases bind_eq_ok.mp h with ⟨⟨s₃, time₃⟩, _, h⟩
  rcases bind_eq_ok.mp h with ⟨s₄, _, h⟩
  cases h
  rcases suggestSingle_spec hready hsingle with ⟨_, _, hrandom⟩
  constructor
  · rw [← hrandom]
    exact randomShuffle_perm env.random time₃ vs₁.random_write_refs_
  · intro id hnone
    exact bdd_solvers_suggestSingle hsingle hnone

theorem bdd_solvers_solve (hready : Ready variables_ vs)
    (hcall : solve env vs w = .ok (result, vs', w')) {id : Nat}
    (hnone : vs.bdd_solvers_ id = none) : vs'.bdd_solvers_ id = none := by
  rcases solve_cases hcall with ⟨_, _, rfl, _⟩ | ⟨_, vs₁, time₁, s', time', hprepare, _, rfl, _⟩
  · exact hnone
  · exact (prepare_random hready hprepare).right id hnone

theorem random_solve (hready : Ready variables_ vs)
    (hcall : solve env vs w = .ok (result, vs', w')) :
    vs'.random_write_refs_.Perm vs.random_write_refs_ := by
  rcases solve_cases hcall with ⟨_, _, rfl, _⟩ | ⟨_, vs₁, time₁, s', time', hprepare, _, rfl, _⟩
  · exact List.Perm.refl _
  · exact (prepare_random hready hprepare).left

theorem Drawn.solve (h : Drawn vs) (hready : Ready variables_ vs)
    (hcall : solve env vs w = .ok (result, vs', w')) : Drawn vs' := by
  rcases solve_cases hcall with ⟨_, _, rfl, _⟩ |
    ⟨_, vs₁, time₁, s', time', hprepare, hsolve, rfl, _⟩
  · exact h
  · rcases prepare_spec hready hprepare with ⟨hbase, _⟩
    rcases prepare_random hready hprepare with ⟨hperm, hbdd⟩
    constructor
    · show s'.suggestions_ = []
      rw [MetaSMTVisitor.solve_frame hsolve]
    · exact hperm.nodup_iff.mpr h.nodup
    · intro pair hwrite hrandom
      rw [hbase.var_ctn] at hwrite
      have hsingle : vs.random_write_refs_ = [pair] := by
        apply List.perm_singleton.mp
        rw [← hrandom]
        exact hperm.symm
      rcases h.alone pair hwrite hsingle with ⟨hdist, hnone⟩
      constructor
      · show vs₁.var_ctn_.dist_references = []
        rw [hbase.var_ctn]
        exact hdist
      · exact hbdd pair.1 hnone

theorem nodup_randomWriteRefs {write_references : List (Nat × Nat)}
    (hnodup : write_references.Nodup) (vars_with_dist : Finset Nat) :
    (randomWriteRefs write_references vars_with_dist).Nodup := by
  unfold randomWriteRefs
  split
  · exact List.nodup_nil
  · exact hnodup.filter _

/-- The only write reference is a random one when no variable has a distribution. -/
theorem eq_empty_of_randomWriteRefs {pair : Nat × Nat} {vars_with_dist : Finset Nat}
    (h : randomWriteRefs [pair] vars_with_dist = [pair]) : vars_with_dist = ∅ := by
  unfold randomWriteRefs at h
  split at h
  · cases h
  · next hcard =>
      apply Finset.card_eq_zero.mp
      rw [List.length_singleton] at hcard
      omega

theorem dist_references_of_varsWithDist {var_ctn_ : VariableContainer}
    (h : varsWithDist var_ctn_ = ∅) : var_ctn_.dist_references = [] := by
  unfold varsWithDist at h
  rw [List.toFinset_eq_empty_iff] at h
  exact List.map_eq_nil_iff.mp h

/-- A BDD solver is built for variables that count as having a distribution. -/
theorem setUpBdd_single {cp : ConstraintPartition} {pair : Nat × Nat}
    {vars_with_dist : Finset Nat} {bdd_solvers_ : Nat -> Option MetaSMTVisitor}
    (h : setUpBdd env cp [pair] vars_with_dist = .ok (bdd_solvers_, ∅)) :
    vars_with_dist = ∅ ∧ bdd_solvers_ pair.1 = none := by
  unfold setUpBdd at h
  split at h
  · cases h
    exact ⟨rfl, rfl⟩
  · unfold createBddSolvers at h
    split at h
    · cases h
      exact ⟨rfl, rfl⟩
    · rcases bind_eq_ok.mp h with ⟨bdd_solver, _, h⟩
      injection h with hpair
      injection hpair with _ hdist
      exact absurd hdist (Finset.insert_ne_empty _ _)

theorem drawn_setUpRandom {base : VariableSolver} (hsuggestions : base.solver_.suggestions_ = [])
    (h : setUpRandom env base = .ok vs) : Drawn vs := by
  rcases bind_eq_ok.mp h with ⟨⟨bdd_solvers_, vars_with_dist⟩, hbdd, h⟩
  cases h
  constructor
  · exact hsuggestions
  · exact nodup_randomWriteRefs (List.Nodup.of_map Prod.snd base.var_ctn_.locations_nodup) _
  · intro pair hwrite hrandom
    have hwrite' : base.var_ctn_.write_references = [pair] := hwrite
    have hrandom' : randomWriteRefs base.var_ctn_.write_references vars_with_dist = [pair] :=
      hrandom
    rw [hwrite'] at hrandom' hbdd
    rw [eq_empty_of_randomWriteRefs hrandom'] at hbdd
    rcases setUpBdd_single hbdd with ⟨hdist, hnone⟩
    exact ⟨dist_references_of_varsWithDist hdist, hnone⟩

theorem drawn_new {vcon : VariableContainer} {cp : ConstraintPartition} {time time' : Nat}
    (hcs : forall c, c ∈ cp.constraints_ -> c.Made vcon.variables_)
    (h : new env vcon cp time = .ok (vs, time')) : Drawn vs := by
  rcases new_cases hcs h with ⟨_, support, _, ⟨_, rfl⟩ | ⟨_, vs₁, hanalyse, hrandom⟩⟩
  · constructor
    · rfl
    · exact List.nodup_nil
    · intro pair _ hrandom
      cases hrandom
  · rcases analyseConstraints_frame hanalyse with ⟨_, _, accepted, softs, m, hs, _⟩
    apply drawn_setUpRandom _ hrandom
    rw [hs]
    rfl

/-!
## Solvers that keep the values
-/

/-- Without write references there is nothing to change. The value of a single write
reference that is suggested stays when there is a solution with it. -/
def Keeps (vs : VariableDefaultSolver) (memory : Memory) : Prop :=
  vs.var_ctn_.write_references = [] ∨
    exists pair, vs.var_ctn_.write_references = [pair] ∧ vs.random_write_refs_ = [pair] ∧
      exists m, Term.Satisfies m (query vs memory) ∧
        m (.terminal pair.1) % 2 ^ (vs.var_ctn_.declOf pair.1).bitsize = memory pair.2

theorem declared_of_write (hready : Ready variables_ vs) {pair : Nat × Nat}
    (hpair : pair ∈ vs.var_ctn_.write_references) :
    variables_ pair.1 = some (vs.var_ctn_.declOf pair.1) ∧
      (vs.var_ctn_.declOf pair.1).bitsize ≤ 64 := by
  have hvariable := VariableContainer.variables_of_write hpair
  exact ⟨hready.container _ _ hvariable, (vs.var_ctn_.supported pair.1 _ hvariable).right⟩

theorem prepare_alone {time : Nat} (hready : Ready variables_ vs) (hdrawn : Drawn vs)
    {pair : Nat × Nat} (hwrite : vs.var_ctn_.write_references = [pair])
    (hrandom : vs.random_write_refs_ = [pair]) (h : prepare env vs w = .ok (vs', time)) :
    vs'.solver_.suggestions_ = [formula (equalConstant pair.1 (vs.var_ctn_.declOf pair.1)
      (toConstantExpr (vs.var_ctn_.declOf pair.1) (w.memory pair.2)))] := by
  rcases hdrawn.alone pair hwrite hrandom with ⟨hdist, hbdd⟩
  have hsingle : forall r, suggestSingle env vs w.time = .ok r -> r = (vs, w.time) := by
    intro r hr
    unfold suggestSingle at hr
    split at hr
    · cases hr
      rfl
    · rw [hwrite, suggestBdd, hbdd] at hr
      cases hr
      rfl
  rcases bind_eq_ok.mp h with ⟨⟨vs₁, time₁⟩, hfirst, h⟩
  cases hsingle _ hfirst
  rcases bind_eq_ok.mp h with ⟨s₂, hassume, h⟩
  rcases assumeReferences_spec (fun p hp => hready.container _ _
    (VariableContainer.variables_of_read hp)) hready.within hassume with ⟨support, hs₂, _⟩
  rcases bind_eq_ok.mp h with ⟨⟨s₃, time₃⟩, hdists, h⟩
  rw [hdist] at hdists
  cases hdists
  rcases bind_eq_ok.mp h with ⟨s₄, hvalues, h⟩
  cases h
  have hshuffle : (randomShuffle env.random w.time vs.random_write_refs_).1 = [pair] := by
    rw [hrandom]
    exact List.perm_singleton.mp (randomShuffle_perm env.random w.time [pair])
  have hpair : pair ∈ vs.var_ctn_.write_references := by
    rw [hwrite]
    exact List.mem_singleton_self pair
  have hdeclared := (declared_of_write hready hpair).left
  have hwithin : Terminals.Within variables_ s₂.terminals_ := by
    rw [hs₂]
    exact hready.within.declare support
  change suggestValues vs.var_ctn_ w.memory
    ((randomShuffle env.random w.time vs.random_write_refs_).1.take
      (((randomShuffle env.random w.time vs.random_write_refs_).1.length + 1) / 2)) s₂ = _ at hvalues
  have hhalf : [pair].take (([pair].length + 1) / 2) = [pair] := by simp
  rw [hshuffle, hhalf] at hvalues
  change suggestValues vs.var_ctn_ w.memory [(pair.1, pair.2)] s₂ = _ at hvalues
  rcases bind_eq_ok.mp hvalues with ⟨s₅, hsuggest, hvalues⟩
  cases hvalues
  rw [makeSuggestion_spec (equalConstant_declared hdeclared _) hwithin hsuggest]
  show s₂.suggestions_ ++ _ = _
  rw [hs₂]
  show vs.solver_.suggestions_ ++ _ = _
  rw [hdrawn.suggestions]
  rfl

/-- The value that is suggested is the one of the solution, when there is a solution with
it. -/
theorem model_of_alone (hready : Ready variables_ vs) (hdrawn : Drawn vs) (hsound : env.Sound)
    (hcomplete : env.Complete) {pair : Nat × Nat} (hwrite : vs.var_ctn_.write_references = [pair])
    (hrandom : vs.random_write_refs_ = [pair]) {m : Model SolverVar}
    (hm : Term.Satisfies m (query vs w.memory))
    (hvalue : m (.terminal pair.1) % 2 ^ (vs.var_ctn_.declOf pair.1).bitsize = w.memory pair.2)
    {vs₁ : VariableDefaultSolver} {s' : MetaSMTVisitor} {time time' : Nat}
    (hprepare : prepare env vs w = .ok (vs₁, time))
    (hsolve : vs₁.solver_.solve env.solver env.random true time = (true, s', time')) :
    s'.model (.terminal pair.1) % 2 ^ (vs.var_ctn_.declOf pair.1).bitsize = w.memory pair.2 := by
  have hpair : pair ∈ vs.var_ctn_.write_references := by
    rw [hwrite]
    exact List.mem_singleton_self pair
  have hle := (declared_of_write hready hpair).right
  have hlt : w.memory pair.2 < 2 ^ (vs.var_ctn_.declOf pair.1).bitsize := by
    rw [← hvalue]
    exact Nat.mod_lt _ (Nat.two_pow_pos _)
  have hequal : forall m' : Model SolverVar,
      m' (.terminal pair.1) % 2 ^ (vs.var_ctn_.declOf pair.1).bitsize = w.memory pair.2 ↔
        Term.Holds m' (formula (equalConstant pair.1 (vs.var_ctn_.declOf pair.1)
          (toConstantExpr (vs.var_ctn_.declOf pair.1) (w.memory pair.2)))) := by
    intro m'
    rw [holds_formula, nodeHolds_equalConstant m' pair.1 hle, ← BitVec.toNat_inj,
      BitVec.toNat_ofNat, BitVec.toNat_ofNat, Nat.mod_eq_of_lt hlt]
  have hsuggestions := prepare_alone hready hdrawn hwrite hrandom hprepare
  rcases prepare_spec hready hprepare with ⟨_, _, fs, support, hs₁, _⟩
  have hsat : Term.Satisfiable (vs₁.solver_.assertions ++ vs₁.solver_.assumptions_ ++
      vs₁.solver_.suggestions_) := by
    exists m
    apply (Term.satisfies_append _ _ _).mpr
    constructor
    · rw [hs₁]
      exact hm
    · rw [hsuggestions]
      intro t ht
      rw [List.mem_singleton.mp ht]
      exact (hequal m).mp hvalue
  have hfollowed := satisfies_suggestions_of_solve hsound hcomplete.solver hsat hsolve
  rw [hsuggestions] at hfollowed
  exact (hequal s'.model).mpr (hfollowed _ (List.mem_singleton_self _))

theorem Keeps.memory_solve (h : Keeps vs w.memory) (hready : Ready variables_ vs)
    (hdrawn : Drawn vs) (hsound : env.Sound) (hcomplete : env.Complete)
    (hcall : solve env vs w = .ok (result, vs', w')) : w'.memory = w.memory := by
  have hworld := world_solve hready hcall
  cases result with
  | false =>
      rw [hworld]
      rfl
  | true =>
      rw [hworld]
      show writeBack vs'.solver_ vs.var_ctn_.write_references w.memory = w.memory
      cases h with
      | inl hnone =>
          rw [hnone]
          rfl
      | inr hsingle =>
          rcases hsingle with ⟨pair, hwrite, hrandom, m, hm, hvalue⟩
          have hpair : pair ∈ vs.var_ctn_.write_references := by
            rw [hwrite]
            exact List.mem_singleton_self pair
          have hdeclared := (declared_of_write hready hpair).left
          have hwithin := (kept_solve hready hcall).ready.within
          rcases solve_cases hcall with ⟨_, hfalse, _⟩ |
            ⟨_, vs₁, time₁, s', time', hprepare, hsolve, rfl, _⟩
          · cases hfalse
          · have hmodel := model_of_alone hready hdrawn hsound hcomplete hwrite hrandom hm hvalue
              hprepare hsolve
            rw [hwrite]
            show readInto s' w.memory pair = w.memory
            unfold readInto
            cases hread : s'.read pair.1 with
            | none => rfl
            | some value =>
                rcases Option.map_eq_some_iff.mp hread with ⟨width, hwidth, hvalue'⟩
                have hbits := hwithin pair.1 width hwidth
                rw [hdeclared] at hbits
                show Function.update w.memory pair.2 value = w.memory
                rw [← hvalue', ← Option.some.inj hbits, hmodel, Function.update_eq_self]

/-!
## A value that is not looked at
-/

/-- Unless the only write reference is also the only random one, some write reference is
not suggested. -/
theorem exists_not_suggested (hnodup : vs.random_write_refs_.Nodup)
    (hrandom : forall pair, pair ∈ vs.random_write_refs_ -> pair ∈ vs.var_ctn_.write_references)
    (hne : vs.var_ctn_.write_references ≠ [])
    (hsingle : forall pair, vs.var_ctn_.write_references = [pair] ->
      vs.random_write_refs_ ≠ [pair]) :
    exists pair, pair ∈ vs.var_ctn_.write_references ∧ pair ∉ suggestedRefs vs := by
  by_contra hall
  have hsub : vs.var_ctn_.write_references ⊆ suggestedRefs vs := by
    intro pair hpair
    by_contra hnot
    exact hall ⟨pair, hpair, hnot⟩
  have hwrites : vs.var_ctn_.write_references.Nodup :=
    List.Nodup.of_map Prod.snd vs.var_ctn_.locations_nodup
  have hle := (hwrites.subperm hsub).length_le
  have hle' := (hnodup.subperm hrandom).length_le
  have hpos := List.length_pos_iff.mpr hne
  unfold suggestedRefs at hle
  rw [List.length_take] at hle
  have hwrite : vs.var_ctn_.write_references.length = 1 := by omega
  have hone : vs.random_write_refs_.length = 1 := by omega
  rcases List.length_eq_one_iff.mp hwrite with ⟨pair, hpair⟩
  rcases List.length_eq_one_iff.mp hone with ⟨pair', hpair'⟩
  apply hsingle pair hpair
  have hmem := hrandom pair' (by rw [hpair']; exact List.mem_singleton_self pair')
  rw [hpair, List.mem_singleton] at hmem
  rw [hpair', hmem]

theorem mem_write_of_suggested (hready : Ready variables_ vs)
    (hcall : solve env vs w = .ok (result, vs', w')) {pair : Nat × Nat}
    (h : pair ∈ suggestedRefs vs') : pair ∈ vs.var_ctn_.write_references := by
  have hkept := kept_solve hready hcall
  rw [← hkept.base.var_ctn]
  exact hkept.ready.random pair (List.mem_of_mem_take h)

theorem solve_setVectors (hready : Ready variables_ vs)
    (hcall : solve env vs w = .ok (result, vs', w')) (vectors : Nat -> List Nat) :
    solve env vs { w with vectors := vectors } = .ok (result, vs', { w' with vectors := vectors }) := by
  have hcongr := @solve_congr _ _ _ _ _ _ { w with vectors := vectors } _ hready hcall rfl
    (fun _ _ => rfl) (fun _ _ => rfl)
  have hworld := world_solve hready hcall
  rw [hcongr, hworld]

/-- A value behind none of the references of the partition plays no part and stays. -/
theorem solve_setValue_of_not_mem (hready : Ready variables_ vs)
    (hcall : solve env vs w = .ok (result, vs', w')) {loc : Nat}
    (hreads : forall pair, pair ∈ vs.var_ctn_.read_references -> pair.2 ≠ loc)
    (hwrites : forall pair, pair ∈ vs.var_ctn_.write_references -> pair.2 ≠ loc) (a : Nat) :
    solve env vs (w.setValue loc a) = .ok (result, vs', w'.setValue loc a) := by
  have hcongr := @solve_congr _ _ _ _ _ _ (w.setValue loc a) _ hready hcall rfl
    (fun pair hpair => Function.update_of_ne (hreads pair hpair) _ _)
    (fun pair hpair =>
      Function.update_of_ne (hwrites pair (mem_write_of_suggested hready hcall hpair)) _ _)
  have hworld := world_solve hready hcall
  rw [hcongr, hworld]
  cases result with
  | false => rfl
  | true =>
      have hloc : loc ∉ vs.var_ctn_.write_references.map Prod.snd := by
        intro hmem
        rcases List.mem_map.mp hmem with ⟨pair, hpair, heq⟩
        exact hwrites pair hpair heq
      have hmemory := writeBack_update_of_not_mem vs'.solver_ hloc w.memory a
      simp only [World.setValue, if_true, hmemory]

/-- The value behind a write reference that is not suggested plays no part in a call that
succeeds, and it is lost. -/
theorem solve_setValue_of_mem (hready : Ready variables_ vs)
    (hcall : solve env vs w = .ok (true, vs', w')) {pair : Nat × Nat}
    (hpair : pair ∈ vs.var_ctn_.write_references) (hsuggested : pair ∉ suggestedRefs vs')
    (hreads : forall p, p ∈ vs.var_ctn_.read_references -> p.2 ≠ pair.2)
    (hmet : (vs'.solver_.read pair.1).isSome = true) (a : Nat) :
    solve env vs (w.setValue pair.2 a) = .ok (true, vs', w') := by
  have hcongr := @solve_congr _ _ _ _ _ _ (w.setValue pair.2 a) _ hready hcall rfl
    (fun p hp => Function.update_of_ne (hreads p hp) _ _)
    (fun p hp => by
      apply Function.update_of_ne
      intro heq
      have hp' := mem_write_of_suggested hready hcall hp
      have hsame : p = pair :=
        List.inj_on_of_nodup_map vs.var_ctn_.locations_nodup hp' hpair heq
      rw [hsame] at hp
      exact hsuggested hp)
  have hworld := world_solve hready hcall
  rw [hcongr, hworld]
  have hmemory := writeBack_update_of_mem hmet vs.var_ctn_.locations_nodup hpair w.memory a
  simp only [World.setValue, if_true, hmemory]

end VariableDefaultSolver

end Backend
end Crave
