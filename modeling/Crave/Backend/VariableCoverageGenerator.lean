import Crave.Backend.VariableGenerator

/-!
# The coverage solvers of all partitions

Every call asks the coverage solvers of all partitions, and it has hit something
when one of them has.  A partition that hits nothing keeps its program variables
as they are.
-/

namespace Crave
namespace Backend

open Foundation Ir MetaSMTVisitor VariableCoverageSolver

structure VariableCoverageGenerator where
  solvers_ : List VariableCoverageSolver

namespace VariableCoverageGenerator

def new : VariableCoverageGenerator :=
  { solvers_ := [] }

/-- The solvers for the partitions in order, up to one that cannot be built. -/
def createSolvers (env : Environment) (vcon : VariableContainer) : List ConstraintPartition ->
    List VariableCoverageSolver × Except String Unit
  | [] => ([], .ok ())
  | partition :: rest =>
      match VariableCoverageSolver.new env vcon partition with
      | .error e => ([], .error e)
      | .ok vs =>
          let (solvers_, outcome) := createSolvers env vcon rest
          (vs :: solvers_, outcome)

def reset (env : Environment) (vcon : VariableContainer) (partitions : List ConstraintPartition) :
    VariableCoverageGenerator × Except String Unit :=
  let (solvers_, outcome) := createSolvers env vcon partitions
  ({ solvers_ := solvers_ }, outcome)

def solveFrom (env : Environment) : List VariableCoverageSolver -> World ->
    Except String (Bool × List VariableCoverageSolver × World)
  | [], w => .ok (false, [], w)
  | vs :: rest, w => do
      let (hit, vs, w) <- vs.solve env w
      let (res, rest, w) <- solveFrom env rest w
      return (hit || res, vs :: rest, w)

def solve (env : Environment) (g : VariableCoverageGenerator) (w : World) :
    Except String (Bool × VariableCoverageGenerator × World) := do
  let (result, solvers_, w) <- solveFrom env g.solvers_ w
  return (result, { solvers_ := solvers_ }, w)

def read (g : VariableCoverageGenerator) (id value : Nat) : Bool × Nat :=
  readFrom (g.solvers_.map VariableCoverageSolver.toVariableSolver) id value

/-!
## What a call does for each partition
-/

/-- A partition hits a goal and settles its hard constraints with it, or it hits
none and keeps its program variables. -/
inductive Outcome (env : Environment) (vcon : VariableContainer) (before after : Memory)
    (p : ConstraintPartition) (vs vs' : VariableCoverageSolver) : Bool -> Prop where
  | hit (c : UserConstraint) (mem : c ∈ p.constraints_) (cover : c.cover_ = true)
      (fresh : c.name_ ∉ vs.covered_set_)
      (covered : vs'.covered_set_ = insert c.name_ vs.covered_set_)
      (satisfiable : env.Sound -> Term.Satisfiable (goalQuery vcon p before c))
      (settled : env.Sound -> Settled vcon (c :: hards p) vs'.solver_ after) :
      Outcome env vcon before after p vs vs' true
  | missed (covered : vs'.covered_set_ = vs.covered_set_)
      (goals : env.Complete -> forall c, c ∈ p.constraints_ -> c.cover_ = true ->
        c.name_ ∉ vs.covered_set_ -> ¬ Term.Satisfiable (goalQuery vcon p before c))
      (same : SameAt vcon p.support_vars_ before after) :
      Outcome env vcon before after p vs vs' false

/-- The outcomes for a list of partitions. -/
inductive Outcomes (env : Environment) (vcon : VariableContainer) (before after : Memory) :
    List ConstraintPartition -> List VariableCoverageSolver -> List VariableCoverageSolver ->
      Bool -> Prop where
  | nil : Outcomes env vcon before after [] [] [] false
  | cons {p : ConstraintPartition} {vs vs' : VariableCoverageSolver} {hit res : Bool}
      {ps : List ConstraintPartition} {rest rest' : List VariableCoverageSolver}
      (head : Outcome env vcon before after p vs vs' hit)
      (tail : Outcomes env vcon before after ps rest rest' res) :
      Outcomes env vcon before after (p :: ps) (vs :: rest) (vs' :: rest') (hit || res)

section Solve

variable {env : Environment} {vcon : VariableContainer}

theorem built_createSolvers {ps : List ConstraintPartition} (hps : Separated vcon ps)
    {solvers_ : List VariableCoverageSolver} (h : createSolvers env vcon ps = (solvers_, .ok ())) :
    List.Forall₂ (Built vcon) ps solvers_ ∧
      forall vs, vs ∈ solvers_ -> vs.covered_set_ = ∅ := by
  induction ps generalizing solvers_ with
  | nil =>
      cases h
      exact ⟨List.Forall₂.nil, fun vs hvs => absurd hvs List.not_mem_nil⟩
  | cons p rest ih =>
      simp only [createSolvers] at h
      split at h
      · cases h
      · rename_i vs hnew
        cases hrest : createSolvers env vcon rest with
        | mk solvers₁ outcome =>
            rw [hrest] at h
            cases h
            rcases built_new (hps.made p List.mem_cons_self)
              (hps.support p List.mem_cons_self) hnew with ⟨hbuilt, hempty⟩
            rcases ih hps.tail hrest with ⟨hbuilt', hempty'⟩
            constructor
            · exact List.Forall₂.cons hbuilt hbuilt'
            · intro vs' hvs'
              rcases List.mem_cons.mp hvs' with rfl | hvs'
              · exact hempty
              · exact hempty' vs' hvs'

/-- The query of a goal looks at the read references of its partition only. -/
theorem goalQuery_of_sameReads {p : ConstraintPartition} {before after : Memory}
    (h : SameReads vcon p.support_vars_ before after) (c : UserConstraint) :
    goalQuery vcon p before c = goalQuery vcon p after c := by
  have hrefs : referenceFormulas (vcon.restrict p.support_vars_) before
        (vcon.restrict p.support_vars_).read_references =
      referenceFormulas (vcon.restrict p.support_vars_) after
        (vcon.restrict p.support_vars_).read_references := by
    apply List.map_congr_left
    intro pair hpair
    rcases VariableContainer.mem_select.mp hpair with ⟨hread, hid⟩
    rw [h pair hread hid]
  rw [goalQuery, goalQuery, hrefs]

theorem goalQuery_congr {p : ConstraintPartition} {before after : Memory}
    (h : SameAt vcon p.support_vars_ before after) (c : UserConstraint) :
    goalQuery vcon p before c = goalQuery vcon p after c :=
  goalQuery_of_sameReads h.reads c

theorem Outcome.before_congr {p : ConstraintPartition} {vs vs' : VariableCoverageSolver}
    {before between after : Memory} {hit : Bool}
    (hsame : SameAt vcon p.support_vars_ before between)
    (h : Outcome env vcon between after p vs vs' hit) :
    Outcome env vcon before after p vs vs' hit := by
  cases h with
  | hit c mem cover fresh covered satisfiable settled =>
      refine Outcome.hit c mem cover fresh covered (fun hsound => ?_) settled
      rw [goalQuery_congr hsame]
      exact satisfiable hsound
  | missed covered goals same =>
      refine Outcome.missed covered (fun hcomplete c hc hcover hfresh => ?_) ?_
      · rw [goalQuery_congr hsame]
        exact goals hcomplete c hc hcover hfresh
      · exact fun pair hpair hid => (same pair hpair hid).trans (hsame pair hpair hid)

theorem Outcome.after_congr {p : ConstraintPartition} {vs vs' : VariableCoverageSolver}
    {before between after : Memory} {hit : Bool}
    (hsupport : forall c, c ∈ p.constraints_ -> c.support_vars_ ⊆ p.support_vars_)
    (hsame : SameAt vcon p.support_vars_ between after)
    (h : Outcome env vcon before between p vs vs' hit) :
    Outcome env vcon before after p vs vs' hit := by
  cases h with
  | hit c mem cover fresh covered satisfiable settled =>
      refine Outcome.hit c mem cover fresh covered satisfiable fun hsound => ?_
      refine (settled hsound).frame (fun d hd id hid => ?_) hsame
      rcases List.mem_cons.mp hd with rfl | hd
      · exact hsupport d mem hid
      · exact hsupport d (mem_hards.mp hd).1 hid
  | missed covered goals same =>
      exact Outcome.missed covered goals
        fun pair hpair hid => (hsame pair hpair hid).trans (same pair hpair hid)

theorem Outcomes.before_congr {ps : List ConstraintPartition}
    {solvers_ solvers' : List VariableCoverageSolver} {before between after : Memory}
    {result : Bool} (hsame : SameAt vcon (supportOf ps) before between)
    (h : Outcomes env vcon between after ps solvers_ solvers' result) :
    Outcomes env vcon before after ps solvers_ solvers' result := by
  induction h with
  | nil => exact Outcomes.nil
  | cons head tail ih =>
      rw [supportOf_cons] at hsame
      constructor
      · exact head.before_congr (hsame.mono Set.subset_union_left)
      · exact ih (hsame.mono Set.subset_union_right)

/-- The formulas of a goal query hold of the constraints they stand for. -/
theorem holds_of_goalQuery {p : ConstraintPartition} {memory : Memory} {c : UserConstraint}
    {m : Model SolverVar} (h : Term.Satisfies m (goalQuery vcon p memory c)) :
    (forall d, d ∈ c :: hards p -> NodeHolds m d.expr_) ∧
      Term.Satisfies m (referenceFormulas (vcon.restrict p.support_vars_) memory
        (vcon.restrict p.support_vars_).read_references) := by
  constructor
  · intro d hd
    rw [← holds_formula, ← holds_equalTrue]
    apply h
    rcases List.mem_cons.mp hd with rfl | hd
    · exact List.mem_append_right _ (List.mem_append_right _ (List.mem_singleton_self _))
    · exact List.mem_append_left _ (List.mem_map_of_mem hd)
  · exact h.mono fun t ht => List.mem_append_right _ (List.mem_append_left _ ht)

theorem solver_spec {p : ConstraintPartition}
    (hmade : forall c, c ∈ p.constraints_ -> c.Made vcon.variables_)
    (hsupport : forall c, c ∈ p.constraints_ -> c.support_vars_ ⊆ p.support_vars_)
    (hunwritten : Unwritten vcon p.support_vars_) {vs vs' : VariableCoverageSolver}
    (hbuilt : Built vcon p vs) {w w' : World} {hit : Bool}
    (h : vs.solve env w = .ok (hit, vs', w')) :
    Outcome env vcon w.memory w'.memory p vs vs' hit ∧
      WrittenOnly vcon p.support_vars_ w.memory w'.memory ∧
      w'.vectors = w.vectors ∧ w'.var_ID = w.var_ID := by
  rcases solve_spec hmade hbuilt h with ⟨hbuilt', hhit, hmissed⟩
  cases hit with
  | true =>
      rcases hhit rfl with ⟨c, hc, hit⟩
      have hmemory := congrArg World.memory hit.world
      refine ⟨Outcome.hit c hc hit.cover hit.fresh hit.covered
        (fun hsound => ⟨_, hit.satisfied hsound⟩) fun hsound => ?_, ?_, ?_, ?_⟩
      · rcases holds_of_goalQuery (hit.satisfied hsound) with ⟨hholds, hrefs⟩
        refine settled_of_model hunwritten (fun d hd => ?_) hholds (fun d hd id hid => ?_)
          hrefs hmemory
        · rcases List.mem_cons.mp hd with rfl | hd
          · exact hsupport d hc
          · exact hsupport d (mem_hards.mp hd).1
        · rcases List.mem_cons.mp hd with rfl | hd
          · rcases hbuilt.declared id (hsupport d hc hid) with ⟨decl, hdecl⟩
            exact ⟨decl, hdecl, hit.met id decl hid hdecl⟩
          · exact hbuilt'.met d (mem_hards.mp hd).1 (mem_hards.mp hd).2 id hid
      · rw [hmemory]
        exact writtenOnly_writeBack _ _ _
      · rw [hit.world]
      · rw [hit.world]
  | false =>
      have hmiss := hmissed rfl
      have hmemory : w'.memory = w.memory := by
        rw [hmiss.world]
      rw [hmemory]
      refine ⟨Outcome.missed hmiss.covered hmiss.goals fun pair _ _ => rfl,
        WrittenOnly.refl _, ?_, ?_⟩
      · rw [hmiss.world]
      · rw [hmiss.world]

theorem built_solveFrom {ps : List ConstraintPartition} (hps : Separated vcon ps)
    {solvers_ solvers' : List VariableCoverageSolver}
    (hbuilt : List.Forall₂ (Built vcon) ps solvers_) {w w' : World} {result : Bool}
    (h : solveFrom env solvers_ w = .ok (result, solvers', w')) :
    List.Forall₂ (Built vcon) ps solvers' ∧ w'.constraint_ID = w.constraint_ID := by
  induction hbuilt generalizing solvers' w result with
  | nil =>
      cases h
      exact ⟨List.Forall₂.nil, rfl⟩
  | @cons p vs ps rest hvs hrest ih =>
      rcases bind_eq_ok.mp h with ⟨⟨hit, vs', w₁⟩, hhead, h⟩
      rcases bind_eq_ok.mp h with ⟨⟨res, rest', w₂⟩, htail, h⟩
      cases h
      rcases solve_spec (hps.made p List.mem_cons_self) hvs hhead with ⟨hvs', hhit, hmissed⟩
      rcases ih hps.tail htail with ⟨hrest', hid⟩
      refine ⟨List.Forall₂.cons hvs' hrest', hid.trans ?_⟩
      cases hit with
      | true =>
          rcases hhit rfl with ⟨c, -, hc⟩
          rw [hc.world]
      | false => rw [(hmissed rfl).world]

/-- The outcome for each partition, seen from the memory before and after the
whole call, and what the call keeps. -/
theorem solveFrom_spec {ps : List ConstraintPartition} (hps : Separated vcon ps)
    (hunwritten : Unwritten vcon (supportOf ps)) {solvers_ solvers' : List VariableCoverageSolver}
    (hbuilt : List.Forall₂ (Built vcon) ps solvers_) {w w' : World} {result : Bool}
    (h : solveFrom env solvers_ w = .ok (result, solvers', w')) :
    List.Forall₂ (Built vcon) ps solvers' ∧
      Outcomes env vcon w.memory w'.memory ps solvers_ solvers' result ∧
      WrittenOnly vcon (supportOf ps) w.memory w'.memory ∧
      w'.vectors = w.vectors ∧ w'.var_ID = w.var_ID := by
  induction hbuilt generalizing solvers' w result with
  | nil =>
      cases h
      exact ⟨List.Forall₂.nil, Outcomes.nil, WrittenOnly.refl _, rfl, rfl⟩
  | @cons p vs ps rest hvs hrest ih =>
      rcases bind_eq_ok.mp h with ⟨⟨hit, vs', w₁⟩, hhead, h⟩
      rcases bind_eq_ok.mp h with ⟨⟨res, rest', w₂⟩, htail, h⟩
      cases h
      rw [supportOf_cons] at hunwritten
      have hsupport := hps.support p List.mem_cons_self
      have hmade := hps.made p List.mem_cons_self
      rcases solver_spec hmade hsupport (hunwritten.mono Set.subset_union_left) hvs hhead with
        ⟨houtcome, hwritten, hvectors, hvar⟩
      rcases ih hps.tail (hunwritten.mono Set.subset_union_right) htail with
        ⟨hbuilt', houtcomes, hwritten', hvectors', hvar'⟩
      refine ⟨List.Forall₂.cons (solve_spec hmade hvs hhead).1 hbuilt', ?_, ?_, ?_, ?_⟩
      · constructor
        · exact houtcome.after_congr hsupport (hwritten'.sameAt hunwritten hps.disjoint_tail)
        · rw [Set.union_comm] at hunwritten
          have hsame := hwritten.sameAt hunwritten hps.disjoint_tail.symm
          exact houtcomes.before_congr hsame
      · rw [supportOf_cons]
        exact (hwritten.mono Set.subset_union_left).trans (hwritten'.mono Set.subset_union_right)
      · rw [hvectors', hvectors]
      · rw [hvar', hvar]

end Solve

end VariableCoverageGenerator
end Backend
end Crave
