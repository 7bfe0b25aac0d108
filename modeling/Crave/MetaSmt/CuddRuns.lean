import Crave.Foundation.RandomMachine
import Crave.Foundation.ShannonExpansion
import Crave.MetaSmt.CuddSampling

/-!
# Runs of the solver with random solutions

The diagrams of a manager are the reduced ones of their functions.  On such a manager, with
at most 32 variables that are all made before the first solution is asked for, a run of
`CUDD_Distributed` has the odds of a solver that draws from sets of solutions.
-/

namespace Crave
namespace MetaSmt

open Foundation Diagram

/-- What the diagram library promises for a fixed order of the variables. -/
structure CuddManager.Canonical {BDD : Type} (_manager : CuddManager BDD) (perm : Nat -> Nat) :
    Prop where
  injective : Function.Injective perm
  denotes : _manager.toCudd.Denotes fun ρ e => (_manager.getNode e).eval ρ
  wellFormed : forall e, exists size, (_manager.getNode e).WellFormed perm size

/-- The diagram looks at the first variables only. -/
def CuddManager.Over {BDD : Type} (_manager : CuddManager BDD) (size : Nat) (e : BDD) : Prop :=
  forall ρ ρ' : Nat -> Bool, (forall i, i < size -> ρ i = ρ' i) ->
    (_manager.getNode e).eval ρ = (_manager.getNode e).eval ρ'

/-- A manager of Boolean functions, in the order of the indices. -/
def CuddManager.ofFunctions : CuddManager BooleanFunction :=
  { bddVar := .projection
    bddZero := .constant false
    bddOne := .constant true
    not := .not
    and := .map₂ Bool.and
    or := .map₂ Bool.or
    xor := .map₂ Bool.xor
    Ite := .ite
    getNode := BooleanFunction.edge }

theorem CuddManager.canonical_ofFunctions : CuddManager.ofFunctions.Canonical id := by
  constructor
  · exact Function.injective_id
  · have heval : (fun (ρ : Nat -> Bool) e => (CuddManager.ofFunctions.getNode e).eval ρ) =
        fun ρ e => e.eval ρ := by
      funext ρ e
      exact e.eval_edge ρ
    rw [heval]
    constructor
    · exact fun _ _ => rfl
    · exact fun _ => rfl
    · exact fun _ => rfl
    · exact fun _ _ => rfl
    · exact fun _ _ _ => rfl
    · exact fun _ _ _ => rfl
    · exact fun _ _ _ => rfl
    · exact fun ρ f g h => BooleanFunction.eval_ite f g h ρ
  · exact fun e => ⟨e.size, e.wellFormed_edge⟩

namespace CUDD_Distributed

section Diagrams

variable {BDD : Type} {_manager : CuddManager BDD} {perm : Nat -> Nat} {size : Nat}

theorem over_bddOne (h : _manager.Canonical perm) : _manager.Over size _manager.bddOne := by
  intro ρ ρ' _
  rw [h.denotes.bddOne, h.denotes.bddOne]

theorem over_and (h : _manager.Canonical perm) {a b : BDD} (ha : _manager.Over size a)
    (hb : _manager.Over size b) : _manager.Over size (_manager.and a b) := by
  intro ρ ρ' hρ
  rw [h.denotes.and, h.denotes.and, ha ρ ρ' hρ, hb ρ ρ' hρ]

theorem wellFormed_of_over (h : _manager.Canonical perm) (hlow : forall i, i < size -> perm i < size)
    {e : BDD} (he : _manager.Over size e) : (_manager.getNode e).WellFormed perm size := by
  rcases h.wellFormed e with ⟨size', hwf⟩
  exact hwf.restrict h.injective hlow he

theorem models_and (h : _manager.Canonical perm) (a b : BDD) :
    (_manager.getNode (_manager.and a b)).models size =
      (_manager.getNode a).models size ∩ (_manager.getNode b).models size := by
  ext l
  simp only [Edge.models, Finset.mem_inter, Finset.mem_filter, Finset.mem_univ, true_and]
  rw [h.denotes.and, Bool.and_eq_true]

theorem models_bddOne (h : _manager.Canonical perm) :
    (_manager.getNode _manager.bddOne).models size = Finset.univ := by
  ext l
  simp only [Edge.models, Finset.mem_filter, Finset.mem_univ, true_and]
  rw [h.denotes.bddOne]
  exact iff_of_true rfl trivial

theorem eq_bddZero_iff (h : _manager.Canonical perm) {e : BDD} (he : _manager.Over size e) :
    _manager.getNode e = _manager.getNode _manager.bddZero ↔
      ¬ ((_manager.getNode e).models size).Nonempty := by
  constructor
  · rintro heq ⟨l, hl⟩
    simp only [Edge.models, Finset.mem_filter, Finset.mem_univ, true_and, heq] at hl
    rw [h.denotes.bddZero] at hl
    cases hl
  · intro hnone
    rcases h.wellFormed e with ⟨size₁, hwf₁⟩
    rcases h.wellFormed _manager.bddZero with ⟨size₂, hwf₂⟩
    refine Edge.eq_of_eval_eq h.injective (hwf₁.mono (le_max_left size₁ size₂))
      (hwf₂.mono (le_max_right size₁ size₂)) ?_
    intro ρ
    rw [h.denotes.bddZero, ← Bool.not_eq_true]
    intro htrue
    apply hnone
    refine ⟨fun i => ρ i, ?_⟩
    simp only [Edge.models, Finset.mem_filter, Finset.mem_univ, true_and]
    rw [← htrue]
    apply he
    intro i hi
    exact dif_pos hi

end Diagrams

/-!
## Runs
-/

/-- The generator that the solver draws its numbers from. -/
noncomputable def uniform_int (hi : Nat) : PMF Nat :=
  uniformBelow (hi + 1)

theorem draw_uniform_int {n : Nat} (hn : 0 < n) (hle : n ≤ 2 ^ 32) :
    draw uniform_int n = uniformBelow n := by
  have hmod : (n + (2 ^ 32 - 1)) % 2 ^ 32 + 1 = n := by omega
  rw [draw, uniform_int, hmod]

/-- A way to read solutions gives the variables that are open a coin each. -/
def Reads {size : Nat} {Solution : Type} (reader : List (Option Bool) -> PMF (Option Solution))
    (decode : (Fin size -> Bool) ≃ Solution) : Prop :=
  forall _solution : List (Option Bool), _solution.length = size ->
    reader _solution = (fun l => some (decode l)) <$> completed size (valueOf _solution)

/-- The coins alone. -/
noncomputable def coins (size : Nat) (_solution : List (Option Bool)) :
    PMF (Option (Fin size -> Bool)) :=
  some <$> completed size (valueOf _solution)

theorem reads_coins (size : Nat) : Reads (coins size) (Equiv.refl (Fin size -> Bool)) :=
  fun _ _ => rfl

section Machine

variable {BDD Solution : Type} (_manager : CuddManager BDD) (perm : Nat -> Nat) (size : Nat)
  (reader : List (Option Bool) -> PMF (Option Solution))

/-- The solver, with a reader for its solutions. -/
noncomputable def machine :
    Machine PMF (SolverCall BDD) (SolverReply Solution) (CUDD_Distributed BDD) :=
  { step := fun call st =>
      match call with
      | .assertion e => pure (.done, st.assertion _manager e)
      | .assumption e => pure (.done, st.assumption _manager e)
      | .solve => do
          match <- solve _manager uniform_int perm size st with
          | none => return (.undefined, st)
          | some (false, st) => return (.unsolvable, st)
          | some (true, st) => do
              match <- reader st._solution with
              | none => return (.undefined, st)
              | some solution => return (.solved solution, st) }

variable {size} (decode : (Fin size -> Bool) ≃ Solution)

def solutions (e : BDD) : Finset Solution :=
  ((_manager.getNode e).models size).map decode.toEmbedding

/-- The diagram of a call stands for its solutions. -/
def Stands (call : SolverCall BDD) (call' : SolverCall (Finset Solution)) : Prop :=
  call.All (_manager.Over size) ∧ call' = call.map (solutions _manager decode)

/-- The diagrams of the solver stand for the sets, and its counts are right. -/
structure Represents (st : CUDD_Distributed BDD) (s : UniformSolver Solution) : Prop where
  over_assertions : _manager.Over size st._assertions
  over_assumptions : _manager.Over size st._assumptions
  right : Right perm size st.maps
  assertions : s.assertions = solutions _manager decode st._assertions
  assumptions : s.assumptions = solutions _manager decode st._assumptions

variable {_manager perm reader decode} {st : CUDD_Distributed BDD} {s : UniformSolver Solution}

theorem solutions_and [DecidableEq Solution] (h : _manager.Canonical perm) (a b : BDD) :
    solutions _manager decode (_manager.and a b) =
      solutions _manager decode a ∩ solutions _manager decode b := by
  rw [solutions, models_and h, Finset.map_inter]
  rfl

theorem solutions_bddOne [Fintype Solution] (h : _manager.Canonical perm) :
    solutions _manager decode _manager.bddOne = Finset.univ := by
  rw [solutions, models_bddOne h, Finset.map_univ_equiv]

theorem right_refreshed (hright : Right perm size st.maps) :
    Right perm size (st.refreshed _manager).maps := by
  rw [refreshed]
  split
  · exact hright
  · exact right_reset perm size

theorem assertions_refreshed : (st.refreshed _manager)._assertions = st._assertions := by
  rw [refreshed]
  split <;> rfl

theorem assumptions_refreshed : (st.refreshed _manager)._assumptions = _manager.bddOne := by
  rw [refreshed]
  split <;> rfl

theorem step_solve_unsolvable
    (hzero : _manager.getNode (st.complete _manager) = _manager.getNode _manager.bddZero) :
    (machine _manager perm size reader).step .solve st =
      pure (.unsolvable, st.refreshed _manager) := by
  simp only [machine, solve, hzero, if_true, pure_bind]

theorem step_solve_solved {outcomes : PMF (Outcome perm size)}
    (hne : _manager.getNode (st.complete _manager) ≠ _manager.getNode _manager.bddZero)
    (hstore : store_solution perm size uniform_int (_manager.getNode (st.complete _manager))
      (st.refreshed _manager).maps = (fun p => some p.1) <$> outcomes)
    (hreader : Reads reader decode) :
    (machine _manager perm size reader).step .solve st = do
      let p <- outcomes
      let solution <- completed size (valueOf p.1.1)
      return (.solved (decode solution),
        { st.refreshed _manager with _solution := p.1.1, maps := p.1.2 }) := by
  simp only [machine, solve, hne, if_false, hstore, bind_map_left, bind_assoc, pure_bind]
  refine bind_congr fun p => ?_
  simp only [hreader p.1.1 p.2.1, bind_map_left]

theorem stands_map {calls : List (SolverCall BDD)}
    (hcalls : forall call, call ∈ calls -> call.All (_manager.Over size)) :
    List.Forall₂ (Stands _manager decode) calls
      (calls.map (SolverCall.map (solutions _manager decode))) := by
  rw [List.forall₂_map_right_iff, List.forall₂_same]
  intro call hcall
  exact ⟨hcalls call hcall, rfl⟩

theorem stands_replicate_solve (calls : Nat) :
    List.Forall₂ (Stands _manager decode) (List.replicate calls .solve)
      (List.replicate calls .solve) := by
  induction calls with
  | zero => exact .nil
  | succ calls ih => exact .cons ⟨trivial, rfl⟩ ih

theorem represents_new [Fintype Solution] (h : _manager.Canonical perm) :
    Represents _manager perm decode (new _manager) UniformSolver.new :=
  { over_assertions := over_bddOne h
    over_assumptions := over_bddOne h
    right := right_reset perm size
    assertions := (solutions_bddOne h).symm
    assumptions := (solutions_bddOne h).symm }

theorem Represents.assertion [DecidableEq Solution] (h : _manager.Canonical perm)
    (hs : Represents _manager perm decode st s) {e : BDD} (he : _manager.Over size e) :
    Represents _manager perm decode (st.assertion _manager e)
      { s with assertions := s.assertions ∩ solutions _manager decode e } :=
  { over_assertions := over_and h hs.over_assertions he
    over_assumptions := hs.over_assumptions
    right := hs.right
    assertions := by
      rw [hs.assertions]
      exact (solutions_and h _ _).symm
    assumptions := hs.assumptions }

theorem Represents.assumption [DecidableEq Solution] (h : _manager.Canonical perm)
    (hs : Represents _manager perm decode st s) {e : BDD} (he : _manager.Over size e) :
    Represents _manager perm decode (st.assumption _manager e)
      { s with assumptions := s.assumptions ∩ solutions _manager decode e } :=
  { over_assertions := hs.over_assertions
    over_assumptions := over_and h hs.over_assumptions he
    right := hs.right
    assertions := hs.assertions
    assumptions := by
      rw [hs.assumptions]
      exact (solutions_and h _ _).symm }

theorem Represents.refreshed [Fintype Solution] (h : _manager.Canonical perm)
    (hs : Represents _manager perm decode st s) :
    Represents _manager perm decode (st.refreshed _manager)
      { s with assumptions := Finset.univ } :=
  { over_assertions := by
      rw [assertions_refreshed]
      exact hs.over_assertions
    over_assumptions := by
      rw [assumptions_refreshed]
      exact over_bddOne h
    right := right_refreshed hs.right
    assertions := by
      rw [assertions_refreshed]
      exact hs.assertions
    assumptions := by
      rw [assumptions_refreshed]
      exact (solutions_bddOne h).symm }

theorem Represents.solutions_eq [DecidableEq Solution] (h : _manager.Canonical perm)
    (hs : Represents _manager perm decode st s) :
    s.solutions = solutions _manager decode (st.complete _manager) := by
  rw [UniformSolver.solutions, hs.assertions, hs.assumptions]
  exact (solutions_and h _ _).symm

variable [DecidableEq Solution] [Fintype Solution]

theorem simulates_solve (h : _manager.Canonical perm) (hlow : forall i, i < size -> perm i < size)
    (hsize : size ≤ 32) (hreader : Reads reader decode)
    (hs : Represents _manager perm decode st s) :
    exists joint : PMF (Machine.Joint (SolverReply Solution) (Represents _manager perm decode)),
      (machine _manager perm size reader).step .solve st = (fun p => (p.1.1, p.1.2.1)) <$> joint ∧
      UniformSolver.machine.step .solve s = (fun p => (p.1.1, p.1.2.2)) <$> joint := by
  have hafter := hs.refreshed h
  have hcomplete : _manager.Over size (st.complete _manager) :=
    over_and h hs.over_assertions hs.over_assumptions
  have hsolutions := hs.solutions_eq h
  by_cases hzero : _manager.getNode (st.complete _manager) = _manager.getNode _manager.bddZero
  · have hnone : ¬ s.solutions.Nonempty := by
      rw [hsolutions, solutions, Finset.map_nonempty]
      exact (eq_bddZero_iff h hcomplete).mp hzero
    refine ⟨pure ⟨(.unsolvable, st.refreshed _manager, { s with assumptions := Finset.univ }),
      hafter⟩, ?_, ?_⟩
    · rw [step_solve_unsolvable hzero, map_pure]
    · rw [map_pure]
      exact dif_neg hnone
  · have hmodels : ((_manager.getNode (st.complete _manager)).models size).Nonempty :=
      not_not.mp fun hnone => hzero ((eq_bddZero_iff h hcomplete).mpr hnone)
    have hne : s.solutions.Nonempty := by
      rw [hsolutions, solutions, Finset.map_nonempty]
      exact hmodels
    have hwf := wellFormed_of_over h hlow hcomplete
    rcases store_solution_spec h.injective hsize uniform_int hwf hafter.right with
      ⟨outcomes, hstore, hsample⟩
    -- the counts of the outcome are right again
    refine ⟨do
      let p <- outcomes
      let solution <- completed size (valueOf p.1.1)
      return ⟨(.solved (decode solution),
        { st.refreshed _manager with _solution := p.1.1, maps := p.1.2 },
        { s with assumptions := Finset.univ }), { hafter with right := p.2.2 }⟩, ?_, ?_⟩
    · rw [step_solve_solved hzero hstore hreader]
      simp only [map_bind, map_pure]
    · have hdraw : forall n, 0 < n -> n ≤ 2 ^ size -> draw uniform_int n = uniformBelow n :=
        fun n hn hle => draw_uniform_int hn (hle.trans (pow_le hsize))
      have huniform : (do
          let p <- outcomes
          completed size (valueOf p.1.1)) = PMF.uniformOfFinset _ hmodels := by
        rw [← bind_map_left (fun p : Outcome perm size => valueOf p.1.1), hsample]
        exact Edge.sample_completed_eq_uniform hdraw hwf.ordered hmodels
      have hstep : UniformSolver.machine.step .solve s =
          (fun a => (.solved a, { s with assumptions := Finset.univ })) <$>
            PMF.uniformOfFinset s.solutions hne := dif_pos hne
      have hdecode : PMF.uniformOfFinset s.solutions hne =
          decode <$> PMF.uniformOfFinset _ hmodels := by
        simp only [hsolutions]
        exact (map_uniformOfFinset decode hmodels _).symm
      rw [hstep, hdecode, ← huniform]
      simp only [map_bind, map_pure, ← comp_map]
      rfl

theorem simulates_machine (h : _manager.Canonical perm)
    (hlow : forall i, i < size -> perm i < size) (hsize : size ≤ 32)
    (hreader : Reads reader decode) :
    (machine _manager perm size reader).Simulates UniformSolver.machine (Stands _manager decode)
      (Represents _manager perm decode) := by
  rintro call _ st s ⟨hover, rfl⟩ hs
  cases call with
  | assertion e =>
      refine ⟨pure ⟨(.done, _, _), hs.assertion h hover⟩, ?_, ?_⟩
      · rw [map_pure]
        rfl
      · rw [map_pure]
        rfl
  | assumption e =>
      refine ⟨pure ⟨(.done, _, _), hs.assumption h hover⟩, ?_, ?_⟩
      · rw [map_pure]
        rfl
      · rw [map_pure]
        rfl
  | solve => exact simulates_solve h hlow hsize hreader hs

end Machine

/-- Whatever assertions, assumptions and requests for solutions follow each other, the
replies have the odds of drawing uniformly from the sets of solutions: no shift is
undefined, and no count that is kept from an earlier call spoils a later one. -/
theorem run_uniform {BDD : Type} {_manager : CuddManager BDD} {perm : Nat -> Nat} {size : Nat}
    (h : _manager.Canonical perm) (hlow : forall i, i < size -> perm i < size)
    (hsize : size ≤ 32) {calls : List (SolverCall BDD)}
    (hcalls : forall call, call ∈ calls -> call.All (_manager.Over size)) :
    (machine _manager perm size (coins size)).run calls (new _manager) =
      UniformSolver.machine.run
        (calls.map (SolverCall.map fun e => (_manager.getNode e).models size))
        UniformSolver.new := by
  have hsets : solutions _manager (Equiv.refl (Fin size -> Bool)) =
      fun e => (_manager.getNode e).models size := by
    funext e
    exact Finset.map_refl
  rw [← hsets]
  exact (simulates_machine h hlow hsize (reads_coins size)).run_eq (stands_map hcalls)
    (represents_new h)

/-- Two variables, of which one at least has to be true: a solution is drawn twice, the
second time with the first variable false. -/
theorem run_uniform_two :
    (machine CuddManager.ofFunctions id 2 (coins 2)).run
        [.assertion (BooleanFunction.map₂ Bool.or (.projection 0) (.projection 1)), .solve,
          .assumption (.not (.projection 0)), .solve]
        (new CuddManager.ofFunctions) =
      UniformSolver.machine.run
        ([.assertion (BooleanFunction.map₂ Bool.or (.projection 0) (.projection 1)), .solve,
          .assumption (.not (.projection 0)), .solve].map
            (SolverCall.map fun e => (CuddManager.ofFunctions.getNode e).models 2))
        UniformSolver.new := by
  have hover : forall f : BooleanFunction, f.size ≤ 2 -> CuddManager.ofFunctions.Over 2 f := by
    intro f hf ρ ρ' hρ
    have heval := f.eval_congr ρ ρ' fun i hi => hρ i (Nat.lt_of_lt_of_le hi hf)
    rwa [← f.eval_edge, ← f.eval_edge] at heval
  refine run_uniform CuddManager.canonical_ofFunctions (fun i hi => hi) (by decide) ?_
  intro call hcall
  simp only [List.mem_cons, List.not_mem_nil, or_false] at hcall
  rcases hcall with rfl | rfl | rfl | rfl
  · exact hover _ (by decide)
  · trivial
  · exact hover _ (by decide)
  · trivial

end CUDD_Distributed
end MetaSmt
end Crave
