import Crave.Backend.FailedPartitions
import Crave.Backend.FailedVectors
import Crave.Backend.GeneratorExceptions

/-!
# Calls that fail

The solvers of a call write their solutions one after the other, and nothing is taken back
when a later one fails. A call that returns false keeps all values exactly when the solvers
that can come before the failing one change none.
-/

namespace Crave
namespace Backend

open Foundation Ir

/-!
## Solvers between two calls
-/

namespace VariableGenerator

open VariableDefaultSolver (Drawn Checked Built)

variable {env : Environment} {vcon : VariableContainer} {ps : List ConstraintPartition}
  {solvers_ solvers' : List VariableDefaultSolver} {w w' : World} {result : Bool}

theorem forall_solveFrom {P : VariableDefaultSolver -> Prop}
    (hsolve : forall {p vs vs' w w' result}, Built vcon p vs -> P vs ->
      VariableDefaultSolver.solve env vs w = .ok (result, vs', w') -> P vs')
    (hbuilt : List.Forall₂ (Built vcon) ps solvers_) (hall : forall vs, vs ∈ solvers_ -> P vs)
    (h : solveFrom env solvers_ w = .ok (result, solvers', w')) :
    forall vs, vs ∈ solvers' -> P vs := by
  induction hbuilt generalizing solvers' w with
  | nil =>
      cases h
      exact hall
  | @cons p vs ps rest hvs hrest ih =>
      have htailAll : forall u, u ∈ rest -> P u :=
        fun u hu => hall u (List.mem_cons_of_mem vs hu)
      rcases solveFrom_cons h with ⟨r, vs', w₁, hhead, hcases⟩
      have hhead' := hsolve hvs (hall vs List.mem_cons_self) hhead
      rcases hcases with ⟨_, _, rfl, _⟩ | ⟨_, rest', htail, rfl⟩
      · intro u hu
        cases List.mem_cons.mp hu with
        | inl heq =>
            rw [heq]
            exact hhead'
        | inr hu => exact htailAll u hu
      · intro u hu
        cases List.mem_cons.mp hu with
        | inl heq =>
            rw [heq]
            exact hhead'
        | inr hu => exact ih htailAll htail u hu

/-- Solvers that can be called: those of partitions without a common variable. -/
structure Workable (vcon : VariableContainer) (solvers_ : List VariableDefaultSolver) : Prop where
  separated : Separated vcon (partitionsOf solvers_)
  built : List.Forall₂ (Built vcon) (partitionsOf solvers_) solvers_
  drawn : forall vs, vs ∈ solvers_ -> Drawn vs
  checked : forall vs, vs ∈ solvers_ -> Checked vs

theorem workable_of_built (hps : Separated vcon ps)
    (hbuilt : List.Forall₂ (Built vcon) ps solvers_)
    (hdrawn : forall vs, vs ∈ solvers_ -> Drawn vs)
    (hchecked : forall vs, vs ∈ solvers_ -> Checked vs) : Workable vcon solvers_ := by
  have heq := partitionsOf_built hbuilt
  constructor
  · rw [heq]
    exact hps
  · rw [heq]
    exact hbuilt
  · exact hdrawn
  · exact hchecked

theorem workable_nil (vcon : VariableContainer) : Workable vcon [] := by
  constructor
  · constructor
    · exact List.Pairwise.nil
    · intro p hp
      cases hp
    · intro p hp
      cases hp
  · exact List.Forall₂.nil
  · intro vs hvs
    cases hvs
  · intro vs hvs
    cases hvs

theorem Workable.solveFrom (h : Workable vcon solvers_)
    (hsolve : solveFrom env solvers_ w = .ok (result, solvers', w')) : Workable vcon solvers' :=
  workable_of_built h.separated (solveFrom_spec h.built hsolve).left
    (forall_solveFrom (fun hbuilt hvs hcall => hvs.solve hbuilt.ready hcall) h.built h.drawn hsolve)
    (forall_solveFrom (fun hbuilt hvs hcall => hvs.solve hbuilt.ready hcall) h.built h.checked
      hsolve)

theorem Workable.builtAmong (h : Workable vcon solvers_) :
    BuiltAmong vcon (partitionsOf solvers_) solvers_ :=
  builtAmong_of_forall₂ h.built h.drawn

end VariableGenerator

namespace Generator

open VariableGenerator (Workable partitionsOf)

variable {env : Environment} {vcon : VariableContainer} {g g' : Generator} {w w' : World}

/-!
## Runs with exceptions
-/

/-- The constraints and the solvers of the variables between two operations. -/
structure Intact (vcon : VariableContainer) (g : Generator) (w : World) : Prop where
  standing : Standing vcon g w
  solvers : Workable vcon g.var_gen_.solvers_

theorem intact_new (w : World) : Intact vcon Generator.new w :=
  ⟨standing_new w, VariableGenerator.workable_nil vcon⟩

/-- A rebuild leaves the solvers of the partitions before one that cannot be built. -/
theorem intact_rebuild (hsound : env.Sound) (hcomplete : env.Complete)
    (h : Standing vcon g w) {result : Except String Unit}
    (hrebuild : rebuild env vcon true (reset env vcon g) w = (result, g', w')) :
    Workable vcon g'.var_gen_.solvers_ := by
  have hparts := ConstraintPartitioner.partition_isPartition _ h.owned.scalars.ids
  have hps : Separated vcon (ConstraintPartitioner.partition (scalarConstraints g.constr_mng_)) :=
    h.owned.scalars.separated
  have hrebuilt := rebuilt_self h hrebuild
  have hrun : ((reset env vcon g).merge (reset env vcon g)).constr_pttn_.run.partitions_ =
      ConstraintPartitioner.partition (scalarConstraints g.constr_mng_) := rfl
  simp only [rebuild, if_true, VariableGenerator.reset, hrun] at hrebuild
  cases hcreate : VariableGenerator.createSolvers env vcon
      (ConstraintPartitioner.partition (scalarConstraints g.constr_mng_)) w.time with
  | mk solvers_ q =>
      cases q with
      | mk time outcome =>
          rw [hcreate] at hrebuild
          have hdrawn : forall vs, vs ∈ solvers_ -> VariableDefaultSolver.Drawn vs :=
            VariableGenerator.forall_createSolvers (fun p hp _ _ _ hnew =>
              VariableDefaultSolver.drawn_new (hps.made p hp) hnew) hcreate
          have hchecked : forall vs, vs ∈ solvers_ -> VariableDefaultSolver.Checked vs :=
            VariableGenerator.forall_createSolvers (fun p hp _ _ _ hnew =>
              VariableDefaultSolver.checked_new hsound hcomplete (hps.made p hp)
                (filed_of_isPartition hparts hp) hnew) hcreate
          have hsolvers : g'.var_gen_.solvers_ = solvers_ := by
            cases outcome with
            | error e =>
                cases hrebuild
                rfl
            | ok u =>
                cases hrebuild
                rfl
          have hready := hrebuilt.ready
          have hworkable := VariableGenerator.workable_of_built hready.separated hready.var_gen
          rw [hsolvers] at hworkable ⊢
          exact hworkable hdrawn hchecked

theorem intact_solveVectors (h : Workable vcon g.var_gen_.solvers_) {var_gen : List VariableSolver}
    {result : Except String Bool} (hsolve : solveVectors env var_gen g w = (result, g', w')) :
    Workable vcon g'.var_gen_.solvers_ := by
  unfold solveVectors at hsolve
  split at hsolve
  · cases hsolve
    exact h
  · cases hsolve
    exact h

theorem intact_solve (h : Workable vcon g.var_gen_.solvers_) {result : Except String Bool}
    (hsolve : solve env g w = (result, g', w')) : Workable vcon g'.var_gen_.solvers_ := by
  have hvariables : forall {r var_gen_ w₁}, g.var_gen_.solve env w = .ok (r, var_gen_, w₁) ->
      Workable vcon var_gen_.solvers_ := by
    intro r var_gen_ w₁ hvariables
    rcases bind_eq_ok.mp hvariables with ⟨⟨r, solvers', w₁⟩, hfrom, hvariables⟩
    cases hvariables
    exact h.solveFrom hfrom
  unfold solve at hsolve
  split at hsolve
  · cases hsolve
    exact h
  · next hsolved =>
      cases hsolve
      exact hvariables hsolved
  · next hsolved => exact intact_solveVectors (hvariables hsolved) hsolve

theorem intact_solveCoverage (h : Workable vcon g.var_gen_.solvers_) {result : Except String Bool}
    (hsolve : solveCoverage env g w = (result, g', w')) : Workable vcon g'.var_gen_.solvers_ := by
  unfold solveCoverage at hsolve
  split at hsolve
  · cases hsolve
    exact h
  · cases hsolve
    exact h
  · next hsolved =>
      refine intact_solveVectors ?_ hsolve
      exact h

/-- No operation, whatever its outcome, leaves solvers that cannot be called. -/
theorem stable_intact (hsound : env.Sound) (hcomplete : env.Complete) :
    Stable env vcon (Intact vcon) := by
  constructor
  · intro g w h
    exact h.standing.owned
  · intro g w w' h hle
    exact ⟨h.standing.mono hle, h.solvers⟩
  · intro g w w' mng h howned _ _
    exact ⟨h.standing.setManager howned, h.solvers⟩
  · intro g w h covered
    exact ⟨h.standing.setCovered covered, h.solvers⟩
  · intro g w h
    exact ⟨h.standing.noVarGen, VariableGenerator.workable_nil vcon⟩
  · intro g g' w w' result h hrebuild
    refine ⟨?_, intact_rebuild hsound hcomplete h.standing hrebuild⟩
    exact ((stable_standing env vcon g w).rebuild ⟨h.standing, Numbering.refl g w⟩ hrebuild).left
  · intro g g' w result h hreset
    refine ⟨(standing_resetCoverage h.standing hreset).left, ?_⟩
    cases hreset
    exact h.solvers
  · intro g g' w w' result h hsolve
    exact ⟨(solved_solve h.standing.ready hsolve).standing h.standing, intact_solve h.solvers hsolve⟩
  · intro g g' w w' result h hsolve
    exact ⟨(solved_solveCoverage h.standing.ready hsolve).standing h.standing,
      intact_solveCoverage h.solvers hsolve⟩

theorem Used.intact {allowed : Operation -> Prop} (h : Used env vcon allowed g w)
    (hsound : env.Sound) (hcomplete : env.Complete) : Intact vcon g w := by
  have hstable : Stable env vcon (Intact vcon) := stable_intact hsound hcomplete
  induction h with
  | new w => exact intact_new w
  | perform _ op hover _ result h ih => exact hstable.perform ih hover h
  | interrupted _ vec_gen_ h ih => exact ⟨ih.standing.setVectors h, ih.solvers⟩
  | outside _ h ih => exact hstable.mono ih h

/-!
## What is there before a call
-/

/-- The values of variables behind write references are values of their types. -/
def InRange (vcon : VariableContainer) (memory : Memory) : Prop :=
  forall pair, pair ∈ vcon.write_references ->
    memory pair.2 < 2 ^ (vcon.declOf pair.1).bitsize

instance (vcon : VariableContainer) (memory : Memory) : Decidable (InRange vcon memory) :=
  inferInstanceAs (Decidable (forall pair, pair ∈ vcon.write_references -> _))

/-- The elements of vectors are values of their types. -/
def ElementsInRange (env : Environment) (vectors : Nat -> List Nat) : Prop :=
  forall id vector, env.vectorBaseMap id = some vector ->
    forall value, value ∈ vectors id -> value < 2 ^ vector.element.bitsize

/-- The world with other values of the variables and the vectors. -/
def withValues (w : World) (memory : Memory) (vectors : Nat -> List Nat) : World :=
  { w with memory := memory, vectors := vectors }

/-- Whatever the variables and vectors hold, a call that returns false leaves it there. -/
def Atomic (env : Environment) (vcon : VariableContainer) (g : Generator) (w : World) : Prop :=
  forall memory vectors g' w', InRange vcon memory -> ElementsInRange env vectors ->
    next env vcon g (withValues w memory vectors) = (.ok false, g', w') ->
      (forall pair, pair ∈ vcon.write_references -> w'.memory pair.2 = memory pair.2) ∧
        w'.vectors = vectors

theorem update_withValues {result : Except String Unit}
    (h : update env vcon g w = (result, g', w')) (memory : Memory) (vectors : Nat -> List Nat) :
    update env vcon g (withValues w memory vectors) =
      (result, g', withValues w' memory vectors) := by
  unfold update at h ⊢
  split at h
  · next hchanged =>
      rw [if_pos hchanged]
      unfold rebuild at h ⊢
      simp only [withValues] at h ⊢
      split at h
      · cases h
        rfl
      · cases h
        rfl
  · next hunchanged =>
      rw [if_neg hunchanged]
      cases h
      rfl

theorem InRange.setValue {memory : Memory} (h : InRange vcon memory) {pair : Nat × Nat}
    (hpair : pair ∈ vcon.write_references) {a : Nat} (ha : a = memory pair.2 ∨ a < 2) :
    InRange vcon (Function.update memory pair.2 a) := by
  intro other hother
  by_cases hloc : other.2 = pair.2
  · rw [write_eq_of_location hother hpair hloc, Function.update_self]
    cases ha with
    | inl heq =>
        rw [heq]
        exact h pair hpair
    | inr hlt =>
        have hpos := (vcon.supported pair.1 _ (VariableContainer.variables_of_write hpair)).left
        exact Nat.lt_of_lt_of_le hlt (Nat.pow_le_pow_right Nat.zero_lt_two hpos)
  · rw [Function.update_of_ne hloc]
    exact h other hother

/-!
## The course of a failing call
-/

theorem solve_false_cases (h : solve env g w = (.ok false, g', w')) :
    (exists solvers', VariableGenerator.solveFrom env g.var_gen_.solvers_ w =
      .ok (false, solvers', w')) ∨
    exists solvers' w₁ vectors', VariableGenerator.solveFrom env g.var_gen_.solvers_ w =
        .ok (true, solvers', w₁) ∧
      VectorGenerator.solveFrom env (solvers'.map VariableDefaultSolver.toVariableSolver)
        g.vec_gen_.vector_solvers_ w₁ = .ok (false, vectors', w') := by
  unfold solve at h
  split at h
  · cases h
  · next hvariables =>
      cases h
      rcases bind_eq_ok.mp hvariables with ⟨⟨r, solvers', w₁⟩, hfrom, hvariables⟩
      cases hvariables
      exact Or.inl ⟨solvers', hfrom⟩
  · next hvariables =>
      rcases bind_eq_ok.mp hvariables with ⟨⟨r, solvers', w₁⟩, hfrom, hvariables⟩
      cases hvariables
      unfold solveVectors at h
      split at h
      · cases h
      · next hvectors =>
          cases h
          rcases bind_eq_ok.mp hvectors with ⟨⟨r, vectors', w₂⟩, hvecs, hvectors⟩
          cases r with
          | true =>
              rcases bind_eq_ok.mp hvectors with ⟨w₃, _, hvectors⟩
              cases hvectors
          | false =>
              cases hvectors
              exact Or.inr ⟨solvers', _, vectors', hfrom, hvecs⟩

theorem solve_of_variables_false {solvers' : List VariableDefaultSolver}
    (h : VariableGenerator.solveFrom env g.var_gen_.solvers_ w = .ok (false, solvers', w')) :
    exists g', solve env g w = (.ok false, g', w') := by
  have hvariables : g.var_gen_.solve env w = .ok (false, { solvers_ := solvers' }, w') :=
    bind_eq_ok.mpr ⟨_, h, rfl⟩
  unfold solve
  rw [hvariables]
  exact ⟨_, rfl⟩

theorem solve_of_vectors_false {solvers' : List VariableDefaultSolver} {w₁ : World}
    {vectors' : List (Nat × VectorSolver)}
    (h : VariableGenerator.solveFrom env g.var_gen_.solvers_ w = .ok (true, solvers', w₁))
    (hvecs : VectorGenerator.solveFrom env (solvers'.map VariableDefaultSolver.toVariableSolver)
      g.vec_gen_.vector_solvers_ w₁ = .ok (false, vectors', w')) :
    exists g', solve env g w = (.ok false, g', w') := by
  have hvariables : g.var_gen_.solve env w = .ok (true, { solvers_ := solvers' }, w₁) :=
    bind_eq_ok.mpr ⟨_, h, rfl⟩
  have hvectors : g.vec_gen_.solve env (solvers'.map VariableDefaultSolver.toVariableSolver)
      g.to_be_generated_vec_ids_ w₁ = .ok (false, { vector_solvers_ := vectors' }, w') :=
    bind_eq_ok.mpr ⟨_, hvecs, rfl⟩
  unfold solve
  rw [hvariables]
  simp only [solveVectors, hvectors]
  exact ⟨_, rfl⟩

/-- The same for the solvers that are there when the update is done. -/
def AtomicSolve (env : Environment) (vcon : VariableContainer) (g : Generator) (w : World) : Prop :=
  forall memory vectors g' w', InRange vcon memory -> ElementsInRange env vectors ->
    solve env g (withValues w memory vectors) = (.ok false, g', w') ->
      (forall pair, pair ∈ vcon.write_references -> w'.memory pair.2 = memory pair.2) ∧
        w'.vectors = vectors

/-- What holds of the solvers that a call uses, and of the next identifier of a variable. -/
def AtCall (env : Environment) (vcon : VariableContainer) (g : Generator) (w : World)
    (P : Generator -> Nat -> Prop) : Prop :=
  forall g₁ w₁, update env vcon g w = (.ok (), g₁, w₁) -> P g₁ w₁.var_ID

theorem atomic_iff : Atomic env vcon g w ↔ forall g₁ w₁,
    update env vcon g w = (.ok (), g₁, w₁) -> AtomicSolve env vcon g₁ w₁ := by
  constructor
  · intro h g₁ w₁ hupdate memory vectors g' w' hrange helements hsolve
    apply h memory vectors g' w' hrange helements
    unfold next
    rw [update_withValues hupdate]
    exact hsolve
  · intro h memory vectors g' w' hrange helements hnext
    rcases hupdate : update env vcon g w with ⟨outcome, g₁, w₁⟩
    unfold next at hnext
    rw [update_withValues hupdate] at hnext
    cases outcome with
    | error e => cases hnext
    | ok u => exact h g₁ w₁ hupdate memory vectors g' w' hrange helements hnext

/-!
## What can come before a failure
-/

open VariableDefaultSolver (Keeps)
open VariableGenerator (KeepsBefore Reported Constrained)
open VectorGenerator (Fails SameSizes)

/-- When the solvers of the variables fail, those before the failing one keep the values.
When the vectors fail, none is written before, and all solvers keep the values of the
variables. -/
structure Quiet (env : Environment) (vcon : VariableContainer) (g : Generator) (var_ID : Nat) :
    Prop where
  partition : forall memory, InRange vcon memory ->
    KeepsBefore vcon (partitionsOf g.var_gen_.solvers_) g.var_gen_.solvers_ memory
  vector : forall memory size written, InRange vcon memory ->
    Reported vcon (partitionsOf g.var_gen_.solvers_) g.var_gen_.solvers_ memory size ->
      Fails env size g.vec_gen_.vector_solvers_ var_ID written ->
        written = false ∧ forall vs, vs ∈ g.var_gen_.solvers_ -> Keeps vs memory

/-- No check of a BDD fails without reason, no program variable is read and written, every
variable that is written is in a hard or a soft constraint, and the constraints determine
the sizes of the vectors that have constraints. -/
structure Plain (env : Environment) (vcon : VariableContainer) (g : Generator) (var_ID : Nat) :
    Prop where
  bdd : forall o, env.bdd = some o -> o.Complete
  unwritten : Unwritten vcon (supportOf (partitionsOf g.var_gen_.solvers_))
  constrained : forall vs, vs ∈ g.var_gen_.solvers_ ->
    forall pair, pair ∈ vs.var_ctn_.write_references -> Constrained vs pair.1
  sizes : forall memory size size', InRange vcon memory ->
    Reported vcon (partitionsOf g.var_gen_.solvers_) g.var_gen_.solvers_ memory size ->
      Reported vcon (partitionsOf g.var_gen_.solvers_) g.var_gen_.solvers_ memory size' ->
        SameSizes env g.vec_gen_.vector_solvers_ size size'

/-- Nothing is lost when nothing can be written before a failure. -/
theorem atomicSolve_of_quiet (hsolvers : Workable vcon g.var_gen_.solvers_) (hsound : env.Sound)
    (hcomplete : env.Complete) (hquiet : Quiet env vcon g w.var_ID) :
    AtomicSolve env vcon g w := by
  intro memory vectors g' w' hrange helements hsolve
  rcases solve_false_cases hsolve with ⟨solvers', hfrom⟩ | ⟨solvers', w₁, vectors', hfrom, hvecs⟩
  · have hmemory := VariableGenerator.memory_of_solveFrom_false (hquiet.partition memory hrange)
      (List.nil_append _).symm (fun vs hvs => absurd hvs List.not_mem_nil) hsolvers.builtAmong
      hsound hcomplete rfl hfrom
    rcases VariableGenerator.solveFrom_spec hsolvers.built hfrom with ⟨_, _, hvectors, _, _⟩
    exact ⟨fun pair _ => congrFun hmemory pair.2, hvectors⟩
  · have hreported := VariableGenerator.reported_of_solveFrom hsolvers.separated hsolvers.built
      hsolvers.drawn hsound hfrom
    rcases VariableGenerator.solveFrom_spec hsolvers.built hfrom with ⟨_, _, hvectors, hid, _⟩
    rcases VectorGenerator.fails_of_solveFrom hsound hcomplete hvecs with
      ⟨written, hfails, hwritten⟩
    rw [hid] at hfails
    rcases hquiet.vector memory _ written hrange hreported hfails with ⟨hfalse, hkeeps⟩
    have hmemory := VariableGenerator.memory_of_keeps (w := withValues w memory vectors) hkeeps
      hsolvers.builtAmong hsound hcomplete hfrom
    have hframe := (VectorGenerator.contents_solveFrom hvecs).right.memory
    constructor
    · intro pair _
      rw [hframe, hmemory]
      rfl
    · rw [hwritten hfalse, hvectors]
      rfl

/-- A generator is quiet when it has no vector solvers and only the last solver of its
variables writes. -/
theorem quiet_of_last {var_ID : Nat}
    (hlast : forall vs, vs ∈ g.var_gen_.solvers_.dropLast -> vs.var_ctn_.write_references = [])
    (hnone : g.vec_gen_.vector_solvers_ = []) : Quiet env vcon g var_ID := by
  constructor
  · intro memory _ memory' _ front rest hsplit _ hfails vs hvs
    apply Or.inl
    apply hlast
    have hrest : rest ≠ [] := by
      rcases hfails with ⟨u, hu, _⟩
      exact List.ne_nil_of_mem hu
    rw [hsplit, List.dropLast_append_of_ne_nil hrest]
    exact List.mem_append_left _ hvs
  · intro memory size written _ _ hfails
    rw [hnone] at hfails
    cases hfails

/-- A solver that can come before a failure keeps the values: otherwise they would be
lost. -/
theorem keeps_of_atomicSolve (hsolvers : Workable vcon g.var_gen_.solvers_) (hsound : env.Sound)
    (hcomplete : env.Complete) (hplain : Plain env vcon g w.var_ID)
    (hatomic : AtomicSolve env vcon g w) {memory : Memory} {vectors : Nat -> List Nat}
    (hrange : InRange vcon memory) (helements : ElementsInRange env vectors)
    {front rest : List VariableDefaultSolver} {vs : VariableDefaultSolver}
    (hsplit : g.var_gen_.solvers_ = front ++ vs :: rest)
    (hsolvable : forall u, u ∈ front ++ [vs] -> VariableDefaultSolver.Solvable u memory)
    {result : Bool} {solvers' : List VariableDefaultSolver} {w₁ : World}
    (hfrom : VariableGenerator.solveFrom env g.var_gen_.solvers_ (withValues w memory vectors) =
      .ok (result, solvers', w₁))
    (hfails : forall w₂, VariableGenerator.solveFrom env g.var_gen_.solvers_ w₂ =
      .ok (result, solvers', w₁) -> exists g' w', solve env g w₂ = (.ok false, g', w') ∧
        w'.memory = w₁.memory) : Keeps vs memory := by
  have hvs : vs ∈ g.var_gen_.solvers_ := by
    rw [hsplit]
    exact List.mem_append_right _ List.mem_cons_self
  have hwrite : forall pair, pair ∈ vs.var_ctn_.write_references ->
      pair ∈ vcon.write_references := by
    intro pair hpair
    rcases VariableGenerator.exists_built hsolvers.built hvs with ⟨p, _, hbuilt⟩
    rw [hbuilt.var_ctn] at hpair
    exact (VariableContainer.mem_select.mp hpair).left
  have hrun := hfrom
  rw [hsplit] at hrun
  have hbuilt : List.Forall₂ (VariableDefaultSolver.Built vcon)
      (partitionsOf g.var_gen_.solvers_) (front ++ vs :: rest) := hsplit ▸ hsolvers.built
  apply VariableGenerator.keeps_of_unchanged (w := withValues w memory vectors) hsolvers.separated
    hplain.unwritten hbuilt (hsolvers.drawn vs hvs) hsound hcomplete (hplain.constrained vs hvs)
    hsolvable hrun
  intro pair hpair a ha hother
  rw [← hsplit] at hother
  rcases hfails _ hother with ⟨g', w', hsolve, hmemory⟩
  have hrange' := hrange.setValue (hwrite pair hpair) ha
  have hkept := (hatomic _ vectors g' w' hrange' helements hsolve).left pair (hwrite pair hpair)
  rw [hmemory, Function.update_self] at hkept
  exact hkept

theorem elementsInRange_nil (env : Environment) : ElementsInRange env fun _ => [] := by
  intro id vector _ value hvalue
  cases hvalue

theorem elementsInRange_zero (env : Environment) : ElementsInRange env fun _ => [0] := by
  intro id vector _ value hvalue
  rw [List.mem_singleton.mp hvalue]
  exact Nat.two_pow_pos _

/-- A call that loses nothing has solvers that keep the values before a failure. -/
theorem keepsBefore_of_atomicSolve (hsolvers : Workable vcon g.var_gen_.solvers_)
    (hsound : env.Sound) (hcomplete : env.Complete) (hplain : Plain env vcon g w.var_ID)
    (hatomic : AtomicSolve env vcon g w) {memory : Memory} (hrange : InRange vcon memory) :
    KeepsBefore vcon (partitionsOf g.var_gen_.solvers_) g.var_gen_.solvers_ memory := by
  intro memory' hwritten front rest hsplit hfront hfails vs hvs
  rcases hfails with ⟨u, hu, hunsolvable⟩
  have humem : u ∈ g.var_gen_.solvers_ := by
    rw [hsplit]
    exact List.mem_append_right front hu
  rcases (hsolvers.builtAmong u humem).right with ⟨p, hp, hbuilt⟩
  have hsame := (VariableGenerator.solvable_of_written hplain.unwritten hp hbuilt hwritten).right
  rcases VariableGenerator.exists_solveFrom hplain.bdd hsolvers.checked
    (fun _ => hsolvers.builtAmong.ready) (withValues w memory fun _ => []) with
      ⟨result, solvers', w₁, hfrom⟩
  have hresult : result = false := by
    cases result with
    | false => rfl
    | true =>
        have hreported := VariableGenerator.reported_of_solveFrom hsolvers.separated
          hsolvers.built hsolvers.drawn hsound hfrom
        have hsolvable := VariableGenerator.solvable_of_reported hplain.unwritten
          hsolvers.builtAmong hreported humem
        exact absurd (hsame.mpr hsolvable) hunsolvable
  rw [hresult] at hfrom
  rcases List.append_of_mem hvs with ⟨before, after, hfrontSplit⟩
  have hsplit' : g.var_gen_.solvers_ = before ++ vs :: (after ++ rest) := by
    rw [hsplit, hfrontSplit, List.append_assoc, List.cons_append]
  apply keeps_of_atomicSolve hsolvers hsound hcomplete hplain hatomic hrange
    (elementsInRange_nil env) hsplit' _ hfrom
  · intro w₂ hother
    rcases solve_of_variables_false hother with ⟨g', hsolve⟩
    exact ⟨g', w₁, hsolve, rfl⟩
  · intro v hv
    apply hfront v
    rw [hfrontSplit]
    cases List.mem_append.mp hv with
    | inl hv => exact List.mem_append_left _ hv
    | inr hv =>
        rw [List.mem_singleton.mp hv]
        exact List.mem_append_right _ List.mem_cons_self

/-- The solvers of the variables succeed when sizes can be reported, and the vectors fail
behind them. -/
theorem solve_of_fails (hsolvers : Workable vcon g.var_gen_.solvers_) (hsound : env.Sound)
    (hcomplete : env.Complete) (hplain : Plain env vcon g w.var_ID) {memory : Memory}
    {size : RandVec -> Nat} {written : Bool} (hrange : InRange vcon memory)
    (hreported : Reported vcon (partitionsOf g.var_gen_.solvers_) g.var_gen_.solvers_ memory size)
    (hfails : Fails env size g.vec_gen_.vector_solvers_ w.var_ID written) :
    exists (solvers' : List VariableDefaultSolver) (w₁ : World)
        (f : (Nat -> List Nat) -> Nat -> List Nat),
      (written = true -> exists id values, forall vectors, f vectors id = values) ∧
      forall vectors, VariableGenerator.solveFrom env g.var_gen_.solvers_
          (withValues w memory vectors) = .ok (true, solvers', { w₁ with vectors := vectors }) ∧
        forall w₂, VariableGenerator.solveFrom env g.var_gen_.solvers_ w₂ =
            .ok (true, solvers', { w₁ with vectors := vectors }) ->
          exists g' w', solve env g w₂ = (.ok false, g', w') ∧ w'.memory = w₁.memory ∧
            w'.vectors = f vectors := by
  have hsolvable : forall vs, vs ∈ g.var_gen_.solvers_ ->
      VariableDefaultSolver.Solvable vs memory := fun vs hvs =>
    VariableGenerator.solvable_of_reported hplain.unwritten hsolvers.builtAmong hreported hvs
  rcases @VariableGenerator.solveFrom_of_solvable env vcon _ _ (withValues w memory fun _ => [])
    hplain.bdd hsolvers.checked hplain.unwritten hsolvers.builtAmong hcomplete hsolvable with
      ⟨solvers', w₁, hfrom⟩
  have hreported' := VariableGenerator.reported_of_solveFrom hsolvers.separated hsolvers.built
    hsolvers.drawn hsound hfrom
  have hsizes := hplain.sizes memory size _ hrange hreported hreported'
  rcases VariableGenerator.solveFrom_spec hsolvers.built hfrom with ⟨_, _, _, hid, _⟩
  rcases VectorGenerator.solveFrom_of_fails hsound hcomplete hfails hid hsizes with
    ⟨vectors', f, time, next, _, hflag, hcalls⟩
  refine ⟨solvers', w₁, f, hflag, ?_⟩
  intro vectors
  constructor
  · exact VariableGenerator.solveFrom_setVectors hsolvers.builtAmong hfrom vectors
  · intro w₂ hother
    rcases solve_of_vectors_false hother (hcalls vectors) with ⟨g', hsolve⟩
    exact ⟨g', _, hsolve, rfl, rfl⟩

theorem quiet_of_atomicSolve (hsolvers : Workable vcon g.var_gen_.solvers_) (hsound : env.Sound)
    (hcomplete : env.Complete) (hplain : Plain env vcon g w.var_ID)
    (hatomic : AtomicSolve env vcon g w) : Quiet env vcon g w.var_ID := by
  constructor
  · intro memory hrange
    exact keepsBefore_of_atomicSolve hsolvers hsound hcomplete hplain hatomic hrange
  · intro memory size written hrange hreported hfails
    rcases solve_of_fails hsolvers hsound hcomplete hplain hrange hreported hfails with
      ⟨solvers', w₁, f, hflag, hcalls⟩
    constructor
    · cases written with
      | false => rfl
      | true =>
          rcases hflag rfl with ⟨id, values, hvalues⟩
          have hsame : forall vectors, ElementsInRange env vectors -> values = vectors id := by
            intro vectors helements
            rcases hcalls vectors with ⟨hfrom, hsolve⟩
            rcases hsolve _ hfrom with ⟨g', w', hsolve, _, hvectors⟩
            have hkept := (hatomic memory vectors g' w' hrange helements hsolve).right
            rw [hvectors] at hkept
            rw [← hvalues vectors, hkept]
          have hnil := hsame _ (elementsInRange_nil env)
          rw [hsame _ (elementsInRange_zero env)] at hnil
          cases hnil
    · intro vs hvs
      rcases List.append_of_mem hvs with ⟨front, rest, hsplit⟩
      rcases hcalls fun _ => [] with ⟨hfrom, hsolve⟩
      apply keeps_of_atomicSolve hsolvers hsound hcomplete hplain hatomic hrange
        (elementsInRange_nil env) hsplit _ hfrom
      · intro w₂ hother
        rcases hsolve w₂ hother with ⟨g', w', hsolve, hmemory, _⟩
        exact ⟨g', w', hsolve, hmemory⟩
      · intro u hu
        apply VariableGenerator.solvable_of_reported hplain.unwritten hsolvers.builtAmong hreported
        rw [hsplit]
        cases List.mem_append.mp hu with
        | inl hu => exact List.mem_append_left _ hu
        | inr hu =>
            rw [List.mem_singleton.mp hu]
            exact List.mem_append_right _ List.mem_cons_self

/-- Without threads a call that returns false changes nothing when the solvers that can come
before a failure change nothing, and for plain generators only then. -/
theorem next_atomic_iff (hsound : env.Sound) (hcomplete : env.Complete)
    (hused : Used env vcon Operation.Sequential g w) :
    (AtCall env vcon g w (Quiet env vcon) -> Atomic env vcon g w) ∧
      (AtCall env vcon g w (Plain env vcon) ->
        (Atomic env vcon g w ↔ AtCall env vcon g w (Quiet env vcon))) := by
  have hintact : forall {g₁ w₁}, update env vcon g w = (.ok (), g₁, w₁) ->
      Workable vcon g₁.var_gen_.solvers_ := fun hupdate =>
    ((stable_intact hsound hcomplete).update (hused.intact hsound hcomplete) hupdate).solvers
  have hatomic : AtCall env vcon g w (Quiet env vcon) -> Atomic env vcon g w := by
    intro hquiet
    apply atomic_iff.mpr
    intro g₁ w₁ hupdate
    exact atomicSolve_of_quiet (hintact hupdate) hsound hcomplete (hquiet g₁ w₁ hupdate)
  constructor
  · exact hatomic
  · intro hplain
    constructor
    · intro h g₁ w₁ hupdate
      exact quiet_of_atomicSolve (hintact hupdate) hsound hcomplete (hplain g₁ w₁ hupdate)
        (atomic_iff.mp h g₁ w₁ hupdate)
    · exact hatomic

/-!
### A variable and a state

A generator writes the variable 1 and reads the variable 2, both of one byte, and both are
to be 1.
-/

def vconState : VariableContainer :=
  VariableContainer.ofReferences ⟨8, false⟩ VariableContainer.byte_supported [2] [1] (by decide)

/-- The variable is 255, the state is 0. -/
def worldState : World :=
  { memory := fun loc => if loc = 1 then 255 else 0
    vectors := fun _ => []
    time := 0
    var_ID := 2
    constraint_ID := 0 }

/-- `v == value` -/
def isByte (id value : Nat) : Node :=
  equalConstant id ⟨8, false⟩ (toConstantExpr ⟨8, false⟩ value)

/-- The variable cannot keep 255, and the state is not 1. -/
def coresState : List (List Formula) :=
  [[equalTrue (formula (isByte 1 1)), formula (isByte 1 255)],
    [equalTrue (formula (isByte 2 1)), equalTrue (formula (isByte 2 0))]]

/-- A backend that answers 1 where it can. -/
noncomputable def envState : Environment :=
  Environment.simple (((Oracle.ofModels [fun _ => 1]).orElse Oracle.ideal).refuting coresState) id

theorem not_satisfiable_coresState {core : List Formula} (hcore : core ∈ coresState) :
    ¬ Term.Satisfiable core := by
  have hbyte : forall (m : Model SolverVar) (id value : Nat), NodeHolds m (isByte id value) ->
      BitVec.ofNat 8 (m (.terminal id)) = BitVec.ofNat 8 value := by
    intro m id value hholds
    exact (nodeHolds_equalConstant m id (d := ⟨8, false⟩) (by decide) value).mp hholds
  intro hsat
  rcases hsat with ⟨m, hm⟩
  cases List.mem_cons.mp hcore with
  | inl hfirst =>
      rw [hfirst] at hm
      have hone := (holds_equalTrue m _).mp (hm _ List.mem_cons_self)
      have hprior := hm _ (List.mem_cons_of_mem _ List.mem_cons_self)
      have heq := (hbyte m 1 1 ((holds_formula m _).mp hone)).symm.trans
        (hbyte m 1 255 ((holds_formula m _).mp hprior))
      revert heq
      decide
  | inr hrest =>
      rw [List.mem_singleton.mp hrest] at hm
      have hone := (holds_equalTrue m _).mp (hm _ List.mem_cons_self)
      have hzero := (holds_equalTrue m _).mp (hm _ (List.mem_cons_of_mem _ List.mem_cons_self))
      have heq := (hbyte m 2 1 ((holds_formula m _).mp hone)).symm.trans
        (hbyte m 2 0 ((holds_formula m _).mp hzero))
      revert heq
      decide

theorem sound_envState : envState.Sound :=
  Oracle.refuting_sound _ (Oracle.orElse_sound (Oracle.ofModels_sound _) Oracle.ideal_sound)

theorem complete_envState : envState.Complete := by
  constructor
  · exact Oracle.refuting_complete (fun core hcore => not_satisfiable_coresState hcore)
      (Oracle.orElse_complete Oracle.ideal_complete)
  · intro time assertions s _ hnone
    cases hnone

/-- The generator with the two constraints in this order. -/
noncomputable def ordered (first second : Nat) : Generator × World :=
  let (_, g, w) := perform envState vconState Generator.new worldState
    (.makeConstraint (some "first") (isByte first 1) false false)
  (perform envState vconState g w
    (.makeConstraint (some "second") (isByte second 1) false false)).2

theorem used_ordered (first second : Nat)
    (hfirst : Context.Builds vconState.variables_ vconState.vector_variables (isByte first 1))
    (hsecond : Context.Builds vconState.variables_ vconState.vector_variables
      (isByte second 1)) :
    Used envState vconState Operation.Sequential (ordered first second).1
      (ordered first second).2 :=
  .perform (.perform (.new worldState)
    (.makeConstraint (some "first") (isByte first 1) false false) hfirst trivial _ rfl)
    (.makeConstraint (some "second") (isByte second 1) false false) hsecond trivial _ rfl

/-- The variable is solved first and is 1 when the call has failed. -/
theorem failed_next_writes :
    ¬ forall (env : Environment) (vcon : VariableContainer) (g : Generator) (w : World),
      env.Sound -> env.Complete -> Used env vcon Operation.Sequential g w ->
        Atomic env vcon g w := by
  intro hclaim
  have hused := used_ordered 1 2 ⟨rfl, by decide, by decide, by decide⟩
    ⟨rfl, by decide, by decide, by decide⟩
  have hatomic := hclaim envState vconState _ _ sound_envState complete_envState hused
  have hfalse : (next envState vconState (ordered 1 2).1
      (withValues (ordered 1 2).2 worldState.memory fun _ => [])).1.toOption = some false := by
    decide +kernel
  have hone : (next envState vconState (ordered 1 2).1
      (withValues (ordered 1 2).2 worldState.memory fun _ => [])).2.2.memory 1 = 1 := by
    decide +kernel
  rcases hnext : next envState vconState (ordered 1 2).1
    (withValues (ordered 1 2).2 worldState.memory fun _ => []) with ⟨outcome, g', w'⟩
  rw [hnext] at hfalse hone
  cases outcome with
  | error e => cases hfalse
  | ok result =>
      cases hfalse
      have hrange : InRange vconState worldState.memory := by decide
      have hkept := (hatomic worldState.memory _ g' w' hrange (elementsInRange_nil _) hnext).left
        (1, 1) (by decide)
      rw [hone] at hkept
      cases hkept

theorem next_atomic_ordered : Atomic envState vconState (ordered 2 1).1 (ordered 2 1).2 := by
  have hused := used_ordered 2 1 ⟨rfl, by decide, by decide, by decide⟩
    ⟨rfl, by decide, by decide, by decide⟩
  apply (next_atomic_iff sound_envState complete_envState hused).left
  intro g₁ w₁ hupdate
  have hlast : forall vs, vs ∈ (update envState vconState (ordered 2 1).1
      (ordered 2 1).2).2.1.var_gen_.solvers_.dropLast -> vs.var_ctn_.write_references = [] := by
    decide +kernel
  have hnone : (update envState vconState (ordered 2 1).1
      (ordered 2 1).2).2.1.vec_gen_.vector_solvers_.isEmpty = true := by
    decide +kernel
  rw [hupdate] at hlast hnone
  exact quiet_of_last hlast (List.isEmpty_iff.mp hnone)

end Generator

end Backend
end Crave
