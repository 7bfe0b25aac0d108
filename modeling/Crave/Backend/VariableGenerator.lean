import Crave.Backend.ValuesInForce

/-!
# The solvers of all partitions

A generator has one solver for each partition and solves them one after the
other.  The partitions have no variable in common, so what one solver has
established survives the solvers behind it.
-/

namespace Crave
namespace Backend

open Foundation Ir MetaSMTVisitor

/-!
## Partitions of one container
-/

def hards (cp : ConstraintPartition) : List UserConstraint :=
  cp.constraints_.filter UserConstraint.isHard

theorem mem_hards {cp : ConstraintPartition} {c : UserConstraint} :
    c ∈ hards cp ↔ c ∈ cp.constraints_ ∧ c.isHard = true :=
  List.mem_filter

def supportOf (ps : List ConstraintPartition) : Set Nat :=
  { id | exists p, p ∈ ps ∧ id ∈ p.support_vars_ }

/-- Partitions over the variables of a container without a common variable. -/
structure Separated (vcon : VariableContainer) (ps : List ConstraintPartition) : Prop where
  disjoint : ps.Pairwise fun p q => Disjoint p.support_vars_ q.support_vars_
  support : forall p, p ∈ ps -> forall c, c ∈ p.constraints_ ->
    c.support_vars_ ⊆ p.support_vars_
  made : forall p, p ∈ ps -> forall c, c ∈ p.constraints_ -> c.Made vcon.variables_

section Separated

variable {vcon : VariableContainer} {p : ConstraintPartition} {ps : List ConstraintPartition}

theorem supportOf_subset {qs : List ConstraintPartition} (h : forall p, p ∈ ps -> p ∈ qs) :
    supportOf ps ⊆ supportOf qs := by
  rintro id ⟨p, hp, hid⟩
  exact ⟨p, h p hp, hid⟩

theorem support_subset_supportOf (h : p ∈ ps) :
    (p.support_vars_ : Set Nat) ⊆ supportOf ps :=
  fun _ hid => ⟨p, h, hid⟩

theorem supportOf_cons (p : ConstraintPartition) (ps : List ConstraintPartition) :
    supportOf (p :: ps) = (p.support_vars_ : Set Nat) ∪ supportOf ps := by
  ext id
  simp [supportOf]

theorem Separated.tail (h : Separated vcon (p :: ps)) : Separated vcon ps :=
  ⟨(List.pairwise_cons.mp h.disjoint).2,
    fun q hq => h.support q (List.mem_cons_of_mem p hq),
    fun q hq => h.made q (List.mem_cons_of_mem p hq)⟩

theorem Separated.disjoint_tail (h : Separated vcon (p :: ps)) :
    Disjoint (p.support_vars_ : Set Nat) (supportOf ps) := by
  rw [Set.disjoint_left]
  rintro id hid ⟨q, hq, hidq⟩
  exact Finset.disjoint_left.mp ((List.pairwise_cons.mp h.disjoint).1 q hq) hid hidq

theorem Separated.eq_of_mem (h : Separated vcon ps) {q : ConstraintPartition} (hp : p ∈ ps)
    (hq : q ∈ ps) {id : Nat} (hidp : id ∈ p.support_vars_) (hidq : id ∈ q.support_vars_) :
    p = q := by
  by_contra hne
  have hsymm : Std.Symm fun p q : ConstraintPartition =>
      Disjoint p.support_vars_ q.support_vars_ := ⟨fun _ _ hpq => hpq.symm⟩
  exact Finset.disjoint_left.mp (h.disjoint.forall hp hq hne) hidp hidq

end Separated

theorem separated_of_isPartition {vcon : VariableContainer} {cs : List UserConstraint}
    {ps : List ConstraintPartition} (h : ConstraintPartitioner.IsPartition cs ps)
    (hmade : forall c, c ∈ cs -> c.Made vcon.variables_) : Separated vcon ps := by
  refine ⟨h.disjoint, fun p hp c hc id hid => (h.support p hp id).mpr ⟨c, hc, hid⟩, ?_⟩
  intro p hp c hc
  exact hmade c ((h.components.mem_iff c).mpr ⟨p.constraints_, List.mem_map_of_mem hp, hc⟩)

/-!
## The generator
-/

structure VariableGenerator where
  solvers_ : List VariableDefaultSolver

/-- `read`: the first solver whose partition has the variable answers. -/
def readFrom : List VariableSolver -> Nat -> Nat -> Bool × Nat
  | [], _, value => (false, value)
  | vs :: rest, id, value =>
      if (vs.read id value).1 then vs.read id value else readFrom rest id value

namespace VariableGenerator

def new : VariableGenerator :=
  { solvers_ := [] }

/-- The solvers for the partitions in order, up to one that cannot be built. -/
def createSolvers (env : Environment) (vcon : VariableContainer) :
    List ConstraintPartition -> Nat -> List VariableDefaultSolver × Nat × Except String Unit
  | [], time => ([], time, .ok ())
  | partition :: rest, time =>
      match VariableDefaultSolver.new env vcon partition time with
      | .error e => ([], time, .error e)
      | .ok (vs, time) =>
          let (solvers_, time, outcome) := createSolvers env vcon rest time
          (vs :: solvers_, time, outcome)

def reset (env : Environment) (vcon : VariableContainer)
    (partitions : List ConstraintPartition) (time : Nat) :
    VariableGenerator × Nat × Except String Unit :=
  let (solvers_, time, outcome) := createSolvers env vcon partitions time
  ({ solvers_ := solvers_ }, time, outcome)

/-- The solvers are called in order, up to the first that fails. -/
def solveFrom (env : Environment) : List VariableDefaultSolver -> World ->
    Except String (Bool × List VariableDefaultSolver × World)
  | [], w => .ok (true, [], w)
  | vs :: rest, w => do
      let (result, vs, w) <- vs.solve env w
      if result then
        let (result, rest, w) <- solveFrom env rest w
        return (result, vs :: rest, w)
      else
        return (false, vs :: rest, w)

def solve (env : Environment) (g : VariableGenerator) (w : World) :
    Except String (Bool × VariableGenerator × World) := do
  let (result, solvers_, w) <- solveFrom env g.solvers_ w
  return (result, { solvers_ := solvers_ }, w)

def read (g : VariableGenerator) (id value : Nat) : Bool × Nat :=
  readFrom (g.solvers_.map VariableDefaultSolver.toVariableSolver) id value

/-!
## Building and solving
-/

section Solve

variable {env : Environment} {vcon : VariableContainer}

theorem built_createSolvers {ps : List ConstraintPartition} (hps : Separated vcon ps)
    {time time' : Nat} {solvers_ : List VariableDefaultSolver}
    (h : createSolvers env vcon ps time = (solvers_, time', .ok ())) :
    List.Forall₂ (VariableDefaultSolver.Built vcon) ps solvers_ := by
  induction ps generalizing time solvers_ with
  | nil =>
      cases h
      exact List.Forall₂.nil
  | cons p rest ih =>
      simp only [createSolvers] at h
      split at h
      · cases h
      · rename_i vs time₁ hnew
        cases hrest : createSolvers env vcon rest time₁ with
        | mk solvers₁ q =>
            rcases q with ⟨time₂, outcome⟩
            rw [hrest] at h
            cases h
            constructor
            · exact VariableDefaultSolver.built_new (hps.made p List.mem_cons_self)
                (hps.support p List.mem_cons_self) hnew
            · exact ih hps.tail hrest

/-- What a solver does to the world, and what it establishes when it succeeds. -/
theorem solver_spec {p : ConstraintPartition} {vs vs' : VariableDefaultSolver}
    (hbuilt : VariableDefaultSolver.Built vcon p vs) {w w' : World} {result : Bool}
    (h : VariableDefaultSolver.solve env vs w = .ok (result, vs', w')) :
    WrittenOnly vcon p.support_vars_ w.memory w'.memory ∧
      w'.vectors = w.vectors ∧ w'.var_ID = w.var_ID ∧ w'.constraint_ID = w.constraint_ID := by
  have hworld := VariableDefaultSolver.world_solve hbuilt.ready h
  rw [hbuilt.var_ctn] at hworld
  rw [hworld]
  refine ⟨?_, rfl, rfl, rfl⟩
  cases result with
  | true => exact writtenOnly_writeBack _ _ _
  | false => exact WrittenOnly.refl _

theorem solver_settled {p : ConstraintPartition} {vs vs' : VariableDefaultSolver}
    (hbuilt : VariableDefaultSolver.Built vcon p vs) (hsound : env.Sound)
    (hsupport : forall c, c ∈ p.constraints_ -> c.support_vars_ ⊆ p.support_vars_)
    (hunwritten : Unwritten vcon p.support_vars_) {w w' : World}
    (h : VariableDefaultSolver.solve env vs w = .ok (true, vs', w')) :
    Settled vcon (hards p) vs'.solver_ w'.memory := by
  have hworld := VariableDefaultSolver.world_solve hbuilt.ready h
  rw [hbuilt.var_ctn] at hworld
  refine @settled_of_model vcon _ _ w.memory _ _ hunwritten
    (fun c hc => hsupport c (mem_hards.mp hc).1) ?_ ?_ ?_ ?_
  · intro c hc
    exact hbuilt.nodeHolds_of_solve hsound h (mem_hards.mp hc).1 (mem_hards.mp hc).2
  · intro c hc
    have hcover : c.cover_ = false := by
      have hhard := (mem_hards.mp hc).2
      rw [UserConstraint.isHard, Bool.and_eq_true] at hhard
      simpa using hhard.2
    exact (hbuilt.solve h).met c (mem_hards.mp hc).1 hcover
  · have hsat := VariableDefaultSolver.satisfies_of_solve hbuilt.ready hsound h
    rw [VariableDefaultSolver.query, hbuilt.var_ctn] at hsat
    exact hsat.mono fun t ht => List.mem_append_right _ ht
  · rw [hworld]
    rfl

theorem solveFrom_cons {vs : VariableDefaultSolver} {rest solvers' : List VariableDefaultSolver}
    {w w' : World} {result : Bool}
    (h : solveFrom env (vs :: rest) w = .ok (result, solvers', w')) :
    exists r vs' w₁, VariableDefaultSolver.solve env vs w = .ok (r, vs', w₁) ∧
      ((r = false ∧ result = false ∧ solvers' = vs' :: rest ∧ w' = w₁) ∨
        (r = true ∧ exists rest', solveFrom env rest w₁ = .ok (result, rest', w') ∧
          solvers' = vs' :: rest')) := by
  rcases bind_eq_ok.mp h with ⟨⟨r, vs', w₁⟩, hhead, h⟩
  refine ⟨r, vs', w₁, hhead, ?_⟩
  cases r with
  | false =>
      cases h
      exact Or.inl ⟨rfl, rfl, rfl, rfl⟩
  | true =>
      rcases bind_eq_ok.mp h with ⟨⟨r', rest', w₂⟩, hrest, h⟩
      cases h
      exact Or.inr ⟨rfl, rest', hrest, rfl⟩

theorem solveFrom_spec {ps : List ConstraintPartition}
    {solvers_ solvers' : List VariableDefaultSolver}
    (hbuilt : List.Forall₂ (VariableDefaultSolver.Built vcon) ps solvers_) {w w' : World}
    {result : Bool} (h : solveFrom env solvers_ w = .ok (result, solvers', w')) :
    List.Forall₂ (VariableDefaultSolver.Built vcon) ps solvers' ∧
      WrittenOnly vcon (supportOf ps) w.memory w'.memory ∧
      w'.vectors = w.vectors ∧ w'.var_ID = w.var_ID ∧ w'.constraint_ID = w.constraint_ID := by
  induction hbuilt generalizing solvers' w with
  | nil =>
      cases h
      exact ⟨List.Forall₂.nil, WrittenOnly.refl _, rfl, rfl, rfl⟩
  | @cons p vs ps rest hvs hrest ih =>
      rcases solveFrom_cons h with ⟨r, vs', w₁, hhead, hcases⟩
      rcases solver_spec hvs hhead with ⟨hwritten, hvectors, hvar, hid⟩
      have hwritten' : WrittenOnly vcon (supportOf (p :: ps)) w.memory w₁.memory :=
        hwritten.mono (support_subset_supportOf List.mem_cons_self)
      rcases hcases with ⟨-, -, rfl, rfl⟩ | ⟨-, rest', htail, rfl⟩
      · exact ⟨List.Forall₂.cons (hvs.solve hhead) hrest, hwritten', hvectors, hvar, hid⟩
      · rcases ih htail with ⟨hbuilt', htailWritten, htailVectors, htailVar, htailId⟩
        refine ⟨List.Forall₂.cons (hvs.solve hhead) hbuilt', ?_, ?_, ?_, ?_⟩
        · exact hwritten'.trans
            (htailWritten.mono (supportOf_subset fun q hq => List.mem_cons_of_mem p hq))
        · rw [htailVectors, hvectors]
        · rw [htailVar, hvar]
        · rw [htailId, hid]

/-- After a call that succeeds the hard constraints of every partition are
settled: the solvers behind it write other variables. -/
theorem solveFrom_settled {ps : List ConstraintPartition} (hps : Separated vcon ps)
    (hsound : env.Sound) (hunwritten : Unwritten vcon (supportOf ps))
    {solvers_ solvers' : List VariableDefaultSolver}
    (hbuilt : List.Forall₂ (VariableDefaultSolver.Built vcon) ps solvers_) {w w' : World}
    (h : solveFrom env solvers_ w = .ok (true, solvers', w')) :
    List.Forall₂ (fun p vs => VariableDefaultSolver.Built vcon p vs ∧
      Settled vcon (hards p) vs.solver_ w'.memory) ps solvers' := by
  induction hbuilt generalizing solvers' w with
  | nil =>
      cases h
      exact List.Forall₂.nil
  | @cons p vs ps rest hvs hrest ih =>
      rcases solveFrom_cons h with ⟨r, vs', w₁, hhead, hcases⟩
      rcases hcases with ⟨-, hfalse, -⟩ | ⟨rfl, rest', htail, rfl⟩
      · cases hfalse
      · have hunwritten' := hunwritten
        rw [supportOf_cons] at hunwritten'
        constructor
        · refine ⟨hvs.solve hhead, ?_⟩
          have hsettled := solver_settled hvs hsound (hps.support p List.mem_cons_self)
            (hunwritten'.mono Set.subset_union_left) hhead
          refine hsettled.frame (fun c hc id hid => ?_)
            ((solveFrom_spec hrest htail).2.1.sameAt hunwritten' hps.disjoint_tail)
          exact hps.support p List.mem_cons_self c (mem_hards.mp hc).1 hid
        · exact ih hps.tail (hunwritten'.mono Set.subset_union_right) htail

theorem readFrom_eq {R : ConstraintPartition -> VariableSolver -> Prop}
    {ps : List ConstraintPartition} (hps : Separated vcon ps) {solvers_ : List VariableSolver}
    (h : List.Forall₂ (fun p vs => vs.var_ctn_ = vcon.restrict p.support_vars_ ∧ R p vs) ps
      solvers_)
    {p : ConstraintPartition} (hp : p ∈ ps) :
    exists vs, R p vs ∧ forall id d, id ∈ p.support_vars_ -> vcon.variables_ id = some d ->
      forall value, readFrom solvers_ id value = (true, (vs.solver_.read id).getD value) := by
  induction h with
  | nil => cases hp
  | @cons q vs ps rest hvs hrest ih =>
      have hread : forall id d, id ∈ q.support_vars_ -> vcon.variables_ id = some d ->
          forall value, vs.read id value = (true, (vs.solver_.read id).getD value) := by
        intro id d hid hd value
        unfold VariableSolver.read
        rw [hvs.1]
        simp [VariableContainer.restrict, hid, hd]
      rcases List.mem_cons.mp hp with rfl | hp
      · refine ⟨vs, hvs.2, fun id d hid hd value => ?_⟩
        rw [readFrom, hread id d hid hd value]
        rfl
      · rcases ih hps.tail hp with ⟨vs', hR, hrest'⟩
        refine ⟨vs', hR, fun id d hid hd value => ?_⟩
        have hother : id ∉ q.support_vars_ := fun hq =>
          Set.disjoint_left.mp hps.disjoint_tail hq ⟨p, hp, hid⟩
        have hskip : (vs.read id value).1 = false := by
          unfold VariableSolver.read
          rw [hvs.1]
          simp [VariableContainer.restrict, hother]
        rw [readFrom, hskip]
        exact hrest' id d hid hd value

theorem readFrom_of_not_mem {ps : List ConstraintPartition} {solvers_ : List VariableSolver}
    (h : List.Forall₂ (fun p vs => vs.var_ctn_ = vcon.restrict p.support_vars_) ps solvers_)
    {id : Nat} (hid : forall p, p ∈ ps -> id ∉ p.support_vars_) (value : Nat) :
    readFrom solvers_ id value = (false, value) := by
  induction h with
  | nil => rfl
  | @cons p vs ps rest hvs _ ih =>
      have hskip : (vs.read id value).1 = false := by
        unfold VariableSolver.read
        rw [hvs]
        simp [VariableContainer.restrict, hid p List.mem_cons_self]
      rw [readFrom, hskip]
      exact ih fun q hq => hid q (List.mem_cons_of_mem p hq)

end Solve

end VariableGenerator
end Backend
end Crave
