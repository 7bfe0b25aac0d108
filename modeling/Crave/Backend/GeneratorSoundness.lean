import Crave.Backend.UsedGenerators

/-!
# Solutions across partitions

When `next` succeeds, the values that the solvers of the partitions have written
and report satisfy every hard constraint of these partitions together.
-/

namespace Crave
namespace Backend

open Foundation Ir

namespace Generator

section Sound

variable {env : Environment} {vcon : VariableContainer} {cs : List UserConstraint}
  {g g' : Generator} {w w' : World}

theorem mem_of_mem_partition (hmade : WellMade vcon cs) {p : ConstraintPartition}
    (hp : p ∈ ConstraintPartitioner.partition cs) {c : UserConstraint}
    (hc : c ∈ p.constraints_) : c ∈ cs :=
  ((ConstraintPartitioner.partition_isPartition cs hmade.ids).components.mem_iff c).mpr
    ⟨_, List.mem_map_of_mem hp, hc⟩

theorem solve_true_cases (h : solve env g w = (.ok true, g', w')) :
    exists var_gen_ w₁ vec_gen_, g.var_gen_.solve env w = .ok (true, var_gen_, w₁) ∧
      g.vec_gen_.solve env (var_gen_.solvers_.map VariableDefaultSolver.toVariableSolver)
        g.to_be_generated_vec_ids_ w₁ = .ok (true, vec_gen_, w') ∧
      g' = { g with var_gen_ := var_gen_, vec_gen_ := vec_gen_ } := by
  unfold solve at h
  split at h
  · cases h
  · cases h
  · rename_i var_gen_ w₁ hsolve
    unfold solveVectors at h
    split at h
    · cases h
    · rename_i result vec_gen_ w₂ hvectors
      cases h
      exact ⟨var_gen_, w₁, vec_gen_, hsolve, hvectors, rfl⟩

/-- A successful call settles the hard constraints of every partition. -/
theorem settled_of_solve (hsound : env.Sound) (hready : Ready vcon g)
    (hunwritten : Unwritten vcon (supportOf g.built.partitions))
    (h : solve env g w = (.ok true, g', w')) :
    List.Forall₂ (fun p vs => VariableDefaultSolver.Built vcon p vs ∧
        Settled vcon (hards p) vs.solver_ w'.memory)
      g.built.partitions g'.var_gen_.solvers_ ∧
      WrittenOnly vcon (supportOf g.built.partitions) w.memory w'.memory := by
  rcases solve_true_cases h with ⟨var_gen_, w₁, vec_gen_, hsolve, hvectors, rfl⟩
  rcases bind_eq_ok.mp hsolve with ⟨⟨r, solvers', w₂⟩, hfrom, hsolve⟩
  cases hsolve
  rw [(VectorGenerator.solve_frame hvectors).2.1]
  constructor
  · exact VariableGenerator.solveFrom_settled hready.separated hsound hunwritten hready.var_gen
      hfrom
  · exact (VariableGenerator.solveFrom_spec hready.var_gen hfrom).2.1

theorem ofNat_read {s : MetaSMTVisitor} {id width value : Nat}
    (h : s.terminals_ id = some width) :
    BitVec.ofNat width ((s.read id).getD value) = BitVec.ofNat width (s.model (.terminal id)) := by
  rw [MetaSMTVisitor.read, h]
  apply BitVec.eq_of_toNat_eq
  rw [BitVec.toNat_ofNat, BitVec.toNat_ofNat]
  exact Nat.mod_mod _ _

theorem settled_toVariableSolver {memory : Memory} {ps : List ConstraintPartition}
    {solvers_ : List VariableDefaultSolver}
    (h : List.Forall₂ (fun p vs => VariableDefaultSolver.Built vcon p vs ∧
      Settled vcon (hards p) vs.solver_ memory) ps solvers_) :
    List.Forall₂ (fun p vs => vs.var_ctn_ = vcon.restrict p.support_vars_ ∧
        Settled vcon (hards p) vs.solver_ memory)
      ps (solvers_.map VariableDefaultSolver.toVariableSolver) :=
  List.forall₂_map_right_iff.mpr (h.imp fun _ _ hs => ⟨hs.left.var_ctn, hs.right⟩)

/-- The values that are written and reported satisfy the hard constraints, with the read
references at any values they had while the call went on. -/
theorem nodeHolds_with_references (hsound : env.Sound) (hready : Ready vcon g)
    (hunwritten : Unwritten vcon (supportOf g.built.partitions))
    (h : solve env g w = (.ok true, g', w')) {before : Memory}
    (hbefore : forall pair, pair ∈ vcon.read_references ->
      pair.1 ∈ supportOf g.built.partitions -> w'.memory pair.2 = before pair.2)
    {c : UserConstraint} (hin : exists p, p ∈ g.built.partitions ∧ c ∈ p.constraints_)
    (hhard : c.isHard = true) :
    NodeHolds (assignment vcon before w'.memory fun id => (g'.var_gen_.read id 0).2)
      c.expr_ := by
  rcases settled_of_solve hsound hready hunwritten h with ⟨hsettled, _⟩
  rcases hin with ⟨p, hp, hcp⟩
  rcases VariableGenerator.readFrom_eq hready.separated (settled_toVariableSolver hsettled) hp with
    ⟨vs, hs, hread⟩
  have hmem : c ∈ hards p := mem_hards.mpr ⟨hcp, hhard⟩
  have hsupport := hready.separated.support p hp c hcp
  apply hs.nodeHolds hmem (hready.separated.made p hp c hcp)
  · intro pair hpair hid
    exact hbefore pair hpair ⟨p, hp, hsupport hid⟩
  · intro id d hid hd
    rcases hs.met c hmem id hid with ⟨d', hd', hterminal⟩
    rw [hd] at hd'
    cases hd'
    rw [VariableGenerator.read, hread id d (hsupport hid) hd]
    exact ofNat_read hterminal

theorem nodeHolds_of_solve (hsound : env.Sound) (hready : Ready vcon g)
    (hunwritten : Unwritten vcon (supportOf g.built.partitions))
    (h : solve env g w = (.ok true, g', w')) {c : UserConstraint}
    (hin : exists p, p ∈ g.built.partitions ∧ c ∈ p.constraints_) (hhard : c.isHard = true) :
    NodeHolds (assignment vcon w.memory w'.memory fun id => (g'.var_gen_.read id 0).2)
      c.expr_ := by
  apply nodeHolds_with_references hsound hready hunwritten h _ hin hhard
  intro pair hpair hid
  exact (settled_of_solve hsound hready hunwritten h).right.read hunwritten hpair hid

/-- Whenever `next` succeeds, every enabled hard constraint that is in a partition of the
solvers holds in the assignment that combines the values of all partitions, with the read
references at the values they had before. -/
theorem next_sound {allowed : Operation -> Prop} (hsound : env.Sound)
    (h : Used env vcon allowed g w)
    (hunwritten : Unwritten vcon (supportOf g.scope.partitions))
    (hin : HardsIn (scalarConstraints g.constr_mng_) g.scope.partitions)
    (hnext : next env vcon g w = (.ok true, g', w')) {c : UserConstraint}
    (hc : c ∈ scalarConstraints g.constr_mng_) (hhard : c.isHard = true) :
    NodeHolds (assignment vcon w.memory w'.memory fun id => (g'.var_gen_.read id 0).2)
      c.expr_ := by
  rcases next_cases hnext with ⟨g₁, w₁, hupdate, hsolve⟩
  have hupdated := updated_of_update h.standing hupdate
  rw [← hupdated.built] at hunwritten hin
  rw [← hupdated.memory]
  exact nodeHolds_of_solve hsound hupdated.ready hunwritten hsolve (hin c hc hhard) hhard

/-!
### A call that throws, and the one after it

The variable 1 is read, the variable 3 is written, and 2 is a vector.
-/

def vconEqual : VariableContainer :=
  { VariableContainer.ofReferences ⟨8, false⟩ (by decide) [1] [3] (by decide) with
    vector_variables := fun id => if id = 2 then some ⟨8, false⟩ else none }

def envFive : Environment :=
  Environment.simple (Oracle.ofModel fun v =>
    match v with
    | .terminal _ => 5
    | .selector _ => 1) id

def worldEqual : World :=
  { memory := fun loc => if loc = 1 then 5 else 0
    vectors := fun _ => [], time := 0, var_ID := 3, constraint_ID := 0 }

/-- Two constraints, and a call: a whole vector cannot be compared. -/
def called (first second : Node) (soft : Bool) : Outcome Bool :=
  let made := perform envFive vconEqual Generator.new worldEqual
    (.makeConstraint (some "first") first false false)
  let added := perform envFive vconEqual made.2.1 made.2.2
    (.makeConstraint (some "second") second soft false)
  next envFive vconEqual added.2.1 added.2.2

theorem used_called {first second : Node} (soft : Bool)
    (hfirst : Context.Builds vconEqual.variables_ vconEqual.vector_variables first)
    (hsecond : Context.Builds vconEqual.variables_ vconEqual.vector_variables second) :
    Used envFive vconEqual (fun _ => True) (called first second soft).2.1
      (called first second soft).2.2 :=
  .perform (.perform (.perform (.new worldEqual) (.makeConstraint (some "first") first false false)
    hfirst trivial _ rfl) (.makeConstraint (some "second") second soft false) hsecond trivial _ rfl)
    .next trivial trivial _ rfl

theorem unwritten_vconEqual (support : Set Nat) : Unwritten vconEqual support := by
  intro r hr _ q hq _
  have hr' : r = (1, 1) := List.mem_singleton.mp hr
  have hq' : q = (3, 3) := List.mem_singleton.mp hq
  rw [hr', hq']
  decide

theorem next_sound_equal :
    let e : Node := .binaryOpr .equalOpr (.variableExpr 1 8 false) (.variableExpr 3 8 false)
    let before := called e wholeVector true
    let after := (next envFive vconEqual before.2.1 before.2.2).2
    before.1.toOption = none ∧ NodeHolds (assignment vconEqual before.2.2.memory after.2.memory
      fun id => (after.1.var_gen_.read id 0).2) (FixWidthVisitor.fixWidth e) := by
  intro e before after
  have hresult : (next envFive vconEqual before.2.1 before.2.2).1.toOption.any id = true := by
    decide +kernel
  rcases exists_of_any hresult with ⟨result, hok, htrue⟩
  have hnext : next envFive vconEqual before.2.1 before.2.2 = (.ok true, after.1, after.2) :=
    Prod.ext (hok.trans (congrArg Except.ok htrue)) rfl
  have hsound : envFive.Sound := Oracle.ofModel_sound _
  have hin : HardsIn (scalarConstraints before.2.1.constr_mng_) before.2.1.scope.partitions := by
    decide +kernel
  have hused := @used_called e wholeVector true ⟨rfl, rfl⟩ ⟨rfl, rfl⟩
  have hexpr : ((scalarConstraints before.2.1.constr_mng_).head (by decide +kernel)).expr_ =
      FixWidthVisitor.fixWidth e := by
    decide +kernel
  rw [← hexpr]
  exact ⟨by decide +kernel, next_sound hsound hused (unwritten_vconEqual _) hin hnext
    (List.head_mem _) (by decide +kernel)⟩

/-- The constraint that cannot be built comes first, and the variable is not solved. -/
theorem hard_ignored :
    ¬ forall (env : Environment) (vcon : VariableContainer) (g g' : Generator) (w w' : World),
      env.Sound -> (forall support, Unwritten vcon support) ->
        Used env vcon (fun _ => True) g w -> next env vcon g w = (.ok true, g', w') ->
          forall c, c ∈ scalarConstraints g.constr_mng_ -> c.isHard = true ->
            NodeHolds (assignment vcon w.memory w'.memory
              fun id => (g'.var_gen_.read id 0).2) c.expr_ := by
  intro hclaim
  let e : Node := .binaryOpr .equalOpr (.variableExpr 3 8 false) (.constant ⟨5, 8, false⟩)
  let before := called wholeVector e false
  let after := (next envFive vconEqual before.2.1 before.2.2).2
  have hresult : (next envFive vconEqual before.2.1 before.2.2).1.toOption.any id = true := by
    decide +kernel
  rcases exists_of_any hresult with ⟨result, hok, htrue⟩
  have hnext : next envFive vconEqual before.2.1 before.2.2 = (.ok true, after.1, after.2) :=
    Prod.ext (hok.trans (congrArg Except.ok htrue)) rfl
  have hmem : (scalarConstraints before.2.1.constr_mng_).getLast (by decide +kernel) ∈
      scalarConstraints before.2.1.constr_mng_ := List.getLast_mem _
  have hholds := hclaim envFive vconEqual before.2.1 after.1 before.2.2 after.2
    (Oracle.ofModel_sound _) unwritten_vconEqual (used_called false ⟨rfl, rfl⟩
      ⟨rfl, by decide, by decide, by decide⟩) hnext _ hmem (by decide +kernel)
  have hfails : ¬ NodeHolds (assignment vconEqual before.2.2.memory after.2.memory
      fun id => (after.1.var_gen_.read id 0).2)
      ((scalarConstraints before.2.1.constr_mng_).getLast (by decide +kernel)).expr_ := by
    decide +kernel
  exact hfails hholds

end Sound

end Generator
end Backend
end Crave
