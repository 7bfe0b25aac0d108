import Crave.Backend.GeneratorVectors
import Crave.Frontend.RandObjRuns

/-!
# Constraints of a hierarchy

A successful `next` satisfies the enabled hard constraints of the object and of all
objects below it, provided that the solvers of the call are there for them. This is so
when a rebuild is pending. Otherwise it may fail: the generator of the object does not
know of constraints that were added below, and when constraints were added to it, it is
built again for these alone; and a rebuild that threw has left some solvers only.
-/

namespace Crave
namespace Frontend

open Foundation Ir Backend MetaSMTVisitor

namespace RandObjs

section Solvers

variable {env : Environment} {vcon : VariableContainer} {s s' : RandObjs} {w w' : World} {i : Nat}

theorem hardsIn_of_requested (h : Used env vcon s w) (hrequested : s.rebuild_ i = true) :
    Generator.HardsIn (s.subtreeScalars i) (s.scope i).partitions := by
  rw [scope, if_pos hrequested]
  exact Generator.hardsIn_partition (h.invariant.wellMade i)

/-- Whenever `next` succeeds on an object whose solvers are for all hard constraints, the enabled
hard constraints of all objects below hold of the values it leaves: those over scalar variables,
the `foreach`es over vectors that can be solved alone, and the `unique`s over vectors whose
elements are known. -/
theorem subtree_sound (hsound : env.Sound) (hknows : env.KnowsVectors vcon)
    (h : Used env vcon s w)
    (hhards : Generator.HardsIn (s.subtreeScalars i) (s.scope i).partitions)
    (hunwritten : Unwritten vcon (supportOf (s.scope i).partitions))
    (hnext : s.next env vcon i w = (.ok true, s', w')) :
    (forall c, c ∈ s.subtreeScalars i -> c.isHard = true ->
        NodeHolds (assignment vcon w'.memory w'.memory
          fun id => ((s'.constraint i).var_gen_.read id 0).2) c.expr_) ∧
      (forall c, c ∈ s.subtreeVectors i -> c.isHard = true ->
        (forall memory : Memory, (forall loc, loc ∉ s.values i -> memory loc = w.memory loc) ->
          SolvedAlone env vcon memory (s.scope i) c) ->
        forall v bitsize sign body, c.expr_ = .forEach (.vectorExpr v bitsize sign) body ->
          (Generator.finalValues vcon (s'.constraint i) w').BodyHolds v body) ∧
      (forall c, c ∈ s.subtreeVectors i -> c.isHard = true -> c.isUnique = true ->
        (forall memory : Memory, (forall loc, loc ∉ s.values i -> memory loc = w.memory loc) ->
          UniqueAlone env vcon memory w.var_ID (s.scope i) c) ->
        forall v bitsize sign, c.expr_ = .unique (.vectorExpr v bitsize sign) ->
          (w'.vectors v).Nodup) := by
  rcases next_cases hnext with ⟨w₁, s₁, w₂, g, hrandomised, hrebuild, hcall, hs'⟩
  rcases Generator.next_cases hcall with ⟨g₁, w₃, hupdate, hsolve⟩
  have hinv := h.invariant.mono (Nat.le_of_eq hrandomised.constraint_ID.symm)
  have hupdated := updated_of_rebuild hinv hrebuild hupdate
  have hmemory : forall loc, loc ∉ s.values i -> w₃.memory loc = w.memory loc := by
    rw [hupdated.memory]
    exact hrandomised.memory
  have hvar_ID : w.var_ID ≤ w₃.var_ID := by
    rw [hupdated.var_ID, hrandomised.var_ID]
  have hself : s'.constraint i = g := by
    rw [hs']
    exact constraint_setConstraint_self s₁ i g
  rw [hself]
  rw [← hupdated.built] at hhards hunwritten ⊢
  refine ⟨?_, ?_, ?_⟩
  · intro c hc hhard
    exact Generator.nodeHolds_with_references hsound hupdated.ready hunwritten hsolve
      (fun _ _ _ => rfl) (hhards c hc hhard) hhard
  · intro c hc hhard halone v bitsize sign body hexpr
    exact Generator.bodyHolds_of_solve hsound hupdated.ready hunwritten hknows hsolve hhard
      (halone w₃.memory hmemory) hexpr rfl
  · intro c hc hhard hunique halone v bitsize sign hexpr
    exact Generator.nodup_of_solve hsound hupdated.ready hunwritten hknows hsolve
      (h.invariant.made_vectors hc) hhard hvar_ID (halone w₃.memory hmemory) hexpr hunique

end Solvers

/-!
### A family

Object 0 has the object 1 as its child, with a variable of one byte and two vectors of bytes.
-/

/-- A backend that knows two solutions; the elements of a vector differ in the second one. -/
def envFamily : Environment :=
  { Environment.simple (Oracle.ofModels [
      fun v => match v with | .terminal _ => 0 | .selector _ => 1,
      fun v => match v with | .terminal id => if id = 1 then 7 else id | .selector _ => 1])
      (fun _ => 0) with
    vectorBaseMap := fun id =>
      if id = 2 then some { size_var := 3, element := ⟨8, false⟩ }
      else if id = 4 then some { size_var := 5, element := ⟨8, false⟩ }
      else none }

def vconFamily : VariableContainer :=
  { VariableContainer.ofReferences ⟨8, false⟩ VariableContainer.byte_supported [] [1]
      VariableContainer.nodup_write_one with
    vector_variables := fun id => if id = 2 ∨ id = 4 then some ⟨8, false⟩ else none }

def worldFamily : World :=
  { memory := fun _ => 0, vectors := fun _ => [], time := 0, var_ID := 5, constraint_ID := 0 }

/-- `x == 7` -/
def isSeven : Node :=
  .binaryOpr .equalOpr (.variableExpr 1 8 false) (.constant ⟨7, 8, false⟩)

/-- `x <= 200` -/
def isBelow : Node :=
  .binaryOpr .lessEqualOpr (.variableExpr 1 8 false) (.constant ⟨200, 8, false⟩)

/-- `foreach(v, v[_i] <= 200)` -/
def allBelow (v : Nat) : Node :=
  .forEach (.vectorExpr v 8 false)
    (.binaryOpr .lessEqualOpr (.vectorAccess (.vectorExpr v 8 false) (.placeholder 0))
      (.constant ⟨200, 8, false⟩))

/-- `unique(v)` -/
def allUnique : Node :=
  .unique (.vectorExpr 2 8 false)

def withConstraint (i : Nat) (name : String) (e : Node) (o : RandObjs × World) :
    RandObjs × World :=
  (o.1.perform envFamily vconFamily o.2
    (.constraint i (.makeConstraint (some name) e false false))).2

def objects : RandObjs :=
  ((((RandObjs.empty.rand_obj none).rand_obj (some 0)).add_base_child 1
    (.randv 1 ⟨8, false⟩)).add_base_child 1 (.rand_vec 2)).add_base_child 1 (.rand_vec 4)

/-- The child has all the constraints. -/
def family : RandObjs × World :=
  withConstraint 1 "unique" allUnique
    (withConstraint 1 "first" (allBelow 2)
      (withConstraint 1 "second" (allBelow 4)
        (withConstraint 1 "seven" isSeven (objects, worldFamily))))

theorem used_objects : Used envFamily vconFamily objects worldFamily :=
  .perform (.perform (.perform (.perform (.perform (.empty worldFamily)
    (.rand_obj none) trivial _ rfl) (.rand_obj (some 0)) trivial _ rfl)
    (.add_base_child 1 (.randv 1 ⟨8, false⟩)) trivial _ rfl)
    (.add_base_child 1 (.rand_vec 2)) trivial _ rfl)
    (.add_base_child 1 (.rand_vec 4)) trivial _ rfl

theorem used_withConstraint {o : RandObjs × World} (h : Used envFamily vconFamily o.1 o.2)
    (i : Nat) (name : String) {e : Node}
    (he : Context.Builds vconFamily.variables_ vconFamily.vector_variables e) :
    Used envFamily vconFamily (withConstraint i name e o).1 (withConstraint i name e o).2 :=
  .perform h (.constraint i (.makeConstraint (some name) e false false)) he _ rfl

theorem builds_allBelow {v : Nat} (hv : vconFamily.vector_variables v = some ⟨8, false⟩) :
    Context.Builds vconFamily.variables_ vconFamily.vector_variables (allBelow v) :=
  ⟨hv, ⟨⟨v, 8, false, rfl, hv⟩, trivial⟩, by decide, by decide, by decide⟩

theorem used_family : Used envFamily vconFamily family.1 family.2 := by
  have hseven := used_withConstraint (o := (objects, worldFamily)) used_objects 1 "seven"
    (e := isSeven) ⟨rfl, by decide, by decide, by decide⟩
  have hsecond := used_withConstraint hseven 1 "second" (builds_allBelow (v := 4) rfl)
  have hfirst := used_withConstraint hsecond 1 "first" (builds_allBelow (v := 2) rfl)
  exact used_withConstraint hfirst 1 "unique" (e := allUnique) rfl

theorem knowsVectors_envFamily : envFamily.KnowsVectors vconFamily := by
  intro id vector hvector
  simp only [envFamily] at hvector
  split at hvector
  · cases hvector
    decide
  · split at hvector
    · cases hvector
      decide
    · cases hvector

theorem unwritten_vconFamily (support : Set Nat) : Unwritten vconFamily support := by
  intro r hr
  cases hr

/-- No constraint reads the sizes of the vectors, so these are the default. -/
theorem size_family {memory : Memory} {size_var size : Nat}
    (hnot : forall p, p ∈ (family.1.scope 0).partitions -> size_var ∉ p.support_vars_)
    (h : SizeAllowed vconFamily memory (family.1.scope 0).partitions size_var size) :
    size = 5 := by
  rcases h with ⟨p, hp, hid, _⟩ | hdefault
  · exact absurd hid (hnot p hp)
  · exact hdefault.right

theorem subtree_sound_first :
    let after := (family.1.next envFamily vconFamily 0 family.2).2
    NodeHolds (assignment vconFamily after.2.memory after.2.memory
        fun id => ((after.1.constraint 0).var_gen_.read id 0).2)
        (FixWidthVisitor.fixWidth isSeven) ∧
      ((Generator.finalValues vconFamily (after.1.constraint 0) after.2).BodyHolds 4
        (.binaryOpr .lessEqualOpr (.vectorAccess (.vectorExpr 4 8 false) (.placeholder 0))
          (.constant ⟨200, 8, false⟩)) ∧
        (after.2.vectors 2).Nodup) := by
  intro after
  have hrequested : family.1.rebuild_ 0 = true := by decide +kernel
  have hresult : (family.1.next envFamily vconFamily 0 family.2).1.toOption.any id = true := by
    decide +kernel
  rcases exists_of_any hresult with ⟨result, hok, htrue⟩
  have hnext : family.1.next envFamily vconFamily 0 family.2 = (.ok true, after.1, after.2) :=
    Prod.ext (hok.trans (congrArg Except.ok htrue)) rfl
  have hsound : envFamily.Sound := Oracle.ofModels_sound _
  rcases subtree_sound hsound knowsVectors_envFamily used_family
    (hardsIn_of_requested used_family hrequested) (unwritten_vconFamily _) hnext with
    ⟨hscalars, hforeach, hunique⟩
  have hnot : forall p, p ∈ (family.1.scope 0).partitions ->
      3 ∉ p.support_vars_ ∧ 5 ∉ p.support_vars_ := by
    decide +kernel
  have hids : ((family.1.scope 0).vectors.head (by decide +kernel)).2.vector_id_ = 2 ∧
      ((family.1.scope 0).vectors.getLast (by decide +kernel)).2.vector_id_ = 4 := by
    decide +kernel
  have hvectors : envFamily.vectorBaseMap
        ((family.1.scope 0).vectors.head (by decide +kernel)).2.vector_id_ =
          some { size_var := 3, element := ⟨8, false⟩ } ∧
      envFamily.vectorBaseMap
        ((family.1.scope 0).vectors.getLast (by decide +kernel)).2.vector_id_ =
          some { size_var := 5, element := ⟨8, false⟩ } := by
    rw [hids.left, hids.right]
    exact ⟨rfl, rfl⟩
  refine ⟨?_, ?_, ?_⟩
  · have hmem : ((family.1.constraint 1).constr_mng_.constraints_.head (by decide)) ∈
        family.1.subtreeScalars 0 := by
      decide +kernel
    exact hscalars _ hmem rfl
  · have hmem : ((family.1.constraint 1).constr_mng_.constraints_.get ⟨1, by decide⟩) ∈
        family.1.subtreeVectors 0 := by
      decide +kernel
    refine hforeach _ hmem rfl ?_ 4 8 false _ rfl
    intro memory _
    refine ⟨(family.1.scope 0).vectors.getLast (by decide +kernel), List.getLast_mem _, ?_, ?_⟩
    · decide +kernel
    · intro vector hvector
      rw [hvectors.right] at hvector
      cases hvector
      refine ⟨by decide +kernel, ?_⟩
      intro size hsize
      rw [size_family (fun p hp => (hnot p hp).right) hsize]
      decide +kernel
  · have hmem : ((family.1.constraint 1).constr_mng_.constraints_.get ⟨3, by decide⟩) ∈
        family.1.subtreeVectors 0 := by
      decide +kernel
    refine hunique _ hmem rfl rfl ?_ 2 8 false rfl
    intro memory _
    refine ⟨(family.1.scope 0).vectors.head (by decide +kernel), List.head_mem _, ?_,
      [(family.1.constraint 1).constr_mng_.constraints_.get ⟨2, by decide⟩], [], ?_, ?_⟩
    · apply VectorSolver.numbered_of_nil (by decide +kernel)
      decide +kernel
    · decide +kernel
    · intro vector hvector
      rw [hvectors.left] at hvector
      cases hvector
      refine ⟨?_, ?_⟩
      · intro c hc
        rw [List.mem_singleton.mp hc, hids.left]
        exact ⟨rfl, by decide +kernel⟩
      · intro size hsize
        rw [size_family (fun p hp => (hnot p hp).left) hsize]
        refine ⟨?_, ?_⟩
        · unfold VectorSolver.WidthsKnown
          decide +kernel
        · intro hone
          cases hone

/-- After the first call a constraint is added to the parent, which rebuilds its generator
without the child. -/
theorem child_forgotten :
    ¬ forall (env : Environment) (vcon : VariableContainer) (s s' : RandObjs) (w w' : World)
        (i : Nat),
      env.Sound -> (forall support, Unwritten vcon support) -> Used env vcon s w ->
        s.next env vcon i w = (.ok true, s', w') ->
          forall c, c ∈ s.subtreeScalars i -> c.isHard = true ->
            NodeHolds (assignment vcon w'.memory w'.memory
              fun id => ((s'.constraint i).var_gen_.read id 0).2) c.expr_ := by
  intro hclaim
  let first := family.1.next envFamily vconFamily 0 family.2
  let added := withConstraint 0 "parent" isBelow first.2
  let second := added.1.next envFamily vconFamily 0 added.2
  have hsecond : second.1.toOption.any id = true := by
    decide +kernel
  rcases exists_of_any hsecond with ⟨result, hok, htrue⟩
  have hused₁ : Used envFamily vconFamily first.2.1 first.2.2 :=
    .perform used_family (.next 0) trivial _ rfl
  have hused₂ : Used envFamily vconFamily added.1 added.2 :=
    used_withConstraint hused₁ 0 "parent" (e := isBelow) ⟨rfl, by decide, by decide, by decide⟩
  have hnext : added.1.next envFamily vconFamily 0 added.2 = (.ok true, second.2.1, second.2.2) :=
    Prod.ext (hok.trans (congrArg Except.ok htrue)) rfl
  have hchild : ((family.1.constraint 1).constr_mng_.constraints_.head (by decide)) ∈
      added.1.subtreeScalars 0 := by
    decide +kernel
  have hholds := hclaim envFamily vconFamily added.1 second.2.1 added.2 second.2.2 0
    (Oracle.ofModels_sound _) unwritten_vconFamily hused₂ hnext _ hchild rfl
  have hfails : ¬ NodeHolds (assignment vconFamily second.2.2.memory second.2.2.memory
      fun id => ((second.2.1.constraint 0).var_gen_.read id 0).2)
      (FixWidthVisitor.fixWidth isSeven) := by
    decide +kernel
  exact hfails hholds

end RandObjs

end Frontend
end Crave
