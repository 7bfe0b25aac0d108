import Crave.Backend.CoverageSoundness
import Crave.Frontend.RandObjSoundness

/-!
# Coverage of generators and of random objects

What a successful coverage call leaves in force, for a generator that is used alone and
for an object that gathers the constraints of a hierarchy.
-/

namespace Crave
namespace Frontend

open Foundation Ir Backend MetaSMTVisitor

section Coverage

variable {env : Environment} {vcon : VariableContainer}

theorem holdsIn_rand_obj (hsound : env.Sound) {s s' : RandObjs} {w w' : World} {i : Nat}
    (h : RandObjs.Used env vcon s w) (hunwritten : Unwritten vcon (s.scope i).support)
    (hkeeps : forall memory : Memory,
      (forall loc, loc ∉ s.values i -> memory loc = w.memory loc) ->
        Generator.CoverageKeeps env vcon (s.rebuild_ i || (s.constraint i).isChanged)
          (s.constraint i) (s.scope i) (s.subtreeScalars i) memory)
    (hnext : s.next_cov env vcon i w = (.ok true, s', w')) {c : UserConstraint}
    (hc : c ∈ s.subtreeScalars i) (hhard : c.isHard = true) :
    HoldsIn vcon w'.memory (s'.constraint i).reported c := by
  rcases RandObjs.next_cov_cases hnext with
    ⟨w₁, s₁, w₂, g, hrandomised, hrebuild, hcall, hs'⟩
  rcases Generator.nextCov_cases hcall with ⟨g₁, w₃, hupdate, hcases⟩
  have hinv := h.invariant.mono (Nat.le_of_eq hrandomised.constraint_ID.symm)
  have hupdated := RandObjs.updated_of_rebuild hinv hrebuild hupdate
  have hkeeps' := hkeeps w₁.memory hrandomised.memory
  rw [← hupdated.memory] at hkeeps'
  have hself : s'.constraint i = g := by
    rw [hs']
    exact RandObjs.constraint_setConstraint_self s₁ i g
  rw [hself]
  apply Generator.holdsIn_of_nextCov hsound hunwritten hupdated hkeeps' _ hc hhard
  rcases hcases with hnext | ⟨huncovered, _, hsolve⟩ | hfailed
  · exact Or.inl hnext
  · exact Or.inr (Or.inl ⟨huncovered, hsolve⟩)
  · exact Or.inr (Or.inr hfailed)

/-- Whenever `nextCov` or `next_cov` succeeds and the coverage step keeps or hits every
partition, the enabled hard constraints hold of the values in force. -/
theorem coverage_sound (hsound : env.Sound) :
    (forall (allowed : Generator.Operation -> Prop) (g g' : Generator) (w w' : World),
      Generator.Used env vcon allowed g w -> Unwritten vcon g.scope.support ->
      Generator.CoverageKeeps env vcon g.isChanged g g.scope
        (scalarConstraints g.constr_mng_) w.memory ->
      Generator.nextCov env vcon g w = (.ok true, g', w') ->
      forall c, c ∈ scalarConstraints g.constr_mng_ -> c.isHard = true ->
        HoldsIn vcon w'.memory g'.reported c) ∧
    (forall (s s' : RandObjs) (w w' : World) (i : Nat),
      RandObjs.Used env vcon s w -> Unwritten vcon (s.scope i).support ->
      (forall memory : Memory, (forall loc, loc ∉ s.values i -> memory loc = w.memory loc) ->
        Generator.CoverageKeeps env vcon (s.rebuild_ i || (s.constraint i).isChanged)
          (s.constraint i) (s.scope i) (s.subtreeScalars i) memory) ->
      s.next_cov env vcon i w = (.ok true, s', w') ->
      forall c, c ∈ s.subtreeScalars i -> c.isHard = true ->
        HoldsIn vcon w'.memory (s'.constraint i).reported c) := by
  constructor
  · intro allowed g g' w w' h hunwritten hkeeps hnext c hc hhard
    exact Generator.holdsIn_of_standing hsound h.standing hunwritten hkeeps hnext hc hhard
  · intro s s' w w' i h hunwritten hkeeps hnext c hc hhard
    exact holdsIn_rand_obj hsound h hunwritten hkeeps hnext hc hhard

end Coverage

/-!
### Two partitions

The variable of the hard constraint is not the one of the coverage goal.
-/

theorem nodup_write_pair : (([] : List Nat) ++ [1, 2]).Nodup := by
  decide

def vconPair : VariableContainer :=
  VariableContainer.ofReferences ⟨8, false⟩ VariableContainer.byte_supported [] [1, 2]
    nodup_write_pair

/-- A backend that knows the solution 7 and 5. -/
def envPair : Environment :=
  Environment.simple (Oracle.ofModel fun v =>
    match v with
    | .terminal id => if id = 1 then 7 else 5
    | .selector _ => 1) id

def worldPair (value : Nat) : World :=
  { memory := fun _ => value
    vectors := fun _ => []
    time := 0
    var_ID := 2
    constraint_ID := 0 }

/-- `y == 5` -/
def isFive : Node :=
  .binaryOpr .equalOpr (.variableExpr 2 8 false) (.constant ⟨5, 8, false⟩)

/-- `x == 7` is hard and `y == 5` is to be covered. -/
def generatorPair (value : Nat) : Generator × World :=
  let (_, g, w) := Generator.perform envPair vconPair Generator.new (worldPair value)
    (.makeConstraint (some "hard") RandObjs.isSeven false false)
  (Generator.perform envPair vconPair g w (.makeConstraint (some "goal") isFive false true)).2

/-- A parent with the goal and a child with the hard constraint. -/
def objectPair (value : Nat) : RandObjs × World :=
  let s := (RandObjs.empty.rand_obj none).rand_obj (some 0)
  let (_, s, w) := s.perform envPair vconPair (worldPair value)
    (.constraint 1 (.makeConstraint (some "hard") RandObjs.isSeven false false))
  (s.perform envPair vconPair w
    (.constraint 0 (.makeConstraint (some "goal") isFive false true))).2

theorem used_generatorPair (value : Nat) :
    Generator.Used envPair vconPair (fun _ => True) (generatorPair value).1
      (generatorPair value).2 :=
  .perform (.perform (.new (worldPair value))
    (.makeConstraint (some "hard") RandObjs.isSeven false false)
      ⟨rfl, by decide, by decide, by decide⟩ trivial _ rfl)
    (.makeConstraint (some "goal") isFive false true) ⟨rfl, by decide, by decide, by decide⟩ trivial
      _ rfl

theorem used_objectPair (value : Nat) :
    RandObjs.Used envPair vconPair (objectPair value).1 (objectPair value).2 :=
  .perform (.perform (.perform (.perform (.empty (worldPair value))
    (.rand_obj none) trivial _ rfl) (.rand_obj (some 0)) trivial _ rfl)
    (.constraint 1 (.makeConstraint (some "hard") RandObjs.isSeven false false))
      ⟨rfl, by decide, by decide, by decide⟩ _ rfl)
    (.constraint 0 (.makeConstraint (some "goal") isFive false true))
      ⟨rfl, by decide, by decide, by decide⟩ _ rfl

theorem unwritten_vconPair (support : Set Nat) : Unwritten vconPair support := by
  intro r hr
  cases hr

/-- A hard constraint that holds already is kept, as its variable is referenced. -/
theorem coverageKeeps_pair {pending : Bool} {g : Generator} {cs vecs : List UserConstraint}
    (hpending : pending = true) (hmade : Generator.WellMade vconPair cs)
    (hhard : forall c, c ∈ cs -> c.isHard = true ->
      c.support_vars_ = {1} ∧ HoldsIn vconPair (fun _ => 7) g.reported c) :
    Generator.CoverageKeeps envPair vconPair pending g (Scope.ofConstraints cs vecs) cs
      fun _ => 7 := by
  have hin := Generator.hardsIn_partition hmade
  refine ⟨hin, Or.inr (Or.inr ⟨?_, ?_⟩)⟩
  · rw [Scope.map_fst_ofConstraints]
    exact hin
  · intro q hq
    rw [hpending]
    rcases List.mem_map.mp hq with ⟨p, hp, rfl⟩
    have hof : forall c, c ∈ hards p -> c ∈ cs ∧ c.isHard = true := by
      intro c hc
      exact ⟨Generator.mem_of_mem_partition hmade hp (mem_hards.mp hc).left,
        (mem_hards.mp hc).right⟩
    have href : Referenced vconPair (hards p) := by
      intro c hc id hid
      have hvars := (hhard c (hof c hc).left (hof c hc).right).left
      rw [hvars] at hid
      rw [Finset.mem_singleton.mp hid]
      decide
    refine ⟨Or.inl ⟨?_, Or.inl href⟩, fun _ => href⟩
    intro c hc
    exact (hhard c (hof c hc).left (hof c hc).right).right

theorem coverage_sound_pair :
    (let before := generatorPair 7
      let after := (Generator.nextCov envPair vconPair before.1 before.2).2
      forall c, c ∈ scalarConstraints before.1.constr_mng_ -> c.isHard = true ->
        HoldsIn vconPair after.2.memory after.1.reported c) ∧
    (let before := objectPair 7
      let after := (before.1.next_cov envPair vconPair 0 before.2).2
      forall c, c ∈ before.1.subtreeScalars 0 -> c.isHard = true ->
        HoldsIn vconPair after.2.memory (after.1.constraint 0).reported c) := by
  have hsound : envPair.Sound := Oracle.ofModel_sound _
  constructor
  · intro before after
    have hstanding := (used_generatorPair 7).standing
    have hresult : (Generator.nextCov envPair vconPair before.1 before.2).1.toOption.any id =
        true := by
      decide +kernel
    rcases exists_of_any hresult with ⟨result, hok, htrue⟩
    have hnext : Generator.nextCov envPair vconPair before.1 before.2 =
        (.ok true, after.1, after.2) :=
      Prod.ext (hok.trans (congrArg Except.ok htrue)) rfl
    have hhard : forall c, c ∈ scalarConstraints before.1.constr_mng_ -> c.isHard = true ->
        c.support_vars_ = {1} ∧ HoldsIn vconPair (fun _ => 7) before.1.reported c := by
      decide +kernel
    exact (coverage_sound hsound).left _ before.1 after.1 before.2 after.2
      (used_generatorPair 7) (unwritten_vconPair _)
      (coverageKeeps_pair rfl hstanding.owned.scalars hhard) hnext
  · intro before after
    have hinv := (used_objectPair 7).invariant
    have hrequested : before.1.rebuild_ 0 = true := by decide +kernel
    have hresult : (before.1.next_cov envPair vconPair 0 before.2).1.toOption.any id = true := by
      decide +kernel
    rcases exists_of_any hresult with ⟨result, hok, htrue⟩
    have hnext : before.1.next_cov envPair vconPair 0 before.2 = (.ok true, after.1, after.2) :=
      Prod.ext (hok.trans (congrArg Except.ok htrue)) rfl
    have hhard : forall c, c ∈ before.1.subtreeScalars 0 -> c.isHard = true ->
        c.support_vars_ = {1} ∧
          HoldsIn vconPair (fun _ => 7) (before.1.constraint 0).reported c := by
      decide +kernel
    have hpending : (before.1.rebuild_ 0 || (before.1.constraint 0).isChanged) = true := by
      rw [hrequested]
      rfl
    have hvalues : forall loc, loc ∉ before.1.values 0 := by
      rintro loc ⟨j, d, _, hmem⟩
      have hnone : before.1.baseChildren_ j = [] := by
        show Function.update (Function.update (fun _ => []) 0 []) 1 [] j = []
        rw [Function.update_apply, Function.update_apply, ite_self, ite_self]
      rw [hnone] at hmem
      cases hmem
    have hkeeps : forall memory : Memory,
        (forall loc, loc ∉ before.1.values 0 -> memory loc = before.2.memory loc) ->
          Generator.CoverageKeeps envPair vconPair
            (before.1.rebuild_ 0 || (before.1.constraint 0).isChanged)
            (before.1.constraint 0) (before.1.scope 0) (before.1.subtreeScalars 0) memory := by
      intro memory hsame
      have hmemory : memory = fun _ => 7 := funext fun loc => hsame loc (hvalues loc)
      rw [hmemory, RandObjs.scope, if_pos hrequested]
      exact coverageKeeps_pair hpending (hinv.wellMade 0) hhard
    exact (coverage_sound hsound).right before.1 after.1 before.2 after.2 0
      (used_objectPair 7) (unwritten_vconPair _) hkeeps hnext

/-- The goal is hit, and the variable of the hard constraint keeps the value zero. -/
theorem hard_not_solved :
    ¬ forall (env : Environment) (vcon : VariableContainer) (g g' : Generator) (w w' : World),
      env.Sound -> (forall support, Unwritten vcon support) ->
        Generator.Used env vcon (fun _ => True) g w ->
          Generator.nextCov env vcon g w = (.ok true, g', w') ->
            forall c, c ∈ scalarConstraints g.constr_mng_ -> c.isHard = true ->
              HoldsIn vcon w'.memory g'.reported c := by
  intro hclaim
  let before := generatorPair 0
  let after := (Generator.nextCov envPair vconPair before.1 before.2).2
  have hresult : (Generator.nextCov envPair vconPair before.1 before.2).1.toOption.any id =
      true := by
    decide +kernel
  rcases exists_of_any hresult with ⟨result, hok, htrue⟩
  have hnext : Generator.nextCov envPair vconPair before.1 before.2 =
      (.ok true, after.1, after.2) :=
    Prod.ext (hok.trans (congrArg Except.ok htrue)) rfl
  have hholds := hclaim envPair vconPair before.1 after.1 before.2 after.2
    (Oracle.ofModel_sound _) unwritten_vconPair (used_generatorPair 0) hnext
    ((scalarConstraints before.1.constr_mng_).head (by decide)) (List.head_mem _) rfl
  have hfails : ¬ HoldsIn vconPair after.2.memory after.1.reported
      ((scalarConstraints before.1.constr_mng_).head (by decide)) := by
    decide +kernel
  exact hfails hholds

end Frontend
end Crave
