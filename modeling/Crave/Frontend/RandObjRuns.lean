import Crave.Backend.UsedGenerators
import Crave.Frontend.RandObj

/-!
# Runs of random objects

Objects are constructed, get constraints and are randomised in any order, and any of these
operations may throw. The invariant of these runs is that every generator can be called and
that no constraint identifier is given out twice, so the constraints of any subtree can be
gathered.
-/

namespace Crave
namespace Frontend

open Foundation Ir Backend

namespace RandObjs

/-!
## Gathering
-/

/-- What one object adds to the generator that gathers. -/
def gatherOne (s : RandObjs) (gen : Generator) (i : Nat) : Generator :=
  ((s.baseChildren_ i).foldl addVec gen).merge (s.constraint i)

/-- The enabled constraints of an object and of all objects below it. -/
def subtreeScalars (s : RandObjs) (i : Nat) : List UserConstraint :=
  (s.tree.postorder i).flatMap fun j => scalarConstraints (s.constraint j).constr_mng_

def subtreeVectors (s : RandObjs) (i : Nat) : List UserConstraint :=
  (s.tree.postorder i).flatMap fun j => vectorConstraints (s.constraint j).constr_mng_

section Gather

variable {s s' : RandObjs} {gen : Generator} {i : Nat}

theorem gather_constraints_postorder (s : RandObjs) (i : Nat) (gen : Generator) :
    s.gather_constraints i gen = (s.tree.postorder i).foldl (gatherOne s) gen := by
  rw [gather_constraints, Forest.postorder_eq, List.foldl_append, List.foldl_flatMap]
  have hchildren : forall cs : List { c // c ∈ s.tree.children_ i }, forall gen,
      cs.foldl (fun gen c => s.gather_constraints c.val gen) gen =
        (cs.map Subtype.val).foldl
          (fun gen c => (s.tree.postorder c).foldl (gatherOne s) gen) gen := by
    intro cs
    induction cs with
    | nil =>
        intro gen
        rfl
    | cons c rest ih =>
        intro gen
        have hlt := s.tree.older_of_mem c.property
        rw [List.foldl_cons, List.map_cons, List.foldl_cons, ih,
          gather_constraints_postorder s c.val gen]
  rw [hchildren, List.attach_map_subtype_val]
  rfl
termination_by s.tree.size - i
decreasing_by omega

theorem constraint_setConstraint_self (s : RandObjs) (i : Nat) (g : Generator) :
    (s.setConstraint i g).constraint i = g := by
  show Function.update s.constraint i g i = g
  exact Function.update_self i g s.constraint

theorem constraint_setConstraint_of_ne (s : RandObjs) {i j : Nat} (h : j ≠ i) (g : Generator) :
    (s.setConstraint i g).constraint j = s.constraint j := by
  show Function.update s.constraint i g j = s.constraint j
  exact Function.update_of_ne h g s.constraint

/-- Which constraints are gathered depends on the tree and the managers. -/
theorem subtree_congr (htree : s'.tree = s.tree)
    (hsame : forall j, (s'.constraint j).constr_mng_.constraints_ =
      (s.constraint j).constr_mng_.constraints_) (i : Nat) :
    s'.subtreeScalars i = s.subtreeScalars i ∧ s'.subtreeVectors i = s.subtreeVectors i := by
  have henabled : forall j, (s'.constraint j).constr_mng_.enabled =
      (s.constraint j).constr_mng_.enabled := by
    intro j
    rw [ConstraintManager.enabled, ConstraintManager.enabled, hsame j]
  constructor
  · unfold subtreeScalars scalarConstraints
    simp only [htree, henabled]
  · unfold subtreeVectors vectorConstraints
    simp only [htree, henabled]

theorem exists_addVec (gen : Generator) (rb : RandBase) :
    exists vec_ids, addVec gen rb = { gen with to_be_generated_vec_ids_ := vec_ids } := by
  cases rb with
  | randv value d => exact ⟨gen.to_be_generated_vec_ids_, rfl⟩
  | rand_vec id =>
      unfold addVec Generator.addVecId
      simp only
      split
      · exact ⟨gen.to_be_generated_vec_ids_, rfl⟩
      · exact ⟨_, rfl⟩

/-- Gathering changes the vectors and the merged constraints only. -/
theorem exists_gatherOne (s : RandObjs) (gen : Generator) (i : Nat) :
    exists vec_ids, gatherOne s gen i =
      { gen with
        to_be_generated_vec_ids_ := vec_ids
        constr_pttn_ := gen.constr_pttn_.mergeConstraints (s.constraint i).constr_mng_ } := by
  have hvecs : forall (rbs : List RandBase) (gen : Generator), exists vec_ids,
      rbs.foldl addVec gen = { gen with to_be_generated_vec_ids_ := vec_ids } := by
    intro rbs
    induction rbs with
    | nil =>
        intro gen
        exists gen.to_be_generated_vec_ids_
    | cons rb rest ih =>
        intro gen
        rcases exists_addVec gen rb with ⟨first, hfirst⟩
        rcases ih (addVec gen rb) with ⟨vec_ids, hrest⟩
        exists vec_ids
        rw [List.foldl_cons, hrest, hfirst]
  rcases hvecs (s.baseChildren_ i) gen with ⟨vec_ids, heq⟩
  exists vec_ids
  rw [gatherOne, heq]
  rfl

/-- What a generator holds after it has gathered from a list of objects. -/
structure Gathering (s : RandObjs) (is : List Nat) (gen gen' : Generator) : Prop where
  scalars : gen'.constr_pttn_.constraints_ = gen.constr_pttn_.constraints_ ++
    is.flatMap fun j => scalarConstraints (s.constraint j).constr_mng_
  vectors : gen'.constr_pttn_.vec_constraints_ = gen.constr_pttn_.vec_constraints_ ++
    is.flatMap fun j => vectorConstraints (s.constraint j).constr_mng_
  partitions : gen'.constr_pttn_.partitions_ = gen.constr_pttn_.partitions_
  constr_mng : gen'.constr_mng_ = gen.constr_mng_
  covered : gen'.covered_ = gen.covered_
  var_gen : gen'.var_gen_ = gen.var_gen_
  var_cov_gen : gen'.var_cov_gen_ = gen.var_cov_gen_
  vec_gen : gen'.vec_gen_ = gen.vec_gen_

theorem gathering_foldl (s : RandObjs) (is : List Nat) (gen : Generator) :
    Gathering s is gen (is.foldl (gatherOne s) gen) := by
  induction is generalizing gen with
  | nil =>
      constructor
      · exact (List.append_nil _).symm
      · exact (List.append_nil _).symm
      · rfl
      · rfl
      · rfl
      · rfl
      · rfl
      · rfl
  | cons i rest ih =>
      rcases exists_gatherOne s gen i with ⟨vec_ids, heq⟩
      have hrest := ih (gatherOne s gen i)
      rw [List.foldl_cons]
      rw [heq] at hrest ⊢
      constructor
      · rw [hrest.scalars, List.flatMap_cons, ← List.append_assoc]
        rfl
      · rw [hrest.vectors, List.flatMap_cons, ← List.append_assoc]
        rfl
      · exact hrest.partitions
      · exact hrest.constr_mng
      · exact hrest.covered
      · exact hrest.var_gen
      · exact hrest.var_cov_gen
      · exact hrest.vec_gen

theorem gathering_gather_constraints (s : RandObjs) (i : Nat) (gen : Generator) :
    Gathering s (s.tree.postorder i) gen (s.gather_constraints i gen) := by
  rw [gather_constraints_postorder]
  exact gathering_foldl s _ gen

end Gather

/-!
## Random values
-/

/-- The locations of the variables of an object and of all objects below it. -/
def values (s : RandObjs) (i : Nat) : Set Nat :=
  { loc | exists j d, s.tree.Below i j ∧ RandBase.randv loc d ∈ s.baseChildren_ j }

/-- Some program variables have got new values. -/
structure Randomised (locs : Set Nat) (w w' : World) : Prop where
  memory : forall loc, loc ∉ locs -> w'.memory loc = w.memory loc
  vectors : w'.vectors = w.vectors
  var_ID : w'.var_ID = w.var_ID
  constraint_ID : w'.constraint_ID = w.constraint_ID

section Randomised

variable {env : Environment} {locs locs' : Set Nat} {w w₁ w' : World}

theorem Randomised.refl (locs : Set Nat) (w : World) : Randomised locs w w :=
  ⟨fun _ _ => rfl, rfl, rfl, rfl⟩

theorem Randomised.trans (h : Randomised locs w w₁) (h' : Randomised locs w₁ w') :
    Randomised locs w w' :=
  ⟨fun loc hloc => (h'.memory loc hloc).trans (h.memory loc hloc),
    h'.vectors.trans h.vectors, h'.var_ID.trans h.var_ID,
    h'.constraint_ID.trans h.constraint_ID⟩

theorem Randomised.mono (h : Randomised locs w w') (hsub : locs ⊆ locs') :
    Randomised locs' w w' :=
  ⟨fun loc hloc => h.memory loc fun hmem => hloc (hsub hmem), h.vectors, h.var_ID,
    h.constraint_ID⟩

theorem allFrom_spec {α : Type} {f : α -> World -> Bool × World} {as : List α}
    (hf : forall a, a ∈ as -> forall w, exists w', f a w = (true, w') ∧ Randomised locs w w')
    (w : World) : exists w', allFrom f as w = (true, w') ∧ Randomised locs w w' := by
  induction as generalizing w with
  | nil => exact ⟨w, rfl, Randomised.refl locs w⟩
  | cons a rest ih =>
      rcases hf a List.mem_cons_self w with ⟨w₁, hhead, h₁⟩
      rcases ih (fun b hb => hf b (List.mem_cons_of_mem a hb)) w₁ with ⟨w', hrest, h'⟩
      refine ⟨w', ?_, h₁.trans h'⟩
      rw [allFrom, hhead]
      exact hrest

theorem next_randBase (env : Environment) {rb : RandBase}
    (hlocs : forall value d, rb = .randv value d -> value ∈ locs) (w : World) :
    exists w', RandBase.next env rb w = (true, w') ∧ Randomised locs w w' := by
  cases rb with
  | randv value d =>
      refine ⟨_, rfl, ?_, rfl, rfl, rfl⟩
      intro loc hloc
      apply Function.update_of_ne
      intro heq
      rw [heq] at hloc
      exact hloc (hlocs value d rfl)
  | rand_vec id => exact ⟨w, rfl, Randomised.refl locs w⟩

/-- Random values are given to the variables below the object, and that never fails. -/
theorem gen_base_children_spec (env : Environment) (s : RandObjs) (i : Nat) (w : World) :
    exists w', s.gen_base_children env i w = (true, w') ∧ Randomised (s.values i) w w' := by
  have hown : exists w₁, allFrom (RandBase.next env) (s.baseChildren_ i) w = (true, w₁) ∧
      Randomised (s.values i) w w₁ := by
    apply allFrom_spec
    intro rb hrb
    apply next_randBase
    intro value d heq
    rw [heq] at hrb
    exact ⟨i, d, Relation.ReflTransGen.refl, hrb⟩
  have hbelow : forall c : { c // c ∈ s.tree.children_ i }, forall w, exists w',
      s.gen_base_children env c.val w = (true, w') ∧ Randomised (s.values i) w w' := by
    intro c w
    have hlt := s.tree.older_of_mem c.property
    rcases gen_base_children_spec env s c.val w with ⟨w', heq, h⟩
    refine ⟨w', heq, h.mono ?_⟩
    rintro loc ⟨j, d, hj, hmem⟩
    exact ⟨j, d, Relation.ReflTransGen.head ((s.tree.linked i c.val).mp c.property) hj, hmem⟩
  rcases hown with ⟨w₁, hfirst, h₁⟩
  rcases allFrom_spec (fun c (_ : c ∈ (s.tree.children_ i).attach) => hbelow c) w₁ with
    ⟨w', hrest, h'⟩
  refine ⟨w', ?_, h₁.trans h'⟩
  rw [gen_base_children, hfirst]
  exact hrest
termination_by s.tree.size - i
decreasing_by omega

end Randomised

/-!
## The invariant
-/

/-- Every generator can be called, and no identifier is given to the constraints of two
objects. -/
structure Invariant (vcon : VariableContainer) (s : RandObjs) (w : World) : Prop where
  standing : forall i, Generator.Standing vcon (s.constraint i) w
  distinct : forall i j, i ≠ j ->
    forall c, c ∈ (s.constraint i).constr_mng_.constraints_ ->
      forall d, d ∈ (s.constraint j).constr_mng_.constraints_ -> c.id_ ≠ d.id_

section Invariant

variable {env : Environment} {vcon : VariableContainer} {s s' : RandObjs} {w w' : World}
  {i : Nat} {g : Generator}

theorem Invariant.mono (h : Invariant vcon s w) (hle : w.constraint_ID ≤ w'.constraint_ID) :
    Invariant vcon s w' :=
  ⟨fun i => (h.standing i).mono hle, h.distinct⟩

theorem Invariant.congr (h : Invariant vcon s w) (hsame : s'.constraint = s.constraint) :
    Invariant vcon s' w := by
  constructor
  · rw [hsame]
    exact h.standing
  · rw [hsame]
    exact h.distinct

theorem mem_of_mem_scalarConstraints {mng : ConstraintManager} {c : UserConstraint}
    (h : c ∈ scalarConstraints mng) : c ∈ mng.constraints_ :=
  List.mem_of_mem_filter (List.mem_of_mem_filter h)

theorem Invariant.wellMade (h : Invariant vcon s w) (i : Nat) :
    Generator.WellMade vcon (s.subtreeScalars i) := by
  constructor
  · unfold ConstraintPartitioner.ids subtreeScalars
    rw [List.map_flatMap, List.nodup_flatMap]
    constructor
    · intro j _
      exact (h.standing j).owned.scalars.ids
    · apply (Forest.nodup_postorder i).imp
      intro j k hne id hj hk
      rcases List.mem_map.mp hj with ⟨c, hc, hcid⟩
      rcases List.mem_map.mp hk with ⟨d, hd, hdid⟩
      apply h.distinct j k hne c (mem_of_mem_scalarConstraints hc) d
        (mem_of_mem_scalarConstraints hd)
      rw [hcid, hdid]
  · intro c hc
    rcases List.mem_flatMap.mp hc with ⟨j, _, hc⟩
    exact (h.standing j).owned.scalars.made c hc

theorem Invariant.made_vectors (h : Invariant vcon s w) {c : UserConstraint}
    (hc : c ∈ s.subtreeVectors i) : c.Made vcon.variables_ := by
  rcases List.mem_flatMap.mp hc with ⟨j, _, hc⟩
  exact (h.standing j).owned.wellMade.made c (List.mem_of_mem_filter (List.mem_of_mem_filter hc))

theorem Invariant.setConstraint (h : Invariant vcon s w)
    (hset : Generator.Standing vcon g w' ∧ Generator.Numbering (s.constraint i) g w w') :
    Invariant vcon (s.setConstraint i g) w' := by
  rcases hset with ⟨hstanding, hnumbering⟩
  -- a new constraint of one object is younger than the constraints of the others
  have hnew : forall j, j ≠ i -> forall c, c ∈ g.constr_mng_.constraints_ ->
      forall d, d ∈ (s.constraint j).constr_mng_.constraints_ -> c.id_ ≠ d.id_ := by
    intro j hj c hc d hd
    cases hnumbering.ids c hc with
    | inl hlt => exact Nat.ne_of_gt (Nat.lt_of_le_of_lt ((h.standing j).owned.bound d hd) hlt)
    | inr hold =>
        rcases hold with ⟨e, he, hid⟩
        rw [← hid]
        exact h.distinct i j (Ne.symm hj) e he d hd
  constructor
  · intro j
    by_cases hj : j = i
    · rw [hj, constraint_setConstraint_self]
      exact hstanding
    · rw [constraint_setConstraint_of_ne s hj]
      exact (h.standing j).mono hnumbering.le
  · intro j k hne c hc d hd
    by_cases hj : j = i
    · have hk : k ≠ i := fun heq => hne (hj.trans heq.symm)
      rw [hj, constraint_setConstraint_self] at hc
      rw [constraint_setConstraint_of_ne s hk] at hd
      exact hnew k hk c hc d hd
    · rw [constraint_setConstraint_of_ne s hj] at hc
      by_cases hk : k = i
      · rw [hk, constraint_setConstraint_self] at hd
        exact (hnew j hj d hd c hc).symm
      · rw [constraint_setConstraint_of_ne s hk] at hd
        exact h.distinct j k hne c hc d hd

theorem invariant_empty (w : World) : Invariant vcon RandObjs.empty w := by
  constructor
  · intro i
    exact Generator.standing_new w
  · intro i j _ c hc
    cases hc

theorem Invariant.setNew (h : Invariant vcon s w) (i : Nat) :
    Invariant vcon (s.setConstraint i Generator.new) w := by
  refine h.setConstraint ⟨Generator.standing_new w, Nat.le_refl _, ?_⟩
  intro c hc
  cases hc

/-!
## Rebuilding
-/

/-- A generator that was built for all constraints of a subtree; the rebuild may have thrown. -/
structure RebuiltFor (vcon : VariableContainer) (s : RandObjs) (i : Nat) (g : Generator)
    (w w' : World) (result : Except String Unit) : Prop where
  ready : Generator.Ready vcon g
  partitions : g.constr_pttn_.partitions_ = ConstraintPartitioner.partition (s.subtreeScalars i)
  constr_mng : g.constr_mng_ = (s.constraint i).constr_mng_.resetChanged
  covered : g.covered_ = false
  goals : forall q, q ∈ g.built.goals ->
    q.1 ∈ ConstraintPartitioner.partition (s.subtreeScalars i) ∧ q.2 = ∅
  scope : result = .ok () ->
    g.built = Scope.ofConstraints (s.subtreeScalars i) (s.subtreeVectors i)
  world : w' = { w with time := w'.time }

/-- Nothing is done, or the generator is built for all constraints of the subtree. -/
theorem rebuild_cases (hinv : Invariant vcon s w) {result : Except String Unit}
    (h : s.rebuild env vcon i w = (result, s', w')) :
    (s.rebuild_ i = false ∧ result = .ok () ∧ s' = s ∧ w' = w) ∨
      (s.rebuild_ i = true ∧ exists (g : Generator) (flags : Nat -> Bool),
        s' = { s.setConstraint i g with rebuild_ := flags } ∧
          RebuiltFor vcon s i g w w' result) := by
  unfold rebuild at h
  split at h
  · next hrequested =>
      apply Or.inr
      simp only [constraint_setConstraint_self] at h
      have hsame : forall j, ((s.setConstraint i
            (Generator.reset env vcon (s.constraint i))).constraint j).constr_mng_.constraints_ =
          (s.constraint j).constr_mng_.constraints_ := by
        intro j
        by_cases hj : j = i
        · rw [hj, constraint_setConstraint_self]
          rfl
        · rw [constraint_setConstraint_of_ne s hj]
      have hsubtree := @subtree_congr s
        (s.setConstraint i (Generator.reset env vcon (s.constraint i))) rfl hsame i
      have hgathering := gathering_gather_constraints
        (s.setConstraint i (Generator.reset env vcon (s.constraint i))) i
        (Generator.reset env vcon (s.constraint i))
      generalize (s.setConstraint i (Generator.reset env vcon (s.constraint i))).gather_constraints i
        (Generator.reset env vcon (s.constraint i)) = gen at h hgathering
      have hscalars := hgathering.scalars.trans hsubtree.left
      have hvectors := hgathering.vectors.trans hsubtree.right
      have hready : Generator.Ready vcon gen := by
        refine ((hinv.standing i).ready.setCoverage (Generator.separated_nil vcon)
          List.Forall₂.nil).congr ?_ ?_ ?_
        · rw [hgathering.var_gen]
          rfl
        · rw [hgathering.var_cov_gen]
          rfl
        · rw [hgathering.vec_gen]
          rfl
      have hnone : gen.var_cov_gen_.solvers_ = [] := by
        rw [hgathering.var_cov_gen]
        rfl
      have hrebuilt : forall {outcome g w₁},
          Generator.rebuild env vcon false gen w = (outcome, g, w₁) ->
            RebuiltFor vcon s i g w w₁ outcome := by
        intro outcome g w₁ hrebuild
        have hrebuilt := @Generator.rebuilt_rebuild env vcon _ _ gen g w w₁ false hready hnone
          hgathering.partitions hscalars hvectors (hinv.wellMade i) outcome hrebuild
        exact ⟨hrebuilt.ready, hrebuilt.partitions, hrebuilt.constr_mng.trans hgathering.constr_mng,
          hrebuilt.covered.trans hgathering.covered, hrebuilt.goals, hrebuilt.scope,
          hrebuilt.world⟩
      refine ⟨hrequested, ?_⟩
      split at h
      · next e g w₁ hrebuild =>
          cases h
          refine ⟨g, s.rebuild_, ?_, hrebuilt hrebuild⟩
          unfold setConstraint
          simp only [Function.update_idem]
      · next g w₁ hrebuild =>
          cases h
          refine ⟨g, Function.update s.rebuild_ i false, ?_, hrebuilt hrebuild⟩
          unfold setConstraint
          simp only [Function.update_idem]
  · next hrequested =>
      cases h
      exact Or.inl ⟨Bool.eq_false_iff.mpr hrequested, rfl, rfl, rfl⟩

theorem RebuiltFor.standing (hinv : Invariant vcon s w) {result : Except String Unit}
    (h : RebuiltFor vcon s i g w w' result) :
    Generator.Standing vcon g w' ∧ Generator.Numbering (s.constraint i) g w w' := by
  have hid : w'.constraint_ID = w.constraint_ID := by rw [h.world]
  constructor
  · constructor
    · rw [h.constr_mng]
      exact (hinv.standing i).owned.resetChanged.mono (Nat.le_of_eq hid.symm)
    · rw [h.partitions]
      exact (hinv.wellMade i).separated
    · exact h.ready
  · apply Generator.Numbering.of_same
    · rw [h.constr_mng]
      rfl
    · exact Nat.le_of_eq hid.symm

theorem invariant_rebuild (hinv : Invariant vcon s w) {result : Except String Unit}
    (h : s.rebuild env vcon i w = (result, s', w')) : Invariant vcon s' w' := by
  rcases rebuild_cases hinv h with ⟨_, _, rfl, rfl⟩ | ⟨_, g, flags, rfl, hg⟩
  · exact hinv
  · exact (hinv.setConstraint (hg.standing hinv)).congr rfl

end Invariant

/-!
## Operations
-/

/-- Objects are constructed, get children, are used through their public generator, and
are randomised. -/
inductive Operation where
  | rand_obj (parent : Option Nat)
  | add_base_child (i : Nat) (rb : RandBase)
  | constraint (i : Nat) (op : Generator.Operation)
  | enable_constraint (i : Nat) (name : String)
  | disable_constraint (i : Nat) (name : String)
  | next (i : Nat)
  | next_cov (i : Nat)

/-- Expressions are built by the context over the declared variables. -/
def Operation.Over (vcon : VariableContainer) : Operation -> Prop
  | .constraint _ op => op.Over vcon
  | _ => True

def perform (env : Environment) (vcon : VariableContainer) (s : RandObjs) (w : World) :
    Operation -> Except String Bool × RandObjs × World
  | .rand_obj parent => (.ok true, s.rand_obj parent, w)
  | .add_base_child i rb => (.ok true, s.add_base_child i rb, w)
  | .constraint i op => s.onConstraint i fun g => Generator.perform env vcon g w op
  | .enable_constraint i name =>
      (.ok (s.enable_constraint i name).1, (s.enable_constraint i name).2, w)
  | .disable_constraint i name =>
      (.ok (s.disable_constraint i name).1, (s.disable_constraint i name).2, w)
  | .next i => s.next env vcon i w
  | .next_cov i => s.next_cov env vcon i w

/-- Objects that were used in any way: the operations end normally or throw, and anything may
happen outside of them.  An exception of the vectors leaves their solvers with elements of the
call that was interrupted. -/
inductive Used (env : Environment) (vcon : VariableContainer) : RandObjs -> World -> Prop where
  | empty (w : World) : Used env vcon RandObjs.empty w
  | perform {s s' : RandObjs} {w w' : World} (before : Used env vcon s w) (op : Operation)
      (hover : op.Over vcon) (result : Except String Bool)
      (h : s.perform env vcon w op = (result, s', w')) : Used env vcon s' w'
  | interrupted {s : RandObjs} {w : World} (before : Used env vcon s w) (i : Nat)
      (vec_gen_ : VectorGenerator)
      (h : VectorGenerator.contents vec_gen_.vector_solvers_ =
        VectorGenerator.contents (s.constraint i).vec_gen_.vector_solvers_) :
      Used env vcon (s.setConstraint i { s.constraint i with vec_gen_ := vec_gen_ }) w
  | outside {s : RandObjs} {w w' : World} (before : Used env vcon s w)
      (h : w.constraint_ID ≤ w'.constraint_ID) : Used env vcon s w'

section Steps

variable {env : Environment} {vcon : VariableContainer} {s s' : RandObjs} {w w' : World}
  {i : Nat}

theorem onConstraint_eq {α : Type} {f : Generator -> Outcome α} {result : Except String α}
    (h : s.onConstraint i f = (result, s', w')) :
    exists g, f (s.constraint i) = (result, g, w') ∧ s' = s.setConstraint i g := by
  unfold onConstraint at h
  cases hf : f (s.constraint i) with
  | mk result₁ p =>
      rcases p with ⟨g, w₁⟩
      rw [hf] at h
      cases h
      exact ⟨g, rfl, rfl⟩

theorem constraint_rand_obj (s : RandObjs) (parent : Option Nat) :
    (s.rand_obj parent).constraint =
      (s.setConstraint s.tree.size Generator.new).constraint := by
  unfold rand_obj
  simp only
  split
  · rfl
  · split
    · rfl
    · rfl

theorem constraint_add_base_child (s : RandObjs) (i : Nat) (rb : RandBase) :
    (s.add_base_child i rb).constraint = s.constraint := by
  unfold add_base_child
  simp only
  split
  · rfl
  · rfl

theorem constraint_enable_constraint (s : RandObjs) (i : Nat) (name : String) :
    (s.enable_constraint i name).2.constraint =
      (s.setConstraint i ((s.constraint i).enableConstraint name).2).constraint := by
  unfold enable_constraint
  simp only
  split
  · rfl
  · rfl

theorem constraint_disable_constraint (s : RandObjs) (i : Nat) (name : String) :
    (s.disable_constraint i name).2.constraint =
      (s.setConstraint i ((s.constraint i).disableConstraint name).2).constraint := by
  unfold disable_constraint
  simp only
  split
  · rfl
  · rfl

/-- The steps of `next`: random values, a rebuild when it was requested, and the call of
the generator. -/
theorem next_cases {result : Bool} (h : s.next env vcon i w = (.ok result, s', w')) :
    exists w₁ s₁ w₂ g, Randomised (s.values i) w w₁ ∧
      s.rebuild env vcon i w₁ = (.ok (), s₁, w₂) ∧
      Generator.next env vcon (s₁.constraint i) w₂ = (.ok result, g, w') ∧
      s' = s₁.setConstraint i g := by
  rcases gen_base_children_spec env s i w with ⟨w₁, hgen, hrandomised⟩
  unfold next at h
  rw [hgen] at h
  simp only at h
  split at h
  · cases h
  · next s₁ w₂ hrebuild =>
      rcases onConstraint_eq h with ⟨g, hnext, hs'⟩
      exact ⟨w₁, s₁, w₂, g, hrandomised, hrebuild, hnext, hs'⟩

theorem next_cov_cases {result : Bool} (h : s.next_cov env vcon i w = (.ok result, s', w')) :
    exists w₁ s₁ w₂ g, Randomised (s.values i) w w₁ ∧
      s.rebuild env vcon i w₁ = (.ok (), s₁, w₂) ∧
      Generator.nextCov env vcon (s₁.constraint i) w₂ = (.ok result, g, w') ∧
      s' = s₁.setConstraint i g := by
  rcases gen_base_children_spec env s i w with ⟨w₁, hgen, hrandomised⟩
  unfold next_cov at h
  rw [hgen] at h
  simp only at h
  split at h
  · cases h
  · next s₁ w₂ hrebuild =>
      rcases onConstraint_eq h with ⟨g, hnext, hs'⟩
      exact ⟨w₁, s₁, w₂, g, hrandomised, hrebuild, hnext, hs'⟩

/-- Both randomising calls draw the children first and rebuild the generator next, and then
make the call of the generator. -/
theorem invariant_call (hinv : Invariant vcon s w) {w₁ : World}
    (hrandomised : Randomised (s.values i) w w₁) {call : World -> Generator -> Outcome Bool}
    (hcall : forall {g g' w w' result}, Generator.Standing vcon g w ->
      call w g = (result, g', w') ->
        Generator.Standing vcon g' w' ∧ Generator.Numbering g g' w w')
    {result : Except String Bool}
    (h : (match s.rebuild env vcon i w₁ with
      | (.error e, s, w) => (.error e, s, w)
      | (.ok (), s, w) => s.onConstraint i (call w)) = (result, s', w')) :
    Invariant vcon s' w' := by
  have hinv₁ := hinv.mono (Nat.le_of_eq hrandomised.constraint_ID.symm)
  split at h
  · next hrebuild =>
      cases h
      exact invariant_rebuild hinv₁ hrebuild
  · next s₁ w₂ hrebuild =>
      have hinv₂ := invariant_rebuild hinv₁ hrebuild
      rcases onConstraint_eq h with ⟨g, hg, rfl⟩
      exact hinv₂.setConstraint (hcall (hinv₂.standing i) hg)

theorem invariant_perform (hinv : Invariant vcon s w) {op : Operation} (hop : op.Over vcon)
    {result : Except String Bool} (h : s.perform env vcon w op = (result, s', w')) :
    Invariant vcon s' w' := by
  cases op with
  | rand_obj parent =>
      cases h
      exact (hinv.setNew s.tree.size).congr (constraint_rand_obj s parent)
  | add_base_child i rb =>
      cases h
      exact hinv.congr (constraint_add_base_child s i rb)
  | constraint i op =>
      have h' : s.onConstraint i (fun g => Generator.perform env vcon g w op) =
          (result, s', w') := h
      rcases onConstraint_eq h' with ⟨g, hperform, rfl⟩
      exact hinv.setConstraint (Generator.standing_perform (hinv.standing i) hop hperform)
  | enable_constraint i name =>
      cases h
      have hover : (Generator.Operation.enableConstraint name).Over vcon := trivial
      have hset := @Generator.standing_perform env vcon _ _ _ _ (hinv.standing i) _ hover _ rfl
      exact (hinv.setConstraint hset).congr (constraint_enable_constraint s i name)
  | disable_constraint i name =>
      cases h
      have hover : (Generator.Operation.disableConstraint name).Over vcon := trivial
      have hset := @Generator.standing_perform env vcon _ _ _ _ (hinv.standing i) _ hover _ rfl
      exact (hinv.setConstraint hset).congr (constraint_disable_constraint s i name)
  | next i =>
      rcases gen_base_children_spec env s i w with ⟨w₁, hgen, hrandomised⟩
      have h' : s.next env vcon i w = (result, s', w') := h
      unfold next at h'
      rw [hgen] at h'
      refine invariant_call hinv hrandomised ?_ h'
      intro g g' w w' result hstanding hnext
      have hover : Generator.Operation.next.Over vcon := trivial
      exact Generator.standing_perform hstanding hover hnext
  | next_cov i =>
      rcases gen_base_children_spec env s i w with ⟨w₁, hgen, hrandomised⟩
      have h' : s.next_cov env vcon i w = (result, s', w') := h
      unfold next_cov at h'
      rw [hgen] at h'
      refine invariant_call hinv hrandomised ?_ h'
      intro g g' w w' result hstanding hnext
      have hover : Generator.Operation.nextCov.Over vcon := trivial
      exact Generator.standing_perform hstanding hover hnext

theorem Used.invariant (h : Used env vcon s w) : Invariant vcon s w := by
  induction h with
  | empty w => exact invariant_empty w
  | perform _ op hover result h ih => exact invariant_perform ih hover h
  | interrupted _ i vec_gen_ h ih =>
      exact ih.setConstraint ⟨(ih.standing i).setVectors h,
        Generator.Numbering.of_same rfl (Nat.le_refl _)⟩
  | outside _ h ih => exact ih.mono h

/-!
## The solvers of a call
-/

/-- The solvers of the next call of an object: new ones for the subtree when a rebuild is
pending, and else those of its generator. -/
def scope (s : RandObjs) (i : Nat) : Scope :=
  if s.rebuild_ i then .ofConstraints (s.subtreeScalars i) (s.subtreeVectors i)
  else (s.constraint i).scope

theorem updated_of_rebuild {s₁ : RandObjs} {w₁ w₂ : World} {g₁ : Generator}
    (hinv : Invariant vcon s w₁) (hrebuild : s.rebuild env vcon i w₁ = (.ok (), s₁, w₂))
    (hupdate : Generator.update env vcon (s₁.constraint i) w₂ = (.ok (), g₁, w')) :
    Generator.Updated vcon (s.rebuild_ i || (s.constraint i).isChanged) (s.scope i)
      (s.constraint i) g₁ w₁ w' := by
  rcases rebuild_cases hinv hrebuild with
    ⟨hrequested, _, rfl, rfl⟩ | ⟨hrequested, g, flags, rfl, hg⟩
  · have hscope : s₁.scope i = (s₁.constraint i).scope := by
      rw [scope, hrequested]
      rfl
    rw [hrequested, Bool.false_or, hscope]
    exact Generator.updated_of_update (hinv.standing i) hupdate
  · have hscope : s.scope i =
        Scope.ofConstraints (s.subtreeScalars i) (s.subtreeVectors i) := by
      rw [scope, if_pos hrequested]
    have hunchanged : g.isChanged = false := by
      rw [Generator.isChanged, hg.constr_mng]
      rfl
    have hself : ({ s.setConstraint i g with rebuild_ := flags } : RandObjs).constraint i = g :=
      constraint_setConstraint_self s i g
    rw [hself] at hupdate
    unfold Generator.update at hupdate
    rw [if_neg (by rw [hunchanged]; exact Bool.false_ne_true)] at hupdate
    cases hupdate
    rw [hrequested, Bool.true_or, hscope]
    constructor
    · exact hg.ready
    · exact hg.scope rfl
    · exact hunchanged
    · intro hfalse
      cases hfalse
    · intro _
      exact hg.covered
    · rw [hg.world]
    · rw [hg.world]

end Steps

end RandObjs

end Frontend
end Crave
