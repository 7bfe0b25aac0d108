import Crave.Experimental.SequenceItemSoundness
import Crave.Frontend.Membership

/-!
# Default distributions

Every variable comes with a constraint that gives it the uniform distribution. An item
turns this constraint off when the container has a second distribution of the variable,
and the container keeps every distribution that was ever generated.
-/

namespace Crave
namespace Experimental
namespace Items

open Ir Backend Frontend

variable {t : ObjectTree} {vcon : VariableContainer} {list_ : Nat -> List Ir.Node} {s s' : Items}

/-!
## Distributions in constraints
-/

/-- What the constructors of the variables leave: the first child is the default
constraint, with the one distribution of `create_default_cstr`. The context makes a new
variable for each distribution, so it is in no other constraint. -/
structure Defaults (t : ObjectTree) (vcon : VariableContainer) (list_ : Nat -> List Ir.Node) where
  c_var_uniform : Nat -> Nat
  generated : Nat -> Context.Generated
  first : forall v x, t.kind v = .crv_var x ->
    (t.children_ v).head? = some (c_var_uniform v) ∧
      t.kind (c_var_uniform v) = .constraint false
  created : forall v x, t.kind v = .crv_var x ->
    list_ (c_var_uniform v) = [(generated v).formula] ∧
      exists d id e dist, generated v = Context.dist x d id e dist
  entered : forall v x, t.kind v = .crv_var x -> (generated v).dist_ref_to_var ∈ distRefs vcon
  own : forall v x, t.kind v = .crv_var x -> forall c n, n ∈ list_ c ->
    (generated v).dist_ref_to_var.1 ∈ n.supportVars -> c = c_var_uniform v

/-- One of the expressions of the constraint has `dist` of the variable inside. -/
def PutsDist (vcon : VariableContainer) (s : Items) (c x : Nat) : Prop :=
  exists d id e dist, (Context.dist x d id e dist).dist_ref_to_var ∈ distRefs vcon ∧
    exists n, n ∈ s.list_ c ∧ (Context.dist x d id e dist).formula ∈ n.subterms

/-- An active one of the constraints puts a distribution on the variable. -/
def Distributed (vcon : VariableContainer) (users : Nat -> Prop) (s : Items) (x : Nat) : Prop :=
  exists u, users u ∧ s.active_ u = true ∧ PutsDist vcon s u x

namespace Defaults

variable (d : Defaults t vcon list_)

/-- The container has no other distribution of the variable. -/
def Alone (v x : Nat) : Prop :=
  forall out_it, out_it ∈ distRefs vcon -> x = out_it.2 ->
    out_it = (d.generated v).dist_ref_to_var

/-- Active exactly when no active constraint of the users has a distribution. -/
def ExactlyWhenNeeded (users : Nat -> Prop) (s : Items) (v x : Nat) : Prop :=
  s.active_ (d.c_var_uniform v) = true ↔ ¬ Distributed vcon users s x

end Defaults

/-- The operations on the constraints and the items of a program. The constraints begin
active, with their expressions. -/
inductive Operated (t : ObjectTree) (vcon : VariableContainer) (list_ : Nat -> List Ir.Node) :
    Items -> Prop where
  | new : Operated t vcon list_ (new (fun _ => true) list_)
  | activate (i : Nat) {s : Items} (before : Operated t vcon list_ s) :
      Operated t vcon list_ (activate t i s)
  | deactivate (i : Nat) {s : Items} (before : Operated t vcon list_ s) :
      Operated t vcon list_ (deactivate t i s)
  | randomize (env : Environment) (i : Nat) {s s' : Items} {w w' : World}
      (result : Except String Bool) (before : Operated t vcon list_ s)
      (h : randomize t env vcon i s w = some (result, s', w')) : Operated t vcon list_ s'

theorem Operated.reached (h : Operated t vcon list_ s) : Reached t s := by
  induction h with
  | new => exact Reached.new _ _
  | activate i _ ih => exact ih.step (Step.activate i _)
  | deactivate i _ ih => exact ih.step (Step.deactivate i _)
  | randomize env i result _ h ih => exact ih.step (Step.randomize env vcon i result h)

/-!
## Changes of the constraints
-/

theorem active_activate (i : Nat) (s : Items) :
    (activate t i s).active_ = Function.update s.active_ i true := by
  unfold activate
  split
  · next hactive => rw [← hactive, Function.update_eq_self]
  · exact (requested_request_rebuild i _).active_

theorem active_deactivate (i : Nat) (s : Items) :
    (deactivate t i s).active_ = Function.update s.active_ i false := by
  unfold deactivate
  split
  · exact (requested_request_rebuild i _).active_
  · next hactive =>
      have hfalse : s.active_ i = false := by simpa using hactive
      rw [← hfalse, Function.update_eq_self]

theorem list_activate (i : Nat) (s : Items) : (activate t i s).list_ = s.list_ := by
  unfold activate
  split
  · rfl
  · exact (requested_request_rebuild i _).list_

theorem list_deactivate (i : Nat) (s : Items) : (deactivate t i s).list_ = s.list_ := by
  unfold deactivate
  split
  · exact (requested_request_rebuild i _).list_
  · rfl

/-- An item that is still built is above no constraint that was turned on. -/
theorem built_activate {i j : Nat} {cloned_ : Bool} (hkind : t.kind j = .sequence_item cloned_)
    (h : (activate t i s).built_ j = true) :
    s.built_ j = true ∧ (Below t j i -> s.active_ i = true) := by
  unfold activate at h
  split at h
  · next hactive => exact ⟨h, fun _ => hactive⟩
  · constructor
    · exact ((requested_request_rebuild i _).built_ j h).left
    · intro hbelow
      rw [built_request_rebuild hbelow hkind] at h
      cases h

/-!
## The check of the default constraints
-/

/-- The number of distributions of a variable in the container. -/
def distCount (vcon : VariableContainer) (x : Nat) : Nat :=
  (distRefs vcon).countP fun out_it => x = out_it.2

/-- The second distribution of the variable turns the default constraint off. -/
theorem crosscheckVariable_eq {v c : Nat} (hfirst : (t.children_ v).head? = some c)
    (hhard : t.kind c = .constraint false) (x : Nat) (dist : List (Nat × Nat)) (flag : Bool)
    (s : Items) :
    crosscheckVariable t v x dist flag s =
      some (if 2 ≤ flag.toNat + dist.countP (fun out_it => x = out_it.2) then deactivate t c s
        else s) := by
  induction dist generalizing flag with
  | nil =>
      cases flag with
      | false => rfl
      | true => rfl
  | cons out_it rest ih =>
      rw [crosscheckVariable, List.countP_cons]
      by_cases hx : x = out_it.2
      · rw [if_pos hx]
        cases flag with
        | false =>
            rw [if_neg Bool.false_ne_true, ih true, if_pos (decide_eq_true hx), Bool.toNat_true,
              Bool.toNat_false, Nat.zero_add, Nat.add_comm]
        | true =>
            have htwo : 2 ≤ true.toNat + (rest.countP (fun out_it => x = out_it.2) +
                if decide (x = out_it.2) = true then 1 else 0) := by
              rw [if_pos (decide_eq_true hx), Bool.toNat_true]
              omega
            rw [if_pos rfl, hfirst, if_pos htwo]
            exact if_pos hhard
      · have hother : ¬ decide (x = out_it.2) = true := by
          rw [decide_eq_true_iff]
          exact hx
        rw [if_neg hx, ih flag, if_neg hother, Nat.add_zero]

namespace Defaults

variable (d : Defaults t vcon list_)

/-- The default constraint of one of the variables that have another distribution. -/
def Overridden (objs : List Nat) (c : Nat) : Prop :=
  exists v, v ∈ objs ∧ exists x, t.kind v = .crv_var x ∧ 2 ≤ distCount vcon x ∧
    d.c_var_uniform v = c

/-- Between these states the overridden constraints were turned off, and nothing was
built. -/
structure Crosschecked (objs : List Nat) (s s' : Items) : Prop where
  list_ : s'.list_ = s.list_
  active_ : forall c, s'.active_ c = true ↔ s.active_ c = true ∧ ¬ d.Overridden objs c
  built_ : forall j, s'.built_ j = true -> s.built_ j = true

variable {d}

theorem overridden_cons {obj c : Nat} {rest : List Nat} : d.Overridden (obj :: rest) c ↔
    (exists x, t.kind obj = .crv_var x ∧ 2 ≤ distCount vcon x ∧ d.c_var_uniform obj = c) ∨
      d.Overridden rest c := by
  constructor
  · intro h
    rcases h with ⟨v, hv, hrest⟩
    cases List.mem_cons.mp hv with
    | inl hself =>
        rw [hself] at hrest
        exact Or.inl hrest
    | inr hv => exact Or.inr ⟨v, hv, hrest⟩
  · intro h
    cases h with
    | inl hself => exact ⟨obj, List.mem_cons_self, hself⟩
    | inr h =>
        rcases h with ⟨v, hv, hrest⟩
        exact ⟨v, List.mem_cons_of_mem obj hv, hrest⟩

variable (d)

theorem crosschecked_children (objs : List Nat) (s : Items) : exists s',
    crosscheckChildren t (distRefs vcon) objs s = some s' ∧ d.Crosschecked objs s s' := by
  induction objs generalizing s with
  | nil =>
      exists s
      constructor
      · rfl
      · constructor
        · rfl
        · intro c
          simp [Overridden]
        · intro j hj
          exact hj
  | cons obj rest ih =>
      rw [crosscheckChildren]
      cases hkind : t.kind obj with
      | crv_var x =>
          have hfirst := d.first obj x hkind
          have hcheck := crosscheckVariable_eq hfirst.left hfirst.right x (distRefs vcon) false s
          rw [Bool.toNat_false, Nat.zero_add] at hcheck
          change _ = some (if 2 ≤ distCount vcon x then _ else s) at hcheck
          simp only [hcheck, Option.bind_eq_bind, Option.bind_some]
          by_cases htwo : 2 ≤ distCount vcon x
          · rw [if_pos htwo]
            rcases ih (deactivate t (d.c_var_uniform obj) s) with ⟨s', hs', hrest⟩
            exists s'
            constructor
            · exact hs'
            · constructor
              · rw [hrest.list_, list_deactivate]
              · intro c
                rw [hrest.active_, active_deactivate, overridden_cons]
                by_cases hc : c = d.c_var_uniform obj
                · simp [hc, hkind, htwo]
                · simp [Function.update_of_ne hc, Ne.symm hc]
              · intro j hj
                exact built_deactivate (hrest.built_ j hj)
          · rw [if_neg htwo]
            rcases ih s with ⟨s', hs', hrest⟩
            exists s'
            constructor
            · exact hs'
            · constructor
              · exact hrest.list_
              · intro c
                rw [hrest.active_, overridden_cons]
                simp [hkind, htwo]
              · exact hrest.built_
      | _ =>
          rcases ih s with ⟨s', hs', hrest⟩
          exists s'
          constructor
          · exact hs'
          · constructor
            · exact hrest.list_
            · intro c
              rw [hrest.active_, overridden_cons]
              simp [hkind]
            · exact hrest.built_

/-!
## What holds in a run
-/

/-- Built items have turned off what they check. -/
def Settled (s : Items) : Prop :=
  forall i, s.built_ i = true -> forall c, d.Overridden (t.children_ i) c -> s.active_ c = false

variable {d}

/-- Whether the item is built or not, the check leaves the same constraints on. -/
theorem Settled.crosscheck (h : d.Settled s) (i : Nat) : exists s',
    crosscheck_constraints t vcon i s = some s' ∧ d.Crosschecked (t.children_ i) s s' := by
  unfold crosscheck_constraints
  split
  · next hbuilt =>
      exists s
      constructor
      · rfl
      · constructor
        · rfl
        · intro c
          constructor
          · intro hactive
            constructor
            · exact hactive
            · intro hover
              rw [h i hbuilt c hover] at hactive
              cases hactive
          · intro hactive
            exact hactive.left
        · intro j hj
          exact hj
  · rcases d.crosschecked_children (t.children_ i)
      { s with gen_ := Function.update s.gen_ i (some Generator.new) } with ⟨s', hs', hchecked⟩
    exact ⟨s', hs', hchecked.list_, hchecked.active_, hchecked.built_⟩

end Defaults

theorem kept_of_build {i : Nat} {w w' : World} {result : Except String Unit}
    (h : build t i s w = (result, s', w')) : s'.active_ = s.active_ ∧ s'.list_ = s.list_ ∧
      forall j, s'.built_ j = true -> s.built_ j = true ∨ j = i := by
  unfold build at h
  split at h
  · cases h
    exact ⟨rfl, rfl, fun j hj => Or.inl hj⟩
  · split at h
    · cases h
      exact ⟨rfl, rfl, fun j hj => Or.inl hj⟩
    · cases h
      constructor
      · rfl
      · constructor
        · rfl
        · intro j hj
          by_cases hji : j = i
          · exact Or.inr hji
          · simp only [Function.update_of_ne hji] at hj
            exact Or.inl hj

/-- After the check a call changes no constraint, and it builds only its item. -/
theorem kept_of_randomize {env : Environment} {i : Nat} {w w' : World}
    {result : Except String Bool}
    (h : randomize t env vcon i s w = some (result, s', w')) : exists s₁,
    crosscheck_constraints t vcon i s = some s₁ ∧ s'.active_ = s₁.active_ ∧
      s'.list_ = s₁.list_ ∧ forall j, s'.built_ j = true -> s₁.built_ j = true ∨ j = i := by
  rcases randomize_cases h with ⟨_, s₁, s₂, w₂, hcheck, hcases⟩
  refine ⟨s₁, hcheck, ?_⟩
  rcases hcases with ⟨what, hbuild, _, hs', _⟩ | ⟨hbuild, g, g', _, _, hs'⟩
  · rw [hs']
    exact kept_of_build hbuild
  · have hkept := kept_of_build hbuild
    rw [hs']
    exact hkept

/-- A call with a generator that never gets stuck: the check finds the default constraint
of every variable, and a built item has a generator. -/
theorem exists_randomize {d : Defaults t vcon list_} (hinv : Invariant t s) (h : d.Settled s)
    {i : Nat} (hkind : t.kind i = .sequence_item false) (env : Environment) (w : World) :
    exists result s' w', randomize t env vcon i s w = some (result, s', w') := by
  rcases h.crosscheck i with ⟨s₁, hcheck, _⟩
  unfold randomize
  rw [if_pos hkind]
  simp only [hcheck, Option.bind_eq_bind, Option.bind_some]
  cases hbuild : build t i s₁ w with
  | mk outcome pair =>
      cases outcome with
      | error what => exact ⟨_, _, _, rfl⟩
      | ok u =>
          have hbuilt := (hinv.crosscheck_constraints hcheck).build hkind hbuild
          rcases hbuilt.holds i (built_of_build hbuild) with ⟨g, hg, _⟩
          simp only [hg, Option.bind_some]
          exact ⟨_, _, _, rfl⟩

namespace Defaults

variable {d : Defaults t vcon list_}

/-- A default constraint that an item checks is below the item. -/
theorem below_of_overridden {i c : Nat} (h : d.Overridden (t.children_ i) c) : Below t i c := by
  rcases h with ⟨v, hv, x, hx, _, hc⟩
  have hchild : c ∈ t.children_ v := by
    rw [← hc]
    exact List.mem_of_mem_head? (d.first v x hx).left
  exact Relation.ReflTransGen.head ((t.linked i v).mp hv)
    (Relation.ReflTransGen.single ((t.linked v c).mp hchild))

theorem Settled.new : d.Settled (Items.new (fun _ => true) list_) := by
  intro i hi
  cases hi

theorem Settled.activate (h : d.Settled s) (hinv : Invariant t (activate t i s)) :
    d.Settled (activate t i s) := by
  intro j hj c hover
  rcases hinv.item j hj with ⟨cloned_, hkind⟩
  rcases built_activate hkind hj with ⟨hbuilt, hbelow⟩
  have hfalse := h j hbuilt c hover
  rw [active_activate]
  by_cases hc : c = i
  · -- the item would have been asked for a rebuild
    rw [hc] at hover hfalse
    rw [hbelow (below_of_overridden hover)] at hfalse
    cases hfalse
  · rw [Function.update_of_ne hc]
    exact hfalse

theorem Settled.deactivate (h : d.Settled s) (i : Nat) : d.Settled (deactivate t i s) := by
  intro j hj c hover
  rw [active_deactivate]
  by_cases hc : c = i
  · rw [hc]
    exact Function.update_self _ _ _
  · rw [Function.update_of_ne hc]
    exact h j (built_deactivate hj) c hover

theorem Settled.randomize_spec (h : d.Settled s) {env : Environment} {i : Nat} {w w' : World}
    {result : Except String Bool}
    (hrandomize : randomize t env vcon i s w = some (result, s', w')) :
    s'.list_ = s.list_ ∧
      (forall c, s'.active_ c = true ↔ s.active_ c = true ∧ ¬ d.Overridden (t.children_ i) c) ∧
      forall j, s'.built_ j = true -> s.built_ j = true ∨ j = i := by
  rcases kept_of_randomize hrandomize with ⟨s₁, hcheck, hactive, hlist, hbuilt⟩
  rcases h.crosscheck i with ⟨s₂, hcheck', hchecked⟩
  rw [hcheck] at hcheck'
  cases hcheck'
  constructor
  · rw [hlist, hchecked.list_]
  · constructor
    · intro c
      rw [hactive]
      exact hchecked.active_ c
    · intro j hj
      exact (hbuilt j hj).imp_left (hchecked.built_ j)

theorem Settled.randomize (h : d.Settled s) {env : Environment} {i : Nat} {w w' : World}
    {result : Except String Bool}
    (hrandomize : randomize t env vcon i s w = some (result, s', w')) :
    d.Settled s' := by
  rcases h.randomize_spec hrandomize with ⟨_, hactive, hbuilt⟩
  intro j hj c hover
  cases hc : s'.active_ c with
  | false => rfl
  | true =>
      have hboth := (hactive c).mp hc
      cases hbuilt j hj with
      | inl hold =>
          rw [h j hold c hover] at hboth
          cases hboth.left
      | inr hself =>
          rw [hself] at hover
          exact absurd hover hboth.right

end Defaults

theorem Operated.settled (d : Defaults t vcon list_) (h : Operated t vcon list_ s) :
    d.Settled s := by
  induction h with
  | new => exact Defaults.Settled.new
  | activate i before ih => exact ih.activate (before.activate i).reached.invariant
  | deactivate i _ ih => exact ih.deactivate i
  | randomize env i result _ h ih => exact ih.randomize h

theorem Operated.lists (d : Defaults t vcon list_) (h : Operated t vcon list_ s) :
    s.list_ = list_ := by
  induction h with
  | new => rfl
  | activate i _ ih => rw [list_activate, ih]
  | deactivate i _ ih => rw [list_deactivate, ih]
  | randomize env i result before h ih => rw [((before.settled d).randomize_spec h).left, ih]

/-!
## When the default constraint is active
-/

theorem distRefs_nodup (vcon : VariableContainer) : (distRefs vcon).Nodup := by
  have hids : (vcon.dist_references.map Prod.fst).Nodup :=
    (List.nodup_append.mp vcon.ids_nodup).right.left
  have hmap : ((distRefs vcon).map Prod.fst).Sublist (vcon.dist_references.map Prod.fst) := by
    unfold distRefs
    induction vcon.dist_references with
    | nil => exact List.Sublist.refl _
    | cons pair rest ih =>
        rw [List.filterMap_cons, List.map_cons]
        cases vcon.dist_ref_to_var_map pair.1 with
        | none => exact ih.cons _
        | some x => exact ih.cons_cons _
  exact List.Nodup.of_map Prod.fst (hids.sublist hmap)

theorem mem_subterms_trans {u n m : Ir.Node} (hu : u ∈ n.subterms) (hn : n ∈ m.subterms) :
    u ∈ m.subterms := by
  induction m with
  | placeholder id => rwa [List.mem_singleton.mp hn] at hu
  | variableExpr id bitsize sign => rwa [List.mem_singleton.mp hn] at hu
  | constant c => rwa [List.mem_singleton.mp hn] at hu
  | vectorExpr id bitsize sign => rwa [List.mem_singleton.mp hn] at hu
  | unaryOpr op child ih =>
      cases List.mem_cons.mp hn with
      | inl hself => rwa [hself] at hu
      | inr hchild => exact List.mem_cons_of_mem _ (ih hchild)
  | inside child collection ih =>
      cases List.mem_cons.mp hn with
      | inl hself => rwa [hself] at hu
      | inr hchild => exact List.mem_cons_of_mem _ (ih hchild)
  | extendExpr child value ih =>
      cases List.mem_cons.mp hn with
      | inl hself => rwa [hself] at hu
      | inr hchild => exact List.mem_cons_of_mem _ (ih hchild)
  | binaryOpr op lhs rhs ihl ihr =>
      cases List.mem_cons.mp hn with
      | inl hself => rwa [hself] at hu
      | inr hpart =>
          exact List.mem_cons_of_mem _
            (List.mem_append.mpr ((List.mem_append.mp hpart).imp ihl ihr))
  | vectorAccess lhs rhs ihl ihr =>
      cases List.mem_cons.mp hn with
      | inl hself => rwa [hself] at hu
      | inr hpart =>
          exact List.mem_cons_of_mem _
            (List.mem_append.mpr ((List.mem_append.mp hpart).imp ihl ihr))
  | ifThenElse a b c iha ihb ihc =>
      cases List.mem_cons.mp hn with
      | inl hself => rwa [hself] at hu
      | inr hpart =>
          simp only [List.mem_append] at hpart
          apply List.mem_cons_of_mem
          simp only [List.mem_append]
          exact hpart.imp (Or.imp iha ihb) ihc
  | forEach lhs rhs ihl ihr =>
      cases List.mem_cons.mp hn with
      | inl hself => rwa [hself] at hu
      | inr hpart =>
          exact List.mem_cons_of_mem _
            (List.mem_append.mpr ((List.mem_append.mp hpart).imp ihl ihr))
  | unique child ih =>
      cases List.mem_cons.mp hn with
      | inl hself => rwa [hself] at hu
      | inr hchild => exact List.mem_cons_of_mem _ (ih hchild)
  | bitslice child r l ih =>
      cases List.mem_cons.mp hn with
      | inl hself => rwa [hself] at hu
      | inr hchild => exact List.mem_cons_of_mem _ (ih hchild)

/-- The variable of a distribution is in the support of every expression around it. -/
theorem mem_supportVars_dist {x id : Nat} {d e : VarDecl} {dist : Distribution} {n : Ir.Node}
    (h : (Context.dist x d id e dist).formula ∈ n.subterms) : id ∈ n.supportVars := by
  have hequal : Ir.Node.variableExpr id e.bitsize e.sign ∈
      (Ir.Node.binaryOpr .equalOpr (.variableExpr x d.bitsize d.sign)
        (.variableExpr id e.bitsize e.sign)).subterms := by
    simp [Node.subterms]
  have hformula : Ir.Node.variableExpr id e.bitsize e.sign ∈
      (Context.dist x d id e dist).formula.subterms := by
    unfold Context.dist
    simp only
    cases Context.in_ranges id e dist.ranges_ with
    | none => exact hequal
    | some formula => exact List.mem_cons_of_mem _ (List.mem_append_left _ hequal)
  exact Node.mem_supportVars (mem_subterms_trans hformula h)

namespace Defaults

variable {d : Defaults t vcon list_} {v x : Nat}

theorem two_le_distCount (hx : t.kind v = .crv_var x) :
    2 ≤ distCount vcon x ↔ ¬ d.Alone v x := by
  have hown : (d.generated v).dist_ref_to_var ∈ distRefs vcon := d.entered v x hx
  have hvar : x = (d.generated v).dist_ref_to_var.2 := by
    rcases (d.created v x hx).right with ⟨decl, id, e, dist, hdist⟩
    rw [hdist]
    rfl
  have herase := List.perm_cons_erase hown
  have hcount : distCount vcon x =
      ((distRefs vcon).erase (d.generated v).dist_ref_to_var).countP
        (fun out_it => x = out_it.2) + 1 := by
    unfold distCount
    rw [herase.countP_eq, List.countP_cons]
    simp [← hvar]
  rw [hcount]
  constructor
  · intro htwo halone
    have hpos := List.countP_pos_iff.mp (by omega :
      0 < ((distRefs vcon).erase (d.generated v).dist_ref_to_var).countP
        (fun out_it => x = out_it.2))
    rcases hpos with ⟨out_it, hmem, hvar'⟩
    rw [(distRefs_nodup vcon).mem_erase_iff] at hmem
    exact hmem.left (halone out_it hmem.right (of_decide_eq_true hvar'))
  · intro halone
    unfold Alone at halone
    push Not at halone
    rcases halone with ⟨out_it, hmem, hvar', hne⟩
    have hpos : 0 < ((distRefs vcon).erase (d.generated v).dist_ref_to_var).countP
        (fun out_it => x = out_it.2) := by
      apply List.countP_pos_iff.mpr
      exact ⟨out_it, (distRefs_nodup vcon).mem_erase_iff.mpr ⟨hne, hmem⟩, decide_eq_true hvar'⟩
    omega

theorem overridden_uniform {i : Nat} (hv : v ∈ t.children_ i) (hx : t.kind v = .crv_var x) :
    d.Overridden (t.children_ i) (d.c_var_uniform v) ↔ ¬ d.Alone v x := by
  rw [← two_le_distCount hx]
  constructor
  · intro h
    rcases h with ⟨v', _, x', hx', htwo, hc⟩
    have hchild := List.mem_of_mem_head? (d.first v x hx).left
    have hchild' := List.mem_of_mem_head? (d.first v' x' hx').left
    rw [hc] at hchild'
    have hparent := (t.linked v _).mp hchild
    rw [(t.linked v' _).mp hchild'] at hparent
    cases hparent
    rw [hx] at hx'
    cases hx'
    exact htwo
  · intro htwo
    exact ⟨v, hv, x, hx, htwo, rfl⟩

theorem not_alone_of_putsDist {c : Nat} (hx : t.kind v = .crv_var x) (hlist : s.list_ = list_)
    (hc : c ≠ d.c_var_uniform v) (h : PutsDist vcon s c x) : ¬ d.Alone v x := by
  intro halone
  rcases h with ⟨decl, id, e, dist, hentered, n, hn, hformula⟩
  have hsame := halone _ hentered rfl
  rw [hlist] at hn
  apply hc
  apply d.own v x hx c n hn
  rw [← hsame]
  exact mem_supportVars_dist hformula

end Defaults

/-- In every run, at each call of `randomize`: the default constraint of a variable of the
item is active exactly when it is needed if and only if the variable has no other distribution
and its default constraint was not turned off, or an active constraint puts a distribution
on it. -/
theorem default_active_iff (d : Defaults t vcon list_) {users : Nat -> Prop}
    (husers : forall u, users u -> forall v x, t.kind v = .crv_var x -> u ≠ d.c_var_uniform v)
    (h : Operated t vcon list_ s) {env : Environment} {i : Nat} {w w' : World}
    {result : Except String Bool} (hrandomize : randomize t env vcon i s w = some (result, s', w'))
    {v x : Nat} (hv : v ∈ t.children_ i) (hx : t.kind v = .crv_var x) :
    d.ExactlyWhenNeeded users s' v x ↔
      d.Alone v x ∧ s.active_ (d.c_var_uniform v) = true ∨ Distributed vcon users s x := by
  rcases (h.settled d).randomize_spec hrandomize with ⟨hlist, hactive, _⟩
  have hlists := h.lists d
  have hdistributed : Distributed vcon users s' x ↔ Distributed vcon users s x := by
    unfold Distributed PutsDist
    rw [hlist]
    apply exists_congr
    intro u
    apply and_congr_right
    intro hu
    rw [hactive u]
    have hkept : ¬ d.Overridden (t.children_ i) u := by
      intro hover
      rcases hover with ⟨v', _, x', hx', _, hc⟩
      exact husers u hu v' x' hx' hc.symm
    simp [hkept]
  have hother : Distributed vcon users s x -> ¬ d.Alone v x := by
    intro hdist
    rcases hdist with ⟨u, hu, _, hputs⟩
    exact Defaults.not_alone_of_putsDist hx hlists (husers u hu v x hx) hputs
  unfold Defaults.ExactlyWhenNeeded
  rw [hactive, hdistributed, Defaults.overridden_uniform hv hx, not_not]
  constructor
  · intro hiff
    by_cases hdist : Distributed vcon users s x
    · exact Or.inr hdist
    · exact Or.inl (hiff.mpr hdist).symm
  · intro hcond
    constructor
    · intro hactive hdist
      exact hother hdist hactive.right
    · intro hdist
      cases hcond with
      | inl halone => exact halone.symm
      | inr hsome => exact absurd hsome hdist

/-!
### A user distribution that is turned off
-/

/-- An item with a variable, which has its default constraint, and a constraint of the user. -/
def variableTree : ObjectTree where
  parent_ := fun i => if i = 2 ∨ i = 4 then some 1 else if i = 3 then some 2 else none
  children_ := fun i => if i = 1 then [2, 4] else if i = 2 then [3] else []
  fullname_ := fun i =>
    if i = 1 then "item" else if i = 2 then "item.x" else if i = 3 then "item.x.hard_cstr"
    else "item.c"
  kind := fun i =>
    if i = 1 then .sequence_item false
    else if i = 2 then .crv_var 1
    else if i = 3 ∨ i = 4 then .constraint false
    else .object
  size := 5
  linked := linked_fork
  nodup := nodup_fork
  older := older_fork

/-- The variable is 1; the variables 2 and 3 belong to the distributions. -/
def variableContainer : VariableContainer where
  variables_ := fun id => if id = 1 ∨ id = 2 ∨ id = 3 then some ⟨8, false⟩ else none
  vector_variables := fun _ => none
  read_references := []
  write_references := [(1, 1)]
  dist_references := [(2, fun _ => 0), (3, fun _ => 7)]
  dist_ref_to_var_map := fun id => if id = 2 ∨ id = 3 then some 1 else none
  supported := by
    intro id d hd
    split at hd
    · cases hd
      decide
    · cases hd
  declared := by
    intro id hid
    have hmem : id = 1 ∨ id = 2 ∨ id = 3 := by simpa using hid
    exact ⟨⟨8, false⟩, if_pos hmem⟩
  ids_nodup := by decide
  locations_nodup := by decide

def uniformByte : Context.Generated :=
  Context.dist 1 ⟨8, false⟩ 2 ⟨8, false⟩ ⟨[WeightedRange.weighted_range 0 255 256]⟩

def distSeven : Context.Generated :=
  Context.dist 1 ⟨8, false⟩ 3 ⟨8, false⟩ ⟨[WeightedRange.weighted_range 7 7 1]⟩

def variableLists (i : Nat) : List Ir.Node :=
  if i = 3 then [uniformByte.formula] else if i = 4 then [distSeven.formula] else []

theorem kind_variableTree {v x : Nat} (h : variableTree.kind v = .crv_var x) : v = 2 ∧ x = 1 := by
  change (if v = 1 then Kind.sequence_item false else if v = 2 then .crv_var 1
    else if v = 3 ∨ v = 4 then .constraint false else .object) = _ at h
  grind

def variableDefaults : Defaults variableTree variableContainer variableLists where
  c_var_uniform := fun _ => 3
  generated := fun _ => uniformByte
  first := by
    intro v x hx
    rw [(kind_variableTree hx).left]
    decide
  created := by
    intro v x hx
    rw [(kind_variableTree hx).right]
    exact ⟨rfl, ⟨8, false⟩, 2, ⟨8, false⟩, _, rfl⟩
  entered := by
    intro v x _
    decide
  own := by
    intro v x _ c n hn hid
    by_cases hc : c = 3
    · exact hc
    · unfold variableLists at hn
      rw [if_neg hc] at hn
      split at hn
      · rw [List.mem_singleton.mp hn] at hid
        exact absurd hid (by decide)
      · cases hn

theorem putsDist_seven (h : s.list_ = variableLists) : PutsDist variableContainer s 4 1 := by
  refine ⟨⟨8, false⟩, 3, ⟨8, false⟩, ⟨[WeightedRange.weighted_range 7 7 1]⟩, by decide,
    distSeven.formula, ?_, Node.self_mem_subterms _⟩
  rw [h]
  exact List.mem_singleton_self _

theorem user_ne_default : forall u, u = 4 -> forall v x, variableTree.kind v = .crv_var x ->
    u ≠ variableDefaults.c_var_uniform v := by
  intro u hu v x _
  rw [hu]
  show 4 ≠ 3
  decide

/-- The only constraint of the user is turned off, but its distribution is still in the
container: nothing but the ranges of the type is left, and the default is off too. -/
theorem default_stays_off :
    ¬ forall (t : ObjectTree) (vcon : VariableContainer) (list_ : Nat -> List Ir.Node)
      (d : Defaults t vcon list_) (users : Nat -> Prop),
      (forall u, users u -> forall v x, t.kind v = .crv_var x -> u ≠ d.c_var_uniform v) ->
      forall s, Operated t vcon list_ s ->
      forall (env : Environment) (i : Nat) (w : World) (result : Except String Bool)
        (s' : Items) (w' : World), randomize t env vcon i s w = some (result, s', w') ->
      forall v x, v ∈ t.children_ i -> t.kind v = .crv_var x ->
        d.ExactlyWhenNeeded users s' v x := by
  intro h
  let w : World :=
    { memory := fun _ => 0, vectors := fun _ => [], time := 0, var_ID := 3, constraint_ID := 0 }
  have hnew : Operated variableTree variableContainer variableLists
      (Items.new (fun _ => true) variableLists) := Operated.new
  have hoff := hnew.deactivate 4
  have hsettled := hoff.settled variableDefaults
  have hrandomize := exists_randomize hoff.reached.invariant hsettled
    (show variableTree.kind 1 = .sequence_item false from rfl) Generator.envZero w
  rcases hrandomize with ⟨result, s', w', hrandomize⟩
  have hexactly := h variableTree variableContainer variableLists variableDefaults (fun u => u = 4)
    user_ne_default _ hoff Generator.envZero 1 w result s' w' hrandomize 2 1 (by decide) rfl
  rcases hsettled.randomize_spec hrandomize with ⟨_, hactive, _⟩
  -- no constraint of the user is active
  have hnone : ¬ Distributed variableContainer (fun u => u = 4) s' 1 := by
    intro hdist
    rcases hdist with ⟨u, rfl, hu, _⟩
    have hfour := ((hactive 4).mp hu).left
    rw [active_deactivate, Function.update_self] at hfour
    cases hfour
  have hover : variableDefaults.Overridden (variableTree.children_ 1) 3 := by
    have halone : ¬ variableDefaults.Alone 2 1 :=
      Defaults.not_alone_of_putsDist rfl (hnew.lists variableDefaults)
        (user_ne_default 4 rfl 2 1 rfl) (putsDist_seven (hnew.lists variableDefaults))
    have hvariable : 2 ∈ variableTree.children_ 1 := by decide
    exact (Defaults.overridden_uniform hvariable rfl).mpr halone
  exact ((hactive 3).mp (hexactly.mpr hnone)).right hover

theorem default_active_seven : exists result s' w',
    randomize variableTree Generator.envZero variableContainer 1
      (Items.new (fun _ => true) variableLists)
      { memory := fun _ => 0, vectors := fun _ => [], time := 0, var_ID := 3, constraint_ID := 0 } =
        some (result, s', w') ∧
      variableDefaults.ExactlyWhenNeeded (fun u => u = 4) s' 2 1 := by
  have hnew : Operated variableTree variableContainer variableLists
      (Items.new (fun _ => true) variableLists) := Operated.new
  have hrandomize := exists_randomize hnew.reached.invariant (hnew.settled variableDefaults)
    (show variableTree.kind 1 = .sequence_item false from rfl) Generator.envZero
    { memory := fun _ => 0, vectors := fun _ => [], time := 0, var_ID := 3, constraint_ID := 0 }
  rcases hrandomize with ⟨result, s', w', hrandomize⟩
  refine ⟨result, s', w', hrandomize, ?_⟩
  apply (default_active_iff variableDefaults user_ne_default hnew hrandomize (by decide) rfl).mpr
  exact Or.inr ⟨4, rfl, rfl, putsDist_seven rfl⟩

end Items
end Experimental
end Crave
