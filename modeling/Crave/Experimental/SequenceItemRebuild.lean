import Crave.Experimental.SequenceItemBuild

/-!
# Rebuilds of sequence items

A change of a constraint reaches every item above it. So an item that still counts
as built has nothing changed below it, in every order of changes and calls.
-/

namespace Crave
namespace Experimental
namespace Items

open Ir Backend

variable {t : ObjectTree} {s s' : Items}

/-!
## Requests
-/

def giveUp (t : ObjectTree) (i : Nat) (s : Items) : Items :=
  match t.kind i with
  | .sequence_item _ =>
      { s with
        built_ := Function.update s.built_ i false
        gen_ := Function.update s.gen_ i none }
  | _ => s

theorem request_rebuild_of_none {i : Nat} (h : t.parent_ i = none) (s : Items) :
    request_rebuild t i s = giveUp t i s := by
  rw [request_rebuild]
  split
  · next p hp =>
      rw [h] at hp
      cases hp
  · rfl

theorem request_rebuild_of_some {i p : Nat} (h : t.parent_ i = some p) (s : Items) :
    request_rebuild t i s = request_rebuild t p (giveUp t i s) := by
  rw [request_rebuild]
  split
  · next q hq =>
      rw [h] at hq
      cases hq
      rfl
  · next hnone =>
      rw [h] at hnone
      cases hnone

/-- Nothing but `built_` and `gen_` changes, and an item that is built still has its
generator. -/
structure Requested (s s' : Items) : Prop where
  active_ : s'.active_ = s.active_
  list_ : s'.list_ = s.list_
  built_ : forall i, s'.built_ i = true -> s.built_ i = true ∧ s'.gen_ i = s.gen_ i

theorem Requested.refl (s : Items) : Requested s s :=
  ⟨rfl, rfl, fun _ h => ⟨h, rfl⟩⟩

theorem Requested.trans {s₁ s₂ s₃ : Items} (h : Requested s₁ s₂) (h' : Requested s₂ s₃) :
    Requested s₁ s₃ := by
  refine ⟨h'.active_.trans h.active_, h'.list_.trans h.list_, ?_⟩
  intro i hi
  have h₂ := h'.built_ i hi
  have h₁ := h.built_ i h₂.left
  exact ⟨h₁.left, h₂.right.trans h₁.right⟩

theorem requested_giveUp (i : Nat) (s : Items) : Requested s (giveUp t i s) := by
  unfold giveUp
  split
  · refine ⟨rfl, rfl, ?_⟩
    intro j hj
    by_cases hji : j = i
    · rw [hji] at hj
      simp at hj
    · have hold : s.built_ j = true := by simpa [Function.update_of_ne hji] using hj
      exact ⟨hold, Function.update_of_ne hji _ _⟩
  · exact Requested.refl s

theorem requested_request_rebuild (i : Nat) (s : Items) :
    Requested s (request_rebuild t i s) := by
  induction i using Nat.strong_induction_on generalizing s with
  | _ i ih =>
      cases hp : t.parent_ i with
      | none =>
          rw [request_rebuild_of_none hp]
          exact requested_giveUp i s
      | some p =>
          rw [request_rebuild_of_some hp]
          exact (requested_giveUp i s).trans (ih p (t.older p i hp).left (giveUp t i s))

theorem built_deactivate {i j : Nat} (h : (deactivate t i s).built_ j = true) :
    s.built_ j = true := by
  unfold deactivate at h
  split at h
  · exact ((requested_request_rebuild i _).built_ j h).left
  · exact h

theorem built_request_rebuild {i j : Nat} {cloned_ : Bool} (h : Below t j i)
    (hj : t.kind j = .sequence_item cloned_) (s : Items) :
    (request_rebuild t i s).built_ j = false := by
  have hself : forall s, (giveUp t j s).built_ j = false := by
    intro s
    rw [giveUp, hj]
    exact Function.update_self _ _ _
  induction h generalizing s with
  | refl =>
      cases hbuilt : (request_rebuild t j s).built_ j with
      | false => rfl
      | true =>
          cases hp : t.parent_ j with
          | none =>
              rw [request_rebuild_of_none hp, hself] at hbuilt
              cases hbuilt
          | some p =>
              rw [request_rebuild_of_some hp] at hbuilt
              have hkept := (requested_request_rebuild p (giveUp t j s)).built_ j hbuilt
              rw [hself] at hkept
              cases hkept.left
  | tail _ hp ih =>
      rw [request_rebuild_of_some hp]
      exact ih _

/-!
## The invariant
-/

structure Invariant (t : ObjectTree) (s : Items) : Prop where
  item : forall i, s.built_ i = true -> exists cloned_, t.kind i = .sequence_item cloned_
  holds : forall i, s.built_ i = true ->
    exists g, s.gen_ i = some g ∧ HoldsExactly t s (Reaches t i) g

theorem Invariant.new (active_ : Nat -> Bool) (list_ : Nat -> List Ir.Node) :
    Invariant t (new active_ list_) := by
  constructor
  · intro i hi
    cases hi
  · intro i hi
    cases hi

theorem expresses_congr {j : Nat} {name : String} {soft : Bool} {e : Ir.Node}
    (hactive : s'.active_ j = s.active_ j) (hlist : s'.list_ j = s.list_ j) :
    Expresses t s' j name soft e ↔ Expresses t s j name soft e := by
  rw [Expresses, Expresses, hactive, hlist]

theorem HoldsExactly.congr {among : Nat -> Prop} {g : Generator} (h : HoldsExactly t s among g)
    (hsame : forall j, among j -> s'.active_ j = s.active_ j ∧ s'.list_ j = s.list_ j) :
    HoldsExactly t s' among g := by
  refine ⟨h.left, h.right.congr ?_⟩
  intro name soft e
  constructor
  · intro hP
    rcases hP with ⟨j, hj, hexpresses⟩
    exact ⟨j, hj, (expresses_congr (hsame j hj).left (hsame j hj).right).mpr hexpresses⟩
  · intro hP
    rcases hP with ⟨j, hj, hexpresses⟩
    exact ⟨j, hj, (expresses_congr (hsame j hj).left (hsame j hj).right).mp hexpresses⟩

/-- The one constraint that changed asks for a rebuild: an item that is still built
does not reach it. -/
theorem Invariant.request_rebuild (h : Invariant t s) {i : Nat}
    (hbuilt : s'.built_ = s.built_) (hgen : s'.gen_ = s.gen_)
    (hactive : forall j, j ≠ i -> s'.active_ j = s.active_ j)
    (hlist : forall j, j ≠ i -> s'.list_ j = s.list_ j) :
    Invariant t (request_rebuild t i s') := by
  have hrequested : Requested s' (Items.request_rebuild t i s') := requested_request_rebuild i s'
  have hkept : forall j, (Items.request_rebuild t i s').built_ j = true -> s.built_ j = true := by
    intro j hj
    rw [← hbuilt]
    exact (hrequested.built_ j hj).left
  constructor
  · intro j hj
    exact h.item j (hkept j hj)
  · intro j hj
    rcases h.holds j (hkept j hj) with ⟨g, hg, hholds⟩
    refine ⟨g, ?_, hholds.congr ?_⟩
    · rw [(hrequested.built_ j hj).right, hgen, hg]
    · intro k hk
      have hne : k ≠ i := by
        intro hki
        rw [hki] at hk
        rcases h.item j (hkept j hj) with ⟨cloned_, hkind⟩
        rw [built_request_rebuild (below_of_reaches hk) hkind] at hj
        cases hj
      rw [hrequested.active_, hrequested.list_]
      exact ⟨hactive k hne, hlist k hne⟩

theorem Invariant.activate (h : Invariant t s) (i : Nat) : Invariant t (activate t i s) := by
  unfold Items.activate
  split
  · exact h
  · exact h.request_rebuild rfl rfl (fun _ hj => Function.update_of_ne hj _ _) (fun _ _ => rfl)

theorem Invariant.deactivate (h : Invariant t s) (i : Nat) : Invariant t (deactivate t i s) := by
  unfold Items.deactivate
  split
  · exact h.request_rebuild rfl rfl (fun _ hj => Function.update_of_ne hj _ _) (fun _ _ => rfl)
  · exact h

theorem Invariant.assign (h : Invariant t s) (i : Nat) (other : List Ir.Node) :
    Invariant t (assign t i other s) :=
  h.request_rebuild rfl rfl (fun _ _ => rfl) (fun _ hj => Function.update_of_ne hj _ _)

theorem Invariant.join (h : Invariant t s) (i : Nat) (other : List Ir.Node) :
    Invariant t (join t i other s) :=
  h.request_rebuild rfl rfl (fun _ _ => rfl) (fun _ hj => Function.update_of_ne hj _ _)

/-!
## Randomizing
-/

theorem Invariant.setGen (h : Invariant t s) {i : Nat} (hbuilt : s.built_ i = false)
    (g : Option Generator) : Invariant t { s with gen_ := Function.update s.gen_ i g } := by
  refine ⟨h.item, ?_⟩
  intro j hj
  have hji : j ≠ i := by
    intro hji
    rw [hji] at hj
    exact absurd (hbuilt.symm.trans hj) (by simp)
  rcases h.holds j hj with ⟨g', hg', hholds⟩
  exact ⟨g', by simp only [Function.update_of_ne hji, hg'], hholds⟩

/-- Nothing happens to the constraints of a variable but that they are deactivated. -/
theorem of_crosscheckVariable {P : Items -> Prop} (hP : forall i s, P s -> P (deactivate t i s))
    {local_var id : Nat} {dist : List (Nat × Nat)} {flag : Bool} (h : P s)
    (hcheck : crosscheckVariable t local_var id dist flag s = some s') : P s' := by
  induction dist generalizing flag with
  | nil =>
      cases hcheck
      exact h
  | cons out_it rest ih =>
      rw [crosscheckVariable] at hcheck
      split at hcheck
      · split at hcheck
        · split at hcheck
          · cases hcheck
          · split at hcheck
            · cases hcheck
              exact hP _ s h
            · exact ih hcheck
        · exact ih hcheck
      · exact ih hcheck

theorem of_crosscheckChildren {P : Items -> Prop} (hP : forall i s, P s -> P (deactivate t i s))
    {dist : List (Nat × Nat)} {objs : List Nat} (h : P s)
    (hcheck : crosscheckChildren t dist objs s = some s') : P s' := by
  induction objs generalizing s with
  | nil =>
      cases hcheck
      exact h
  | cons obj rest ih =>
      rw [crosscheckChildren] at hcheck
      split at hcheck
      · rcases Option.bind_eq_some_iff.mp hcheck with ⟨s₁, hvariable, hcheck⟩
        exact ih (of_crosscheckVariable hP h hvariable) hcheck
      · exact ih h hcheck

/-- What a new generator and deactivated constraints keep, the check keeps. -/
theorem of_crosscheck_constraints {P : Items -> Prop}
    (hP : forall i s, P s -> P (deactivate t i s)) {vcon : VariableContainer} {i : Nat}
    (hgen : s.built_ i = false ->
      P { s with gen_ := Function.update s.gen_ i (some Generator.new) })
    (h : P s) (hcheck : crosscheck_constraints t vcon i s = some s') : P s' := by
  unfold crosscheck_constraints at hcheck
  split at hcheck
  · cases hcheck
    exact h
  · next hbuilt => exact of_crosscheckChildren hP (hgen (by simpa using hbuilt)) hcheck

theorem Invariant.crosscheck_constraints (h : Invariant t s) {vcon : VariableContainer} {i : Nat}
    (hcheck : crosscheck_constraints t vcon i s = some s') : Invariant t s' :=
  of_crosscheck_constraints (fun i _ hs => hs.deactivate i) (fun hbuilt => h.setGen hbuilt _) h
    hcheck

theorem built_of_build {i : Nat} {w w' : World} (h : build t i s w = (.ok (), s', w')) :
    s'.built_ i = true := by
  unfold Items.build at h
  split at h
  · next hbuilt =>
      cases h
      exact hbuilt
  · split at h
    · cases h
    · cases h
      exact Function.update_self _ _ _

theorem Invariant.build (h : Invariant t s) {i : Nat} {cloned_ : Bool}
    (hkind : t.kind i = .sequence_item cloned_) {w w' : World} {result : Except String Unit}
    (hbuild : build t i s w = (result, s', w')) : Invariant t s' := by
  unfold Items.build at hbuild
  split at hbuild
  · cases hbuild
    exact h
  · next hbuilt =>
      have hunbuilt : s.built_ i = false := by simpa using hbuilt
      split at hbuild
      · cases hbuild
        exact h.setGen hunbuilt _
      · next g w₁ hrecursive =>
          cases hbuild
          rcases adds_recursive_build ConstraintManager.consistent_new hrecursive with
            ⟨hconsistent, cs, hcs, hholds⟩
          have hconstraints : g.constr_mng_.constraints_ = cs := hcs
          constructor
          · intro j hj
            by_cases hji : j = i
            · exact ⟨cloned_, by rw [hji, hkind]⟩
            · change Function.update s.built_ i true j = true at hj
              rw [Function.update_of_ne hji] at hj
              exact h.item j hj
          · intro j hj
            by_cases hji : j = i
            · rw [hji]
              refine ⟨g, Function.update_self _ _ _, hconsistent.names_nodup, ?_⟩
              rw [hconstraints]
              exact hholds
            · simp only [Function.update_of_ne hji] at hj ⊢
              exact h.holds j hj

/-- A call ends with the build, or with the generator that is there after the build. -/
theorem randomize_cases {env : Environment} {vcon : VariableContainer} {i : Nat} {w w' : World}
    {result : Except String Bool}
    (h : randomize t env vcon i s w = some (result, s', w')) :
    t.kind i = .sequence_item false ∧ exists s₁ s₂ w₂,
      crosscheck_constraints t vcon i s = some s₁ ∧
        ((exists what, build t i s₁ w = (.error what, s₂, w₂) ∧ result = .error what ∧
            s' = s₂ ∧ w' = w₂) ∨
          (build t i s₁ w = (.ok (), s₂, w₂) ∧ exists g g', s₂.gen_ i = some g ∧
            g.nextCov env vcon w₂ = (result, g', w') ∧
            s' = { s₂ with gen_ := Function.update s₂.gen_ i (some g') })) := by
  unfold Items.randomize at h
  split at h
  · next hkind =>
      rcases Option.bind_eq_some_iff.mp h with ⟨s₁, hcheck, h⟩
      refine ⟨hkind, s₁, ?_⟩
      split at h
      · next what s₂ w₂ hbuild =>
          cases h
          exact ⟨_, _, hcheck, Or.inl ⟨what, hbuild, rfl, rfl, rfl⟩⟩
      · next s₂ w₂ hbuild =>
          rcases Option.bind_eq_some_iff.mp h with ⟨g, hg, h⟩
          cases hnext : g.nextCov env vcon w₂ with
          | mk result₁ pair =>
              rcases pair with ⟨g', w₃⟩
              simp only [hnext] at h
              cases h
              exact ⟨s₂, w₂, hcheck, Or.inr ⟨hbuild, g, g', hg, hnext, rfl⟩⟩
  · cases h

theorem Invariant.replaceGen (h : Invariant t s) {i : Nat} {g g' : Generator}
    (hg : s.gen_ i = some g)
    (hsame : g'.constr_mng_.constraints_ = g.constr_mng_.constraints_) :
    Invariant t { s with gen_ := Function.update s.gen_ i (some g') } := by
  refine ⟨h.item, ?_⟩
  intro j hj
  rcases h.holds j hj with ⟨gj, hgj, hholds⟩
  by_cases hji : j = i
  · rw [hji] at hgj hholds ⊢
    rw [hg] at hgj
    cases hgj
    refine ⟨g', Function.update_self _ _ _, ?_⟩
    rw [HoldsExactly, hsame]
    exact hholds
  · exact ⟨gj, by simp only [Function.update_of_ne hji, hgj], hholds⟩

theorem Invariant.randomize (h : Invariant t s) {env : Environment} {vcon : VariableContainer}
    {i : Nat} {w w' : World} {result : Except String Bool}
    (hrandomize : randomize t env vcon i s w = some (result, s', w')) : Invariant t s' := by
  rcases randomize_cases hrandomize with ⟨hkind, s₁, s₂, w₂, hcheck, hcases⟩
  have hchecked := h.crosscheck_constraints hcheck
  rcases hcases with ⟨what, hbuild, _, hs', _⟩ | ⟨hbuild, g, g', hg, hnext, hs'⟩
  · rw [hs']
    exact hchecked.build hkind hbuild
  · rw [hs']
    exact (hchecked.build hkind hbuild).replaceGen hg (Generator.constraints_nextCov hnext)

theorem Invariant.step (h : Invariant t s) (hstep : Step t s s') : Invariant t s' := by
  cases hstep with
  | activate i => exact h.activate i
  | deactivate i => exact h.deactivate i
  | assign i other => exact h.assign i other
  | join i other => exact h.join i other
  | randomize env vcon i result hrandomize => exact h.randomize hrandomize

theorem Reached.invariant (h : Reached t s) : Invariant t s := by
  induction h with
  | new active_ list_ => exact Invariant.new active_ list_
  | step _ hstep ih => exact ih.step hstep

/-- In every run an item that counts as built, like every built item above it, has a
generator with exactly the expressions of the active constraints that it reaches. -/
theorem built_holds (h : Reached t s) {i : Nat} (hbuilt : s.built_ i = true) :
    forall j, Below t j i -> j = i ∨ s.built_ j = true ->
      exists g, s.gen_ j = some g ∧ HoldsExactly t s (Reaches t j) g := by
  intro j _ hj
  cases hj with
  | inl hself =>
      rw [hself]
      exact h.invariant.holds i hbuilt
  | inr hj => exact h.invariant.holds j hj

/-!
### Trees with a fork

The object 1 has the children 2 and 4, and 3 is the child of 2.
-/

theorem linked_fork (p i : Nat) :
    i ∈ (if p = 1 then [2, 4] else if p = 2 then [3] else []) ↔
      (if i = 2 ∨ i = 4 then some 1 else if i = 3 then some 2 else none) = some p := by
  constructor
  · intro h
    split at h
    · next hp =>
        have hi : i = 2 ∨ i = 4 := by simpa using h
        rw [if_pos hi, hp]
    · split at h
      · next hp =>
          rw [List.mem_singleton.mp h, hp]
          rfl
      · cases h
  · intro h
    split at h
    · next hi =>
        cases h
        rw [if_pos rfl]
        simpa using hi
    · split at h
      · next hi =>
          cases h
          rw [hi]
          exact List.mem_singleton_self 3
      · cases h

theorem nodup_fork (p : Nat) :
    (if p = 1 then [2, 4] else if p = 2 then [3] else []).Nodup := by
  split
  · decide
  · split
    · decide
    · decide

theorem older_fork (p i : Nat)
    (h : (if i = 2 ∨ i = 4 then some 1 else if i = 3 then some 2 else none) = some p) :
    p < i ∧ i < 5 := by
  split at h
  · cases h
    omega
  · split at h
    · cases h
      omega
    · cases h

/-!
### A constraint inside of a vector
-/

/-- An item with a constraint and a vector, which has a constraint of its own. -/
def vectorTree : ObjectTree where
  parent_ := fun i => if i = 2 ∨ i = 4 then some 1 else if i = 3 then some 2 else none
  children_ := fun i => if i = 1 then [2, 4] else if i = 2 then [3] else []
  fullname_ := fun i =>
    if i = 1 then "item" else if i = 2 then "item.v" else if i = 3 then "item.v.c" else "item.c"
  kind := fun i =>
    if i = 1 then .sequence_item false
    else if i = 2 then .vector 2
    else if i = 3 ∨ i = 4 then .constraint false
    else .object
  size := 5
  linked := linked_fork
  nodup := nodup_fork
  older := older_fork

def sameVariable : Ir.Node :=
  .binaryOpr .equalOpr (.variableExpr 1 8 false) (.variableExpr 1 8 false)

def vectorItems : Items :=
  new (fun _ => true) fun i => if i = 3 ∨ i = 4 then [sameVariable] else []

/-- The build of the item adds the vector, and the expressions of the constraint. -/
theorem recursive_build_vectorTree {s : Items} {g : Generator} {w w' : World}
    (hactive : s.active_ 4 = true)
    (hadd : addExpressions false "item.c" 0 (s.list_ 4) (Generator.new.addVecId 2) w =
      (.ok (), g, w')) :
    recursive_build vectorTree s 1 Generator.new w = (.ok (), g, w') := by
  have hvector : recursive_build vectorTree s 2 Generator.new w =
      (.ok (), Generator.new.addVecId 2, w) := by
    rw [recursive_build]
    rfl
  have hconstraint : recursive_build vectorTree s 4 (Generator.new.addVecId 2) w =
      (.ok (), g, w') := by
    rw [recursive_build]
    show (if s.active_ 4 then addExpressions false "item.c" 0 (s.list_ 4) _ w else _) = _
    rw [if_pos hactive, hadd]
  rw [recursive_build]
  show buildAll (fun obj : { x // x ∈ vectorTree.children_ 1 } =>
      recursive_build vectorTree s obj.val)
    [⟨2, by decide⟩, ⟨4, by decide⟩] Generator.new w = _
  simp only [buildAll, hvector, hconstraint]

theorem randomize_vectorTree {s : Items} {env : Environment} {vcon : VariableContainer}
    {g g' : Generator} {w w₁ w' : World} {result : Except String Bool}
    (hunbuilt : s.built_ 1 = false) (hactive : s.active_ 4 = true)
    (hadd : addExpressions false "item.c" 0 (s.list_ 4) (Generator.new.addVecId 2) w =
      (.ok (), g, w₁))
    (hnext : g.nextCov env vcon w₁ = (result, g', w')) :
    exists s', randomize vectorTree env vcon 1 s w = some (result, s', w') ∧
      s'.built_ 1 = true ∧ s'.active_ = s.active_ ∧ s'.list_ = s.list_ ∧
        s'.gen_ 1 = some g' := by
  let s₁ : Items := { s with gen_ := Function.update s.gen_ 1 (some Generator.new) }
  have hcheck : crosscheck_constraints vectorTree vcon 1 s = some s₁ := by
    rw [crosscheck_constraints, if_neg (by simp [hunbuilt])]
    rfl
  have hrecursive : recursive_build vectorTree s₁ 1 Generator.new w = (.ok (), g, w₁) :=
    recursive_build_vectorTree hactive hadd
  let s₂ : Items :=
    { s₁ with
      gen_ := Function.update s₁.gen_ 1 (some g)
      built_ := Function.update s₁.built_ 1 true }
  have hbuild : build vectorTree 1 s₁ w = (.ok (), s₂, w₁) := by
    rw [build, if_neg (by simp [s₁, hunbuilt]), hrecursive]
  have hgen : s₂.gen_ 1 = some g := by simp only [s₂, Function.update_self]
  let s' : Items := { s₂ with gen_ := Function.update s₂.gen_ 1 (some g') }
  have hrandomize : randomize vectorTree env vcon 1 s w = some (result, s', w') := by
    rw [randomize, if_pos (by rfl), hcheck]
    simp only [Option.bind_eq_bind, Option.bind_some, hbuild, hgen, hnext]
    rfl
  have hbuilt : s'.built_ 1 = true := by simp only [s', s₂, Function.update_self]
  have hgen' : s'.gen_ 1 = some g' := by simp only [s', Function.update_self]
  exact ⟨s', hrandomize, hbuilt, rfl, rfl, hgen'⟩

theorem randomize_vectorItems (env : Environment) (vcon : VariableContainer) (w : World) :
    exists result s' w', randomize vectorTree env vcon 1 vectorItems w = some (result, s', w') ∧
      s'.built_ 1 = true ∧ s'.active_ = vectorItems.active_ ∧ s'.list_ = vectorItems.list_ := by
  have hadd : exists g w₁, addExpressions false "item.c" 0 (vectorItems.list_ 4)
      (Generator.new.addVecId 2) w = (.ok (), g, w₁) := ⟨_, _, rfl⟩
  rcases hadd with ⟨g, w₁, hadd⟩
  let after := g.nextCov env vcon w₁
  rcases randomize_vectorTree (s := vectorItems) rfl rfl hadd
      (show g.nextCov env vcon w₁ = (after.1, after.2.1, after.2.2) from rfl) with
    ⟨s', hrandomize, hbuilt, hactive, hlist, _⟩
  exact ⟨after.1, s', after.2.2, hrandomize, hbuilt, hactive, hlist⟩

/-- The constraint inside of the vector is active and below the item, but the build
does not reach it. -/
theorem vector_hides_constraint :
    ¬ forall (t : ObjectTree) (s : Items), Reached t s -> forall i, s.built_ i = true ->
      exists g, s.gen_ i = some g ∧ HoldsExactly t s (Below t i) g := by
  intro h
  let vcon := VariableContainer.ofReferences ⟨8, false⟩ (by decide) [] [1] (by decide)
  let w : World :=
    { memory := fun _ => 0, vectors := fun _ => [], time := 0, var_ID := 1, constraint_ID := 0 }
  rcases randomize_vectorItems Generator.envZero vcon w with
    ⟨result, s', w', hrandomize, hbuilt, hactive, hlist⟩
  have hreached : Reached vectorTree s' :=
    (Reached.new _ _).step (Step.randomize _ vcon 1 result hrandomize)
  rcases h vectorTree s' hreached 1 hbuilt with ⟨g, hg, hholds⟩
  rcases hreached.invariant.holds 1 hbuilt with ⟨g', hg', hreaches⟩
  rw [hg] at hg'
  cases hg'
  have hbelow : Below vectorTree 1 3 :=
    Relation.ReflTransGen.head (show vectorTree.parent_ 2 = some 1 from rfl)
      (Relation.ReflTransGen.single (show vectorTree.parent_ 3 = some 2 from rfl))
  have hexpresses : Expresses vectorTree s' 3 "item.v.c#0" false
      (FixWidthVisitor.fixWidth sameVariable) := by
    refine ⟨rfl, by rw [hactive]; rfl, 0, sameVariable, by rw [hlist]; rfl, ?_, rfl⟩
    decide
  have hmem := (hreaches.right.iff _ _ _).mp ((hholds.right.iff _ _ _).mpr ⟨3, hbelow, hexpresses⟩)
  rcases hmem with ⟨j, hj, hkind, _, k, n, hk, hname, _⟩
  have hfour : j = 4 := by
    cases hj with
    | refl => cases hkind
    | child _ hc hj =>
        rcases List.mem_cons.mp hc with rfl | hc
        · cases hj with
          | refl => cases hkind
          | child hdescends _ _ => cases hdescends
        · rw [List.mem_singleton.mp hc] at hj
          cases hj with
          | refl => rfl
          | child hdescends _ _ => cases hdescends
  rw [hfour, hlist] at hk
  rw [hfour] at hname
  have hzero : k = 0 := by
    cases k with
    | zero => rfl
    | succ k => cases hk
  rw [hzero] at hname
  exact absurd hname (by decide)

theorem built_holds_vector :
    exists s g, Reached vectorTree s ∧ s.gen_ 1 = some g ∧
      HoldsExactly vectorTree s (Reaches vectorTree 1) g ∧ s.active_ 4 = true := by
  let vcon := VariableContainer.ofReferences ⟨8, false⟩ (by decide) [] [1] (by decide)
  let w : World :=
    { memory := fun _ => 0, vectors := fun _ => [], time := 0, var_ID := 1, constraint_ID := 0 }
  rcases randomize_vectorItems Generator.envZero vcon w with
    ⟨result, s', w', hrandomize, hbuilt, hactive, hlist⟩
  have hreached : Reached vectorTree s' :=
    (Reached.new _ _).step (Step.randomize _ vcon 1 result hrandomize)
  rcases built_holds hreached hbuilt 1 Relation.ReflTransGen.refl (Or.inl rfl) with ⟨g, hg, hholds⟩
  exact ⟨s', g, hreached, hg, hholds, by rw [hactive]; rfl⟩

end Items
end Experimental
end Crave
