import Crave.Backend.CoverageSoundness
import Crave.Experimental.SequenceItemRebuild

/-!
# Soundness of sequence items

A call of `randomize` that succeeds leaves values for which every expression holds that
the item reaches through active hard constraints. This is so after any changes of the
constraints, any calls before it, and any calls on other items of the tree, also such that
threw: only what the exceptions of its own item have left unsolved must be looked at. A
call with expressions of its own makes these hold as well.
-/

namespace Crave
namespace Experimental
namespace Items

open Foundation Ir Backend

/-- The expressions of a constraint are built by the context over the declared
variables. -/
def Built (vcon : VariableContainer) (l : List Ir.Node) : Prop :=
  forall e, e ∈ l -> Context.Builds vcon.variables_ vcon.vector_variables e

/-- What the items and the variables have come to, in any order of changes and calls. Any
call may end with an exception, also in the midst of solving the vectors of an item, and the
values of the variables may change between two calls; constraint identifiers are never given
back. -/
inductive Reachable (t : ObjectTree) (vcon : VariableContainer) : Items -> World -> Prop where
  | new (active_ : Nat -> Bool) (list_ : Nat -> List Ir.Node) (w : World)
      (hlist : forall i, Built vcon (list_ i)) : Reachable t vcon (new active_ list_) w
  | activate {s : Items} {w : World} (i : Nat) (before : Reachable t vcon s w) :
      Reachable t vcon (activate t i s) w
  | deactivate {s : Items} {w : World} (i : Nat) (before : Reachable t vcon s w) :
      Reachable t vcon (deactivate t i s) w
  | assign {s : Items} {w : World} (i : Nat) (other : List Ir.Node)
      (before : Reachable t vcon s w) (hother : Built vcon other) :
      Reachable t vcon (assign t i other s) w
  | join {s : Items} {w : World} (i : Nat) (other : List Ir.Node)
      (before : Reachable t vcon s w) (hother : Built vcon other) :
      Reachable t vcon (join t i other s) w
  | randomize {s s' : Items} {w w' : World} (env : Environment) (i : Nat)
      (result : Except String Bool) (before : Reachable t vcon s w)
      (h : randomize t env vcon i s w = some (result, s', w')) : Reachable t vcon s' w'
  | randomize_with {s : Items} {w w' : World} (env : Environment) (i : Nat)
      {list : List Ir.Node} {g' : Generator} (result : Except String Bool)
      (before : Reachable t vcon s w) (hlist : Built vcon list)
      (h : randomize_with_expr_list t env vcon i list s w = some (result, g', w')) :
      Reachable t vcon s w'
  | interrupted {s : Items} {w : World} (i : Nat) {g : Generator} (vec_gen_ : VectorGenerator)
      (before : Reachable t vcon s w) (hgen : s.gen_ i = some g)
      (h : VectorGenerator.contents vec_gen_.vector_solvers_ =
        VectorGenerator.contents g.vec_gen_.vector_solvers_) :
      Reachable t vcon
        { s with gen_ := Function.update s.gen_ i (some { g with vec_gen_ := vec_gen_ }) } w
  | outside {s : Items} {w w' : World} (before : Reachable t vcon s w)
      (h : w.constraint_ID ≤ w'.constraint_ID) : Reachable t vcon s w'

def Demands (t : ObjectTree) (s : Items) (i : Nat) (name : String) (soft : Bool)
    (e : Ir.Node) : Prop :=
  exists j, Reaches t i j ∧ Expresses t s j name soft e

/-- The expressions of a list, with the names of identifiers from the first one on. -/
def Given (list : List Ir.Node) (id : Nat) (name : String) (soft : Bool) (e : Ir.Node) : Prop :=
  soft = false ∧ exists k n, list[k]? = some n ∧
    name = "constraint_" ++ toString (id + k) ∧ e = FixWidthVisitor.fixWidth n

section Runs

variable {t : ObjectTree} {vcon : VariableContainer} {s s' : Items} {w w' : World}

theorem Reachable.invariant (h : Reachable t vcon s w) : Invariant t s := by
  induction h with
  | new active_ list_ _ _ => exact Invariant.new active_ list_
  | activate i _ ih => exact ih.activate i
  | deactivate i _ ih => exact ih.deactivate i
  | assign i other _ _ ih => exact ih.assign i other
  | join i other _ _ ih => exact ih.join i other
  | randomize _ _ _ _ h ih => exact ih.randomize h
  | randomize_with _ _ _ _ _ _ ih => exact ih
  | interrupted i vec_gen_ _ hgen _ ih => exact ih.replaceGen hgen rfl
  | outside _ _ ih => exact ih

/-!
## Generators of items
-/

/-- The generator is used for its own constraints only, and every `foreach` and `unique`
counts as a vector constraint. -/
structure Kept (vcon : VariableContainer) (g : Generator) (w : World) : Prop where
  usedAlone : Generator.UsedAlone vcon g w
  vectors : forall c, c ∈ g.constr_mng_.constraints_ ->
    c.isVectorConstraint = (c.expr_.isForEach || c.expr_.isUnique)

/-- During a build there are no solvers yet. -/
structure Grown (vcon : VariableContainer) (g : Generator) (w : World) : Prop where
  kept : Kept vcon g w
  unsolved : g.isChanged = false -> g.constr_mng_.constraints_ = []

theorem Kept.mono {g : Generator} (h : Kept vcon g w)
    (hle : w.constraint_ID ≤ w'.constraint_ID) : Kept vcon g w' :=
  ⟨h.usedAlone.mono hle, h.vectors⟩

theorem Grown.new (w : World) : Grown vcon Generator.new w := by
  refine ⟨⟨Generator.usedAlone_new w, ?_⟩, fun _ => rfl⟩
  intro c hc
  cases hc

theorem Grown.mono {g : Generator} (h : Grown vcon g w)
    (hle : w.constraint_ID ≤ w'.constraint_ID) : Grown vcon g w' :=
  ⟨h.kept.mono hle, h.unsolved⟩

theorem Grown.hardsIn {g : Generator} (h : Grown vcon g w) :
    Generator.HardsIn (scalarConstraints g.constr_mng_) g.scope.partitions := by
  cases hchanged : g.isChanged with
  | true =>
      rw [Generator.scope, if_pos hchanged]
      exact Generator.hardsIn_partition h.kept.usedAlone.left.owned.scalars
  | false =>
      intro c hc _
      have hmem := List.mem_of_mem_filter (List.mem_of_mem_filter hc)
      rw [h.unsolved hchanged] at hmem
      cases hmem

theorem isVectorConstraint_makeConstraint {mng mng' : ConstraintManager} {name : String}
    {c_id : Nat} {n : Ir.Node} {soft cover : Bool}
    (h : mng.makeConstraint name c_id n soft cover = .ok mng') :
    exists c, mng'.constraints_ = mng.constraints_ ++ [c] ∧
      c.isVectorConstraint = (c.expr_.isForEach || c.expr_.isUnique) := by
  unfold ConstraintManager.makeConstraint at h
  split at h
  · cases h
  · have hunique : (if n.isForEach = true then some false
        else if n.isUnique = true then some true else none).isSome =
          (n.isForEach || n.isUnique) := by
      cases n.isForEach with
      | true => rfl
      | false =>
          cases n.isUnique with
          | true => rfl
          | false => rfl
    generalize (if n.isForEach = true then some false
      else if n.isUnique = true then some true else none) = unique_ at h hunique
    simp only at h
    split at h
    · cases h
    · split at h
      · cases h
      · split at h
        · cases h
        · cases h
          exact ⟨_, rfl, hunique⟩

/-- An addition that is rejected uses up an identifier as well. -/
theorem grown_makeConstraint {g g' : Generator} {name : Option String} {e : Ir.Node}
    {soft cover : Bool} {result : Except String Unit} (h : Grown vcon g w)
    (he : Context.Builds vcon.variables_ vcon.vector_variables e)
    (hmake : g.makeConstraint name e soft cover w = (result, g', w')) :
    Grown vcon g' w' ∧ w.constraint_ID ≤ w'.constraint_ID := by
  cases result with
  | error what =>
      rcases Generator.makeConstraint_error hmake with ⟨rfl, rfl⟩
      exact ⟨h.mono (Nat.le_succ _), Nat.le_succ _⟩
  | ok u =>
      rcases Generator.makeConstraint_ok hmake with ⟨mng', hmng, rfl, rfl⟩
      have hstanding := h.kept.usedAlone.left
      have howned : Generator.Owned vcon mng' { w with constraint_ID := w.constraint_ID + 1 } :=
        hstanding.owned.makeConstraint (Context.Builds.declaredIn he).fixWidth hmng
          (Nat.le_refl _)
      rcases ConstraintManager.makeConstraint_spec hmng with ⟨_, _, hchanged, _⟩
      have hpending : mng'.changed_ = true := by rw [hchanged]
      have hnot : ({ g with constr_mng_ := mng' } : Generator).isChanged ≠ false := by
        intro hunchanged
        have hfalse : mng'.changed_ = false := hunchanged
        rw [hpending] at hfalse
        cases hfalse
      rcases isVectorConstraint_makeConstraint hmng with ⟨c, hconstraints, hvector⟩
      refine ⟨⟨⟨⟨hstanding.setManager howned, fun hunchanged => absurd hunchanged hnot⟩, ?_⟩,
        fun hunchanged => absurd hunchanged hnot⟩, Nat.le_succ _⟩
      intro d hd
      have hmem : d ∈ mng'.constraints_ := hd
      rw [hconstraints] at hmem
      cases List.mem_append.mp hmem with
      | inl hold => exact h.kept.vectors d hold
      | inr hnew =>
          rw [List.mem_singleton.mp hnew]
          exact hvector

theorem grown_addVecId {g : Generator} (h : Grown vcon g w) (id : Nat) :
    Grown vcon (g.addVecId id) w := by
  unfold Generator.addVecId
  split
  · exact h
  · have hstanding := h.kept.usedAlone.left
    refine ⟨⟨⟨⟨hstanding.owned, hstanding.separated, hstanding.ready.congr rfl rfl rfl⟩, ?_⟩,
      h.kept.vectors⟩, h.unsolved⟩
    intro hunchanged
    have hown := h.kept.usedAlone.right hunchanged
    exact ⟨hown.stored, hown.built, hown.goals⟩

theorem grown_addExpressions {soft : Bool} {fullname : String} {l : List Ir.Node} {cnt : Nat}
    {g g' : Generator} {result : Except String Unit} (hl : Built vcon l)
    (h : Grown vcon g w)
    (hadd : addExpressions soft fullname cnt l g w = (result, g', w')) :
    Grown vcon g' w' ∧ w.constraint_ID ≤ w'.constraint_ID := by
  induction l generalizing cnt g w with
  | nil =>
      cases hadd
      exact ⟨h, Nat.le_refl _⟩
  | cons n rest ih =>
      have hn := hl n List.mem_cons_self
      rw [addExpressions] at hadd
      split at hadd
      · next hmake =>
          cases hadd
          exact grown_makeConstraint h hn hmake
      · next hmake =>
          rcases grown_makeConstraint h hn hmake with ⟨h₁, hle₁⟩
          rcases ih (fun e he => hl e (List.mem_cons_of_mem n he)) h₁ hadd with ⟨h', hle'⟩
          exact ⟨h', Nat.le_trans hle₁ hle'⟩

theorem grown_buildAll {α : Type} {build : α -> Generator -> World -> Outcome Unit}
    {objs : List α}
    (hbuild : forall obj, obj ∈ objs -> forall {g g' : Generator} {w w' : World}
      {result : Except String Unit}, Grown vcon g w -> build obj g w = (result, g', w') ->
        Grown vcon g' w' ∧ w.constraint_ID ≤ w'.constraint_ID)
    {g g' : Generator} {result : Except String Unit} (h : Grown vcon g w)
    (hall : buildAll build objs g w = (result, g', w')) :
    Grown vcon g' w' ∧ w.constraint_ID ≤ w'.constraint_ID := by
  induction objs generalizing g w with
  | nil =>
      cases hall
      exact ⟨h, Nat.le_refl _⟩
  | cons obj rest ih =>
      rw [buildAll] at hall
      split at hall
      · next hobj =>
          cases hall
          exact hbuild obj List.mem_cons_self h hobj
      · next hobj =>
          rcases hbuild obj List.mem_cons_self h hobj with ⟨h₁, hle₁⟩
          rcases ih (fun o ho => hbuild o (List.mem_cons_of_mem obj ho)) h₁ hall with ⟨h', hle'⟩
          exact ⟨h', Nat.le_trans hle₁ hle'⟩

theorem grown_recursive_build {i : Nat} {g g' : Generator} {result : Except String Unit}
    (hs : forall j, Built vcon (s.list_ j)) (h : Grown vcon g w)
    (hbuild : recursive_build t s i g w = (result, g', w')) :
    Grown vcon g' w' ∧ w.constraint_ID ≤ w'.constraint_ID := by
  -- the children are younger than the object
  induction hn : t.size - i using Nat.strong_induction_on generalizing i g g' w w' result with
  | _ n ih =>
      have hchildren :
          buildAll (fun obj => recursive_build t s obj.val) (t.children_ i).attach g w =
            (result, g', w') -> Grown vcon g' w' ∧ w.constraint_ID ≤ w'.constraint_ID := by
        intro hall
        refine grown_buildAll ?_ h hall
        intro obj _ g₁ g₂ w₁ w₂ result₁ h₁ hobj
        have hlt := t.older i obj.val ((t.linked i obj.val).mp obj.property)
        exact ih (t.size - obj.val) (by omega) h₁ hobj rfl
      rw [recursive_build] at hbuild
      split at hbuild
      · split at hbuild
        · exact grown_addExpressions (hs i) h hbuild
        · cases hbuild
          exact ⟨h, Nat.le_refl _⟩
      · next id _ =>
          cases hbuild
          exact ⟨grown_addVecId h id, Nat.le_refl _⟩
      · exact hchildren hbuild

theorem kept_nextCov {env : Environment} {g g' : Generator} {result : Except String Bool}
    (h : Kept vcon g w) (hnext : g.nextCov env vcon w = (result, g', w')) :
    Kept vcon g' w' ∧ w.constraint_ID ≤ w'.constraint_ID := by
  refine ⟨⟨(Generator.stable_usedAlone env vcon).nextCov h.usedAlone hnext, ?_⟩, ?_⟩
  · rw [Generator.constraints_nextCov hnext]
    exact h.vectors
  · have hover : Generator.Operation.nextCov.Over vcon := trivial
    exact (Generator.standing_perform h.usedAlone.left hover hnext).right.le

theorem kept_next {env : Environment} {g g' : Generator} {result : Except String Bool}
    (h : Kept vcon g w) (hnext : g.next env vcon w = (result, g', w')) :
    w.constraint_ID ≤ w'.constraint_ID := by
  have hover : Generator.Operation.next.Over vcon := trivial
  exact (Generator.standing_perform h.usedAlone.left hover hnext).right.le

/-!
## Items
-/

/-- The expressions are over declared variables, and the generators of the built items
are used for their own constraints only. -/
structure Maintained (vcon : VariableContainer) (s : Items) (w : World) : Prop where
  list_ : forall i, Built vcon (s.list_ i)
  gen_ : forall i g, s.built_ i = true -> s.gen_ i = some g -> Kept vcon g w

theorem Maintained.new {active_ : Nat -> Bool} {list_ : Nat -> List Ir.Node}
    (hlist : forall i, Built vcon (list_ i)) : Maintained vcon (new active_ list_) w := by
  refine ⟨hlist, ?_⟩
  intro i g hbuilt _
  cases hbuilt

theorem Maintained.mono (h : Maintained vcon s w) (hle : w.constraint_ID ≤ w'.constraint_ID) :
    Maintained vcon s w' :=
  ⟨h.list_, fun i g hbuilt hg => (h.gen_ i g hbuilt hg).mono hle⟩

theorem Maintained.requested (h : Maintained vcon s w) (hrequested : Requested s s') :
    Maintained vcon s' w := by
  constructor
  · rw [hrequested.list_]
    exact h.list_
  · intro i g hbuilt hg
    rcases hrequested.built_ i hbuilt with ⟨hold, hsame⟩
    exact h.gen_ i g hold (hsame.symm.trans hg)

theorem Maintained.setActive (h : Maintained vcon s w) (active_ : Nat -> Bool) :
    Maintained vcon { s with active_ := active_ } w :=
  ⟨h.list_, h.gen_⟩

theorem Maintained.setList (h : Maintained vcon s w) (i : Nat) {l : List Ir.Node}
    (hl : Built vcon l) : Maintained vcon { s with list_ := Function.update s.list_ i l } w := by
  refine ⟨?_, h.gen_⟩
  intro j
  by_cases hj : j = i
  · rw [hj]
    simp only [Function.update_self]
    exact hl
  · simp only [Function.update_of_ne hj]
    exact h.list_ j

theorem Maintained.setGen (h : Maintained vcon s w) {i : Nat} (hbuilt : s.built_ i = false)
    (g : Option Generator) :
    Maintained vcon { s with gen_ := Function.update s.gen_ i g } w := by
  refine ⟨h.list_, ?_⟩
  intro j gj hj hgj
  have hji : j ≠ i := by
    intro hji
    rw [hji] at hj
    exact absurd (hbuilt.symm.trans hj) (by simp)
  simp only [Function.update_of_ne hji] at hgj
  exact h.gen_ j gj hj hgj

theorem Maintained.setBuilt (h : Maintained vcon s w) (i : Nat) {g : Generator}
    (hg : Kept vcon g w) (built_ : Nat -> Bool)
    (hbuilt : forall j, j ≠ i -> built_ j = true -> s.built_ j = true) :
    Maintained vcon
      { s with gen_ := Function.update s.gen_ i (some g), built_ := built_ } w := by
  refine ⟨h.list_, ?_⟩
  intro j gj hj hgj
  by_cases hji : j = i
  · rw [hji] at hgj
    simp only [Function.update_self] at hgj
    cases hgj
    exact hg
  · simp only [Function.update_of_ne hji] at hgj
    exact h.gen_ j gj (hbuilt j hji hj) hgj

theorem Maintained.activate (h : Maintained vcon s w) (i : Nat) :
    Maintained vcon (activate t i s) w := by
  unfold Items.activate
  split
  · exact h
  · exact (h.setActive _).requested (requested_request_rebuild i _)

theorem Maintained.deactivate (h : Maintained vcon s w) (i : Nat) :
    Maintained vcon (deactivate t i s) w := by
  unfold Items.deactivate
  split
  · exact (h.setActive _).requested (requested_request_rebuild i _)
  · exact h

theorem Maintained.assign (h : Maintained vcon s w) (i : Nat) {other : List Ir.Node}
    (hother : Built vcon other) : Maintained vcon (assign t i other s) w :=
  (h.setList i hother).requested (requested_request_rebuild i _)

theorem Maintained.join (h : Maintained vcon s w) (i : Nat) {other : List Ir.Node}
    (hother : Built vcon other) : Maintained vcon (join t i other s) w := by
  refine (h.setList i ?_).requested (requested_request_rebuild i _)
  intro e he
  cases List.mem_append.mp he with
  | inl hold => exact h.list_ i e hold
  | inr hnew => exact hother e hnew

theorem Maintained.crosscheck_constraints (h : Maintained vcon s w) {i : Nat}
    (hcheck : crosscheck_constraints t vcon i s = some s') : Maintained vcon s' w := by
  refine of_crosscheck_constraints (P := fun s => Maintained vcon s w)
    (fun j _ hj => hj.deactivate j) ?_ h hcheck
  intro hbuilt
  exact h.setGen hbuilt _

theorem Maintained.build (h : Maintained vcon s w) {i : Nat} {result : Except String Unit}
    (hbuild : build t i s w = (result, s', w')) :
    Maintained vcon s' w' ∧ w.constraint_ID ≤ w'.constraint_ID := by
  unfold Items.build at hbuild
  split at hbuild
  · cases hbuild
    exact ⟨h, Nat.le_refl _⟩
  · next hbuilt =>
      have hunbuilt : s.built_ i = false := by simpa using hbuilt
      split at hbuild
      · next hrecursive =>
          rcases grown_recursive_build h.list_ (Grown.new w) hrecursive with ⟨_, hle⟩
          cases hbuild
          exact ⟨(h.setGen hunbuilt _).mono hle, hle⟩
      · next hrecursive =>
          rcases grown_recursive_build h.list_ (Grown.new w) hrecursive with ⟨hg, hle⟩
          cases hbuild
          refine ⟨(h.mono hle).setBuilt i hg.kept _ ?_, hle⟩
          intro j hj hupdated
          rw [Function.update_of_ne hj] at hupdated
          exact hupdated

theorem grown_of_build (h : Maintained vcon s w) {i : Nat} (hunbuilt : s.built_ i = false)
    (hbuild : build t i s w = (.ok (), s', w')) {g : Generator} (hg : s'.gen_ i = some g) :
    Grown vcon g w' := by
  unfold Items.build at hbuild
  rw [if_neg (by simp [hunbuilt])] at hbuild
  split at hbuild
  · cases hbuild
  · next hrecursive =>
      cases hbuild
      simp only [Function.update_self] at hg
      cases hg
      exact (grown_recursive_build h.list_ (Grown.new w) hrecursive).left

theorem Maintained.randomize (h : Maintained vcon s w) {env : Environment} {i : Nat}
    {result : Except String Bool}
    (hrandomize : randomize t env vcon i s w = some (result, s', w')) :
    Maintained vcon s' w' := by
  rcases randomize_cases hrandomize with ⟨_, s₁, s₂, w₂, hcheck, hcases⟩
  rcases hcases with ⟨what, hbuild, _, hs', hw'⟩ | ⟨hbuild, g, g', hg, hnext, hs'⟩
  · rw [hs', hw']
    exact ((h.crosscheck_constraints hcheck).build hbuild).left
  · have h₂ := ((h.crosscheck_constraints hcheck).build hbuild).left
    rcases kept_nextCov (h₂.gen_ i g (built_of_build hbuild) hg) hnext with ⟨hg', hle⟩
    rw [hs']
    exact (h₂.mono hle).setBuilt i hg' s₂.built_ fun _ _ hj => hj

theorem Maintained.interrupted (h : Maintained vcon s w) {i : Nat} {g : Generator}
    {vec_gen_ : VectorGenerator} (hgen : s.gen_ i = some g)
    (hcontents : VectorGenerator.contents vec_gen_.vector_solvers_ =
      VectorGenerator.contents g.vec_gen_.vector_solvers_) :
    Maintained vcon
      { s with gen_ := Function.update s.gen_ i (some { g with vec_gen_ := vec_gen_ }) } w := by
  cases hbuilt : s.built_ i with
  | false => exact h.setGen hbuilt _
  | true =>
      have hkept := h.gen_ i g hbuilt hgen
      have hkept' : Kept vcon { g with vec_gen_ := vec_gen_ } w :=
        ⟨hkept.usedAlone.setVectors hcontents, hkept.vectors⟩
      exact h.setBuilt i hkept' s.built_ fun _ _ hj => hj

theorem adds_list {list : List Ir.Node} {g g' : Generator} (hg : g.constr_mng_.Consistent)
    (h : buildAll (fun e g w => g.makeConstraint none e false false w) list g w =
      (.ok (), g', w')) : Adds g g' (Given list (w.constraint_ID + 1)) := by
  induction list generalizing g w with
  | nil =>
      cases h
      refine ⟨hg, [], (List.append_nil _).symm, Holds.nil ?_⟩
      intro name soft e hP
      rcases hP with ⟨_, k, n, hk, _⟩
      cases hk
  | cons n rest ih =>
      rw [buildAll] at h
      split at h
      · cases h
      · next g₁ w₁ hmake =>
          have hw : w₁.constraint_ID = w.constraint_ID + 1 := by
            rcases Generator.makeConstraint_ok hmake with ⟨_, _, _, hw⟩
            rw [hw]
          rcases adds_makeConstraint hg hmake with ⟨hg₁, cs, hcs, hhead⟩
          rcases ih hg₁ h with ⟨hg', ds, hds, htail⟩
          rw [hw] at htail
          have hnumber : forall k, w.constraint_ID + 1 + 1 + k = w.constraint_ID + 1 + (k + 1) :=
            fun k => Nat.succ_add_eq_add_succ _ k
          refine ⟨hg', cs ++ ds, by rw [hds, hcs, List.append_assoc], hhead.append htail ?_⟩
          intro name soft e
          constructor
          · intro hP
            rcases hP with ⟨hsoft, k, m, hk, hname, he⟩
            cases k with
            | zero =>
                cases hk
                exact Or.inl ⟨hname, hsoft, he⟩
            | succ k =>
                refine Or.inr ⟨hsoft, k, m, hk, ?_, he⟩
                rw [hname, hnumber]
          · intro hP
            cases hP with
            | inl hhead =>
                exact ⟨hhead.right.left, 0, n, rfl, hhead.left, hhead.right.right⟩
            | inr htail =>
                rcases htail with ⟨hsoft, k, m, hk, hname, he⟩
                refine ⟨hsoft, k + 1, m, hk, ?_, he⟩
                rw [hname, hnumber]

/-- The generator of a call with a list has what the item reaches, and the list. -/
theorem randomize_with_cases {env : Environment} {i : Nat} {list : List Ir.Node}
    {g' : Generator} {result : Bool} (h : Maintained vcon s w) (hlist : Built vcon list)
    (hrandomize : randomize_with_expr_list t env vcon i list s w =
      some (.ok result, g', w')) :
    exists g w₁ id, Grown vcon g w₁ ∧ w.constraint_ID ≤ w₁.constraint_ID ∧
      (Holds g.constr_mng_.constraints_ fun name soft e =>
        Demands t s i name soft e ∨ Given list id name soft e) ∧
      g.next env vcon w₁ = (.ok result, g', w') := by
  unfold randomize_with_expr_list at hrandomize
  split at hrandomize
  · split at hrandomize
    · cases hrandomize
    · next g₁ w₁ hbuild =>
        split at hrandomize
        · cases hrandomize
        · next g₂ w₂ hlisted =>
            rcases grown_recursive_build h.list_ (Grown.new w) hbuild with ⟨h₁, hle₁⟩
            rcases adds_recursive_build ConstraintManager.consistent_new hbuild with
              ⟨hconsistent, cs, hcs, hdemands⟩
            rcases adds_list hconsistent hlisted with ⟨_, ds, hds, hgiven⟩
            rcases grown_buildAll (fun e he _ _ _ _ _ hg hmake =>
              grown_makeConstraint hg (hlist e he) hmake) h₁ hlisted with ⟨h₂, hle₂⟩
            refine ⟨g₂, w₂, w₁.constraint_ID + 1, h₂, Nat.le_trans hle₁ hle₂, ?_,
              Option.some.inj hrandomize⟩
            rw [hds, hcs]
            exact hdemands.append hgiven fun _ _ _ => Iff.rfl
  · cases hrandomize

theorem Maintained.randomize_with (h : Maintained vcon s w) {env : Environment} {i : Nat}
    {list : List Ir.Node} {g' : Generator} {result : Except String Bool}
    (hlist : Built vcon list)
    (hrandomize : randomize_with_expr_list t env vcon i list s w = some (result, g', w')) :
    Maintained vcon s w' := by
  apply h.mono
  unfold randomize_with_expr_list at hrandomize
  split at hrandomize
  · split at hrandomize
    · next hbuild =>
        cases hrandomize
        exact (grown_recursive_build h.list_ (Grown.new w) hbuild).right
    · next g₁ w₁ hbuild =>
        rcases grown_recursive_build h.list_ (Grown.new w) hbuild with ⟨h₁, hle₁⟩
        have hadded : forall {g₂ : Generator} {w₂ : World} {result : Except String Unit},
            buildAll (fun e g w => g.makeConstraint none e false false w) list g₁ w₁ =
              (result, g₂, w₂) -> Grown vcon g₂ w₂ ∧ w₁.constraint_ID ≤ w₂.constraint_ID :=
          fun hlisted => grown_buildAll (fun e he _ _ _ _ _ hg hmake =>
            grown_makeConstraint hg (hlist e he) hmake) h₁ hlisted
        split at hrandomize
        · next hlisted =>
            cases hrandomize
            exact Nat.le_trans hle₁ (hadded hlisted).right
        · next hlisted =>
            rcases hadded hlisted with ⟨h₂, hle₂⟩
            have hle := kept_next h₂.kept (Option.some.inj hrandomize)
            exact Nat.le_trans hle₁ (Nat.le_trans hle₂ hle)
  · cases hrandomize

theorem Reachable.maintained (h : Reachable t vcon s w) : Maintained vcon s w := by
  induction h with
  | new _ _ _ hlist => exact Maintained.new hlist
  | activate i _ ih => exact ih.activate i
  | deactivate i _ ih => exact ih.deactivate i
  | assign i _ _ hother ih => exact ih.assign i hother
  | join i _ _ hother ih => exact ih.join i hother
  | randomize _ _ _ _ h ih => exact ih.randomize h
  | randomize_with _ _ _ _ hlist h ih => exact ih.randomize_with hlist h
  | interrupted i vec_gen_ _ hgen h ih => exact ih.interrupted hgen h
  | outside _ hle ih => exact ih.mono hle

/-!
## Soundness
-/

def supportSet (P : Ir.Node -> Prop) : Set Nat :=
  { id | exists e, P e ∧ id ∈ e.supportVars }

/-- A hard constraint of a generator that is no vector constraint is for its solvers. -/
theorem Holds.mem_scalarConstraints {P : String -> Bool -> Ir.Node -> Prop} {g : Generator}
    (h : Holds g.constr_mng_.constraints_ P) (hg : Kept vcon g w) {name : String} {e : Ir.Node}
    (he : P name false e) (hforEach : e.isForEach = false) (hunique : e.isUnique = false) :
    exists c, c ∈ scalarConstraints g.constr_mng_ ∧ c.isHard = true ∧ c.expr_ = e := by
  rcases (h.iff name false e).mpr he with ⟨c, hc, _, hsoft, hexpr⟩
  rcases h.enabled c hc with ⟨henabled, hcover⟩
  refine ⟨c, ?_, ?_, hexpr⟩
  · have hvector := hg.vectors c hc
    rw [hexpr, hforEach, hunique] at hvector
    apply List.mem_filter.mpr
    constructor
    · exact List.mem_filter.mpr ⟨hc, henabled⟩
    · rw [hvector]
      rfl
  · rw [UserConstraint.isHard, hsoft, hcover]
    rfl

/-- The variables that the solvers of a call write are those of the expressions. -/
theorem Holds.support_subset {P : String -> Bool -> Ir.Node -> Prop} {g : Generator}
    (h : Holds g.constr_mng_.constraints_ P) (hg : Kept vcon g w)
    {ps : List ConstraintPartition}
    (hps : ps ⊆ ConstraintPartitioner.partition (scalarConstraints g.constr_mng_)) :
    supportOf ps ⊆ supportSet fun e => exists name soft, P name soft e := by
  intro id hid
  have howned := hg.usedAlone.left.owned
  rcases hid with ⟨p, hp, hmem⟩
  have hparts := ConstraintPartitioner.partition_isPartition _ howned.scalars.ids
  rcases (hparts.support p (hps hp) id).mp hmem with ⟨c, hcp, hmem⟩
  have hc := Generator.mem_of_mem_partition howned.scalars (hps hp) hcp
  have hown := List.mem_of_mem_filter (List.mem_of_mem_filter hc)
  have hP := (h.iff c.name_ c.soft_ c.expr_).mp ⟨c, hown, rfl, rfl, rfl⟩
  refine ⟨c.expr_, ⟨c.name_, c.soft_, hP⟩, ?_⟩
  rw [← (howned.wellMade.made c hown).support]
  exact hmem

/-- The item has to be built, or the solvers that its generator has are for all of its hard
constraints. -/
def Prepared (s : Items) (i : Nat) : Prop :=
  s.built_ i = true -> forall g, s.gen_ i = some g ->
    Generator.HardsIn (scalarConstraints g.constr_mng_) g.scope.partitions

/-- The generator that a call goes on with has solvers for all hard constraints, or it is going
to build them. -/
theorem hardsIn_of_prepared {i : Nat} (hprepared : Prepared s i) {s₁ s₂ : Items}
    (hmaintained : Maintained vcon s₁ w)
    (hcheck : crosscheck_constraints t vcon i s = some s₁)
    (hbuild : build t i s₁ w = (.ok (), s₂, w')) {g : Generator} (hg : s₂.gen_ i = some g) :
    Generator.HardsIn (scalarConstraints g.constr_mng_) g.scope.partitions := by
  cases hbuilt : s.built_ i with
  | true =>
      unfold Items.crosscheck_constraints at hcheck
      rw [if_pos hbuilt] at hcheck
      cases hcheck
      unfold Items.build at hbuild
      rw [if_pos hbuilt] at hbuild
      cases hbuild
      exact hprepared hbuilt g hg
  | false =>
      have hunbuilt : s₁.built_ i ≠ true :=
        of_crosscheck_constraints (P := fun s => s.built_ i ≠ true)
          (fun _ _ hj hbuilt => hj (built_deactivate hbuilt)) (fun _ => by simp [hbuilt])
          (by simp [hbuilt]) hcheck
      exact (grown_of_build hmaintained (Bool.eq_false_iff.mpr hunbuilt) hbuild hg).hardsIn

/-- Whenever a call of `randomize` succeeds, every hard expression that the item reaches
holds of the values in force, `foreach` and `unique` apart. -/
theorem randomize_sound {env : Environment} (hsound : env.Sound) (h : Reachable t vcon s w)
    {i : Nat} (hprepared : Prepared s i)
    (hrandomize : randomize t env vcon i s w = some (.ok true, s', w'))
    (hunwritten : Unwritten vcon (supportSet fun e =>
      exists name soft, Demands t s' i name soft e)) :
    exists g, s'.gen_ i = some g ∧ forall name e, Demands t s' i name false e ->
      e.isForEach = false -> e.isUnique = false ->
        NodeHolds (assignment vcon w'.memory w'.memory g.reported) e := by
  rcases randomize_cases hrandomize with ⟨hkind, s₁, s₂, w₂, hcheck, hcases⟩
  rcases hcases with ⟨what, _, hresult, _⟩ | ⟨hbuild, g, g', hg, hnext, rfl⟩
  · cases hresult
  · have hbuilt := built_of_build hbuild
    have hinv := (h.invariant.crosscheck_constraints hcheck).build hkind hbuild
    rcases hinv.holds i hbuilt with ⟨g₀, hg₀, _, hholds⟩
    rw [hg] at hg₀
    cases hg₀
    have hchecked := h.maintained.crosscheck_constraints hcheck
    have hkept := (hchecked.build hbuild).left.gen_ i g hbuilt hg
    have hhards := hardsIn_of_prepared hprepared hchecked hcheck hbuild hg
    have hscope := hkept.usedAlone.scope
    have hcover : forall q, q ∈ g.scope.goals -> forall c, c ∈ q.1.constraints_ ->
        c.cover_ = false := by
      intro q hq c hc
      have hmem := Generator.mem_of_mem_partition hkept.usedAlone.left.owned.scalars
        (hscope.right (List.mem_map_of_mem hq)) hc
      exact (hholds.enabled c (List.mem_of_mem_filter (List.mem_of_mem_filter hmem))).right
    have hsupport : g.scope.support ⊆ supportSet fun e =>
        exists name soft, Demands t s₂ i name soft e :=
      hholds.support_subset hkept (List.append_subset.mpr hscope)
    refine ⟨g', Function.update_self _ _ _, ?_⟩
    intro name e he hforEach hunique
    rcases hholds.mem_scalarConstraints hkept he hforEach hunique with ⟨c, hc, hhard, rfl⟩
    exact Generator.holdsIn_of_standing hsound hkept.usedAlone.left (hunwritten.mono hsupport)
      (Generator.coverageKeeps_of_no_goal hhards hcover) hnext hc hhard

/-- Whenever a call with a list of expressions succeeds, the list and every hard expression
that the item reaches hold of the values in force, `foreach` and `unique` apart. -/
theorem randomize_with_sound {env : Environment} (hsound : env.Sound)
    (h : Reachable t vcon s w) {i : Nat} {list : List Ir.Node} (hlist : Built vcon list)
    {g' : Generator}
    (hrandomize : randomize_with_expr_list t env vcon i list s w = some (.ok true, g', w'))
    (hunwritten : Unwritten vcon (supportSet fun e =>
      (exists name soft, Demands t s i name soft e) ∨ e ∈ list.map FixWidthVisitor.fixWidth))
    {e : Ir.Node}
    (he : (exists name, Demands t s i name false e) ∨ e ∈ list.map FixWidthVisitor.fixWidth)
    (hforEach : e.isForEach = false) (hunique : e.isUnique = false) :
    NodeHolds (assignment vcon w'.memory w'.memory g'.reported) e := by
  rcases randomize_with_cases h.maintained hlist hrandomize with
    ⟨g, w₁, id, hgrown, _, hholds, hnext⟩
  have hasked : exists name, Demands t s i name false e ∨ Given list id name false e := by
    rcases he with ⟨name, hdemands⟩ | hmem
    · exact ⟨name, Or.inl hdemands⟩
    · rcases List.mem_map.mp hmem with ⟨n, hn, hfixed⟩
      rcases List.mem_iff_getElem?.mp hn with ⟨k, hk⟩
      exact ⟨_, Or.inr ⟨rfl, k, n, hk, rfl, hfixed.symm⟩⟩
  rcases hasked with ⟨name, hasked⟩
  rcases hholds.mem_scalarConstraints hgrown.kept hasked hforEach hunique with
    ⟨c, hc, hhard, rfl⟩
  refine Generator.holdsIn_next_of_standing hsound hgrown.kept.usedAlone.left ?_ hgrown.hardsIn
    hnext hc hhard
  apply hunwritten.mono
  intro x hx
  rcases hholds.support_subset hgrown.kept hgrown.kept.usedAlone.scope.left hx with
    ⟨e', ⟨name', soft', hP⟩, hid⟩
  refine ⟨e', ?_, hid⟩
  rcases hP with hdemands | ⟨_, k, n, hk, _, he'⟩
  · exact Or.inl ⟨name', soft', hdemands⟩
  · apply Or.inr
    rw [he']
    exact List.mem_map_of_mem (List.mem_of_getElem? hk)

end Runs

/-!
### A constraint of an item

The constraint is on a variable of its own, and the vector of the item is empty. First there
is an expression over the whole vector, which no solver takes.
-/

/-- `x == 7` -/
def isSeven : Ir.Node :=
  .binaryOpr .equalOpr (.variableExpr 1 8 false) (.constant ⟨7, 8, false⟩)

/-- `x < 9` -/
def belowNine : Ir.Node :=
  .binaryOpr .lessOpr (.variableExpr 1 8 false) (.constant ⟨9, 8, false⟩)

def envSeven : Environment :=
  Environment.simple (Oracle.ofModel fun v =>
    match v with
    | .terminal _ => 7
    | .selector _ => 1) id

def itemsOf (list : List Ir.Node) : Items :=
  new (fun _ => true) fun i => if i = 4 then list else []

theorem reachable_itemsOf {list : List Ir.Node} (hlist : Built Generator.vconVector list)
    (w : World) : Reachable vectorTree Generator.vconVector (itemsOf list) w := by
  apply Reachable.new
  intro i e he
  split at he
  · exact hlist e he
  · cases he

theorem unwritten_vconVector (support : Set Nat) : Unwritten Generator.vconVector support := by
  intro r hr
  cases hr

theorem built_wholeVector : Built Generator.vconVector [Generator.wholeVector, isSeven] := by
  intro e he
  rcases List.mem_cons.mp he with rfl | he
  · exact ⟨rfl, rfl⟩
  · rw [List.mem_singleton.mp he]
    exact ⟨rfl, by decide, by decide, by decide⟩

theorem built_belowNine : Built Generator.vconVector [isSeven, belowNine] := by
  intro e he
  rcases List.mem_cons.mp he with rfl | he
  · exact ⟨rfl, by decide, by decide, by decide⟩
  · rw [List.mem_singleton.mp he]
    exact ⟨rfl, by decide, by decide, by decide⟩

def made (list : List Ir.Node) (w : World) : Outcome Unit :=
  addExpressions false "item.c" 0 list (Generator.new.addVecId 2) w

def called (list : List Ir.Node) (w : World) : Outcome Bool :=
  Generator.nextCov envSeven Generator.vconVector (made list w).2.1 (made list w).2.2

def worldThrown : World :=
  (called [Generator.wholeVector, isSeven] Generator.worldZero).2.2

theorem demands_of_list {s : Items} {list : List Ir.Node} {k : Nat} {e : Ir.Node} {name : String}
    (hactive : s.active_ 4 = true) (hlist : s.list_ 4 = list) (hk : list[k]? = some e)
    (hname : name = "item.c" ++ "#" ++ toString (k % 2 ^ 32))
    (hwidth : FixWidthVisitor.fixWidth e = e) :
    Demands vectorTree s 1 name false e := by
  refine ⟨4, ?_, rfl, hactive, k, e, by rw [hlist]; exact hk, hname, hwidth.symm⟩
  exact Reaches.child rfl (List.mem_cons_of_mem 2 (List.mem_singleton_self 4)) (Reaches.refl 4)

/-- The first call throws. The constraint gets other expressions, and after the next call
they hold. -/
theorem randomize_sound_seven : exists what s₁ w₁ s₂ w₂ g,
    randomize vectorTree envSeven Generator.vconVector 1
      (itemsOf [Generator.wholeVector, isSeven]) Generator.worldZero =
        some (.error what, s₁, w₁) ∧
      s₁.built_ 1 = true ∧
        randomize vectorTree envSeven Generator.vconVector 1
          (assign vectorTree 4 [isSeven, belowNine] s₁) w₁ = some (.ok true, s₂, w₂) ∧
          s₂.gen_ 1 = some g ∧
            (NodeHolds (assignment Generator.vconVector w₂.memory w₂.memory g.reported) isSeven ∧
              NodeHolds (assignment Generator.vconVector w₂.memory w₂.memory g.reported)
                belowNine) := by
  let list := [Generator.wholeVector, isSeven]
  have hfirst : (made list Generator.worldZero) =
      (.ok (), (made list Generator.worldZero).2.1, (made list Generator.worldZero).2.2) := rfl
  have hthrows : (called list Generator.worldZero).1.toOption = none := by decide +kernel
  cases hcalled : called list Generator.worldZero with
  | mk result rest =>
      rcases rest with ⟨g₁, w₁⟩
      rw [hcalled] at hthrows
      cases result with
      | ok r => cases hthrows
      | error what =>
          rcases randomize_vectorTree (s := itemsOf list) rfl rfl hfirst hcalled with
            ⟨s₁, hrandomize₁, hbuilt₁, hactive₁, hlist₁, _⟩
          have hreachable := (reachable_itemsOf built_wholeVector Generator.worldZero).randomize
            envSeven 1 _ hrandomize₁
          have hworld : w₁ = worldThrown := (congrArg (fun o => o.2.2) hcalled).symm
          let s := assign vectorTree 4 [isSeven, belowNine] s₁
          have hrequested : Requested
              { s₁ with list_ := Function.update s₁.list_ 4 [isSeven, belowNine] } s :=
            requested_request_rebuild 4 _
          have hunbuilt : s.built_ 1 = false :=
            built_request_rebuild (Relation.ReflTransGen.single rfl) rfl _
          have hactive : s.active_ 4 = true := by
            rw [hrequested.active_]
            show s₁.active_ 4 = true
            rw [hactive₁]
            rfl
          have hlist : s.list_ 4 = [isSeven, belowNine] := by
            rw [hrequested.list_]
            simp only [Function.update_self]
          let again := called [isSeven, belowNine] w₁
          have htrue : again = (.ok true, again.2.1, again.2.2) := by
            have hresult : (called [isSeven, belowNine] worldThrown).1.toOption.any id = true := by
              decide +kernel
            rw [← hworld] at hresult
            rcases exists_of_any hresult with ⟨result, hok, hid⟩
            exact Prod.ext (hok.trans (congrArg Except.ok hid)) rfl
          have hadd : addExpressions false "item.c" 0 (s.list_ 4) (Generator.new.addVecId 2) w₁ =
              (.ok (), (made [isSeven, belowNine] w₁).2.1,
                (made [isSeven, belowNine] w₁).2.2) := by
            rw [hlist]
            rfl
          rcases randomize_vectorTree hunbuilt hactive hadd htrue with
            ⟨s₂, hrandomize, _, hactive₂, hlist₂, _⟩
          have hsound : envSeven.Sound := Oracle.ofModel_sound _
          have hprepared : Prepared s 1 := by
            intro hbuilt
            rw [hunbuilt] at hbuilt
            cases hbuilt
          rcases randomize_sound hsound (hreachable.assign 4 _ built_belowNine) hprepared
              hrandomize (unwritten_vconVector _) with ⟨g, hg, hholds⟩
          refine ⟨what, s₁, w₁, s₂, again.2.2, g, hrandomize₁, hbuilt₁, hrandomize, hg, ?_, ?_⟩
          · apply hholds "item.c#0" isSeven _ rfl rfl
            exact demands_of_list (by rw [hactive₂]; exact hactive) (hlist₂ ▸ hlist)
              (k := 0) rfl (by decide) (by decide)
          · apply hholds "item.c#1" belowNine _ rfl rfl
            exact demands_of_list (by rw [hactive₂]; exact hactive) (hlist₂ ▸ hlist)
              (k := 1) rfl (by decide) (by decide)

theorem randomize_with_sound_seven : exists g' w',
    randomize_with_expr_list vectorTree envSeven Generator.vconVector 1 [belowNine]
      (itemsOf [isSeven]) Generator.worldZero = some (.ok true, g', w') ∧
      NodeHolds (assignment Generator.vconVector w'.memory w'.memory g'.reported) isSeven ∧
        NodeHolds (assignment Generator.vconVector w'.memory w'.memory g'.reported)
          belowNine := by
  let first := made [isSeven] Generator.worldZero
  have hrecursive := recursive_build_vectorTree (s := itemsOf [isSeven]) (w := Generator.worldZero)
    rfl (show first = (.ok (), first.2.1, first.2.2) from rfl)
  let given := first.2.1.makeConstraint none belowNine false false first.2.2
  have hgiven : given = (.ok (), given.2.1, given.2.2) := rfl
  let after := Generator.next envSeven Generator.vconVector given.2.1 given.2.2
  have hresult : after.1.toOption.any id = true := by decide +kernel
  rcases exists_of_any hresult with ⟨result, hok, htrue⟩
  have hnext : Generator.next envSeven Generator.vconVector given.2.1 given.2.2 =
      (.ok true, after.2.1, after.2.2) :=
    Prod.ext (hok.trans (congrArg Except.ok htrue)) rfl
  have hrandomize : randomize_with_expr_list vectorTree envSeven Generator.vconVector 1 [belowNine]
      (itemsOf [isSeven]) Generator.worldZero = some (.ok true, after.2.1, after.2.2) := by
    rw [randomize_with_expr_list, if_pos (by rfl), hrecursive]
    simp only [buildAll]
    rw [show first.2.1.makeConstraint none belowNine false false first.2.2 = _ from hgiven]
    exact congrArg some hnext
  have hsound : envSeven.Sound := Oracle.ofModel_sound _
  have hseven : Built Generator.vconVector [isSeven] := fun e he =>
    built_belowNine e (List.mem_cons.mpr (Or.inl (List.mem_singleton.mp he)))
  have hbelow : Built Generator.vconVector [belowNine] := fun e he =>
    built_belowNine e (List.mem_cons_of_mem _ he)
  have hreachable := reachable_itemsOf hseven Generator.worldZero
  refine ⟨after.2.1, after.2.2, hrandomize, ?_, ?_⟩
  · exact randomize_with_sound hsound hreachable hbelow hrandomize (unwritten_vconVector _)
      (Or.inl ⟨"item.c#0", demands_of_list rfl rfl (k := 0) rfl (by decide) (by decide)⟩) rfl rfl
  · exact randomize_with_sound hsound hreachable hbelow hrandomize (unwritten_vconVector _)
      (Or.inr (by decide)) rfl rfl

end Items
end Experimental
end Crave
