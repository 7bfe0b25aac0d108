import Crave.Backend.GeneratorExceptions
import Crave.Experimental.SequenceItem

/-!
# The generators of sequence items

An item that counts as built has a generator with exactly the expressions of the
active constraints that its build reaches. The build goes down from object to object
and stops at vectors and at constraints.
-/

namespace Crave
namespace Experimental
namespace Items

open Ir Backend

variable {t : ObjectTree} {s s' : Items}

/-!
## What is below an object
-/

/-- In the subtree of an object. -/
def Below (t : ObjectTree) : Nat -> Nat -> Prop :=
  Relation.ReflTransGen fun p i => t.parent_ i = some p

/-- Vectors and constraints do not build their children. -/
def Kind.descends : Kind -> Bool
  | .vector _ => false
  | .constraint _ => false
  | _ => true

/-- In the subtree of an object, with neither a vector nor a constraint above it. -/
inductive Reaches (t : ObjectTree) : Nat -> Nat -> Prop where
  | refl (i : Nat) : Reaches t i i
  | child {i c j : Nat} (descends : Kind.descends (t.kind i) = true) (hc : c ∈ t.children_ i)
      (hj : Reaches t c j) : Reaches t i j

theorem below_of_reaches {i j : Nat} (h : Reaches t i j) : Below t i j := by
  induction h with
  | refl i => exact Relation.ReflTransGen.refl
  | child _ hc _ ih => exact Relation.ReflTransGen.head ((t.linked _ _).mp hc) ih

/-- An expression of an active constraint, and the name it gets in a generator. -/
def Expresses (t : ObjectTree) (s : Items) (j : Nat) (name : String) (soft : Bool) (e : Ir.Node) :
    Prop :=
  t.kind j = .constraint soft ∧ s.active_ j = true ∧ exists k n, (s.list_ j)[k]? = some n ∧
    name = t.fullname_ j ++ "#" ++ toString (k % 2 ^ 32) ∧ e = FixWidthVisitor.fixWidth n

/-- The constraints of a list are these expressions, enabled. -/
structure Holds (cs : List UserConstraint) (P : String -> Bool -> Ir.Node -> Prop) : Prop where
  enabled : forall c, c ∈ cs -> c.enabled_ = true ∧ c.cover_ = false
  iff : forall name soft e,
    (exists c, c ∈ cs ∧ c.name_ = name ∧ c.soft_ = soft ∧ c.expr_ = e) ↔ P name soft e

/-- The generator holds each expression of the active constraints among these objects
once, and nothing else. -/
def HoldsExactly (t : ObjectTree) (s : Items) (among : Nat -> Prop) (g : Generator) : Prop :=
  (g.constr_mng_.constraints_.map UserConstraint.name_).Nodup ∧
    Holds g.constr_mng_.constraints_ fun name soft e =>
      exists j, among j ∧ Expresses t s j name soft e

theorem Holds.nil {P : String -> Bool -> Ir.Node -> Prop}
    (h : forall name soft e, ¬ P name soft e) : Holds [] P := by
  constructor
  · intro c hc
    cases hc
  · intro name soft e
    constructor
    · intro hc
      rcases hc with ⟨c, hc, _⟩
      cases hc
    · intro hP
      exact absurd hP (h name soft e)

theorem Holds.append {cs ds : List UserConstraint} {P Q R : String -> Bool -> Ir.Node -> Prop}
    (hP : Holds cs P) (hQ : Holds ds Q) (hR : forall name soft e, R name soft e ↔
      P name soft e ∨ Q name soft e) : Holds (cs ++ ds) R := by
  constructor
  · intro c hc
    cases List.mem_append.mp hc with
    | inl hc => exact hP.enabled c hc
    | inr hc => exact hQ.enabled c hc
  · intro name soft e
    rw [hR, ← hP.iff, ← hQ.iff]
    constructor
    · intro h
      rcases h with ⟨c, hc, hrest⟩
      cases List.mem_append.mp hc with
      | inl hc => exact Or.inl ⟨c, hc, hrest⟩
      | inr hc => exact Or.inr ⟨c, hc, hrest⟩
    · intro h
      cases h with
      | inl h =>
          rcases h with ⟨c, hc, hrest⟩
          exact ⟨c, List.mem_append_left ds hc, hrest⟩
      | inr h =>
          rcases h with ⟨c, hc, hrest⟩
          exact ⟨c, List.mem_append_right cs hc, hrest⟩

theorem Holds.congr {cs : List UserConstraint} {P Q : String -> Bool -> Ir.Node -> Prop}
    (h : Holds cs P) (hPQ : forall name soft e, P name soft e ↔ Q name soft e) : Holds cs Q :=
  ⟨h.enabled, fun name soft e => (h.iff name soft e).trans (hPQ name soft e)⟩

/-!
## What a build adds
-/

/-- The generator has these expressions on top of what it had. -/
def Adds (g g' : Generator) (P : String -> Bool -> Ir.Node -> Prop) : Prop :=
  g'.constr_mng_.Consistent ∧ exists cs,
    g'.constr_mng_.constraints_ = g.constr_mng_.constraints_ ++ cs ∧ Holds cs P

theorem adds_makeConstraint {g g' : Generator} {w w' : World} {name : Option String}
    {e : Ir.Node} {soft : Bool} (hg : g.constr_mng_.Consistent)
    (h : g.makeConstraint name e soft false w = (.ok (), g', w')) :
    Adds g g' fun name' soft' e' =>
      name' = name.getD ("constraint_" ++ toString (w.constraint_ID + 1)) ∧ soft' = soft ∧
        e' = FixWidthVisitor.fixWidth e := by
  rcases Generator.makeConstraint_ok h with ⟨mng', hmake, rfl, _⟩
  refine ⟨hg.makeConstraint hmake, ?_⟩
  rcases ConstraintManager.makeConstraint_spec hmake with
    ⟨_, c, rfl, _, hexpr, hname, _, hsoft, hcover, henabled⟩
  refine ⟨[c], rfl, ?_, ?_⟩
  · intro d hd
    rw [List.mem_singleton.mp hd]
    exact ⟨henabled, hcover⟩
  · intro name' soft' e'
    constructor
    · intro hd
      rcases hd with ⟨d, hd, hd_name, hd_soft, hd_expr⟩
      rw [List.mem_singleton.mp hd] at hd_name hd_soft hd_expr
      exact ⟨hd_name.symm.trans hname, hd_soft.symm.trans hsoft, hd_expr.symm.trans hexpr⟩
    · intro hd
      rcases hd with ⟨rfl, rfl, rfl⟩
      exact ⟨c, List.mem_singleton_self c, hname, hsoft, hexpr⟩

theorem adds_addExpressions {soft : Bool} {fullname : String} {l : List Ir.Node} {cnt : Nat}
    {g g' : Generator} {w w' : World} (hg : g.constr_mng_.Consistent) (hcnt : cnt < 2 ^ 32)
    (h : addExpressions soft fullname cnt l g w = (.ok (), g', w')) :
    Adds g g' fun name soft' e => soft' = soft ∧ exists k n, l[k]? = some n ∧
      name = fullname ++ "#" ++ toString ((cnt + k) % 2 ^ 32) ∧
        e = FixWidthVisitor.fixWidth n := by
  induction l generalizing cnt g w with
  | nil =>
      cases h
      refine ⟨hg, [], (List.append_nil _).symm, Holds.nil ?_⟩
      intro name soft' e hP
      rcases hP with ⟨_, k, n, hk, _⟩
      cases hk
  | cons n rest ih =>
      rw [addExpressions] at h
      split at h
      · cases h
      · next g₁ w₁ hmake =>
          rcases adds_makeConstraint hg hmake with ⟨hg₁, cs, hcs, hhead⟩
          rcases ih hg₁ (Nat.mod_lt _ (Nat.two_pow_pos 32)) h with ⟨hg', ds, hds, htail⟩
          refine ⟨hg', cs ++ ds, by rw [hds, hcs, List.append_assoc], hhead.append htail ?_⟩
          intro name soft' e
          constructor
          · intro hP
            rcases hP with ⟨hsoft, k, m, hk, hname, he⟩
            cases k with
            | zero =>
                cases hk
                rw [Nat.add_zero, Nat.mod_eq_of_lt hcnt] at hname
                exact Or.inl ⟨hname, hsoft, he⟩
            | succ k =>
                refine Or.inr ⟨hsoft, k, m, hk, ?_, he⟩
                rw [hname, Nat.mod_add_mod, Nat.add_right_comm, Nat.add_assoc]
          · intro hP
            cases hP with
            | inl hhead =>
                refine ⟨hhead.right.left, 0, n, rfl, ?_, hhead.right.right⟩
                rw [Nat.add_zero, Nat.mod_eq_of_lt hcnt]
                exact hhead.left
            | inr htail =>
                rcases htail with ⟨hsoft, k, m, hk, hname, he⟩
                refine ⟨hsoft, k + 1, m, hk, ?_, he⟩
                rw [hname, Nat.mod_add_mod, Nat.add_right_comm, Nat.add_assoc]

theorem adds_buildAll {α : Type} {build : α -> Generator -> World -> Outcome Unit}
    {P : α -> String -> Bool -> Ir.Node -> Prop} {objs : List α}
    (hbuild : forall obj, obj ∈ objs -> forall {g g' : Generator} {w w' : World},
      g.constr_mng_.Consistent -> build obj g w = (.ok (), g', w') -> Adds g g' (P obj))
    {g g' : Generator} {w w' : World} (hg : g.constr_mng_.Consistent)
    (h : buildAll build objs g w = (.ok (), g', w')) :
    Adds g g' fun name soft e => exists obj, obj ∈ objs ∧ P obj name soft e := by
  induction objs generalizing g w with
  | nil =>
      cases h
      refine ⟨hg, [], (List.append_nil _).symm, Holds.nil ?_⟩
      intro name soft e hP
      rcases hP with ⟨obj, hobj, _⟩
      cases hobj
  | cons obj rest ih =>
      rw [buildAll] at h
      split at h
      · cases h
      · next g₁ w₁ hobj =>
          rcases hbuild obj List.mem_cons_self hg hobj with ⟨hg₁, cs, hcs, hhead⟩
          have hrest := ih (fun o ho => hbuild o (List.mem_cons_of_mem obj ho)) hg₁ h
          rcases hrest with ⟨hg', ds, hds, htail⟩
          refine ⟨hg', cs ++ ds, by rw [hds, hcs, List.append_assoc], hhead.append htail ?_⟩
          intro name soft e
          simp

theorem adds_recursive_build {i : Nat} {g g' : Generator} {w w' : World}
    (hg : g.constr_mng_.Consistent) (h : recursive_build t s i g w = (.ok (), g', w')) :
    Adds g g' fun name soft e => exists j, Reaches t i j ∧ Expresses t s j name soft e := by
  -- the children are younger than the object
  induction hn : t.size - i using Nat.strong_induction_on generalizing i g g' w w' with
  | _ n ih =>
      have hchildren : Kind.descends (t.kind i) = true ->
          (forall soft, t.kind i ≠ .constraint soft) ->
          buildAll (fun obj => recursive_build t s obj.val) (t.children_ i).attach g w =
            (.ok (), g', w') ->
          Adds g g' fun name soft e => exists j, Reaches t i j ∧ Expresses t s j name soft e := by
        intro hdescends hconstraint hall
        have hadds := adds_buildAll (P := fun obj name soft e =>
          exists j, Reaches t obj.val j ∧ Expresses t s j name soft e)
          (fun obj _ {g₁ g₂ w₁ w₂} hg₁ hobj => by
            have hlt := t.older i obj.val ((t.linked i obj.val).mp obj.property)
            exact ih (t.size - obj.val) (by omega) hg₁ hobj rfl) hg hall
        rcases hadds with ⟨hg', cs, hcs, hholds⟩
        refine ⟨hg', cs, hcs, hholds.congr ?_⟩
        intro name soft e
        constructor
        · intro hP
          rcases hP with ⟨obj, _, j, hj, hexpresses⟩
          exact ⟨j, Reaches.child hdescends obj.property hj, hexpresses⟩
        · intro hP
          rcases hP with ⟨j, hj, hexpresses⟩
          cases hj with
          | refl => exact absurd hexpresses.left (hconstraint soft)
          | @child _ c _ _ hc hj => exact ⟨⟨c, hc⟩, List.mem_attach _ _, j, hj, hexpresses⟩
      rw [recursive_build] at h
      cases hkind : t.kind i with
      | constraint soft =>
          have hself : forall j, Reaches t i j -> j = i := by
            intro j hj
            cases hj with
            | refl => rfl
            | child hdescends _ _ => rw [hkind] at hdescends; cases hdescends
          rw [hkind] at h
          simp only at h
          split at h
          · next hactive =>
              rcases adds_addExpressions hg (Nat.two_pow_pos 32) h with ⟨hg', cs, hcs, hholds⟩
              refine ⟨hg', cs, hcs, hholds.congr ?_⟩
              intro name soft' e
              constructor
              · intro hP
                rcases hP with ⟨rfl, k, n, hk, hname, he⟩
                rw [Nat.zero_add] at hname
                exact ⟨i, Reaches.refl i, hkind, hactive, k, n, hk, hname, he⟩
              · intro hP
                rcases hP with ⟨j, hj, hkind', _, k, n, hk, hname, he⟩
                rw [hself j hj] at hkind' hk hname
                rw [hkind] at hkind'
                cases hkind'
                exact ⟨rfl, k, n, hk, by rw [Nat.zero_add]; exact hname, he⟩
          · next hactive =>
              cases h
              refine ⟨hg, [], (List.append_nil _).symm, Holds.nil ?_⟩
              intro name soft' e hP
              rcases hP with ⟨j, hj, _, hactive', _⟩
              rw [hself j hj] at hactive'
              exact hactive hactive'
      | vector id =>
          rw [hkind] at h
          cases h
          have hsame : (g.addVecId id).constr_mng_ = g.constr_mng_ := by
            unfold Generator.addVecId
            split
            · rfl
            · rfl
          refine ⟨by rw [hsame]; exact hg, [], by rw [hsame, List.append_nil], Holds.nil ?_⟩
          intro name soft e hP
          rcases hP with ⟨j, hj, hkind', _⟩
          cases hj with
          | refl => rw [hkind] at hkind'; cases hkind'
          | child hdescends _ _ => rw [hkind] at hdescends; cases hdescends
      | object =>
          rw [hkind] at h
          exact hchildren (by rw [hkind]; rfl) (fun soft => by rw [hkind]; simp) h
      | crv_var id =>
          rw [hkind] at h
          exact hchildren (by rw [hkind]; rfl) (fun soft => by rw [hkind]; simp) h
      | sequence_item cloned_ =>
          rw [hkind] at h
          exact hchildren (by rw [hkind]; rfl) (fun soft => by rw [hkind]; simp) h

end Items
end Experimental
end Crave
