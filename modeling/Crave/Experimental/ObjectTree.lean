import Crave.Experimental.ObjectLookup

/-!
# Trees of objects

The objects that are alive form trees: an object is in the list of children of its
parent, and children are younger than their parents. A hierarchy that is built by
constructions, and in which parents are destroyed after their children, is such a
tree.
-/

namespace Crave
namespace Experimental

/-- What the classes of objects do differently when a generator is built. -/
inductive Kind where
  | object
  | crv_var (id : Nat)
  | vector (id : Nat)
  | constraint (soft : Bool)
  | sequence_item (cloned_ : Bool)
deriving DecidableEq

structure ObjectTree where
  parent_ : Nat -> Option Nat
  children_ : Nat -> List Nat
  fullname_ : Nat -> String
  kind : Nat -> Kind
  size : Nat
  linked : forall p i, i ∈ children_ p ↔ parent_ i = some p
  nodup : forall p, (children_ p).Nodup
  older : forall p i, parent_ i = some p -> p < i ∧ i < size

namespace Hierarchy

structure Linked (s : Hierarchy) : Prop where
  children : forall p o i, s.objects p = some o ->
    (i ∈ o.children_ ↔ exists l, s.IsChild p i l)
  nodup : forall p o, s.objects p = some o -> o.children_.Nodup
  older : forall p i l, s.IsChild p i l -> p < i

namespace Linked

variable {s s' : Hierarchy}

theorem new : Hierarchy.new.Linked := by
  have hobject : forall i o, Hierarchy.new.objects i = some o -> o = Object.root := by
    intro i o ho
    by_cases hi : i = Hierarchy.root
    · subst hi
      exact (Option.some.inj ho).symm
    · simp [Hierarchy.new, Function.update_of_ne hi] at ho
  have hchild : forall p i l, ¬ Hierarchy.new.IsChild p i l := by
    intro p i l h
    rcases Option.map_eq_some_iff.mp h.left with ⟨o, ho, rfl⟩
    have hparent := h.right
    rw [hobject i o ho] at hparent
    cases hparent
  constructor
  · intro p o i ho
    rw [hobject p o ho]
    simp [Object.root, hchild]
  · intro p o ho
    rw [hobject p o ho]
    exact List.nodup_nil
  · intro p i l h
    exact absurd h (hchild p i l)

theorem of_objects_eq (h : s.Linked) (hobjects : s'.objects = s.objects) : s'.Linked := by
  have hlabel : s'.label = s.label := by
    rw [label_of_objects, hobjects, ← label_of_objects]
  constructor
  · intro p o i ho
    rw [hobjects] at ho
    simp only [IsChild, hlabel]
    exact h.children p o i ho
  · intro p o ho
    rw [hobjects] at ho
    exact h.nodup p o ho
  · intro p i l hl
    rw [IsChild, hlabel] at hl
    exact h.older p i l hl

theorem copy (h : s.Linked) (hinv : s.Invariant) {object : Nat}
    (hcopy : s.copy object = some s') : s'.Linked := by
  rcases copy_cases hcopy with ⟨other, _, hobjects, _⟩
  have hlabel := label_update hobjects
  have hchild : forall {p i l}, s'.IsChild p i l ↔ s.IsChild p i l :=
    hinv.isChild_insert_copy hlabel
  constructor
  · intro p o i ho
    simp only [hchild]
    by_cases hp : p = s.next
    · subst hp
      rw [hobjects, Function.update_self] at ho
      cases ho
      simp [Object.copy, hinv.not_isChild_next]
    · rw [hobjects, Function.update_of_ne hp] at ho
      exact h.children p o i ho
  · intro p o ho
    by_cases hp : p = s.next
    · subst hp
      rw [hobjects, Function.update_self] at ho
      cases ho
      exact List.nodup_nil
    · rw [hobjects, Function.update_of_ne hp] at ho
      exact h.nodup p o ho
  · intro p i l hl
    exact h.older p i l (hchild.mp hl)

theorem construct (h : s.Linked) (hinv : s.Invariant) (hconstruct : s.construct = some s') :
    s'.Linked := by
  rcases construct_cases hconstruct with ⟨_, top, parent, path, _, _, hparent, _, hobjects, _⟩
  have hlabel := label_update_update hparent (Object.label_addChild _ _ _) hobjects
  have hlt : s.parent < s.next := by
    apply hinv.older s.parent parent.label
    rw [label, hparent]
    rfl
  have hnext : forall p o, s.objects p = some o -> s.next ∉ o.children_ := by
    intro p o ho hmem
    rcases (h.children p o s.next ho).mp hmem with ⟨l, hl⟩
    have hlabel := hl.left
    rw [hinv.label_next] at hlabel
    cases hlabel
  have hchild : forall {p i}, (exists l, s'.IsChild p i l) ↔
      (p = s.parent ∧ i = s.next) ∨ exists l, s.IsChild p i l := by
    intro p i
    constructor
    · intro hl
      rcases hl with ⟨l, hl⟩
      cases (hinv.isChild_insert hlabel).mp hl with
      | inl hself => exact Or.inl ⟨(Option.some.inj hself.left).symm, hself.right.left⟩
      | inr hold => exact Or.inr ⟨l, hold⟩
    · intro hl
      cases hl with
      | inl hself =>
          rw [hself.left]
          exact ⟨_, (hinv.isChild_insert hlabel).mpr (Or.inl ⟨rfl, hself.right, rfl⟩)⟩
      | inr hold =>
          rcases hold with ⟨l, hl⟩
          exact ⟨l, (hinv.isChild_insert hlabel).mpr (Or.inr hl)⟩
  constructor
  · intro p o i ho
    rw [hchild]
    by_cases hp : p = s.next
    · rw [hp, hobjects, Function.update_self] at ho
      cases ho
      have hne : s.next ≠ s.parent := Ne.symm (Nat.ne_of_lt hlt)
      rw [hp]
      simp [hne, hinv.not_isChild_next]
    · rw [hobjects, Function.update_of_ne hp] at ho
      by_cases hpp : p = s.parent
      · rw [hpp, Function.update_self] at ho
        cases ho
        rw [hpp, ← h.children s.parent parent i hparent]
        simp [Object.addChild, or_comm]
      · rw [Function.update_of_ne hpp] at ho
        rw [h.children p o i ho]
        simp [hpp]
  · intro p o ho
    by_cases hp : p = s.next
    · rw [hp, hobjects, Function.update_self] at ho
      cases ho
      exact List.nodup_nil
    · rw [hobjects, Function.update_of_ne hp] at ho
      by_cases hpp : p = s.parent
      · rw [hpp, Function.update_self] at ho
        cases ho
        show (parent.children_ ++ [s.next]).Nodup
        apply (h.nodup s.parent parent hparent).append (List.nodup_singleton _)
        intro i hi hsingle
        rw [List.mem_singleton.mp hsingle] at hi
        exact hnext s.parent parent hparent hi
      · rw [Function.update_of_ne hpp] at ho
        exact h.nodup p o ho
  · intro p i l hl
    cases hchild.mp ⟨l, hl⟩ with
    | inl hself =>
        rw [hself.left, hself.right]
        exact hlt
    | inr hold =>
        cases hold with
        | intro a ha => exact h.older p i a ha

theorem destroy (h : s.Linked) {object : Nat} (hdestroy : s.destroy object = some s') :
    s'.Linked := by
  rcases destroy_cases hdestroy with ⟨_, this, hthis, _, _, _, hcases⟩
  have hl : s.label object = some this.label := by
    rw [label, hthis]
    rfl
  have hlabel : s'.label = Function.update s.label object none := by
    rcases hcases with ⟨_, hobjects⟩ | ⟨p, parent, _, hparent, hobjects⟩
    · exact label_update hobjects
    · exact label_update_update hparent (Object.label_remove_child _ _ _) hobjects
  have hchild : forall {p i}, (exists l, s'.IsChild p i l) ↔
      i ≠ object ∧ exists l, s.IsChild p i l := by
    intro p i
    simp only [Invariant.isChild_erase hlabel, exists_and_left]
  -- an object that stays has the children it had, without the destroyed one
  have hkept : forall p o, s'.objects p = some o -> p ≠ object ∧ exists q,
      s.objects p = some q ∧
        (o.children_ = q.children_ ∧ this.parent_ ≠ some p ∨
          o.children_ = q.children_.filter fun i => i ≠ object) := by
    intro p o ho
    have hp : p ≠ object := by
      intro hp
      have hnone : s'.label p = none := by rw [hlabel, hp, Function.update_self]
      rw [label, ho] at hnone
      cases hnone
    refine ⟨hp, ?_⟩
    rcases hcases with ⟨hnone, hobjects⟩ | ⟨q, parent, hq, hparent, hobjects⟩
    · rw [hobjects, Function.update_of_ne hp] at ho
      exact ⟨o, ho, Or.inl ⟨rfl, by simp [hnone]⟩⟩
    · rw [hobjects, Function.update_of_ne hp] at ho
      by_cases hpq : p = q
      · rw [hpq, Function.update_self] at ho
        cases ho
        rw [hpq]
        exact ⟨parent, hparent, Or.inr rfl⟩
      · rw [Function.update_of_ne hpq] at ho
        exact ⟨o, ho, Or.inl ⟨rfl, by simp [hq, Ne.symm hpq]⟩⟩
  constructor
  · intro p o i ho
    rcases hkept p o ho with ⟨hp, q, hq, hsame | hfilter⟩
    · rw [hchild, hsame.left, h.children p q i hq]
      constructor
      · intro hi
        refine ⟨?_, hi⟩
        intro hobject
        cases hi with
        | intro l hl' =>
            rw [hobject] at hl'
            have hparent := hl'.right
            rw [Option.some.inj (hl'.left.symm.trans hl)] at hparent
            exact hsame.right hparent
      · intro hi
        exact hi.right
    · rw [hchild, hfilter, List.mem_filter, h.children p q i hq]
      simp [and_comm]
  · intro p o ho
    rcases hkept p o ho with ⟨_, q, hq, hsame | hfilter⟩
    · rw [hsame.left]
      exact h.nodup p q hq
    · rw [hfilter]
      exact (h.nodup p q hq).filter _
  · intro p i l hl
    rcases (hchild.mp ⟨l, hl⟩).right with ⟨a, ha⟩
    exact h.older p i a ha

theorem perform (h : s.Linked) (hinv : s.Invariant) {op : Operation}
    (hperform : s.perform op = some s') : s'.Linked := by
  cases op with
  | name c =>
      cases hperform
      exact h.of_objects_eq rfl
  | copyName name =>
      rcases copyName_cases hperform with ⟨hobjects, _⟩
      exact h.of_objects_eq hobjects
  | destroyName name =>
      rcases destroyName_cases hperform with ⟨hobjects, _⟩
      exact h.of_objects_eq hobjects
  | construct => exact h.construct hinv hperform
  | copy object => exact h.copy hinv hperform
  | destroy object => exact h.destroy hperform

end Linked

theorem Reached.linked {s : Hierarchy} (h : Reached s) : s.Linked := by
  induction h with
  | new => exact Linked.new
  | step op before _ h ih => exact ih.perform before.invariant h

/-- The tree of a hierarchy whose objects are of these kinds. -/
def tree (s : Hierarchy) (h : Reached s) (kind : Nat -> Kind) : ObjectTree where
  parent_ := fun i => (s.label i).bind Label.parent_
  children_ := fun i => ((s.objects i).map Object.children_).getD []
  fullname_ := fun i => ((s.objects i).map Object.fullname_).getD ""
  kind := kind
  size := s.next
  linked := by
    intro p i
    have hparent : (s.label i).bind Label.parent_ = some p ↔ exists l, s.IsChild p i l := by
      rw [Option.bind_eq_some_iff]
      rfl
    rw [hparent]
    cases hp : s.objects p with
    | some o => exact h.linked.children p o i hp
    | none =>
        constructor
        · intro hi
          cases hi
        · intro hi
          rcases hi with ⟨l, hl⟩
          rcases h.invariant.parent p i l hl with ⟨q, hq⟩
          rw [label, hp] at hq
          cases hq
  nodup := by
    intro p
    cases hp : s.objects p with
    | some o => exact h.linked.nodup p o hp
    | none => exact List.nodup_nil
  older := by
    intro p i hi
    rcases Option.bind_eq_some_iff.mp hi with ⟨l, hl, hp⟩
    exact ⟨h.linked.older p i l ⟨hl, hp⟩, h.invariant.older i l hl⟩

end Hierarchy

end Experimental
end Crave
