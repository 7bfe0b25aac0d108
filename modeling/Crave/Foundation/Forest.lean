import Mathlib.Data.List.Nodup
import Mathlib.Logic.Function.Basic
import Mathlib.Logic.Relation

/-!
# Forests

Nodes are numbers. A node has at most one parent, which is smaller, and the list of
its children. The module gives the order in which the nodes of a subtree are visited
when every node comes after its children.
-/

namespace Crave
namespace Foundation

structure Forest where
  parent_ : Nat -> Option Nat
  children_ : Nat -> List Nat
  size : Nat
  linked : forall p i, i ∈ children_ p ↔ parent_ i = some p
  nodup : forall p, (children_ p).Nodup
  older : forall p i, parent_ i = some p -> p < i ∧ i < size

namespace Forest

def empty : Forest :=
  { parent_ := fun _ => none
    children_ := fun _ => []
    size := 0
    linked := by
      intro p i
      constructor
      · intro h
        cases h
      · intro h
        cases h
    nodup := fun _ => List.nodup_nil
    older := by
      intro p i h
      cases h }

variable (t : Forest)

theorem older_of_mem {p i : Nat} (h : i ∈ t.children_ p) : p < i ∧ i < t.size :=
  t.older p i ((t.linked p i).mp h)

theorem not_mem_of_size_le {p i : Nat} (hi : t.size ≤ i) : i ∉ t.children_ p := by
  intro h
  exact Nat.not_lt_of_le hi (t.older_of_mem h).right

def addRoot : Forest :=
  { t with
    size := t.size + 1
    older := by
      intro p i h
      exact ⟨(t.older p i h).left, Nat.lt_succ_of_lt (t.older p i h).right⟩ }

/-- A new node behind the other children of its parent. -/
def addChild (p : Nat) (hp : p < t.size) : Forest :=
  { parent_ := Function.update t.parent_ t.size (some p)
    children_ := Function.update t.children_ p (t.children_ p ++ [t.size])
    size := t.size + 1
    linked := by
      intro q i
      by_cases hi : i = t.size
      · rw [hi, Function.update_self]
        by_cases hq : q = p
        · rw [hq, Function.update_self]
          constructor
          · intro _
            rfl
          · intro _
            exact List.mem_append_right _ (List.mem_singleton_self _)
        · rw [Function.update_of_ne hq]
          constructor
          · intro h
            exact absurd h (t.not_mem_of_size_le (Nat.le_refl _))
          · intro h
            exact absurd (Option.some.inj h).symm hq
      · rw [Function.update_of_ne hi, ← t.linked q i]
        by_cases hq : q = p
        · rw [hq, Function.update_self, List.mem_append, List.mem_singleton]
          constructor
          · intro h
            exact h.resolve_right hi
          · intro h
            exact Or.inl h
        · rw [Function.update_of_ne hq]
    nodup := by
      intro q
      by_cases hq : q = p
      · rw [hq, Function.update_self, List.nodup_append]
        constructor
        · exact t.nodup p
        · constructor
          · exact List.nodup_singleton _
          · intro i hi j hj heq
            rw [heq, List.mem_singleton.mp hj] at hi
            exact t.not_mem_of_size_le (Nat.le_refl _) hi
      · rw [Function.update_of_ne hq]
        exact t.nodup q
    older := by
      intro q i h
      by_cases hi : i = t.size
      · rw [hi, Function.update_self] at h
        cases h
        rw [hi]
        exact ⟨hp, Nat.lt_succ_self _⟩
      · rw [Function.update_of_ne hi] at h
        exact ⟨(t.older q i h).left, Nat.lt_succ_of_lt (t.older q i h).right⟩ }

/-- The second node is in the subtree of the first one. -/
def Below : Nat -> Nat -> Prop :=
  Relation.ReflTransGen fun p i => t.parent_ i = some p

def postorder (i : Nat) : List Nat :=
  (t.children_ i).attach.flatMap (fun c => postorder c.val) ++ [i]
termination_by t.size - i
decreasing_by
  have hlt := t.older_of_mem c.property
  omega

theorem postorder_eq (i : Nat) :
    t.postorder i = (t.children_ i).flatMap t.postorder ++ [i] := by
  rw [postorder, List.flatMap_subtype (g := t.postorder) (fun _ _ => rfl), List.unattach_attach]

variable {t}

theorem Below.le {i j : Nat} (h : t.Below i j) : i ≤ j := by
  induction h with
  | refl => exact Nat.le_refl i
  | tail _ hparent ih => exact Nat.le_trans ih (Nat.le_of_lt (t.older _ _ hparent).left)

theorem Below.total {i j k : Nat} (h : t.Below i k) (h' : t.Below j k) :
    t.Below i j ∨ t.Below j i := by
  induction h with
  | refl => exact Or.inr h'
  | @tail b c _ hparent ih =>
      cases Relation.ReflTransGen.cases_tail h' with
      | inl heq =>
          rw [← heq]
          exact Or.inl (Relation.ReflTransGen.tail ‹_› hparent)
      | inr hex =>
          rcases hex with ⟨b', hb', hparent'⟩
          rw [hparent] at hparent'
          cases hparent'
          exact ih hb'

theorem not_below_of_siblings {p i j : Nat} (hi : t.parent_ i = some p)
    (hj : t.parent_ j = some p) (hne : i ≠ j) : ¬ t.Below i j := by
  intro h
  cases Relation.ReflTransGen.cases_tail h with
  | inl heq => exact hne heq.symm
  | inr hex =>
      rcases hex with ⟨b, hb, hparent⟩
      rw [hj] at hparent
      cases hparent
      exact Nat.not_le_of_lt (t.older p i hi).left (Below.le hb)

theorem disjoint_of_siblings {p i j k : Nat} (hi : t.parent_ i = some p)
    (hj : t.parent_ j = some p) (hne : i ≠ j) (hik : t.Below i k) : ¬ t.Below j k := by
  intro hjk
  cases hik.total hjk with
  | inl h => exact not_below_of_siblings hi hj hne h
  | inr h => exact not_below_of_siblings hj hi hne.symm h

theorem mem_postorder (i j : Nat) : j ∈ t.postorder i ↔ t.Below i j := by
  rw [postorder_eq, List.mem_append, List.mem_flatMap, List.mem_singleton]
  constructor
  · intro h
    cases h with
    | inl h =>
        rcases h with ⟨c, hc, hj⟩
        exact Relation.ReflTransGen.head ((t.linked i c).mp hc) ((mem_postorder c j).mp hj)
    | inr h =>
        rw [h]
        exact Relation.ReflTransGen.refl
  · intro h
    cases Relation.ReflTransGen.cases_head h with
    | inl heq => exact Or.inr heq.symm
    | inr hex =>
        rcases hex with ⟨c, hparent, hj⟩
        have hc := (t.linked i c).mpr hparent
        exact Or.inl ⟨c, hc, (mem_postorder c j).mpr hj⟩
termination_by t.size - i
decreasing_by
  · have hlt := t.older_of_mem hc
    omega
  · have hlt := t.older_of_mem hc
    omega

theorem nodup_postorder (i : Nat) : (t.postorder i).Nodup := by
  rw [postorder_eq, List.nodup_append]
  constructor
  · rw [List.nodup_flatMap]
    constructor
    · intro c hc
      exact nodup_postorder c
    · apply (t.nodup i).imp_of_mem
      intro a b ha hb hne k hka hkb
      exact disjoint_of_siblings ((t.linked i a).mp ha) ((t.linked i b).mp hb) hne
        ((mem_postorder a k).mp hka) ((mem_postorder b k).mp hkb)
  · constructor
    · exact List.nodup_singleton i
    · intro j hj k hk heq
      rcases List.mem_flatMap.mp hj with ⟨c, hc, hjc⟩
      rw [heq, List.mem_singleton.mp hk] at hjc
      exact Nat.not_le_of_lt (t.older_of_mem hc).left (Below.le ((mem_postorder c i).mp hjc))
termination_by t.size - i
decreasing_by
  have hlt := t.older_of_mem hc
  omega

end Forest

end Foundation
end Crave
