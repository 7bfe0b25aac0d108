import Mathlib.Data.Finset.Union
import Mathlib.Data.List.Flatten
import Mathlib.Data.List.Perm.Basic
import Mathlib.Data.List.Pairwise
import Mathlib.Logic.Relation

/-!
# Connected components of items with keys

Items that share a key are neighbours.  A division of a list of items into
parts is a division into connected components when neighbours lie in one part
and the members of a part are linked by a chain inside the part.
-/

namespace Crave
namespace Foundation

section Components

variable {item key : Type} {support : item -> Finset key}

/-- Two items share a key. -/
def Shares (support : item -> Finset key) (a b : item) : Prop :=
  exists k, k ∈ support a ∧ k ∈ support b

/-- A chain of items of the list in which neighbours share a key. -/
def Linked (support : item -> Finset key) (items : List item) : item -> item -> Prop :=
  Relation.ReflTransGen fun a b => a ∈ items ∧ b ∈ items ∧ Shares support a b

theorem Shares.symm {a b : item} (h : Shares support a b) : Shares support b a := by
  rcases h with ⟨k, ha, hb⟩
  exact ⟨k, hb, ha⟩

theorem Linked.refl (items : List item) (a : item) : Linked support items a a :=
  Relation.ReflTransGen.refl

theorem Linked.trans {items : List item} {a b c : item} (hab : Linked support items a b)
    (hbc : Linked support items b c) : Linked support items a c :=
  Relation.ReflTransGen.trans hab hbc

theorem Linked.of_shares {items : List item} {a b : item} (ha : a ∈ items)
    (hb : b ∈ items) (h : Shares support a b) : Linked support items a b :=
  Relation.ReflTransGen.single ⟨ha, hb, h⟩

theorem Linked.symm {items : List item} {a b : item} (h : Linked support items a b) :
    Linked support items b a := by
  induction h with
  | refl => exact Linked.refl items a
  | tail _ hstep ih =>
      rcases hstep with ⟨hx, hy, hshares⟩
      exact (Linked.of_shares hy hx hshares.symm).trans ih

theorem Linked.mono {items items' : List item} {a b : item}
    (hsub : forall x, x ∈ items -> x ∈ items') (h : Linked support items a b) :
    Linked support items' a b := by
  induction h with
  | refl => exact Linked.refl items' a
  | tail _ hstep ih =>
      rcases hstep with ⟨hx, hy, hshares⟩
      exact ih.trans (Linked.of_shares (hsub _ hx) (hsub _ hy) hshares)

/-- No member of one list is a neighbour of a member of the other. -/
def Separate (support : item -> Finset key) (p q : List item) : Prop :=
  forall a, a ∈ p -> forall b, b ∈ q -> ¬ Shares support a b

instance : Std.Symm (Separate support) where
  symm _ _ h b hb a ha hshares := h a ha b hb hshares.symm

/-- A division of the items into connected components. -/
structure Components (support : item -> Finset key) (items : List item)
    (parts : List (List item)) : Prop where
  perm : parts.flatten.Perm items
  separate : parts.Pairwise (Separate support)
  connected : forall p, p ∈ parts -> forall a, a ∈ p -> forall b, b ∈ p ->
    Linked support p a b

theorem Components.nil : Components support [] [] :=
  ⟨List.Perm.nil, List.Pairwise.nil, fun _ hp => absurd hp List.not_mem_nil⟩

theorem Components.mem_iff {items : List item} {parts : List (List item)}
    (h : Components support items parts) (a : item) :
    a ∈ items ↔ exists p, p ∈ parts ∧ a ∈ p := by
  rw [← h.perm.mem_iff, List.mem_flatten]

theorem Components.eq_of_shares {items : List item} {parts : List (List item)}
    (h : Components support items parts) {p q : List item} {a b : item} (hp : p ∈ parts)
    (hq : q ∈ parts) (ha : a ∈ p) (hb : b ∈ q) (hshares : Shares support a b) : p = q := by
  by_contra hne
  exact h.separate.forall hp hq hne a ha b hb hshares

/-- The parts are the connected components: two items lie in one part exactly
when they are linked. -/
theorem Components.linked_iff {items : List item} {parts : List (List item)}
    (h : Components support items parts) {a b : item} (ha : a ∈ items) :
    Linked support items a b ↔ exists p, p ∈ parts ∧ a ∈ p ∧ b ∈ p := by
  constructor
  · intro hlinked
    rcases (h.mem_iff a).mp ha with ⟨p, hp, hap⟩
    refine ⟨p, hp, hap, ?_⟩
    induction hlinked with
    | refl => exact hap
    | tail _ hstep ih =>
        rcases hstep with ⟨_, hy, hshares⟩
        rcases (h.mem_iff _).mp hy with ⟨q, hq, hyq⟩
        rw [h.eq_of_shares hp hq ih hyq hshares]
        exact hyq
  · rintro ⟨p, hp, hap, hbp⟩
    refine (h.connected p hp a hap b hbp).mono fun x hx => ?_
    exact (h.mem_iff x).mpr ⟨p, hp, hx⟩

/-!
## Assignments over separate parts

When truth of an item depends only on the values at its keys, parts that share
no key can be satisfied one by one.
-/

section Assignments

variable {value : Type} {holds : (key -> value) -> item -> Prop}
  {allowed : key -> value -> Prop}

/-- Truth of an item depends only on the values at its keys. -/
def Local (support : item -> Finset key) (holds : (key -> value) -> item -> Prop)
    (a : item) : Prop :=
  forall m m' : key -> value, (forall k, k ∈ support a -> m k = m' k) ->
    (holds m a ↔ holds m' a)

open Classical in
/-- The first assignment at the keys of the given items, the second elsewhere. -/
noncomputable def glue (support : item -> Finset key) (p : List item) (m m' : key -> value) :
    key -> value :=
  fun k => if exists a, a ∈ p ∧ k ∈ support a then m k else m' k

theorem glue_inside {p : List item} {m m' : key -> value} {a : item} {k : key} (ha : a ∈ p)
    (hk : k ∈ support a) : glue support p m m' k = m k :=
  if_pos ⟨a, ha, hk⟩

theorem glue_outside {p q : List item} (hseparate : Separate support p q)
    {m m' : key -> value} {b : item} {k : key} (hb : b ∈ q) (hk : k ∈ support b) :
    glue support p m m' k = m' k := by
  refine if_neg ?_
  rintro ⟨a, ha, hka⟩
  exact hseparate a ha b hb ⟨k, hka, hk⟩

theorem exists_glued {parts : List (List item)}
    (hlocal : forall p, p ∈ parts -> forall a, a ∈ p -> Local support holds a)
    (hseparate : parts.Pairwise (Separate support))
    (hallowed : exists m : key -> value, forall k, allowed k (m k))
    (h : forall p, p ∈ parts -> exists m, (forall k, allowed k (m k)) ∧
      forall a, a ∈ p -> holds m a) :
    exists m, (forall k, allowed k (m k)) ∧
      forall p, p ∈ parts -> forall a, a ∈ p -> holds m a := by
  induction parts with
  | nil =>
      rcases hallowed with ⟨m, hm⟩
      exact ⟨m, hm, fun p hp => absurd hp List.not_mem_nil⟩
  | cons p rest ih =>
      rw [List.pairwise_cons] at hseparate
      rcases h p List.mem_cons_self with ⟨m, hm, hholds⟩
      rcases ih (fun q hq => hlocal q (List.mem_cons_of_mem p hq)) hseparate.2
        (fun q hq => h q (List.mem_cons_of_mem p hq)) with ⟨m', hm', hholds'⟩
      refine ⟨glue support p m m', fun k => ?_, fun q hq a ha => ?_⟩
      · unfold glue
        split
        · exact hm k
        · exact hm' k
      · rcases List.mem_cons.mp hq with rfl | hq'
        · exact (hlocal q hq a ha _ _ fun k hk => glue_inside ha hk).mpr (hholds a ha)
        · exact (hlocal q hq a ha _ _ fun k hk =>
            glue_outside (hseparate.1 q hq') ha hk).mpr (hholds' q hq' a ha)

end Assignments

end Components

end Foundation
end Crave
