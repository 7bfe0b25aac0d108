import Crave.Experimental.Object
import Mathlib.Data.Finset.Card
import Mathlib.Data.Finset.Range

/-!
# Names of objects

When the children of an object have different names and the full name of an object
finds it. Both hold as long as the number that is put behind a name that is given
twice is not in use, and may fail after that.
-/

namespace Crave
namespace Experimental

/-- What an object is called and whose child it is. -/
structure Label where
  parent_ : Option Nat
  orig_name_ : String
  name_ : String
  fullname_ : String
deriving DecidableEq

namespace Object

def label (o : Object) : Label where
  parent_ := o.parent_
  orig_name_ := o.orig_name_
  name_ := o.name_
  fullname_ := o.fullname_

@[simp] theorem label_copy (o : Object) :
    o.copy.label = ⟨none, o.orig_name_, o.name_, o.fullname_⟩ :=
  rfl

@[simp] theorem label_addChild (o : Object) (child : Nat) (name : String) :
    (o.addChild child name).label = o.label :=
  rfl

@[simp] theorem label_remove_child (o : Object) (address : Nat) (child : Object) :
    (o.remove_child address child).label = o.label :=
  rfl

end Object

namespace Hierarchy

def label (s : Hierarchy) (i : Nat) : Option Label :=
  (s.objects i).map Object.label

/-- Alive and constructed under this parent. Copies have no parent. -/
def IsChild (s : Hierarchy) (parent_ i : Nat) (l : Label) : Prop :=
  s.label i = some l ∧ l.parent_ = some parent_

def DistinctNames (s : Hierarchy) : Prop :=
  forall p i j a b, s.IsChild p i a -> s.IsChild p j b -> a.name_ = b.name_ -> i = j

def LookupFinds (s : Hierarchy) : Prop :=
  forall p i a, s.IsChild p i a -> s.find a.fullname_ = some i ∧
    forall q j b, s.IsChild q j b -> b.fullname_ = a.fullname_ -> j = i

/-!
## The condition
-/

/-- Alive, and constructed under this parent with this name. -/
def isChildAs (label : Nat -> Option Label) (parent_ : Nat) (name : String) (i : Nat) : Bool :=
  (label i).any fun l => l.parent_ = some parent_ && l.orig_name_ = name

/-- How many children of an object were constructed with a name and are alive. -/
def count (s : Hierarchy) (parent_ : Nat) (name : String) : Nat :=
  ((Finset.range s.next).filter fun i => isChildAs s.label parent_ name i = true).card

/-- No child is called as the name and the number of the children constructed with
it, or as the name alone when there are none and the parent has no counter of it. -/
def Unused (s : Hierarchy) (parent_ : Nat) (parent : Object) (name : String) : Prop :=
  forall i l, s.IsChild parent_ i l ->
    if s.count parent_ name = 0 ∧ parent.local_name_map_ name = none then l.name_ ≠ name
    else l.name_ ≠ name ++ toString (s.count parent_ name)

def Meets (s : Hierarchy) : Operation -> Prop
  | .construct =>
      forall address top parent, s.crv_name_stack.head? = some address ->
        s.names address = some top -> s.objects s.parent = some parent ->
          '.' ∉ top.name_.toList ∧ s.count s.parent top.name_ + 1 < 2 ^ 32 ∧
            s.Unused s.parent parent top.name_
  | .destroy object =>
      forall l, s.label object = some l ->
        match l.parent_ with
        | none => forall p i a, s.IsChild p i a -> a.fullname_ ≠ l.fullname_
        | some p =>
            (forall i a, ¬ s.IsChild object i a) ∧
              (l.name_ = l.orig_name_ ∨ 1 < s.count p l.orig_name_ ∨ s.count p l.name_ = 0)
  | _ => True

/-- Reached by operations that meet the condition. -/
inductive Reached : Hierarchy -> Prop where
  | new : Reached new
  | step {s s' : Hierarchy} (op : Operation) (before : Reached s) (meets : s.Meets op)
      (h : s.perform op = some s') : Reached s'

/-- Three objects that are all called `a`: the second becomes `a1`, and so does the
third, which is made after the first is gone. -/
theorem names_collide :
    ¬ forall ops s, new.run ops = some s -> s.DistinctNames ∧ s.LookupFinds := by
  intro h
  let ops : List Operation :=
    [.name "a", .construct, .destroyName 1, .name "a", .construct, .destroyName 3,
      .destroy 2, .name "a", .construct, .destroyName 5]
  have hlabels : ((new.run ops).map fun s => (s.label 4, s.label 6)) =
      some (some ⟨some 0, "a", "a1", "a1"⟩, some ⟨some 0, "a", "a1", "a1"⟩) := by
    decide +kernel
  cases hs : new.run ops with
  | none => rw [hs] at hlabels; cases hlabels
  | some s =>
      rw [hs, Option.map_some] at hlabels
      injection Option.some.inj hlabels with h4 h6
      exact absurd ((h ops s hs).left 0 4 6 _ _ ⟨h4, rfl⟩ ⟨h6, rfl⟩ rfl) (by decide)

/-!
## What the operations do
-/

theorem destroyName_cases {s s' : Hierarchy} {name : Nat} (h : s.destroyName name = some s') :
    s'.objects = s.objects ∧ s'.crv_obj_map = s.crv_obj_map ∧ s'.next = s.next ∧
      (s'.crv_obj_stack = s.crv_obj_stack ∨ s'.crv_obj_stack = s.crv_obj_stack.tail) := by
  cases hthis : s.names name with
  | none => simp [destroyName, hthis] at h
  | some this =>
      cases hobject : this.object_ with
      | none =>
          simp [destroyName, hthis, hobject] at h
          subst h
          exact ⟨rfl, rfl, rfl, Or.inl rfl⟩
      | some object =>
          simp [destroyName, hthis, hobject] at h
          cases h.right
          exact ⟨rfl, rfl, rfl, Or.inr rfl⟩

theorem copyName_cases {s s' : Hierarchy} {name : Nat} (h : s.copyName name = some s') :
    s'.objects = s.objects ∧ s'.crv_obj_map = s.crv_obj_map ∧ s'.next = s.next + 1 ∧
      s'.crv_obj_stack = s.crv_obj_stack := by
  cases hother : s.names name with
  | none => simp [copyName, hother] at h
  | some other =>
      simp [copyName, hother] at h
      subst h
      exact ⟨rfl, rfl, rfl, rfl⟩

theorem construct_cases {s s' : Hierarchy} (h : s.construct = some s') :
    exists address top parent fullname, s.crv_name_stack.head? = some address ∧
      s.names address = some top ∧ s.objects s.parent = some parent ∧
        stackName s.objects s.crv_obj_stack = some fullname ∧
          s'.objects =
              Function.update
                (Function.update s.objects s.parent (some (parent.addChild s.next top.name_)))
                s.next
                (some
                  { name_ := (parent.checkName top.name_).1
                    orig_name_ := top.name_
                    parent_ := some s.parent
                    children_ := []
                    fullname_ := fullname ++ (parent.checkName top.name_).1
                    local_name_map_ := fun _ => none }) ∧
            s'.crv_obj_stack = s.next :: s.crv_obj_stack ∧
              s'.crv_obj_map =
                  Function.update s.crv_obj_map (fullname ++ (parent.checkName top.name_).1)
                    (some s.next) ∧
                s'.next = s.next + 1 := by
  simp only [construct, Option.bind_eq_bind, Option.bind_eq_some_iff] at h
  cases h with
  | intro address h =>
      cases h with
      | intro haddress h =>
          rcases h with ⟨top, htop, parent, hparent, fullname, hfullname, h⟩
          cases h
          exact ⟨address, top, parent, fullname, haddress, htop, hparent, hfullname, rfl, rfl, rfl,
            rfl⟩

theorem copy_cases {s s' : Hierarchy} {object : Nat} (h : s.copy object = some s') :
    exists other, s.objects object = some other ∧
      s'.objects = Function.update s.objects s.next (some other.copy) ∧
        s'.crv_obj_stack = s.crv_obj_stack ∧ s'.crv_obj_map = s.crv_obj_map ∧
          s'.next = s.next + 1 := by
  cases hother : s.objects object with
  | none => simp [copy, hother] at h
  | some other =>
      simp [copy, hother] at h
      subst h
      exact ⟨other, rfl, rfl, rfl, rfl, rfl⟩

theorem destroy_cases {s s' : Hierarchy} {object : Nat} (h : s.destroy object = some s') :
    object ≠ root ∧ exists this, s.objects object = some this ∧
      s'.crv_obj_stack = s.crv_obj_stack ∧ s'.next = s.next ∧
        s'.crv_obj_map = Function.update s.crv_obj_map this.fullname_ none ∧
          ((this.parent_ = none ∧ s'.objects = Function.update s.objects object none) ∨
            exists p parent, this.parent_ = some p ∧ s.objects p = some parent ∧
              s'.objects =
                Function.update
                  (Function.update s.objects p (some (parent.remove_child object this)))
                  object none) := by
  by_cases hroot : object = root
  · simp [destroy, hroot] at h
  constructor
  · exact hroot
  cases hthis : s.objects object with
  | none => simp [destroy, hroot, hthis] at h
  | some this =>
      cases hparent_ : this.parent_ with
      | none =>
          simp [destroy, hroot, hthis, hparent_] at h
          subst h
          exact ⟨this, rfl, rfl, rfl, rfl, Or.inl ⟨hparent_, rfl⟩⟩
      | some p =>
          cases hparent : s.objects p with
          | none => simp [destroy, hroot, hthis, hparent_, hparent] at h
          | some parent =>
              simp [destroy, hroot, hthis, hparent_, hparent] at h
              subst h
              exact ⟨this, rfl, rfl, rfl, rfl, Or.inr ⟨p, parent, hparent_, hparent, rfl⟩⟩

end Hierarchy

end Experimental
end Crave
