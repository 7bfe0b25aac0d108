import Mathlib.Algebra.Order.Ring.Int
import Mathlib.Logic.Function.Basic
import Mathlib.Data.List.Basic

/-!
# Objects

The hierarchy of named objects. An object gets its name from the back of the stack
of names and its parent from the back of the stack of the objects under construction,
and is registered under its full name. Addresses are numbers that are not used again;
an operation that reads through a pointer to a destroyed object, or whose assertion
fails, has no next state.
-/

namespace Crave
namespace Experimental

structure ObjectName where
  name_ : String
  object_ : Option Nat

structure Object where
  name_ : String
  orig_name_ : String
  parent_ : Option Nat
  children_ : List Nat
  fullname_ : String
  local_name_map_ : String -> Option Nat

/-- The objects in memory and the static data of the classes. The stacks are written
with the back first. -/
structure Hierarchy where
  names : Nat -> Option ObjectName
  objects : Nat -> Option Object
  crv_name_stack : List Nat
  crv_obj_stack : List Nat
  crv_obj_map : String -> Option Nat
  next : Nat

namespace Object

def root : Object where
  name_ := "root"
  orig_name_ := "root"
  parent_ := none
  children_ := []
  fullname_ := "root"
  local_name_map_ := fun _ => none

def copy (other : Object) : Object where
  name_ := other.name_
  orig_name_ := other.orig_name_
  parent_ := none
  children_ := []
  fullname_ := other.fullname_
  local_name_map_ := fun _ => none

/-- The name that a new child gets, and the counter of the name after it. -/
def checkName (parent : Object) (name : String) : String × Nat :=
  match parent.local_name_map_ name with
  | some k => (name ++ toString k, (k + 1) % 2 ^ 32)
  | none => (name, 1)

def addChild (parent : Object) (child : Nat) (orig_name_ : String) : Object :=
  { parent with
    children_ := parent.children_ ++ [child]
    local_name_map_ :=
      Function.update parent.local_name_map_ orig_name_ (some (parent.checkName orig_name_).2) }

/-- `unsigned` counts wrap around. -/
def remove_child (parent : Object) (address : Nat) (child : Object) : Object :=
  let count := ((parent.local_name_map_ child.orig_name_).getD 0 + (2 ^ 32 - 1)) % 2 ^ 32
  let local_name_map_ :=
    Function.update parent.local_name_map_ child.orig_name_ (some count)
  { parent with
    children_ := parent.children_.filter fun i => i ≠ address
    local_name_map_ :=
      if count = 0 then Function.update local_name_map_ child.name_ none
      else local_name_map_ }

end Object

/-- The calls of the constructors and the destructors of the two classes. -/
inductive Operation where
  | name (c : String)
  | copyName (name : Nat)
  | destroyName (name : Nat)
  | construct
  | copy (object : Nat)
  | destroy (object : Nat)
deriving DecidableEq

namespace Hierarchy

def root : Nat := 0

def new : Hierarchy where
  names := fun _ => none
  objects := Function.update (fun _ => none) root (some Object.root)
  crv_name_stack := []
  crv_obj_stack := []
  crv_obj_map := fun _ => none
  next := 1

def find (s : Hierarchy) (name : String) : Option Nat :=
  s.crv_obj_map name

def newName (s : Hierarchy) (c : String) : Option Hierarchy :=
  some
    { s with
      names := Function.update s.names s.next (some ⟨c, none⟩)
      crv_name_stack := s.next :: s.crv_name_stack
      next := s.next + 1 }

def copyName (s : Hierarchy) (name : Nat) : Option Hierarchy := do
  let other <- s.names name
  some { s with names := Function.update s.names s.next (some other), next := s.next + 1 }

def destroyName (s : Hierarchy) (name : Nat) : Option Hierarchy := do
  let this <- s.names name
  let s := { s with names := Function.update s.names name none }
  match this.object_ with
  | none => some s
  | some object =>
      if s.crv_obj_stack.head? = some object then
        some { s with crv_obj_stack := s.crv_obj_stack.tail }
      else none

/-- The names of the objects on the stack from its front on, each with a dot behind. -/
def stackName (objects : Nat -> Option Object) : List Nat -> Option String
  | [] => some ""
  | obj :: below => do
      let fullname <- stackName objects below
      let object <- objects obj
      some (fullname ++ (object.name_ ++ "."))

def parent (s : Hierarchy) : Nat :=
  s.crv_obj_stack.headD root

def construct (s : Hierarchy) : Option Hierarchy := do
  let address <- s.crv_name_stack.head?
  let top <- s.names address
  let parent <- s.objects s.parent
  let fullname <- stackName s.objects s.crv_obj_stack
  let this := s.next
  let name_ := (parent.checkName top.name_).1
  some
    { names := Function.update s.names address (some { top with object_ := some this })
      objects :=
        Function.update
          (Function.update s.objects s.parent (some (parent.addChild this top.name_))) this
          (some
            { name_ := name_
              orig_name_ := top.name_
              parent_ := some s.parent
              children_ := []
              fullname_ := fullname ++ name_
              local_name_map_ := fun _ => none })
      crv_name_stack := s.crv_name_stack.tail
      crv_obj_stack := this :: s.crv_obj_stack
      crv_obj_map := Function.update s.crv_obj_map (fullname ++ name_) (some this)
      next := this + 1 }

def copy (s : Hierarchy) (object : Nat) : Option Hierarchy := do
  let other <- s.objects object
  some
    { s with
      objects := Function.update s.objects s.next (some other.copy)
      next := s.next + 1 }

/-- The root is never destroyed. -/
def destroy (s : Hierarchy) (object : Nat) : Option Hierarchy :=
  if object = root then none
  else do
    let this <- s.objects object
    let s := { s with crv_obj_map := Function.update s.crv_obj_map this.fullname_ none }
    match this.parent_ with
    | none => some { s with objects := Function.update s.objects object none }
    | some parent_ => do
        let parent <- s.objects parent_
        some
          { s with
            objects :=
              Function.update
                (Function.update s.objects parent_ (some (parent.remove_child object this)))
                object none }

def perform (s : Hierarchy) : Operation -> Option Hierarchy
  | .name c => newName s c
  | .copyName name => copyName s name
  | .destroyName name => destroyName s name
  | .construct => construct s
  | .copy object => copy s object
  | .destroy object => destroy s object

def run (s : Hierarchy) : List Operation -> Option Hierarchy
  | [] => some s
  | op :: ops => do
      let s <- perform s op
      run s ops

end Hierarchy

end Experimental
end Crave
