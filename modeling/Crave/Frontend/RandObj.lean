import Crave.Backend.GeneratorRuns
import Crave.Foundation.Forest

/-!
# Random objects

A `rand_obj` has random variables and vectors, a generator with the constraints of its
own, and other objects as children. `next` gathers the constraints of all objects below
into the generator when a rebuild has been requested, and then asks the generator.
-/

namespace Crave
namespace Frontend

open Foundation Ir Backend

/-- A child that is no object. A `randv` has the location and the type of its value. -/
inductive RandBase where
  | randv (value : Nat) (d : VarDecl)
  | rand_vec (id : Nat)

namespace RandBase

/-- `obj_kind() == "rand_vec"` -/
def isRandVec : RandBase -> Bool
  | .randv _ _ => false
  | .rand_vec _ => true

/-- `next` of a `randv`; a `rand_vec` is generated later. -/
def next (env : Environment) (rb : RandBase) (w : World) : Bool × World :=
  match rb with
  | .randv value d =>
      (true,
        { w with
          memory := Function.update w.memory value (env.random w.time % 2 ^ d.bitsize)
          time := w.time + 1 })
  | .rand_vec _ => (true, w)

end RandBase

/-- All objects, each known by its number. `parent_` and `objChildren_` are those of the
forest. -/
structure RandObjs where
  tree : Forest
  baseChildren_ : Nat -> List RandBase
  constraint : Nat -> Generator
  rebuild_ : Nat -> Bool

namespace RandObjs

def empty : RandObjs :=
  { tree := Forest.empty
    baseChildren_ := fun _ => []
    constraint := fun _ => Generator.new
    rebuild_ := fun _ => false }

def setConstraint (s : RandObjs) (i : Nat) (g : Generator) : RandObjs :=
  { s with constraint := Function.update s.constraint i g }

/-!
## Building the tree
-/

/-- The flags of an object and of those above it. -/
def requestFrom (t : Forest) (i : Nat) (rebuild_ : Nat -> Bool) : Nat -> Bool :=
  match _h : t.parent_ i with
  | none => Function.update rebuild_ i true
  | some p => requestFrom t p (Function.update rebuild_ i true)
termination_by i
decreasing_by exact (t.older p i _h).left

def request_rebuild (s : RandObjs) (i : Nat) : RandObjs :=
  { s with rebuild_ := requestFrom s.tree i s.rebuild_ }

/-- The constructor: the new object is entered at its parent, which must exist. -/
def rand_obj (s : RandObjs) (parent : Option Nat) : RandObjs :=
  let i := s.tree.size
  let s :=
    { s with
      baseChildren_ := Function.update s.baseChildren_ i []
      constraint := Function.update s.constraint i Generator.new
      rebuild_ := Function.update s.rebuild_ i false }
  match parent with
  | none => { s with tree := s.tree.addRoot }
  | some p =>
      if hp : p < s.tree.size then
        request_rebuild { s with tree := s.tree.addChild p hp } p
      else
        s

def add_base_child (s : RandObjs) (i : Nat) (rb : RandBase) : RandObjs :=
  let s :=
    { s with baseChildren_ := Function.update s.baseChildren_ i (s.baseChildren_ i ++ [rb]) }
  if rb.isRandVec then s.request_rebuild i else s

/-!
## Constraints
-/

/-- An operation of the public generator of an object. -/
def onConstraint {α : Type} (s : RandObjs) (i : Nat) (f : Generator -> Outcome α) :
    Except String α × RandObjs × World :=
  let (result, g, w) := f (s.constraint i)
  (result, s.setConstraint i g, w)

def enable_constraint (s : RandObjs) (i : Nat) (name : String) : Bool × RandObjs :=
  let (res, g) := (s.constraint i).enableConstraint name
  let s := s.setConstraint i g
  (res, if g.isChanged then s.request_rebuild i else s)

def disable_constraint (s : RandObjs) (i : Nat) (name : String) : Bool × RandObjs :=
  let (res, g) := (s.constraint i).disableConstraint name
  let s := s.setConstraint i g
  (res, if g.isChanged then s.request_rebuild i else s)

def is_constraint_enabled (s : RandObjs) (i : Nat) (name : String) : Bool :=
  (s.constraint i).isConstraintEnabled name

def addVec (gen : Generator) (rb : RandBase) : Generator :=
  match rb with
  | .randv _ _ => gen
  | .rand_vec id => gen.addVecId id

/-- The objects below come first, then the vectors and the constraints of the object. -/
def gather_constraints (s : RandObjs) (i : Nat) (gen : Generator) : Generator :=
  let gen := (s.tree.children_ i).attach.foldl (fun gen c => gather_constraints s c.val gen) gen
  let gen := (s.baseChildren_ i).foldl addVec gen
  gen.merge (s.constraint i)
termination_by s.tree.size - i
decreasing_by
  have hlt := s.tree.older_of_mem c.property
  omega

/-!
## Generating
-/

/-- The children of a loop, up to the first that fails. -/
def allFrom {α : Type} (f : α -> World -> Bool × World) : List α -> World -> Bool × World
  | [], w => (true, w)
  | a :: rest, w =>
      match f a w with
      | (false, w) => (false, w)
      | (true, w) => allFrom f rest w

def gen_base_children (env : Environment) (s : RandObjs) (i : Nat) (w : World) : Bool × World :=
  match allFrom (RandBase.next env) (s.baseChildren_ i) w with
  | (false, w) => (false, w)
  | (true, w) =>
      allFrom (fun c w => gen_base_children env s c.val w) (s.tree.children_ i).attach w
termination_by s.tree.size - i
decreasing_by
  have hlt := s.tree.older_of_mem c.property
  omega

/-- The generator is built again for the constraints of all objects below. -/
def rebuild (env : Environment) (vcon : VariableContainer) (s : RandObjs) (i : Nat) (w : World) :
    Except String Unit × RandObjs × World :=
  if s.rebuild_ i then
    let s := s.setConstraint i (Generator.reset env vcon (s.constraint i))
    match Generator.rebuild env vcon false (s.gather_constraints i (s.constraint i)) w with
    | (.error e, g, w) => (.error e, s.setConstraint i g, w)
    | (.ok (), g, w) =>
        (.ok (),
          { s.setConstraint i g with rebuild_ := Function.update s.rebuild_ i false }, w)
  else
    (.ok (), s, w)

def next (env : Environment) (vcon : VariableContainer) (s : RandObjs) (i : Nat) (w : World) :
    Except String Bool × RandObjs × World :=
  match s.gen_base_children env i w with
  | (false, w) => (.ok false, s, w)
  | (true, w) =>
      match s.rebuild env vcon i w with
      | (.error e, s, w) => (.error e, s, w)
      | (.ok (), s, w) => s.onConstraint i fun g => Generator.next env vcon g w

def next_cov (env : Environment) (vcon : VariableContainer) (s : RandObjs) (i : Nat) (w : World) :
    Except String Bool × RandObjs × World :=
  match s.gen_base_children env i w with
  | (false, w) => (.ok false, s, w)
  | (true, w) =>
      match s.rebuild env vcon i w with
      | (.error e, s, w) => (.error e, s, w)
      | (.ok (), s, w) => s.onConstraint i fun g => Generator.nextCov env vcon g w

end RandObjs

end Frontend
end Crave
