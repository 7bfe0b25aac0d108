import Crave.Experimental.ObjectTree
import Crave.Backend.Generator

/-!
# Sequence items

The objects of a tree whose generators are built from the constraints below them.
A constraint that changes asks its parent for a rebuild, and so on up to the root;
an item that is asked gives up its generator, and builds a new one when it is
randomized.
-/

namespace Crave
namespace Experimental

open Ir Backend

/-- What the objects of a tree hold that may change: `active_` and `list_` of the
constraints, `built_` and `gen_` of the items. -/
structure Items where
  active_ : Nat -> Bool
  list_ : Nat -> List Ir.Node
  built_ : Nat -> Bool
  gen_ : Nat -> Option Generator

namespace Items

variable (t : ObjectTree)

/-- Before the first build. -/
def new (active_ : Nat -> Bool) (list_ : Nat -> List Ir.Node) : Items where
  active_ := active_
  list_ := list_
  built_ := fun _ => false
  gen_ := fun _ => none

/-!
## Constraints
-/

def request_rebuild (i : Nat) (s : Items) : Items :=
  let s :=
    match t.kind i with
    | .sequence_item _ =>
        { s with
          built_ := Function.update s.built_ i false
          gen_ := Function.update s.gen_ i none }
    | _ => s
  match _h : t.parent_ i with
  | some p => request_rebuild p s
  | none => s
termination_by i
decreasing_by exact (t.older p i _h).left

def activate (i : Nat) (s : Items) : Items :=
  if s.active_ i then s
  else request_rebuild t i { s with active_ := Function.update s.active_ i true }

def deactivate (i : Nat) (s : Items) : Items :=
  if s.active_ i then
    request_rebuild t i { s with active_ := Function.update s.active_ i false }
  else s

/-- `operator=`, with the expressions of the other constraint. -/
def assign (i : Nat) (other : List Ir.Node) (s : Items) : Items :=
  request_rebuild t i { s with list_ := Function.update s.list_ i other }

def join (i : Nat) (other : List Ir.Node) (s : Items) : Items :=
  request_rebuild t i { s with list_ := Function.update s.list_ i (s.list_ i ++ other) }

/-!
## Building
-/

/-- `cnt` is unsigned. -/
def addExpressions (soft : Bool) (fullname : String) :
    Nat -> List Ir.Node -> Generator -> World -> Outcome Unit
  | _, [], g, w => (.ok (), g, w)
  | cnt, e :: rest, g, w =>
      match g.makeConstraint (some (fullname ++ "#" ++ toString cnt)) e soft false w with
      | (.error what, g, w) => (.error what, g, w)
      | (.ok (), g, w) => addExpressions soft fullname ((cnt + 1) % 2 ^ 32) rest g w

/-- One object after the other, up to an exception. -/
def buildAll {α : Type} (build : α -> Generator -> World -> Outcome Unit) :
    List α -> Generator -> World -> Outcome Unit
  | [], g, w => (.ok (), g, w)
  | obj :: rest, g, w =>
      match build obj g w with
      | (.error what, g, w) => (.error what, g, w)
      | (.ok (), g, w) => buildAll build rest g w

def recursive_build (s : Items) (i : Nat) (g : Generator) (w : World) :
    Outcome Unit :=
  match t.kind i with
  | .constraint soft =>
      if s.active_ i then addExpressions soft (t.fullname_ i) 0 (s.list_ i) g w
      else (.ok (), g, w)
  | .vector id => (.ok (), g.addVecId id, w)
  | _ =>
      buildAll (fun obj => recursive_build s obj.val) (t.children_ i).attach g w
termination_by t.size - i
decreasing_by
  have hlt := t.older i obj.val ((t.linked i obj.val).mp obj.property)
  omega

/-- `dist_ref_to_var_map` has an entry for every distribution. -/
def distRefs (vcon : VariableContainer) : List (Nat × Nat) :=
  vcon.dist_references.filterMap fun pair =>
    (vcon.dist_ref_to_var_map pair.1).map fun id => (pair.1, id)

/-- The loop over the distributions at a variable. The front of an empty list of
children cannot be read. -/
def crosscheckVariable (local_var id : Nat) :
    List (Nat × Nat) -> Bool -> Items -> Option Items
  | [], _, s => some s
  | out_it :: rest, flag, s =>
      if id = out_it.2 then
        if flag then
          match (t.children_ local_var).head? with
          | none => none
          | some cntr =>
              if t.kind cntr = .constraint false then some (deactivate t cntr s)
              else crosscheckVariable local_var id rest flag s
        else crosscheckVariable local_var id rest true s
      else crosscheckVariable local_var id rest flag s

def crosscheckChildren (dist : List (Nat × Nat)) : List Nat -> Items -> Option Items
  | [], s => some s
  | obj :: rest, s =>
      match t.kind obj with
      | .crv_var id => do
          let s <- crosscheckVariable t obj id dist false s
          crosscheckChildren dist rest s
      | _ => crosscheckChildren dist rest s

def crosscheck_constraints (vcon : VariableContainer) (i : Nat) (s : Items) : Option Items :=
  if s.built_ i then some s
  else
    crosscheckChildren t (distRefs vcon) (t.children_ i)
      { s with gen_ := Function.update s.gen_ i (some Generator.new) }

/-- The part of `randomize` before the call of the generator. -/
def build (i : Nat) (s : Items) (w : World) : Except String Unit × Items × World :=
  if s.built_ i then (.ok (), s, w)
  else
    match recursive_build t s i Generator.new w with
    | (.error what, g, w) =>
        (.error what, { s with gen_ := Function.update s.gen_ i (some g) }, w)
    | (.ok (), g, w) =>
        (.ok (),
          { s with
            gen_ := Function.update s.gen_ i (some g)
            built_ := Function.update s.built_ i true }, w)

/-- Copies are not randomized. -/
def randomize (env : Environment) (vcon : VariableContainer) (i : Nat) (s : Items) (w : World) :
    Option (Except String Bool × Items × World) :=
  if t.kind i = .sequence_item false then do
    let s <- crosscheck_constraints t vcon i s
    match build t i s w with
    | (.error what, s, w) => some (.error what, s, w)
    | (.ok (), s, w) => do
        let g <- s.gen_ i
        let (result, g, w) := g.nextCov env vcon w
        some (result, { s with gen_ := Function.update s.gen_ i (some g) }, w)
  else none

/-- Every call has a generator of its own, `rand_with_gen_`, with the expressions of the
list on top. -/
def randomize_with_expr_list (env : Environment) (vcon : VariableContainer) (i : Nat)
    (list : List Ir.Node) (s : Items) (w : World) : Option (Outcome Bool) :=
  if t.kind i = .sequence_item false then
    match recursive_build t s i Generator.new w with
    | (.error what, g, w) => some (.error what, g, w)
    | (.ok (), g, w) =>
        match buildAll (fun e g w => g.makeConstraint none e false false w) list g w with
        | (.error what, g, w) => some (.error what, g, w)
        | (.ok (), g, w) => some (g.next env vcon w)
  else none

/-- Anything may happen to the variables between two calls. -/
inductive Step : Items -> Items -> Prop where
  | activate (i : Nat) (s : Items) : Step s (activate t i s)
  | deactivate (i : Nat) (s : Items) : Step s (deactivate t i s)
  | assign (i : Nat) (other : List Ir.Node) (s : Items) : Step s (assign t i other s)
  | join (i : Nat) (other : List Ir.Node) (s : Items) : Step s (join t i other s)
  | randomize (env : Environment) (vcon : VariableContainer) (i : Nat) {s s' : Items}
      {w w' : World} (result : Except String Bool)
      (h : randomize t env vcon i s w = some (result, s', w')) : Step s s'

inductive Reached : Items -> Prop where
  | new (active_ : Nat -> Bool) (list_ : Nat -> List Ir.Node) : Reached (new active_ list_)
  | step {s s' : Items} (before : Reached s) (h : Step t s s') : Reached s'

end Items

end Experimental
end Crave
