import Crave.Foundation.DiagramSampling
import Crave.MetaSmt.PredicateSolver

/-!
# Solutions from decision diagrams

`CUDD_Distributed` takes its solutions from the diagram of all assertions and assumptions.
It counts the solutions below every node, and walks down from the root with the odds of
the counts.  The counts are kept from call to call as long as the diagram stays the same.
-/

namespace Crave
namespace MetaSmt

open Foundation Diagram

/-- The diagram library: its operations, and the node that a `BDD` points to. -/
structure CuddManager (BDD : Type) extends Cudd BDD where
  getNode : BDD -> Edge

/-- `map_0` and `map_1`, by the value that is counted. -/
abbrev CountMaps := Bool -> Edge -> Option Nat

namespace CUDD_Distributed

def reset : CountMaps :=
  fun b root =>
    if root = Edge.zero then some (if b then 0 else 1)
    else if root = Edge.one then some (if b then 1 else 0)
    else none

section Order

variable (perm : Nat -> Nat) (size : Nat)

/-- `distance`: the difference of two `int`s becomes `unsigned`. -/
def distance (parent : Nat) (child : Diagram) : Nat :=
  (BitVec.ofInt 32 ((child.level perm size : Int) - perm parent)).toNat

def skipped (parent : Nat) (child : Diagram) : Nat :=
  let t := distance perm size parent child
  if t > 0 then t - 1 else 0

/-- `x * (1ull << s)`.  A shift by the width of the type or more is undefined. -/
def scaled (x s : Nat) : Option Nat :=
  if s < 64 then some (x * 2 ^ s % 2 ^ 64) else none

/-- `x << s` on `unsigned` -/
def shifted (x s : Nat) : Option Nat :=
  if s < 32 then some (x * 2 ^ s % 2 ^ 32) else none

/-- `count_1` and `count_0` for a regular node.  The sum is cut to `unsigned` after each
child. -/
def count : Bool -> Diagram -> CountMaps -> Option (Nat × CountMaps)
  | b, .one, maps =>
      match maps b { complement := false, regular := .one } with
      | none => none
      | some ret => some (ret, maps)
  | b, .node i T c E, maps =>
      match maps b { complement := false, regular := .node i T c E } with
      | some ret => some (ret, maps)
      | none => do
          let (cnt_T, maps) <- count b T maps
          let ret <- scaled cnt_T (skipped perm size i T)
          let (cnt_E, maps) <- count (b ^^ c) E maps
          let sum <- scaled cnt_E (skipped perm size i E)
          let ret := (ret % 2 ^ 32 + sum) % 2 ^ 64 % 2 ^ 32
          let root := { complement := false, regular := .node i T c E }
          return (ret, Function.update maps b (Function.update (maps b) root (some ret)))

variable {m : Type -> Type} [Monad m] (uniform_int : Nat -> m Nat)

/-- The loop of `store_solution`.  `uniform_int` draws a number up to its argument, that
one included.  The check behind the loop looks at the value of the leaf, which is one. -/
def walk : Bool -> Diagram -> List (Option Bool) -> CountMaps ->
    m (Option (List (Option Bool) × CountMaps))
  | _, .one, _solution, maps => pure (some (_solution, maps))
  | negated, .node i T c E, _solution, maps =>
      match count perm size (!negated) (.node i T c E) maps with
      | none => pure none
      | some (cnt_r, maps) =>
          match count perm size (!negated) T maps with
          | none => pure none
          | some (cnt, maps) =>
              match shifted cnt (skipped perm size i T) with
              | none => pure none
              | some cnt_t => do
                  let select <- uniform_int ((cnt_r + (2 ^ 32 - 1)) % 2 ^ 32)
                  if select < cnt_t then
                    walk negated T (_solution.set i (some true)) maps
                  else
                    walk (negated ^^ c) E (_solution.set i (some false)) maps

def store_solution (root : Edge) (maps : CountMaps) :
    m (Option (List (Option Bool) × CountMaps)) :=
  walk perm size uniform_int root.complement root.regular (List.replicate size none) maps

end Order

end CUDD_Distributed

structure CUDD_Distributed (BDD : Type) where
  _assertions : BDD
  _assumptions : BDD
  _solution : List (Option Bool)
  maps : CountMaps
  previous : BDD

namespace CUDD_Distributed

variable {BDD : Type} (_manager : CuddManager BDD)

def new : CUDD_Distributed BDD :=
  { _assertions := _manager.bddOne
    _assumptions := _manager.bddOne
    _solution := []
    maps := reset
    previous := _manager.bddZero }

def assertion (e : BDD) (st : CUDD_Distributed BDD) : CUDD_Distributed BDD :=
  { st with _assertions := _manager.and st._assertions e }

def assumption (e : BDD) (st : CUDD_Distributed BDD) : CUDD_Distributed BDD :=
  { st with _assumptions := _manager.and st._assumptions e }

def complete (st : CUDD_Distributed BDD) : BDD :=
  _manager.and st._assertions st._assumptions

/-- The part of `solve` before a solution is stored. -/
def refreshed (st : CUDD_Distributed BDD) : CUDD_Distributed BDD :=
  let complete := st.complete _manager
  if _manager.getNode st.previous = _manager.getNode complete then
    { st with _assumptions := _manager.bddOne }
  else
    { st with _assumptions := _manager.bddOne, maps := reset, previous := complete }

variable {m : Type -> Type} [Monad m] (uniform_int : Nat -> m Nat)

/-- `solve`, on a manager with the given order of its variables. -/
def solve (perm : Nat -> Nat) (size : Nat) (st : CUDD_Distributed BDD) :
    m (Option (Bool × CUDD_Distributed BDD)) :=
  let complete := st.complete _manager
  let st := st.refreshed _manager
  if _manager.getNode complete = _manager.getNode _manager.bddZero then
    pure (some (false, st))
  else do
    match <- store_solution perm size uniform_int (_manager.getNode complete) st.maps with
    | none => return none
    | some (_solution, maps) => return some (true, { st with _solution := _solution, maps := maps })

/-- The index of the top variable.  That of a constant is past the solution. -/
def NodeReadIndex (var : BDD) : Option Nat :=
  match (_manager.getNode var).regular with
  | .one => none
  | .node i _ _ _ => some i

def read_value (var : BDD) (_solution : List (Option Bool)) : Except String (Option Bool) :=
  match (NodeReadIndex _manager var).bind fun i => _solution[i]? with
  | none => .error "var.NodeReadIndex() < _solution.size()"
  | some t => .ok t

end CUDD_Distributed
end MetaSmt
end Crave
