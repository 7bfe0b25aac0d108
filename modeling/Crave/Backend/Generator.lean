import Crave.Backend.VectorGenerator
import Mathlib.Data.List.Sort

/-!
# Generators

A generator owns a constraint manager, the partitions of the constraints that
were merged into it and the solvers that were built for them.  The solvers are
built again when the manager has changed.  An operation may throw; the model
keeps the generator that the exception leaves behind.
-/

namespace Crave
namespace Backend

open Foundation Ir

structure Generator where
  constr_mng_ : ConstraintManager
  constr_pttn_ : ConstraintPartitioner
  to_be_generated_vec_ids_ : List Nat
  var_gen_ : VariableGenerator
  var_cov_gen_ : VariableCoverageGenerator
  vec_gen_ : VectorGenerator
  covered_ : Bool

/-- The value of an operation or its exception, with the state it leaves. -/
abbrev Outcome (α : Type) := Except String α × Generator × World

namespace Generator

def new : Generator :=
  { constr_mng_ := ConstraintManager.new
    constr_pttn_ := ConstraintPartitioner.reset
    to_be_generated_vec_ids_ := []
    var_gen_ := VariableGenerator.new
    var_cov_gen_ := VariableCoverageGenerator.new
    vec_gen_ := VectorGenerator.new
    covered_ := false }

/-!
## Constraints
-/

/-- `operator()`, `soft` and `cover`: a constraint without a name gets one from
its identifier. -/
def makeConstraint (g : Generator) (name : Option String) (e : Node) (soft cover : Bool)
    (w : World) : Outcome Unit :=
  let id := w.constraint_ID + 1
  let w := { w with constraint_ID := id }
  match g.constr_mng_.makeConstraint (name.getD ("constraint_" ++ toString id)) id
      (FixWidthVisitor.fixWidth e) soft cover with
  | .error e => (.error e, g, w)
  | .ok constr_mng_ => (.ok (), { g with constr_mng_ := constr_mng_ }, w)

def enableConstraint (g : Generator) (name : String) : Bool × Generator :=
  let (constr_mng_, result) := g.constr_mng_.enableConstraint name
  (result, { g with constr_mng_ := constr_mng_ })

def disableConstraint (g : Generator) (name : String) : Bool × Generator :=
  let (constr_mng_, result) := g.constr_mng_.disableConstraint name
  (result, { g with constr_mng_ := constr_mng_ })

def isConstraintEnabled (g : Generator) (name : String) : Bool :=
  g.constr_mng_.isConstraintEnabled name

def isChanged (g : Generator) : Bool :=
  g.constr_mng_.isChanged

def isCovered (g : Generator) : Bool :=
  g.covered_

/-!
## Building the solvers
-/

def merge (g other : Generator) : Generator :=
  { g with constr_pttn_ := g.constr_pttn_.mergeConstraints other.constr_mng_ }

/-- `addVecId`: the identifiers are a set in increasing order. -/
def addVecId (g : Generator) (id : Nat) : Generator :=
  if id ∈ g.to_be_generated_vec_ids_ then
    g
  else
    { g with
      to_be_generated_vec_ids_ := g.to_be_generated_vec_ids_.orderedInsert (· ≤ ·) id }

def resetCoverage (env : Environment) (vcon : VariableContainer) (g : Generator) :
    Except String Unit × Generator :=
  let (var_cov_gen_, outcome) :=
    VariableCoverageGenerator.reset env vcon g.constr_pttn_.partitions_
  (outcome, { g with var_cov_gen_ := var_cov_gen_, covered_ := false })

/-- The solvers of the variables stay until they are built again. -/
def reset (env : Environment) (vcon : VariableContainer) (g : Generator) : Generator :=
  (resetCoverage env vcon
    { g with
      constr_mng_ := g.constr_mng_.resetChanged
      constr_pttn_ := ConstraintPartitioner.reset
      to_be_generated_vec_ids_ := [] }).2

def rebuild (env : Environment) (vcon : VariableContainer) (selfInclude : Bool) (g : Generator)
    (w : World) : Outcome Unit :=
  let g := if selfInclude then g.merge g else g
  let g := { g with constr_pttn_ := g.constr_pttn_.run }
  let (var_gen_, time, outcome) :=
    VariableGenerator.reset env vcon g.constr_pttn_.partitions_ w.time
  let g := { g with var_gen_ := var_gen_ }
  let w := { w with time := time }
  match outcome with
  | .error e => (.error e, g, w)
  | .ok () =>
      let g := { g with vec_gen_ := VectorGenerator.reset g.constr_pttn_.vec_constraints_ }
      let (var_cov_gen_, outcome) :=
        VariableCoverageGenerator.reset env vcon g.constr_pttn_.partitions_
      (outcome, { g with var_cov_gen_ := var_cov_gen_ }, w)

/-- The solvers are built again after a change. -/
def update (env : Environment) (vcon : VariableContainer) (g : Generator) (w : World) :
    Outcome Unit :=
  if g.isChanged then rebuild env vcon true (reset env vcon g) w else (.ok (), g, w)

/-- The generator of the variables that works with threads.  The threads run on
solvers of their own; here they run one after the other. -/
def enable_multithreading (env : Environment) (vcon : VariableContainer) (g : Generator)
    (w : World) : Outcome Unit :=
  rebuild env vcon true (reset env vcon { g with var_gen_ := VariableGenerator.new }) w

/-!
## Generating
-/

/-- `vec_gen_.solve(..)`, after the variables have been solved. -/
def solveVectors (env : Environment) (var_gen : List VariableSolver) (g : Generator)
    (w : World) : Outcome Bool :=
  match g.vec_gen_.solve env var_gen g.to_be_generated_vec_ids_ w with
  | .error e => (.error e, g, w)
  | .ok (result, vec_gen_, w) => (.ok result, { g with vec_gen_ := vec_gen_ }, w)

/-- The solvers of the variables, then those of the vectors. -/
def solve (env : Environment) (g : Generator) (w : World) : Outcome Bool :=
  match g.var_gen_.solve env w with
  | .error e => (.error e, g, w)
  | .ok (false, var_gen_, w) => (.ok false, { g with var_gen_ := var_gen_ }, w)
  | .ok (true, var_gen_, w) =>
      solveVectors env (var_gen_.solvers_.map VariableDefaultSolver.toVariableSolver)
        { g with var_gen_ := var_gen_ } w

/-- The coverage solvers, then those of the vectors. -/
def solveCoverage (env : Environment) (g : Generator) (w : World) : Outcome Bool :=
  match g.var_cov_gen_.solve env w with
  | .error e => (.error e, g, w)
  | .ok (false, var_cov_gen_, w) => (.ok false, { g with var_cov_gen_ := var_cov_gen_ }, w)
  | .ok (true, var_cov_gen_, w) =>
      solveVectors env (var_cov_gen_.solvers_.map VariableCoverageSolver.toVariableSolver)
        { g with var_cov_gen_ := var_cov_gen_ } w

def next (env : Environment) (vcon : VariableContainer) (g : Generator) (w : World) :
    Outcome Bool :=
  match update env vcon g w with
  | (.error e, g, w) => (.error e, g, w)
  | (.ok (), g, w) => solve env g w

def nextCov (env : Environment) (vcon : VariableContainer) (g : Generator) (w : World) :
    Outcome Bool :=
  match update env vcon g w with
  | (.error e, g, w) => (.error e, g, w)
  | (.ok (), g, w) =>
      if g.covered_ then
        next env vcon g w
      else
        match solveCoverage env g w with
        | (.error e, g, w) => (.error e, g, w)
        | (.ok true, g, w) => (.ok true, g, w)
        | (.ok false, g, w) => next env vcon { g with covered_ := true } w

end Generator
end Backend
end Crave
