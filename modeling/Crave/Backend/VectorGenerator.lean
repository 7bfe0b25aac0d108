import Crave.Backend.VariableCoverageGenerator
import Crave.Ir.ReplaceVisitor
import Mathlib.Data.Finset.Max

/-!
# Vectors

The constraints of a vector are solved by a solver instance of its own, after
the scalar variables.  The instance has one variable for each element and the
copies of the constraints for all values of the iteration variable.
-/

namespace Crave
namespace Backend

open Foundation Ir MetaSmt MetaSMTVisitor ReplaceVisitor

/-!
## Values of vectors
-/

/-- `set_value` of the bits that a solver reports for a variable. -/
def setValue (d : VarDecl) (width value : Nat) : Nat :=
  if d.sign then
    ((BitVec.ofNat width value).signExtend d.bitsize).toNat
  else
    ((BitVec.ofNat width value).setWidth d.bitsize).toNat

/-- `readVector`: the values of the elements, when the solver has met them all. -/
def readVector (s : MetaSMTVisitor) (d : VarDecl) : List Element -> Option (List Nat)
  | [] => some []
  | var :: rest =>
      match s.terminals_ var.id, readVector s d rest with
      | some width, some values =>
          some (setValue d width (s.model (.terminal var.id)) :: values)
      | _, _ => none

/-- `gen_values`: random values of the element type. -/
def gen_values (random : Nat -> Nat) (d : VarDecl) : Nat -> Nat -> List Nat × Nat
  | 0, time => ([], time)
  | num + 1, time =>
      let (values, time') := gen_values random d num (time + 1)
      (random time % 2 ^ d.bitsize :: values, time')

def default_rand_vec_size : Nat := 5

/-- The size that was solved for a vector, or the default. -/
def vectorSize (var_gen : List VariableSolver) (vector : RandVec) : Nat :=
  (readFrom var_gen vector.size_var default_rand_vec_size).2 % 2 ^ 32

namespace World

def setVector (w : World) (id : Nat) (values : List Nat) : World :=
  { w with vectors := Function.update w.vectors id values }

end World

/-!
## The solver of a vector
-/

structure VectorSolver where
  constraints_ : List UserConstraint
  vector_id_ : Nat
  solver_ : MetaSMTVisitor
  vec_elements_ : List Element

namespace VectorSolver

/-- The instance is never asked, as every call builds the solver anew. -/
def new (vector_id : Nat) : VectorSolver :=
  { constraints_ := []
    vector_id_ := vector_id
    solver_ := MetaSMTVisitor.new .strict
    vec_elements_ := [] }

def addConstraint (vs : VectorSolver) (vc : UserConstraint) : VectorSolver :=
  { vs with constraints_ := vs.constraints_ ++ [vc] }

/-- Fresh variables, of one bit until they are accessed. -/
def newElements (var_ID : Nat) : Nat -> List Element
  | 0 => []
  | n + 1 => { id := var_ID + 1, bitsize := 1, sign := true } :: newElements (var_ID + 1) n

/-- `resize`, with fresh variables for the new elements. -/
def resize (es : List Element) (size var_ID : Nat) : List Element × Nat :=
  (es.take size ++ newElements var_ID (size - es.length), var_ID + (size - es.length))

def assertCopy (soft : Bool) (n : Node) (s : MetaSMTVisitor) : Except String MetaSMTVisitor :=
  if soft then s.makeSoftAssertion n else s.makeAssertion n

/-- The copies of a `foreach` for the given values of the iteration variable;
a copy with an access out of range is left out. -/
def addCopies (c : UserConstraint) : List Nat -> List Element -> MetaSMTVisitor ->
    Except String (List Element × MetaSMTVisitor)
  | [], es, s => .ok (es, s)
  | i :: rest, es, s => do
      let (result, _, replacer) <-
        ReplaceVisitor.visit i c.expr_ { variables_ := es, okay_ := true }
      if replacer.okay_ then
        addCopies c rest replacer.variables_ (<- assertCopy c.soft_ result s)
      else
        addCopies c rest replacer.variables_ s

/-- Every element with every element behind it. -/
def pairs : List Element -> List (Element × Element)
  | [] => []
  | var :: rest => rest.map (fun other => (var, other)) ++ pairs rest

def addPairs (c : UserConstraint) : List (Element × Element) -> MetaSMTVisitor ->
    Except String MetaSMTVisitor
  | [], s => .ok s
  | (fst, snd) :: rest, s => do
      addPairs c rest (<- assertCopy c.soft_ (.binaryOpr .notEqualOpr fst.toNode snd.toNode) s)

def addConstraints : List UserConstraint -> List Element -> MetaSMTVisitor ->
    Except String (List Element × MetaSMTVisitor)
  | [], es, s => .ok (es, s)
  | c :: rest, es, s =>
      if c.isUnique then do
        addConstraints rest es (<- addPairs c (pairs es) s)
      else do
        let (es, s) <- addCopies c (List.range es.length) es s
        addConstraints rest es s

def buildSolver (check : SortCheck) (vs : VectorSolver) (size var_ID : Nat) :
    Except String (VectorSolver × Nat) := do
  let (vec_elements_, var_ID) := resize vs.vec_elements_ size var_ID
  let (vec_elements_, solver_) <- addConstraints vs.constraints_ vec_elements_
    (MetaSMTVisitor.new check)
  return ({ vs with solver_ := solver_, vec_elements_ := vec_elements_ }, var_ID)

/-- Solve with the soft copies, then without them. -/
def solveTwice (env : Environment) (s : MetaSMTVisitor) (time : Nat) :
    Bool × MetaSMTVisitor × Nat :=
  let (result, s, time) := s.solve env.solver env.random false time
  if result then (true, s, time) else s.solve env.solver env.random true time

def solve (env : Environment) (var_gen : List VariableSolver) (vs : VectorSolver) (w : World) :
    Except String (Bool × VectorSolver × World) :=
  match env.vectorBaseMap vs.vector_id_ with
  | none => .error "vectorBaseMap"
  | some vector => do
      let (vs, var_ID) <- buildSolver env.check vs (vectorSize var_gen vector) w.var_ID
      let (result, solver_, time) := solveTwice env vs.solver_ w.time
      let vs := { vs with solver_ := solver_ }
      let w := { w with var_ID := var_ID, time := time }
      if result then
        match readVector solver_ vector.element vs.vec_elements_ with
        | some values => return (true, vs, w.setVector vs.vector_id_ values)
        | none => return (true, vs, w)
      else
        return (false, vs, w)

end VectorSolver

/-!
## All vectors
-/

/-- `getVectorId`: the first identifier of the support. -/
def getVectorId (vc : UserConstraint) : Nat :=
  vc.support_vars_.min.untopD 0

/-- `vector_solvers_`, in the order of the keys. -/
structure VectorGenerator where
  vector_solvers_ : List (Nat × VectorSolver)

namespace VectorGenerator

def new : VectorGenerator :=
  { vector_solvers_ := [] }

def insertConstraint (v_id : Nat) (vc : UserConstraint) :
    List (Nat × VectorSolver) -> List (Nat × VectorSolver)
  | [] => [(v_id, (VectorSolver.new v_id).addConstraint vc)]
  | (key, vs) :: rest =>
      if key < v_id then
        (key, vs) :: insertConstraint v_id vc rest
      else if v_id < key then
        (v_id, (VectorSolver.new v_id).addConstraint vc) :: (key, vs) :: rest
      else
        (key, vs.addConstraint vc) :: rest

def addConstraint (g : VectorGenerator) (vc : UserConstraint) : VectorGenerator :=
  { vector_solvers_ := insertConstraint (getVectorId vc) vc g.vector_solvers_ }

def reset (v : List UserConstraint) : VectorGenerator :=
  v.foldl addConstraint new

def solveFrom (env : Environment) (var_gen : List VariableSolver) :
    List (Nat × VectorSolver) -> World ->
      Except String (Bool × List (Nat × VectorSolver) × World)
  | [], w => .ok (true, [], w)
  | (key, vs) :: rest, w => do
      let (result, vs, w) <- vs.solve env var_gen w
      if result then
        let (result, rest, w) <- solveFrom env var_gen rest w
        return (result, (key, vs) :: rest, w)
      else
        return (false, (key, vs) :: rest, w)

/-- The vectors without constraints. -/
def genUnconstrained (env : Environment) (var_gen : List VariableSolver) (keys : List Nat) :
    List Nat -> World -> Except String World
  | [], w => .ok w
  | id :: rest, w =>
      if id ∈ keys then
        genUnconstrained env var_gen keys rest w
      else
        match env.vectorBaseMap id with
        | none => .error "vectorBaseMap"
        | some vector =>
            let (values, time) :=
              gen_values env.random vector.element (vectorSize var_gen vector) w.time
            genUnconstrained env var_gen keys rest { w.setVector id values with time := time }

def solve (env : Environment) (var_gen : List VariableSolver) (vec_ids : List Nat)
    (g : VectorGenerator) (w : World) : Except String (Bool × VectorGenerator × World) := do
  let (result, vector_solvers_, w) <- solveFrom env var_gen g.vector_solvers_ w
  if result then
    let w <- genUnconstrained env var_gen (vector_solvers_.map Prod.fst) vec_ids w
    return (true, { vector_solvers_ := vector_solvers_ }, w)
  else
    return (false, { vector_solvers_ := vector_solvers_ }, w)

end VectorGenerator

/-!
## What a call keeps
-/

section Frame

variable {env : Environment} {var_gen : List VariableSolver}

theorem VectorSolver.buildSolver_spec {check : SortCheck} {vs vs' : VectorSolver}
    {size var_ID var_ID' : Nat}
    (h : VectorSolver.buildSolver check vs size var_ID = .ok (vs', var_ID')) :
    VectorSolver.addConstraints vs.constraints_ (VectorSolver.resize vs.vec_elements_ size var_ID).1
        (MetaSMTVisitor.new check) = .ok (vs'.vec_elements_, vs'.solver_) ∧
      vs'.constraints_ = vs.constraints_ ∧ vs'.vector_id_ = vs.vector_id_ := by
  rcases bind_eq_ok.mp h with ⟨⟨es, s⟩, hadd, h⟩
  cases h
  exact ⟨hadd, rfl, rfl⟩

/-- The steps of a call: the copies are built, the instance is asked twice at
most, and on success the elements are read. -/
theorem VectorSolver.solve_cases {vs vs' : VectorSolver} {w w' : World} {result : Bool}
    (h : vs.solve env var_gen w = .ok (result, vs', w')) :
    exists vector built var_ID s time,
      env.vectorBaseMap vs.vector_id_ = some vector ∧
      VectorSolver.buildSolver env.check vs (vectorSize var_gen vector) w.var_ID =
        .ok (built, var_ID) ∧
      VectorSolver.solveTwice env built.solver_ w.time = (result, s, time) ∧
      vs' = { built with solver_ := s } ∧
      w' = { w with
        var_ID := var_ID
        time := time
        vectors :=
          match (if result then readVector s vector.element built.vec_elements_ else none) with
          | some values => Function.update w.vectors vs.vector_id_ values
          | none => w.vectors } := by
  unfold VectorSolver.solve at h
  split at h
  · cases h
  · rename_i vector hvector
    rcases bind_eq_ok.mp h with ⟨⟨built, var_ID⟩, hbuild, h⟩
    have hid := (VectorSolver.buildSolver_spec hbuild).2.2
    cases hsolve : VectorSolver.solveTwice env built.solver_ w.time with
    | mk r p =>
        rcases p with ⟨s, time⟩
        simp only [hsolve] at h
        refine ⟨vector, built, var_ID, s, time, hvector, hbuild, ?_⟩
        cases r with
        | true =>
            simp only [if_true] at h
            split at h
            · rename_i values hread
              cases h
              refine ⟨hsolve, rfl, ?_⟩
              rw [if_pos rfl, hread, World.setVector, hid]
            · rename_i hread
              cases h
              refine ⟨hsolve, rfl, ?_⟩
              rw [if_pos rfl, hread]
        | false =>
            cases h
            exact ⟨hsolve, rfl, rfl⟩

/-- What the vector phase keeps of the world. -/
structure VectorFrame (keys : List Nat) (w w' : World) : Prop where
  memory : w'.memory = w.memory
  constraint_ID : w'.constraint_ID = w.constraint_ID
  var_ID : w.var_ID ≤ w'.var_ID
  vectors : forall id, id ∉ keys -> w'.vectors id = w.vectors id

theorem VectorFrame.refl (keys : List Nat) (w : World) : VectorFrame keys w w :=
  ⟨rfl, rfl, Nat.le_refl _, fun _ _ => rfl⟩

theorem VectorFrame.trans {keys : List Nat} {w w₁ w' : World} (h : VectorFrame keys w w₁)
    (h' : VectorFrame keys w₁ w') : VectorFrame keys w w' :=
  ⟨h'.memory.trans h.memory, h'.constraint_ID.trans h.constraint_ID,
    Nat.le_trans h.var_ID h'.var_ID, fun id hid => (h'.vectors id hid).trans (h.vectors id hid)⟩

theorem VectorFrame.mono {keys keys' : List Nat} {w w' : World} (h : VectorFrame keys w w')
    (hsub : forall id, id ∈ keys -> id ∈ keys') : VectorFrame keys' w w' :=
  ⟨h.memory, h.constraint_ID, h.var_ID,
    fun id hid => h.vectors id fun hmem => hid (hsub id hmem)⟩

theorem VectorSolver.solve_frame {vs vs' : VectorSolver} {w w' : World} {result : Bool}
    (h : vs.solve env var_gen w = .ok (result, vs', w')) :
    vs'.constraints_ = vs.constraints_ ∧ vs'.vector_id_ = vs.vector_id_ ∧
      VectorFrame [vs.vector_id_] w w' := by
  rcases VectorSolver.solve_cases h with
    ⟨vector, built, var_ID, s, time, -, hbuild, -, rfl, rfl⟩
  rcases VectorSolver.buildSolver_spec hbuild with ⟨-, hconstraints, hid⟩
  have hvar_ID : w.var_ID ≤ var_ID := by
    rcases bind_eq_ok.mp hbuild with ⟨_, _, hbuild⟩
    cases hbuild
    exact Nat.le_add_right _ _
  refine ⟨hconstraints, hid, rfl, rfl, hvar_ID, fun id hne => ?_⟩
  change (match (if result then readVector s vector.element built.vec_elements_ else none) with
    | some values => Function.update w.vectors vs.vector_id_ values
    | none => w.vectors) id = w.vectors id
  generalize (if result then readVector s vector.element built.vec_elements_ else none) = read
  cases read with
  | some values => exact Function.update_of_ne (List.ne_of_not_mem_cons hne) _ _
  | none => rfl

namespace VectorGenerator

/-- The keys with the constraints of their solvers. -/
def contents (solvers_ : List (Nat × VectorSolver)) : List (Nat × Nat × List UserConstraint) :=
  solvers_.map fun pair => (pair.1, pair.2.vector_id_, pair.2.constraints_)

theorem contents_solveFrom {solvers_ solvers' : List (Nat × VectorSolver)} {w w' : World}
    {result : Bool} (h : solveFrom env var_gen solvers_ w = .ok (result, solvers', w')) :
    contents solvers' = contents solvers_ ∧
      VectorFrame (solvers_.map fun pair => pair.2.vector_id_) w w' := by
  induction solvers_ generalizing solvers' w result with
  | nil =>
      cases h
      exact ⟨rfl, VectorFrame.refl _ _⟩
  | cons pair rest ih =>
      rcases pair with ⟨key, vs⟩
      rcases bind_eq_ok.mp h with ⟨⟨r, vs', w₁⟩, hhead, h⟩
      rcases VectorSolver.solve_frame hhead with ⟨hconstraints, hid, hframe⟩
      have hframe' : VectorFrame (((key, vs) :: rest).map fun pair => pair.2.vector_id_) w w₁ :=
        hframe.mono fun id hmem => by
          rw [List.mem_singleton.mp hmem]
          exact List.mem_cons_self
      cases r with
      | true =>
          rcases bind_eq_ok.mp h with ⟨⟨r', rest', w₂⟩, htail, h⟩
          cases h
          rcases ih htail with ⟨hcontents, htailFrame⟩
          constructor
          · simp only [contents, List.map_cons, hconstraints, hid] at hcontents ⊢
            rw [hcontents]
          · exact hframe'.trans (htailFrame.mono fun id hmem => List.mem_cons_of_mem _ hmem)
      | false =>
          cases h
          refine ⟨?_, hframe'⟩
          simp only [contents, List.map_cons, hconstraints, hid]

theorem genUnconstrained_frame {keys ids : List Nat} {w w' : World}
    (h : genUnconstrained env var_gen keys ids w = .ok w') :
    w'.memory = w.memory ∧ w'.constraint_ID = w.constraint_ID ∧
      forall id, id ∈ keys -> w'.vectors id = w.vectors id := by
  induction ids generalizing w with
  | nil =>
      cases h
      exact ⟨rfl, rfl, fun _ _ => rfl⟩
  | cons i rest ih =>
      unfold genUnconstrained at h
      split at h
      · exact ih h
      · rename_i hi
        split at h
        · cases h
        · rcases ih h with ⟨hmemory, hid, hvectors⟩
          refine ⟨hmemory, hid, fun id hmem => ?_⟩
          rw [hvectors id hmem]
          have hne : id ≠ i := fun heq => hi (heq ▸ hmem)
          exact Function.update_of_ne hne _ _

/-- The vector phase leaves the program variables alone and keeps the constraints. -/
theorem solve_frame {vec_ids : List Nat} {g g' : VectorGenerator} {w w' : World} {result : Bool}
    (h : g.solve env var_gen vec_ids w = .ok (result, g', w')) :
    contents g'.vector_solvers_ = contents g.vector_solvers_ ∧ w'.memory = w.memory ∧
      w'.constraint_ID = w.constraint_ID := by
  rcases bind_eq_ok.mp h with ⟨⟨r, solvers', w₁⟩, hsolve, h⟩
  rcases contents_solveFrom hsolve with ⟨hcontents, hframe⟩
  cases r with
  | true =>
      rcases bind_eq_ok.mp h with ⟨w₂, hgen, h⟩
      cases h
      rcases genUnconstrained_frame hgen with ⟨hmemory, hid, -⟩
      exact ⟨hcontents, hmemory.trans hframe.memory, hid.trans hframe.constraint_ID⟩
  | false =>
      cases h
      exact ⟨hcontents, hframe.memory, hframe.constraint_ID⟩

end VectorGenerator

end Frame

end Backend
end Crave
