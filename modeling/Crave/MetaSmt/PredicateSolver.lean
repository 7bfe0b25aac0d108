import Mathlib.Logic.Basic

/-!
# Predicates of a solver

The bit-blaster builds on a solver for predicates.  `CUDD_Context` is one: its predicates
are decision diagrams, and it reduces all connectives to the few that the diagram library
has.
-/

namespace Crave
namespace MetaSmt

/-- The connectives that the bit-blaster asks of a solver for predicates.  A variable
is known by the number of variables made before it. -/
structure PredicateSolver (result_base : Type) where
  var_tag : Nat -> result_base
  false_tag : result_base
  true_tag : result_base
  not_tag : result_base -> result_base
  and_tag : result_base -> result_base -> result_base
  or_tag : result_base -> result_base -> result_base
  xor_tag : result_base -> result_base -> result_base
  xnor_tag : result_base -> result_base -> result_base
  implies_tag : result_base -> result_base -> result_base
  equal_tag : result_base -> result_base -> result_base
  nequal_tag : result_base -> result_base -> result_base
  ite_tag : result_base -> result_base -> result_base -> result_base

/-- The operations of the diagram library. -/
structure Cudd (BDD : Type) where
  bddVar : Nat -> BDD
  bddZero : BDD
  bddOne : BDD
  not : BDD -> BDD
  and : BDD -> BDD -> BDD
  or : BDD -> BDD -> BDD
  xor : BDD -> BDD -> BDD
  Ite : BDD -> BDD -> BDD -> BDD

def CUDD_Context {BDD : Type} (_manager : Cudd BDD) : PredicateSolver BDD :=
  { var_tag := _manager.bddVar
    false_tag := _manager.bddZero
    true_tag := _manager.bddOne
    not_tag := fun a => _manager.not a
    and_tag := fun a b => _manager.and a b
    or_tag := fun a b => _manager.or a b
    xor_tag := fun a b => _manager.xor a b
    xnor_tag := fun a b => _manager.not (_manager.xor a b)
    implies_tag := fun a b => _manager.or (_manager.not a) b
    equal_tag := fun a b => _manager.not (_manager.xor a b)
    nequal_tag := fun a b => _manager.xor a b
    ite_tag := fun a b c => _manager.Ite a b c }

/-- The truth values of the predicates under one assignment of the variables. -/
structure PredicateSolver.Reads {result_base : Type} (_solver : PredicateSolver result_base)
    (assignment : Nat -> Bool) (sem : result_base -> Bool) : Prop where
  var_tag : forall k, sem (_solver.var_tag k) = assignment k
  false_tag : sem _solver.false_tag = false
  true_tag : sem _solver.true_tag = true
  not_tag : forall a, sem (_solver.not_tag a) = !sem a
  and_tag : forall a b, sem (_solver.and_tag a b) = (sem a && sem b)
  or_tag : forall a b, sem (_solver.or_tag a b) = (sem a || sem b)
  xor_tag : forall a b, sem (_solver.xor_tag a b) = (sem a ^^ sem b)
  xnor_tag : forall a b, sem (_solver.xnor_tag a b) = (sem a == sem b)
  implies_tag : forall a b, sem (_solver.implies_tag a b) = (!sem a || sem b)
  equal_tag : forall a b, sem (_solver.equal_tag a b) = (sem a == sem b)
  nequal_tag : forall a b, sem (_solver.nequal_tag a b) = (sem a != sem b)
  ite_tag : forall a b c, sem (_solver.ite_tag a b c) = if sem a then sem b else sem c

/-- The solver whose predicates are the truth values under an assignment. -/
def PredicateSolver.evaluating (assignment : Nat -> Bool) : PredicateSolver Bool :=
  { var_tag := assignment
    false_tag := false
    true_tag := true
    not_tag := fun a => !a
    and_tag := fun a b => a && b
    or_tag := fun a b => a || b
    xor_tag := fun a b => a ^^ b
    xnor_tag := fun a b => a == b
    implies_tag := fun a b => !a || b
    equal_tag := fun a b => a == b
    nequal_tag := fun a b => a != b
    ite_tag := fun a b c => if a then b else c }

/-- A way to read the predicates of a solver. -/
structure PredicateSolver.Reading {result_base : Type} (_solver : PredicateSolver result_base) where
  assignment : Nat -> Bool
  sem : result_base -> Bool
  reads : _solver.Reads assignment sem

namespace PredicateSolver.Reading

variable {result_base : Type} {_solver : PredicateSolver result_base} (r : _solver.Reading)

@[simp] theorem sem_var_tag (k : Nat) : r.sem (_solver.var_tag k) = r.assignment k :=
  r.reads.var_tag k

@[simp] theorem sem_false_tag : r.sem _solver.false_tag = false :=
  r.reads.false_tag

@[simp] theorem sem_true_tag : r.sem _solver.true_tag = true :=
  r.reads.true_tag

@[simp] theorem sem_not_tag (a : result_base) : r.sem (_solver.not_tag a) = !r.sem a :=
  r.reads.not_tag a

@[simp] theorem sem_and_tag (a b : result_base) :
    r.sem (_solver.and_tag a b) = (r.sem a && r.sem b) :=
  r.reads.and_tag a b

@[simp] theorem sem_or_tag (a b : result_base) :
    r.sem (_solver.or_tag a b) = (r.sem a || r.sem b) :=
  r.reads.or_tag a b

@[simp] theorem sem_xor_tag (a b : result_base) :
    r.sem (_solver.xor_tag a b) = (r.sem a ^^ r.sem b) :=
  r.reads.xor_tag a b

@[simp] theorem sem_xnor_tag (a b : result_base) :
    r.sem (_solver.xnor_tag a b) = (r.sem a == r.sem b) :=
  r.reads.xnor_tag a b

@[simp] theorem sem_implies_tag (a b : result_base) :
    r.sem (_solver.implies_tag a b) = (!r.sem a || r.sem b) :=
  r.reads.implies_tag a b

@[simp] theorem sem_equal_tag (a b : result_base) :
    r.sem (_solver.equal_tag a b) = (r.sem a == r.sem b) :=
  r.reads.equal_tag a b

@[simp] theorem sem_nequal_tag (a b : result_base) :
    r.sem (_solver.nequal_tag a b) = (r.sem a != r.sem b) :=
  r.reads.nequal_tag a b

@[simp] theorem sem_ite_tag (a b c : result_base) :
    r.sem (_solver.ite_tag a b c) = if r.sem a then r.sem b else r.sem c :=
  r.reads.ite_tag a b c

end PredicateSolver.Reading

/-- The diagrams denote Boolean functions, and the operations of the library are those of
the functions. -/
structure Cudd.Denotes {BDD : Type} (_manager : Cudd BDD) (eval : (Nat -> Bool) -> BDD -> Bool) :
    Prop where
  bddVar : forall ρ k, eval ρ (_manager.bddVar k) = ρ k
  bddZero : forall ρ, eval ρ _manager.bddZero = false
  bddOne : forall ρ, eval ρ _manager.bddOne = true
  not : forall ρ a, eval ρ (_manager.not a) = !eval ρ a
  and : forall ρ a b, eval ρ (_manager.and a b) = (eval ρ a && eval ρ b)
  or : forall ρ a b, eval ρ (_manager.or a b) = (eval ρ a || eval ρ b)
  xor : forall ρ a b, eval ρ (_manager.xor a b) = (eval ρ a ^^ eval ρ b)
  Ite : forall ρ a b c, eval ρ (_manager.Ite a b c) = if eval ρ a then eval ρ b else eval ρ c

/-- The connectives of `CUDD_Context` read the diagrams as truth values. -/
theorem Cudd.Denotes.reads {BDD : Type} {_manager : Cudd BDD}
    {eval : (Nat -> Bool) -> BDD -> Bool} (h : _manager.Denotes eval) (ρ : Nat -> Bool) :
    (CUDD_Context _manager).Reads ρ (eval ρ) := by
  have hxnor : forall a b, eval ρ (_manager.not (_manager.xor a b)) = (eval ρ a == eval ρ b) := by
    intro a b
    rw [h.not, h.xor]
    cases eval ρ a <;> cases eval ρ b <;> rfl
  constructor
  · exact h.bddVar ρ
  · exact h.bddZero ρ
  · exact h.bddOne ρ
  · exact h.not ρ
  · exact h.and ρ
  · exact h.or ρ
  · exact h.xor ρ
  · exact hxnor
  · intro a b
    show eval ρ (_manager.or (_manager.not a) b) = _
    rw [h.or, h.not]
  · exact hxnor
  · intro a b
    exact h.xor ρ a b
  · exact h.Ite ρ

/-- An assignment of the variables as a reading. -/
def Cudd.Denotes.reading {BDD : Type} {_manager : Cudd BDD}
    {eval : (Nat -> Bool) -> BDD -> Bool} (h : _manager.Denotes eval) (ρ : Nat -> Bool) :
    (CUDD_Context _manager).Reading :=
  { assignment := ρ, sem := eval ρ, reads := h.reads ρ }

end MetaSmt
end Crave
