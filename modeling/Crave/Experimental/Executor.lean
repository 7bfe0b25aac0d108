import Mathlib.Data.List.Nodup
import Mathlib.Logic.Function.Basic
import Crave.Experimental.RuleContext

/-!
# The executor of a rule

The executor builds a graph with three vertices for every visit of a node, and then
runs along every path from the first vertex. A node that several parents share is
visited once for each of them, so that what it walks over is the unfolded tree.
-/

namespace Crave
namespace Experimental
namespace Graph

universe u

variable {α : Type u}

/-- The nodes below the root, as the executor meets them. -/
inductive RuleTree where
  | terminal (name : String)
  | nonTerminal (kind : Kind) (name : Option String) (children : List RuleTree)

/-- The actions of a rule may be empty functions. -/
structure Rule (α : Type u) where
  entry : Option α
  main : Option α
  exit : Option α

structure Executor (α : Type u) where
  m_id : Nat
  m_stack : List (Nat × Nat)
  m_adj : Nat -> List Nat
  m_actions : Nat -> Option (Option α)
  m_main_to_rule_map : Nat -> Option (Rule α)

inductive Failure where
  | assertion (message : String)
  | emptyStack
  | outOfFuel

namespace Executor

def new : Executor α where
  m_id := 0
  m_stack := []
  m_adj := fun _ => []
  m_actions := fun _ => none
  m_main_to_rule_map := fun _ => none

def make_edge (s d : Nat) (e : Executor α) : Executor α :=
  { e with m_adj := Function.update e.m_adj s (e.m_adj s ++ [d]) }

def getRule (m_rules : String -> Option (Rule α)) (name : Option String) : Option (Rule α) :=
  match name with
  | none => none
  | some n => m_rules n

/-- The entries that the maps get for the three vertices of a rule. -/
def insertRule (r : Option (Rule α)) (start : Nat) (e : Executor α) : Executor α :=
  match r with
  | none => e
  | some r =>
      { e with
        m_actions :=
          Function.update
            (Function.update (Function.update e.m_actions start (some r.entry)) (start + 1)
              (some r.main))
            (start + 2) (some r.exit)
        m_main_to_rule_map := Function.update e.m_main_to_rule_map (start + 1) (some r) }

def allocate (e : Executor α) : Executor α :=
  { e with m_id := e.m_id + 3, m_stack := (e.m_id, e.m_id + 2) :: e.m_stack }

def visitTerminal (m_rules : String -> Option (Rule α)) (name : String) (e : Executor α) :
    Except Failure (Executor α) :=
  match getRule m_rules (some name) with
  | none => .error (.assertion "A named rule could not be found")
  | some r =>
      .ok
        (((insertRule (some r) e.m_id e).make_edge e.m_id (e.m_id + 1)).make_edge
          (e.m_id + 1) (e.m_id + 2)).allocate

/-- The maps, the stack and the first edge of a nonterminal, before its children. -/
def enter (m_rules : String -> Option (Rule α)) (name : Option String) (e : Executor α) :
    Executor α :=
  (insertRule (getRule m_rules name) e.m_id e.allocate).make_edge e.m_id (e.m_id + 1)

mutual

def visit (m_rules : String -> Option (Rule α)) :
    RuleTree -> Executor α -> Except Failure (Executor α)
  | .terminal name, e => visitTerminal m_rules name e
  | .nonTerminal .Selector name children, e =>
      visitChoices m_rules e.m_id children (enter m_rules name e)
  | .nonTerminal .Sequence name children, e =>
      match visitSteps m_rules children (e.m_id + 1) (enter m_rules name e) with
      | .error failure => .error failure
      | .ok (last, e') => .ok (e'.make_edge last (e.m_id + 2))

/-- The loop of `visitSelector`. -/
def visitChoices (m_rules : String -> Option (Rule α)) (start : Nat) :
    List RuleTree -> Executor α -> Except Failure (Executor α)
  | [], e => .ok e
  | n :: rest, e =>
      match visit m_rules n e with
      | .error failure => .error failure
      | .ok e =>
          -- the popped pair is read before anything is pushed again
          match e.m_stack with
          | [] => .error .emptyStack
          | r :: stack =>
              visitChoices m_rules start rest
                (({ e with m_stack := stack }.make_edge (start + 1) r.1).make_edge r.2
                  (start + 2))

/-- The loop of `visitSequence`, with the vertex that the next child is put behind. -/
def visitSteps (m_rules : String -> Option (Rule α)) :
    List RuleTree -> Nat -> Executor α -> Except Failure (Nat × Executor α)
  | [], last, e => .ok (last, e)
  | n :: rest, last, e =>
      match visit m_rules n e with
      | .error failure => .error failure
      | .ok e =>
          match e.m_stack with
          | [] => .error .emptyStack
          | r :: stack =>
              visitSteps m_rules rest r.2 ({ e with m_stack := stack }.make_edge last r.1)

end

def dfsAll (dfs : Nat -> Except Failure (List (List Nat))) :
    List Nat -> Except Failure (List (List Nat))
  | [] => .ok []
  | i :: adj =>
      match dfs i with
      | .error failure => .error failure
      | .ok first =>
          match dfsAll dfs adj with
          | .error failure => .error failure
          | .ok later => .ok (first ++ later)

/-- The paths that the traversal completes, in order. Along a completed path the actions
run again until the objects bound to its rules are covered. -/
def dfs (m_adj : Nat -> List Nat) : Nat -> Nat -> List Nat -> Except Failure (List (List Nat))
  | 0, _, _ => .error .outOfFuel
  | fuel + 1, v, path =>
      match m_adj v with
      | [] =>
          if v = 2 then .ok [path ++ [v]]
          else .error (.assertion "Invalid end of unfolded sequence")
      | adj => dfsAll (fun i => dfs m_adj fuel i (path ++ [v])) adj

/-- The visit of the root, whose first vertex is 0, and the traversal that it ends with. -/
def execute (m_rules : String -> Option (Rule α)) (root : RuleTree) :
    Except Failure (Executor α × List (List Nat)) :=
  match visit m_rules root new with
  | .error failure => .error failure
  | .ok e =>
      match dfs e.m_adj e.m_id 0 [] with
      | .error failure => .error failure
      | .ok paths => .ok (e, paths)

/-- The actions along a path, the empty functions left out. -/
def actionsAlong (e : Executor α) (path : List Nat) : List α :=
  path.filterMap fun i => (e.m_actions i).join

end Executor

/-!
## Derivations
-/

/-- A derivation chooses a child at every selector. -/
inductive Derivation where
  | terminal (name : String)
  | selector (name : Option String) (choice : Nat) (d : Derivation)
  | sequence (name : Option String) (ds : List Derivation)

namespace RuleTree

mutual

def IsDerivation : RuleTree -> Derivation -> Prop
  | .terminal name, .terminal name' => name = name'
  | .nonTerminal .Selector name children, .selector name' choice d =>
      name = name' ∧ IsChoice children choice d
  | .nonTerminal .Sequence name children, .sequence name' ds =>
      name = name' ∧ AreSteps children ds
  | _, _ => False

def IsChoice : List RuleTree -> Nat -> Derivation -> Prop
  | [], _, _ => False
  | t :: _, 0, d => IsDerivation t d
  | _ :: rest, choice + 1, d => IsChoice rest choice d

def AreSteps : List RuleTree -> List Derivation -> Prop
  | [], [] => True
  | t :: rest, d :: ds => IsDerivation t d ∧ AreSteps rest ds
  | _, _ => False

end

mutual

def derivations : RuleTree -> List Derivation
  | .terminal name => [.terminal name]
  | .nonTerminal .Selector name children =>
      (choices children).map fun c => .selector name c.1 c.2
  | .nonTerminal .Sequence name children => (steps children).map fun ds => .sequence name ds

def choices : List RuleTree -> List (Nat × Derivation)
  | [] => []
  | t :: rest =>
      (derivations t).map (fun d => (0, d)) ++ (choices rest).map fun c => (c.1 + 1, c.2)

def steps : List RuleTree -> List (List Derivation)
  | [] => [[]]
  | t :: rest => (derivations t).flatMap fun d => (steps rest).map fun ds => d :: ds

end

mutual

/-- One for a terminal, the sum over the children of a selector and the product over
the children of a sequence. -/
def countDerivations : RuleTree -> Nat
  | .terminal _ => 1
  | .nonTerminal .Selector _ children => sumDerivations children
  | .nonTerminal .Sequence _ children => productDerivations children

def sumDerivations : List RuleTree -> Nat
  | [] => 0
  | t :: rest => countDerivations t + sumDerivations rest

def productDerivations : List RuleTree -> Nat
  | [] => 1
  | t :: rest => countDerivations t * productDerivations rest

end

mutual

theorem mem_derivations (t : RuleTree) (d : Derivation) :
    d ∈ derivations t ↔ IsDerivation t d := by
  cases t with
  | terminal name =>
      cases d with
      | terminal name' => simp [derivations, IsDerivation, eq_comm]
      | selector name' choice d => simp [derivations, IsDerivation]
      | sequence name' ds => simp [derivations, IsDerivation]
  | nonTerminal kind name children =>
      cases kind with
      | Selector =>
          cases d with
          | terminal name' => simp [derivations, IsDerivation]
          | selector name' choice d =>
              have hchoice := mem_choices children choice d
              simp only [derivations, IsDerivation, List.mem_map, Prod.exists,
                Derivation.selector.injEq, ← hchoice]
              constructor
              · rintro ⟨c, d', hmem, rfl, rfl, rfl⟩
                exact ⟨rfl, hmem⟩
              · rintro ⟨rfl, hmem⟩
                exact ⟨choice, d, hmem, rfl, rfl, rfl⟩
          | sequence name' ds => simp [derivations, IsDerivation]
      | Sequence =>
          cases d with
          | terminal name' => simp [derivations, IsDerivation]
          | selector name' choice d => simp [derivations, IsDerivation]
          | sequence name' ds =>
              have hsteps := mem_steps children ds
              simp only [derivations, IsDerivation, List.mem_map, Derivation.sequence.injEq,
                ← hsteps]
              constructor
              · rintro ⟨ds', hmem, rfl, rfl⟩
                exact ⟨rfl, hmem⟩
              · rintro ⟨rfl, hmem⟩
                exact ⟨ds, hmem, rfl, rfl⟩

theorem mem_choices (children : List RuleTree) (choice : Nat) (d : Derivation) :
    (choice, d) ∈ choices children ↔ IsChoice children choice d := by
  cases children with
  | nil => simp [choices, IsChoice]
  | cons t rest =>
      cases choice with
      | zero =>
          have hfirst := mem_derivations t d
          simp [choices, IsChoice, hfirst]
      | succ choice =>
          have hrest := mem_choices rest choice d
          simp [choices, IsChoice, hrest]

theorem mem_steps (children : List RuleTree) (ds : List Derivation) :
    ds ∈ steps children ↔ AreSteps children ds := by
  cases children with
  | nil => cases ds <;> simp [steps, AreSteps]
  | cons t rest =>
      cases ds with
      | nil => simp [steps, AreSteps]
      | cons d ds =>
          have hfirst := mem_derivations t d
          have hrest := mem_steps rest ds
          simp [steps, AreSteps, hfirst, hrest]

end

mutual

theorem nodup_derivations (t : RuleTree) : (derivations t).Nodup := by
  cases t with
  | terminal name => exact List.nodup_singleton _
  | nonTerminal kind name children =>
      cases kind with
      | Selector =>
          apply (nodup_choices children).map
          rintro ⟨c, d⟩ ⟨c', d'⟩ h
          cases h
          rfl
      | Sequence =>
          apply (nodup_steps children).map
          intro ds ds' h
          cases h
          rfl

theorem nodup_choices (children : List RuleTree) : (choices children).Nodup := by
  cases children with
  | nil => exact List.nodup_nil
  | cons t rest =>
      have hfirst := nodup_derivations t
      have hrest := nodup_choices rest
      apply List.Nodup.append
      · apply hfirst.map
        intro d d' h
        cases h
        rfl
      · apply hrest.map
        rintro ⟨c, d⟩ ⟨c', d'⟩ h
        cases h
        rfl
      · intro c hc hc'
        rcases List.mem_map.mp hc with ⟨d, -, rfl⟩
        rcases List.mem_map.mp hc' with ⟨c', -, h⟩
        cases h

theorem nodup_steps (children : List RuleTree) : (steps children).Nodup := by
  cases children with
  | nil => exact List.nodup_singleton _
  | cons t rest =>
      have hfirst := nodup_derivations t
      have hrest := nodup_steps rest
      rw [steps, List.nodup_flatMap]
      constructor
      · intro d _
        apply hrest.map
        intro ds ds' h
        cases h
        rfl
      · apply hfirst.imp
        intro d d' hne ds hds hds'
        rcases List.mem_map.mp hds with ⟨ds₁, -, rfl⟩
        rcases List.mem_map.mp hds' with ⟨ds₂, -, h⟩
        cases h
        exact hne rfl

end

mutual

theorem length_derivations (t : RuleTree) : (derivations t).length = countDerivations t := by
  cases t with
  | terminal name => rfl
  | nonTerminal kind name children =>
      cases kind with
      | Selector => simpa [derivations, countDerivations] using length_choices children
      | Sequence => simpa [derivations, countDerivations] using length_steps children

theorem length_choices (children : List RuleTree) :
    (choices children).length = sumDerivations children := by
  cases children with
  | nil => rfl
  | cons t rest =>
      have hfirst := length_derivations t
      have hrest := length_choices rest
      simp [choices, sumDerivations, hfirst, hrest]

theorem length_steps (children : List RuleTree) :
    (steps children).length = productDerivations children := by
  cases children with
  | nil => rfl
  | cons t rest =>
      have hfirst := length_derivations t
      have hrest := length_steps rest
      simp [steps, productDerivations, List.length_flatMap, hfirst, hrest]

end

end RuleTree

end Graph
end Experimental
end Crave
