import Mathlib.Data.List.Basic

/-!
# Transition bins

The states of a transition and the bin that follows it. The nodes of a transition
are a doubly linked list: a node is modelled with the state before it, its own
state and the states after it. An expression is the predicate on samples that the
evaluator computes for it. Hits are counted in 32 bits; the counters and bounds of a
repetition are of type `int`.
-/

namespace Crave
namespace Experimental

universe u

inductive NodeType where
  | GOTO
  | CONSEC
  | NON_CONSEC
deriving DecidableEq, Repr

structure FsmState (α : Type u) where
  type : NodeType
  expr : α -> Bool
  minHit : Int
  maxHit : Int

namespace FsmState

variable {α : Type u}

/-!
## Continue functions

A transition under construction is the list of the states up to the node that the
C++ pointer holds.
-/

/-- The bounds are unsigned; as they are stored they are converted to `int`. -/
def addState (node : List (FsmState α)) (N M : BitVec 32) (expr : α -> Bool)
    (pNodeType : NodeType) : List (FsmState α) :=
  if N ≤ 0 then node
  else node ++ [{ type := pNodeType, expr := expr, minHit := N.toInt, maxHit := M.toInt }]

def consecutive_repeat (node : List (FsmState α)) (N M : BitVec 32) (expr : α -> Bool) :
    List (FsmState α) :=
  addState node N M expr .CONSEC

def goto_repeat (node : List (FsmState α)) (N M : BitVec 32) (expr : α -> Bool) :
    List (FsmState α) :=
  addState node N M expr .GOTO

def non_consecutive_repeat (node : List (FsmState α)) (N M : BitVec 32) (expr : α -> Bool) :
    List (FsmState α) :=
  addState node N M expr .NON_CONSEC

def next (node : List (FsmState α)) (expr : α -> Bool) : List (FsmState α) :=
  consecutive_repeat node 1 1 expr

end FsmState

/-- A node of a chain of states of a type. -/
structure Node (σ : Type u) where
  prev : Option σ
  state : σ
  succ : List σ

namespace Node

variable {σ : Type u}

/-- The node behind the `succ` pointer. -/
def succ? (node : Node σ) : Option (Node σ) :=
  match node.succ with
  | [] => none
  | s :: rest => some { prev := some node.state, state := s, succ := rest }

def states (node : Node σ) : List σ :=
  node.state :: node.succ

end Node

structure Run (α : Type u) where
  state : Node (FsmState α)
  count : Int

structure TransitionBin (α : Type u) where
  root : Node (FsmState α)
  runs : List (Run α)
  hit_minimum_ : BitVec 32
  hit_count_ : BitVec 32

namespace TransitionBin

variable {α : Type u}

/-- The bin of a transition, whose first state is the root of the state machine. -/
def new (root : FsmState α) (succ : List (FsmState α)) : TransitionBin α where
  root := { prev := none, state := root, succ := succ }
  runs := []
  hit_minimum_ := 1
  hit_count_ := 0

def incrementHit (bin : TransitionBin α) : TransitionBin α :=
  { bin with hit_count_ := bin.hit_count_ + 1 }

def covered (bin : TransitionBin α) : Bool :=
  bin.hit_minimum_ ≤ bin.hit_count_

/-- Just keep the current transition. -/
def softFail (current : Run α) (resultRuns : List (Run α)) (hit : Bool) :
    List (Run α) × Bool :=
  (resultRuns ++ [current], hit)

def hitState (current : Run α) (resultRuns : List (Run α)) (hit : Bool) :
    List (Run α) × Bool :=
  let current := { current with count := current.count + 1 }
  let belowMin := current.count < current.state.state.minHit
  let betweenMinMax :=
    current.count ≥ current.state.state.minHit ∧ current.count < current.state.state.maxHit
  if belowMin then
    (resultRuns ++ [current], hit)
  else if betweenMinMax then
    -- the run stays at its state, and follows the successor too
    match current.state.succ? with
    | none => (resultRuns ++ [current], true)
    | some succ => (resultRuns ++ [current] ++ [{ state := succ, count := 0 }], hit)
  else
    match current.state.succ? with
    | none => (resultRuns, true)
    | some succ => (resultRuns ++ [{ state := succ, count := 0 }], hit)

def hardFail (sample : α) (current : Run α) (resultRuns : List (Run α)) (hit : Bool) :
    List (Run α) × Bool :=
  match current.state.prev with
  | none => (resultRuns, hit)
  | some prev =>
      if prev.type = .NON_CONSEC then
        let hitAgain := prev.expr sample
        -- carried to the next sample, whatever the count of the run is
        if !hitAgain then (resultRuns ++ [current], hit) else (resultRuns, hit)
      else
        (resultRuns, hit)

def checkRun (sample : α) (current : Run α) (resultRuns : List (Run α)) (hit : Bool) :
    List (Run α) × Bool :=
  let wasHit := current.state.state.expr sample
  if wasHit then
    hitState current resultRuns hit
  else if current.state.state.type = .CONSEC then
    hardFail sample current resultRuns hit
  else
    softFail current resultRuns hit

/-- The public `calcHit`, called once for each sample. -/
def calcHit (bin : TransitionBin α) (sample : α) : TransitionBin α :=
  let pending := bin.runs.foldl
    (fun acc current => checkRun sample current acc.1 acc.2) ([], false)
  let started :=
    if bin.root.state.expr sample then
      checkRun sample { state := bin.root, count := 0 } pending.1 pending.2
    else pending
  let counted := if started.2 then bin.incrementHit else bin
  { counted with runs := started.1 }

def sampleAll (bin : TransitionBin α) (samples : List α) : TransitionBin α :=
  samples.foldl calcHit bin

end TransitionBin

end Experimental
end Crave
