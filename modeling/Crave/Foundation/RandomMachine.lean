import Mathlib.Probability.Distributions.Uniform

/-!
# Machines with random replies

A machine takes one call after the other and replies to each.  Two machines give the same
replies with the same odds when their steps can be drawn together, with one reply and with
states that stay related.
-/

namespace Crave
namespace Foundation

structure Machine (m : Type -> Type) (Call Reply State : Type) where
  step : Call -> State -> m (Reply × State)

namespace Machine

variable {m : Type -> Type} [Monad m] {Call Call' Reply State State' : Type}

def run (M : Machine m Call Reply State) : List Call -> State -> m (List Reply)
  | [], _ => pure []
  | call :: calls, s => do
      let (reply, s) <- M.step call s
      let replies <- M.run calls s
      return reply :: replies

/-- A reply with the states that two machines go to. -/
abbrev Joint (Reply : Type) {State State' : Type} (R : State -> State' -> Prop) : Type :=
  { p : Reply × State × State' // R p.2.1 p.2.2 }

/-- Related calls in related states can be drawn together. -/
def Simulates (M : Machine m Call Reply State) (N : Machine m Call' Reply State')
    (Q : Call -> Call' -> Prop) (R : State -> State' -> Prop) : Prop :=
  forall call call' s s', Q call call' -> R s s' ->
    exists joint : m (Joint Reply R),
      M.step call s = (fun p => (p.1.1, p.1.2.1)) <$> joint ∧
      N.step call' s' = (fun p => (p.1.1, p.1.2.2)) <$> joint

theorem Simulates.run_eq [LawfulMonad m] {M : Machine m Call Reply State}
    {N : Machine m Call' Reply State'} {Q : Call -> Call' -> Prop} {R : State -> State' -> Prop}
    (h : Simulates M N Q R) {calls : List Call} {calls' : List Call'}
    (hcalls : List.Forall₂ Q calls calls') {s : State} {s' : State'} (hs : R s s') :
    M.run calls s = N.run calls' s' := by
  induction hcalls generalizing s s' with
  | nil => rfl
  | cons hcall _ ih =>
      rcases h _ _ s s' hcall hs with ⟨joint, hM, hN⟩
      rw [run, run, hM, hN, bind_map_left, bind_map_left]
      refine bind_congr fun p => ?_
      simp only [ih p.2]

end Machine

/-!
## Uniform solutions

What a solver with random solutions is for: it keeps a set of assertions and a set of
assumptions, and replies with one of the solutions, all equally likely.  The assumptions
are for one call.
-/

inductive SolverCall (Constraint : Type) where
  | assertion (e : Constraint)
  | assumption (e : Constraint)
  | solve

def SolverCall.map {Constraint Constraint' : Type} (f : Constraint -> Constraint') :
    SolverCall Constraint -> SolverCall Constraint'
  | assertion e => .assertion (f e)
  | assumption e => .assumption (f e)
  | solve => .solve

def SolverCall.All {Constraint : Type} (P : Constraint -> Prop) : SolverCall Constraint -> Prop
  | assertion e => P e
  | assumption e => P e
  | solve => True

inductive SolverReply (Solution : Type) where
  | done
  | undefined
  | unsolvable
  | solved (solution : Solution)

/-- The solutions that the assertions and the assumptions leave. -/
structure UniformSolver (Solution : Type) where
  assertions : Finset Solution
  assumptions : Finset Solution

namespace UniformSolver

variable {Solution : Type} [DecidableEq Solution]

def solutions (s : UniformSolver Solution) : Finset Solution :=
  s.assertions ∩ s.assumptions

variable [Fintype Solution]

def new : UniformSolver Solution :=
  { assertions := Finset.univ, assumptions := Finset.univ }

noncomputable def machine :
    Machine PMF (SolverCall (Finset Solution)) (SolverReply Solution) (UniformSolver Solution) :=
  { step := fun call s =>
      match call with
      | .assertion e => pure (.done, { s with assertions := s.assertions ∩ e })
      | .assumption e => pure (.done, { s with assumptions := s.assumptions ∩ e })
      | .solve =>
          if h : s.solutions.Nonempty then
            (fun a => (.solved a, { s with assumptions := Finset.univ })) <$>
              PMF.uniformOfFinset s.solutions h
          else
            pure (.unsolvable, { s with assumptions := Finset.univ }) }

end UniformSolver

end Foundation
end Crave
