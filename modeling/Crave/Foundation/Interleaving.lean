import Mathlib.Algebra.BigOperators.Group.Finset.Basic
import Mathlib.Algebra.Order.BigOperators.Group.Finset
import Mathlib.Logic.Relation
import Mathlib.Order.WellFounded

/-!
# Interleaved threads

Threads with a state each and a state in common.  One thread at a time takes a step.  What
every thread keeps of its own, and what no other thread disturbs, holds in all interleavings.
-/

namespace Crave
namespace Foundation

/-- What a thread can do to its state and to the common one. -/
abbrev ThreadStep (ι τ σ : Type) :=
  ι -> τ -> σ -> τ -> σ -> Prop

/-- The states of all threads, and the common state. -/
structure Pool (ι τ σ : Type) where
  threads : ι -> τ
  shared : σ

namespace Pool

section Steps

variable {ι τ σ : Type} [DecidableEq ι] (step : ThreadStep ι τ σ)

inductive Step : Pool ι τ σ -> Pool ι τ σ -> Prop
  | thread {c : Pool ι τ σ} {i : ι} {t : τ} {s : σ} (h : step i (c.threads i) c.shared t s) :
      Step c { threads := Function.update c.threads i t, shared := s }

abbrev Run : Pool ι τ σ -> Pool ι τ σ -> Prop :=
  Relation.ReflTransGen (Step step)

variable {step}

theorem step_cases {c c' : Pool ι τ σ} (h : Step step c c') :
    exists i, step i (c.threads i) c.shared (c'.threads i) c'.shared ∧
      forall j, j ≠ i -> c'.threads j = c.threads j := by
  cases h with
  | @thread i t s h =>
      refine ⟨i, ?_, fun j hj => Function.update_of_ne hj _ _⟩
      simpa only [Function.update_self] using h

/-- An invariant of every thread that the steps of the other threads keep as well. -/
structure Stable (step : ThreadStep ι τ σ) (inv : ι -> τ -> σ -> Prop) : Prop where
  own : forall i t s t' s', inv i t s -> step i t s t' s' -> inv i t' s'
  other : forall i j t u s t' s',
    j ≠ i -> inv i t s -> inv j u s -> step i t s t' s' -> inv j u s'

/-- The invariant of every thread. -/
def All (inv : ι -> τ -> σ -> Prop) (c : Pool ι τ σ) : Prop :=
  forall i, inv i (c.threads i) c.shared

variable {inv : ι -> τ -> σ -> Prop} {c c' : Pool ι τ σ}

theorem Stable.preserves (hstable : Stable step inv) (h : Step step c c') (hall : All inv c) :
    All inv c' := by
  intro j
  rcases step_cases h with ⟨i, hstep, hothers⟩
  by_cases hj : j = i
  · rw [hj]
    exact hstable.own i _ _ _ _ (hall i) hstep
  · rw [hothers j hj]
    exact hstable.other i j _ _ _ _ _ hj (hall i) (hall j) hstep

theorem Stable.run (hstable : Stable step inv) (h : Run step c c') (hall : All inv c) :
    All inv c' := by
  induction h with
  | refl => exact hall
  | tail _ hlast ih => exact hstable.preserves hlast ih

end Steps

/-!
## Runs that end
-/

section Ends

variable {ι τ σ : Type} [DecidableEq ι] [Fintype ι] {step : ThreadStep ι τ σ}

def left (rank : ι -> τ -> Nat) (c : Pool ι τ σ) : Nat :=
  ∑ i, rank i (c.threads i)

variable {inv : ι -> τ -> σ -> Prop} (hstable : Stable step inv) {rank : ι -> τ -> Nat}
  (hrank : forall i t s t' s', inv i t s -> step i t s t' s' -> rank i t' < rank i t)

include hrank

theorem left_lt {c c' : Pool ι τ σ} (hall : All inv c) (h : Step step c c') :
    left rank c' < left rank c := by
  rcases step_cases h with ⟨i, hstep, hothers⟩
  apply Finset.sum_lt_sum
  · intro j _
    by_cases hj : j = i
    · rw [hj]
      exact (hrank i _ _ _ _ (hall i) hstep).le
    · rw [hothers j hj]
  · exact ⟨i, Finset.mem_univ i, hrank i _ _ _ _ (hall i) hstep⟩

include hstable

theorem no_infinite_run {f : Nat -> Pool ι τ σ} (hall : All inv (f 0)) :
    ¬ forall n, Step step (f n) (f (n + 1)) := by
  intro h
  have hbound : forall n, All inv (f n) ∧ left rank (f n) + n ≤ left rank (f 0) := by
    intro n
    induction n with
    | zero => exact ⟨hall, Nat.le_refl _⟩
    | succ n ih =>
        have hlt := left_lt hrank ih.1 (h n)
        refine ⟨hstable.preserves (h n) ih.1, ?_⟩
        omega
  have hlast := (hbound (left rank (f 0) + 1)).2
  omega

theorem exists_end {c : Pool ι τ σ} (hall : All inv c) :
    exists c', Run step c c' ∧ forall c'', ¬ Step step c' c'' := by
  induction hn : left rank c using Nat.strong_induction_on generalizing c with
  | h n ih =>
      by_cases hstuck : exists c', Step step c c'
      · rcases hstuck with ⟨c', hstep⟩
        rcases ih _ (hn ▸ left_lt hrank hall hstep) (hstable.preserves hstep hall) rfl with
          ⟨c'', hrun, hend⟩
        exact ⟨c'', Relation.ReflTransGen.head hstep hrun, hend⟩
      · exact ⟨c, Relation.ReflTransGen.refl, fun c'' h => hstuck ⟨c'', h⟩⟩

end Ends

end Pool

end Foundation
end Crave
