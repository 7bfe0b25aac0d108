import Mathlib.Data.List.Count

/-!
# Countdowns

A system takes labelled steps, and some of the labels count. Every counted step uses up
something of a number that no step increases, until a state is reached that is done.
-/

namespace Crave
namespace Foundation

universe u v

variable {state : Type u} {label : Type v} {step : label -> state -> state -> Prop}

/-- The labels of the steps from one state to another. -/
inductive Trace (step : label -> state -> state -> Prop) (s : state) :
    List label -> state -> Prop where
  | start : Trace step s [] s
  | step {labels : List label} {s₁ s₂ : state} (l : label) (before : Trace step s labels s₁)
      (h : step l s₁ s₂) : Trace step s (labels ++ [l]) s₂

theorem Trace.single {l : label} {s s' : state} (h : step l s s') : Trace step s [l] s' :=
  Trace.step l Trace.start h

theorem Trace.trans {labels labels' : List label} {s s₁ s' : state}
    (h : Trace step s labels s₁) (h' : Trace step s₁ labels' s') :
    Trace step s (labels ++ labels') s' := by
  induction h' with
  | start =>
      rw [List.append_nil]
      exact h
  | step l _ hstep ih =>
      rw [← List.append_assoc]
      exact Trace.step l ih hstep

/-- Each step keeps the invariant and what is done, and otherwise leaves less by one when
its label counts. -/
structure Countdown (step : label -> state -> state -> Prop) (counts : label -> Bool)
    (Invariant done : state -> Prop) (remaining : state -> Nat) : Prop where
  invariant : forall l s s', step l s s' -> Invariant s -> Invariant s'
  stays : forall l s s', step l s s' -> Invariant s -> done s -> done s'
  progress : forall l s s', step l s s' -> Invariant s ->
    done s' ∨ remaining s' + (counts l).toNat ≤ remaining s

namespace Countdown

variable {counts : label -> Bool} {Invariant done : state -> Prop} {remaining : state -> Nat}
  {labels : List label} {s s' : state}

theorem invariant_trace (h : Countdown step counts Invariant done remaining)
    (htrace : Trace step s labels s') (hinv : Invariant s) : Invariant s' := by
  induction htrace with
  | start => exact hinv
  | step l _ hstep ih => exact h.invariant l _ _ hstep ih

theorem stays_trace (h : Countdown step counts Invariant done remaining)
    (htrace : Trace step s labels s') (hinv : Invariant s) (hdone : done s) : done s' := by
  induction htrace with
  | start => exact hdone
  | step l before hstep ih =>
      exact h.stays l _ _ hstep (h.invariant_trace before hinv) ih

theorem progress_trace (h : Countdown step counts Invariant done remaining)
    (htrace : Trace step s labels s') (hinv : Invariant s) :
    done s' ∨ remaining s' + labels.countP counts ≤ remaining s := by
  induction htrace with
  | start => exact Or.inr (Nat.le_refl _)
  | @step labels s₁ s₂ l before hstep ih =>
      have hinv₁ := h.invariant_trace before hinv
      cases ih with
      | inl hdone => exact Or.inl (h.stays l s₁ s₂ hstep hinv₁ hdone)
      | inr hle =>
          cases h.progress l s₁ s₂ hstep hinv₁ with
          | inl hdone => exact Or.inl hdone
          | inr hstep' =>
              apply Or.inr
              have hcount : (labels ++ [l]).countP counts =
                  labels.countP counts + (counts l).toNat := by
                rw [List.countP_append, List.countP_singleton]
                cases counts l with
                | false => rfl
                | true => rfl
              omega

theorem done_of_lt (h : Countdown step counts Invariant done remaining)
    (htrace : Trace step s labels s') (hinv : Invariant s)
    (hlt : remaining s < labels.countP counts) : done s' := by
  cases h.progress_trace htrace hinv with
  | inl hdone => exact hdone
  | inr hle => omega

end Countdown

end Foundation
end Crave
