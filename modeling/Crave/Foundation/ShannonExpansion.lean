import Crave.Foundation.DecisionDiagram

/-!
# Diagrams of Boolean functions

Every function of finitely many variables has a reduced ordered diagram.  It is built by
expanding the function for one variable after the other, in the order of the indices.
-/

namespace Crave
namespace Foundation
namespace Diagram

namespace Edge

/-- The edge for a choice by a variable.  A complement of the edge for true is moved to
the root. -/
def choice (i : Nat) (t e : Edge) : Edge :=
  if t = e then t
  else
    { complement := t.complement
      regular := .node i t.regular (t.complement ^^ e.complement) e.regular }

def ofFunction : ((Nat -> Bool) -> Bool) -> Nat -> Nat -> Edge
  | f, 0, _ => if f fun _ => false then one else zero
  | f, n + 1, i =>
      choice i (ofFunction (fun ρ => f (Function.update ρ i true)) n (i + 1))
        (ofFunction (fun ρ => f (Function.update ρ i false)) n (i + 1))

theorem eval_choice (i : Nat) (t e : Edge) (ρ : Nat -> Bool) :
    (choice i t e).eval ρ = if ρ i then t.eval ρ else e.eval ρ := by
  rw [choice]
  by_cases h : t = e
  · rw [if_pos h, h, ite_self]
  · rw [if_neg h, eval, Diagram.eval, eval, eval]
    cases ρ i with
    | true => rfl
    | false =>
        simp only [Bool.false_eq_true, if_false]
        rw [← Bool.xor_assoc, ← Bool.xor_assoc, Bool.xor_self, Bool.false_xor]

theorem level_choice {i size : Nat} {t e : Edge} (ht : i + 1 ≤ t.regular.level id size) :
    i ≤ (choice i t e).regular.level id size := by
  rw [choice]
  split
  · exact Nat.le_of_succ_le ht
  · exact Nat.le_refl i

theorem wellFormed_choice {i size : Nat} {t e : Edge} (hi : i < size)
    (ht : t.WellFormed id size) (he : e.WellFormed id size)
    (hlevelT : i + 1 ≤ t.regular.level id size) (hlevelE : i + 1 ≤ e.regular.level id size) :
    (choice i t e).WellFormed id size := by
  rw [choice]
  split
  · exact ht
  · next hne =>
      refine ⟨⟨hi, hlevelT, hlevelE, ht.ordered, he.ordered⟩, ?_, ht.reduced, he.reduced⟩
      rintro ⟨hc, hregular⟩
      apply hne
      rcases t with ⟨c, d⟩
      rcases e with ⟨c', d'⟩
      rw [Edge.mk.injEq]
      exact ⟨bne_eq_false_iff_eq.mp hc, hregular⟩

theorem ofFunction_spec (f : (Nat -> Bool) -> Bool) (n i : Nat) :
    (ofFunction f n i).WellFormed id (i + n) ∧
      i ≤ (ofFunction f n i).regular.level id (i + n) := by
  induction n generalizing f i with
  | zero =>
      rw [ofFunction]
      split
      · exact ⟨⟨trivial, trivial⟩, Nat.le_refl i⟩
      · exact ⟨⟨trivial, trivial⟩, Nat.le_refl i⟩
  | succ n ih =>
      have hsize : i + (n + 1) = i + 1 + n := by omega
      rcases ih (fun ρ => f (Function.update ρ i true)) (i + 1) with ⟨ht, hlevelT⟩
      rcases ih (fun ρ => f (Function.update ρ i false)) (i + 1) with ⟨he, hlevelE⟩
      rw [hsize, ofFunction]
      exact ⟨wellFormed_choice (by omega) ht he hlevelT hlevelE, level_choice hlevelT⟩

theorem eval_ofFunction {f : (Nat -> Bool) -> Bool} {n i : Nat}
    (hf : forall ρ ρ' : Nat -> Bool, (forall j, i ≤ j -> j < i + n -> ρ j = ρ' j) -> f ρ = f ρ')
    (ρ : Nat -> Bool) : (ofFunction f n i).eval ρ = f ρ := by
  induction n generalizing f i with
  | zero =>
      have hconst : f ρ = f fun _ => false := by
        apply hf
        intro j hle hlt
        exact absurd hlt (Nat.not_lt.mpr hle)
      rw [ofFunction, hconst]
      cases f fun _ => false <;> rfl
  | succ n ih =>
      have hcofactor : forall v : Bool, forall ρ ρ' : Nat -> Bool,
          (forall j, i + 1 ≤ j -> j < i + 1 + n -> ρ j = ρ' j) ->
            f (Function.update ρ i v) = f (Function.update ρ' i v) := by
        intro v ρ ρ' hρ
        apply hf
        intro j hle hlt
        by_cases hji : j = i
        · subst hji
          rw [Function.update_self, Function.update_self]
        · rw [Function.update_of_ne hji, Function.update_of_ne hji]
          exact hρ j (by omega) (by omega)
      rw [ofFunction, eval_choice, ih (hcofactor true), ih (hcofactor false)]
      cases hi : ρ i with
      | true => rw [if_pos rfl, ← hi, Function.update_eq_self]
      | false => rw [if_neg Bool.false_ne_true, ← hi, Function.update_eq_self]

end Edge

end Diagram

/-!
## Functions of finitely many variables
-/

/-- A Boolean function, with a bound for the variables that it looks at. -/
structure BooleanFunction where
  size : Nat
  eval : (Nat -> Bool) -> Bool
  eval_congr : forall ρ ρ' : Nat -> Bool, (forall i, i < size -> ρ i = ρ' i) -> eval ρ = eval ρ'

namespace BooleanFunction

def constant (b : Bool) : BooleanFunction :=
  { size := 0
    eval := fun _ => b
    eval_congr := fun _ _ _ => rfl }

def projection (k : Nat) : BooleanFunction :=
  { size := k + 1
    eval := fun ρ => ρ k
    eval_congr := fun _ _ h => h k (Nat.lt_succ_self k) }

def not (f : BooleanFunction) : BooleanFunction :=
  { size := f.size
    eval := fun ρ => !f.eval ρ
    eval_congr := fun ρ ρ' h => congrArg Bool.not (f.eval_congr ρ ρ' h) }

/-- A connective on the values of two functions. -/
def map₂ (op : Bool -> Bool -> Bool) (f g : BooleanFunction) : BooleanFunction :=
  { size := max f.size g.size
    eval := fun ρ => op (f.eval ρ) (g.eval ρ)
    eval_congr := fun ρ ρ' h => congrArg₂ op
      (f.eval_congr ρ ρ' fun i hi => h i (lt_max_of_lt_left hi))
      (g.eval_congr ρ ρ' fun i hi => h i (lt_max_of_lt_right hi)) }

def ite (f g h : BooleanFunction) : BooleanFunction :=
  (map₂ Bool.and f g).map₂ Bool.or (map₂ Bool.and f.not h)

def edge (f : BooleanFunction) : Diagram.Edge :=
  Diagram.Edge.ofFunction f.eval f.size 0

theorem eval_ite (f g h : BooleanFunction) (ρ : Nat -> Bool) :
    (ite f g h).eval ρ = if f.eval ρ then g.eval ρ else h.eval ρ := by
  show ((f.eval ρ && g.eval ρ) || (!f.eval ρ && h.eval ρ)) = _
  cases f.eval ρ with
  | true => rw [Bool.true_and, Bool.not_true, Bool.false_and, Bool.or_false, if_pos rfl]
  | false =>
      rw [Bool.false_and, Bool.not_false, Bool.true_and, Bool.false_or, if_neg Bool.false_ne_true]

theorem eval_edge (f : BooleanFunction) (ρ : Nat -> Bool) : f.edge.eval ρ = f.eval ρ := by
  apply Diagram.Edge.eval_ofFunction
  intro ρ ρ' h
  apply f.eval_congr
  intro i hi
  exact h i (Nat.zero_le i) (by rwa [Nat.zero_add])

theorem wellFormed_edge (f : BooleanFunction) : f.edge.WellFormed id f.size := by
  have h := (Diagram.Edge.ofFunction_spec f.eval f.size 0).1
  rwa [Nat.zero_add] at h

end BooleanFunction

end Foundation
end Crave
