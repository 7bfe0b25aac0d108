import Crave.Backend.VariableDefaultSolver
import Crave.Ir.Complexity

/-!
# The limit of the BDD solvers

A constraint whose complexity reaches the limit is kept from the BDD solvers. The
complexity that is compared is the one that the machine has computed.
-/

namespace Crave
namespace Backend

open Foundation Ir MetaSMTVisitor ComplexityEstimationVisitor

namespace VariableDefaultSolver

/-- Every BDD solver is the same without the constraint. -/
def NeverAsserted (limit : Nat) (c : UserConstraint) : Prop :=
  forall cs cs' s, assertBounded limit (cs ++ c :: cs') s = assertBounded limit (cs ++ cs') s

section Limit

variable {limit u v : Nat} {c : UserConstraint} {n : Node}

theorem assertions_makeAssertion {s s' : MetaSMTVisitor} (h : s.makeAssertion n = .ok s') :
    exists f, s'.assertions = s.assertions ++ [f] := by
  unfold makeAssertion at h
  split at h
  · cases h
  · next f s₁ hpop =>
      cases h
      exists equalTrue f
      rcases visitPop_ok hpop with ⟨entry, terminals_, _, _, _, rfl⟩
      rfl

theorem neverAsserted_of_not_bounded (h : ¬ (0 < c.complexity_ ∧ c.complexity_ < limit)) :
    NeverAsserted limit c := by
  intro cs cs' s
  induction cs generalizing s with
  | nil =>
      show assertBounded limit (c :: cs') s = assertBounded limit cs' s
      rw [assertBounded, if_neg h]
  | cons d rest ih =>
      simp only [List.cons_append, assertBounded]
      split
      · congr 1
        funext s₁
        exact ih s₁
      · exact ih s

theorem not_bounded_of_neverAsserted (h : NeverAsserted limit c) :
    ¬ (0 < c.complexity_ ∧ c.complexity_ < limit) := by
  intro hbounded
  have hnew := h [] [] (MetaSMTVisitor.new .strict)
  simp only [List.nil_append, assertBounded, if_pos hbounded] at hnew
  rcases bind_eq_ok.mp hnew with ⟨s₁, hassert, hs₁⟩
  cases hs₁
  cases assertions_makeAssertion hassert with
  | intro f hf => cases hf

theorem neverAsserted_iff :
    NeverAsserted limit c ↔ c.complexity_ = 0 ∨ limit ≤ c.complexity_ := by
  have hbounded : ¬ (0 < c.complexity_ ∧ c.complexity_ < limit) ↔
      c.complexity_ = 0 ∨ limit ≤ c.complexity_ := by
    omega
  rw [← hbounded]
  constructor
  · exact not_bounded_of_neverAsserted
  · exact neverAsserted_of_not_bounded

/-- The number lies at least the limit above the last multiple of `2 ^ 32`. -/
def Clears (limit v : Nat) : Prop :=
  exists q, q * 2 ^ 32 + limit ≤ v ∧ v < (q + 1) * 2 ^ 32

theorem clears_iff (limit v : Nat) : Clears limit v ↔ limit ≤ v % 2 ^ 32 := by
  constructor
  · intro h
    cases h with
    | intro q hq => omega
  · intro h
    exists v / 2 ^ 32
    omega

/-- A constraint whose unbounded estimate reaches the limit has a complexity that does, and
is kept from the BDD solvers, exactly when the estimate of what is left without the lost
factors clears the multiples of `2 ^ 32` by the limit. It is kept from them as well when
that is a multiple itself. -/
theorem complexity_reaches_iff (limit : Nat) {mng mng' : ConstraintManager} {name : String}
    {c_id : Nat} {n : Node} {soft cover : Bool} {c : UserConstraint} {u : Nat}
    (hwidths : n.MachineWidths)
    (hmade : mng.makeConstraint name c_id n soft cover = .ok mng')
    (hc : mng'.constraints_ = mng.constraints_ ++ [c]) (hestimate : estimate n = .ok u) :
    exists v, estimate (dropLost n) = .ok v ∧
      ((limit ≤ u -> limit ≤ c.complexity_ ∧ NeverAsserted limit c) ↔
        u < limit ∨ Clears limit v) ∧
      ((limit ≤ u -> NeverAsserted limit c) ↔
        u < limit ∨ Clears limit v ∨ 2 ^ 32 ∣ v) := by
  rcases ConstraintManager.complexity_makeConstraint hmade hestimate with
    ⟨d, hd, _, _, hvisit⟩
  have hsame : [c] = [d] := List.append_cancel_left (hc.symm.trans hd)
  cases hsame
  rcases exists_estimate_of_visit hwidths hvisit with ⟨v, hv, hcomplexity⟩
  exists v
  rw [neverAsserted_iff, clears_iff, Nat.dvd_iff_mod_eq_zero, hcomplexity]
  constructor
  · exact hv
  · constructor
    · constructor
      · intro h
        by_cases hlimit : limit ≤ u
        · exact Or.inr (h hlimit).left
        · exact Or.inl (Nat.lt_of_not_le hlimit)
      · intro h hlimit
        cases h with
        | inl hlt => exact absurd hlimit (Nat.not_le_of_lt hlt)
        | inr hclears => exact ⟨hclears, Or.inr hclears⟩
    · constructor
      · intro h
        by_cases hlimit : limit ≤ u
        · exact Or.inr (h hlimit).symm
        · exact Or.inl (Nat.lt_of_not_le hlimit)
      · intro h hlimit
        cases h with
        | inl hlt => exact absurd hlimit (Nat.not_le_of_lt hlt)
        | inr hkept => exact hkept.symm

end Limit

/-!
### A product that wraps
-/

/-- A power of a variable of 32 bits. -/
def power : Nat -> Node
  | 0 => .variableExpr 1 32 false
  | k + 1 => .binaryOpr .multipliesOpr (power k) (.variableExpr 1 32 false)

/-- The power is compared with the variable. -/
def powerGreater (k : Nat) : Node :=
  .binaryOpr .greaterOpr (power k) (.variableExpr 1 32 false)

def powerConstraint (k complexity_ : Nat) : UserConstraint :=
  { id_ := 0
    expr_ := powerGreater k
    name_ := "power"
    support_vars_ := (powerGreater k).supportVars
    unique_ := none
    soft_ := false
    cover_ := false
    enabled_ := true
    complexity_ := complexity_ }

theorem machineWidths_power (k : Nat) : (power k).MachineWidths := by
  induction k with
  | zero => exact (by decide : 32 < 2 ^ 32)
  | succ k ih => exact ⟨ih, (by decide : 32 < 2 ^ 32)⟩

theorem complexity_reaches_cube :
    400 ≤ (powerConstraint 2 32800).complexity_ ∧
      NeverAsserted 400 (powerConstraint 2 32800) := by
  have hwidths : (powerGreater 2).MachineWidths :=
    ⟨machineWidths_power 2, (by decide : 32 < 2 ^ 32)⟩
  rcases @complexity_reaches_iff 400 ConstraintManager.new _ "power" 0 (powerGreater 2) false
    false (powerConstraint 2 32800) 32800 hwidths rfl rfl rfl with ⟨v, hv, hreaches, _⟩
  have hvalue : estimate (dropLost (powerGreater 2)) = .ok 32800 := by
    decide +kernel
  rw [hvalue] at hv
  cases hv
  apply hreaches.mpr
  · right
    exact ⟨0, by decide⟩
  · decide

/-- The estimate for a seventh power is `2 ^ 35 + 32`. The machine has 32, and the constraint
is asserted. -/
theorem seventh_power_wraps :
    ¬ forall (limit : Nat) (mng mng' : ConstraintManager) (name : String) (c_id : Nat)
        (n : Node) (soft cover : Bool) (c : UserConstraint) (u : Nat),
      n.MachineWidths -> mng.makeConstraint name c_id n soft cover = .ok mng' ->
      mng'.constraints_ = mng.constraints_ ++ [c] -> estimate n = .ok u -> limit ≤ u ->
        limit ≤ c.complexity_ ∧ NeverAsserted limit c := by
  intro h
  have hwidths : (powerGreater 6).MachineWidths :=
    ⟨machineWidths_power 6, (by decide : 32 < 2 ^ 32)⟩
  have hestimate : estimate (powerGreater 6) = .ok (32 ^ 7 + 32) := by
    decide +kernel
  have hreaches := h 400 ConstraintManager.new _ "power" 0 (powerGreater 6) false false
    (powerConstraint 6 32) (32 ^ 7 + 32) hwidths rfl rfl hestimate (by decide)
  exact not_bounded_of_neverAsserted hreaches.right (by decide)

end VariableDefaultSolver

end Backend
end Crave
