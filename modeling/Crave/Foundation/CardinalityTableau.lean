import Mathlib.Data.Nat.Count

/-!
# Tableaus for cardinalities

The cell in row `v` and column `u` of the tableau looks at the first `u + v` of a sequence
of truth values.  When the last one is true it takes the cell on its left, otherwise the one
above.  What it finds out is how the number of true values compares with `u`.
-/

namespace Crave
namespace Foundation

/-- The outcome for a number below, at or above the one that it is compared with. -/
def compareCount (lt eq gt : Bool) (n u : Nat) : Bool :=
  if n < u then lt else if n = u then eq else gt

section Tableau

variable (lt eq gt : Bool) (ps : Nat -> Bool)

def tableau : Nat -> Nat -> Bool
  | 0, 0 => eq
  | v + 1, 0 => if ps v then gt else tableau v 0
  | 0, u + 1 => if ps u then tableau 0 u else lt
  | v + 1, u + 1 => if ps (u + v + 1) then tableau (v + 1) u else tableau v (u + 1)

/-- The number of true values among the first ones. -/
abbrev countTrue (n : Nat) : Nat :=
  Nat.count (fun i => ps i = true) n

variable {lt eq gt ps}

theorem countTrue_succ (n : Nat) :
    countTrue ps (n + 1) = countTrue ps n + if ps n = true then 1 else 0 :=
  Nat.count_succ _ n

theorem compareCount_succ (n u : Nat) :
    compareCount lt eq gt (n + 1) (u + 1) = compareCount lt eq gt n u := by
  simp only [compareCount, Nat.add_lt_add_iff_right, Nat.add_right_cancel_iff]

theorem tableau_eq (v u : Nat) :
    tableau lt eq gt ps v u = compareCount lt eq gt (countTrue ps (u + v)) u := by
  induction v generalizing u with
  | zero =>
      induction u with
      | zero =>
          rw [tableau]
          rfl
      | succ u ih =>
          have hle : countTrue ps u ≤ u := Nat.count_le _
          rw [tableau, ih, Nat.add_zero, Nat.add_zero, countTrue_succ]
          cases ps u with
          | true => exact (compareCount_succ _ _).symm
          | false => exact (if_pos (Nat.lt_succ_of_le hle)).symm
  | succ v ihv =>
      induction u with
      | zero =>
          rw [tableau, ihv, Nat.zero_add, Nat.zero_add, countTrue_succ]
          cases ps v with
          | true => rfl
          | false => rfl
      | succ u ihu =>
          have hup : u + 1 + v = u + v + 1 := by omega
          have hself : u + 1 + (v + 1) = u + v + 1 + 1 := by omega
          rw [tableau, ihu, ihv, hup, hself, countTrue_succ (u + v + 1)]
          cases ps (u + v + 1) with
          | true => exact (compareCount_succ _ _).symm
          | false => rfl

end Tableau

end Foundation
end Crave
