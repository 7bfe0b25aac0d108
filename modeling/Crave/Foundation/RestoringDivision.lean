import Mathlib.Algebra.Order.Ring.Nat
import Mathlib.Tactic.Ring

/-!
# Restoring division

The divisor is shifted up until its highest bit is set, and shifted down again bit by bit
while it is subtracted from the dividend.  The bits of the quotient are put in from the
highest position on; once the divisor is back at its own place, the quotient is shifted
down to the lowest position.
-/

namespace Crave
namespace Foundation
namespace RestoringDivision

/-- The divisor, shifted up at most `n` times. -/
def normalise (w : Nat) : Nat -> Nat -> Nat
  | 0, divisor => divisor
  | n + 1, divisor => normalise w n (if 2 ^ (w - 1) ≤ divisor then divisor else 2 * divisor)

structure State where
  remainder : Nat
  divisor : Nat
  quotient : Nat
  done : Bool

/-- The step that decides on the bit `i` positions below the width. -/
def step (w b i : Nat) (s : State) : State :=
  { remainder :=
      if s.divisor ≤ s.remainder then s.remainder - s.divisor else s.remainder
    divisor := if s.divisor = b then s.divisor else s.divisor / 2
    quotient :=
      if s.done then s.quotient / 2
      else s.quotient + if s.divisor ≤ s.remainder then 2 ^ (w - i) else 0
    done := if s.divisor = b then true else s.done }

def run (w b : Nat) : Nat -> State -> State
  | 0, s => s
  | n + 1, s => step w b (n + 1) (run w b n s)

def start (w a b : Nat) : State :=
  { remainder := a, divisor := normalise w w b, quotient := 0, done := false }

/-!
## The normalised divisor
-/

theorem normalise_of_le {w divisor : Nat} (h : 2 ^ (w - 1) ≤ divisor) (n : Nat) :
    normalise w n divisor = divisor := by
  induction n with
  | zero => rfl
  | succ n ih => rw [normalise, if_pos h, ih]

theorem normalise_zero (w n : Nat) : normalise w n 0 = 0 := by
  induction n with
  | zero => rfl
  | succ n ih =>
      have hpow : ¬ 2 ^ (w - 1) ≤ 0 := Nat.not_le.mpr (Nat.two_pow_pos _)
      rw [normalise, if_neg hpow, Nat.mul_zero, ih]

/-- Enough shifts bring the highest bit of the divisor to the highest position. -/
theorem exists_normalise {w n divisor : Nat} (hlow : 2 ^ (w - 1) ≤ divisor * 2 ^ n)
    (hhigh : divisor < 2 ^ w) :
    exists k, k ≤ n ∧ normalise w n divisor = divisor * 2 ^ k ∧
      2 ^ (w - 1) ≤ divisor * 2 ^ k ∧ divisor * 2 ^ k < 2 ^ w := by
  induction n generalizing divisor with
  | zero => exact ⟨0, Nat.le_refl 0, by simp [normalise], hlow, by simpa using hhigh⟩
  | succ n ih =>
      by_cases hle : 2 ^ (w - 1) ≤ divisor
      · refine ⟨0, Nat.zero_le _, ?_, by simpa using hle, by simpa using hhigh⟩
        rw [normalise_of_le hle]
        simp
      · have hpow : 2 * 2 ^ (w - 1) ≤ 2 ^ w ∨ w = 0 := by
          cases w with
          | zero => exact Or.inr rfl
          | succ w => exact Or.inl (by rw [Nat.add_sub_cancel, Nat.pow_succ, Nat.mul_comm])
        have hdouble : 2 * divisor < 2 ^ w := by
          cases hpow with
          | inl hpow => omega
          | inr hw =>
              subst hw
              simp at hle
              omega
        have hlow' : 2 ^ (w - 1) ≤ 2 * divisor * 2 ^ n := by
          rw [Nat.pow_succ] at hlow
          calc 2 ^ (w - 1) ≤ divisor * (2 ^ n * 2) := hlow
            _ = 2 * divisor * 2 ^ n := by ring
        rcases ih hlow' hdouble with ⟨k, hk, heq, hlow'', hhigh''⟩
        have hshift : 2 * divisor * 2 ^ k = divisor * 2 ^ (k + 1) := by
          rw [Nat.pow_succ]
          ring
        rw [hshift] at heq hlow'' hhigh''
        refine ⟨k + 1, Nat.succ_le_succ hk, ?_, hlow'', hhigh''⟩
        rw [normalise, if_neg hle, heq]

/-!
## Division by a number other than zero
-/

section Nonzero

variable {w a b k : Nat}

theorem mod_step (a d : Nat) (hd : 0 < d) :
    (if d ≤ a % (d * 2) then a % (d * 2) - d else a % (d * 2)) = a % d ∧
      2 * (a / (d * 2)) + (if d ≤ a % (d * 2) then 1 else 0) = a / d := by
  have hsplit : a % (d * 2) = a % d + d * (a / d % 2) := Nat.mod_mul
  have hlt : a % d < d := Nat.mod_lt a hd
  have hdiv : a / (d * 2) = a / d / 2 := (Nat.div_div_eq_div_mul a d 2).symm
  rw [hsplit, hdiv]
  rcases Nat.mod_two_eq_zero_or_one (a / d) with hbit | hbit
  · rw [hbit, Nat.mul_zero, Nat.add_zero, if_neg (Nat.not_le.mpr hlt), if_neg (Nat.not_le.mpr hlt)]
    omega
  · rw [hbit, Nat.mul_one, if_pos (Nat.le_add_left _ _), if_pos (Nat.le_add_left _ _)]
    omega

/-- As long as the divisor is not back at its place, the remainder and the quotient are
those of the division by twice the shifted divisor. -/
theorem run_shifting (hb : 0 < b) (hw : k < w) (ha : a < b * 2 ^ (k + 1)) {n : Nat}
    (hn : n ≤ k) :
    run w b n { remainder := a, divisor := b * 2 ^ k, quotient := 0, done := false } =
      { remainder := a % (b * 2 ^ (k - n) * 2), divisor := b * 2 ^ (k - n)
        quotient := a / (b * 2 ^ (k - n) * 2) * 2 ^ (w - n), done := false } := by
  induction n with
  | zero =>
      have hlt : a < b * 2 ^ k * 2 := by
        calc a < b * 2 ^ (k + 1) := ha
          _ = b * 2 ^ k * 2 := by ring
      rw [run, Nat.sub_zero, Nat.mod_eq_of_lt hlt, Nat.div_eq_of_lt hlt, Nat.zero_mul]
  | succ n ih =>
      have hd : 0 < b * 2 ^ (k - n) := Nat.mul_pos hb (Nat.two_pow_pos _)
      have hhalf : b * 2 ^ (k - n) = b * 2 ^ (k - (n + 1)) * 2 := by
        rw [show k - n = k - (n + 1) + 1 by omega, Nat.pow_succ]
        ring
      have hpos : 0 < b * 2 ^ (k - (n + 1)) := Nat.mul_pos hb (Nat.two_pow_pos _)
      have hone : 1 ≤ 2 ^ (k - (n + 1)) := Nat.one_le_two_pow
      have hne : b * 2 ^ (k - n) ≠ b := by
        rw [hhalf]
        have hle : b ≤ b * 2 ^ (k - (n + 1)) := Nat.le_mul_of_pos_right b hone
        omega
      rcases mod_step a (b * 2 ^ (k - n)) hd with ⟨hmod, hdiv⟩
      rw [run, ih (Nat.le_of_succ_le hn)]
      simp only [step, hmod, if_neg hne, Bool.false_eq_true, if_false]
      congr 1
      · rw [hhalf]
      · rw [hhalf]
        exact Nat.mul_div_cancel _ Nat.two_pos
      · rw [← hhalf, ← hdiv, show w - n = w - (n + 1) + 1 by omega, Nat.pow_succ]
        split
        · ring
        · ring

theorem run_done (hb : 0 < b) (hw : k < w) (ha : a < b * 2 ^ (k + 1)) {n : Nat}
    (hlow : k < n) (hn : n ≤ w) :
    run w b n { remainder := a, divisor := b * 2 ^ k, quotient := 0, done := false } =
      { remainder := a % b, divisor := b, quotient := a / b * 2 ^ (w - n), done := true } := by
  induction n with
  | zero => exact absurd hlow (Nat.not_lt_zero k)
  | succ n ih =>
      rw [run]
      rcases Nat.lt_or_eq_of_le (Nat.le_of_lt_succ hlow) with hlt | heq
      · have hmod : ¬ b ≤ a % b := Nat.not_le.mpr (Nat.mod_lt a hb)
        rw [ih hlt (Nat.le_of_succ_le hn)]
        simp only [step, if_neg hmod, if_true]
        congr 1
        rw [show w - n = w - (n + 1) + 1 by omega, Nat.pow_succ, ← Nat.mul_assoc]
        exact Nat.mul_div_cancel _ Nat.two_pos
      · rw [← heq, run_shifting hb hw ha (Nat.le_refl k)]
        rcases mod_step a b hb with ⟨hmod, hdiv⟩
        simp only [Nat.sub_self, Nat.pow_zero, Nat.mul_one, step, hmod, if_true,
          Bool.false_eq_true, if_false]
        congr 1
        rw [← hdiv, show w - k = w - (k + 1) + 1 by omega, Nat.pow_succ]
        split
        · ring
        · ring

end Nonzero

theorem run_start {w a b : Nat} (ha : a < 2 ^ w) (hb : 0 < b) (hbw : b < 2 ^ w) :
    run w b w (start w a b) =
      { remainder := a % b, divisor := b, quotient := a / b, done := true } := by
  have hw : 0 < w := by
    rcases Nat.eq_zero_or_pos w with hw | hw
    · subst hw
      simp at hbw
      omega
    · exact hw
  have hlow : 2 ^ (w - 1) ≤ b * 2 ^ w := by
    calc 2 ^ (w - 1) ≤ 2 ^ w := Nat.pow_le_pow_right Nat.two_pos (Nat.sub_le w 1)
      _ ≤ b * 2 ^ w := Nat.le_mul_of_pos_left _ hb
  rcases exists_normalise hlow hbw with ⟨k, -, heq, hk, hkw⟩
  have hlt : k < w := by
    have hpow : 2 ^ k < 2 ^ w := by
      calc 2 ^ k ≤ b * 2 ^ k := Nat.le_mul_of_pos_left _ hb
        _ < 2 ^ w := hkw
    exact (Nat.pow_lt_pow_iff_right Nat.one_lt_two).mp hpow
  have hak : a < b * 2 ^ (k + 1) := by
    have hdouble : 2 ^ w = 2 ^ (w - 1) * 2 := by
      rw [← Nat.pow_succ, Nat.succ_eq_add_one, Nat.sub_add_cancel hw]
    calc a < 2 ^ w := ha
      _ = 2 ^ (w - 1) * 2 := hdouble
      _ ≤ b * 2 ^ k * 2 := Nat.mul_le_mul_right 2 hk
      _ = b * 2 ^ (k + 1) := by ring
  rw [start, heq, run_done hb hlt hak hlt (Nat.le_refl w), Nat.sub_self, Nat.pow_zero, Nat.mul_one]

/-- The division by zero stops at once: the quotient is one and nothing is subtracted. -/
theorem run_start_zero {w : Nat} (hw : 0 < w) (a : Nat) :
    run w 0 w (start w a 0) = { remainder := a, divisor := 0, quotient := 1, done := true } := by
  have hrun : forall n, n < w -> run w 0 (n + 1) (start w a 0) =
      { remainder := a, divisor := 0, quotient := 2 ^ (w - (n + 1)), done := true } := by
    intro n
    induction n with
    | zero =>
        intro _
        simp [run, start, normalise_zero, step]
    | succ n ih =>
        intro hn
        rw [run, ih (Nat.lt_of_succ_lt hn), step]
        simp only [Nat.zero_le, if_true, Nat.sub_zero, State.mk.injEq, and_true, true_and]
        rw [show w - (n + 1) = w - (n + 1 + 1) + 1 by omega, Nat.pow_succ]
        exact Nat.mul_div_cancel _ Nat.two_pos
  have hlast := hrun (w - 1) (Nat.sub_lt hw Nat.one_pos)
  rwa [Nat.sub_add_cancel hw, Nat.sub_self, Nat.pow_zero] at hlast

/-- Below the bits of the quotient that are known there are only zeros. -/
theorem pow_dvd_quotient (w a b : Nat) {n : Nat} (hn : n ≤ w) :
    2 ^ (w - n) ∣ (run w b n (start w a b)).quotient := by
  induction n with
  | zero => exact dvd_zero _
  | succ n ih =>
      have hhalf : 2 ^ (w - n) = 2 ^ (w - (n + 1)) * 2 := by
        rw [show w - n = w - (n + 1) + 1 by omega, Nat.pow_succ]
      have hbefore := ih (Nat.le_of_succ_le hn)
      rw [hhalf] at hbefore
      rw [run]
      simp only [step]
      split
      · rcases hbefore with ⟨k, hk⟩
        rw [hk, show 2 ^ (w - (n + 1)) * 2 * k = 2 ^ (w - (n + 1)) * k * 2 by ring,
          Nat.mul_div_cancel _ Nat.two_pos]
        exact dvd_mul_right _ _
      · apply Nat.dvd_add (dvd_of_mul_right_dvd hbefore)
        split
        · exact dvd_refl _
        · exact dvd_zero _

end RestoringDivision
end Foundation
end Crave
