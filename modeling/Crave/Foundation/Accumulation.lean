import Mathlib.Algebra.Ring.Nat
import Mathlib.Data.List.Nodup
import Mathlib.Order.Interval.Finset.Nat
import Mathlib.Algebra.BigOperators.Group.List.Basic

/-!
# Selection by accumulated weights

Entries carry a weight and the sum of the weights up to and including their own. A number
selects the first entry whose sum is above it, so every entry is selected by as many
numbers as its weight tells.
-/

namespace Crave
namespace Foundation

/-- The bounds are the sums of the weights, from a start on. -/
def Accumulates {α M : Type} [Add M] (weight bound : α -> M) : M -> List α -> Prop
  | _, [] => True
  | start, x :: rest => bound x = start + weight x ∧ Accumulates weight bound (bound x) rest

namespace Accumulates

section Sums

variable {α M : Type} [AddMonoid M] {weight bound : α -> M}

theorem append {start : M} {xs : List α} {x : α} (h : Accumulates weight bound start xs)
    (hx : bound x = start + (xs.map weight).sum + weight x) :
    Accumulates weight bound start (xs ++ [x]) := by
  induction xs generalizing start with
  | nil =>
      constructor
      · simpa using hx
      · trivial
  | cons y rest ih =>
      constructor
      · exact h.left
      · apply ih h.right
        rw [hx, h.left, List.map_cons, List.sum_cons, ← add_assoc]

theorem last {start : M} {xs : List α} {x : α}
    (h : Accumulates weight bound start (xs ++ [x])) :
    bound x = start + ((xs ++ [x]).map weight).sum := by
  induction xs generalizing start with
  | nil => simpa using h.left
  | cons y rest ih =>
      rw [ih h.right, h.left, List.cons_append, List.map_cons, List.sum_cons, add_assoc]

theorem iff_take {start : M} {xs : List α} :
    Accumulates weight bound start xs ↔
      forall i, (h : i < xs.length) ->
        bound xs[i] = start + ((xs.take (i + 1)).map weight).sum := by
  induction xs generalizing start with
  | nil =>
      constructor
      · intro _ i h
        cases h
      · intro _
        trivial
  | cons x rest ih =>
      constructor
      · intro h i hi
        rw [List.take_succ_cons, List.map_cons, List.sum_cons]
        cases i with
        | zero =>
            rw [List.take_zero, List.map_nil, List.sum_nil, add_zero]
            exact h.left
        | succ i =>
            have hrest := ih.mp h.right i (Nat.lt_of_succ_lt_succ hi)
            rw [List.getElem_cons_succ, hrest, h.left, add_assoc]
      · intro h
        have hhead := h 0 (Nat.zero_lt_succ _)
        rw [List.take_succ_cons, List.map_cons, List.sum_cons, List.take_zero, List.map_nil,
          List.sum_nil, add_zero, List.getElem_cons_zero] at hhead
        constructor
        · exact hhead
        · apply ih.mpr
          intro i hi
          have hrest := h (i + 1) (Nat.succ_lt_succ hi)
          rw [List.take_succ_cons, List.map_cons, List.sum_cons, List.getElem_cons_succ] at hrest
          rw [hrest, hhead, add_assoc]

end Sums

section Modular

variable {α : Type} {w : Nat} {weight bound : α -> BitVec w} {size : α -> Nat}

theorem toNat {start : BitVec w} {xs : List α} (h : Accumulates weight bound start xs)
    (hsum : start.toNat + (xs.map fun x => (weight x).toNat).sum < 2 ^ w) :
    Accumulates (fun x => (weight x).toNat) (fun x => (bound x).toNat) start.toNat xs := by
  induction xs generalizing start with
  | nil => trivial
  | cons x rest ih =>
      rw [List.map_cons, List.sum_cons] at hsum
      have hbound : (bound x).toNat = start.toNat + (weight x).toNat := by
        rw [h.left, BitVec.toNat_add]
        apply Nat.mod_eq_of_lt
        omega
      constructor
      · exact hbound
      · apply ih h.right
        omega

theorem weight_eq {start : BitVec w} {xs : List α} (h : Accumulates weight bound start xs)
    (hsize : Accumulates size (fun x => (bound x).toNat) start.toNat xs) {x : α}
    (hx : x ∈ xs) : (weight x).toNat = size x := by
  induction xs generalizing start with
  | nil => cases hx
  | cons y rest ih =>
      cases List.mem_cons.mp hx with
      | inl heq =>
          have hbound : (bound y).toNat = start.toNat + size y := hsize.left
          have hlt := (weight y).isLt
          have hstart := start.isLt
          rw [h.left, BitVec.toNat_add] at hbound
          rw [heq]
          by_cases hwrap : start.toNat + (weight y).toNat < 2 ^ w
          · rw [Nat.mod_eq_of_lt hwrap] at hbound
            omega
          · rw [Nat.mod_eq_sub_mod (Nat.le_of_not_lt hwrap), Nat.mod_eq_of_lt (by omega)] at hbound
            omega
      | inr hmem => exact ih h.right hsize.right hmem

end Modular

section Selection

variable {α : Type} {weight bound : α -> Nat}

/-- An entry is selected by the numbers between the sums before and after it. -/
theorem exists_interval {start : Nat} {xs : List α} (h : Accumulates weight bound start xs)
    (hnodup : xs.Nodup) {x : α} (hx : x ∈ xs) :
    exists first, start ≤ first ∧ first + weight x ≤ start + (xs.map weight).sum ∧
      forall r, start ≤ r ->
        (xs.find? (fun y => decide (r < bound y)) = some x ↔
          first ≤ r ∧ r < first + weight x) := by
  induction xs generalizing start with
  | nil => cases hx
  | cons y rest ih =>
      rw [List.nodup_cons] at hnodup
      rw [List.map_cons, List.sum_cons]
      cases List.mem_cons.mp hx with
      | inl heq =>
          exists start
          constructor
          · exact Nat.le_refl start
          constructor
          · rw [heq]
            omega
          · intro r hr
            rw [heq, ← h.left, List.find?_cons]
            constructor
            · intro hfound
              cases hlt : decide (r < bound y) with
              | true => exact ⟨hr, of_decide_eq_true hlt⟩
              | false =>
                  rw [hlt] at hfound
                  exact absurd (List.mem_of_find?_eq_some hfound) hnodup.left
            · intro hin
              rw [decide_eq_true hin.right]
      | inr hmem =>
          rcases ih h.right hnodup.right hmem with ⟨first, hfirst, hlast, hiff⟩
          have hbound := h.left
          exists first
          constructor
          · omega
          constructor
          · omega
          · intro r hr
            rw [List.find?_cons]
            by_cases hlt : r < bound y
            · rw [decide_eq_true hlt]
              constructor
              · intro hsame
                have heq : y = x := Option.some.inj hsame
                rw [heq] at hnodup
                exact absurd hmem hnodup.left
              · intro hin
                omega
            · rw [decide_eq_false hlt]
              exact hiff r (Nat.not_lt.mp hlt)

theorem card_selected [DecidableEq α] {xs : List α} (h : Accumulates weight bound 0 xs)
    (hnodup : xs.Nodup) {x : α} (hx : x ∈ xs) :
    ((Finset.range (xs.map weight).sum).filter fun r =>
      xs.find? (fun y => decide (r < bound y)) = some x).card = weight x := by
  rcases h.exists_interval hnodup hx with ⟨first, _, hlast, hiff⟩
  have hinterval : ((Finset.range (xs.map weight).sum).filter fun r =>
      xs.find? (fun y => decide (r < bound y)) = some x) =
        Finset.Ico first (first + weight x) := by
    ext r
    rw [Finset.mem_filter, Finset.mem_range, Finset.mem_Ico, hiff r (Nat.zero_le r)]
    constructor
    · intro hr
      exact hr.right
    · intro hr
      constructor
      · omega
      · exact hr
  rw [hinterval, Nat.card_Ico]
  omega

theorem exists_selected {start : Nat} {xs : List α} (h : Accumulates weight bound start xs)
    {r : Nat} (hstart : start ≤ r) (hr : r < start + (xs.map weight).sum) :
    exists x, xs.find? (fun y => decide (r < bound y)) = some x := by
  induction xs generalizing start with
  | nil =>
      rw [List.map_nil, List.sum_nil] at hr
      omega
  | cons y rest ih =>
      rw [List.find?_cons]
      by_cases hlt : r < bound y
      · rw [decide_eq_true hlt]
        exact ⟨y, rfl⟩
      · rw [decide_eq_false hlt]
        apply ih h.right (Nat.not_lt.mp hlt)
        rw [List.map_cons, List.sum_cons] at hr
        rw [h.left]
        omega

end Selection

end Accumulates

end Foundation
end Crave
