import Crave.Foundation.Accumulation
import Crave.Ir.Context
import Mathlib.Data.BitVec
import Mathlib.Data.List.Pairwise

/-!
# Distributions

A distribution is a list of weighted ranges. An added range must not overlap the ones that
are there. The next value is drawn from a range that is selected by its weight.
-/

namespace Crave
namespace Frontend

open Foundation Ir

/-!
## Weighted ranges
-/

/-- `left_` and `right_` are values of the type of the distribution. -/
structure WeightedRange where
  left_ : Int
  right_ : Int
  weight_ : BitVec 64
  accumWeight_ : BitVec 64
deriving DecidableEq, Repr

namespace WeightedRange

def weighted_range (l r : Int) (w : BitVec 64) : WeightedRange :=
  { left_ := l, right_ := r, weight_ := w, accumWeight_ := 0 }

def weighted_value (v : Int) (w : BitVec 64) : WeightedRange :=
  weighted_range v v w

def overlap (range other : WeightedRange) : Bool :=
  if range.left_ < other.left_ then
    decide (other.left_ ≤ range.right_)
  else if other.left_ < range.left_ then
    decide (range.left_ ≤ other.right_)
  else
    false

/-- The left bound is not above the right one. -/
def Valid (range : WeightedRange) : Prop :=
  range.left_ ≤ range.right_

instance (range : WeightedRange) : Decidable range.Valid :=
  inferInstanceAs (Decidable (range.left_ ≤ range.right_))

def Contains (range : WeightedRange) (v : Int) : Prop :=
  range.left_ ≤ v ∧ v ≤ range.right_

/-- The closed intervals have a value in common. -/
def Intersects (range other : WeightedRange) : Prop :=
  exists v, range.Contains v ∧ other.Contains v

theorem intersects_iff {range other : WeightedRange} (h : range.Valid) (h' : other.Valid) :
    range.Intersects other ↔ range.left_ ≤ other.right_ ∧ other.left_ ≤ range.right_ := by
  unfold Valid at h h'
  constructor
  · intro hin
    rcases hin with ⟨v, hv, hv'⟩
    exact ⟨hv.left.trans hv'.right, hv'.left.trans hv.right⟩
  · intro hle
    exists max range.left_ other.left_
    constructor
    · exact ⟨le_max_left _ _, max_le h hle.right⟩
    · exact ⟨le_max_right _ _, max_le hle.left h'⟩

/-- The test misses the ranges that begin at the same value, and only these. -/
theorem overlap_eq_true {range other : WeightedRange} (h : range.Valid) (h' : other.Valid) :
    range.overlap other = true ↔ range.Intersects other ∧ range.left_ ≠ other.left_ := by
  rw [intersects_iff h h']
  unfold Valid at h h'
  unfold overlap
  split
  · next hlt =>
      rw [decide_eq_true_eq]
      omega
  · next hge =>
      split
      · next hgt =>
          rw [decide_eq_true_eq]
          omega
      · next hle =>
          constructor
          · intro hfalse
            cases hfalse
          · intro hne
            omega

theorem intersects_of_left_eq {range other : WeightedRange} (h : range.Valid)
    (h' : other.Valid) (heq : range.left_ = other.left_) : range.Intersects other := by
  exists range.left_
  constructor
  · exact ⟨le_refl _, h⟩
  · rw [heq]
    exact ⟨le_refl _, h'⟩

end WeightedRange

/-!
## The list of ranges
-/

structure Distribution where
  ranges_ : List WeightedRange
deriving DecidableEq, Repr

namespace Distribution

def distribution : Distribution :=
  { ranges_ := [] }

def reset (_ : Distribution) : Distribution :=
  { ranges_ := [] }

/-- `operator()`. The exception is thrown before anything is changed. -/
def addRange (d : Distribution) (wr : WeightedRange) : Except String Unit × Distribution :=
  if d.ranges_.any fun range => range.overlap wr then
    (.error "Overlapping range exists.", d)
  else
    let accumWeight_ :=
      match d.ranges_.getLast? with
      | none => wr.weight_
      | some back => back.accumWeight_ + wr.weight_
    (.ok (), { ranges_ := d.ranges_ ++ [{ wr with accumWeight_ := accumWeight_ }] })

/-- Distributions are made of ranges that are added, with or without success. -/
inductive Reachable : Distribution -> Prop where
  | distribution : Reachable distribution
  | addRange {d d' : Distribution} {outcome : Except String Unit} (wr : WeightedRange)
      (before : Reachable d) (h : d.addRange wr = (outcome, d')) : Reachable d'
  | reset {d : Distribution} (before : Reachable d) : Reachable d.reset

/-!
## The next value
-/

/-- `uniform_int_distribution`, of draws and of values. -/
structure Uniform where
  number : BitVec 64 -> BitVec 64 -> BitVec 64
  value : Int -> Int -> Int

/-- What the standard says of it. -/
structure Uniform.Within (u : Uniform) : Prop where
  number : forall a b : BitVec 64, a ≤ b -> a ≤ u.number a b ∧ u.number a b ≤ b
  value : forall a b : Int, a ≤ b -> a ≤ u.value a b ∧ u.value a b ≤ b

def search (ranges_ : List WeightedRange) (r : BitVec 64) : Option WeightedRange :=
  ranges_.find? fun range => decide (r < range.accumWeight_)

/-- The range for a drawn number. When no range is found, it is the last one. -/
def selected (ranges_ : List WeightedRange) (back : WeightedRange) (r : BitVec 64) :
    WeightedRange :=
  (search ranges_ r).getD back

/-- `nextValue` for a type with the given least and greatest value. -/
def nextValue (least greatest : Int) (u : Uniform) (d : Distribution) : Int :=
  match d.ranges_.getLast? with
  | none => u.value least greatest
  | some back =>
      let range :=
        if 1 < d.ranges_.length then
          selected d.ranges_ back (u.number 0 (back.accumWeight_ - 1))
        else
          back
      u.value range.left_ range.right_

theorem selected_mem {ranges_ : List WeightedRange} {back : WeightedRange}
    (hback : ranges_.getLast? = some back) (r : BitVec 64) :
    selected ranges_ back r ∈ ranges_ := by
  unfold selected
  cases hfound : search ranges_ r with
  | none => exact List.mem_of_getLast? hback
  | some range => exact List.mem_of_find?_eq_some hfound

theorem nextValue_mem {d : Distribution} (hne : d.ranges_ ≠ [])
    (hvalid : forall range, range ∈ d.ranges_ -> range.Valid) {u : Uniform} (hu : u.Within)
    (least greatest : Int) :
    exists range, range ∈ d.ranges_ ∧ range.Contains (nextValue least greatest u d) := by
  cases hback : d.ranges_.getLast? with
  | none => exact absurd (List.getLast?_eq_none_iff.mp hback) hne
  | some back =>
      unfold nextValue
      rw [hback]
      dsimp only
      split
      · have hmem := selected_mem hback (u.number 0 (back.accumWeight_ - 1))
        exact ⟨_, hmem, hu.value _ _ (hvalid _ hmem)⟩
      · have hmem := List.mem_of_getLast? hback
        exact ⟨back, hmem, hu.value _ _ (hvalid back hmem)⟩

/-!
## What additions keep
-/

section Additions

variable {d d' : Distribution} {wr : WeightedRange}

theorem addRange_cases {outcome : Except String Unit} (h : d.addRange wr = (outcome, d')) :
    (outcome = .ok () ∧ (forall range, range ∈ d.ranges_ -> range.overlap wr = false) ∧
        exists accumWeight_,
          (accumWeight_ = match d.ranges_.getLast? with
            | none => wr.weight_
            | some back => back.accumWeight_ + wr.weight_) ∧
          d' = { ranges_ := d.ranges_ ++ [{ wr with accumWeight_ := accumWeight_ }] }) ∨
      (outcome = .error "Overlapping range exists." ∧ d' = d ∧
        exists range, range ∈ d.ranges_ ∧ range.overlap wr = true) := by
  unfold addRange at h
  split at h
  · next hany =>
      cases h
      exact Or.inr ⟨rfl, rfl, List.any_eq_true.mp hany⟩
  · next hnone =>
      cases h
      apply Or.inl
      constructor
      · rfl
      constructor
      · intro range hrange
        cases hoverlap : range.overlap wr with
        | false => rfl
        | true => exact absurd (List.any_eq_true.mpr ⟨range, hrange, hoverlap⟩) hnone
      · exact ⟨_, rfl, rfl⟩

theorem Reachable.pairwise (h : Reachable d) :
    d.ranges_.Pairwise fun range other => range.overlap other = false := by
  induction h with
  | distribution => exact List.Pairwise.nil
  | reset before ih => exact List.Pairwise.nil
  | addRange wr before h ih =>
      rcases addRange_cases h with ⟨_, hnone, accumWeight_, _, rfl⟩ | ⟨_, rfl, _⟩
      · apply List.pairwise_append.mpr
        constructor
        · exact ih
        constructor
        · exact List.pairwise_singleton _ _
        · intro range hrange other hother
          rw [List.mem_singleton.mp hother]
          exact hnone range hrange
      · exact ih

def weights (ranges_ : List WeightedRange) : List Nat :=
  ranges_.map fun range => range.weight_.toNat

/-- An accumulated weight is the sum of the weights, as the sum is computed. -/
theorem Reachable.accumulates (h : Reachable d) :
    Accumulates WeightedRange.weight_ WeightedRange.accumWeight_ 0 d.ranges_ := by
  induction h with
  | distribution => trivial
  | reset before ih => trivial
  | addRange wr before h ih =>
      rcases addRange_cases h with ⟨_, _, accumWeight_, haccum, rfl⟩ | ⟨_, rfl, _⟩
      · apply ih.append
        show accumWeight_ = _ + wr.weight_
        rw [haccum]
        split
        · next hlast =>
            rw [List.getLast?_eq_none_iff.mp hlast, List.map_nil, List.sum_nil, add_zero,
              zero_add]
        · next back hlast =>
            have hinit := List.dropLast_append_getLast? back hlast
            rw [← hinit] at ih
            rw [ih.last, hinit]
      · exact ih

/-- As long as the sum does not wrap, the accumulated weights are the sums of the weights. -/
theorem Reachable.accumulates_toNat (h : Reachable d)
    (hsum : (weights d.ranges_).sum < 2 ^ 64) :
    Accumulates (fun range => range.weight_.toNat) (fun range => range.accumWeight_.toNat) 0
      d.ranges_ := by
  apply h.accumulates.toNat
  show 0 + (weights d.ranges_).sum < 2 ^ 64
  rw [Nat.zero_add]
  exact hsum

end Additions

/-!
## Disjoint ranges
-/

/-- No two ranges have a value in common. -/
def Disjoint (ranges_ : List WeightedRange) : Prop :=
  ranges_.Pairwise fun range other => ¬ range.Intersects other

theorem Reachable.disjoint_iff {d : Distribution} (h : Reachable d)
    (hvalid : forall range, range ∈ d.ranges_ -> range.Valid) :
    Disjoint d.ranges_ ↔ (d.ranges_.map WeightedRange.left_).Nodup := by
  have hpairwise := h.pairwise
  unfold Disjoint List.Nodup
  rw [List.pairwise_map]
  constructor
  · intro hdisjoint
    apply hdisjoint.imp_of_mem
    intro range other hrange hother hnot heq
    exact hnot (WeightedRange.intersects_of_left_eq (hvalid range hrange) (hvalid other hother)
      heq)
  · intro hnodup
    apply (hpairwise.and hnodup).imp_of_mem
    intro range other hrange hother hboth hintersects
    have htrue := (WeightedRange.overlap_eq_true (hvalid range hrange)
      (hvalid other hother)).mpr ⟨hintersects, hboth.right⟩
    rw [hboth.left] at htrue
    cases htrue

/-- The test is right for ranges that begin at different values, the ranges of a distribution
are disjoint when all begin at different values, and an addition that throws changes
nothing. -/
theorem overlap_exact (range other : WeightedRange) (d : Distribution) :
    (range.Valid -> other.Valid ->
      ((range.overlap other = true ↔ range.Intersects other) ↔ range.left_ ≠ other.left_)) ∧
    (Reachable d -> (forall range, range ∈ d.ranges_ -> range.Valid) ->
      (Disjoint d.ranges_ ↔ (d.ranges_.map WeightedRange.left_).Nodup)) ∧
    (forall (d' : Distribution) (wr : WeightedRange) (what : String),
      d.addRange wr = (.error what, d') -> d' = d) := by
  constructor
  · intro h h'
    rw [WeightedRange.overlap_eq_true h h']
    constructor
    · intro hiff heq
      exact (hiff.mpr (WeightedRange.intersects_of_left_eq h h' heq)).right heq
    · intro hne
      constructor
      · intro hboth
        exact hboth.left
      · intro hintersects
        exact ⟨hintersects, hne⟩
  constructor
  · intro h hvalid
    exact h.disjoint_iff hvalid
  · intro d' wr what h
    rcases addRange_cases h with ⟨hok, _⟩ | ⟨_, hsame, _⟩
    · cases hok
    · exact hsame

theorem overlap_exact_rejected :
    ((WeightedRange.weighted_range 0 10 1).overlap (WeightedRange.weighted_range 10 20 1) = true ↔
      (WeightedRange.weighted_range 0 10 1).Intersects (WeightedRange.weighted_range 10 20 1)) ∧
    Disjoint ((distribution.addRange (WeightedRange.weighted_range 0 10 1)).2.addRange
      (WeightedRange.weighted_range 50 75 1)).2.ranges_ ∧
    (((distribution.addRange (WeightedRange.weighted_range 0 10 1)).2.addRange
      (WeightedRange.weighted_range 50 75 1)).2.addRange
        (WeightedRange.weighted_range 30 51 1)).2 =
      ((distribution.addRange (WeightedRange.weighted_range 0 10 1)).2.addRange
        (WeightedRange.weighted_range 50 75 1)).2 := by
  constructor
  · exact ((overlap_exact _ _ distribution).left (by decide) (by decide)).mpr (by decide)
  constructor
  · have hreachable := Reachable.addRange (WeightedRange.weighted_range 50 75 1)
      (Reachable.addRange (WeightedRange.weighted_range 0 10 1) Reachable.distribution rfl) rfl
    exact ((overlap_exact (WeightedRange.weighted_range 0 10 1) (WeightedRange.weighted_range 50 75 1)
      _).right.left hreachable (by decide)).mpr (by decide)
  · exact (overlap_exact (WeightedRange.weighted_range 0 10 1) (WeightedRange.weighted_range 50 75 1)
      _).right.right _ (WeightedRange.weighted_range 30 51 1) "Overlapping range exists." rfl

/-- Ranges that begin at the same value are both taken. -/
theorem same_left_taken :
    ¬ ((forall range other : WeightedRange, range.Valid -> other.Valid ->
        (range.overlap other = true ↔ range.Intersects other)) ∧
      (forall d : Distribution, Reachable d ->
        (forall range, range ∈ d.ranges_ -> range.Valid) -> Disjoint d.ranges_)) := by
  intro hclaim
  have hreachable := Reachable.addRange (WeightedRange.weighted_range 0 5 1)
    (Reachable.addRange (WeightedRange.weighted_range 0 10 1) Reachable.distribution rfl) rfl
  have hdisjoint := hclaim.right _ hreachable (by decide)
  have hhead := (List.pairwise_cons.mp hdisjoint).left _ List.mem_cons_self
  exact hhead ⟨0, ⟨by decide, by decide⟩, by decide, by decide⟩

end Distribution

end Frontend
end Crave
