import Crave.Foundation.IntegerType
import Crave.Frontend.Distribution

/-!
# The weight of a plain range

A plain range gets its size as the weight. The size is computed in the type of the bounds,
or in `int` when that is wider, before it is converted to 64 bits.
-/

namespace Crave
namespace Frontend

open Foundation

namespace WeightedRange

/-- Operands that are narrower than `int` are promoted to it. -/
def promoted (t : IntegerType) : IntegerType :=
  if t.width < 32 then { width := 32, sign := true } else t

/-- The result of an operation. An unsigned result wraps, and a signed one that does not
fit is undefined. -/
def result (t : IntegerType) (i : Int) : Option Int :=
  if t.sign then
    if t.Contains i then some i else none
  else
    some (t.wrap i)

/-- `range`, with the weight `r + 1 - l`. -/
def range (t : IntegerType) (l r : Int) : Option WeightedRange :=
  match result (promoted t) (r + 1) with
  | none => none
  | some next =>
      match result (promoted t) (next - l) with
      | none => none
      | some weight => some (weighted_range l r (BitVec.ofInt 64 weight))

def size (l r : Int) : Nat :=
  (r - l + 1).toNat

/-- In a signed type the size and the successor of the right bound have to be values of
the type. In an unsigned one the range must not be the whole type. -/
def Fits (t : IntegerType) (l r : Int) : Prop :=
  if (promoted t).sign then
    r + 1 ≤ (promoted t).greatest ∧ r - l + 1 ≤ (promoted t).greatest
  else
    ¬ (l = (promoted t).least ∧ r = (promoted t).greatest)

instance (t : IntegerType) (l r : Int) : Decidable (Fits t l r) := by
  unfold Fits
  infer_instance

section Weight

variable {t : IntegerType} {l r : Int}

theorem promoted_width_le (hle : t.width ≤ 64) : (promoted t).width ≤ 64 := by
  unfold promoted
  split
  · decide
  · exact hle

theorem contains_promoted {i : Int} (h : t.Contains i) : (promoted t).Contains i := by
  unfold promoted
  split
  · next hnarrow =>
      rcases t with ⟨w, sign⟩
      rw [IntegerType.contains_signed]
      dsimp only at hnarrow ⊢
      cases sign with
      | false =>
          rw [IntegerType.contains_unsigned] at h
          have hpow : 2 ^ w ≤ 2 ^ 31 := Nat.pow_le_pow_right (by decide) (by omega)
          omega
      | true =>
          rw [IntegerType.contains_signed] at h
          have hpow : 2 ^ (w - 1) ≤ 2 ^ 31 := Nat.pow_le_pow_right (by decide) (by omega)
          omega
  · exact h

theorem range_eq_some {wr : WeightedRange} (h : range t l r = some wr) :
    wr = weighted_range l r wr.weight_ := by
  unfold range at h
  split at h
  · cases h
  · split at h
    · cases h
    · cases h
      rfl

/-- In a signed type the range is defined when the two results fit, and then it is exact. -/
theorem range_signed (hsign : (promoted t).sign = true)
    (hr : (promoted t).Contains r) (hle : l ≤ r) :
    range t l r =
      if r + 1 ≤ (promoted t).greatest ∧ r - l + 1 ≤ (promoted t).greatest then
        some (weighted_range l r (BitVec.ofInt 64 (r - l + 1)))
      else
        none := by
  have hleast : (promoted t).least ≤ 0 := by
    unfold IntegerType.least
    rw [if_pos hsign]
    exact neg_nonpos.mpr (Int.natCast_nonneg _)
  have hnext : (promoted t).Contains (r + 1) ↔ r + 1 ≤ (promoted t).greatest := by
    have hlow := hr.left
    unfold IntegerType.Contains
    omega
  have hweight : (promoted t).Contains (r + 1 - l) ↔ r - l + 1 ≤ (promoted t).greatest := by
    unfold IntegerType.Contains
    omega
  have heq : r + 1 - l = r - l + 1 := by omega
  unfold range result
  simp only [if_pos hsign]
  by_cases hfirst : (promoted t).Contains (r + 1)
  · by_cases hsecond : (promoted t).Contains (r + 1 - l)
    · have hfits := And.intro (hnext.mp hfirst) (hweight.mp hsecond)
      simp only [if_pos hfirst, if_pos hsecond, if_pos hfits]
      rw [heq]
    · have hfits : ¬ (r + 1 ≤ (promoted t).greatest ∧ r - l + 1 ≤ (promoted t).greatest) :=
        fun h => hsecond (hweight.mpr h.right)
      simp only [if_pos hfirst, if_neg hsecond, if_neg hfits]
  · have hfits : ¬ (r + 1 ≤ (promoted t).greatest ∧ r - l + 1 ≤ (promoted t).greatest) :=
      fun h => hfirst (hnext.mpr h.left)
    simp only [if_neg hfirst, if_neg hfits]

theorem range_unsigned (hsign : (promoted t).sign = false) :
    range t l r =
      some (weighted_range l r
        (BitVec.ofInt 64 ((r - l + 1) % (2 ^ (promoted t).width : Nat)))) := by
  have hwrap : forall i, (promoted t).wrap i = i % (2 ^ (promoted t).width : Nat) := by
    intro i
    unfold IntegerType.wrap IntegerType.number
    rw [hsign, SizedBits.num_unsigned, BitVec.toNat_ofInt]
    exact Int.toNat_of_nonneg (Int.emod_nonneg _ (Int.natCast_ne_zero.mpr (by positivity)))
  have hmod : ((r + 1) % (2 ^ (promoted t).width : Nat) - l) % (2 ^ (promoted t).width : Nat) =
      (r - l + 1) % (2 ^ (promoted t).width : Nat) := by
    rw [Int.emod_sub_emod]
    congr 1
    omega
  unfold range result
  simp only [hsign, Bool.false_eq_true, if_false]
  rw [hwrap, hwrap, hmod]

/-- The weight is the number of values when the computation fits into the type. -/
theorem range_weight_iff (hwidth : t.width ≤ 64) (hl : t.Contains l)
    (hr : t.Contains r) (hle : l ≤ r) (hsize : size l r < 2 ^ 64) :
    (exists wr, range t l r = some wr ∧ wr.weight_.toNat = size l r) ↔ Fits t l r := by
  have hl' := contains_promoted hl
  have hr' := contains_promoted hr
  unfold size at hsize ⊢
  unfold Fits
  cases hsign : (promoted t).sign with
  | true =>
      rw [range_signed hsign hr' hle, if_pos rfl]
      constructor
      · intro h
        rcases h with ⟨wr, hrange, _⟩
        split at hrange
        · next hfits => exact hfits
        · cases hrange
      · intro hfits
        rw [if_pos hfits]
        exists weighted_range l r (BitVec.ofInt 64 (r - l + 1))
        constructor
        · rfl
        · show (BitVec.ofInt 64 (r - l + 1)).toNat = _
          have htoNat := Ir.toNat_ofInt_of_nonneg (i := r - l + 1) (by omega) (by omega)
          omega
  | false =>
      rw [range_unsigned hsign, if_neg Bool.false_ne_true]
      have hwide : 2 ^ (promoted t).width ≤ 2 ^ 64 :=
        Nat.pow_le_pow_right (by decide) (promoted_width_le hwidth)
      have hpow := Nat.two_pow_pos (promoted t).width
      unfold IntegerType.Contains at hl' hr'
      unfold IntegerType.least IntegerType.greatest at *
      rw [hsign] at hl' hr' ⊢
      simp only [Bool.false_eq_true, if_false] at hl' hr' ⊢
      have hlow := Int.emod_nonneg (r - l + 1)
        (b := ((2 ^ (promoted t).width : Nat) : Int)) (by omega)
      have hhigh := Int.emod_lt_of_pos (r - l + 1)
        (b := ((2 ^ (promoted t).width : Nat) : Int)) (by omega)
      have htoNat := Ir.toNat_ofInt_of_nonneg hlow (by omega)
      constructor
      · intro h hwhole
        rcases h with ⟨wr, hrange, hweight⟩
        cases hrange
        have hzero : (r - l + 1) % ((2 ^ (promoted t).width : Nat) : Int) = 0 := by
          rw [hwhole.left, hwhole.right]
          have heq : ((2 ^ (promoted t).width : Nat) : Int) - 1 - 0 + 1 =
              (2 ^ (promoted t).width : Nat) := by omega
          rw [heq, Int.emod_self]
        rw [hzero] at hweight
        have hweight' : 0 = (r - l + 1).toNat := hweight
        omega
      · intro hpart
        have hsmall : r - l + 1 < (2 ^ (promoted t).width : Nat) := by omega
        rw [Int.emod_eq_of_lt (by omega) hsmall] at htoNat ⊢
        exists weighted_range l r (BitVec.ofInt 64 (r - l + 1))
        constructor
        · rfl
        · show (BitVec.ofInt 64 (r - l + 1)).toNat = _
          omega

end Weight

/-- The values of the two ranges are different. -/
def Apart (p q : Int × Int) : Prop :=
  p.2 < q.1 ∨ q.2 < p.1

instance (p q : Int × Int) : Decidable (Apart p q) :=
  inferInstanceAs (Decidable (p.2 < q.1 ∨ q.2 < p.1))

end WeightedRange

/-!
## Sequences of plain ranges
-/

namespace Distribution

open WeightedRange

def addRanges (t : IntegerType) :
    Distribution -> List (Int × Int) -> Option (Except String Unit × Distribution)
  | d, [] => some (.ok (), d)
  | d, p :: rest =>
      match WeightedRange.range t p.1 p.2 with
      | none => none
      | some wr =>
          match d.addRange wr with
          | (.error what, d') => some (.error what, d')
          | (.ok (), d') => addRanges t d' rest

/-- A range of the distribution was made from the bounds. -/
def MadeFrom (t : IntegerType) (p : Int × Int) (range : WeightedRange) : Prop :=
  WeightedRange.range t p.1 p.2 = some (weighted_range p.1 p.2 range.weight_) ∧
    range.left_ = p.1 ∧ range.right_ = p.2

variable {t : IntegerType} {d d' : Distribution}

theorem addRanges_ok {plain : List (Int × Int)} (hreachable : Reachable d)
    (h : addRanges t d plain = some (.ok (), d')) :
    Reachable d' ∧ exists added, d'.ranges_ = d.ranges_ ++ added ∧
      List.Forall₂ (MadeFrom t) plain added := by
  induction plain generalizing d with
  | nil =>
      cases h
      constructor
      · exact hreachable
      · exists []
        constructor
        · rw [List.append_nil]
        · exact List.Forall₂.nil
  | cons p rest ih =>
      rw [addRanges] at h
      split at h
      · cases h
      · next wr hrange =>
          split at h
          · cases h
          · next d'' hadd =>
              rcases addRange_cases hadd with ⟨_, _, accumWeight_, _, rfl⟩ | ⟨hok, _⟩
              · rcases ih (hreachable.addRange wr hadd) h with ⟨hreachable', added, heq, hmade⟩
                constructor
                · exact hreachable'
                · exists { wr with accumWeight_ := accumWeight_ } :: added
                  constructor
                  · rw [heq, List.append_assoc, List.singleton_append]
                  · apply List.Forall₂.cons
                    · have hwr := range_eq_some hrange
                      constructor
                      · rw [hrange]
                        exact congrArg some hwr
                      · rw [hwr]
                        exact ⟨rfl, rfl⟩
                    · exact hmade
              · cases hok

theorem overlap_of_apart {range wr : WeightedRange} (hvalid : range.Valid) (hvalid' : wr.Valid)
    (h : Apart (range.left_, range.right_) (wr.left_, wr.right_)) : range.overlap wr = false := by
  unfold Valid at hvalid hvalid'
  unfold Apart at h
  unfold overlap
  dsimp only at h
  split
  · exact decide_eq_false (by omega)
  · split
    · exact decide_eq_false (by omega)
    · rfl

/-- The bounds are values of the type, in their order. -/
def Bounds (t : IntegerType) (p : Int × Int) : Prop :=
  t.Contains p.1 ∧ t.Contains p.2 ∧ p.1 ≤ p.2

instance (t : IntegerType) (p : Int × Int) : Decidable (Bounds t p) :=
  inferInstanceAs (Decidable (t.Contains p.1 ∧ t.Contains p.2 ∧ p.1 ≤ p.2))

theorem addRange_of_apart {d : Distribution} {wr : WeightedRange}
    (hvalid : forall range, range ∈ d.ranges_ -> range.Valid) (hwr : wr.Valid)
    (happart : forall range, range ∈ d.ranges_ ->
      Apart (range.left_, range.right_) (wr.left_, wr.right_)) :
    exists d', d.addRange wr = (.ok (), d') ∧ forall range, range ∈ d'.ranges_ ->
      range ∈ d.ranges_ ∨ range.left_ = wr.left_ ∧ range.right_ = wr.right_ := by
  cases hadd : d.addRange wr with
  | mk outcome d' =>
      rcases addRange_cases hadd with ⟨rfl, _, accumWeight_, _, rfl⟩ | ⟨_, _, range, hmem, htrue⟩
      · refine ⟨_, rfl, ?_⟩
        intro range hmem
        cases List.mem_append.mp hmem with
        | inl hold => exact Or.inl hold
        | inr hnew =>
            rw [List.mem_singleton.mp hnew]
            exact Or.inr ⟨rfl, rfl⟩
      · rw [overlap_of_apart (hvalid range hmem) hwr (happart range hmem)] at htrue
        cases htrue

theorem exists_addRanges {plain : List (Int × Int)}
    (hbounds : forall p, p ∈ plain -> p.1 ≤ p.2)
    (hvalid : forall range, range ∈ d.ranges_ -> range.Valid)
    (hdefined : forall p, p ∈ plain -> exists wr, WeightedRange.range t p.1 p.2 = some wr)
    (happart : plain.Pairwise Apart)
    (hbefore : forall range, range ∈ d.ranges_ -> forall p, p ∈ plain ->
      Apart (range.left_, range.right_) p) :
    exists d', addRanges t d plain = some (.ok (), d') := by
  induction plain generalizing d with
  | nil => exact ⟨d, rfl⟩
  | cons p rest ih =>
      rcases hdefined p List.mem_cons_self with ⟨wr, hrange⟩
      rw [List.pairwise_cons] at happart
      have hwr := range_eq_some hrange
      have hleft : wr.left_ = p.1 := by rw [hwr]; rfl
      have hright : wr.right_ = p.2 := by rw [hwr]; rfl
      have hwr_valid : wr.Valid := by
        unfold Valid
        rw [hleft, hright]
        exact hbounds p List.mem_cons_self
      have hwr_apart : forall range, range ∈ d.ranges_ ->
          Apart (range.left_, range.right_) (wr.left_, wr.right_) := by
        intro range hmem
        rw [hleft, hright]
        exact hbefore range hmem p List.mem_cons_self
      rcases addRange_of_apart hvalid hwr_valid hwr_apart with ⟨d₁, hadd, hranges⟩
      rw [addRanges, hrange]
      dsimp only
      rw [hadd]
      apply ih
      · intro q hq
        exact hbounds q (List.mem_cons_of_mem p hq)
      · intro range hmem
        cases hranges range hmem with
        | inl hold => exact hvalid range hold
        | inr hnew =>
            unfold Valid at hwr_valid ⊢
            rw [hnew.left, hnew.right]
            exact hwr_valid
      · intro q hq
        exact hdefined q (List.mem_cons_of_mem p hq)
      · exact happart.right
      · intro range hmem q hq
        cases hranges range hmem with
        | inl hold => exact hbefore range hold q (List.mem_cons_of_mem p hq)
        | inr hnew =>
            rw [hnew.left, hnew.right, hleft, hright]
            exact happart.left q hq

def sizes (plain : List (Int × Int)) : List Nat :=
  plain.map fun p => size p.1 p.2

/-- The distribution has the plain ranges, and an accumulated weight is the number of values
up to the end of its range. -/
def CountsValues (plain : List (Int × Int)) (d : Distribution) : Prop :=
  (d.ranges_.map fun range => (range.left_, range.right_)) = plain ∧
    forall i, (h : i < d.ranges_.length) ->
      d.ranges_[i].accumWeight_.toNat = ((sizes plain).take (i + 1)).sum

theorem countsValues_iff {plain : List (Int × Int)}
    (hplain : (d.ranges_.map fun range => (range.left_, range.right_)) = plain) :
    CountsValues plain d ↔
      Accumulates (fun range => size range.left_ range.right_)
        (fun range => range.accumWeight_.toNat) 0 d.ranges_ := by
  have hsizes : sizes plain = d.ranges_.map fun range => size range.left_ range.right_ := by
    rw [← hplain]
    unfold sizes
    rw [List.map_map]
    rfl
  unfold CountsValues
  rw [Accumulates.iff_take, hsizes]
  simp only [Nat.zero_add, List.map_take]
  constructor
  · intro h
    exact h.right
  · intro h
    exact ⟨hplain, h⟩

theorem bounds_of_made {plain : List (Int × Int)} {ranges_ : List WeightedRange}
    (hmade : List.Forall₂ (MadeFrom t) plain ranges_) :
    (ranges_.map fun range => (range.left_, range.right_)) = plain := by
  induction hmade with
  | nil => rfl
  | cons hp _ ih =>
      rw [List.map_cons, ih, hp.right.left, hp.right.right]

section Sequence

variable {plain : List (Int × Int)}

theorem weight_of_made (hwidth : t.width ≤ 64) {ranges_ : List WeightedRange}
    (hmade : List.Forall₂ (MadeFrom t) plain ranges_)
    (hbounds : forall p, p ∈ plain -> Bounds t p)
    (hsize : forall p, p ∈ plain -> size p.1 p.2 < 2 ^ 64) :
    (forall p, p ∈ plain -> Fits t p.1 p.2) ↔
      forall range, range ∈ ranges_ ->
        range.weight_.toNat = size range.left_ range.right_ := by
  induction hmade with
  | nil =>
      constructor
      · intro _ range hrange
        cases hrange
      · intro _ p hp
        cases hp
  | @cons p range rest ranges_ hp _ ih =>
      have hhead : Fits t p.1 p.2 ↔ range.weight_.toNat = size range.left_ range.right_ := by
        have hp' := hbounds p List.mem_cons_self
        rw [← range_weight_iff hwidth hp'.left hp'.right.left hp'.right.right
          (hsize p List.mem_cons_self), hp.right.left, hp.right.right]
        constructor
        · intro h
          rcases h with ⟨wr, hwr, hweight⟩
          rw [hp.left] at hwr
          rw [← hweight, ← Option.some.inj hwr]
          rfl
        · intro hweight
          exact ⟨_, hp.left, hweight⟩
      rw [List.forall_mem_cons, List.forall_mem_cons, hhead,
        ih (fun q hq => hbounds q (List.mem_cons_of_mem p hq))
          (fun q hq => hsize q (List.mem_cons_of_mem p hq))]

theorem size_le_sum {p : Int × Int} (hp : p ∈ plain) : size p.1 p.2 ≤ (sizes plain).sum :=
  List.single_le_sum (fun _ _ => Nat.zero_le _) _ (List.mem_map_of_mem hp)

/-- The accumulated weights of a sequence of plain ranges are right when all of them fit. -/
theorem addRanges_countsValues_iff (hwidth : t.width ≤ 64)
    (hbounds : forall p, p ∈ plain -> Bounds t p) (happart : plain.Pairwise Apart)
    (hsum : (sizes plain).sum < 2 ^ 64) :
    (exists d, addRanges t distribution plain = some (.ok (), d) ∧ CountsValues plain d) ↔
      forall p, p ∈ plain -> Fits t p.1 p.2 := by
  have hsize : forall p, p ∈ plain -> size p.1 p.2 < 2 ^ 64 := by
    intro p hp
    exact Nat.lt_of_le_of_lt (size_le_sum hp) hsum
  constructor
  · intro h
    rcases h with ⟨d, hadd, hcounts⟩
    rcases addRanges_ok Reachable.distribution hadd with ⟨hreachable, added, hranges, hmade⟩
    rw [show distribution.ranges_ = [] from rfl, List.nil_append] at hranges
    rw [← hranges] at hmade
    apply (weight_of_made hwidth hmade hbounds hsize).mpr
    intro range hrange
    exact hreachable.accumulates.weight_eq ((countsValues_iff hcounts.left).mp hcounts) hrange
  · intro hfits
    have hdefined : forall p, p ∈ plain ->
        exists wr, WeightedRange.range t p.1 p.2 = some wr := by
      intro p hp
      have hp' := hbounds p hp
      rcases (range_weight_iff hwidth hp'.left hp'.right.left hp'.right.right
        (hsize p hp)).mpr (hfits p hp) with ⟨wr, hwr, _⟩
      exact ⟨wr, hwr⟩
    rcases exists_addRanges (d := distribution) (fun p hp => (hbounds p hp).right.right)
      (fun range hrange => absurd hrange List.not_mem_nil) hdefined happart
      (fun range hrange => absurd hrange List.not_mem_nil) with ⟨d, hadd⟩
    rcases addRanges_ok Reachable.distribution hadd with ⟨hreachable, added, hranges, hmade⟩
    rw [show distribution.ranges_ = [] from rfl, List.nil_append] at hranges
    rw [← hranges] at hmade
    have hplain := bounds_of_made hmade
    have hweights := (weight_of_made hwidth hmade hbounds hsize).mp hfits
    have hsizes : (weights d.ranges_) = sizes plain := by
      unfold weights sizes
      rw [← hplain, List.map_map]
      exact List.map_congr_left hweights
    exists d
    constructor
    · exact hadd
    · rw [countsValues_iff hplain]
      have haccum := hreachable.accumulates_toNat (by rw [hsizes]; exact hsum)
      rw [Accumulates.iff_take] at haccum ⊢
      intro i hi
      rw [haccum i hi]
      congr 2
      apply List.map_congr_left
      intro range hrange
      exact hweights range (List.mem_of_mem_take hrange)

end Sequence

/-- The weight of a plain range, and the accumulated weights of a sequence of them, are the
numbers of values exactly when each computed size fits into the type. -/
theorem range_exact (t : IntegerType) (hwidth : t.width ≤ 64) :
    (forall l r : Int, Bounds t (l, r) -> size l r < 2 ^ 64 ->
      ((exists wr, WeightedRange.range t l r = some wr ∧
          (wr.weight_.toNat : Int) = r - l + 1) ↔ Fits t l r)) ∧
    (forall plain : List (Int × Int), (forall p, p ∈ plain -> Bounds t p) ->
      plain.Pairwise Apart -> (sizes plain).sum < 2 ^ 64 ->
        ((exists d, addRanges t distribution plain = some (.ok (), d) ∧ CountsValues plain d) ↔
          forall p, p ∈ plain -> Fits t p.1 p.2)) := by
  constructor
  · intro l r hbounds hsize
    rw [← range_weight_iff hwidth hbounds.left hbounds.right.left hbounds.right.right hsize]
    have hle : l ≤ r := hbounds.right.right
    have heq : forall wr : WeightedRange,
        (wr.weight_.toNat : Int) = r - l + 1 ↔ wr.weight_.toNat = size l r := by
      intro wr
      unfold size
      omega
    simp only [heq]
  · intro plain hbounds happart hsum
    exact addRanges_countsValues_iff hwidth hbounds happart hsum

theorem range_exact_small :
    (exists wr, WeightedRange.range ⟨16, true⟩ (-32768) 32767 = some wr ∧
      (wr.weight_.toNat : Int) = 32767 - (-32768) + 1) ∧
    exists d, addRanges ⟨32, false⟩ distribution [(0, 9), (4294967286, 4294967295)] =
      some (.ok (), d) ∧ CountsValues [(0, 9), (4294967286, 4294967295)] d := by
  constructor
  · exact ((range_exact ⟨16, true⟩ (by decide)).left (-32768) 32767 (by decide) (by decide)).mpr
      (by decide)
  · exact ((range_exact ⟨32, false⟩ (by decide)).right [(0, 9), (4294967286, 4294967295)]
      (by decide) (by decide) (by decide)).mpr (by decide)

/-- The whole 32-bit unsigned type gets the weight zero, and that of the whole `int` is
undefined. -/
theorem range_whole_type :
    (WeightedRange.range ⟨32, false⟩ 0 4294967295 = some (weighted_range 0 4294967295 0)) ∧
    WeightedRange.range ⟨32, true⟩ (-2147483648) 2147483647 = none ∧
    ¬ (forall (t : IntegerType) (l r : Int), t.width ≤ 64 -> Bounds t (l, r) ->
      size l r < 2 ^ 64 ->
        exists wr, WeightedRange.range t l r = some wr ∧
          (wr.weight_.toNat : Int) = r - l + 1) := by
  have hunsigned : WeightedRange.range ⟨32, false⟩ 0 4294967295 =
      some (weighted_range 0 4294967295 0) := by decide
  constructor
  · exact hunsigned
  constructor
  · decide
  · intro hclaim
    rcases hclaim ⟨32, false⟩ 0 4294967295 (by decide) (by decide) (by decide) with
      ⟨wr, hwr, hweight⟩
    rw [hunsigned] at hwr
    cases hwr
    exact absurd hweight (by decide)

end Distribution

end Frontend
end Crave
