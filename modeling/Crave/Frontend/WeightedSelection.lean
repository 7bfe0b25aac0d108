import Crave.Frontend.Distribution

/-!
# Selection by weight

A range is selected by as many of the draws as its weight tells.
-/

namespace Crave
namespace Frontend
namespace Distribution

open Foundation Ir

theorem search_ofNat (ranges_ : List WeightedRange) {r : Nat} (hr : r < 2 ^ 64) :
    search ranges_ (BitVec.ofNat 64 r) =
      ranges_.find? fun range => decide (r < range.accumWeight_.toNat) := by
  unfold search
  congr
  funext range
  apply decide_eq_decide.mpr
  rw [BitVec.lt_def, BitVec.toNat_ofNat, Nat.mod_eq_of_lt hr]

theorem nodup_of_disjoint {ranges_ : List WeightedRange} (hdisjoint : Disjoint ranges_)
    (hvalid : forall range, range ∈ ranges_ -> range.Valid) : ranges_.Nodup := by
  apply hdisjoint.imp_of_mem
  intro range other hrange hother hnot heq
  apply hnot
  rw [← heq]
  exact WeightedRange.intersects_of_left_eq (hvalid range hrange) (hvalid range hrange) rfl

section Selection

variable {d : Distribution} {back : WeightedRange}

theorem Reachable.total (h : Reachable d) (hsum : (weights d.ranges_).sum < 2 ^ 64)
    (hback : d.ranges_.getLast? = some back) :
    back.accumWeight_.toNat = (weights d.ranges_).sum := by
  have haccum := h.accumulates_toNat hsum
  have hinit := List.dropLast_append_getLast? back hback
  rw [← hinit] at haccum
  rw [haccum.last, hinit, Nat.zero_add]
  rfl

theorem Reachable.greatest_draw (h : Reachable d) (hsum : (weights d.ranges_).sum < 2 ^ 64)
    (hpos : 0 < (weights d.ranges_).sum) (hback : d.ranges_.getLast? = some back) :
    (back.accumWeight_ - 1).toNat + 1 = (weights d.ranges_).sum := by
  have htotal := h.total hsum hback
  have hone : (1 : BitVec 64).toNat = 1 := rfl
  rw [BitVec.toNat_sub, hone, htotal]
  omega

/-- A draw finds a range, so that the last one is never the fallback. -/
theorem Reachable.search_eq_some (h : Reachable d) (hsum : (weights d.ranges_).sum < 2 ^ 64)
    {r : Nat} (hr : r < (weights d.ranges_).sum) :
    exists range, range ∈ d.ranges_ ∧ search d.ranges_ (BitVec.ofNat 64 r) = some range := by
  rw [search_ofNat d.ranges_ (hr.trans hsum)]
  have hstart : r < 0 + (weights d.ranges_).sum := by omega
  rcases (h.accumulates_toNat hsum).exists_selected (Nat.zero_le r) hstart with ⟨range, hfound⟩
  exists range
  constructor
  · exact List.mem_of_find?_eq_some hfound
  · exact hfound

theorem Reachable.selected_eq_iff (h : Reachable d) (hsum : (weights d.ranges_).sum < 2 ^ 64)
    {r : Nat} (hr : r < (weights d.ranges_).sum) (back range : WeightedRange) :
    selected d.ranges_ back (BitVec.ofNat 64 r) = range ↔
      search d.ranges_ (BitVec.ofNat 64 r) = some range := by
  rcases h.search_eq_some hsum hr with ⟨found, _, hfound⟩
  unfold selected
  rw [hfound, Option.getD_some, Option.some.injEq]

theorem Reachable.card_selected (h : Reachable d) (hsum : (weights d.ranges_).sum < 2 ^ 64)
    (hnodup : d.ranges_.Nodup) {range : WeightedRange} (hrange : range ∈ d.ranges_) :
    ((Finset.range (weights d.ranges_).sum).filter fun r =>
      selected d.ranges_ back (BitVec.ofNat 64 r) = range).card = range.weight_.toNat := by
  rw [← (h.accumulates_toNat hsum).card_selected hnodup hrange]
  congr 1
  apply Finset.filter_congr
  intro r hr
  have hlt : r < (weights d.ranges_).sum := Finset.mem_range.mp hr
  rw [h.selected_eq_iff hsum hlt back, search_ofNat d.ranges_ (hlt.trans hsum)]

theorem nextValue_within (hvalid : forall range, range ∈ d.ranges_ -> range.Valid)
    (hback : d.ranges_.getLast? = some back) (hlen : 1 < d.ranges_.length) {u : Uniform}
    (hu : u.Within) (least greatest : Int)
    (hmem : selected d.ranges_ back (u.number 0 (back.accumWeight_ - 1)) ∈ d.ranges_) :
    (selected d.ranges_ back (u.number 0 (back.accumWeight_ - 1))).Contains
      (nextValue least greatest u d) := by
  unfold nextValue
  rw [hback]
  simp only [if_pos hlen]
  exact hu.value _ _ (hvalid _ hmem)

end Selection

/-- The draws go up to one below the sum of the weights, each of them finds a range, each
range is found by as many of them as its weight tells, and the returned value is in the
range that is found. -/
theorem selects_by_weight {d : Distribution} (h : Reachable d)
    (hvalid : forall range, range ∈ d.ranges_ -> range.Valid) (hdisjoint : Disjoint d.ranges_)
    (hlen : 2 ≤ d.ranges_.length) (hpos : 1 ≤ (weights d.ranges_).sum)
    (hsum : (weights d.ranges_).sum < 2 ^ 64) :
    exists back, d.ranges_.getLast? = some back ∧
      (back.accumWeight_ - 1).toNat + 1 = (weights d.ranges_).sum ∧
      (forall range, range ∈ d.ranges_ ->
        ((Finset.range (weights d.ranges_).sum).filter fun r =>
          selected d.ranges_ back (BitVec.ofNat 64 r) = range).card = range.weight_.toNat) ∧
      (forall r, r < (weights d.ranges_).sum ->
        search d.ranges_ (BitVec.ofNat 64 r) ≠ none) ∧
      (forall (u : Uniform) (least greatest : Int), u.Within ->
        exists r, r < (weights d.ranges_).sum ∧
          u.number 0 (back.accumWeight_ - 1) = BitVec.ofNat 64 r ∧
          selected d.ranges_ back (BitVec.ofNat 64 r) ∈ d.ranges_ ∧
          (selected d.ranges_ back (BitVec.ofNat 64 r)).Contains
            (nextValue least greatest u d)) := by
  cases hback : d.ranges_.getLast? with
  | none =>
      rw [List.getLast?_eq_none_iff.mp hback] at hlen
      cases hlen
  | some back =>
      have hgreatest := h.greatest_draw hsum hpos hback
      exists back
      constructor
      · rfl
      constructor
      · exact hgreatest
      constructor
      · intro range hrange
        exact h.card_selected hsum (nodup_of_disjoint hdisjoint hvalid) hrange
      constructor
      · intro r hr hnone
        rcases h.search_eq_some hsum hr with ⟨range, _, hfound⟩
        rw [hnone] at hfound
        cases hfound
      · intro u least greatest hu
        have hzero : (0 : BitVec 64) ≤ back.accumWeight_ - 1 :=
          BitVec.le_def.mpr (Nat.zero_le _)
        have hdraw := (hu.number 0 (back.accumWeight_ - 1) hzero).right
        have hlt : (u.number 0 (back.accumWeight_ - 1)).toNat < (weights d.ranges_).sum := by
          have hle := BitVec.le_def.mp hdraw
          omega
        rcases h.search_eq_some hsum hlt with ⟨range, hrange, hfound⟩
        have hselected := (h.selected_eq_iff hsum hlt back range).mpr hfound
        exists (u.number 0 (back.accumWeight_ - 1)).toNat
        rw [BitVec.ofNat_toNat, BitVec.setWidth_eq] at hselected ⊢
        constructor
        · exact hlt
        constructor
        · rfl
        have hmem : selected d.ranges_ back (u.number 0 (back.accumWeight_ - 1)) ∈
            d.ranges_ := by
          rw [hselected]
          exact hrange
        constructor
        · exact hmem
        · exact nextValue_within hvalid hback hlen hu least greatest hmem

theorem selects_by_weight_three :
    exists back,
      (((distribution.addRange (WeightedRange.weighted_range 1 5 50)).2.addRange
        (WeightedRange.weighted_range 10 20 20)).2.addRange
          (WeightedRange.weighted_value (-50) 30)).2.ranges_.getLast? = some back ∧
      ((Finset.range 100).filter fun r =>
        selected (((distribution.addRange (WeightedRange.weighted_range 1 5 50)).2.addRange
          (WeightedRange.weighted_range 10 20 20)).2.addRange
            (WeightedRange.weighted_value (-50) 30)).2.ranges_ back (BitVec.ofNat 64 r) =
          { left_ := 10, right_ := 20, weight_ := 20, accumWeight_ := 70 }).card = 20 := by
  have hreachable := Reachable.addRange (WeightedRange.weighted_value (-50) 30)
    (Reachable.addRange (WeightedRange.weighted_range 10 20 20)
      (Reachable.addRange (WeightedRange.weighted_range 1 5 50) Reachable.distribution rfl) rfl) rfl
  have hdisjoint := (hreachable.disjoint_iff (by decide)).mpr (by decide)
  rcases selects_by_weight hreachable (by decide) hdisjoint (by decide) (by decide) (by decide)
    with ⟨back, hback, _, hcard, _⟩
  exact ⟨back, hback, hcard _ (by decide)⟩

end Distribution
end Frontend
end Crave
