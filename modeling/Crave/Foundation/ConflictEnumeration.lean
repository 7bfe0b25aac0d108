import Mathlib.Data.Finset.Card
import Mathlib.Data.List.Nodup

/-!
# Enumeration of conflicts

A conflict is an inconsistent set of constraints of which no constraint can be left out.
Conflicts are found by relaxing: as few constraints as possible are switched off, and every
one of these is taken in turn, in place of the others, as a part of the conflicts to come.
-/

namespace Crave
namespace Foundation

section Conflicts

variable {α : Type} [DecidableEq α] (consistent : Finset α -> Prop)

/-- An inconsistent set that is consistent without any one of its members. -/
structure IsConflict (s : Finset α) : Prop where
  inconsistent : ¬ consistent s
  minimal : forall a, a ∈ s -> consistent (s.erase a)

/-- To switch `off` off makes the rest consistent, and fewer constraints do not. -/
structure Relaxes (enable confl off : Finset α) : Prop where
  subset : off ⊆ enable
  relaxed : consistent (confl ∪ (enable \ off))
  least : forall off', off' ⊆ enable -> off'.card < off.card ->
    ¬ consistent (confl ∪ (enable \ off'))

/-- The runs of the enumeration.  The constraints in `confl` are taken for sure, those in
`enable` can be switched off. -/
inductive Enumerates : Finset α -> Finset α -> List (Finset α) -> Prop
  | conflict {enable confl : Finset α} (h : ¬ consistent confl) :
      Enumerates enable confl [confl]
  | relaxed {enable confl : Finset α} {off : List α} (hnodup : off.Nodup)
      (hoff : Relaxes consistent enable confl off.toFinset) {results : α -> List (Finset α)}
      (hbranch : forall a, a ∈ off ->
        Enumerates (enable \ off.toFinset) (insert a confl) (results a)) :
      Enumerates enable confl (off.flatMap results)

/-- All constraints together are inconsistent, and every one that is taken for sure is
needed for that. -/
structure Contradicts (enable confl : Finset α) : Prop where
  disjoint : Disjoint enable confl
  inconsistent : ¬ consistent (confl ∪ enable)
  needed : forall a, a ∈ confl -> consistent (confl.erase a ∪ enable)

variable {consistent} {enable confl : Finset α}

theorem Relaxes.nonempty (hcontradicts : Contradicts consistent enable confl) {off : Finset α}
    (h : Relaxes consistent enable confl off) : off.Nonempty := by
  rw [Finset.nonempty_iff_ne_empty]
  intro hempty
  apply hcontradicts.inconsistent
  have hrest := h.relaxed
  rwa [hempty, Finset.sdiff_empty] at hrest

/-- What is left of the constraints for one that is switched off. -/
theorem Relaxes.contradicts (hmono : forall s t, s ⊆ t -> consistent t -> consistent s)
    (hcontradicts : Contradicts consistent enable confl) {off : Finset α}
    (h : Relaxes consistent enable confl off) {a : α} (ha : a ∈ off) :
    Contradicts consistent (enable \ off) (insert a confl) := by
  have haEnable : a ∈ enable := h.subset ha
  constructor
  · rw [Finset.disjoint_insert_right]
    constructor
    · intro hmem
      exact (Finset.mem_sdiff.mp hmem).2 ha
    · exact hcontradicts.disjoint.mono_left Finset.sdiff_subset
  · have hless := h.least (off.erase a) ((Finset.erase_subset a off).trans h.subset)
      (Finset.card_erase_lt_of_mem ha)
    intro hconsistent
    apply hless
    apply hmono _ _ _ hconsistent
    intro b hb
    rcases Finset.mem_union.mp hb with hconfl | hrest
    · exact Finset.mem_union_left _ (Finset.mem_insert_of_mem hconfl)
    · rcases Finset.mem_sdiff.mp hrest with ⟨hbEnable, hbOff⟩
      by_cases hba : b = a
      · rw [hba]
        exact Finset.mem_union_left _ (Finset.mem_insert_self a confl)
      · apply Finset.mem_union_right
        rw [Finset.mem_sdiff]
        exact ⟨hbEnable, fun hmem => hbOff (Finset.mem_erase.mpr ⟨hba, hmem⟩)⟩
  · intro b hb
    by_cases hba : b = a
    · apply hmono _ _ _ h.relaxed
      rw [hba]
      exact Finset.union_subset_union_left (Finset.erase_insert_subset a confl)
    · have hconfl : b ∈ confl := Finset.mem_of_mem_insert_of_ne hb hba
      apply hmono _ _ _ (hcontradicts.needed b hconfl)
      intro c hc
      rcases Finset.mem_union.mp hc with htaken | hrest
      · rcases Finset.mem_erase.mp htaken with ⟨hcb, hinsert⟩
        rcases Finset.mem_insert.mp hinsert with rfl | hold
        · exact Finset.mem_union_right _ haEnable
        · exact Finset.mem_union_left _ (Finset.mem_erase.mpr ⟨hcb, hold⟩)
      · exact Finset.mem_union_right _ (Finset.mem_sdiff.mp hrest).1

theorem Enumerates.conflicts (hmono : forall s t, s ⊆ t -> consistent t -> consistent s)
    {results : List (Finset α)} (h : Enumerates consistent enable confl results)
    (hcontradicts : Contradicts consistent enable confl) :
    forall r, r ∈ results -> IsConflict consistent r ∧ confl ⊆ r ∧ r ⊆ confl ∪ enable := by
  induction h with
  | @conflict enable confl hinconsistent =>
      intro r hr
      rw [List.mem_singleton.mp hr]
      refine ⟨⟨hinconsistent, fun a ha => ?_⟩, Finset.Subset.refl _, Finset.subset_union_left⟩
      exact hmono _ _ Finset.subset_union_left (hcontradicts.needed a ha)
  | @relaxed enable confl off hnodup hoff results hbranch ih =>
      intro r hr
      rcases List.mem_flatMap.mp hr with ⟨a, ha, hra⟩
      have haOff : a ∈ off.toFinset := List.mem_toFinset.mpr ha
      rcases ih a ha (hoff.contradicts hmono hcontradicts haOff) r hra with
        ⟨hconflict, hinsert, hsub⟩
      refine ⟨hconflict, (Finset.subset_insert a confl).trans hinsert, hsub.trans ?_⟩
      intro b hb
      rcases Finset.mem_union.mp hb with htaken | hrest
      · rcases Finset.mem_insert.mp htaken with rfl | hold
        · exact Finset.mem_union_right _ (hoff.subset haOff)
        · exact Finset.mem_union_left _ hold
      · exact Finset.mem_union_right _ (Finset.mem_sdiff.mp hrest).1

theorem Enumerates.ne_nil (hmono : forall s t, s ⊆ t -> consistent t -> consistent s)
    {results : List (Finset α)} (h : Enumerates consistent enable confl results)
    (hcontradicts : Contradicts consistent enable confl) : results ≠ [] := by
  induction h with
  | conflict => exact List.cons_ne_nil _ _
  | @relaxed enable confl off hnodup hoff results hbranch ih =>
      rcases hoff.nonempty hcontradicts with ⟨a, ha⟩
      have hmem : a ∈ off := List.mem_toFinset.mp ha
      rcases List.exists_mem_of_ne_nil _ (ih a hmem (hoff.contradicts hmono hcontradicts ha)) with
        ⟨r, hr⟩
      exact List.ne_nil_of_mem (List.mem_flatMap.mpr ⟨a, hmem, hr⟩)

/-- A conflict has only one of the constraints that were switched off, so none is found
twice. -/
theorem Enumerates.nodup (hmono : forall s t, s ⊆ t -> consistent t -> consistent s)
    {results : List (Finset α)} (h : Enumerates consistent enable confl results)
    (hcontradicts : Contradicts consistent enable confl) : results.Nodup := by
  induction h with
  | conflict => exact List.nodup_singleton _
  | @relaxed enable confl off hnodup hoff results hbranch ih =>
      have hbelow : forall a, a ∈ off -> Contradicts consistent (enable \ off.toFinset)
          (insert a confl) := fun a ha =>
        hoff.contradicts hmono hcontradicts (List.mem_toFinset.mpr ha)
      rw [List.nodup_flatMap]
      refine ⟨fun a ha => ih a ha (hbelow a ha), ?_⟩
      refine hnodup.imp_of_mem ?_
      intro a b ha hb hne r hra hrb
      have haR : a ∈ r :=
        ((hbranch a ha).conflicts hmono (hbelow a ha) r hra).2.1 (Finset.mem_insert_self a confl)
      rcases Finset.mem_union.mp (((hbranch b hb).conflicts hmono (hbelow b hb) r hrb).2.2 haR)
        with htaken | hrest
      · rcases Finset.mem_insert.mp htaken with heq | hconfl
        · exact hne heq
        · exact Finset.disjoint_left.mp hcontradicts.disjoint
            (hoff.subset (List.mem_toFinset.mpr ha)) hconfl
      · exact (Finset.mem_sdiff.mp hrest).2 (List.mem_toFinset.mpr ha)

end Conflicts

end Foundation
end Crave
