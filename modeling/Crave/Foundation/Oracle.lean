import Crave.Foundation.BitVectorTerm
import Mathlib.Data.List.Perm.Basic

/-!
# Decision procedures as oracles

An oracle is asked whether a list of formulas is satisfiable and answers with a
model or with nothing.  It may answer the same query differently at different
times; time advances with every query and with every random draw.
-/

namespace Crave
namespace Foundation

open Term

structure Oracle (name : Type) where
  check : Nat -> List (Term name) -> Option (Model name)

namespace Oracle

variable {name : Type} {o : Oracle name}

def Sound (o : Oracle name) : Prop :=
  forall time query m, o.check time query = some m -> Satisfies m query

def Complete (o : Oracle name) : Prop :=
  forall time query, Satisfiable query -> o.check time query ≠ none

theorem eq_none_iff (hsound : o.Sound) (hcomplete : o.Complete) (time : Nat)
    (query : List (Term name)) :
    o.check time query = none ↔ ¬ Satisfiable query := by
  constructor
  · intro hnone hsat
    exact hcomplete time query hsat hnone
  · intro hunsat
    cases hm : o.check time query with
    | none => rfl
    | some m => exact absurd ⟨m, hsound time query m hm⟩ hunsat

/-- The oracle that knows one model only. -/
def ofModel (m : Model name) : Oracle name :=
  { check := fun _ query => if Satisfies m query then some m else none }

theorem ofModel_sound (m : Model name) : (ofModel m).Sound := by
  intro time query m' h
  simp only [ofModel] at h
  split at h
  · rename_i hsat
    cases h
    exact hsat
  · cases h

/-- The oracle that knows the given models and answers the first that fits. -/
def ofModels (ms : List (Model name)) : Oracle name :=
  { check := fun _ query => ms.find? fun m => decide (Satisfies m query) }

theorem ofModels_sound (ms : List (Model name)) : (ofModels ms).Sound := by
  intro time query m h
  have hfound : ms.find? (fun m => decide (Satisfies m query)) = some m := h
  have htest := List.find?_some hfound
  exact of_decide_eq_true htest

open Classical in
/-- The oracle that knows all models. -/
noncomputable def ideal : Oracle name :=
  { check := fun _ query => if h : Satisfiable query then some h.choose else none }

theorem ideal_sound : (ideal : Oracle name).Sound := by
  intro time query m h
  simp only [ideal] at h
  split at h
  · next hsat =>
      cases h
      exact hsat.choose_spec
  · cases h

theorem ideal_complete : (ideal : Oracle name).Complete := by
  intro time query hsat h
  simp only [ideal, dif_pos hsat] at h
  cases h

/-- The first oracle answers, and the second one where the first knows nothing. -/
def orElse (first second : Oracle name) : Oracle name :=
  { check := fun time query =>
      match first.check time query with
      | some m => some m
      | none => second.check time query }

theorem orElse_sound {first second : Oracle name} (h : first.Sound) (h' : second.Sound) :
    (first.orElse second).Sound := by
  intro time query m hm
  simp only [orElse] at hm
  split at hm
  · next m' hfirst =>
      cases hm
      exact h time query m hfirst
  · exact h' time query m hm

theorem orElse_complete {first second : Oracle name} (h : second.Complete) :
    (first.orElse second).Complete := by
  intro time query hsat hnone
  simp only [orElse] at hnone
  split at hnone
  · cases hnone
  · exact h time query hsat hnone

/-- The oracle that refutes queries with one of these lists in them at once. -/
def refuting [DecidableEq name] (o : Oracle name) (cores : List (List (Term name))) :
    Oracle name :=
  { check := fun time query =>
      if exists core, core ∈ cores ∧ forall t, t ∈ core -> t ∈ query then none
      else o.check time query }

theorem refuting_sound [DecidableEq name] (cores : List (List (Term name))) (h : o.Sound) :
    (o.refuting cores).Sound := by
  intro time query m hm
  simp only [refuting] at hm
  split at hm
  · cases hm
  · exact h time query m hm

theorem refuting_complete [DecidableEq name] {cores : List (List (Term name))}
    (hcores : forall core, core ∈ cores -> ¬ Satisfiable core) (h : o.Complete) :
    (o.refuting cores).Complete := by
  intro time query hsat hnone
  simp only [refuting] at hnone
  split at hnone
  · next hfound =>
      rcases hfound with ⟨core, hcore, hsub⟩
      exact hcores core hcore (hsat.mono hsub)
  · exact h time query hsat hnone

end Oracle

/-!
## Random choices
-/

section Random

variable {α : Type}

def iterSwap (i j : Nat) (xs : List α) : List α :=
  if h : i < xs.length ∧ j < xs.length then
    (xs.set i (xs.get ⟨j, h.2⟩)).set j (xs.get ⟨i, h.1⟩)
  else
    xs

theorem iterSwap_perm (i j : Nat) (xs : List α) : (iterSwap i j xs).Perm xs := by
  unfold iterSwap
  split
  · rename_i h
    exact List.set_set_perm h.1 h.2
  · exact List.Perm.refl xs

/-- `random_shuffle`: every position from the second on is swapped with a drawn
position that is not behind it. -/
def shuffleFrom (draw : Nat -> Nat) : Nat -> Nat -> Nat -> List α -> List α
  | 0, _, _, xs => xs
  | n + 1, i, time, xs =>
      shuffleFrom draw n (i + 1) (time + 1) (iterSwap i (draw time % (i + 1)) xs)

def randomShuffle (draw : Nat -> Nat) (time : Nat) (xs : List α) : List α × Nat :=
  (shuffleFrom draw (xs.length - 1) 1 time xs, time + (xs.length - 1))

theorem shuffleFrom_perm (draw : Nat -> Nat) (n i time : Nat) (xs : List α) :
    (shuffleFrom draw n i time xs).Perm xs := by
  induction n generalizing i time xs with
  | zero => exact List.Perm.refl xs
  | succ n ih => exact (ih _ _ _).trans (iterSwap_perm _ _ xs)

theorem randomShuffle_perm (draw : Nat -> Nat) (time : Nat) (xs : List α) :
    (randomShuffle draw time xs).1.Perm xs :=
  shuffleFrom_perm draw _ _ _ xs

/-- Swap an entry with the last one and drop it. -/
def swapPopBack (select : Nat) (xs : List α) : List α :=
  (iterSwap select (xs.length - 1) xs).dropLast

theorem length_swapPopBack (select : Nat) (xs : List α) :
    (swapPopBack select xs).length = xs.length - 1 := by
  rw [swapPopBack, List.length_dropLast, (iterSwap_perm _ _ xs).length_eq]

theorem length_swapPopBack_lt (select : Nat) {xs : List α} (h : xs ≠ []) :
    (swapPopBack select xs).length < xs.length := by
  rw [length_swapPopBack]
  exact Nat.sub_lt (List.length_pos_iff.mpr h) Nat.one_pos

theorem swapPopBack_subperm (select : Nat) (xs : List α) :
    (swapPopBack select xs).Subperm xs :=
  (List.dropLast_sublist _).subperm.trans (iterSwap_perm _ _ xs).subperm

end Random

/-!
## Queries with suggestions

Suggestions are dropped one by one, in random order, until the rest of the
query can be answered.
-/

namespace Oracle

variable {name : Type} {o : Oracle name}

/-- The last query that was asked, its answer and the time after it. -/
structure Answer (name : Type) where
  result : Option (Model name)
  suggestions : List (Term name)
  time : Nat

def retry (o : Oracle name) (draw : Nat -> Nat) (before after : List (Term name))
    (suggestions : List (Term name)) (time : Nat) : Answer name :=
  match o.check time (before ++ suggestions ++ after) with
  | some m => { result := some m, suggestions := suggestions, time := time + 1 }
  | none =>
      if h : suggestions = [] then
        { result := none, suggestions := [], time := time + 1 }
      else
        retry o draw before after
          (swapPopBack (draw (time + 1) % suggestions.length) suggestions) (time + 2)
termination_by suggestions.length
decreasing_by
  exact length_swapPopBack_lt _ h

theorem satisfies_retry (hsound : o.Sound) {draw : Nat -> Nat}
    {before after suggestions : List (Term name)} {time : Nat} {m : Model name}
    (h : (o.retry draw before after suggestions time).result = some m) :
    Satisfies m (before ++ after) := by
  rw [retry] at h
  split at h
  · rename_i m' hcheck
    cases h
    refine (hsound _ _ _ hcheck).mono fun t ht => ?_
    rcases List.mem_append.mp ht with ht | ht
    · exact List.mem_append_left _ (List.mem_append_left _ ht)
    · exact List.mem_append_right _ ht
  · split at h
    · cases h
    · exact satisfies_retry hsound h
termination_by suggestions.length
decreasing_by
  rename_i hne
  exact length_swapPopBack_lt _ hne

theorem retry_ne_none (hcomplete : o.Complete) (draw : Nat -> Nat)
    {before after : List (Term name)} (hsat : Satisfiable (before ++ after))
    (suggestions : List (Term name)) (time : Nat) :
    (o.retry draw before after suggestions time).result ≠ none := by
  rw [retry]
  split
  · intro h
    cases h
  · rename_i hcheck
    split
    · rename_i hempty
      rw [hempty, List.append_nil] at hcheck
      exact absurd hcheck (hcomplete _ _ hsat)
    · exact retry_ne_none hcomplete draw hsat _ _
termination_by suggestions.length
decreasing_by
  rename_i hne
  exact length_swapPopBack_lt _ hne

/-!
### The suggestions that are left and the number of queries
-/

/-- How often a query with suggestions asks the oracle. -/
def queries (o : Oracle name) (draw : Nat -> Nat) (before after : List (Term name))
    (suggestions : List (Term name)) (time : Nat) : Nat :=
  match o.check time (before ++ suggestions ++ after) with
  | some _ => 1
  | none =>
      if h : suggestions = [] then
        1
      else
        queries o draw before after
          (swapPopBack (draw (time + 1) % suggestions.length) suggestions) (time + 2) + 1
termination_by suggestions.length
decreasing_by
  exact length_swapPopBack_lt _ h

/-- Every query takes one unit of time, and so does the draw after each query but the
last one. -/
theorem time_retry (o : Oracle name) (draw : Nat -> Nat) (before after : List (Term name))
    (suggestions : List (Term name)) (time : Nat) :
    (o.retry draw before after suggestions time).time + 1 =
      time + 2 * o.queries draw before after suggestions time := by
  rw [retry, queries]
  split
  · rfl
  · split
    · rfl
    · rw [time_retry]
      ring
termination_by suggestions.length
decreasing_by
  rename_i hne
  exact length_swapPopBack_lt _ hne

theorem queries_le (o : Oracle name) (draw : Nat -> Nat) (before after : List (Term name))
    (suggestions : List (Term name)) (time : Nat) :
    o.queries draw before after suggestions time ≤ suggestions.length + 1 := by
  rw [queries]
  split
  · exact Nat.le_add_left 1 _
  · split
    · exact Nat.le_add_left 1 _
    · next hne =>
        have hlt : 0 < suggestions.length := List.length_pos_iff.mpr hne
        have hrest := queries_le o draw before after
          (swapPopBack (draw (time + 1) % suggestions.length) suggestions) (time + 2)
        rw [length_swapPopBack, Nat.sub_add_cancel hlt] at hrest
        exact Nat.succ_le_succ hrest
termination_by suggestions.length
decreasing_by
  rename_i hne
  exact length_swapPopBack_lt _ hne

theorem suggestions_retry (hcomplete : o.Complete) (draw : Nat -> Nat)
    {before after suggestions : List (Term name)}
    (hsat : Satisfiable (before ++ suggestions ++ after)) (time : Nat) :
    (o.retry draw before after suggestions time).suggestions = suggestions := by
  rw [retry]
  split
  · rfl
  · next hnone => exact absurd hnone (hcomplete time _ hsat)

/-- The model that is found satisfies the suggestions that are left as well. -/
theorem satisfies_suggestions (hsound : o.Sound) {draw : Nat -> Nat}
    {before after suggestions : List (Term name)} {time : Nat} {m : Model name}
    (h : (o.retry draw before after suggestions time).result = some m) :
    Satisfies m (o.retry draw before after suggestions time).suggestions := by
  rw [retry] at h ⊢
  split at h
  · next m' hcheck =>
      cases h
      intro t ht
      exact hsound _ _ _ hcheck t (List.mem_append_left _ (List.mem_append_right _ ht))
  · split at h
    · cases h
    · next hne =>
        rw [dif_neg hne]
        exact satisfies_suggestions hsound h
termination_by suggestions.length
decreasing_by
  rename_i hne
  exact length_swapPopBack_lt _ hne

theorem suggestions_retry_subperm (o : Oracle name) (draw : Nat -> Nat)
    (before after : List (Term name)) (suggestions : List (Term name)) (time : Nat) :
    (o.retry draw before after suggestions time).suggestions.Subperm suggestions := by
  rw [retry]
  split
  · exact List.Subperm.refl _
  · split
    · exact List.nil_subperm
    · exact (suggestions_retry_subperm o draw before after _ _).trans (swapPopBack_subperm _ _)
termination_by suggestions.length
decreasing_by
  rename_i hne
  exact length_swapPopBack_lt _ hne

end Oracle

/-!
## Formulas taken in one after the other
-/

namespace Term

variable {name : Type}

open Classical in
/-- The formulas of a list that are consistent with the base and with those
taken in before them. -/
noncomputable def greedy (base : List (Term name)) : List (Term name) -> List (Term name)
  | [] => []
  | t :: rest =>
      if Satisfiable (base ++ [t]) then t :: greedy (base ++ [t]) rest
      else greedy base rest

end Term

end Foundation
end Crave
