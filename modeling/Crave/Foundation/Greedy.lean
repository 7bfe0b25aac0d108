import Mathlib.Data.List.Basic
import Mathlib.Logic.Basic

/-!
# Greedy choices

A list is gone through from its first entry to its last one, and an entry is taken in
when it is consistent with those taken in before it.  The choices are a list of flags,
one for each entry.  Among all consistent choices they are the lexicographically
greatest ones.
-/

namespace Crave
namespace Foundation

section Keep

variable {α β : Type}

def keep : List Bool -> List α -> List α
  | true :: flags, a :: rest => a :: keep flags rest
  | false :: flags, _ :: rest => keep flags rest
  | _, _ => []

def leave (flags : List Bool) (xs : List α) : List α :=
  keep (flags.map not) xs

theorem keep_map (f : α -> β) (flags : List Bool) (xs : List α) :
    keep flags (xs.map f) = (keep flags xs).map f := by
  induction xs generalizing flags with
  | nil =>
      cases flags with
      | nil => rfl
      | cons b flags => cases b <;> rfl
  | cons a rest ih =>
      cases flags with
      | nil => rfl
      | cons b flags =>
          cases b with
          | true => exact congrArg (f a :: ·) (ih flags)
          | false => exact ih flags

end Keep

section Choices

variable {α β : Type}

open Classical in
/-- One flag for each entry: whether it is consistent with what was kept before. -/
noncomputable def choices (consistent : List α -> Prop) : List α -> List α -> List Bool
  | _, [] => []
  | kept, a :: rest =>
      if consistent (kept ++ [a]) then true :: choices consistent (kept ++ [a]) rest
      else false :: choices consistent kept rest

variable {consistent : List α -> Prop}

theorem length_choices (kept xs : List α) :
    (choices consistent kept xs).length = xs.length := by
  induction xs generalizing kept with
  | nil => rfl
  | cons a rest ih =>
      rw [choices]
      split
      · exact congrArg Nat.succ (ih _)
      · exact congrArg Nat.succ (ih _)

theorem choices_map (f : α -> β) (consistent : List β -> Prop) (kept xs : List α) :
    choices consistent (kept.map f) (xs.map f) =
      choices (fun ys => consistent (ys.map f)) kept xs := by
  induction xs generalizing kept with
  | nil => rfl
  | cons a rest ih =>
      have hmap : kept.map f ++ [f a] = (kept ++ [a]).map f := by
        rw [List.map_append]
        rfl
      rw [List.map_cons, choices, choices, hmap, ih, ih]

theorem consistent_choices {kept : List α} (h : consistent kept) (xs : List α) :
    consistent (kept ++ keep (choices consistent kept xs) xs) := by
  induction xs generalizing kept with
  | nil =>
      show consistent (kept ++ [])
      rwa [List.append_nil]
  | cons a rest ih =>
      rw [choices]
      split
      · next ha =>
          have hrest := ih ha
          rwa [List.append_assoc] at hrest
      · exact ih h

/-- No consistent choice is lexicographically greater than the greedy one. -/
theorem le_choices
    (hmono : forall xs ys, xs.Sublist ys -> consistent ys -> consistent xs)
    {flags : List Bool} {kept xs : List α} (hlength : flags.length = xs.length)
    (h : consistent (kept ++ keep flags xs)) :
    flags = choices consistent kept xs ∨
      List.Lex (fun a b => a < b) flags (choices consistent kept xs) := by
  induction xs generalizing flags kept with
  | nil =>
      left
      rw [List.length_eq_zero_iff.mp hlength]
      rfl
  | cons a rest ih =>
      cases flags with
      | nil => cases hlength
      | cons b flags =>
          have hrest : flags.length = rest.length := Nat.succ.inj hlength
          cases b with
          | true =>
              have hsplit : kept ++ keep (true :: flags) (a :: rest) =
                  (kept ++ [a]) ++ keep flags rest := by
                rw [List.append_assoc]
                rfl
              rw [hsplit] at h
              have ha : consistent (kept ++ [a]) :=
                hmono _ _ (List.sublist_append_left _ _) h
              rw [choices, if_pos ha]
              cases ih hrest h with
              | inl heq => exact Or.inl (congrArg (true :: ·) heq)
              | inr hlt => exact Or.inr (List.Lex.cons hlt)
          | false =>
              rw [choices]
              split
              · exact Or.inr (List.Lex.rel (by decide))
              · cases ih hrest h with
                | inl heq => exact Or.inl (congrArg (false :: ·) heq)
                | inr hlt => exact Or.inr (List.Lex.cons hlt)

end Choices

end Foundation
end Crave
