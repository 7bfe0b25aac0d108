import Crave.MetaSmt.CuddDistributed
import Mathlib.Data.List.GetD

/-!
# The odds of the solutions

On a manager with at most 32 variables the counts are exact, from whatever maps they are
taken, and the walk of `store_solution` has the odds of the diagram.
-/

namespace Crave
namespace MetaSmt
namespace CUDD_Distributed

open Foundation Diagram

/-- The entries of the maps are the counts for the order of the manager. -/
structure Right (perm : Nat -> Nat) (size : Nat) (maps : CountMaps) : Prop where
  leaf : forall b, maps b { complement := false, regular := .one } = some (if b then 1 else 0)
  exact : forall b d n, maps b { complement := false, regular := d } = some n ->
    n = d.count perm size b

theorem right_reset (perm : Nat -> Nat) (size : Nat) : Right perm size reset := by
  have hzero : forall d : Diagram, ({ complement := false, regular := d } : Edge) ≠ Edge.zero := by
    intro d h
    cases congrArg Edge.complement h
  constructor
  · intro b
    rw [reset, if_neg (hzero .one)]
    rfl
  · intro b d n h
    rw [reset, if_neg (hzero d)] at h
    by_cases hone : ({ complement := false, regular := d } : Edge) = Edge.one
    · rw [if_pos hone] at h
      cases congrArg Edge.regular hone
      exact (Option.some.inj h).symm
    · rw [if_neg hone] at h
      cases h

section Order

variable {perm : Nat -> Nat} {size : Nat} {maps : CountMaps}

theorem Right.insert (h : Right perm size maps) (b : Bool) (d : Diagram) :
    Right perm size (Function.update maps b (Function.update (maps b)
      { complement := false, regular := d } (some (d.count perm size b)))) := by
  constructor
  · intro b'
    by_cases hb : b' = b
    · subst hb
      rw [Function.update_self]
      by_cases hd : Diagram.one = d
      · subst hd
        rw [Function.update_self]
        rfl
      · rw [Function.update_of_ne (fun heq => hd (congrArg Edge.regular heq)), h.leaf]
    · rw [Function.update_of_ne hb, h.leaf]
  · intro b' d' n hn
    by_cases hb : b' = b
    · subst hb
      rw [Function.update_self] at hn
      by_cases hd : d' = d
      · subst hd
        rw [Function.update_self] at hn
        exact (Option.some.inj hn).symm
      · rw [Function.update_of_ne (fun heq => hd (congrArg Edge.regular heq))] at hn
        exact h.exact b' d' n hn
    · rw [Function.update_of_ne hb] at hn
      exact h.exact b' d' n hn

variable (hperm : Function.Injective perm) (hsize : size ≤ 32)

include hsize

theorem skipped_eq {i : Nat} {child : Diagram} (h : child.Ordered perm size)
    (hi : perm i < child.level perm size) :
    skipped perm size i child = child.level perm size - perm i - 1 ∧
      child.level perm size - perm i - 1 < 32 := by
  have hle := h.level_le
  have hdistance : distance perm size i child = child.level perm size - perm i := by
    rw [distance, BitVec.toNat_ofInt, ← Int.ofNat_sub (Nat.le_of_lt hi)]
    have hlt : child.level perm size - perm i < 2 ^ 32 := by omega
    rw [← Int.natCast_mod, Int.toNat_natCast, Nat.mod_eq_of_lt hlt]
  constructor
  · rw [skipped, hdistance, if_pos (Nat.sub_pos_of_lt hi)]
  · omega

theorem pow_le : 2 ^ size ≤ 2 ^ 32 :=
  Nat.pow_le_pow_right Nat.two_pos hsize

include hperm

theorem node_count_lt {i : Nat} {T E : Diagram} {c : Bool}
    (h : (node i T c E).Ordered perm size) (hr : (node i T c E).Reduced) (b : Bool) :
    (node i T c E).count perm size b < 2 ^ 32 := by
  have hlt := count_lt hperm h hr b
  have hle : 2 ^ (size - perm i) ≤ 2 ^ size := Nat.pow_le_pow_right Nat.two_pos (Nat.sub_le _ _)
  exact Nat.lt_of_lt_of_le hlt (hle.trans (pow_le hsize))

/-- The counts are exact, and so are the entries that are made on the way. -/
theorem count_spec {d : Diagram} (hd : d.Ordered perm size) (hr : d.Reduced)
    (hmaps : Right perm size maps) (b : Bool) :
    exists maps', count perm size b d maps = some (d.count perm size b, maps') ∧
      Right perm size maps' := by
  induction d generalizing b maps with
  | one =>
      refine ⟨maps, ?_, hmaps⟩
      rw [count, hmaps.leaf]
      rfl
  | node i T c E ihT ihE =>
      have hlt := node_count_lt hperm hsize hd hr b
      have hnode := hd
      have hrnode := hr
      rcases hd with ⟨-, hT, hE, horderedT, horderedE⟩
      rcases hr with ⟨-, hrT, hrE⟩
      cases hfound : maps b { complement := false, regular := .node i T c E } with
      | some ret =>
          refine ⟨maps, ?_, hmaps⟩
          rw [count, hfound, hmaps.exact b _ ret hfound]
      | none =>
          rcases ihT horderedT hrT hmaps b with ⟨maps₁, hcountT, hmaps₁⟩
          rcases ihE horderedE hrE hmaps₁ (b ^^ c) with ⟨maps₂, hcountE, hmaps₂⟩
          refine ⟨_, ?_, hmaps₂.insert b (.node i T c E)⟩
          have hskipT := skipped_eq hsize horderedT hT
          have hskipE := skipped_eq hsize horderedE hE
          rw [Diagram.count] at hlt
          have hscaledT : scaled (T.count perm size b) (skipped perm size i T) =
              some (T.count perm size b * 2 ^ (T.level perm size - perm i - 1)) := by
            rw [hskipT.1, scaled, if_pos (by omega), Nat.mod_eq_of_lt (by omega)]
          have hscaledE : scaled (E.count perm size (b ^^ c)) (skipped perm size i E) =
              some (E.count perm size (b ^^ c) * 2 ^ (E.level perm size - perm i - 1)) := by
            rw [hskipE.1, scaled, if_pos (by omega), Nat.mod_eq_of_lt (by omega)]
          have hsum : forall x y : Nat, x + y < 2 ^ 32 ->
              (x % 2 ^ 32 + y) % 2 ^ 64 % 2 ^ 32 = x + y := by
            intro x y h
            omega
          rw [count, hfound]
          simp only [hcountT, hscaledT, hcountE, hscaledE, hsum _ _ hlt, Diagram.count,
            Option.bind_eq_bind, Option.bind_some]
          rfl

theorem shifted_spec {i : Nat} {T E : Diagram} {c : Bool} (h : (node i T c E).Ordered perm size)
    (hr : (node i T c E).Reduced) (b : Bool) :
    shifted (T.count perm size b) (skipped perm size i T) =
      some (T.count perm size b * 2 ^ (T.level perm size - perm i - 1)) := by
  have hlt := node_count_lt hperm hsize h hr b
  rw [Diagram.count] at hlt
  have hskip := skipped_eq hsize h.2.2.2.1 h.2.1
  rw [hskip.1, shifted, if_pos hskip.2, Nat.mod_eq_of_lt (by omega)]

end Order

/-!
## The walk
-/

def valueOf (_solution : List (Option Bool)) : Nat -> Option Bool :=
  fun i => _solution.getD i none

theorem valueOf_set {_solution : List (Option Bool)} {i : Nat} (hi : i < _solution.length)
    (v : Option Bool) :
    valueOf (_solution.set i v) = Function.update (valueOf _solution) i v := by
  funext j
  by_cases hj : j = i
  · subst hj
    rw [Function.update_self, valueOf, List.getD_eq_getElem _ _ (by rwa [List.length_set]),
      List.getElem_set_self]
  · rw [Function.update_of_ne hj, valueOf, valueOf, List.getD_eq_getElem?_getD,
      List.getElem?_set_ne (Ne.symm hj), List.getD_eq_getElem?_getD]

/-- A solution for all variables, with the maps that are left behind. -/
abbrev Outcome (perm : Nat -> Nat) (size : Nat) : Type :=
  { p : List (Option Bool) × CountMaps // p.1.length = size ∧ Right perm size p.2 }

section Walk

variable {perm : Nat -> Nat} {size : Nat} {maps : CountMaps} {m : Type -> Type} [Monad m]
  [LawfulMonad m]

/-- The choice at a node, as a choice among as many numbers as there are solutions. -/
def draw (uniform_int : Nat -> m Nat) (n : Nat) : m Nat :=
  uniform_int ((n + (2 ^ 32 - 1)) % 2 ^ 32)

theorem walk_spec (hperm : Function.Injective perm) (hsize : size ≤ 32)
    (uniform_int : Nat -> m Nat) {d : Diagram} (hd : d.Ordered perm size) (hr : d.Reduced)
    (hmaps : Right perm size maps) (negated : Bool) {_solution : List (Option Bool)}
    (hlength : _solution.length = size) :
    exists outcomes : m (Outcome perm size),
      walk perm size uniform_int negated d _solution maps = (fun p => some p.1) <$> outcomes ∧
      (fun p => valueOf p.1.1) <$> outcomes =
        d.sample (draw uniform_int) perm size (!negated) (valueOf _solution) := by
  induction d generalizing negated _solution maps with
  | one =>
      refine ⟨pure ⟨(_solution, maps), hlength, hmaps⟩, ?_, ?_⟩
      · rw [map_pure, walk]
      · rw [map_pure, Diagram.sample]
  | node i T c E ihT ihE =>
      have hnode := hd
      have hrnode := hr
      rcases hd with ⟨hi, -, -, horderedT, horderedE⟩
      rcases hr with ⟨-, hrT, hrE⟩
      rcases count_spec hperm hsize hnode hrnode hmaps (!negated) with ⟨maps₁, hcount, hmaps₁⟩
      rcases count_spec hperm hsize horderedT hrT hmaps₁ (!negated) with ⟨maps₂, hcountT, hmaps₂⟩
      have hset : forall v : Bool, (_solution.set i (some v)).length = size := by
        intro v
        rw [List.length_set, hlength]
      have hvalue : forall v : Bool, valueOf (_solution.set i (some v)) =
          Function.update (valueOf _solution) i (some v) := by
        intro v
        exact valueOf_set (hlength ▸ hi) (some v)
      rcases ihT horderedT hrT hmaps₂ negated (hset true) with ⟨taken, hwalkT, hsampleT⟩
      rcases ihE horderedE hrE hmaps₂ (negated ^^ c) (hset false) with
        ⟨other, hwalkE, hsampleE⟩
      have hflip : (!(negated ^^ c)) = (!negated ^^ c) := by
        cases negated <;> cases c <;> rfl
      refine ⟨do
        let select <- draw uniform_int ((node i T c E).count perm size (!negated))
        if select < T.count perm size (!negated) * 2 ^ (T.level perm size - perm i - 1) then taken
        else other, ?_, ?_⟩
      · simp only [walk, hcount, hcountT, shifted_spec hperm hsize hnode hrnode, hwalkT, hwalkE,
          map_bind]
        refine bind_congr fun select => ?_
        split <;> rfl
      · rw [Diagram.sample, map_bind, ← hflip, ← hvalue, ← hvalue, ← hsampleT, ← hsampleE]
        refine bind_congr fun select => ?_
        split <;> rfl

theorem store_solution_spec (hperm : Function.Injective perm) (hsize : size ≤ 32)
    (uniform_int : Nat -> m Nat) {root : Edge} (hroot : root.WellFormed perm size)
    (hmaps : Right perm size maps) :
    exists outcomes : m (Outcome perm size),
      store_solution perm size uniform_int root maps = (fun p => some p.1) <$> outcomes ∧
      (fun p => valueOf p.1.1) <$> outcomes = root.sample (draw uniform_int) perm size := by
  have hnone : valueOf (List.replicate size none) = fun _ => none := by
    funext i
    rw [valueOf, List.getD_eq_getElem?_getD, List.getElem?_replicate]
    split <;> rfl
  rcases walk_spec hperm hsize uniform_int hroot.ordered hroot.reduced hmaps root.complement
    (List.length_replicate (a := (none : Option Bool))) with ⟨outcomes, hwalk, hsample⟩
  rw [hnone] at hsample
  exact ⟨outcomes, hwalk, hsample⟩

end Walk

end CUDD_Distributed
end MetaSmt
end Crave
