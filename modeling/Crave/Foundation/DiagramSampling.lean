import Crave.Foundation.DecisionDiagram
import Mathlib.Probability.Distributions.Uniform

/-!
# Sampling from a decision diagram

A random walk from the root takes each child with the share of the assignments that go
through it.  The variables that the walk skips are given a coin each.  What comes out is
uniformly distributed over the assignments that satisfy the diagram.
-/

namespace Crave
namespace Foundation

open scoped ENNReal

/-- A number below `n`, all of them equally likely. -/
noncomputable def uniformBelow (n : Nat) : PMF Nat :=
  if h : 0 < n then
    PMF.uniformOfFinset (Finset.range n) (Finset.nonempty_range_iff.mpr (Nat.ne_of_gt h))
  else
    pure 0

/-- A choice between two experiments, with the odds of a threshold. -/
theorem uniformBelow_bind_apply {α : Type} {n t : Nat} (hn : 0 < n) (ht : t ≤ n) (p q : PMF α)
    (a : α) :
    (uniformBelow n >>= fun select => if select < t then p else q) a =
      (t : ℝ≥0∞) / n * p a + ((n - t : Nat) : ℝ≥0∞) / n * q a := by
  have hsupport : forall k, k ∉ Finset.range n ->
      uniformBelow n k * (if k < t then p else q) a = 0 := by
    intro k hk
    rw [uniformBelow, dif_pos hn, PMF.uniformOfFinset_apply_of_notMem _ hk, zero_mul]
  have hterm : forall k, k ∈ Finset.range n ->
      uniformBelow n k * (if k < t then p else q) a =
        (n : ℝ≥0∞)⁻¹ * if k < t then p a else q a := by
    intro k hk
    rw [uniformBelow, dif_pos hn, PMF.uniformOfFinset_apply_of_mem _ hk, Finset.card_range]
    split <;> rfl
  have hlow : (Finset.range n).filter (fun k => k < t) = Finset.range t := by
    ext k
    simp only [Finset.mem_filter, Finset.mem_range]
    omega
  have hhigh : ((Finset.range n).filter (fun k => ¬ k < t)).card = n - t := by
    have hsplit := Finset.card_filter_add_card_filter_not (s := Finset.range n) (fun k => k < t)
    rw [hlow, Finset.card_range, Finset.card_range] at hsplit
    omega
  show (PMF.bind _ _) a = _
  rw [PMF.bind_apply, tsum_eq_sum hsupport, Finset.sum_congr rfl hterm, ← Finset.mul_sum,
    Finset.sum_ite, hlow, Finset.sum_const, Finset.sum_const, hhigh, Finset.card_range,
    nsmul_eq_mul, nsmul_eq_mul, ENNReal.div_eq_inv_mul, ENNReal.div_eq_inv_mul]
  ring

/-- All members of an image under a bijection are as likely as before. -/
theorem map_uniformOfFinset {α β : Type} (e : α ≃ β) {s : Finset α} (hs : s.Nonempty)
    (hmap : (s.map e.toEmbedding).Nonempty) :
    e <$> PMF.uniformOfFinset s hs = PMF.uniformOfFinset (s.map e.toEmbedding) hmap := by
  classical
  ext b
  have hmem : b ∈ s.map e.toEmbedding ↔ e.symm b ∈ s := Finset.mem_map_equiv
  show (PMF.map e _) b = _
  rw [PMF.map_apply, tsum_eq_single (e.symm b), if_pos (e.apply_symm_apply b).symm,
    PMF.uniformOfFinset_apply, PMF.uniformOfFinset_apply, Finset.card_map]
  · simp only [hmem]
  · intro a ha
    rw [if_neg]
    intro hb
    exact ha (hb ▸ (e.symm_apply_apply a).symm)

/-!
## Partial assignments
-/

section Partial

variable {n : Nat}

/-- The values that a walk leaves open are given by coins. -/
def fill (s : Nat -> Option Bool) (coins : Fin n -> Bool) : Fin n -> Bool :=
  fun i => (s i).getD (coins i)

noncomputable def completed (n : Nat) (s : Nat -> Option Bool) : PMF (Fin n -> Bool) :=
  (PMF.uniformOfFintype (Fin n -> Bool)).map (fill s)

theorem map_fill_permute (s : Nat -> Option Bool) (σ : Fin n ≃ Fin n) :
    (PMF.uniformOfFintype (Fin n -> Bool)).map (fun coins => fill s fun i => coins (σ i)) =
      completed n s := by
  have huniform : (PMF.uniformOfFintype (Fin n -> Bool)).map (fun coins i => coins (σ i)) =
      PMF.uniformOfFintype (Fin n -> Bool) := by
    have hmap := map_uniformOfFinset (Equiv.arrowCongr σ.symm (Equiv.refl Bool))
      (s := Finset.univ) Finset.univ_nonempty
    rw [Finset.map_univ_equiv] at hmap
    exact hmap Finset.univ_nonempty
  rw [completed]
  conv_rhs => rw [← huniform, PMF.map_comp]
  rfl

/-- The share of the coins for one variable that give it the value. -/
noncomputable def chance (value : Option Bool) (v : Bool) : ℝ≥0∞ :=
  match value with
  | none => 2⁻¹
  | some v' => if v' = v then 1 else 0

theorem chance_eq (value : Option Bool) (v : Bool) :
    chance value v = (({c | value.getD c = v} : Finset Bool).card : ℝ≥0∞) / 2 := by
  have htwo : (2 : ℝ≥0∞) / 2 = 1 := ENNReal.div_self (by norm_num) (by norm_num)
  cases value with
  | none =>
      have hcard : ({c | (none : Option Bool).getD c = v} : Finset Bool).card = 1 := by
        cases v <;> rfl
      rw [hcard, Nat.cast_one, one_div]
      rfl
  | some v' =>
      by_cases h : v' = v
      · have hcard : ({c | (some v').getD c = v} : Finset Bool).card = 2 := by
          subst h
          cases v' <;> rfl
        rw [hcard, chance, if_pos h]
        exact htwo.symm
      · have hcard : ({c | (some v').getD c = v} : Finset Bool).card = 0 := by
          cases v' <;> cases v <;> first | rfl | exact absurd rfl h
        rw [hcard, chance, if_neg h, Nat.cast_zero, ENNReal.zero_div]

theorem completed_apply (s : Nat -> Option Bool) (l : Fin n -> Bool) :
    completed n s l = ∏ i : Fin n, chance (s i) (l i) := by
  have hcoins : (Finset.univ.filter fun coins : Fin n -> Bool => l = fill s coins) =
      Fintype.piFinset fun i : Fin n => ({c | (s i).getD c = l i} : Finset Bool) := by
    ext coins
    simp only [Finset.mem_filter, Finset.mem_univ, true_and, Fintype.mem_piFinset, funext_iff,
      fill, eq_comm]
  have hcard : Fintype.card (Fin n -> Bool) = 2 ^ n := by simp
  rw [completed, PMF.map_apply, tsum_fintype]
  simp only [PMF.uniformOfFintype_apply, hcard]
  rw [← Finset.sum_filter, hcoins, Finset.sum_const, Fintype.card_piFinset, nsmul_eq_mul,
    Finset.prod_congr rfl fun (i : Fin n) _ => chance_eq (s i) (l i)]
  simp only [ENNReal.div_eq_inv_mul, Finset.prod_mul_distrib, Finset.prod_const, Finset.card_univ,
    Fintype.card_fin, Nat.cast_prod, Nat.cast_pow, Nat.cast_ofNat, ENNReal.inv_pow]
  rw [mul_comm]

theorem completed_none (l : Fin n -> Bool) :
    completed n (fun _ => none) l = (2 ^ n : ℝ≥0∞)⁻¹ := by
  rw [completed_apply]
  simp only [chance, Finset.prod_const, Finset.card_univ, Fintype.card_fin, ENNReal.inv_pow]

theorem completed_update {s : Nat -> Option Bool} {i : Nat} (hi : i < n) (hs : s i = none)
    (v : Bool) (l : Fin n -> Bool) :
    completed n (Function.update s i (some v)) l =
      if v = l ⟨i, hi⟩ then 2 * completed n s l else 0 := by
  have hrest : forall j, j ∈ ({⟨i, hi⟩} : Finset (Fin n))ᶜ ->
      chance (Function.update s i (some v) j) (l j) = chance (s j) (l j) := by
    intro j hj
    have hne : (j : Nat) ≠ i := by
      intro h
      apply Finset.mem_compl.mp hj
      rw [Finset.mem_singleton]
      exact Fin.ext h
    rw [Function.update_of_ne hne]
  rw [completed_apply, completed_apply, Fintype.prod_eq_mul_prod_compl ⟨i, hi⟩,
    Fintype.prod_eq_mul_prod_compl ⟨i, hi⟩ (fun j : Fin n => chance (s j) (l j)),
    Finset.prod_congr rfl hrest]
  simp only [Function.update_self, hs, chance]
  split
  · rw [one_mul, ← mul_assoc, ENNReal.mul_inv_cancel (by norm_num) (by norm_num), one_mul]
  · rw [zero_mul]

end Partial

/-!
## The walk
-/

namespace Diagram

variable {m : Type -> Type} [Monad m]

/-- The walk for the assignments that give the value, with a source of numbers below a
bound. -/
def sample (draw : Nat -> m Nat) (perm : Nat -> Nat) (size : Nat) :
    Bool -> Diagram -> (Nat -> Option Bool) -> m (Nat -> Option Bool)
  | _, one, s => pure s
  | b, node i T c E, s => do
      let select <- draw ((node i T c E).count perm size b)
      if select < T.count perm size b * 2 ^ (T.level perm size - perm i - 1) then
        sample draw perm size b T (Function.update s i (some true))
      else
        sample draw perm size (b ^^ c) E (Function.update s i (some false))

def extend {size : Nat} (l : Fin size -> Bool) : Nat -> Bool :=
  fun i => if h : i < size then l ⟨i, h⟩ else false

variable {perm : Nat -> Nat} {size : Nat} {draw : Nat -> PMF Nat}

/-- One branch of the walk: its share of the assignments, times what the rest of the walk
makes of it. -/
theorem share_mul {a n : ℝ≥0∞} (ha : a ≠ 0) (ha' : a ≠ ⊤) (k x : ℝ≥0∞) :
    a * k / n * (x / a) = x * k / n := by
  have hcancel : a * a⁻¹ = 1 := ENNReal.mul_inv_cancel ha ha'
  calc a * k / n * (x / a) = a * a⁻¹ * (x * k * n⁻¹) := by
        rw [div_eq_mul_inv, div_eq_mul_inv]
        ring
    _ = x * k / n := by rw [hcancel, one_mul, div_eq_mul_inv]

theorem count_le {d : Diagram} (h : d.Ordered perm size) (b : Bool) :
    d.count perm size b ≤ 2 ^ size := by
  have hsum := count_add h
  have hpow : 2 ^ (size - d.level perm size) ≤ 2 ^ size :=
    Nat.pow_le_pow_right Nat.two_pos (Nat.sub_le _ _)
  cases b with
  | false => omega
  | true => omega

theorem sample_completed_apply
    (hdraw : forall n, 0 < n -> n ≤ 2 ^ size -> draw n = uniformBelow n) {b : Bool} {d : Diagram}
    (hd : d.Ordered perm size) (hcount : d.count perm size b ≠ 0) {s : Nat -> Option Bool}
    (hs : forall i, i < size -> d.level perm size ≤ perm i -> s i = none)
    (l : Fin size -> Bool) :
    (sample draw perm size b d s >>= completed size) l =
      if d.eval (extend l) = b then
        completed size s l * 2 ^ (size - d.level perm size) / d.count perm size b
      else 0 := by
  induction d generalizing b s with
  | one =>
      have hb : b = true := by
        cases b with
        | true => rfl
        | false => exact absurd rfl hcount
      subst hb
      rw [sample, pure_bind, eval, if_pos rfl, count, level, Nat.sub_self, pow_zero, mul_one,
        if_pos rfl, Nat.cast_one, div_one]
  | node i T c E ihT ihE =>
      have hnode := hd
      rcases hd with ⟨hi, hT, hE, horderedT, horderedE⟩
      have hself : s i = none := hs i hi (Nat.le_refl _)
      -- below a child the variable of the node does not occur
      have hbelow : forall {child : Diagram} (v : Bool), perm i < child.level perm size ->
          forall j, j < size -> child.level perm size ≤ perm j ->
            Function.update s i (some v) j = none := by
        intro child v hlevel j hj hle
        have hne : j ≠ i := by
          intro heq
          subst heq
          exact absurd hlevel (Nat.not_lt.mpr hle)
        rw [Function.update_of_ne hne]
        exact hs j hj (Nat.le_of_lt (hlevel.trans_le hle))
      -- the share of a child, with the odds below the child
      have hbranch : forall {child : Diagram} (v value : Bool), child.Ordered perm size ->
          perm i < child.level perm size ->
          (child.count perm size value ≠ 0 ->
            (sample draw perm size value child (Function.update s i (some v)) >>=
              completed size) l =
              if child.eval (extend l) = value then
                completed size (Function.update s i (some v)) l *
                  2 ^ (size - child.level perm size) / child.count perm size value
              else 0) ->
          ((child.count perm size value * 2 ^ (child.level perm size - perm i - 1) : Nat) : ℝ≥0∞) /
              (node i T c E).count perm size b *
              (sample draw perm size value child (Function.update s i (some v)) >>=
                completed size) l =
            if v = l ⟨i, hi⟩ ∧ child.eval (extend l) = value then
              completed size s l * 2 ^ (size - perm i) / (node i T c E).count perm size b
            else 0 := by
        intro child v value hordered hlevel hodds
        have hpow : 2 ^ (size - child.level perm size) * 2 *
            2 ^ (child.level perm size - perm i - 1) = (2 ^ (size - perm i) : ℝ≥0∞) := by
          rw [← pow_succ, ← pow_add]
          congr 1
          have := hordered.level_le
          omega
        by_cases hzero : child.count perm size value = 0
        · have hne : ¬ (v = l ⟨i, hi⟩ ∧ child.eval (extend l) = value) := by
            rintro ⟨-, heval⟩
            exact absurd hzero (Nat.ne_of_gt (count_pos heval))
          rw [hzero, Nat.zero_mul, Nat.cast_zero, ENNReal.zero_div, zero_mul, if_neg hne]
        · rw [hodds hzero, completed_update hi hself]
          by_cases hv : v = l ⟨i, hi⟩
          · by_cases heval : child.eval (extend l) = value
            · rw [if_pos heval, if_pos hv, if_pos ⟨hv, heval⟩, Nat.cast_mul, share_mul
                (Nat.cast_ne_zero.mpr hzero) (ENNReal.natCast_ne_top _), ← hpow, Nat.cast_pow,
                Nat.cast_ofNat]
              congr 1
              ring
            · rw [if_neg heval, if_neg (fun h => heval h.2), mul_zero]
          · rw [if_neg hv, zero_mul, ENNReal.zero_div, ite_self, mul_zero, if_neg (fun h => hv h.1)]
      have hlT := hbranch true b horderedT hT
        (fun hne => ihT horderedT hne (hbelow true hT))
      have hlE := hbranch false (b ^^ c) horderedE hE
        (fun hne => ihE horderedE hne (hbelow false hE))
      have hrest : (node i T c E).count perm size b -
          T.count perm size b * 2 ^ (T.level perm size - perm i - 1) =
            E.count perm size (b ^^ c) * 2 ^ (E.level perm size - perm i - 1) := by
        rw [count, Nat.add_sub_cancel_left]
      have hpush : forall (p : Prop) [Decidable p] (x y : PMF (Nat -> Option Bool)),
          ((if p then x else y) >>= completed size) =
            if p then x >>= completed size else y >>= completed size := by
        intro p _ x y
        split <;> rfl
      rw [sample, bind_assoc]
      simp only [hpush]
      rw [hdraw _ (Nat.pos_of_ne_zero hcount) (count_le hnode b),
        uniformBelow_bind_apply (Nat.pos_of_ne_zero hcount) (Nat.le_add_right _ _), hrest, hlT, hlE]
      have hvalue : extend l i = l ⟨i, hi⟩ := dif_pos hi
      rw [eval, hvalue, level]
      cases l ⟨i, hi⟩ with
      | false =>
          have hflip : (c ^^ E.eval (extend l)) = b ↔ E.eval (extend l) = (b ^^ c) := by
            cases c <;> cases b <;> cases E.eval (extend l) <;> simp
          simp [hflip]
      | true => simp

/-- The assignments that give the edge the value true. -/
def Edge.models (size : Nat) (e : Edge) : Finset (Fin size -> Bool) :=
  Finset.univ.filter fun l => e.eval (extend l) = true

/-- The walk from an edge, for the assignments that satisfy it. -/
def Edge.sample (draw : Nat -> m Nat) (perm : Nat -> Nat) (size : Nat) (e : Edge) :
    m (Nat -> Option Bool) :=
  Diagram.sample draw perm size (!e.complement) e.regular fun _ => none

theorem Edge.eval_eq_true_iff (e : Edge) (ρ : Nat -> Bool) :
    e.eval ρ = true ↔ e.regular.eval ρ = !e.complement := by
  rw [Edge.eval]
  cases e.complement <;> cases e.regular.eval ρ <;> simp

theorem Edge.count_ne_zero {e : Edge} (hne : (e.models size).Nonempty) :
    e.regular.count perm size (!e.complement) ≠ 0 := by
  rcases hne with ⟨l, hl⟩
  rw [Edge.models, Finset.mem_filter, Edge.eval_eq_true_iff] at hl
  exact Nat.ne_of_gt (count_pos hl.2)

/-- All assignments that satisfy the diagram have the same odds. -/
theorem Edge.sample_completed_apply
    (hdraw : forall n, 0 < n -> n ≤ 2 ^ size -> draw n = uniformBelow n) {e : Edge}
    (he : e.regular.Ordered perm size) (hne : (e.models size).Nonempty) (l : Fin size -> Bool) :
    (e.sample draw perm size >>= completed size) l =
      if l ∈ e.models size then
        (2 ^ size : ℝ≥0∞)⁻¹ * 2 ^ (size - e.regular.level perm size) /
          e.regular.count perm size (!e.complement)
      else 0 := by
  have hmem : l ∈ e.models size ↔ e.regular.eval (extend l) = !e.complement := by
    rw [Edge.models, Finset.mem_filter, Edge.eval_eq_true_iff]
    exact and_iff_right (Finset.mem_univ l)
  rw [Edge.sample, Diagram.sample_completed_apply hdraw he (count_ne_zero hne) (fun _ _ _ => rfl),
    completed_none]
  simp only [hmem]

theorem Edge.card_mul_odds {e : Edge} (he : e.regular.Ordered perm size)
    (hne : (e.models size).Nonempty) :
    ((e.models size).card : ℝ≥0∞) *
      ((2 ^ size : ℝ≥0∞)⁻¹ * 2 ^ (size - e.regular.level perm size) /
        e.regular.count perm size (!e.complement)) = 1 := by
  have hsum := PMF.tsum_coe (e.sample uniformBelow perm size >>= completed size)
  rw [tsum_fintype,
    Finset.sum_congr rfl fun l _ => sample_completed_apply (fun _ _ _ => rfl) he hne l,
    ← Finset.sum_filter, Finset.filter_mem_eq_inter, Finset.univ_inter, Finset.sum_const,
    nsmul_eq_mul] at hsum
  exact hsum

/-- Every assignment that satisfies the diagram is equally likely, and no other one comes
out. -/
theorem Edge.sample_completed_eq_uniform
    (hdraw : forall n, 0 < n -> n ≤ 2 ^ size -> draw n = uniformBelow n) {e : Edge}
    (he : e.regular.Ordered perm size) (hne : (e.models size).Nonempty) :
    (e.sample draw perm size >>= completed size) =
      PMF.uniformOfFinset (e.models size) hne := by
  have hodds := ENNReal.eq_inv_of_mul_eq_one_left
    ((mul_comm _ _).trans (card_mul_odds he hne))
  ext l
  rw [sample_completed_apply hdraw he hne, PMF.uniformOfFinset_apply, hodds]
  split <;> rfl

end Diagram
end Foundation
end Crave
