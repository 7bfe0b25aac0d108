import Mathlib.Logic.Function.Basic
import Mathlib.Tactic.Ring

/-!
# Decision diagrams with complemented edges

Ordered diagrams with one leaf.  The edge to the child for false may be complemented, and
so may the edge to the root.  The position of a variable in the order is its level; the
order is any permutation of the variables.
-/

namespace Crave
namespace Foundation

inductive Diagram where
  | one
  | node (index : Nat) (T : Diagram) (complement : Bool) (E : Diagram)
deriving DecidableEq, Repr

namespace Diagram

def eval (ρ : Nat -> Bool) : Diagram -> Bool
  | one => true
  | node i T c E => if ρ i then T.eval ρ else c ^^ E.eval ρ

/-- The leaf lies below all variables. -/
def level (perm : Nat -> Nat) (size : Nat) : Diagram -> Nat
  | one => size
  | node i _ _ _ => perm i

/-- The levels grow on the way down. -/
def Ordered (perm : Nat -> Nat) (size : Nat) : Diagram -> Prop
  | one => True
  | node i T _ E =>
      i < size ∧ perm i < T.level perm size ∧ perm i < E.level perm size ∧
        T.Ordered perm size ∧ E.Ordered perm size

/-- No node has the same child on both sides. -/
def Reduced : Diagram -> Prop
  | one => True
  | node _ T c E => ¬ (c = false ∧ T = E) ∧ T.Reduced ∧ E.Reduced

instance (perm : Nat -> Nat) (size : Nat) : (d : Diagram) -> Decidable (d.Ordered perm size)
  | one => inferInstanceAs (Decidable True)
  | node i T _ E =>
      have : Decidable (T.Ordered perm size) := instDecidableOrdered perm size T
      have : Decidable (E.Ordered perm size) := instDecidableOrdered perm size E
      inferInstanceAs (Decidable (i < size ∧ perm i < T.level perm size ∧
        perm i < E.level perm size ∧ T.Ordered perm size ∧ E.Ordered perm size))

instance : (d : Diagram) -> Decidable d.Reduced
  | one => inferInstanceAs (Decidable True)
  | node _ T c E =>
      have : Decidable T.Reduced := instDecidableReduced T
      have : Decidable E.Reduced := instDecidableReduced E
      inferInstanceAs (Decidable (¬ (c = false ∧ T = E) ∧ T.Reduced ∧ E.Reduced))

/-- The number of assignments of the variables from the level of the root on that give
the value. -/
def count (perm : Nat -> Nat) (size : Nat) (b : Bool) : Diagram -> Nat
  | one => if b then 1 else 0
  | node i T c E =>
      T.count perm size b * 2 ^ (T.level perm size - perm i - 1) +
        E.count perm size (b ^^ c) * 2 ^ (E.level perm size - perm i - 1)

section Ordered

variable {perm : Nat -> Nat} {size : Nat}

theorem Ordered.level_le {d : Diagram} (h : d.Ordered perm size) : d.level perm size ≤ size := by
  induction d with
  | one => exact Nat.le_refl size
  | node i T c E ihT ihE =>
      rcases h with ⟨-, hT, -, horderedT, -⟩
      exact Nat.le_of_lt (Nat.lt_of_lt_of_le hT (ihT horderedT))

theorem eval_congr {d : Diagram} (h : d.Ordered perm size) {ρ ρ' : Nat -> Bool}
    (hρ : forall i, i < size -> d.level perm size ≤ perm i -> ρ i = ρ' i) :
    d.eval ρ = d.eval ρ' := by
  induction d with
  | one => rfl
  | node i T c E ihT ihE =>
      rcases h with ⟨hi, hT, hE, horderedT, horderedE⟩
      have hself : ρ i = ρ' i := hρ i hi (Nat.le_refl _)
      have hrestT := ihT horderedT fun j hj hlevel => hρ j hj (Nat.le_of_lt (hT.trans_le hlevel))
      have hrestE := ihE horderedE fun j hj hlevel => hρ j hj (Nat.le_of_lt (hE.trans_le hlevel))
      rw [eval, eval, hself, hrestT, hrestE]

theorem eval_update {d : Diagram} (h : d.Ordered perm size) {i : Nat}
    (hi : perm i < d.level perm size) (ρ : Nat -> Bool) (v : Bool) :
    d.eval (Function.update ρ i v) = d.eval ρ := by
  apply eval_congr h
  intro j _ hlevel
  have hne : j ≠ i := by
    intro heq
    subst heq
    exact absurd hi (Nat.not_lt.mpr hlevel)
  rw [Function.update_of_ne hne]

theorem eval_cofactors {i : Nat} {T E : Diagram} {c : Bool}
    (h : (node i T c E).Ordered perm size) (ρ : Nat -> Bool) :
    (node i T c E).eval (Function.update ρ i true) = T.eval ρ ∧
      (node i T c E).eval (Function.update ρ i false) = (c ^^ E.eval ρ) := by
  rcases h with ⟨-, hT, hE, horderedT, horderedE⟩
  constructor
  · rw [eval, Function.update_self, if_pos rfl, eval_update horderedT hT]
  · rw [eval, Function.update_self, if_neg Bool.false_ne_true, eval_update horderedE hE]

end Ordered

/-!
## Canonicity

The edges to the children for true are never complemented, so that a diagram is true where
all variables are, and two diagrams are never each other's complement.
-/

theorem eval_all_true (d : Diagram) : d.eval (fun _ => true) = true := by
  induction d with
  | one => rfl
  | node i T c E ihT ihE => exact ihT

section Canonical

variable {perm : Nat -> Nat} {size : Nat}

/-- A complemented edge gives another function than a regular one. -/
theorem complement_eq {c c' : Bool} {d d' : Diagram}
    (h : forall ρ, (c ^^ d.eval ρ) = (c' ^^ d'.eval ρ)) :
    c = c' ∧ forall ρ, d.eval ρ = d'.eval ρ := by
  have hc : c = c' := by
    have htrue := h fun _ => true
    rw [eval_all_true, eval_all_true] at htrue
    exact Bool.xor_left_inj.mp htrue
  subst hc
  exact ⟨rfl, fun ρ => Bool.xor_right_inj.mp (h ρ)⟩

/-- A function that does not look at the variable of a reduced node is not that of the
node. -/
theorem children_eq {i : Nat} {T E d : Diagram} {c : Bool}
    (h : (node i T c E).Ordered perm size) (hd : d.Ordered perm size)
    (hi : perm i < d.level perm size) (heval : forall ρ, (node i T c E).eval ρ = d.eval ρ) :
    c = false ∧ (forall ρ, T.eval ρ = d.eval ρ) ∧ forall ρ, E.eval ρ = d.eval ρ := by
  have hT : forall ρ, T.eval ρ = d.eval ρ := by
    intro ρ
    rw [← (eval_cofactors h ρ).1, heval, eval_update hd hi]
  have hE : forall ρ, (c ^^ E.eval ρ) = (false ^^ d.eval ρ) := by
    intro ρ
    rw [← (eval_cofactors h ρ).2, heval, eval_update hd hi, Bool.false_xor]
  rcases complement_eq hE with ⟨hc, hE⟩
  exact ⟨hc, hT, hE⟩

theorem eq_of_eval_eq (hperm : Function.Injective perm) {d d' : Diagram}
    (hd : d.Ordered perm size) (hd' : d'.Ordered perm size) (hr : d.Reduced) (hr' : d'.Reduced)
    (heval : forall ρ, d.eval ρ = d'.eval ρ) : d = d' := by
  induction d generalizing d' with
  | one =>
      induction d' with
      | one => rfl
      | node j T c E ihT ihE =>
          rcases hd' with ⟨hj, hT, hE, horderedT, horderedE⟩
          rcases hr' with ⟨hne, hrT, hrE⟩
          have hlow : perm j < Diagram.one.level perm size :=
            Nat.lt_of_lt_of_le hT horderedT.level_le
          rcases children_eq ⟨hj, hT, hE, horderedT, horderedE⟩ hd hlow fun ρ => (heval ρ).symm with
            ⟨hc, hevalT, hevalE⟩
          have heqT := ihT horderedT hrT fun ρ => (hevalT ρ).symm
          have heqE := ihE horderedE hrE fun ρ => (hevalE ρ).symm
          exact absurd ⟨hc, heqT.symm.trans heqE⟩ hne
  | node i T c E ihT ihE =>
      have hnode := hd
      rcases hd with ⟨hi, hT, hE, horderedT, horderedE⟩
      have hrnode := hr
      rcases hr with ⟨hne, hrT, hrE⟩
      induction d' with
      | one =>
          have hlow : perm i < Diagram.one.level perm size :=
            Nat.lt_of_lt_of_le hT horderedT.level_le
          rcases children_eq hnode hd' hlow heval with ⟨hc, hevalT, hevalE⟩
          have heqT := ihT horderedT hd' hrT hr' hevalT
          have heqE := ihE horderedE hd' hrE hr' hevalE
          exact absurd ⟨hc, heqT.trans heqE.symm⟩ hne
      | node j T' c' E' ihT' ihE' =>
          have hnode' := hd'
          rcases hd' with ⟨hj, hT', hE', horderedT', horderedE'⟩
          have hrnode' := hr'
          rcases hr' with ⟨hne', hrT', hrE'⟩
          rcases Nat.lt_trichotomy (perm i) (perm j) with hlt | heq | hgt
          · rcases children_eq hnode hnode' hlt heval with ⟨hc, hevalT, hevalE⟩
            have heqT := ihT horderedT hnode' hrT hrnode' hevalT
            have heqE := ihE horderedE hnode' hrE hrnode' hevalE
            exact absurd ⟨hc, heqT.trans heqE.symm⟩ hne
          · have hij : i = j := hperm heq
            subst hij
            have hevalT : forall ρ, T.eval ρ = T'.eval ρ := by
              intro ρ
              rw [← (eval_cofactors hnode ρ).1, ← (eval_cofactors hnode' ρ).1, heval]
            have hevalE : forall ρ, (c ^^ E.eval ρ) = (c' ^^ E'.eval ρ) := by
              intro ρ
              rw [← (eval_cofactors hnode ρ).2, ← (eval_cofactors hnode' ρ).2, heval]
            rcases complement_eq hevalE with ⟨hc, hevalE⟩
            rw [ihT horderedT horderedT' hrT hrT' hevalT, hc,
              ihE horderedE horderedE' hrE hrE' hevalE]
          · rcases children_eq hnode' hnode hgt fun ρ => (heval ρ).symm with
              ⟨hc, hevalT, hevalE⟩
            have heqT := ihT' horderedT' hrT' fun ρ => (hevalT ρ).symm
            have heqE := ihE' horderedE' hrE' fun ρ => (hevalE ρ).symm
            exact absurd ⟨hc, heqT.symm.trans heqE⟩ hne'

end Canonical

/-!
## The variables of a diagram
-/

section Support

variable {perm : Nat -> Nat} {size size' : Nat}

theorem Ordered.mono (hsize : size ≤ size') {d : Diagram} (h : d.Ordered perm size) :
    d.Ordered perm size' := by
  have hlevel : forall d : Diagram, d.level perm size ≤ d.level perm size' := by
    intro d
    cases d with
    | one => exact hsize
    | node i T c E => exact Nat.le_refl _
  induction d with
  | one => trivial
  | node i T c E ihT ihE =>
      rcases h with ⟨hi, hT, hE, horderedT, horderedE⟩
      exact ⟨Nat.lt_of_lt_of_le hi hsize, Nat.lt_of_lt_of_le hT (hlevel T),
        Nat.lt_of_lt_of_le hE (hlevel E), ihT horderedT, ihE horderedE⟩

/-- A reduced diagram has no other variables than those that its function looks at. -/
theorem Ordered.restrict (hperm : Function.Injective perm)
    (hlow : forall i, i < size -> perm i < size) {d : Diagram} (h : d.Ordered perm size')
    (hr : d.Reduced)
    (hlocal : forall ρ ρ' : Nat -> Bool, (forall i, i < size -> ρ i = ρ' i) ->
      d.eval ρ = d.eval ρ') : d.Ordered perm size := by
  induction d with
  | one => trivial
  | node i T c E ihT ihE =>
      have hnode := h
      rcases h with ⟨-, hT, hE, horderedT, horderedE⟩
      rcases hr with ⟨hne, hrT, hrE⟩
      have hupdate : forall (v : Bool) (ρ ρ' : Nat -> Bool), (forall j, j < size -> ρ j = ρ' j) ->
          (node i T c E).eval (Function.update ρ i v) =
            (node i T c E).eval (Function.update ρ' i v) := by
        intro v ρ ρ' hρ
        apply hlocal
        intro j hj
        by_cases hji : j = i
        · subst hji
          rw [Function.update_self, Function.update_self]
        · rw [Function.update_of_ne hji, Function.update_of_ne hji, hρ j hj]
      -- without the variable both children have one function, and are equal
      have hi : i < size := by
        by_contra hi
        have hsame : forall ρ, (false ^^ T.eval ρ) = (c ^^ E.eval ρ) := by
          intro ρ
          rw [Bool.false_xor, ← (eval_cofactors hnode ρ).1, ← (eval_cofactors hnode ρ).2]
          apply hlocal
          intro j hj
          have hji : j ≠ i := fun heq => hi (heq ▸ hj)
          rw [Function.update_of_ne hji, Function.update_of_ne hji]
        rcases complement_eq hsame with ⟨hc, heval⟩
        exact hne ⟨hc.symm, eq_of_eval_eq hperm horderedT horderedE hrT hrE heval⟩
      have horderedT' : T.Ordered perm size := by
        apply ihT horderedT hrT
        intro ρ ρ' hρ
        rw [← (eval_cofactors hnode ρ).1, ← (eval_cofactors hnode ρ').1]
        exact hupdate true ρ ρ' hρ
      have horderedE' : E.Ordered perm size := by
        apply ihE horderedE hrE
        intro ρ ρ' hρ
        have hxor := hupdate false ρ ρ' hρ
        rw [(eval_cofactors hnode ρ).2, (eval_cofactors hnode ρ').2] at hxor
        exact Bool.xor_right_inj.mp hxor
      have hlevel : forall child : Diagram, perm i < child.level perm size' ->
          perm i < child.level perm size := by
        intro child hchild
        cases child with
        | one => exact hlow i hi
        | node j T' c' E' => exact hchild
      exact ⟨hi, hlevel T hT, hlevel E hE, horderedT', horderedE'⟩

end Support

/-!
## Edges to the root
-/

structure Edge where
  complement : Bool
  regular : Diagram
deriving DecidableEq, Repr

namespace Edge

def zero : Edge :=
  { complement := true, regular := .one }

def one : Edge :=
  { complement := false, regular := .one }

def eval (ρ : Nat -> Bool) (e : Edge) : Bool :=
  e.complement ^^ e.regular.eval ρ

/-- The diagrams that a manager with the given order hands out. -/
structure WellFormed (perm : Nat -> Nat) (size : Nat) (e : Edge) : Prop where
  ordered : e.regular.Ordered perm size
  reduced : e.regular.Reduced

variable {perm : Nat -> Nat} {size : Nat} {e e' : Edge}

theorem eq_of_eval_eq (hperm : Function.Injective perm) (h : e.WellFormed perm size)
    (h' : e'.WellFormed perm size) (heval : forall ρ, e.eval ρ = e'.eval ρ) : e = e' := by
  rcases e with ⟨c, d⟩
  rcases e' with ⟨c', d'⟩
  rcases complement_eq heval with ⟨hc, hd⟩
  have heq := Diagram.eq_of_eval_eq hperm h.ordered h'.ordered h.reduced h'.reduced hd
  exact Edge.mk.injEq _ _ _ _ ▸ ⟨hc, heq⟩

theorem WellFormed.mono {size' : Nat} (hsize : size ≤ size') (h : e.WellFormed perm size) :
    e.WellFormed perm size' :=
  ⟨h.ordered.mono hsize, h.reduced⟩

theorem WellFormed.restrict {size' : Nat} (hperm : Function.Injective perm)
    (hlow : forall i, i < size -> perm i < size) (h : e.WellFormed perm size')
    (hlocal : forall ρ ρ' : Nat -> Bool, (forall i, i < size -> ρ i = ρ' i) ->
      e.eval ρ = e.eval ρ') : e.WellFormed perm size := by
  refine ⟨h.ordered.restrict hperm hlow h.reduced ?_, h.reduced⟩
  intro ρ ρ' hρ
  exact Bool.xor_right_inj.mp (hlocal ρ ρ' hρ)

theorem ne_zero_iff (hperm : Function.Injective perm) (h : e.WellFormed perm size) :
    e ≠ zero ↔ exists ρ, e.eval ρ = true := by
  constructor
  · intro hne
    by_contra hnone
    apply hne
    refine eq_of_eval_eq hperm h ⟨trivial, trivial⟩ ?_
    intro ρ
    have hfalse : e.eval ρ = false := by
      rw [← Bool.not_eq_true]
      exact fun htrue => hnone ⟨ρ, htrue⟩
    rw [hfalse]
    rfl
  · rintro ⟨ρ, htrue⟩ heq
    subst heq
    cases htrue

end Edge

/-!
## Counts
-/

section Count

variable {perm : Nat -> Nat} {size : Nat}

theorem count_add {d : Diagram} (h : d.Ordered perm size) :
    d.count perm size true + d.count perm size false = 2 ^ (size - d.level perm size) := by
  induction d with
  | one => simp [count, level]
  | node i T c E ihT ihE =>
      rcases h with ⟨-, hT, hE, horderedT, horderedE⟩
      have hsumT := ihT horderedT
      have hsumE : E.count perm size (true ^^ c) + E.count perm size (false ^^ c) =
          2 ^ (size - E.level perm size) := by
        cases c with
        | false => exact ihE horderedE
        | true => rw [Nat.add_comm]; exact ihE horderedE
      have hpow : forall {l : Nat}, perm i < l -> l ≤ size ->
          2 ^ (size - perm i) = 2 * (2 ^ (size - l) * 2 ^ (l - perm i - 1)) := by
        intro l hl hle
        rw [← Nat.pow_add, ← Nat.pow_succ']
        congr 1
        omega
      have hpowT := hpow hT horderedT.level_le
      have hpowE := hpow hE horderedE.level_le
      have hsplit : forall a b a' b' k k' : Nat,
          a * k + b * k' + (a' * k + b' * k') = (a + a') * k + (b + b') * k' := by
        intro a b a' b' k k'
        ring
      rw [count, count, hsplit, hsumT, hsumE]
      show _ = 2 ^ (size - perm i)
      omega

theorem count_pos {d : Diagram} {ρ : Nat -> Bool} {b : Bool} (h : d.eval ρ = b) :
    0 < d.count perm size b := by
  induction d generalizing b with
  | one =>
      rw [← h]
      exact Nat.one_pos
  | node i T c E ihT ihE =>
      rw [eval] at h
      rw [count]
      split at h
      · exact Nat.add_pos_left (Nat.mul_pos (ihT h) (Nat.two_pow_pos _)) _
      · have hE : E.eval ρ = (b ^^ c) := by
          rw [← h, Bool.xor_comm c, Bool.xor_assoc, Bool.xor_self, Bool.xor_false]
        exact Nat.add_pos_right _ (Nat.mul_pos (ihE hE) (Nat.two_pow_pos _))

/-- A diagram that is not constant takes each value fewer times than there are
assignments. -/
theorem count_lt (hperm : Function.Injective perm) {i : Nat} {T E : Diagram} {c : Bool}
    (h : (node i T c E).Ordered perm size) (hr : (node i T c E).Reduced) (b : Bool) :
    (node i T c E).count perm size b < 2 ^ (size - perm i) := by
  have hsum : _ = 2 ^ (size - perm i) := count_add h
  have htrue : 0 < (node i T c E).count perm size true := count_pos (eval_all_true _)
  have hfalse : 0 < (node i T c E).count perm size false := by
    have hne : (Edge.mk true (node i T c E)) ≠ Edge.zero := by
      intro heq
      cases congrArg Edge.regular heq
    rcases (Edge.ne_zero_iff hperm ⟨h, hr⟩).mp hne with ⟨ρ, hρ⟩
    have heval : (node i T c E).eval ρ = false := by
      cases hvalue : (node i T c E).eval ρ with
      | false => rfl
      | true =>
          rw [Edge.eval, hvalue] at hρ
          cases hρ
    exact count_pos heval
  cases b with
  | false => omega
  | true => omega

end Count

end Diagram
end Foundation
end Crave
