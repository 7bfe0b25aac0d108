import Crave.Foundation.SizedBits

/-!
# Quantifier-free bit-vector terms

Terms over named bit-vector variables, as a solver front end builds them.  The
widths are not part of the type of a term: a term whose operands do not fit
together has no width and no value.  Predicates are bit-vectors of width one.
-/

namespace Crave
namespace Foundation

inductive UnaryTag where
  | not
  | bvnot
  | bvneg
deriving DecidableEq, Repr

inductive BinaryTag where
  | and
  | or
  | implies
  | equal
  | nequal
  | bvand
  | bvor
  | bvxor
  | bvadd
  | bvsub
  | bvmul
  | bvudiv
  | bvurem
  | bvsdiv
  | bvsrem
  | bvshl
  | bvshr
  | bvslt
  | bvsle
  | bvsgt
  | bvsge
  | bvult
  | bvule
  | bvugt
  | bvuge
deriving DecidableEq, Repr

def UnaryTag.apply {w : Nat} : UnaryTag -> BitVec w -> BitVec w
  | not, x => ~~~x
  | bvnot, x => ~~~x
  | bvneg, x => -x

def BinaryTag.apply {w : Nat} : BinaryTag -> BitVec w -> BitVec w -> SizedBits
  | and, x, y => { width := w, bits := x &&& y }
  | or, x, y => { width := w, bits := x ||| y }
  | implies, x, y => { width := w, bits := ~~~x ||| y }
  | equal, x, y => SizedBits.ofBool (x == y)
  | nequal, x, y => SizedBits.ofBool (x != y)
  | bvand, x, y => { width := w, bits := x &&& y }
  | bvor, x, y => { width := w, bits := x ||| y }
  | bvxor, x, y => { width := w, bits := x ^^^ y }
  | bvadd, x, y => { width := w, bits := x + y }
  | bvsub, x, y => { width := w, bits := x - y }
  | bvmul, x, y => { width := w, bits := x * y }
  | bvudiv, x, y => { width := w, bits := BitVec.smtUDiv x y }
  | bvurem, x, y => { width := w, bits := BitVec.umod x y }
  | bvsdiv, x, y => { width := w, bits := BitVec.smtSDiv x y }
  | bvsrem, x, y => { width := w, bits := BitVec.srem x y }
  | bvshl, x, y => { width := w, bits := x <<< y }
  | bvshr, x, y => { width := w, bits := x >>> y }
  | bvslt, x, y => SizedBits.ofBool (x.slt y)
  | bvsle, x, y => SizedBits.ofBool (x.sle y)
  | bvsgt, x, y => SizedBits.ofBool (y.slt x)
  | bvsge, x, y => SizedBits.ofBool (y.sle x)
  | bvult, x, y => SizedBits.ofBool (x.ult y)
  | bvule, x, y => SizedBits.ofBool (x.ule y)
  | bvugt, x, y => SizedBits.ofBool (y.ult x)
  | bvuge, x, y => SizedBits.ofBool (y.ule x)

/-- The comparisons answer with one bit, every other operation keeps the width. -/
def BinaryTag.width : BinaryTag -> Nat -> Nat
  | equal, _ => 1
  | nequal, _ => 1
  | bvslt, _ => 1
  | bvsle, _ => 1
  | bvsgt, _ => 1
  | bvsge, _ => 1
  | bvult, _ => 1
  | bvule, _ => 1
  | bvugt, _ => 1
  | bvuge, _ => 1
  | _, w => w

@[simp] theorem BinaryTag.width_apply {w : Nat} (tag : BinaryTag)
    (x y : BitVec w) : (tag.apply x y).width = tag.width w := by
  cases tag <;> rfl

namespace SizedBits

def unary (tag : UnaryTag) (x : SizedBits) : SizedBits :=
  { width := x.width, bits := tag.apply x.bits }

/-- A binary operation is only defined on operands of one width. -/
def binary (tag : BinaryTag) (x y : SizedBits) : Option SizedBits :=
  if h : y.width = x.width then
    some (tag.apply x.bits (y.bits.cast h))
  else
    none

def extract (hi lo : Nat) (x : SizedBits) : Option SizedBits :=
  if lo ≤ hi ∧ hi < x.width then
    some { width := hi - lo + 1, bits := x.bits.extractLsb hi lo }
  else
    none

def ite (c x y : SizedBits) : Option SizedBits :=
  if c.width = 1 ∧ x.width = y.width then
    some (if c = ofBool true then x else y)
  else
    none

@[simp] theorem binary_mk {w : Nat} (tag : BinaryTag) (x y : BitVec w) :
    binary tag ⟨w, x⟩ ⟨w, y⟩ = some (tag.apply x y) := by
  simp [binary]

theorem binary_eq_none {tag : BinaryTag} {x y : SizedBits}
    (h : y.width ≠ x.width) : binary tag x y = none := by
  simp [binary, h]

theorem map_width_binary (tag : BinaryTag) (x y : SizedBits) :
    (binary tag x y).map SizedBits.width =
      if y.width = x.width then some (tag.width x.width) else none := by
  unfold binary
  by_cases h : y.width = x.width
  · simp [h]
  · simp [h]

end SizedBits

inductive Term (name : Type) where
  | var (v : name) (width : Nat)
  | const (x : SizedBits)
  | unary (tag : UnaryTag) (t : Term name)
  | binary (tag : BinaryTag) (s t : Term name)
  | zeroExtend (n : Nat) (t : Term name)
  | signExtend (n : Nat) (t : Term name)
  | extract (hi lo : Nat) (t : Term name)
  | ite (c t e : Term name)
deriving DecidableEq, Repr

/-- A model gives every variable a number, of which a variable of width `w`
takes the low `w` bits. -/
abbrev Model (name : Type) := name -> Nat

namespace Term

variable {name : Type}

def true : Term name :=
  const (SizedBits.ofBool Bool.true)

def false : Term name :=
  const (SizedBits.ofBool Bool.false)

def eval (m : Model name) : Term name -> Option SizedBits
  | var v w => some { width := w, bits := BitVec.ofNat w (m v) }
  | const x => some x
  | unary tag t => (t.eval m).map (SizedBits.unary tag)
  | binary tag s t =>
      match s.eval m, t.eval m with
      | some x, some y => SizedBits.binary tag x y
      | _, _ => none
  | zeroExtend n t => (t.eval m).map (SizedBits.zeroExtend n)
  | signExtend n t => (t.eval m).map (SizedBits.signExtend n)
  | extract hi lo t =>
      match t.eval m with
      | some x => SizedBits.extract hi lo x
      | none => none
  | ite c t e =>
      match c.eval m, t.eval m, e.eval m with
      | some x, some y, some z => SizedBits.ite x y z
      | _, _, _ => none

/-- The width of a term whose operands all fit together. -/
def width : Term name -> Option Nat
  | var _ w => some w
  | const x => some x.width
  | unary _ t => t.width
  | binary tag s t =>
      match s.width, t.width with
      | some w, some w' => if w' = w then some (tag.width w) else none
      | _, _ => none
  | zeroExtend n t => t.width.map (· + n)
  | signExtend n t => t.width.map (· + n)
  | extract hi lo t =>
      match t.width with
      | some w => if lo ≤ hi ∧ hi < w then some (hi - lo + 1) else none
      | none => none
  | ite c t e =>
      match c.width, t.width, e.width with
      | some w, some w', some w'' =>
          if w = 1 ∧ w' = w'' then some w' else none
      | _, _, _ => none

/-- The variables of a term, each with the width it is read with. -/
def atoms : Term name -> List (name × Nat)
  | var v w => [(v, w)]
  | const _ => []
  | unary _ t => t.atoms
  | binary _ s t => s.atoms ++ t.atoms
  | zeroExtend _ t => t.atoms
  | signExtend _ t => t.atoms
  | extract _ _ t => t.atoms
  | ite c t e => c.atoms ++ t.atoms ++ e.atoms

/-!
## Widths and values

A term has a value in a model exactly when it has a width, so whether a value
exists does not depend on the model.
-/

theorem map_width_eval (m : Model name) (t : Term name) :
    (t.eval m).map SizedBits.width = t.width := by
  induction t with
  | var v w => rfl
  | const x => rfl
  | unary tag t ih =>
      simp only [eval, width, Option.map_map, ← ih]
      rfl
  | binary tag s t ihs iht =>
      simp only [eval, width, ← ihs, ← iht]
      cases s.eval m with
      | none => rfl
      | some x =>
          cases t.eval m with
          | none => rfl
          | some y => exact SizedBits.map_width_binary tag x y
  | zeroExtend n t ih =>
      simp only [eval, width, Option.map_map, ← ih]
      rfl
  | signExtend n t ih =>
      simp only [eval, width, Option.map_map, ← ih]
      rfl
  | extract hi lo t ih =>
      simp only [eval, width, ← ih]
      cases t.eval m with
      | none => rfl
      | some x =>
          simp only [Option.map_some, SizedBits.extract]
          split <;> rfl
  | ite c t e ihc iht ihe =>
      simp only [eval, width, ← ihc, ← iht, ← ihe]
      cases c.eval m with
      | none => rfl
      | some x =>
          cases t.eval m with
          | none => rfl
          | some y =>
              cases e.eval m with
              | none => rfl
              | some z =>
                  simp only [Option.map_some, SizedBits.ite]
                  by_cases h : x.width = 1 ∧ y.width = z.width
                  · rw [if_pos h, if_pos h]
                    by_cases hx : x = SizedBits.ofBool Bool.true
                    · simp [hx]
                    · simp [hx, h.2]
                  · rw [if_neg h, if_neg h]
                    rfl

/-- Every operation that needs operands of one width has them. -/
def OperandsMeet : Term name -> Prop
  | var _ _ => True
  | const _ => True
  | unary _ t => t.OperandsMeet
  | binary _ s t => s.OperandsMeet ∧ t.OperandsMeet ∧ s.width = t.width
  | zeroExtend _ t => t.OperandsMeet
  | signExtend _ t => t.OperandsMeet
  | extract _ _ t => t.OperandsMeet
  | ite c t e =>
      c.OperandsMeet ∧ t.OperandsMeet ∧ e.OperandsMeet ∧ t.width = e.width

theorem operandsMeet_of_width {t : Term name} {w : Nat} (h : t.width = some w) :
    t.OperandsMeet := by
  induction t generalizing w with
  | var v w => trivial
  | const x => trivial
  | unary tag t ih => exact ih h
  | binary tag s t ihs iht =>
      simp only [width] at h
      split at h
      · rename_i ws wt hs ht
        split at h
        · rename_i hw
          exact ⟨ihs hs, iht ht, by rw [hs, ht, hw]⟩
        · cases h
      · cases h
  | zeroExtend n t ih =>
      rcases Option.map_eq_some_iff.mp h with ⟨w', hw', -⟩
      exact ih hw'
  | signExtend n t ih =>
      rcases Option.map_eq_some_iff.mp h with ⟨w', hw', -⟩
      exact ih hw'
  | extract hi lo t ih =>
      simp only [width] at h
      split at h
      · rename_i w' hw'
        exact ih hw'
      · cases h
  | ite c t e ihc iht ihe =>
      simp only [width] at h
      split at h
      · rename_i wc wt we hc ht he
        split at h
        · rename_i hw
          exact ⟨ihc hc, iht ht, ihe he, by rw [ht, he, hw.2]⟩
        · cases h
      · cases h

/-- Two models that agree on the bits of a variable at width `w`. -/
def AgreeAt (m m' : Model name) (v : name) (w : Nat) : Prop :=
  BitVec.ofNat w (m v) = BitVec.ofNat w (m' v)

theorem eval_congr {m m' : Model name} {t : Term name}
    (h : forall v w, (v, w) ∈ t.atoms -> AgreeAt m m' v w) : t.eval m = t.eval m' := by
  induction t with
  | var v w =>
      have hv : BitVec.ofNat w (m v) = BitVec.ofNat w (m' v) :=
        h v w (List.mem_singleton.mpr rfl)
      simp only [eval, hv]
  | const x => rfl
  | unary tag t ih => simp only [eval, ih h]
  | binary tag s t ihs iht =>
      have hs := ihs fun v w hv => h v w (List.mem_append_left _ hv)
      have ht := iht fun v w hv => h v w (List.mem_append_right _ hv)
      simp only [eval, hs, ht]
  | zeroExtend n t ih => simp only [eval, ih h]
  | signExtend n t ih => simp only [eval, ih h]
  | extract hi lo t ih => simp only [eval, ih h]
  | ite c t e ihc iht ihe =>
      have hc := ihc fun v w hv =>
        h v w (List.mem_append_left _ (List.mem_append_left _ hv))
      have ht := iht fun v w hv =>
        h v w (List.mem_append_left _ (List.mem_append_right _ hv))
      have he := ihe fun v w hv => h v w (List.mem_append_right _ hv)
      simp only [eval, hc, ht, he]

/-!
## Satisfaction
-/

/-- A formula holds when it evaluates to the single bit one.  A term without a
width holds in no model. -/
def Holds (m : Model name) (t : Term name) : Prop :=
  t.eval m = some (SizedBits.ofBool Bool.true)

instance (m : Model name) (t : Term name) : Decidable (Holds m t) :=
  inferInstanceAs (Decidable (_ = _))

def Satisfies (m : Model name) (ts : List (Term name)) : Prop :=
  forall t, t ∈ ts -> Holds m t

instance (m : Model name) (ts : List (Term name)) : Decidable (Satisfies m ts) :=
  inferInstanceAs (Decidable (forall t, t ∈ ts -> Holds m t))

def Satisfiable (ts : List (Term name)) : Prop :=
  exists m : Model name, Satisfies m ts

theorem holds_congr {m m' : Model name} {t : Term name}
    (h : forall v w, (v, w) ∈ t.atoms -> AgreeAt m m' v w) : Holds m t ↔ Holds m' t := by
  unfold Holds
  rw [eval_congr h]

theorem satisfies_append (m : Model name) (ss ts : List (Term name)) :
    Satisfies m (ss ++ ts) ↔ Satisfies m ss ∧ Satisfies m ts := by
  simp only [Satisfies, List.mem_append]
  constructor
  · intro h
    exact ⟨fun t ht => h t (Or.inl ht), fun t ht => h t (Or.inr ht)⟩
  · rintro ⟨hs, ht⟩ t (h | h)
    · exact hs t h
    · exact ht t h

theorem Satisfies.mono {m : Model name} {ss ts : List (Term name)}
    (h : Satisfies m ts) (hsub : forall t, t ∈ ss -> t ∈ ts) : Satisfies m ss :=
  fun t ht => h t (hsub t ht)

theorem Satisfiable.mono {ss ts : List (Term name)} (h : Satisfiable ts)
    (hsub : forall t, t ∈ ss -> t ∈ ts) : Satisfiable ss := by
  rcases h with ⟨m, hm⟩
  exact ⟨m, hm.mono hsub⟩

theorem holds_equal_true (m : Model name) (t : Term name) :
    Holds m (binary .equal t true) ↔ Holds m t := by
  unfold Holds
  simp only [eval, true]
  cases ht : t.eval m with
  | none => simp
  | some x =>
      by_cases hw : x.width = 1
      · rcases x with ⟨w, x⟩
        cases hw
        simp only [SizedBits.ofBool, SizedBits.binary_mk, BinaryTag.apply,
          Option.some.injEq]
        rcases BitVec.eq_zero_or_eq_one x with hx | hx <;>
          subst hx <;> decide
      · have hne : (SizedBits.ofBool Bool.true).width ≠ x.width := fun h => hw h.symm
        simp only [SizedBits.binary_eq_none hne, reduceCtorEq, false_iff,
          Option.some.injEq]
        intro hx
        exact hw (congrArg SizedBits.width hx)

end Term
end Foundation
end Crave
