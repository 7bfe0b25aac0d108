import Crave.Foundation.BitVectorTerm

/-!
# Predicates among the terms

A term of width one is a truth value in every model.  A new name for such a term is asserted
to be equal to it, which changes nothing for the names that were there before.
-/

namespace Crave
namespace Foundation
namespace Term

variable {name : Type} {m m' : Model name} {s t e : Term name} {a b c : Bool}

/-- The term is the truth value in the model. -/
def Denotes (m : Model name) (t : Term name) (b : Bool) : Prop :=
  t.eval m = some (SizedBits.ofBool b)

theorem Denotes.holds_iff (h : Denotes m t b) : Holds m t ↔ b = Bool.true := by
  rw [Holds, h, Option.some.injEq]
  exact ⟨SizedBits.ofBool_injective, fun hb => by rw [hb]⟩

theorem Denotes.unique (h : Denotes m t a) (h' : Denotes m t b) : a = b :=
  SizedBits.ofBool_injective (Option.some.inj (h.symm.trans h'))

theorem exists_denotes (h : t.width = some 1) (m : Model name) : exists b, Denotes m t b := by
  rw [← map_width_eval m] at h
  rcases Option.map_eq_some_iff.mp h with ⟨x, hx, hw⟩
  rcases x with ⟨w, x⟩
  have hw' : w = 1 := hw
  subst hw'
  rcases BitVec.eq_zero_or_eq_one x with rfl | rfl
  · exact ⟨Bool.false, hx⟩
  · exact ⟨Bool.true, hx⟩

theorem denotes_decide (h : t.width = some 1) (m : Model name) :
    Denotes m t (decide (Holds m t)) := by
  rcases exists_denotes h m with ⟨b, hb⟩
  have hdecide : decide (Holds m t) = b := by
    rw [Bool.eq_iff_iff, decide_eq_true_iff]
    exact hb.holds_iff
  rwa [hdecide]

theorem denotes_true : Denotes m true Bool.true :=
  rfl

theorem denotes_false : Denotes m false Bool.false :=
  rfl

theorem Denotes.not (h : Denotes m t b) : Denotes m (unary .not t) !b := by
  rw [Denotes, eval, h]
  cases b <;> rfl

theorem Denotes.binary {tag : BinaryTag} (h : Denotes m s a) (h' : Denotes m t b) {c : Bool}
    (hc : tag.apply (BitVec.ofBool a) (BitVec.ofBool b) = SizedBits.ofBool c) :
    Denotes m (binary tag s t) c := by
  rw [Denotes, eval, h, h']
  exact (SizedBits.binary_mk tag _ _).trans (congrArg some hc)

theorem Denotes.and (h : Denotes m s a) (h' : Denotes m t b) :
    Denotes m (Term.binary .and s t) (a && b) :=
  h.binary h' (by cases a <;> cases b <;> rfl)

theorem Denotes.or (h : Denotes m s a) (h' : Denotes m t b) :
    Denotes m (Term.binary .or s t) (a || b) :=
  h.binary h' (by cases a <;> cases b <;> rfl)

theorem Denotes.xor (h : Denotes m s a) (h' : Denotes m t b) :
    Denotes m (Term.binary .bvxor s t) (a ^^ b) :=
  h.binary h' (by cases a <;> cases b <;> rfl)

theorem Denotes.equal (h : Denotes m s a) (h' : Denotes m t b) :
    Denotes m (Term.binary .equal s t) (a == b) :=
  h.binary h' (by cases a <;> cases b <;> rfl)

theorem Denotes.ite (h : Denotes m s a) (ht : Denotes m t b) (he : Denotes m e c) :
    Denotes m (Term.ite s t e) (if a then b else c) := by
  rw [Denotes, eval, h, ht, he]
  cases a <;> rfl

/-!
## New names
-/

/-- All names of the term have the property. -/
def NamesIn (P : name -> Prop) (t : Term name) : Prop :=
  forall v w, (v, w) ∈ t.atoms -> P v

theorem NamesIn.mono {P Q : name -> Prop} (h : NamesIn P t) (hPQ : forall v, P v -> Q v) :
    NamesIn Q t :=
  fun v w hv => hPQ v (h v w hv)

theorem NamesIn.eval_eq {P : name -> Prop} (h : NamesIn P t)
    (hm : forall v, P v -> m v = m' v) : t.eval m = t.eval m' :=
  eval_congr fun v w hv => by rw [AgreeAt, hm v (h v w hv)]

theorem NamesIn.holds_iff {P : name -> Prop} (h : NamesIn P t)
    (hm : forall v, P v -> m v = m' v) : Holds m t ↔ Holds m' t := by
  rw [Holds, Holds, h.eval_eq hm]

/-- Models of the first terms become models of the second ones without a change of the names
with the property. -/
def Conservative (P : name -> Prop) (ts ts' : List (Term name)) : Prop :=
  forall m, Satisfies m ts ->
    exists m' : Model name, (forall v, P v -> m' v = m v) ∧ Satisfies m' ts'

theorem Conservative.refl (P : name -> Prop) (ts : List (Term name)) : Conservative P ts ts :=
  fun m hm => ⟨m, fun _ _ => rfl, hm⟩

theorem Conservative.trans {P Q : name -> Prop} {ts ts' ts'' : List (Term name)}
    (h : Conservative P ts ts') (h' : Conservative Q ts' ts'') (hPQ : forall v, P v -> Q v) :
    Conservative P ts ts'' := by
  intro m hm
  rcases h m hm with ⟨m', hsame, hm'⟩
  rcases h' m' hm' with ⟨m'', hsame', hm''⟩
  exact ⟨m'', fun v hv => (hsame' v (hPQ v hv)).trans (hsame v hv), hm''⟩

theorem denotes_var (m : Model name) (v : name) : Denotes m (var v 1) ((m v).testBit 0) := by
  rw [Denotes, eval, Option.some.injEq, SizedBits.ofBool, SizedBits.mk.injEq, heq_eq_eq]
  refine ⟨rfl, BitVec.eq_of_getLsbD_eq fun i hi => ?_⟩
  have hzero : i = 0 := Nat.lt_one_iff.mp hi
  subst hzero
  rw [BitVec.getLsbD_ofNat, decide_eq_true hi, Bool.true_and]
  cases (m v).testBit 0 <;> rfl

theorem conservative_define [DecidableEq name] {P : name -> Prop} {ts : List (Term name)}
    (hts : forall t, t ∈ ts -> NamesIn P t) (ht : NamesIn P t) (hwidth : t.width = some 1)
    {p : name} (hp : ¬ P p) :
    Conservative P ts (ts ++ [binary .equal (var p 1) t]) := by
  intro m hm
  rcases exists_denotes hwidth m with ⟨b, hb⟩
  have hsame : forall v, P v -> Function.update m p b.toNat v = m v := by
    intro v hv
    have hne : v ≠ p := fun heq => hp (heq ▸ hv)
    rw [Function.update_of_ne hne]
  refine ⟨Function.update m p b.toNat, hsame, ?_⟩
  rw [satisfies_append]
  constructor
  · intro u hu
    exact ((hts u hu).holds_iff hsame).mpr (hm u hu)
  · intro u hu
    rw [List.mem_singleton.mp hu]
    have hvar : Denotes (Function.update m p b.toNat) (var p 1) b := by
      have hdenotes := denotes_var (Function.update m p b.toNat) p
      rw [Function.update_self] at hdenotes
      cases b <;> exact hdenotes
    have hterm : Denotes (Function.update m p b.toNat) t b := (ht.eval_eq hsame).trans hb
    exact (hvar.equal hterm).holds_iff.mpr (beq_self_eq_true b)

end Term
end Foundation
end Crave
