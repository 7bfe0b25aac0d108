import Crave.Backend.Evaluation

/-!
# Readings of expressions

An expression is read when it is translated, after width fixing, to a bit-vector of the
width that was recorded for it. The readings of the operands give the reading of an
operator, and the conditions that the formulas decide.
-/

namespace Crave
namespace Backend

open Foundation Ir FixWidthVisitor MetaSMTVisitor

structure Reads (m : Model SolverVar) (u : Node) (x : SizedBits) (s : Bool) : Prop where
  operand : Operand m (fixWidth u) x s
  recorded : recordedWidth u = x.width

/-- The formula of the expression is a truth value, true when the condition holds. -/
def Decides (m : Model SolverVar) (u : Node) (P : Prop) : Prop :=
  exists b s, Reads m u (SizedBits.ofBool b) s ∧ (b = true ↔ P)

def constantBits (c : Constant) : BitVec c.bitsize :=
  if c.isBool then
    if c.value = 0 then 0 else 1
  else if c.sign then
    BitVec.ofInt c.bitsize c.value.toInt
  else
    BitVec.ofNat c.bitsize c.value.toNat

theorem eval_constantBits (m : Model SolverVar) (c : Constant) :
    (visitConstant c).1.eval m = some ⟨c.bitsize, constantBits c⟩ := by
  rcases c with ⟨value, bitsize, sign⟩
  unfold visitConstant constantBits
  split
  · next hbool =>
      simp only [Constant.isBool, Bool.and_eq_true, beq_iff_eq] at hbool
      rcases hbool with ⟨rfl, rfl⟩
      split
      · rfl
      · rfl
  · split
    · rfl
    · rfl

section Readings

variable {m : Model SolverVar} {l r u : Node} {s t : Bool} {a b : Nat}

theorem Reads.variableExpr (m : Model SolverVar) (id bitsize : Nat) (sign : Bool) :
    Reads m (.variableExpr id bitsize sign) ⟨bitsize, BitVec.ofNat bitsize (m (.terminal id))⟩
      sign := by
  constructor
  · exact ⟨_, rfl, rfl⟩
  · rfl

theorem Reads.constant (m : Model SolverVar) (c : Constant) :
    Reads m (.constant c) ⟨c.bitsize, constantBits c⟩ c.sign := by
  constructor
  · exists (visitConstant c).1
    constructor
    · rw [← sign_visitConstant c]
      rfl
    · exact eval_constantBits m c
  · rfl

/-- An operator computes with its operands extended to the wider one of their widths. -/
theorem Reads.binaryOpr {x : BitVec a} {y : BitVec b} (op : BinaryOperator)
    (hl : Reads m l ⟨a, x⟩ s) (hr : Reads m r ⟨b, y⟩ t)
    (hsorted : SortedOperands op s t (max a b)) :
    Reads m (.binaryOpr op l r)
      (binaryValue op s t (extendTo s (max a b) x) (extendTo t (max a b) y))
      (binarySign op s t) := by
  have hlw : (FixWidthVisitor.visit l).2 = a := hl.recorded
  have hrw : (FixWidthVisitor.visit r).2 = b := hr.recorded
  have hleft := hl.operand.evalBinExpr_left (FixWidthVisitor.visit l) (FixWidthVisitor.visit r)
  have hright := hr.operand.evalBinExpr_right (FixWidthVisitor.visit l) (FixWidthVisitor.visit r)
  rw [hlw, hrw, extend_sub] at hleft
  rw [hlw, hrw, extend_sub, max_comm] at hright
  rcases hleft with ⟨f, hf, hfeval⟩
  rcases hright with ⟨g, hg, hgeval⟩
  constructor
  · exists (MetaSMTVisitor.visitBinaryOpr op (f, s) (g, t)).1
    constructor
    · show MetaSMTVisitor.translate (FixWidthVisitor.visitBinaryOpr op _ _).1 = _
      rw [visitBinaryOpr_eq]
      simp only [MetaSMTVisitor.translate, hf, hg]
      rw [← sign_visitBinaryOpr op (f, s) (g, t)]
    · exact eval_visitBinaryOpr_of hsorted hfeval hgeval
  · rw [recordedWidth_binaryOpr, hl.recorded, hr.recorded, width_binaryValue]

theorem Reads.binaryOpr_at {w : Nat} {x : BitVec a} {y : BitVec b} (op : BinaryOperator)
    (hw : max a b = w) (hl : Reads m l ⟨a, x⟩ s) (hr : Reads m r ⟨b, y⟩ t)
    (hsorted : SortedOperands op s t w) :
    Reads m (.binaryOpr op l r) (binaryValue op s t (extendTo s w x) (extendTo t w y))
      (binarySign op s t) := by
  subst hw
  exact Reads.binaryOpr op hl hr hsorted

theorem extendTo_self (s : Bool) (x : BitVec a) : extendTo s a x = x := by
  cases s with
  | false => exact BitVec.setWidth_eq x
  | true => exact BitVec.signExtend_eq x

theorem extendTo_ofNat {w n : Nat} (hle : a ≤ w) (hlt : n < 2 ^ a) :
    extendTo false w (BitVec.ofNat a n) = BitVec.ofNat w n :=
  BitVec.setWidth_ofNat_of_le_of_lt hle hlt

theorem num_extendTo_left (x : BitVec a) (b : Nat) :
    SizedBits.num s ⟨max a b, extendTo s (max a b) x⟩ = SizedBits.num s ⟨a, x⟩ :=
  num_extendTo s x (le_max_left a b)

theorem num_extendTo_right (y : BitVec b) (a : Nat) :
    SizedBits.num t ⟨max a b, extendTo t (max a b) y⟩ = SizedBits.num t ⟨b, y⟩ :=
  num_extendTo t y (le_max_right a b)

/-!
## Conditions
-/

theorem Decides.nodeHolds {P : Prop} (h : Decides m u P) : NodeHolds m (fixWidth u) ↔ P := by
  rcases h with ⟨p, s, hreads, hiff⟩
  rcases hreads.operand with ⟨f, htranslate, heval⟩
  unfold NodeHolds
  simp only [htranslate, Term.Holds, heval, Option.some.injEq]
  rw [← hiff]
  constructor
  · exact SizedBits.ofBool_injective
  · intro hp
    rw [hp]

theorem Decides.logicalAnd {P Q : Prop} (hl : Decides m l P) (hr : Decides m r Q) :
    Decides m (.binaryOpr .logicalAndOpr l r) (P ∧ Q) := by
  rcases hl with ⟨p, s, hl, hp⟩
  rcases hr with ⟨q, t, hr, hq⟩
  exists p && q, s || t
  constructor
  · have hreads := Reads.binaryOpr .logicalAndOpr hl hr rfl
    cases p <;> cases q <;> cases s <;> cases t <;> exact hreads
  · rw [Bool.and_eq_true, hp, hq]

theorem Decides.logicalOr {P Q : Prop} (hl : Decides m l P) (hr : Decides m r Q) :
    Decides m (.binaryOpr .logicalOrOpr l r) (P ∨ Q) := by
  rcases hl with ⟨p, s, hl, hp⟩
  rcases hr with ⟨q, t, hr, hq⟩
  exists p || q, s || t
  constructor
  · have hreads := Reads.binaryOpr .logicalOrOpr hl hr rfl
    cases p <;> cases q <;> cases s <;> cases t <;> exact hreads
  · rw [Bool.or_eq_true, hp, hq]

variable {x : BitVec a} {y : BitVec b}

theorem Reads.lessEqual (hl : Reads m l ⟨a, x⟩ s) (hr : Reads m r ⟨b, y⟩ t) :
    Decides m (.binaryOpr .lessEqualOpr l r)
      (SizedBits.num s ⟨a, x⟩ ≤ SizedBits.num t ⟨b, y⟩) := by
  have hreads := Reads.binaryOpr .lessEqualOpr hl hr trivial
  rw [binaryValue, num_extendTo_left, num_extendTo_right] at hreads
  exact ⟨_, _, hreads, decide_eq_true_iff⟩

theorem Reads.greater (hl : Reads m l ⟨a, x⟩ s) (hr : Reads m r ⟨b, y⟩ t) :
    Decides m (.binaryOpr .greaterOpr l r)
      (SizedBits.num t ⟨b, y⟩ < SizedBits.num s ⟨a, x⟩) := by
  have hreads := Reads.binaryOpr .greaterOpr hl hr trivial
  rw [binaryValue, num_extendTo_left, num_extendTo_right] at hreads
  exact ⟨_, _, hreads, decide_eq_true_iff⟩

theorem Reads.equal (hl : Reads m l ⟨a, x⟩ s) (hr : Reads m r ⟨b, y⟩ t) :
    Decides m (.binaryOpr .equalOpr l r)
      (SizedBits.num s ⟨a, x⟩ ≡ SizedBits.num t ⟨b, y⟩ [ZMOD (2 ^ max a b : Nat)]) := by
  have hreads := Reads.binaryOpr .equalOpr hl hr trivial
  have hiff := SizedBits.bits_eq_iff_num_emod_eq s t (extendTo s (max a b) x)
    (extendTo t (max a b) y)
  rw [num_extendTo_left, num_extendTo_right] at hiff
  exact ⟨_, _, hreads, beq_iff_eq.trans hiff⟩

theorem eval_or_equal_constant {f result : Formula} (hf : f.eval m = some ⟨a, x⟩) {p : Bool}
    (hresult : result.eval m = some (SizedBits.ofBool p)) (value : BitVec 64) (sign : Bool) :
    (Term.binary .or result (.binary .equal f (visitConstant ⟨value, a, sign⟩).1)).eval m =
      some (SizedBits.ofBool (p || x == constantBits ⟨value, a, sign⟩)) := by
  have hbits := eval_constantBits m ⟨value, a, sign⟩
  simp only [Term.eval, hresult, hf, hbits, SizedBits.binary_mk, BinaryTag.apply]
  cases p <;> cases hbeq : x == constantBits ⟨value, a, sign⟩ <;> rfl

theorem eval_foldl_inside {f : Formula} (hf : f.eval m = some ⟨a, x⟩) {cs : List Constant}
    (hcs : forall c, c ∈ cs -> c.bitsize = a) {result : Formula} {p : Bool}
    (hresult : result.eval m = some (SizedBits.ofBool p)) :
    exists q : Bool,
      (cs.foldl (fun result c =>
        Term.binary .or result (.binary .equal f (visitConstant c).1)) result).eval m =
          some (SizedBits.ofBool q) ∧
      (q = true ↔ p = true ∨
        exists c, c ∈ cs ∧ SizedBits.mk a x = ⟨c.bitsize, constantBits c⟩) := by
  induction cs generalizing result p with
  | nil =>
      exists p
      constructor
      · exact hresult
      · simp
  | cons c rest ih =>
      have hc := hcs c List.mem_cons_self
      rcases c with ⟨value, bitsize, sign⟩
      dsimp only at hc
      cases hc
      rcases ih (fun d hd => hcs d (List.mem_cons_of_mem _ hd))
        (eval_or_equal_constant hf hresult value sign) with ⟨q, hq, hiff⟩
      exists q
      constructor
      · exact hq
      · rw [hiff, Bool.or_eq_true, beq_iff_eq, or_assoc]
        apply or_congr Iff.rfl
        constructor
        · intro h
          cases h with
          | inl heq => exact ⟨_, List.mem_cons_self, by rw [heq]⟩
          | inr hrest =>
              rcases hrest with ⟨d, hd, heq⟩
              exact ⟨d, List.mem_cons_of_mem _ hd, heq⟩
        · intro h
          rcases h with ⟨d, hd, heq⟩
          cases List.mem_cons.mp hd with
          | inl hsame =>
              rw [hsame] at heq
              cases heq
              exact Or.inl rfl
          | inr hrest => exact Or.inr ⟨d, hrest, heq⟩

theorem Reads.inside (hu : Reads m u ⟨a, x⟩ s) {collection : List Constant}
    (hcollection : forall c, c ∈ collection -> c.bitsize = a) :
    Decides m (.inside u collection)
      (exists c, c ∈ collection ∧ SizedBits.mk a x = ⟨c.bitsize, constantBits c⟩) := by
  rcases hu.operand with ⟨f, htranslate, heval⟩
  have hfalse : Term.false.eval m = some (SizedBits.ofBool false) := rfl
  rcases eval_foldl_inside heval hcollection hfalse with ⟨q, hq, hiff⟩
  exists q, false
  constructor
  · constructor
    · exists (visitInside (f, s) collection).1
      constructor
      · show MetaSMTVisitor.translate (.inside (fixWidth u) collection) = _
        simp only [MetaSMTVisitor.translate, htranslate]
        rfl
      · exact hq
    · rfl
  · rw [hiff]
    constructor
    · intro h
      cases h with
      | inl hfalse => cases hfalse
      | inr hmem => exact hmem
    · exact Or.inr

end Readings

end Backend
end Crave
