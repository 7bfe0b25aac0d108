import Crave.Backend.RelationalOperators
import Crave.Foundation.Division

/-!
# Division and modulo

The bit-vectors that are built for a quotient and a remainder, compared with the
truncated quotient and remainder of the numbers that the two operands stand for.
-/

namespace Crave
namespace Backend

open Foundation Ir
open FixWidthVisitor MetaSMTVisitor

/-!
## Operands of one width
-/

/-- Operands of different signs are widened by one bit before they are divided. -/
def quotientWidth (s t : Bool) (w : Nat) : Nat :=
  if s = t then w else w + 1

/-- Some bit-vector of the width stands for the number. -/
def Representable (signed : Bool) (w : Nat) (a : Int) : Prop :=
  exists z : BitVec w, SizedBits.num signed ⟨w, z⟩ = a

/-- When the remainder is right.  Operands of different signs are not widened; only the
sign of the left one is looked at, and the result counts as signed. -/
def ModuloExact (s t : Bool) (w : Nat) (a b : Int) : Prop :=
  match s, t with
  | true, false => b < 2 ^ (w - 1) ∨ (a.natAbs : Int) + b < 2 ^ w ∨ a + b = 0
  | false, true => 0 < b ∨ a < -b ∨ (2 ^ w ≤ a - b ∧ b ∣ 2 ^ w)
  | _, _ => True

section Values

variable {m : Model SolverVar} {f g : Formula} {s t : Bool} {w : Nat} {p q : BitVec w}

theorem num_zeroExtend_succ (z : BitVec w) :
    (z.setWidth (w + 1)).toInt = SizedBits.num false ⟨w, z⟩ :=
  SizedBits.num_true_zeroExtend_one ⟨w, z⟩

theorem num_signExtend_succ (z : BitVec w) :
    (z.signExtend (w + 1)).toInt = SizedBits.num true ⟨w, z⟩ :=
  SizedBits.num_signExtend 1 ⟨w, z⟩

theorem eval_visitDevideOpr (hf : f.eval m = some ⟨w, p⟩) (hg : g.eval m = some ⟨w, q⟩)
    (hne : SizedBits.num t ⟨w, q⟩ ≠ 0)
    (hrep : Representable (s || t) (quotientWidth s t w)
      ((SizedBits.num s ⟨w, p⟩).tdiv (SizedBits.num t ⟨w, q⟩))) :
    exists z, (visitDevideOpr (f, s) (g, t)).1.eval m = some z ∧
      z.num (s || t) = (SizedBits.num s ⟨w, p⟩).tdiv (SizedBits.num t ⟨w, q⟩) := by
  cases hrep with
  | intro z hz =>
      cases s with
      | false =>
          cases t with
          | false =>
              refine ⟨⟨w, p.smtUDiv q⟩, ?_, toNat_smtUDiv hne⟩
              simp only [visitDevideOpr, signCases, Bool.and_self, Bool.false_eq_true, if_false,
                Bool.or_self, Bool.not_false, if_true, Term.eval, hf, hg, SizedBits.binary_mk]
              rfl
          | true =>
              have hdiv := toInt_smtSDiv (x := p.setWidth (w + 1)) (y := q.signExtend (w + 1))
                (by rwa [num_signExtend_succ]) (z := z)
                (by rw [num_signExtend_succ, num_zeroExtend_succ]; exact hz)
              rw [num_signExtend_succ, num_zeroExtend_succ] at hdiv
              refine ⟨⟨w + 1, _⟩, ?_, hdiv⟩
              simp only [visitDevideOpr, signCases, Bool.false_and, Bool.false_eq_true, if_false,
                Bool.false_or, Bool.not_true, Term.eval, hf, hg, Option.map_some,
                SizedBits.zeroExtend, SizedBits.signExtend, SizedBits.binary_mk]
              rfl
      | true =>
          cases t with
          | false =>
              have hdiv := toInt_smtSDiv (x := p.signExtend (w + 1)) (y := q.setWidth (w + 1))
                (by rwa [num_zeroExtend_succ]) (z := z)
                (by rw [num_signExtend_succ, num_zeroExtend_succ]; exact hz)
              rw [num_signExtend_succ, num_zeroExtend_succ] at hdiv
              refine ⟨⟨w + 1, _⟩, ?_, hdiv⟩
              simp only [visitDevideOpr, signCases, Bool.and_false, Bool.false_eq_true, if_false,
                Bool.or_false, Bool.not_true, if_true, Term.eval, hf, hg, Option.map_some,
                SizedBits.zeroExtend, SizedBits.signExtend, SizedBits.binary_mk]
              rfl
          | true =>
              refine ⟨⟨w, p.smtSDiv q⟩, ?_, toInt_smtSDiv hne hz⟩
              simp only [visitDevideOpr, signCases, Bool.and_self, if_true, Term.eval, hf, hg,
                SizedBits.binary_mk]
              rfl

theorem two_mul_half (hw : 0 < w) : (2 : Int) * 2 ^ (w - 1) = 2 ^ w := by
  rw [← pow_succ', Nat.sub_add_cancel hw]

/-- The number of a bit-vector that is read signed, from the one that is read unsigned. -/
theorem toInt_cases (hw : 0 < w) (z : BitVec w) :
    ((z.toNat : Int) < 2 ^ (w - 1) ∧ z.toInt = z.toNat) ∨
      ((2 : Int) ^ (w - 1) ≤ z.toNat ∧ z.toInt = z.toNat - 2 ^ w) := by
  have hhalf := two_mul_half hw
  rw [BitVec.toInt_eq_toNat_cond]
  split
  · next hlt =>
      have hlt' : 2 * (z.toNat : Int) < 2 ^ w := by exact_mod_cast hlt
      left
      constructor
      · linarith
      · rfl
  · next hge =>
      have hge' : (2 : Int) ^ w ≤ 2 * (z.toNat : Int) := by
        exact_mod_cast Nat.le_of_not_lt hge
      right
      constructor
      · linarith
      · push_cast
        rfl

/-- The signed remainder by an unsigned divisor that is read as a signed number. -/
theorem toInt_srem_iff (hw : 0 < w) :
    (p.srem q).toInt = p.toInt.tmod q.toNat ↔
      ModuloExact true false w p.toInt q.toNat := by
  have hhalf := two_mul_half hw
  have hp := BitVec.le_toInt p
  have hp' := BitVec.toInt_lt (x := p)
  have hq : (q.toNat : Int) < 2 ^ w := by exact_mod_cast q.isLt
  rw [BitVec.toInt_srem]
  unfold ModuloExact
  cases toInt_cases hw q with
  | inl hlow =>
      rw [hlow.right]
      simp only [hlow.left, true_or]
  | inr hhigh =>
      rw [hhigh.right, ← hhalf, tmod_sub_iff ⟨hp, hp'⟩ ⟨hhigh.left, by omega⟩]
      omega

/-- The unsigned remainder by a signed divisor that is read as an unsigned number. -/
theorem toInt_umod_iff (hw : 0 < w) (hne : q.toInt ≠ 0) :
    (BitVec.umod p q).toInt = (p.toNat : Int).tmod q.toInt ↔
      ModuloExact false true w p.toNat q.toInt := by
  have hhalf := two_mul_half hw
  have hp : (p.toNat : Int) < 2 ^ w := by exact_mod_cast p.isLt
  have hq := BitVec.le_toInt q
  have hq' := BitVec.toInt_lt (x := q)
  have hmod : ((BitVec.umod p q).toNat : Int) = (p.toNat : Int) % q.toNat := by
    rw [toNat_umod, Int.tmod_eq_emod_of_nonneg (Int.natCast_nonneg _)]
  unfold ModuloExact
  cases toInt_cases hw q with
  | inl hlow =>
      have hpos : 0 < q.toInt := by omega
      have hrem := Int.emod_lt_of_pos (p.toNat : Int) hpos
      rw [← hlow.right] at hmod
      have hvalue : (BitVec.umod p q).toInt = (p.toNat : Int) % q.toInt := by
        cases toInt_cases hw (BitVec.umod p q) with
        | inl hr => rw [hr.right, hmod]
        | inr hr =>
            rw [hmod] at hr
            linarith [hr.left, hrem]
      rw [hvalue, Int.tmod_eq_emod_of_nonneg (Int.natCast_nonneg _)]
      simp only [hpos, true_or]
  | inr hhigh =>
      have hsum : (q.toNat : Int) = q.toInt + 2 * 2 ^ (w - 1) := by
        rw [hhalf, hhigh.right, sub_add_cancel]
      have hlt : (q.toNat : Int) < 2 ^ w := by exact_mod_cast q.isLt
      have hneg : q.toInt < 0 := by linarith [hhigh.right]
      rw [hsum] at hmod
      have hiff := emod_add_iff (h := 2 ^ (w - 1)) (a := p.toNat) (b := q.toInt)
        ⟨Int.natCast_nonneg _, by rwa [hhalf]⟩ ⟨hq, hneg⟩
      have hvalue : (BitVec.umod p q).toInt =
          if (p.toNat : Int) % (q.toInt + 2 * 2 ^ (w - 1)) < 2 ^ (w - 1) then
            (p.toNat : Int) % (q.toInt + 2 * 2 ^ (w - 1))
          else (p.toNat : Int) % (q.toInt + 2 * 2 ^ (w - 1)) - 2 * 2 ^ (w - 1) := by
        rw [← hmod]
        cases toInt_cases hw (BitVec.umod p q) with
        | inl hr => rw [hr.right, if_pos hr.left]
        | inr hr => rw [hr.right, if_neg (not_lt.mpr hr.left), hhalf]
      rw [hvalue, hiff, hhalf]
      simp only [not_lt.mpr hneg.le, false_or]

/-- The remainder is right exactly under the condition on the two numbers. -/
theorem eval_visitModuloOpr (hf : f.eval m = some ⟨w, p⟩) (hg : g.eval m = some ⟨w, q⟩)
    (hne : SizedBits.num t ⟨w, q⟩ ≠ 0) :
    exists z, (visitModuloOpr (f, s) (g, t)).1.eval m = some z ∧
      (z.num (s || t) = (SizedBits.num s ⟨w, p⟩).tmod (SizedBits.num t ⟨w, q⟩) ↔
        ModuloExact s t w (SizedBits.num s ⟨w, p⟩) (SizedBits.num t ⟨w, q⟩)) := by
  have hw : 0 < w := by
    by_contra hzero
    have hz : w = 0 := Nat.eq_zero_of_not_pos hzero
    subst hz
    apply hne
    rw [BitVec.eq_nil q]
    cases t <;> rfl
  have heval : forall tag : BinaryTag, (Term.binary tag f g).eval m = some (tag.apply p q) := by
    intro tag
    simp only [Term.eval, hf, hg, SizedBits.binary_mk]
  cases s with
  | false =>
      refine ⟨⟨w, BitVec.umod p q⟩, heval .bvurem, ?_⟩
      cases t with
      | false =>
          have hmod : SizedBits.num false ⟨w, BitVec.umod p q⟩ = _ := toNat_umod
          exact ⟨fun _ => trivial, fun _ => hmod⟩
      | true => exact toInt_umod_iff hw hne
  | true =>
      refine ⟨⟨w, p.srem q⟩, heval .bvsrem, ?_⟩
      cases t with
      | false => exact toInt_srem_iff hw
      | true =>
          have hmod : SizedBits.num true ⟨w, p.srem q⟩ = _ := BitVec.toInt_srem p q
          exact ⟨fun _ => trivial, fun _ => hmod⟩

end Values

/-!
## Expressions
-/

/-- The terms that are built for the quotient and the remainder of two expressions stand
for the truncated quotient and remainder of `a` and `b`, so that `a` can be put together
again. -/
structure DivisionExact (m : Model SolverVar) (l r : Node) (a b : Int) : Prop where
  quotient : exists x s, Operand m (fixWidth (.binaryOpr .devideOpr l r)) x s ∧
    x.num s = a.tdiv b
  remainder : exists x s, Operand m (fixWidth (.binaryOpr .moduloOpr l r)) x s ∧
    x.num s = a.tmod b
  identity : forall x s y t, Operand m (fixWidth (.binaryOpr .devideOpr l r)) x s ->
    Operand m (fixWidth (.binaryOpr .moduloOpr l r)) y t -> x.num s * b + y.num t = a

section Expressions

variable {m : Model SolverVar} {l r : Node} {x y : SizedBits} {s t : Bool} {w : Nat}

theorem Operand.unique {n : Node} (hx : Operand m n x s) (hy : Operand m n y t) :
    x = y ∧ s = t := by
  rcases hx with ⟨f, hf, hfx⟩
  rcases hy with ⟨g, hg, hgy⟩
  cases hf.symm.trans hg
  cases hfx.symm.trans hgy
  exact ⟨rfl, rfl⟩

theorem exists_operands (op : BinaryOperator) (hl : Operand m (fixWidth l) x s)
    (hr : Operand m (fixWidth r) y t) (hmeet : MeetAt l r x y w) :
    exists (f g : Formula) (p q : BitVec w), f.eval m = some ⟨w, p⟩ ∧
      g.eval m = some ⟨w, q⟩ ∧ SizedBits.num s ⟨w, p⟩ = x.num s ∧
      SizedBits.num t ⟨w, q⟩ = y.num t ∧
      MetaSMTVisitor.translate (fixWidth (.binaryOpr op l r)) =
        .ok (visitBinaryOpr op (f, s) (g, t)) := by
  cases Operand.evalBinExpr (FixWidthVisitor.visit l) (FixWidthVisitor.visit r) hl hr with
  | intro hfst hsnd =>
      rcases hfst with ⟨f, hf, hfx⟩
      rcases hsnd with ⟨g, hg, hgy⟩
      have hxw := SizedBits.width_extend s (recordedWidth r - recordedWidth l) x
      have hyw := SizedBits.width_extend t (recordedWidth l - recordedWidth r) y
      rw [hmeet.left] at hxw
      rw [hmeet.right] at hyw
      have hx := SizedBits.num_extend s (recordedWidth r - recordedWidth l) x
      have hy := SizedBits.num_extend t (recordedWidth l - recordedWidth r) y
      change f.eval m = some (x.extend s (recordedWidth r - recordedWidth l)) at hfx
      change g.eval m = some (y.extend t (recordedWidth l - recordedWidth r)) at hgy
      generalize x.extend s (recordedWidth r - recordedWidth l) = X at hfx hx hxw
      generalize y.extend t (recordedWidth l - recordedWidth r) = Y at hgy hy hyw
      cases X with
      | mk wx p =>
          cases Y with
          | mk wy q =>
              cases hxw
              cases hyw
              refine ⟨f, g, p, q, hfx, hgy, hx, hy, ?_⟩
              unfold fixWidth
              simp only [FixWidthVisitor.visit, visitBinaryOpr_eq, MetaSMTVisitor.translate, hf, hg]

/-- Division is exact for all operands; modulo is exact, and the two fit together, exactly
when the operands have the same sign or the numbers are such that the wrong reading of one
of them does no harm. -/
theorem division_exact_iff (hl : Operand m (fixWidth l) x s) (hr : Operand m (fixWidth r) y t)
    (hmeet : MeetAt l r x y w) (hne : y.num t ≠ 0)
    (hrep : Representable (s || t) (quotientWidth s t w) ((x.num s).tdiv (y.num t))) :
    DivisionExact m l r (x.num s) (y.num t) ↔
      ModuloExact s t w (x.num s) (y.num t) := by
  rcases exists_operands .devideOpr hl hr hmeet with ⟨f, g, p, q, hf, hg, hp, hq, hdivide⟩
  rcases exists_operands .moduloOpr hl hr hmeet with ⟨f', g', p', q', hf', hg', hp', hq', hmodulo⟩
  rw [← hp, ← hq] at hrep ⊢
  have hne' : SizedBits.num t ⟨w, q⟩ ≠ 0 := by rwa [hq]
  cases eval_visitDevideOpr hf hg hne' hrep with
  | intro z hz =>
      cases eval_visitModuloOpr hf' hg' (s := s) (t := t) (by rwa [hq']) with
      | intro z' hz' =>
          rw [hp', hq', ← hp, ← hq] at hz'
          have hquotient : Operand m (fixWidth (.binaryOpr .devideOpr l r)) z (s || t) :=
            ⟨_, hdivide, hz.left⟩
          have hremainder : Operand m (fixWidth (.binaryOpr .moduloOpr l r)) z' (s || t) :=
            ⟨_, hmodulo, hz'.left⟩
          rw [← hz'.right]
          constructor
          · intro h
            rcases h.remainder with ⟨x', s', hx', hnum⟩
            cases Operand.unique hremainder hx' with
            | intro heq hsign => rwa [heq, hsign]
          · intro h
            refine ⟨⟨z, _, hquotient, hz.right⟩, ⟨z', _, hremainder, h⟩, ?_⟩
            intro x₁ s₁ y₁ t₁ hx₁ hy₁
            cases Operand.unique hquotient hx₁ with
            | intro hzx hsx =>
                cases Operand.unique hremainder hy₁ with
                | intro hzy hsy =>
                    rw [← hzx, ← hsx, ← hzy, ← hsy, hz.right, h, mul_comm]
                    exact Int.mul_tdiv_add_tmod _ _

end Expressions

/-!
A signed dividend and an unsigned divisor with the highest bit set: the divisor is taken
for a negative number, and the remainder is too small.
-/

/-- The signed operand is 100 and the unsigned one 200. -/
def hundreds : Model SolverVar
  | .terminal 1 => 100
  | _ => 200

theorem signedByte_hundred : Operand hundreds (fixWidth signedByte) ⟨8, 100#8⟩ true :=
  ⟨.var (.terminal 1) 8, rfl, rfl⟩

theorem unsignedByte_hundreds : Operand hundreds (fixWidth unsignedByte) ⟨8, 200#8⟩ false :=
  ⟨.var (.terminal 2) 8, rfl, rfl⟩

theorem mixed_sign_modulo :
    Operand hundreds (fixWidth signedByte) ⟨8, 100#8⟩ true ∧
      Operand hundreds (fixWidth unsignedByte) ⟨8, 200#8⟩ false ∧
      MeetAt signedByte unsignedByte ⟨8, 100#8⟩ ⟨8, 200#8⟩ 8 ∧
      Operand hundreds (fixWidth (.binaryOpr .moduloOpr signedByte unsignedByte))
        ⟨8, 44#8⟩ true ∧
      ¬ DivisionExact hundreds signedByte unsignedByte (SizedBits.num true ⟨8, 100#8⟩)
        (SizedBits.num false ⟨8, 200#8⟩) := by
  have hmodulo : Operand hundreds (fixWidth (.binaryOpr .moduloOpr signedByte unsignedByte))
      ⟨8, 44#8⟩ true :=
    ⟨.binary .bvsrem (.var (.terminal 1) 8) (.var (.terminal 2) 8), rfl, by decide⟩
  refine ⟨signedByte_hundred, unsignedByte_hundreds, ⟨rfl, rfl⟩, hmodulo, ?_⟩
  intro h
  rcases h.remainder with ⟨x, s, hx, hnum⟩
  cases Operand.unique hmodulo hx with
  | intro hbits hsign =>
      rw [← hbits, ← hsign] at hnum
      revert hnum
      decide

theorem division_exact_iff_hundred :
    DivisionExact hundreds signedByte unsignedByte (SizedBits.num true ⟨8, 100#8⟩)
        (SizedBits.num false ⟨8, 200#8⟩) ↔
      ModuloExact true false 8 (SizedBits.num true ⟨8, 100#8⟩)
        (SizedBits.num false ⟨8, 200#8⟩) :=
  division_exact_iff signedByte_hundred unsignedByte_hundreds ⟨rfl, rfl⟩ (by decide)
    ⟨0#9, by decide⟩

end Backend
end Crave
