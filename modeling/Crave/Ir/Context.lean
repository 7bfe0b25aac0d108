import Crave.Ir.Node
import Mathlib.Algebra.Order.Ring.Int
import Mathlib.Tactic.Positivity
import Mathlib.Tactic.Ring
import Mathlib.Data.List.Range

/-!
# Expressions that the context builds

`Context` turns front-end expressions into nodes over a container of declared
variables.  The module gives the constants it makes for host integers and the
shape that all of its expressions share.
-/

namespace Crave
namespace Ir

/-- Width and sign of a declared variable, from `bitsize_traits` and `is_signed`. -/
structure VarDecl where
  bitsize : Nat
  sign : Bool
deriving DecidableEq, Repr

abbrev Declarations := Nat -> Option VarDecl

namespace Constant

/-- The 64-bit pattern is the host encoding of a value of the recorded width
and sign.  Booleans are encoded as zero and one although they count as signed. -/
def InRange (c : Constant) : Prop :=
  if c.isBool then
    c.value = 0 ∨ c.value = 1
  else if c.sign then
    c.value = (c.value.setWidth c.bitsize).signExtend 64
  else
    c.value.toNat < 2 ^ c.bitsize

instance (c : Constant) : Decidable c.InRange := by
  unfold InRange
  infer_instance

end Constant

namespace Context

/-- `new_value` for an integer type of the given width and sign: a value that
is not negative gets the first width below its own that holds it, unsigned. -/
def new_value (width : Nat) (sign : Bool) (i : Int) : Constant :=
  let value := BitVec.ofInt 64 i
  if 0 ≤ i then
    match (List.range' 1 (width - 1)).find? fun j => i / 2 ^ j == 0 with
    | some j => { value := value, bitsize := j, sign := false }
    | none => { value := value, bitsize := width, sign := sign }
  else
    { value := value, bitsize := width, sign := sign }

/-- What an expression over the given variables and vectors looks like when
the context has built it: variables are the declared ones, elements are taken
from a vector, collections and slices belong to a variable, and no extension
node occurs yet. -/
def Builds (variables_ vectors_ : Declarations) : Node -> Prop
  | .placeholder _ => True
  | .variableExpr id bitsize sign => variables_ id = some ⟨bitsize, sign⟩
  | .constant c => c.InRange ∧ 0 < c.bitsize ∧ c.bitsize ≤ 64
  | .vectorExpr id bitsize sign => vectors_ id = some ⟨bitsize, sign⟩
  | .unaryOpr _ child => Builds variables_ vectors_ child
  | .inside child collection =>
      exists id bitsize sign, child = .variableExpr id bitsize sign ∧
        variables_ id = some ⟨bitsize, sign⟩ ∧
        forall c, c ∈ collection ->
          c.bitsize = bitsize ∧ c.sign = sign ∧ c.InRange
  | .extendExpr _ _ => False
  | .binaryOpr _ lhs rhs =>
      Builds variables_ vectors_ lhs ∧ Builds variables_ vectors_ rhs
  | .vectorAccess lhs rhs =>
      (exists id bitsize sign, lhs = .vectorExpr id bitsize sign ∧
        vectors_ id = some ⟨bitsize, sign⟩) ∧ Builds variables_ vectors_ rhs
  | .ifThenElse a b c =>
      Builds variables_ vectors_ a ∧ Builds variables_ vectors_ b ∧
        Builds variables_ vectors_ c
  | .forEach lhs rhs =>
      Builds variables_ vectors_ lhs ∧ Builds variables_ vectors_ rhs
  | .unique child => Builds variables_ vectors_ child
  | .bitslice child r l =>
      exists id bitsize sign, child = .variableExpr id bitsize sign ∧
        variables_ id = some ⟨bitsize, sign⟩ ∧ l ≤ r ∧ r < bitsize

end Context

namespace Node

/-- Every variable node of an expression has the width its declaration has. -/
def DeclaredIn (variables_ : Declarations) : Node -> Prop
  | placeholder _ => True
  | variableExpr id bitsize sign => variables_ id = some ⟨bitsize, sign⟩
  | constant _ => True
  | vectorExpr _ _ _ => True
  | unaryOpr _ child => child.DeclaredIn variables_
  | inside child _ => child.DeclaredIn variables_
  | extendExpr child _ => child.DeclaredIn variables_
  | binaryOpr _ lhs rhs => lhs.DeclaredIn variables_ ∧ rhs.DeclaredIn variables_
  | vectorAccess lhs rhs => lhs.DeclaredIn variables_ ∧ rhs.DeclaredIn variables_
  | ifThenElse a b c =>
      a.DeclaredIn variables_ ∧ b.DeclaredIn variables_ ∧ c.DeclaredIn variables_
  | forEach lhs rhs => lhs.DeclaredIn variables_ ∧ rhs.DeclaredIn variables_
  | unique child => child.DeclaredIn variables_
  | bitslice child _ _ => child.DeclaredIn variables_

theorem mem_supportVars {n : Node} {id bitsize : Nat} {sign : Bool}
    (h : variableExpr id bitsize sign ∈ n.subterms) : id ∈ n.supportVars := by
  induction n with
  | placeholder i => simp [subterms] at h
  | variableExpr i b s =>
      cases List.mem_singleton.mp h
      exact Finset.mem_singleton_self _
  | constant c => simp [subterms] at h
  | vectorExpr i b s => simp [subterms] at h
  | unaryOpr op child ih => exact ih (by simpa [subterms] using h)
  | inside child collection ih => exact ih (by simpa [subterms] using h)
  | extendExpr child value ih => exact ih (by simpa [subterms] using h)
  | binaryOpr op lhs rhs ihl ihr =>
      have h' := by simpa [subterms] using h
      exact Finset.mem_union.mpr (h'.imp ihl ihr)
  | vectorAccess lhs rhs ihl ihr =>
      have h' := by simpa [subterms] using h
      exact Finset.mem_union.mpr (h'.imp ihl ihr)
  | ifThenElse a b c iha ihb ihc =>
      have h' := by simpa [subterms] using h
      rw [supportVars, Finset.mem_union, Finset.mem_union, or_assoc]
      exact h'.imp iha (Or.imp ihb ihc)
  | forEach lhs rhs ihl ihr =>
      have h' := by simpa [subterms] using h
      exact Finset.mem_union.mpr (h'.imp ihl ihr)
  | unique child ih => exact ih (by simpa [subterms] using h)
  | bitslice child r l ih => exact ih (by simpa [subterms] using h)

theorem DeclaredIn.of_mem_subterms {variables_ : Declarations} {n : Node}
    (hn : n.DeclaredIn variables_) {id bitsize : Nat} {sign : Bool}
    (h : variableExpr id bitsize sign ∈ n.subterms) :
    variables_ id = some ⟨bitsize, sign⟩ := by
  induction n with
  | placeholder i => simp [subterms] at h
  | variableExpr i b s =>
      cases List.mem_singleton.mp h
      exact hn
  | constant c => simp [subterms] at h
  | vectorExpr i b s => simp [subterms] at h
  | unaryOpr op child ih => exact ih hn (by simpa [subterms] using h)
  | inside child collection ih => exact ih hn (by simpa [subterms] using h)
  | extendExpr child value ih => exact ih hn (by simpa [subterms] using h)
  | binaryOpr op lhs rhs ihl ihr =>
      have h' := by simpa [subterms] using h
      exact h'.elim (ihl hn.1) (ihr hn.2)
  | vectorAccess lhs rhs ihl ihr =>
      have h' := by simpa [subterms] using h
      exact h'.elim (ihl hn.1) (ihr hn.2)
  | ifThenElse a b c iha ihb ihc =>
      have h' := by simpa [subterms] using h
      exact h'.elim (iha hn.1) fun h'' => h''.elim (ihb hn.2.1) (ihc hn.2.2)
  | forEach lhs rhs ihl ihr =>
      have h' := by simpa [subterms] using h
      exact h'.elim (ihl hn.1) (ihr hn.2)
  | unique child ih => exact ih hn (by simpa [subterms] using h)
  | bitslice child r l ih => exact ih hn (by simpa [subterms] using h)

end Node

theorem Context.Builds.declaredIn {variables_ vectors_ : Declarations} {n : Node}
    (h : Builds variables_ vectors_ n) : n.DeclaredIn variables_ := by
  induction n with
  | placeholder id => trivial
  | variableExpr id bitsize sign => exact h
  | constant c => trivial
  | vectorExpr id bitsize sign => trivial
  | unaryOpr op child ih => exact ih h
  | inside child collection ih =>
      rcases h with ⟨id, bitsize, sign, hchild, hdecl, -⟩
      rw [hchild]
      exact hdecl
  | extendExpr child value ih => exact h.elim
  | binaryOpr op lhs rhs ihl ihr => exact ⟨ihl h.1, ihr h.2⟩
  | vectorAccess lhs rhs ihl ihr =>
      rcases h.1 with ⟨id, bitsize, sign, hlhs, -⟩
      rw [hlhs]
      exact ⟨trivial, ihr h.2⟩
  | ifThenElse a b c iha ihb ihc => exact ⟨iha h.1, ihb h.2.1, ihc h.2.2⟩
  | forEach lhs rhs ihl ihr => exact ⟨ihl h.1, ihr h.2⟩
  | unique child ih => exact ih h
  | bitslice child r l ih =>
      rcases h with ⟨id, bitsize, sign, hchild, hdecl, -⟩
      rw [hchild]
      exact hdecl

theorem toNat_ofInt_of_nonneg {i : Int} (hnonneg : 0 ≤ i) (hlt : i < 2 ^ 64) :
    ((BitVec.ofInt 64 i).toNat : Int) = i := by
  rw [BitVec.toNat_ofInt, Int.toNat_of_nonneg (Int.emod_nonneg _ (by decide))]
  exact Int.emod_eq_of_lt hnonneg hlt

theorem toNat_ofInt_of_lt {i : Int} {k : Nat} (hnonneg : 0 ≤ i)
    (hlt : i < 2 ^ k) (hk : k ≤ 64) : (BitVec.ofInt 64 i).toNat < 2 ^ k := by
  have hpow : (2 ^ k : Int) ≤ 2 ^ 64 := pow_le_pow_right₀ (by decide) hk
  have hgoal : ((BitVec.ofInt 64 i).toNat : Int) < (2 ^ k : Nat) := by
    rw [toNat_ofInt_of_nonneg hnonneg (lt_of_lt_of_le hlt hpow)]
    exact_mod_cast hlt
  exact_mod_cast hgoal

theorem signExtend_setWidth_ofInt {i : Int} {w : Nat} (hpos : 0 < w)
    (hle : w ≤ 64) (hlow : -(2 ^ (w - 1) : Int) ≤ i) (hhigh : i < 2 ^ (w - 1)) :
    ((BitVec.ofInt 64 i).setWidth w).signExtend 64 = BitVec.ofInt 64 i := by
  have hdvd : (2 ^ w : Nat) ∣ 2 ^ 64 := Nat.pow_dvd_pow 2 hle
  have hpow : (2 ^ w : Nat) = 2 * 2 ^ (w - 1) := by
    conv_lhs => rw [show w = (w - 1) + 1 by omega, pow_succ]
    ring
  have hpow64 : (2 ^ (w - 1) : Int) ≤ 2 ^ 63 :=
    pow_le_pow_right₀ (by decide) (by omega)
  apply BitVec.eq_of_toInt_eq
  rw [BitVec.toInt_signExtend_of_le hle, BitVec.toInt_setWidth,
    BitVec.toInt_ofInt, BitVec.toNat_ofInt]
  have hcast : (((i % (2 ^ 64 : Nat)).toNat : Nat) : Int) = i % (2 ^ 64 : Nat) :=
    Int.toNat_of_nonneg (Int.emod_nonneg _ (by norm_num))
  rw [hcast, ← Int.emod_bmod, Int.emod_emod_of_dvd _ (by exact_mod_cast hdvd),
    Int.emod_bmod]
  rw [Int.bmod_eq_of_le (by push_cast [hpow]; omega) (by push_cast [hpow]; omega),
    Int.bmod_eq_of_le (by norm_num; omega) (by norm_num; omega)]

/-- A host integer that fits its type becomes a constant that is in range. -/
theorem Context.new_value_inRange {width : Nat} {sign : Bool} {i : Int}
    (hpos : 0 < width) (hle : width ≤ 64) (hbool : (width == 1 && sign) = false)
    (hlow : (if sign then -(2 ^ (width - 1) : Int) else 0) ≤ i)
    (hhigh : i < 2 ^ (if sign then width - 1 else width)) :
    (new_value width sign i).InRange := by
  unfold new_value
  by_cases hnonneg : 0 ≤ i
  · simp only [hnonneg, if_true]
    cases hfind : (List.range' 1 (width - 1)).find? fun j => i / 2 ^ j == 0 with
    | some j =>
        have hmem := List.mem_of_find?_eq_some hfind
        have hzero : i / 2 ^ j = 0 := by simpa using List.find?_some hfind
        rw [List.mem_range'_1] at hmem
        have hlt : i < 2 ^ j := by
          by_contra hge
          have hone : 1 ≤ i / 2 ^ j :=
            Int.le_ediv_of_mul_le (by positivity) (by omega)
          omega
        simpa [Constant.InRange, Constant.isBool] using
          toNat_ofInt_of_lt hnonneg hlt (by omega)
    | none =>
        have hsign : sign = false := by
          cases sign with
          | false => rfl
          | true =>
              have hwidth : width ≠ 1 := by
                intro h
                simp [h] at hbool
              have hnot := List.find?_eq_none.mp hfind (width - 1)
                (List.mem_range'_1.mpr (by omega))
              have hdiv : i / 2 ^ (width - 1) = 0 :=
                Int.ediv_eq_zero_of_lt hnonneg (by simpa using hhigh)
              simp [hdiv] at hnot
        subst hsign
        simpa [Constant.InRange, Constant.isBool] using
          toNat_ofInt_of_lt hnonneg (by simpa using hhigh) hle
  · simp only [hnonneg, if_false]
    have hsign : sign = true := by
      cases sign with
      | false => simp at hlow; omega
      | true => rfl
    subst hsign
    simp only [if_true] at hlow hhigh
    have hnotBool : (width == 1) = false := by simpa using hbool
    simpa [Constant.InRange, Constant.isBool, hnotBool] using
      (signExtend_setWidth_ofInt hpos hle hlow hhigh).symm

end Ir
end Crave
