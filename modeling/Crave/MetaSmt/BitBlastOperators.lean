import Crave.Foundation.BitVectorTerm
import Crave.MetaSmt.BitBlastArithmetic
import Crave.MetaSmt.ExpressionSort

/-!
# The operators of the bit-blaster

The handlers of the operators that the visitor evaluates, compared with the operations on
bit-vectors that they stand for.  A result is a predicate or a vector of some width, and
an operator that is given results of other kinds than its own throws.
-/

namespace Crave
namespace MetaSmt

open Foundation

namespace Result

variable {result_base : Type} {_solver : PredicateSolver result_base}

def kind : Result result_base -> Kind
  | base _ => .predicate
  | bv bits => .vector bits.length

def read (r : _solver.Reading) : Result result_base -> SizedBits
  | base e => SizedBits.ofBool (r.sem e)
  | bv bits => { width := bits.length, bits := r.word bits.length bits }

theorem width_read (r : _solver.Reading) (x : Result result_base) :
    (x.read r).width = x.kind.width := by
  cases x <;> rfl

theorem read_bv (r : _solver.Reading) {bits : List result_base} {w : Nat}
    (h : bits.length = w) :
    (bv bits).read r = { width := w, bits := r.word w bits } := by
  subst h
  rfl

end Result

namespace BitBlast

variable {result_base : Type} (_solver : PredicateSolver result_base)

def unary : UnaryTag -> Result result_base -> Except String (Result result_base)
  | .not => not _solver
  | .bvnot => bvnot _solver
  | .bvneg => bvneg _solver

def binary : BinaryTag -> Result result_base -> Result result_base ->
    Except String (Result result_base)
  | .and => and _solver
  | .or => or _solver
  | .implies => implies _solver
  | .equal => equal _solver
  | .nequal => nequal _solver
  | .bvand => bvand _solver
  | .bvor => bvor _solver
  | .bvxor => bvxor _solver
  | .bvadd => bvadd _solver
  | .bvsub => bvsub _solver
  | .bvmul => bvmul _solver
  | .bvudiv => bvudiv _solver
  | .bvurem => bvurem _solver
  | .bvsdiv => bvsdiv _solver
  | .bvsrem => bvsrem _solver
  | .bvshl => bvshl _solver
  | .bvshr => bvshr _solver
  | .bvslt => bvslt _solver
  | .bvsle => bvsle _solver
  | .bvsgt => bvsgt _solver
  | .bvsge => bvsge _solver
  | .bvult => bvult _solver
  | .bvule => bvule _solver
  | .bvugt => bvugt _solver
  | .bvuge => bvuge _solver

/-- The operation that the circuit of the bit-blaster computes: the divisions are not
those of the theory of bit-vectors. -/
def blasted {w : Nat} (tag : BinaryTag) (x y : BitVec w) : SizedBits :=
  match tag with
  | .bvudiv => { width := w, bits := unsignedValue true x y }
  | .bvsdiv => { width := w, bits := signedValue true x y }
  | .bvsrem => { width := w, bits := signedValue false x y }
  | tag => tag.apply x y

/-- The operands on which the circuit computes the operation of the theory. -/
def Agrees {w : Nat} (tag : BinaryTag) (x y : BitVec w) : Prop :=
  match tag with
  | .bvudiv => y = 0#w -> w = 1
  | .bvsdiv => y = 0#w -> w = 1
  | .bvsrem => y.msb = true -> x.srem y = 0#w
  | _ => True

instance {w : Nat} (tag : BinaryTag) (x y : BitVec w) : Decidable (Agrees tag x y) := by
  cases tag <;> unfold Agrees <;> infer_instance

variable {_solver} {w : Nat}

/-!
## The divisions
-/

theorem ofNat_one_eq_allOnes_iff (hw : 0 < w) :
    BitVec.ofNat w 1 = BitVec.allOnes w ↔ w = 1 := by
  have hone : 1 < 2 ^ w := Nat.one_lt_two_pow (Nat.pos_iff_ne_zero.mp hw)
  rw [← BitVec.toNat_inj, BitVec.toNat_ofNat, BitVec.toNat_allOnes, Nat.mod_eq_of_lt hone]
  constructor
  · intro h
    have hpow : 2 ^ w = 2 ^ 1 := by omega
    exact Nat.pow_right_injective (Nat.le_refl 2) hpow
  · intro h
    subst h
    rfl

theorem quotient_eq_smtUDiv_iff (hw : 0 < w) (x y : BitVec w) :
    quotient x y = x.smtUDiv y ↔ (y = 0#w -> w = 1) := by
  rw [quotient, BitVec.smtUDiv_eq]
  by_cases hy : y = 0#w
  · rw [if_pos hy, if_pos hy, ofNat_one_eq_allOnes_iff hw]
    exact ⟨fun h _ => h, fun h => h hy⟩
  · rw [if_neg hy, if_neg hy]
    exact ⟨fun _ h => absurd h hy, fun _ => rfl⟩

theorem signedValue_eq_smtSDiv (x y : BitVec w) :
    x.smtSDiv y =
      if (x.msb ^^ y.msb) = true then -x.abs.smtUDiv y.abs else x.abs.smtUDiv y.abs := by
  rw [BitVec.smtSDiv_eq, BitVec.abs_eq, BitVec.abs_eq]
  cases x.msb <;> cases y.msb <;> rfl

theorem abs_eq_zero_iff (y : BitVec w) : y.abs = 0#w ↔ y = 0#w := by
  rw [BitVec.abs_eq]
  split
  · constructor
    · intro h
      rw [← BitVec.neg_neg (x := y), h, BitVec.neg_zero]
    · intro h
      rw [h, BitVec.neg_zero]
  · exact Iff.rfl

theorem signedValue_eq_smtSDiv_iff (hw : 0 < w) (x y : BitVec w) :
    signedValue true x y = x.smtSDiv y ↔ (y = 0#w -> w = 1) := by
  rw [signedValue_eq_smtSDiv, signedValue, unsignedValue, if_pos rfl, ← abs_eq_zero_iff y,
    ← quotient_eq_smtUDiv_iff hw]
  split
  · exact BitVec.neg_inj
  · exact Iff.rfl

/-- The remainder of the bit-blaster is wrong in sign when the divisor is negative. -/
theorem signedValue_eq_srem (x y : BitVec w) :
    signedValue false x y = if y.msb = true then -x.srem y else x.srem y := by
  have hsrem : x.srem y = if x.msb = true then -(x.abs.umod y.abs) else x.abs.umod y.abs := by
    rw [BitVec.srem_eq, BitVec.abs_eq, BitVec.abs_eq]
    cases x.msb <;> cases y.msb <;> rfl
  rw [hsrem, signedValue, unsignedValue]
  cases x.msb <;> cases y.msb <;> simp

/-- A remainder other than zero is not its own negation: it is closer to zero than the
divisor. -/
theorem neg_srem_eq_iff {x y : BitVec w} (hy : y.msb = true) :
    -x.srem y = x.srem y ↔ x.srem y = 0#w := by
  constructor
  · intro h
    have hneg : y.toInt < 0 := BitVec.toInt_neg_of_msb_true hy
    have hlow : -2 ^ (w - 1) ≤ y.toInt := BitVec.le_toInt y
    have hbound : (x.srem y).toInt.natAbs < y.toInt.natAbs := by
      rw [BitVec.toInt_srem, Int.natAbs_tmod]
      exact Nat.mod_lt _ (Int.natAbs_pos.mpr (Int.ne_of_lt hneg))
    have hne : x.srem y ≠ BitVec.intMin w := by
      intro hmin
      rw [hmin, BitVec.toInt_intMin, Int.natAbs_neg, Int.natAbs_natCast,
        Nat.mod_eq_of_lt (Nat.two_pow_pred_lt_two_pow (by
          cases w with
          | zero => simp [BitVec.of_length_zero] at hy
          | succ w => exact Nat.succ_pos w))] at hbound
      have hcast : ((2 ^ (w - 1) : Nat) : Int) = 2 ^ (w - 1) := by norm_cast
      omega
    have hzero : (x.srem y).toInt = 0 := by
      have hint := BitVec.toInt_neg_of_ne_intMin hne
      rw [h] at hint
      omega
    exact BitVec.eq_of_toInt_eq (by rw [hzero, BitVec.toInt_zero])
  · intro h
    rw [h, BitVec.neg_zero]

theorem signedValue_eq_srem_iff (x y : BitVec w) :
    signedValue false x y = x.srem y ↔ (y.msb = true -> x.srem y = 0#w) := by
  rw [signedValue_eq_srem]
  by_cases hy : y.msb = true
  · rw [if_pos hy, neg_srem_eq_iff hy]
    exact ⟨fun h _ => h, fun h => h hy⟩
  · rw [if_neg hy]
    exact ⟨fun _ h => absurd h hy, fun _ => rfl⟩

/-- The circuits are those of the theory of bit-vectors except for the three divisions,
which differ on the operands that the condition names. -/
theorem blasted_eq_apply_iff (hw : 0 < w) (tag : BinaryTag) (x y : BitVec w) :
    blasted tag x y = tag.apply x y ↔ Agrees tag x y := by
  have hbits : forall z z' : BitVec w,
      ({ width := w, bits := z } : SizedBits) = { width := w, bits := z' } ↔ z = z' := by
    intro z z'
    rw [SizedBits.mk.injEq, heq_eq_eq]
    exact and_iff_right rfl
  cases tag with
  | bvudiv => exact (hbits _ _).trans (quotient_eq_smtUDiv_iff hw x y)
  | bvsdiv => exact (hbits _ _).trans (signedValue_eq_smtSDiv_iff hw x y)
  | bvsrem => exact (hbits _ _).trans (signedValue_eq_srem_iff x y)
  | _ => exact iff_of_true rfl trivial

/-!
## Accepted operands

The handlers are total on the operands of their kinds, and throw on all others.
-/

/-- The operation returns a result of the kind, or throws when there is none. -/
def Gives (_solver : PredicateSolver result_base) (e : Except String (Result result_base))
    (kind : Option Kind) (value : _solver.Reading -> Option SizedBits) : Prop :=
  match kind with
  | none => exists msg, e = .error msg
  | some k => exists out, e = .ok out ∧ out.kind = k ∧
      forall r : _solver.Reading, value r = some (out.read r)

theorem gives_of_computes {e : Except String (Result result_base)}
    {value : _solver.Reading -> BitVec w} (h : Computes _solver e w value)
    {value' : _solver.Reading -> Option SizedBits}
    (hvalue : forall r, value' r = some { width := w, bits := value r }) :
    Gives _solver e (some (.vector w)) value' := by
  rcases h with ⟨bits, he, hlength, hword⟩
  refine ⟨.bv bits, he, by rw [Result.kind, hlength], ?_⟩
  intro r
  rw [hvalue, Result.read_bv r hlength, hword]

theorem gives_of_decides {e : Except String (Result result_base)}
    {value : _solver.Reading -> Bool} (h : Decides _solver e value)
    {value' : _solver.Reading -> Option SizedBits}
    (hvalue : forall r, value' r = some (SizedBits.ofBool (value r))) :
    Gives _solver e (some .predicate) value' := by
  rcases h with ⟨p, he, hsem⟩
  refine ⟨.base p, he, rfl, ?_⟩
  intro r
  rw [hvalue, Result.read, hsem]

theorem gives_none {e : Except String (Result result_base)} {msg : String}
    (h : e = .error msg) (value : _solver.Reading -> Option SizedBits) :
    Gives _solver e none value :=
  ⟨msg, h⟩

theorem unary_gives (tag : UnaryTag) (x : Result result_base) :
    Gives _solver (unary _solver tag x) (unaryKind tag x.kind) fun r =>
      some (SizedBits.unary tag (x.read r)) := by
  cases x with
  | base p =>
      cases tag with
      | not =>
          refine ⟨.base (_solver.not_tag p), rfl, rfl, ?_⟩
          intro r
          simp only [Result.read, r.sem_not_tag]
          cases r.sem p <;> rfl
      | bvnot => exact gives_none rfl _
      | bvneg => exact gives_none rfl _
  | bv a =>
      cases tag with
      | not => exact gives_none rfl _
      | bvnot => exact gives_of_computes (bvnot_computes _solver rfl) fun r => rfl
      | bvneg => exact gives_of_computes (bvneg_computes _solver rfl) fun r => rfl

/-- The operation of the circuit on operands of one width. -/
def blast (tag : BinaryTag) (x y : SizedBits) : Option SizedBits :=
  if h : y.width = x.width then some (blasted tag x.bits (y.bits.cast h)) else none

theorem blast_mk (tag : BinaryTag) (x y : BitVec w) :
    blast tag ⟨w, x⟩ ⟨w, y⟩ = some (blasted tag x y) := by
  rw [blast, dif_pos rfl]
  rfl

/-!
### Operands of different kinds
-/

section Mismatch

variable (_solver) {a b : List result_base} (h : a.length ≠ b.length)

include h

theorem operands_fails : operands (.bv a) (.bv b) = .error "a.size()==b.size()" := by
  simp only [operands, Result.getBv, h, if_false]

theorem bitwise_fails (tag : result_base -> result_base -> result_base) :
    bitwise tag (.bv a) (.bv b) = .error "a.size()==b.size()" := by
  rw [bitwise, operands_fails h]

theorem compare_fails (top now : result_base -> result_base -> result_base) (orEqual : Bool) :
    compare _solver top now orEqual (.bv a) (.bv b) = .error "a.size()==b.size()" := by
  rw [compare, operands_fails h]

theorem equal_fails : equal _solver (.bv a) (.bv b) = .error "a.size()==b.size()" :=
  if_neg h

theorem bvadd_fails : bvadd _solver (.bv a) (.bv b) = .error "a.size()==b.size()" := by
  rw [bvadd, operands_fails h]

theorem bvsub_fails : bvsub _solver (.bv a) (.bv b) = .error "a.size()==b.size()" := by
  rcases bvneg_computes _solver (a := b) rfl with ⟨tmp, hneg, htmp, -⟩
  rw [bvsub, hneg]
  exact bvadd_fails _solver (htmp ▸ h)

theorem bvmul_fails (ha : 0 < a.length) :
    bvmul _solver (.bv a) (.bv b) = .error "a.size()==b.size()" := by
  cases a with
  | nil => exact absurd ha (Nat.lt_irrefl 0)
  | cons x a =>
      have hne : b.length ≠ (List.replicate (x :: a).length x).length := by
        rw [List.length_replicate]
        exact fun hb => h hb.symm
      have hstep : addShifted _solver (x :: a).length (.bv b)
          (.bv (List.replicate (x :: a).length _solver.false_tag)) (x, 0) =
            .error "a.size()==b.size()" := by
        rw [addShifted, sign_extend_singleton ha]
        simp only [bvand, bitwise_fails hne]
      simp only [bvmul, Result.getBv, List.zipIdx_cons, List.foldlM_cons, hstep]
      rfl

theorem foldlM_shiftCase_fails (ha : 0 < a.length) (shifted : Nat -> List result_base)
    (init : Result result_base) :
    (List.range a.length).foldlM (shiftCase _solver a.length shifted (.bv b)) init =
      .error "a.size()==b.size()" := by
  rcases bvuint_computes _solver 0 a.length with ⟨index, hindex, hlength, -⟩
  have hbvuint : bvuint _solver 0 a.length = .bv index := Except.ok.inj hindex
  have hne : b.length ≠ index.length := by
    rw [hlength]
    exact fun hb => h hb.symm
  have hstep : shiftCase _solver a.length shifted (.bv b) init 0 =
      .error "a.size()==b.size()" := by
    rw [shiftCase, hbvuint, equal_fails _solver hne]
  obtain ⟨n, hn⟩ : exists n, a.length = n + 1 := Nat.exists_eq_succ_of_ne_zero (Nat.ne_of_gt ha)
  rw [hn] at hstep ⊢
  rw [List.range_succ_eq_map, List.foldlM_cons, hstep]
  rfl

theorem divRem_fails {x d : List result_base} (hx : x.length = a.length)
    (hd : d.length = b.length) (ret : List result_base) (checker : Result result_base) (n : Nat) :
    divRem _solver a.length (.bv b) (n + 1)
      { arg1 := .bv x, divisor := .bv d, ret := ret, checker := checker } =
        .error "a.size()==b.size()" := by
  have hne : x.length ≠ d.length := by rw [hx, hd]; exact h
  induction n with
  | zero =>
      simp only [divRem, divRemStep, bvuge, compare_fails _solver hne]
      rfl
  | succ n ih => rw [divRem, ih]

theorem uDivRem_fails (ha : 0 < a.length) (value : Bool) :
    exists msg, uDivRem _solver (.bv a) (.bv b) value = .error msg := by
  obtain ⟨n, hn⟩ : exists n, a.length = n + 1 := Nat.exists_eq_succ_of_ne_zero (Nat.ne_of_gt ha)
  rcases Nat.eq_zero_or_pos b.length with hb | hb
  · have hnil : b = [] := List.eq_nil_of_length_eq_zero hb
    subst hnil
    refine ⟨"b.back()", ?_⟩
    simp only [uDivRem, Result.getBv, ok_bind, hn, normalise]
    rfl
  · rcases normalise_computes _solver hb rfl a.length with ⟨d, hnormalise, hd, -⟩
    refine ⟨"a.size()==b.size()", ?_⟩
    have hrun := divRem_fails _solver h rfl hd
      (List.replicate a.length _solver.false_tag) (.base _solver.false_tag) n
    rw [← hn] at hrun
    simp only [uDivRem, Result.getBv, ok_bind, hnormalise, hrun]
    rfl

theorem sDivRem_fails (ha : 0 < a.length) (value : Bool) :
    exists msg, sDivRem _solver (.bv a) (.bv b) value = .error msg := by
  rcases bvneg_computes _solver (a := a) rfl with ⟨na, hnegA, hna, hnaWord⟩
  rcases bvneg_computes _solver (a := b) rfl with ⟨nb, hnegB, hnb, hnbWord⟩
  rcases back_computes _solver ha rfl with ⟨signA, hbackA, -⟩
  rcases ite_computes _solver signA hna rfl with ⟨aneg, hiteA, haneg, -⟩
  rcases Nat.eq_zero_or_pos b.length with hb | hb
  · have hnil : b = [] := List.eq_nil_of_length_eq_zero hb
    subst hnil
    refine ⟨"a.back()", ?_⟩
    simp only [sDivRem, Result.getBv, ok_bind, hnegA, hnegB, hbackA]
    rfl
  · rcases back_computes _solver hb rfl with ⟨signB, hbackB, -⟩
    rcases ite_computes _solver signB hnb rfl with ⟨bneg, hiteB, hbneg, -⟩
    have hne : aneg.length ≠ bneg.length := by rw [haneg, hbneg]; exact h
    rcases uDivRem_fails _solver hne (haneg.symm ▸ ha) value with ⟨msg, hmsg⟩
    refine ⟨msg, ?_⟩
    simp only [sDivRem, Result.getBv, ok_bind, hnegA, hnegB, hbackA, hbackB, hiteA, hiteB, hmsg]
    rfl

end Mismatch

theorem binary_gives_vectors {a b : List result_base} (hw : 0 < w) (ha : a.length = w)
    (hb : b.length = w) (tag : BinaryTag) :
    Gives _solver (binary _solver tag (.bv a) (.bv b)) (resultKind tag (.vector w)) fun r =>
      blast tag ⟨w, r.word w a⟩ ⟨w, r.word w b⟩ := by
  have hcomputes : forall {value : _solver.Reading -> BitVec w},
      Computes _solver (binary _solver tag (.bv a) (.bv b)) w value ->
      (forall r, blasted tag (r.word w a) (r.word w b) = { width := w, bits := value r }) ->
      Gives _solver (binary _solver tag (.bv a) (.bv b)) (some (.vector w)) fun r =>
        blast tag ⟨w, r.word w a⟩ ⟨w, r.word w b⟩ := by
    intro value h hvalue
    exact gives_of_computes h fun r => by rw [blast_mk, hvalue]
  have hdecides : forall {value : _solver.Reading -> Bool},
      Decides _solver (binary _solver tag (.bv a) (.bv b)) value ->
      (forall r, blasted tag (r.word w a) (r.word w b) = SizedBits.ofBool (value r)) ->
      Gives _solver (binary _solver tag (.bv a) (.bv b)) (some .predicate) fun r =>
        blast tag ⟨w, r.word w a⟩ ⟨w, r.word w b⟩ := by
    intro value h hvalue
    exact gives_of_decides h fun r => by rw [blast_mk, hvalue]
  cases tag with
  | and => exact gives_none rfl _
  | or => exact gives_none rfl _
  | implies => exact gives_none rfl _
  | equal => exact hdecides (equal_decides _solver ha hb) fun r => rfl
  | nequal => exact hdecides (nequal_decides _solver ha hb) fun r => rfl
  | bvand => exact hcomputes (bvand_computes _solver ha hb) fun r => rfl
  | bvor => exact hcomputes (bvor_computes _solver ha hb) fun r => rfl
  | bvxor => exact hcomputes (bvxor_computes _solver ha hb) fun r => rfl
  | bvadd => exact hcomputes (bvadd_computes _solver ha hb) fun r => rfl
  | bvsub => exact hcomputes (bvsub_computes _solver ha hb) fun r => rfl
  | bvmul => exact hcomputes (bvmul_computes _solver hw ha hb) fun r => rfl
  | bvudiv => exact hcomputes (uDivRem_computes _solver hw ha hb true) fun r => rfl
  | bvurem => exact hcomputes (uDivRem_computes _solver hw ha hb false) fun r => rfl
  | bvsdiv => exact hcomputes (sDivRem_computes _solver hw ha hb true) fun r => rfl
  | bvsrem => exact hcomputes (sDivRem_computes _solver hw ha hb false) fun r => rfl
  | bvshl => exact hcomputes (bvshl_computes _solver ha hb) fun r => rfl
  | bvshr => exact hcomputes (bvshr_computes _solver ha hb) fun r => rfl
  | bvslt => exact hdecides (bvslt_decides _solver hw ha hb) fun r => rfl
  | bvsle => exact hdecides (bvsle_decides _solver hw ha hb) fun r => rfl
  | bvsgt => exact hdecides (bvsgt_decides _solver hw ha hb) fun r => rfl
  | bvsge => exact hdecides (bvsge_decides _solver hw ha hb) fun r => rfl
  | bvult => exact hdecides (bvult_decides _solver hw ha hb) fun r => rfl
  | bvule => exact hdecides (bvule_decides _solver hw ha hb) fun r => rfl
  | bvugt => exact hdecides (bvugt_decides _solver hw ha hb) fun r => rfl
  | bvuge => exact hdecides (bvuge_decides _solver hw ha hb) fun r => rfl

theorem binary_gives_predicates (tag : BinaryTag) (p q : result_base) :
    Gives _solver (binary _solver tag (.base p) (.base q)) (resultKind tag .predicate) fun r =>
      blast tag (SizedBits.ofBool (r.sem p)) (SizedBits.ofBool (r.sem q)) := by
  have hdecides : forall (e : result_base) (connective : Bool -> Bool -> Bool),
      binary _solver tag (.base p) (.base q) = .ok (.base e) ->
      (forall r : _solver.Reading, r.sem e = connective (r.sem p) (r.sem q)) ->
      (forall x y, blast tag (SizedBits.ofBool x) (SizedBits.ofBool y) =
        some (SizedBits.ofBool (connective x y))) ->
      Gives _solver (binary _solver tag (.base p) (.base q)) (some .predicate) fun r =>
        blast tag (SizedBits.ofBool (r.sem p)) (SizedBits.ofBool (r.sem q)) := by
    intro e connective he hsem hblast
    exact gives_of_decides ⟨e, he, hsem⟩ fun r => hblast _ _
  cases tag with
  | and => exact hdecides _ _ rfl (fun r => r.sem_and_tag p q) (by decide)
  | or => exact hdecides _ _ rfl (fun r => r.sem_or_tag p q) (by decide)
  | implies =>
      exact hdecides _ (fun x y => !x || y) rfl (fun r => r.sem_implies_tag p q)
        (by decide)
  | equal => exact hdecides _ _ rfl (fun r => r.sem_equal_tag p q) (by decide)
  | nequal => exact hdecides _ _ rfl (fun r => r.sem_nequal_tag p q) (by decide)
  | _ => exact gives_none rfl _

theorem binary_fails_vectors {a b : List result_base} (ha : 0 < a.length)
    (h : a.length ≠ b.length) (tag : BinaryTag) :
    exists msg, binary _solver tag (.bv a) (.bv b) = .error msg := by
  cases tag with
  | and => exact ⟨_, rfl⟩
  | or => exact ⟨_, rfl⟩
  | implies => exact ⟨_, rfl⟩
  | equal => exact ⟨_, equal_fails _solver h⟩
  | nequal => exact ⟨_, if_neg h⟩
  | bvand => exact ⟨_, bitwise_fails h _⟩
  | bvor => exact ⟨_, bitwise_fails h _⟩
  | bvxor => exact ⟨_, bitwise_fails h _⟩
  | bvadd => exact ⟨_, bvadd_fails _solver h⟩
  | bvsub => exact ⟨_, bvsub_fails _solver h⟩
  | bvmul => exact ⟨_, bvmul_fails _solver h ha⟩
  | bvudiv => exact uDivRem_fails _solver h ha true
  | bvurem => exact uDivRem_fails _solver h ha false
  | bvsdiv => exact sDivRem_fails _solver h ha true
  | bvsrem => exact sDivRem_fails _solver h ha false
  | bvshl => exact ⟨_, foldlM_shiftCase_fails _solver h ha _ _⟩
  | bvshr => exact ⟨_, foldlM_shiftCase_fails _solver h ha _ _⟩
  | bvslt => exact ⟨_, compare_fails _solver h _ _ _⟩
  | bvsle => exact ⟨_, compare_fails _solver h _ _ _⟩
  | bvsgt => exact ⟨_, compare_fails _solver h _ _ _⟩
  | bvsge => exact ⟨_, compare_fails _solver h _ _ _⟩
  | bvult => exact ⟨_, compare_fails _solver h _ _ _⟩
  | bvule => exact ⟨_, compare_fails _solver h _ _ _⟩
  | bvugt => exact ⟨_, compare_fails _solver h _ _ _⟩
  | bvuge => exact ⟨_, compare_fails _solver h _ _ _⟩

theorem binary_fails_bv_base {a : List result_base} (ha : 0 < a.length) (q : result_base)
    (tag : BinaryTag) : exists msg, binary _solver tag (.bv a) (.base q) = .error msg := by
  have hshift : forall shifted init, exists msg,
      (List.range a.length).foldlM (shiftCase _solver a.length shifted (.base q)) init =
        .error msg := by
    intro shifted init
    obtain ⟨n, hn⟩ : exists n, a.length = n + 1 := Nat.exists_eq_succ_of_ne_zero (Nat.ne_of_gt ha)
    refine ⟨"boost::bad_get", ?_⟩
    rw [hn, List.range_succ_eq_map, List.foldlM_cons]
    rfl
  cases tag with
  | bvmul =>
      cases a with
      | nil => exact absurd ha (Nat.lt_irrefl 0)
      | cons x a => exact ⟨_, rfl⟩
  | bvshl => exact hshift _ _
  | bvshr => exact hshift _ _
  | _ => exact ⟨_, rfl⟩

theorem binary_fails_base_bv (p : result_base) (b : List result_base) (tag : BinaryTag) :
    exists msg, binary _solver tag (.base p) (.bv b) = .error msg := by
  cases tag with
  | bvsub =>
      rcases bvneg_computes _solver (a := b) rfl with ⟨tmp, hneg, -, -⟩
      exact ⟨"boost::bad_get", by simp only [binary, bvsub, hneg]; rfl⟩
  | _ => exact ⟨_, rfl⟩

theorem binary_gives (tag : BinaryTag) {x : Result result_base} (hx : x.kind.Positive)
    (y : Result result_base) :
    Gives _solver (binary _solver tag x y) (binaryKind tag x.kind y.kind) fun r =>
      blast tag (x.read r) (y.read r) := by
  cases x with
  | base p =>
      cases y with
      | base q => exact binary_gives_predicates tag p q
      | bv b => exact binary_fails_base_bv p b tag
  | bv a =>
      cases y with
      | base q => exact binary_fails_bv_base hx q tag
      | bv b =>
          by_cases h : a.length = b.length
          · have hkind : binaryKind tag (.vector a.length) (.vector b.length) =
                resultKind tag (.vector b.length) := by rw [h, binaryKind, if_pos rfl]
            simp only [Result.kind, hkind, Result.read_bv _ h]
            exact binary_gives_vectors (h ▸ hx) h rfl tag
          · have hkind : binaryKind tag (.vector a.length) (.vector b.length) = none := by
              rw [binaryKind, if_neg]
              exact fun hk => h (Kind.vector.inj hk)
            simp only [Result.kind, hkind]
            exact binary_fails_vectors hx h tag

/-- The operands are ones on which the circuit computes the operation of the theory. -/
def AgreesOn (tag : BinaryTag) (x y : SizedBits) : Prop :=
  forall (w : Nat) (p q : BitVec w), x = ⟨w, p⟩ -> y = ⟨w, q⟩ -> Agrees tag p q

/-- Where the operands have one width, the circuit computes the operation of the theory
exactly when they are no exception. -/
theorem binary_eq_blast_iff (tag : BinaryTag) {x y : SizedBits} (hw : 0 < x.width) :
    SizedBits.binary tag x y = blast tag x y ↔ AgreesOn tag x y := by
  rcases x with ⟨w, p⟩
  rcases y with ⟨w', q⟩
  by_cases hwidth : w' = w
  · subst hwidth
    rw [SizedBits.binary_mk, blast_mk, Option.some.injEq, eq_comm, blasted_eq_apply_iff hw tag p q]
    constructor
    · intro h v p' q' hp hq
      cases hp
      cases hq
      exact h
    · intro h
      exact h w' p q rfl rfl
  · rw [SizedBits.binary_eq_none hwidth, blast, dif_neg hwidth]
    refine iff_of_true rfl ?_
    intro v p' q' hp hq
    cases hp
    cases hq
    exact absurd rfl hwidth

/-- On operands that have no kind in common the handler throws. On all others it returns
a result of the kind, which stands for the operation of the theory exactly on the operands
that are no exception. -/
theorem binary_exact (tag : BinaryTag) {x : Result result_base} (hx : x.kind.Positive)
    (y : Result result_base) :
    (binaryKind tag x.kind y.kind = none -> exists msg, binary _solver tag x y = .error msg) ∧
    forall k, binaryKind tag x.kind y.kind = some k ->
      exists out, binary _solver tag x y = .ok out ∧ out.kind = k ∧
        forall r : _solver.Reading,
          SizedBits.binary tag (x.read r) (y.read r) = some (out.read r) ↔
            AgreesOn tag (x.read r) (y.read r) := by
  have hgives : Gives _solver _ _ _ := binary_gives tag hx y
  constructor
  · intro hk
    rw [hk] at hgives
    exact hgives
  · intro k hk
    rw [hk] at hgives
    rcases hgives with ⟨out, hout, hkind, hread⟩
    refine ⟨out, hout, hkind, ?_⟩
    intro r
    have hw : 0 < (x.read r).width := by
      rw [Result.width_read]
      exact hx
    rw [← hread r]
    exact binary_eq_blast_iff tag hw

theorem binary_exact_bytes :
    exists out, binary (PredicateSolver.evaluating fun _ => false) .bvsrem
        (.bv [true, true, false, true, true, true, true, true])
        (.bv [true, false, true, true, true, true, true, true]) = .ok out ∧
      out.kind = .vector 8 ∧
      forall r : (PredicateSolver.evaluating fun _ => false).Reading,
        SizedBits.binary .bvsrem
            ((Result.bv [true, true, false, true, true, true, true, true]).read r)
            ((Result.bv [true, false, true, true, true, true, true, true]).read r) =
          some (out.read r) ↔
        AgreesOn .bvsrem
          ((Result.bv [true, true, false, true, true, true, true, true]).read r)
          ((Result.bv [true, false, true, true, true, true, true, true]).read r) := by
  have hpos : (Result.bv [true, true, false, true, true, true, true, true]).kind.Positive :=
    Nat.succ_pos 7
  exact (binary_exact .bvsrem hpos _).2 _ rfl

/-!
### Widening, slices and the conditional
-/

theorem zero_extend_gives (width : Nat) (x : Result result_base) :
    Gives _solver (zero_extend _solver width x) (extendKind width x.kind) fun r =>
      some ((x.read r).zeroExtend width) := by
  cases x with
  | base p => exact gives_none rfl _
  | bv a => exact gives_of_computes (zero_extend_computes _solver rfl width) fun r => rfl

theorem sign_extend_gives (width : Nat) {x : Result result_base} (hx : x.kind.Positive) :
    Gives _solver (sign_extend width x) (extendKind width x.kind) fun r =>
      some ((x.read r).signExtend width) := by
  cases x with
  | base p => exact gives_none rfl _
  | bv a => exact gives_of_computes (sign_extend_computes _solver hx rfl width) fun r => rfl

theorem extract_gives (upper lower : Nat) (x : Result result_base) :
    Gives _solver (extract upper lower x) (extractKind upper lower x.kind) fun r =>
      (x.read r).extract upper lower := by
  cases x with
  | base p => exact gives_none rfl _
  | bv a =>
      by_cases h : lower ≤ upper ∧ upper < a.length
      · have hkind : extractKind upper lower (Result.bv a).kind =
            some (.vector (upper - lower + 1)) := if_pos h
        rw [hkind]
        exact gives_of_computes (extract_computes _solver rfl h.1 h.2) fun r => if_pos h
      · have hkind : extractKind upper lower (Result.bv a).kind = none := if_neg h
        rw [hkind]
        exact gives_none (if_neg h) _

theorem ite_gives (c x y : Result result_base) :
    Gives _solver (ite _solver c x y) (iteKind c.kind x.kind y.kind) fun r =>
      SizedBits.ite (c.read r) (x.read r) (y.read r) := by
  have hcond : forall b : Bool, SizedBits.ofBool b = SizedBits.ofBool true ↔ b = true := by
    intro b
    exact ⟨SizedBits.ofBool_injective, fun h => by rw [h]⟩
  have hnone : c.kind ≠ .predicate ∨ x.kind ≠ y.kind ->
      iteKind c.kind x.kind y.kind = none := by
    intro h
    rw [iteKind, if_neg]
    rintro ⟨hc, hxy⟩
    cases h with
    | inl h => exact h hc
    | inr h => exact h hxy
  cases c with
  | bv cs =>
      rw [hnone (Or.inl (fun h => Kind.noConfusion h))]
      exact gives_none rfl _
  | base c =>
      cases x with
      | base p =>
          cases y with
          | base q =>
              refine gives_of_decides (ite_decides _solver c p q) ?_
              intro r
              simp only [Result.read, SizedBits.ite, SizedBits.width_ofBool, true_and, if_true,
                hcond]
              split <;> rfl
          | bv b =>
              rw [hnone (Or.inr (fun h => Kind.noConfusion h))]
              exact gives_none rfl _
      | bv a =>
          cases y with
          | base q =>
              rw [hnone (Or.inr (fun h => Kind.noConfusion h))]
              exact gives_none rfl _
          | bv b =>
              by_cases h : a.length = b.length
              · have hkind : iteKind (Result.base c).kind (Result.bv a).kind (Result.bv b).kind =
                    some (.vector b.length) := by
                  simp only [iteKind, Result.kind, h, and_self, if_true]
                rw [hkind]
                refine gives_of_computes (ite_computes _solver c h rfl) ?_
                intro r
                rw [Result.read_bv r h, SizedBits.ite, if_pos ⟨rfl, rfl⟩]
                cases hc : r.sem c with
                | false => simp [Result.read, hc, hcond]
                | true => simp [Result.read, hc]
              · rw [hnone (Or.inr (fun hk => h (Kind.vector.inj hk)))]
                exact gives_none (if_neg h) _

end BitBlast
end MetaSmt
end Crave
