import Crave.Foundation.BitCount
import Crave.Backend.ConstantValue
import Crave.Backend.Operands

/-!
# Expressions over the bits of a variable

`onehot` and `bitcount` are written with arithmetic, shifts and comparisons. The literals in
them get the least width and are extended to the width of the variable.
-/

namespace Crave
namespace Experimental

open Foundation Ir Backend

def literal (i : Int) : Ir.Node :=
  .constant (Context.new_value 32 true i)

def unsignedLiteral (i : Nat) : Ir.Node :=
  .constant (Context.new_value 32 false i)

/-- `(x > 0) && ((x & (x - 1)) == 0)` -/
def onehot (x : Ir.Node) : Ir.Node :=
  .binaryOpr .logicalAndOpr
    (.binaryOpr .greaterOpr x (literal 0))
    (.binaryOpr .equalOpr
      (.binaryOpr .andOpr x (.binaryOpr .minusOpr x (literal 1)))
      (literal 0))

/-- `(x >> i) & 1` -/
def bitAt (x : Ir.Node) (i : Nat) : Ir.Node :=
  .binaryOpr .andOpr (.binaryOpr .shiftRightOpr x (unsignedLiteral i)) (literal 1)

/-- The loop over the bits, for a type of the given width. -/
def bitcount (x : Ir.Node) (bitsize : Nat) : Ir.Node :=
  (List.range bitsize).foldl (fun result i => .binaryOpr .plusOpr result (bitAt x i)) (literal 0)

section Readings

variable {m : Model SolverVar} {x : Ir.Node} {w : Nat} {p : BitVec w} {s : Bool}

theorem reads_zero (m : Model SolverVar) : Reads m (literal 0) ⟨1, BitVec.ofNat 1 0⟩ false :=
  Reads.constant m (Context.new_value 32 true 0)

theorem reads_one (m : Model SolverVar) : Reads m (literal 1) ⟨1, BitVec.ofNat 1 1⟩ false :=
  Reads.constant m (Context.new_value 32 true 1)

theorem exists_reads_unsignedLiteral (m : Model SolverVar) {i : Nat} (hi : i < 2 ^ 32)
    (hpos : 0 < w) (hiw : i < 2 ^ w) :
    exists k, k ≤ w ∧ i < 2 ^ k ∧ Reads m (unsignedLiteral i) ⟨k, BitVec.ofNat k i⟩ false := by
  have hcontains : (IntegerType.mk 32 false).Contains i := by
    rw [IntegerType.contains_unsigned]
    omega
  have hleast := Context.new_value_least (by decide) hcontains (Int.natCast_nonneg i)
  have hvalue := Context.new_value_value 32 false i
  have hsign : (Context.new_value 32 false i).sign = false := by
    rcases Context.new_value_cases 32 false i with ⟨_, heq, _⟩ | ⟨heq, _⟩
    · rw [heq]
    · rw [heq]
  have hreads := Reads.constant m (Context.new_value 32 false i)
  have hbits : constantBits (Context.new_value 32 false i) =
      BitVec.ofNat (Context.new_value 32 false i).bitsize i := by
    unfold constantBits Constant.isBool
    rw [hsign, Bool.and_false, if_neg Bool.false_ne_true, if_neg Bool.false_ne_true, hvalue,
      BitVec.ofInt_natCast, BitVec.toNat_ofNat, Nat.mod_eq_of_lt (by omega)]
  rw [hbits, hsign] at hreads
  exists (Context.new_value 32 false i).bitsize
  constructor
  · exact hleast.right w hpos (by exact_mod_cast hiw)
  constructor
  · exact_mod_cast hleast.left
  · exact hreads

/-!
## One bit
-/

theorem shift_and_one (p : BitVec w) (i : Nat) :
    p >>> i &&& BitVec.ofNat w 1 = BitVec.ofNat w (p.getLsbD i).toNat := by
  apply BitVec.eq_of_getLsbD_eq
  intro k hk
  rw [BitVec.getLsbD_and, BitVec.getLsbD_ushiftRight, BitVec.getLsbD_ofNat, BitVec.getLsbD_ofNat]
  cases k with
  | zero =>
      cases p.getLsbD i with
      | false => simp
      | true => simp [hk]
  | succ k =>
      have hone : Nat.testBit 1 (k + 1) = false :=
        Nat.testBit_lt_two_pow (Nat.one_lt_two_pow (Nat.succ_ne_zero k))
      cases p.getLsbD i with
      | false => simp [hone]
      | true => simp [hone]

theorem reads_bitAt (hx : Reads m x ⟨w, p⟩ s) (hw : w < 2 ^ 32) {i : Nat} (hi : i < w) :
    Reads m (bitAt x i) ⟨w, BitVec.ofNat w (p.getLsbD i).toNat⟩ s := by
  have hpos : 0 < w := Nat.zero_lt_of_lt hi
  have hiw : i < 2 ^ w := hi.trans Nat.lt_two_pow_self
  rcases exists_reads_unsignedLiteral m (hi.trans hw) hpos hiw with ⟨k, hk, hik, hliteral⟩
  have hshift := Reads.binaryOpr_at .shiftRightOpr (max_eq_left hk) hx hliteral trivial
  rw [extendTo_self, extendTo_ofNat hk hik] at hshift
  change Reads m _ ⟨w, p >>> BitVec.ofNat w i⟩ s at hshift
  rw [BitVec.ushiftRight_eq', BitVec.toNat_ofNat, Nat.mod_eq_of_lt hiw] at hshift
  have hand := Reads.binaryOpr_at .andOpr (max_eq_left hpos) hshift (reads_one m) trivial
  rw [extendTo_self, extendTo_ofNat hpos (by decide)] at hand
  change Reads m (bitAt x i) ⟨w, p >>> i &&& BitVec.ofNat w 1⟩ (s || false) at hand
  rw [shift_and_one, Bool.or_false] at hand
  exact hand

/-!
## The sum of the bits
-/

/-- The sum of the first bits, at least one of them, has the width and the sign of the
variable. -/
theorem reads_bitcount_succ (hx : Reads m x ⟨w, p⟩ s) (hw : w < 2 ^ 32) {n : Nat} (hn : n < w) :
    Reads m (bitcount x (n + 1)) ⟨w, BitVec.ofNat w (bitsSetBelow p (n + 1))⟩ s := by
  have hfold : forall k, bitcount x (k + 1) =
      .binaryOpr .plusOpr (bitcount x k) (bitAt x k) := by
    intro k
    unfold bitcount
    rw [List.range_succ, List.foldl_append, List.foldl_cons, List.foldl_nil]
  have hpos : 0 < w := Nat.zero_lt_of_lt hn
  induction n with
  | zero =>
      have hplus := Reads.binaryOpr_at .plusOpr (max_eq_right hpos) (reads_zero m)
        (reads_bitAt hx hw hpos) trivial
      rw [extendTo_self, extendTo_ofNat hpos (by decide)] at hplus
      change Reads m _ ⟨w, BitVec.ofNat w 0 + BitVec.ofNat w (p.getLsbD 0).toNat⟩
        (false || s) at hplus
      rw [← BitVec.ofNat_add, Bool.false_or] at hplus
      rw [hfold, bitsSetBelow_succ]
      exact hplus
  | succ n ih =>
      have hplus := Reads.binaryOpr_at .plusOpr (max_self w) (ih (Nat.lt_of_succ_lt hn))
        (reads_bitAt hx hw hn) trivial
      rw [extendTo_self, extendTo_self] at hplus
      change Reads m _ ⟨w, BitVec.ofNat w (bitsSetBelow p (n + 1)) +
        BitVec.ofNat w (p.getLsbD (n + 1)).toNat⟩ (s || s) at hplus
      rw [← BitVec.ofNat_add, Bool.or_self, ← bitsSetBelow_succ] at hplus
      rw [hfold]
      exact hplus

theorem reads_bitcount (hx : Reads m x ⟨w, p⟩ s) (hw : w < 2 ^ 32) (hpos : 0 < w) :
    Reads m (bitcount x w) ⟨w, BitVec.ofNat w (bitsSet p)⟩ s := by
  cases w with
  | zero => cases hpos
  | succ n => exact reads_bitcount_succ hx hw (Nat.lt_succ_self n)

/-!
## The conditions
-/

theorem num_zero (s : Bool) : SizedBits.num s ⟨w, 0⟩ = 0 := by
  cases s with
  | false => rfl
  | true => exact BitVec.toInt_zero

/-- The number is positive, and no bit is left without the lowest one. -/
theorem decides_onehot (hx : Reads m x ⟨w, p⟩ s) (hpos : 0 < w) :
    Decides m (onehot x) (0 < SizedBits.num s ⟨w, p⟩ ∧ p &&& p - 1 = 0) := by
  have hgreater := hx.greater (reads_zero m)
  rw [show SizedBits.num false ⟨1, BitVec.ofNat 1 0⟩ = 0 from rfl] at hgreater
  have hminus := Reads.binaryOpr_at .minusOpr (max_eq_left hpos) hx (reads_one m) trivial
  rw [extendTo_self, extendTo_ofNat hpos (by decide)] at hminus
  change Reads m _ ⟨w, p - 1⟩ (s || false) at hminus
  have hand := Reads.binaryOpr_at .andOpr (max_self w) hx hminus trivial
  rw [extendTo_self, extendTo_self] at hand
  change Reads m _ ⟨w, p &&& p - 1⟩ (s || (s || false)) at hand
  have hequal := hand.equal (reads_zero m)
  have hiff : (SizedBits.num (s || (s || false)) ⟨w, p &&& p - 1⟩ ≡
      SizedBits.num false ⟨1, BitVec.ofNat 1 0⟩ [ZMOD (2 ^ max w 1 : Nat)]) ↔
        p &&& p - 1 = 0 := by
    rw [max_eq_left (Nat.succ_le_of_lt hpos),
      SizedBits.bits_eq_iff_num_emod_eq (s || (s || false)) (s || (s || false)) (p &&& p - 1) 0,
      num_zero]
    rfl
  rw [hiff] at hequal
  exact hgreater.logicalAnd hequal

theorem num_pos_iff (p : BitVec w) (s : Bool) :
    0 < SizedBits.num s ⟨w, p⟩ ↔ p ≠ 0 ∧ ¬ (s = true ∧ p.msb = true) := by
  have hne : p ≠ 0 ↔ p.toNat ≠ 0 := by
    apply not_congr
    constructor
    · intro h
      rw [h]
      rfl
    · intro h
      exact BitVec.eq_of_toNat_eq h
  rw [hne]
  cases s with
  | false =>
      show 0 < (p.toNat : Int) ↔ _
      constructor
      · intro h
        constructor
        · omega
        · intro hs
          exact Bool.false_ne_true hs.left
      · intro h
        have hnat := h.left
        omega
  | true =>
      show 0 < p.toInt ↔ _
      rw [BitVec.toInt_eq_msb_cond]
      cases p.msb with
      | false =>
          rw [if_neg Bool.false_ne_true]
          constructor
          · intro h
            constructor
            · omega
            · intro hs
              exact Bool.false_ne_true hs.right
          · intro h
            have hnat := h.left
            omega
      | true =>
          rw [if_pos rfl]
          constructor
          · intro h
            have hlt := p.isLt
            omega
          · intro h
            exact absurd ⟨rfl, rfl⟩ h.right

/-- Exactly one bit is the highest bit in the least signed number only. -/
theorem msb_of_bitsSet_eq_one (hpos : 0 < w) (hone : bitsSet p = 1) :
    p.msb = true ↔ p = BitVec.intMin w := by
  constructor
  · intro hmsb
    rcases (bitsSet_eq_one_iff p).mp hone with ⟨k, hk⟩
    have hlt := p.isLt
    have hge := BitVec.le_toNat_of_msb_true hmsb
    have hkw : k < w := (Nat.pow_lt_pow_iff_right Nat.one_lt_two).mp (hk ▸ hlt)
    have hwk : w - 1 ≤ k := (Nat.pow_le_pow_iff_right Nat.one_lt_two).mp (hk ▸ hge)
    have heq : k = w - 1 := by omega
    apply BitVec.eq_of_toNat_eq
    rw [hk, heq, BitVec.toNat_intMin_of_pos hpos]
  · intro hmin
    rw [hmin]
    rw [BitVec.msb_intMin, decide_eq_true hpos]

/-- `onehot` is right unless the variable is signed and only its highest bit is set. -/
theorem onehot_exact_iff (hx : Reads m x ⟨w, p⟩ s) (hpos : 0 < w) :
    ((NodeHolds m (FixWidthVisitor.fixWidth (onehot x)) ↔ bitsSet p = 1) ↔
      ¬ (s = true ∧ p = BitVec.intMin w)) := by
  rw [(decides_onehot hx hpos).nodeHolds, num_pos_iff]
  have hone := bitsSet_eq_one_iff_and_sub_one p
  constructor
  · intro hiff hmin
    have hset : bitsSet p = 1 := by
      rw [bitsSet_eq_one_iff]
      exact ⟨w - 1, by rw [hmin.right, BitVec.toNat_intMin_of_pos hpos]⟩
    have hmsb := (msb_of_bitsSet_eq_one hpos hset).mpr hmin.right
    exact (hiff.mpr hset).left.right ⟨hmin.left, hmsb⟩
  · intro hmin
    constructor
    · intro h
      exact hone.mpr ⟨h.left.left, h.right⟩
    · intro hset
      have hboth := hone.mp hset
      constructor
      · constructor
        · exact hboth.left
        · intro hmsb
          exact hmin ⟨hmsb.left, (msb_of_bitsSet_eq_one hpos hset).mp hmsb.right⟩
      · exact hboth.right

/-- `bitcount(x) == k` for a value of the given type. -/
def bitcountEquals (x : Ir.Node) (bitsize width : Nat) (sign : Bool) (k : Int) : Ir.Node :=
  .binaryOpr .equalOpr (bitcount x bitsize) (.constant (Context.new_value width sign k))

theorem lt_two_pow_pred {n : Nat} (h : 3 ≤ n) : n < 2 ^ (n - 1) := by
  induction n, h using Nat.le_induction with
  | base => decide
  | succ n hle ih =>
      have hpow : 2 ^ n = 2 * 2 ^ (n - 1) := IntegerType.two_pow_pred (by omega)
      rw [Nat.add_sub_cancel]
      omega

/-- The sum of the bits is their number as long as it does not reach the sign. -/
theorem num_bitsSet (hpos : 0 < w) (p : BitVec w)
    (h : ¬ (s = true ∧ w ≤ 2 ∧ p = BitVec.allOnes w)) :
    SizedBits.num s ⟨w, BitVec.ofNat w (bitsSet p)⟩ = bitsSet p := by
  have hle := bitsSet_le p
  have hlt : bitsSet p < 2 ^ w := Nat.lt_of_le_of_lt hle Nat.lt_two_pow_self
  cases s with
  | false =>
      show ((BitVec.ofNat w (bitsSet p)).toNat : Int) = _
      rw [BitVec.toNat_ofNat, Nat.mod_eq_of_lt hlt]
  | true =>
      have hsmall : 2 * bitsSet p < 2 ^ w := by
        have hpow : 2 ^ w = 2 * 2 ^ (w - 1) := IntegerType.two_pow_pred hpos
        by_cases hw : w ≤ 2
        · have hne : bitsSet p ≠ w := fun hall =>
            h ⟨rfl, hw, (bitsSet_eq_width_iff p).mp hall⟩
          have hone : w - 1 < 2 ^ (w - 1) := Nat.lt_two_pow_self
          omega
        · have hbig := lt_two_pow_pred (show 3 ≤ w by omega)
          omega
      show (BitVec.ofNat w (bitsSet p)).toInt = _
      rw [BitVec.toInt_eq_toNat_cond, BitVec.toNat_ofNat, Nat.mod_eq_of_lt hlt, if_pos hsmall]

theorem reads_new_value (m : Model SolverVar) {width : Nat} {sign : Bool} {k : Int}
    (hpos : 0 < width) (hle : width ≤ 64) (hbool : ¬ (width = 1 ∧ sign = true))
    (hk : (IntegerType.mk width sign).Contains k) :
    exists y : BitVec (Context.new_value width sign k).bitsize,
      Reads m (.constant (Context.new_value width sign k)) ⟨_, y⟩
        (Context.new_value width sign k).sign ∧
      SizedBits.num (Context.new_value width sign k).sign ⟨_, y⟩ = k := by
  have hrange := new_value_inRange_of_contains hpos hle hbool hk
  have hbitsize := (Context.new_value_bitsize_le width sign k).trans hle
  have hsame := MetaSMTVisitor.eval_visitConstant m hrange hbitsize
  rw [eval_constantBits] at hsame
  exists constantBits (Context.new_value width sign k)
  constructor
  · exact Reads.constant m _
  · rw [Option.some.inj hsame]
    exact constantNumber_new_value hpos hle hk

/-- A value is congruent to a small number, modulo a width that holds both, when it is that
number. -/
theorem modEq_iff_eq {n width : Nat} {sign : Bool} {k : Int} {M : Nat} (hwidth : 8 ≤ width)
    (hk : (IntegerType.mk width sign).Contains k)
    (hM : (Context.new_value width sign k).bitsize ≤ M) (hn : n ≤ M) :
    ((n : Int) ≡ k [ZMOD (2 ^ M : Nat)]) ↔ k = n := by
  have hnM : n < 2 ^ M := Nat.lt_of_le_of_lt hn Nat.lt_two_pow_self
  have hpos : 0 < width := by omega
  constructor
  · intro hcongr
    by_cases hnonneg : 0 ≤ k
    · have hlt := (Context.new_value_least hpos hk hnonneg).left
      have hpow : 2 ^ (Context.new_value width sign k).bitsize ≤ 2 ^ M :=
        Nat.pow_le_pow_right (by decide) hM
      have hkM : k < (2 ^ M : Nat) := by
        have hcast : k < (2 ^ (Context.new_value width sign k).bitsize : Nat) := by
          exact_mod_cast hlt
        omega
      have hmod := hcongr
      unfold Int.ModEq at hmod
      rw [Int.emod_eq_of_lt (by omega) (by omega), Int.emod_eq_of_lt hnonneg hkM] at hmod
      exact hmod.symm
    · exfalso
      rcases Context.new_value_cases width sign k with ⟨_, _, hge, _⟩ | ⟨heq, _⟩
      · exact hnonneg hge
      · rw [heq] at hM
        dsimp only at hM
        have hlow : -(2 ^ (width - 1) : Nat) ≤ k := by
          cases sign with
          | false =>
              have hbounds := IntegerType.contains_unsigned.mp hk
              omega
          | true => exact (IntegerType.contains_signed.mp hk).left
        have hwidthM : 2 ^ (width - 1) ≤ 2 ^ (M - 1) :=
          Nat.pow_le_pow_right (by decide) (by omega)
        have hMpow : 2 ^ M = 2 * 2 ^ (M - 1) := IntegerType.two_pow_pred (by omega)
        have hbig := lt_two_pow_pred (show 3 ≤ M by omega)
        rcases Int.ModEq.dvd hcongr.symm with ⟨c, hc⟩
        have hcpos : 0 < c := by
          by_contra hcnonpos
          have hmul : ((2 ^ M : Nat) : Int) * c ≤ 0 :=
            Int.mul_nonpos_of_nonneg_of_nonpos (Int.natCast_nonneg _) (by omega)
          omega
        have hmul : ((2 ^ M : Nat) : Int) * 1 ≤ (2 ^ M : Nat) * c :=
          Int.mul_le_mul_of_nonneg_left (by omega) (Int.natCast_nonneg _)
        omega
  · intro heq
    rw [heq]

/-- `bitcount` is right unless the variable is signed and has all of at most two bits set. -/
theorem bitcount_exact_iff (hx : Reads m x ⟨w, p⟩ s) (hw : w < 2 ^ 32) (hpos : 0 < w) :
    (forall (width : Nat) (sign : Bool) (k : Int), 8 ≤ width -> width ≤ 64 ->
        (IntegerType.mk width sign).Contains k ->
          (NodeHolds m (FixWidthVisitor.fixWidth (bitcountEquals x w width sign k)) ↔
            k = bitsSet p)) ↔
      ¬ (s = true ∧ w ≤ 2 ∧ p = BitVec.allOnes w) := by
  have hholds : forall (width : Nat) (sign : Bool) (k : Int), 8 ≤ width -> width ≤ 64 ->
      (IntegerType.mk width sign).Contains k ->
        (NodeHolds m (FixWidthVisitor.fixWidth (bitcountEquals x w width sign k)) ↔
          (SizedBits.num s ⟨w, BitVec.ofNat w (bitsSet p)⟩ ≡ k
            [ZMOD (2 ^ max w (Context.new_value width sign k).bitsize : Nat)])) := by
    intro width sign k hwidth hle hk
    rcases reads_new_value m (by omega) hle (by omega) hk with ⟨y, hreads, hnum⟩
    have hequal := (reads_bitcount hx hw hpos).equal hreads
    rw [hnum] at hequal
    exact hequal.nodeHolds
  constructor
  · intro hall hones
    have hset : bitsSet p = w := (bitsSet_eq_width_iff p).mpr hones.right.right
    have hcases : w = 1 ∨ w = 2 := by omega
    have hk : (IntegerType.mk 32 true).Contains (-(w : Int)) := by
      rw [IntegerType.contains_signed]
      omega
    have hcongr : SizedBits.num s ⟨w, BitVec.ofNat w (bitsSet p)⟩ = -(w : Int) := by
      rw [hset, hones.left]
      cases hcases with
      | inl hone =>
          rw [hone]
          rfl
      | inr htwo =>
          rw [htwo]
          rfl
    have heq := (hall 32 true (-(w : Int)) (by decide) (by decide) hk).mp
      ((hholds 32 true _ (by decide) (by decide) hk).mpr (by rw [hcongr]))
    omega
  · intro hnot width sign k hwidth hle hk
    rw [hholds width sign k hwidth hle hk, num_bitsSet hpos p hnot]
    exact modEq_iff_eq hwidth hk (le_max_right _ _) ((bitsSet_le p).trans (le_max_left _ _))

end Readings

/-- For a variable of any width and sign, `onehot` is true exactly for one set bit unless the
variable is signed and has its least value, and `bitcount` is the number of set bits unless
the variable is signed and has all of at most two bits set. -/
theorem onehot_bitcount_exact (m : Model SolverVar) (id w : Nat) (s : Bool) (hpos : 0 < w)
    (hw : w < 2 ^ 32) :
    ((NodeHolds m (FixWidthVisitor.fixWidth (onehot (.variableExpr id w s))) ↔
        bitsSet (BitVec.ofNat w (m (.terminal id))) = 1) ↔
      ¬ (s = true ∧ BitVec.ofNat w (m (.terminal id)) = BitVec.intMin w)) ∧
    ((forall (width : Nat) (sign : Bool) (k : Int), 8 ≤ width -> width ≤ 64 ->
        (IntegerType.mk width sign).Contains k ->
          (NodeHolds m (FixWidthVisitor.fixWidth
              (bitcountEquals (.variableExpr id w s) w width sign k)) ↔
            k = bitsSet (BitVec.ofNat w (m (.terminal id))))) ↔
      ¬ (s = true ∧ w ≤ 2 ∧ BitVec.ofNat w (m (.terminal id)) = BitVec.allOnes w)) := by
  have hx := Reads.variableExpr m id w s
  constructor
  · exact onehot_exact_iff hx hpos
  · exact bitcount_exact_iff hx hw hpos

theorem onehot_bitcount_exact_byte :
    (NodeHolds (fun _ => 64) (FixWidthVisitor.fixWidth (onehot (.variableExpr 1 8 true))) ↔
      bitsSet (64 : BitVec 8) = 1) ∧
    (NodeHolds (fun _ => 31) (FixWidthVisitor.fixWidth
        (bitcountEquals (.variableExpr 1 8 true) 8 32 true 5)) ↔
      (5 : Int) = bitsSet (31 : BitVec 8)) := by
  constructor
  · exact (onehot_bitcount_exact (fun _ => 64) 1 8 true (by decide) (by decide)).left.mpr
      (by decide)
  · exact (onehot_bitcount_exact (fun _ => 31) 1 8 true (by decide) (by decide)).right.mpr
      (by decide) 32 true 5 (by decide) (by decide) (by decide)

/-- The least `int` has one bit set and is not taken for one-hot. The one bit of `true` is
counted as minus one. -/
theorem onehot_least :
    (bitsSet (BitVec.ofNat 32 (2 ^ 31)) = 1 ∧
      ¬ NodeHolds (fun _ => 2 ^ 31)
        (FixWidthVisitor.fixWidth (onehot (.variableExpr 1 32 true)))) ∧
    (bitsSet (BitVec.ofNat 1 1) = 1 ∧
      NodeHolds (fun _ => 1)
        (FixWidthVisitor.fixWidth (bitcountEquals (.variableExpr 1 1 true) 1 32 true (-1)))) := by
  decide

end Experimental
end Crave
