import Crave.Foundation.RestoringDivision
import Crave.MetaSmt.BitBlastWords

/-!
# Products, shifts and quotients of the bit-blaster

The operations with loops over the bits of an operand: the product adds up shifted copies,
a shift has a case for every distance, and the division restores the dividend.
-/

namespace Crave
namespace MetaSmt
namespace BitBlast

open Foundation

variable {result_base : Type} {_solver : PredicateSolver result_base} {w : Nat}
  {a b : List result_base}

theorem ok_bind {α β : Type} (x : α) (f : α -> Except String β) :
    (Except.ok x >>= f) = f x := rfl

/-!
## Products
-/

theorem sign_extend_singleton (hw : 0 < w) (x : result_base) :
    sign_extend (w - 1) (.bv [x]) = .ok (.bv (List.replicate w x)) := by
  obtain ⟨n, rfl⟩ : exists n, w = n + 1 := ⟨w - 1, by omega⟩
  rfl

theorem word_and_replicate (r : _solver.Reading) (x : result_base) :
    r.word w b &&& r.word w (List.replicate w x) = if r.sem x then r.word w b else 0#w := by
  apply BitVec.eq_of_getLsbD_eq
  intro i hi
  have hbit : (r.word w (List.replicate w x)).getLsbD i = r.sem x := by
    rw [r.getLsbD_word List.length_replicate hi x, List.getD_replicate _ hi]
  rw [BitVec.getLsbD_and, hbit]
  cases r.sem x with
  | false => simp
  | true => simp

theorem ofNat_mul_two_pow (B : BitVec w) (bit : Bool) (i : Nat) :
    (if bit then B else 0#w) <<< i = BitVec.ofNat w (bit.toNat * 2 ^ i) * B := by
  apply BitVec.eq_of_toNat_eq
  rw [BitVec.toNat_shiftLeft, BitVec.toNat_mul, BitVec.toNat_ofNat, Nat.mod_mul_mod,
    Nat.shiftLeft_eq]
  cases bit with
  | false => simp
  | true =>
      rw [if_pos rfl, Bool.toNat_true, Nat.one_mul, Nat.mul_comm]

/-- One step adds the shifted multiplicand when the bit of the multiplier is set. -/
theorem addShifted_computes (_solver : PredicateSolver result_base)
    (hw : 0 < w) (hb : b.length = w) {ret : List result_base}
    (hret : ret.length = w) (x : result_base) (i : Nat) :
    Computes _solver (addShifted _solver w (.bv b) (.bv ret) (x, i)) w fun r =>
      r.word w ret + BitVec.ofNat w ((r.sem x).toNat * 2 ^ i) * r.word w b := by
  have hreplicate : (List.replicate w x).length = w := List.length_replicate
  rcases bvand_computes _solver hb hreplicate with ⟨tmp, hand, htmp, hword⟩
  have hshift : (shiftL _solver tmp i).length = w := by rw [length_shiftL, htmp]
  rcases bvadd_computes _solver hret hshift with ⟨sum, hadd, hsum, hsumWord⟩
  refine ⟨sum, ?_, hsum, ?_⟩
  · rw [addShifted, sign_extend_singleton hw]
    simp only [hand, Result.getBv]
    exact hadd
  · intro r
    simp only [hsumWord, word_shiftL r htmp, hword, word_and_replicate r, ofNat_mul_two_pow]

theorem foldlM_addShifted (_solver : PredicateSolver result_base)
    (hw : 0 < w) (hb : b.length = w) (bits : List result_base) (k : Nat)
    {ret : List result_base} (hret : ret.length = w) :
    Computes _solver ((bits.zipIdx k).foldlM (addShifted _solver w (.bv b)) (.bv ret)) w fun r =>
      r.word w ret + BitVec.ofNat w (Bits.toNat (bits.map r.sem) * 2 ^ k) * r.word w b := by
  induction bits generalizing k ret with
  | nil =>
      refine ⟨ret, rfl, hret, ?_⟩
      intro r
      simp [Bits.toNat]
  | cons x bits ih =>
      rcases addShifted_computes _solver hw hb hret x k with ⟨ret', hstep, hret', hword⟩
      rcases ih (k + 1) hret' with ⟨sum, hrest, hsum, hsumWord⟩
      refine ⟨sum, ?_, hsum, ?_⟩
      · rw [List.zipIdx_cons, List.foldlM_cons, hstep]
        exact hrest
      · intro r
        have hsplit : ((r.sem x).toNat + 2 * Bits.toNat (bits.map r.sem)) * 2 ^ k =
            (r.sem x).toNat * 2 ^ k + Bits.toNat (bits.map r.sem) * 2 ^ (k + 1) := by
          rw [Nat.pow_succ]
          ring
        simp only [hsumWord, hword, List.map_cons, Bits.toNat, hsplit]
        rw [BitVec.ofNat_add, BitVec.add_mul, BitVec.add_assoc]

theorem bvmul_computes (_solver : PredicateSolver result_base)
    (hw : 0 < w) (ha : a.length = w) (hb : b.length = w) :
    Computes _solver (bvmul _solver (.bv a) (.bv b)) w fun r => r.word w a * r.word w b := by
  have hzero : (List.replicate w _solver.false_tag).length = w := List.length_replicate
  rcases foldlM_addShifted _solver hw hb a 0 hzero with ⟨prod, hmul, hprod, hword⟩
  refine ⟨prod, ?_, hprod, ?_⟩
  · simp only [bvmul, Result.getBv, ha]
    exact hmul
  · intro r
    simp only [hword, r.word_replicate_false, Nat.pow_zero, Nat.mul_one, BitVec.zero_add]
    rfl

/-!
## Shifts
-/

/-- One case takes the shifted vector when the distance is its own. -/
theorem shiftCase_computes (_solver : PredicateSolver result_base)
    {v ret : List result_base} {shifted : Nat -> List result_base}
    (hv : v.length = w) (hret : ret.length = w) (i : Nat) (hshifted : (shifted i).length = w) :
    Computes _solver (shiftCase _solver w shifted (.bv v) (.bv ret) i) w fun r =>
      if r.word w v = BitVec.ofNat w i then r.word w (shifted i) else r.word w ret := by
  rcases bvuint_computes _solver i w with ⟨index, hindex, hlength, hword⟩
  have hbvuint : bvuint _solver i w = .bv index := Except.ok.inj hindex
  rcases equal_decides _solver hv hlength with ⟨eq, hequal, heq⟩
  rcases ite_computes _solver eq hshifted hret with ⟨ret', hite, hret', hword'⟩
  refine ⟨ret', ?_, hret', ?_⟩
  · simp only [shiftCase, hbvuint, hequal]
    exact hite
  · intro r
    simp only [hword', heq, hword, beq_iff_eq]

theorem foldlM_shiftCase (_solver : PredicateSolver result_base)
    {v init : List result_base} {shifted : Nat -> List result_base}
    (hv : v.length = w) (hinit : init.length = w) (hshifted : forall i, (shifted i).length = w)
    {n : Nat} (hn : n ≤ 2 ^ w) :
    Computes _solver ((List.range n).foldlM (shiftCase _solver w shifted (.bv v)) (.bv init)) w
      fun r =>
        if (r.word w v).toNat < n then r.word w (shifted (r.word w v).toNat)
        else r.word w init := by
  induction n with
  | zero => exact ⟨init, rfl, hinit, fun r => rfl⟩
  | succ n ih =>
      rcases ih (Nat.le_of_succ_le hn) with ⟨ret, hbefore, hret, hword⟩
      rcases shiftCase_computes _solver hv hret n (hshifted n) with
        ⟨ret', hstep, hret', hword'⟩
      refine ⟨ret', ?_, hret', ?_⟩
      · rw [List.range_succ, List.foldlM_append, hbefore, ok_bind, List.foldlM_cons, hstep]
        rfl
      · intro r
        have heq : r.word w v = BitVec.ofNat w n ↔ (r.word w v).toNat = n := by
          rw [← BitVec.toNat_inj, BitVec.toNat_ofNat, Nat.mod_eq_of_lt hn]
        simp only [hword', hword, heq]
        by_cases hlast : (r.word w v).toNat = n
        · rw [if_pos hlast, hlast, if_pos (Nat.lt_succ_self n)]
        · rw [if_neg hlast]
          by_cases hlt : (r.word w v).toNat < n
          · rw [if_pos hlt, if_pos (Nat.lt_succ_of_lt hlt)]
          · rw [if_neg hlt, if_neg (by omega)]

theorem bvshr_computes (_solver : PredicateSolver result_base)
    (ha : a.length = w) (hb : b.length = w) :
    Computes _solver (bvshr _solver (.bv a) (.bv b)) w fun r => r.word w a >>> r.word w b := by
  have hzero : (List.replicate w _solver.false_tag).length = w := List.length_replicate
  have hshifted : forall i, (shiftR a i _solver.false_tag).length = w := by
    intro i
    rw [length_shiftR, ha]
  rcases foldlM_shiftCase _solver hb hzero hshifted (Nat.le_of_lt Nat.lt_two_pow_self)
    with ⟨ret, hshift, hret, hword⟩
  refine ⟨ret, ?_, hret, ?_⟩
  · simp only [bvshr, Result.getBv, ha]
    exact hshift
  · intro r
    simp only [hword, word_shiftR r ha, r.word_replicate_false, BitVec.ushiftRight_eq']
    split
    · rfl
    · next hge => rw [BitVec.ushiftRight_eq_zero (Nat.le_of_not_lt hge)]

theorem bvshl_computes (_solver : PredicateSolver result_base)
    (ha : a.length = w) (hb : b.length = w) :
    Computes _solver (bvshl _solver (.bv a) (.bv b)) w fun r => r.word w a <<< r.word w b := by
  have hzero : (List.replicate w _solver.false_tag).length = w := List.length_replicate
  have hshifted : forall i, (shiftL _solver a i).length = w := by
    intro i
    rw [length_shiftL, ha]
  rcases foldlM_shiftCase _solver hb hzero hshifted (Nat.le_of_lt Nat.lt_two_pow_self)
    with ⟨ret, hshift, hret, hword⟩
  refine ⟨ret, ?_, hret, ?_⟩
  · simp only [bvshl, Result.getBv, ha]
    exact hshift
  · intro r
    simp only [hword, word_shiftL r ha, r.word_replicate_false, BitVec.shiftLeft_eq']
    split
    · rfl
    · next hge => rw [BitVec.shiftLeft_eq_zero (Nat.le_of_not_lt hge)]

/-!
## The loops of the division
-/

theorem toNat_shiftLeft_one (x : BitVec w) (h : ¬ 2 ^ (w - 1) ≤ x.toNat) :
    (x <<< 1).toNat = 2 * x.toNat := by
  rw [BitVec.toNat_shiftLeft, Nat.shiftLeft_eq, Nat.pow_one, Nat.mul_comm]
  apply Nat.mod_eq_of_lt
  cases w with
  | zero =>
      have hx := x.isLt
      omega
  | succ w =>
      rw [Nat.add_sub_cancel] at h
      rw [Nat.pow_succ]
      omega

theorem exists_getLast? (_solver : PredicateSolver result_base) (hw : 0 < w) (ha : a.length = w) :
    exists bit, a.getLast? = some bit ∧
      forall r : _solver.Reading, r.sem bit = (r.word w a).msb := by
  rcases List.eq_nil_or_concat a with rfl | ⟨as, x, rfl⟩
  · rw [List.length_nil] at ha
    omega
  · rw [List.concat_eq_append] at ha ⊢
    refine ⟨x, by simp, ?_⟩
    intro r
    have has : as.length = w - 1 := by
      rw [List.length_append, List.length_singleton] at ha
      omega
    rw [BitVec.msb_eq_getLsbD_last, r.getLsbD_word ha (by omega) x,
      List.getD_append_right _ _ _ _ (by omega), has, Nat.sub_self]
    rfl

theorem normaliseStep_computes (_solver : PredicateSolver result_base)
    (hw : 0 < w) (hb : b.length = w) :
    exists bits, normaliseStep _solver (.bv b) = .ok (.bv bits) ∧ bits.length = w ∧
      forall r : _solver.Reading, (r.word w bits).toNat =
        if 2 ^ (w - 1) ≤ (r.word w b).toNat then (r.word w b).toNat
        else 2 * (r.word w b).toNat := by
  rcases exists_getLast? _solver hw hb with ⟨tmp, hlast, hmsb⟩
  have hshift : (shiftL _solver b 1).length = w := by rw [length_shiftL, hb]
  rcases ite_computes _solver tmp hb hshift with ⟨bits, hite, hbits, hword⟩
  refine ⟨bits, ?_, hbits, ?_⟩
  · simp only [normaliseStep, Result.getBv, hlast]
    exact hite
  · intro r
    simp only [hword, hmsb, word_shiftL r hb, BitVec.msb_eq_decide, decide_eq_true_eq]
    split
    · rfl
    · next h => exact toNat_shiftLeft_one _ h

theorem normalise_computes (_solver : PredicateSolver result_base)
    (hw : 0 < w) (hb : b.length = w) (n : Nat) :
    exists bits, normalise _solver n (.bv b) = .ok (.bv bits) ∧ bits.length = w ∧
      forall r : _solver.Reading, (r.word w bits).toNat =
        RestoringDivision.normalise w n (r.word w b).toNat := by
  induction n generalizing b with
  | zero => exact ⟨b, rfl, hb, fun r => rfl⟩
  | succ n ih =>
      rcases normaliseStep_computes _solver hw hb with ⟨b', hstep, hb', hword⟩
      rcases ih hb' with ⟨bits, hrest, hbits, hword'⟩
      refine ⟨bits, ?_, hbits, ?_⟩
      · simp only [normalise, hstep]
        exact hrest
      · intro r
        rw [hword', hword, RestoringDivision.normalise]

/-- The variables of the division loop are vectors of one width and a predicate. -/
def DivRem.Sized (w : Nat) (st : DivRem result_base) : Prop :=
  exists x d c, st.arg1 = .bv x ∧ x.length = w ∧ st.divisor = .bv d ∧ d.length = w ∧
    st.ret.length = w ∧ st.checker = .base c

/-- The numbers that the variables of the division loop stand for. -/
def DivRem.read (r : _solver.Reading) (w : Nat) (st : DivRem result_base) :
    RestoringDivision.State :=
  { remainder := match st.arg1 with
      | .bv x => (r.word w x).toNat
      | .base _ => 0
    divisor := match st.divisor with
      | .bv d => (r.word w d).toNat
      | .base _ => 0
    quotient := (r.word w st.ret).toNat
    done := match st.checker with
      | .bv _ => false
      | .base c => r.sem c }

theorem DivRem.read_mk (r : _solver.Reading) (x d ret : List result_base) (c : result_base) :
    DivRem.read r w { arg1 := .bv x, divisor := .bv d, ret := ret, checker := .base c } =
      { remainder := (r.word w x).toNat, divisor := (r.word w d).toNat
        quotient := (r.word w ret).toNat, done := r.sem c } := rfl

theorem toNat_word_set (r : _solver.Reading) (ha : a.length = w) {i : Nat} (hi : i < w)
    (bit : result_base) (hclear : (r.word w a).toNat.testBit i = false) :
    (r.word w (a.set i bit)).toNat = (r.word w a).toNat + (r.sem bit).toNat * 2 ^ i := by
  have hset : (a.set i bit).length = w := by rw [List.length_set, ha]
  rw [r.toNat_word ha, Bits.testBit_toNat] at hclear
  rw [r.toNat_word hset, r.toNat_word ha, List.map_set]
  exact Bits.toNat_set (by rw [List.length_map, ha]; exact hi) _ hclear

/-- One step of the loop, when the bit of the quotient it decides on is clear. -/
theorem divRemStep_computes (_solver : PredicateSolver result_base)
    (hw : 0 < w) (hb : b.length = w) {st : DivRem result_base}
    (hst : DivRem.Sized w st) {i : Nat} (hi : 0 < i) (hiw : i ≤ w) :
    exists st', divRemStep _solver w (.bv b) i st = .ok st' ∧ DivRem.Sized w st' ∧
      forall r : _solver.Reading, (st.read r w).quotient.testBit (w - i) = false ->
        st'.read r w = RestoringDivision.step w (r.word w b).toNat i (st.read r w) := by
  rcases st with ⟨arg1, divisor, ret, checker⟩
  rcases hst with ⟨x, d, c, harg1, hx, hdivisor, hd, hret, hchecker⟩
  simp only at harg1 hdivisor hret hchecker
  subst harg1 hdivisor hchecker
  have hshiftD : (shiftR d 1 _solver.false_tag).length = w := by rw [length_shiftR, hd]
  rcases bvuge_decides _solver hw hx hd with ⟨uge, huge, hugeSem⟩
  rcases equal_decides _solver hd hb with ⟨eq, hequal, heqSem⟩
  rcases bvsub_computes _solver hx hd with ⟨diff, hsub, hdiff, hdiffWord⟩
  rcases ite_computes _solver uge hdiff hx with ⟨x', hiteX, hx', hx'Word⟩
  rcases ite_computes _solver eq hd hshiftD with ⟨d', hiteD, hd', hd'Word⟩
  rcases ite_decides _solver c _solver.false_tag uge with ⟨bit, hiteBit, hbitSem⟩
  have hset : (ret.set (w - i) bit).length = w := by rw [List.length_set, hret]
  have hshiftR : (shiftR (ret.set (w - i) bit) 1 _solver.false_tag).length = w := by
    rw [length_shiftR, hset]
  rcases ite_computes _solver c hshiftR hset with ⟨ret', hiteRet, hret', hret'Word⟩
  rcases ite_decides _solver eq _solver.true_tag c with ⟨c', hiteC, hc'Sem⟩
  refine ⟨{ arg1 := .bv x', divisor := .bv d', ret := ret', checker := .base c' }, ?_,
    ⟨x', d', c', rfl, hx', rfl, hd', hret', rfl⟩, ?_⟩
  · simp only [divRemStep, huge, hequal, hsub, hiteX, Result.getBv, hiteD, hiteBit,
      Result.getBase, hiteRet, hiteC, ok_bind]
    rfl
  · intro r hclear
    have heq : r.word w d = r.word w b ↔ (r.word w d).toNat = (r.word w b).toNat :=
      BitVec.toNat_inj.symm
    have hle : (r.word w d).ule (r.word w x) = true ↔
        (r.word w d).toNat ≤ (r.word w x).toNat := by
      rw [BitVec.ule_eq_decide, decide_eq_true_eq]
    rw [DivRem.read_mk] at hclear
    rw [DivRem.read_mk, DivRem.read_mk, RestoringDivision.step, RestoringDivision.State.mk.injEq]
    refine ⟨?_, ?_, ?_, ?_⟩
    · simp only [hx'Word, hugeSem, hdiffWord]
      by_cases hdx : (r.word w d).toNat ≤ (r.word w x).toNat
      · rw [if_pos (hle.mpr hdx), if_pos hdx, BitVec.toNat_sub_of_le hdx]
      · rw [if_neg (fun h => hdx (hle.mp h)), if_neg hdx]
    · simp only [hd'Word, heqSem, beq_iff_eq, word_shiftR r hd]
      by_cases hdb : (r.word w d).toNat = (r.word w b).toNat
      · rw [if_pos (heq.mpr hdb), if_pos hdb]
      · rw [if_neg (fun h => hdb (heq.mp h)), if_neg hdb, BitVec.toNat_ushiftRight,
          Nat.shiftRight_eq_div_pow, Nat.pow_one]
    · have hquotient := toNat_word_set r hret (i := w - i) (by omega) bit hclear
      simp only [hret'Word, word_shiftR r hset]
      by_cases hc : r.sem c = true
      · have hbit : r.sem bit = false := by
          rw [hbitSem]
          simp [hc]
        rw [if_pos hc, if_pos hc, BitVec.toNat_ushiftRight, hquotient, hbit,
          Nat.shiftRight_eq_div_pow, Nat.pow_one, Bool.toNat_false, Nat.zero_mul, Nat.add_zero]
      · have hbit : r.sem bit = decide ((r.word w d).toNat ≤ (r.word w x).toNat) := by
          simp only [hbitSem, if_neg hc, hugeSem, BitVec.ule_eq_decide]
        rw [if_neg hc, if_neg hc, hquotient, hbit]
        congr 1
        by_cases hdx : (r.word w d).toNat ≤ (r.word w x).toNat
        · rw [if_pos hdx, decide_eq_true hdx, Bool.toNat_true, Nat.one_mul]
        · rw [if_neg hdx, decide_eq_false hdx, Bool.toNat_false, Nat.zero_mul]
    · simp only [hc'Sem, heqSem, beq_iff_eq, r.sem_true_tag]
      by_cases hdb : (r.word w d).toNat = (r.word w b).toNat
      · rw [if_pos (heq.mpr hdb), if_pos hdb]
      · rw [if_neg (fun h => hdb (heq.mp h)), if_neg hdb]

/-- The loop runs the restoring division: the bits it decides on are clear before. -/
theorem divRem_computes (_solver : PredicateSolver result_base)
    (hw : 0 < w) (hb : b.length = w) {st : DivRem result_base}
    (hst : DivRem.Sized w st) {n : Nat} (hn : n ≤ w) :
    exists st', divRem _solver w (.bv b) n st = .ok st' ∧ DivRem.Sized w st' ∧
      forall (r : _solver.Reading) (x : Nat),
        st.read r w = RestoringDivision.start w x (r.word w b).toNat ->
        st'.read r w = RestoringDivision.run w (r.word w b).toNat n
          (RestoringDivision.start w x (r.word w b).toNat) := by
  induction n with
  | zero => exact ⟨st, rfl, hst, fun r x h => h⟩
  | succ n ih =>
      rcases ih (Nat.le_of_succ_le hn) with ⟨st', hbefore, hst', hread⟩
      rcases divRemStep_computes _solver hw hb hst' (Nat.succ_pos n) hn with
        ⟨st'', hstep, hst'', hread'⟩
      refine ⟨st'', ?_, hst'', ?_⟩
      · rw [divRem, hbefore]
        exact hstep
      · intro r x hstart
        have hrun := hread r x hstart
        have hclear : (st'.read r w).quotient.testBit (w - (n + 1)) = false := by
          rcases RestoringDivision.pow_dvd_quotient w x (r.word w b).toNat
            (Nat.le_of_succ_le hn) with ⟨k, hk⟩
          have hlow : ¬ w - n ≤ w - (n + 1) := by omega
          rw [hrun, hk, Nat.testBit_two_pow_mul, decide_eq_false hlow, Bool.false_and]
        rw [hread' r hclear, hrun, RestoringDivision.run]

/-!
## Quotients and remainders
-/

/-- The quotient of the bit-blaster: it is one when the divisor is zero. -/
def quotient (x y : BitVec w) : BitVec w :=
  if y = 0#w then BitVec.ofNat w 1 else x.udiv y

/-- What `uDivRem` returns. -/
def unsignedValue (value : Bool) (x y : BitVec w) : BitVec w :=
  if value then quotient x y else x.umod y

/-- What `sDivRem` returns: the result takes its sign from both operands, the remainder
as well as the quotient. -/
def signedValue (value : Bool) (x y : BitVec w) : BitVec w :=
  if (x.msb ^^ y.msb) = true then -unsignedValue value x.abs y.abs
  else unsignedValue value x.abs y.abs

theorem run_start_word (hw : 0 < w) (x y : BitVec w) :
    (RestoringDivision.run w y.toNat w (RestoringDivision.start w x.toNat y.toNat)).quotient =
        (quotient x y).toNat ∧
      (RestoringDivision.run w y.toNat w (RestoringDivision.start w x.toNat y.toNat)).remainder =
        (x.umod y).toNat := by
  have humod : (x.umod y).toNat = x.toNat % y.toNat := BitVec.toNat_umod
  rw [humod, quotient]
  by_cases hy : y = 0#w
  · have hone : 1 < 2 ^ w := Nat.one_lt_two_pow (Nat.pos_iff_ne_zero.mp hw)
    subst hy
    rw [if_pos rfl, BitVec.toNat_ofNat, BitVec.toNat_ofNat, Nat.zero_mod,
      RestoringDivision.run_start_zero hw, Nat.mod_eq_of_lt hone, Nat.mod_zero]
    exact ⟨rfl, rfl⟩
  · have hpos : 0 < y.toNat := by
      rw [Nat.pos_iff_ne_zero]
      intro h
      apply hy
      apply BitVec.eq_of_toNat_eq
      rw [h, BitVec.toNat_ofNat, Nat.zero_mod]
    rw [if_neg hy, RestoringDivision.run_start x.isLt hpos y.isLt]
    exact ⟨BitVec.toNat_udiv.symm, rfl⟩

theorem uDivRem_computes (_solver : PredicateSolver result_base)
    (hw : 0 < w) (ha : a.length = w) (hb : b.length = w) (value : Bool) :
    Computes _solver (uDivRem _solver (.bv a) (.bv b) value) w fun r =>
      unsignedValue value (r.word w a) (r.word w b) := by
  rcases normalise_computes _solver hw hb w with ⟨d, hnormalise, hd, hdWord⟩
  have hzero : (List.replicate w _solver.false_tag).length = w := List.length_replicate
  have hsized : DivRem.Sized w
      { arg1 := .bv a, divisor := .bv d, ret := List.replicate w _solver.false_tag
        checker := .base _solver.false_tag } :=
    ⟨a, d, _solver.false_tag, rfl, ha, rfl, hd, hzero, rfl⟩
  rcases divRem_computes _solver hw hb hsized (Nat.le_refl w) with
    ⟨⟨arg1, divisor, ret, checker⟩, hrun, hsized', hread⟩
  rcases hsized' with ⟨x, d', c, harg1, hx, hdivisor, -, hret, hchecker⟩
  simp only at harg1 hdivisor hret hchecker
  subst harg1 hdivisor hchecker
  have hvalue : uDivRem _solver (.bv a) (.bv b) value =
      .ok (if value then .bv ret else .bv x) := by
    simp only [uDivRem, Result.getBv, ok_bind, ha, hnormalise, hrun]
    rfl
  have hwords : forall r : _solver.Reading,
      r.word w ret = quotient (r.word w a) (r.word w b) ∧
        r.word w x = (r.word w a).umod (r.word w b) := by
    intro r
    have hstart := hread r (r.word w a).toNat (by
      rw [DivRem.read_mk, hdWord, r.word_replicate_false, r.sem_false_tag, BitVec.toNat_ofNat,
        Nat.zero_mod, RestoringDivision.start])
    rcases run_start_word hw (r.word w a) (r.word w b) with ⟨hquotient, hremainder⟩
    rw [← hstart, DivRem.read_mk] at hquotient hremainder
    exact ⟨BitVec.eq_of_toNat_eq hquotient, BitVec.eq_of_toNat_eq hremainder⟩
  cases value with
  | false => exact ⟨x, hvalue, hx, fun r => (hwords r).2⟩
  | true => exact ⟨ret, hvalue, hret, fun r => (hwords r).1⟩

theorem back_computes (_solver : PredicateSolver result_base) (hw : 0 < w) (ha : a.length = w) :
    exists bit, back a = .ok bit ∧ forall r : _solver.Reading, r.sem bit = (r.word w a).msb := by
  rcases exists_getLast? _solver hw ha with ⟨bit, hlast, hmsb⟩
  exact ⟨bit, by simp only [back, hlast], hmsb⟩

theorem ite_abs_computes (_solver : PredicateSolver result_base)
    (ha : a.length = w) {neg : List result_base}
    (hneg : neg.length = w) (hword : forall r : _solver.Reading, r.word w neg = -r.word w a)
    {bit : result_base} (hbit : forall r : _solver.Reading, r.sem bit = (r.word w a).msb) :
    Computes _solver (ite _solver (.base bit) (.bv neg) (.bv a)) w fun r => (r.word w a).abs := by
  rcases ite_computes _solver bit hneg ha with ⟨abs, hite, habs, hword'⟩
  refine ⟨abs, hite, habs, ?_⟩
  intro r
  simp only [hword', hbit, hword, BitVec.abs_eq]

theorem sDivRem_computes (_solver : PredicateSolver result_base)
    (hw : 0 < w) (ha : a.length = w) (hb : b.length = w) (value : Bool) :
    Computes _solver (sDivRem _solver (.bv a) (.bv b) value) w fun r =>
      signedValue value (r.word w a) (r.word w b) := by
  rcases bvneg_computes _solver ha with ⟨na, hnegA, hna, hnaWord⟩
  rcases bvneg_computes _solver hb with ⟨nb, hnegB, hnb, hnbWord⟩
  rcases back_computes _solver hw ha with ⟨signA, hbackA, hsignA⟩
  rcases back_computes _solver hw hb with ⟨signB, hbackB, hsignB⟩
  rcases ite_abs_computes _solver ha hna hnaWord hsignA with ⟨aneg, hiteA, haneg, hanegWord⟩
  rcases ite_abs_computes _solver hb hnb hnbWord hsignB with ⟨bneg, hiteB, hbneg, hbnegWord⟩
  rcases uDivRem_computes _solver hw haneg hbneg value with
    ⟨test, htest, hlength, htestWord⟩
  rcases bvneg_computes _solver hlength with ⟨nt, hnegT, hnt, hntWord⟩
  rcases ite_computes _solver (_solver.xor_tag signA signB) hnt hlength with
    ⟨ret, hite, hret, hword⟩
  refine ⟨ret, ?_, hret, ?_⟩
  · simp only [sDivRem, Result.getBv, ok_bind, hnegA, hnegB, hbackA, hbackB, hiteA, hiteB, htest,
      hnegT]
    exact hite
  · intro r
    simp only [hword, hntWord, htestWord, hanegWord, hbnegWord, r.sem_xor_tag, hsignA, hsignB,
      signedValue]

end BitBlast
end MetaSmt
end Crave
