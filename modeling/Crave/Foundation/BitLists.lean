import Mathlib.Algebra.Order.Ring.Nat
import Mathlib.Data.List.Zip
import Mathlib.Tactic.Ring

/-!
# Lists of bits

A number is given by the list of its bits, the lowest one first, and the operations of
arithmetic are done on the lists bit by bit.
-/

namespace Crave
namespace Foundation
namespace Bits

def toNat : List Bool -> Nat
  | [] => 0
  | b :: rest => b.toNat + 2 * toNat rest

/-- The bit-vector of a given width with the given bits. -/
def word (w : Nat) (bits : List Bool) : BitVec w :=
  BitVec.ofNat w (toNat bits)

theorem toNat_lt (bits : List Bool) : toNat bits < 2 ^ bits.length := by
  induction bits with
  | nil => exact Nat.one_pos
  | cons b rest ih =>
      have hb : b.toNat ≤ 1 := Bool.toNat_le b
      rw [toNat, List.length_cons, Nat.pow_succ]
      omega

theorem toNat_word {w : Nat} {bits : List Bool} (h : bits.length = w) :
    (word w bits).toNat = toNat bits := by
  subst h
  rw [word, BitVec.toNat_ofNat]
  exact Nat.mod_eq_of_lt (toNat_lt bits)

theorem testBit_toNat (bits : List Bool) (i : Nat) :
    (toNat bits).testBit i = bits.getD i false := by
  induction bits generalizing i with
  | nil => simp [toNat]
  | cons b rest ih =>
      cases i with
      | zero =>
          cases b <;> simp [toNat, Nat.testBit_zero]
      | succ i =>
          have hhalf : (b.toNat + 2 * toNat rest) / 2 = toNat rest := by
            have hb : b.toNat ≤ 1 := Bool.toNat_le b
            omega
          rw [toNat, Nat.testBit_succ, hhalf, ih]
          rfl

theorem getLsbD_word (w : Nat) (bits : List Bool) (i : Nat) :
    (word w bits).getLsbD i = (decide (i < w) && bits.getD i false) := by
  rw [word, BitVec.getLsbD_ofNat, testBit_toNat]

theorem toNat_append (low high : List Bool) :
    toNat (low ++ high) = toNat low + 2 ^ low.length * toNat high := by
  induction low with
  | nil => simp [toNat]
  | cons b rest ih =>
      rw [List.cons_append, toNat, toNat, ih, List.length_cons, Nat.pow_succ]
      ring

theorem toNat_replicate_false (n : Nat) : toNat (List.replicate n false) = 0 := by
  induction n with
  | zero => rfl
  | succ n ih =>
      rw [List.replicate_succ, toNat, ih]
      rfl

theorem toNat_inj {as bs : List Bool} (hlength : as.length = bs.length) :
    toNat as = toNat bs ↔ as = bs := by
  constructor
  · intro h
    apply List.ext_getElem hlength
    intro i ha hb
    have hbit := congrArg (fun n => n.testBit i) h
    simp only [testBit_toNat] at hbit
    simpa [List.getD, ha, hb] using hbit
  · intro h
    rw [h]

theorem toNat_set {bits : List Bool} {i : Nat} (hi : i < bits.length) (b : Bool)
    (hclear : bits.getD i false = false) :
    toNat (bits.set i b) = toNat bits + b.toNat * 2 ^ i := by
  induction bits generalizing i with
  | nil => exact absurd hi (Nat.not_lt_zero i)
  | cons c rest ih =>
      cases i with
      | zero =>
          have hc : c = false := hclear
          rw [List.set_cons_zero, toNat, toNat, hc]
          simp only [Bool.toNat_false, Nat.pow_zero]
          omega
      | succ i =>
          have hrest := ih (Nat.lt_of_succ_lt_succ hi) hclear
          rw [List.set_cons_succ, toNat, toNat, hrest, Nat.pow_succ]
          ring

/-!
## Addition

The bits are added from the lowest one on, with a carry.
-/

def add : List Bool -> List Bool -> Bool -> List Bool
  | a :: as, b :: bs, carry =>
      ((a ^^ b) ^^ carry) :: add as bs (a && b || carry && (a || b))
  | _, _, _ => []

theorem toNat_fullAdder (a b carry : Bool) :
    ((a ^^ b) ^^ carry).toNat + 2 * (a && b || carry && (a || b)).toNat =
      a.toNat + b.toNat + carry.toNat := by
  cases a <;> cases b <;> cases carry <;> rfl

theorem length_add (as bs : List Bool) (carry : Bool) :
    (add as bs carry).length = min as.length bs.length := by
  induction as generalizing bs carry with
  | nil => simp [add]
  | cons a as ih =>
      cases bs with
      | nil => simp [add]
      | cons b bs =>
          rw [add, List.length_cons, ih, List.length_cons, List.length_cons]
          exact (Nat.succ_min_succ _ _).symm

theorem toNat_add {as bs : List Bool} (h : as.length = bs.length) (carry : Bool) :
    toNat (add as bs carry) = (toNat as + toNat bs + carry.toNat) % 2 ^ as.length := by
  induction as generalizing bs carry with
  | nil =>
      cases bs with
      | nil => simp [add, toNat, Nat.mod_one]
      | cons b bs => cases h
  | cons a as ih =>
      cases bs with
      | nil => cases h
      | cons b bs =>
          have hrest := ih (Nat.succ.inj h) (a && b || carry && (a || b))
          have hfull := toNat_fullAdder a b carry
          have hlow : ((a ^^ b) ^^ carry).toNat < 2 := Bool.toNat_lt _
          have hsum : toNat (a :: as) + toNat (b :: bs) + carry.toNat =
              ((a ^^ b) ^^ carry).toNat +
                2 * (toNat as + toNat bs + (a && b || carry && (a || b)).toNat) := by
            rw [toNat, toNat]
            omega
          rw [add, toNat, hrest, hsum, List.length_cons, Nat.pow_succ, Nat.mul_comm (2 ^ as.length),
            Nat.mod_mul, Nat.add_mul_mod_self_left, Nat.mod_eq_of_lt hlow,
            Nat.add_mul_div_left _ _ Nat.two_pos, Nat.div_eq_of_lt hlow, Nat.zero_add]

theorem word_add {w : Nat} {as bs : List Bool} (ha : as.length = w) (hb : bs.length = w) :
    word w (add as bs false) = word w as + word w bs := by
  apply BitVec.eq_of_toNat_eq
  have hlength : (add as bs false).length = w := by
    rw [length_add, ha, hb, Nat.min_self]
  rw [toNat_word hlength, BitVec.toNat_add, toNat_word ha, toNat_word hb,
    toNat_add (ha.trans hb.symm), ha]
  rfl

/-!
## Comparison

The bits are compared from the highest one down; the state is whether the decision has
fallen and whether the bits have been equal so far.
-/

def less (a b : Bool) : Bool :=
  !a && b

def great (a b : Bool) : Bool :=
  a && !b

def compareStep (now : Bool -> Bool -> Bool) (p : Bool × Bool) (state : Bool × Bool) :
    Bool × Bool :=
  (state.1 || (state.2 && now p.1 p.2), (p.1 == p.2) && state.2)

theorem toNat_cons_lt_cons (a b : Bool) (as bs : List Bool) :
    toNat (a :: as) < toNat (b :: bs) ↔
      toNat as < toNat bs ∨ toNat as = toNat bs ∧ less a b = true := by
  rw [toNat, toNat]
  cases a <;> cases b <;> simp [less] <;> omega

theorem toNat_cons_eq_cons (a b : Bool) (as bs : List Bool) :
    toNat (a :: as) = toNat (b :: bs) ↔ toNat as = toNat bs ∧ a = b := by
  rw [toNat, toNat]
  cases a <;> cases b <;> simp <;> omega

/-- The lower bits decide when the higher ones have been equal. -/
theorem foldr_compareStep_less {as bs : List Bool} (h : as.length = bs.length)
    (state : Bool × Bool) :
    (as.zip bs).foldr (compareStep less) state =
      (state.1 || (state.2 && decide (toNat as < toNat bs)),
        decide (toNat as = toNat bs) && state.2) := by
  induction as generalizing bs with
  | nil =>
      cases bs with
      | nil => simp [toNat]
      | cons b bs => cases h
  | cons a as ih =>
      cases bs with
      | nil => cases h
      | cons b bs =>
          rw [List.zip_cons_cons, List.foldr_cons, ih (Nat.succ.inj h)]
          simp only [compareStep, toNat_cons_lt_cons, toNat_cons_eq_cons, Prod.mk.injEq]
          constructor
          · cases state.1 <;> cases state.2 <;> simp [Bool.decide_or, Bool.decide_and]
          · cases a <;> cases b <;> simp

theorem foldr_compareStep_great {as bs : List Bool} (h : as.length = bs.length)
    (state : Bool × Bool) :
    (as.zip bs).foldr (compareStep great) state =
      (state.1 || (state.2 && decide (toNat bs < toNat as)),
        decide (toNat as = toNat bs) && state.2) := by
  have heq : decide (toNat as = toNat bs) = decide (toNat bs = toNat as) :=
    decide_eq_decide.mpr eq_comm
  have hswap := foldr_compareStep_less h.symm state
  rw [← List.zip_swap as bs, List.foldr_map] at hswap
  rw [heq, ← hswap]
  congr 1
  funext p state
  rcases p with ⟨a, b⟩
  cases a <;> cases b <;> rfl

theorem ule_eq_ult_or_eq {w : Nat} (x y : BitVec w) : x.ule y = (x.ult y || x == y) := by
  rw [Bool.eq_iff_iff, BitVec.ule_eq_decide, BitVec.ult_eq_decide, decide_eq_true_eq,
    Bool.or_eq_true, decide_eq_true_eq, beq_iff_eq, ← BitVec.toNat_inj]
  exact Nat.le_iff_lt_or_eq

/-!
## The highest bit
-/

section Highest

variable {n : Nat} {as bs : List Bool}

theorem toNat_snoc (as : List Bool) (x : Bool) :
    toNat (as ++ [x]) = toNat as + 2 ^ as.length * x.toNat := by
  rw [toNat_append]
  rfl

theorem msb_word_snoc (ha : as.length = n) (x : Bool) : (word (n + 1) (as ++ [x])).msb = x := by
  subst ha
  rw [BitVec.msb_eq_getLsbD_last, getLsbD_word]
  simp [List.getD]

theorem ult_word_snoc (ha : as.length = n) (hb : bs.length = n) (x y : Bool) :
    (word (n + 1) (as ++ [x])).ult (word (n + 1) (bs ++ [y])) =
      (less x y || ((x == y) && decide (toNat as < toNat bs))) := by
  have hlta := toNat_lt as
  have hltb := toNat_lt bs
  rw [ha] at hlta
  rw [hb] at hltb
  rw [BitVec.ult_eq_decide, toNat_word (by simp [ha]), toNat_word (by simp [hb]), toNat_snoc,
    toNat_snoc, ha, hb]
  cases x with
  | false =>
      cases y with
      | false => simp [less]
      | true =>
          simp only [less, Bool.not_false, Bool.and_true, Bool.true_or, decide_eq_true_eq,
            Bool.toNat_false, Bool.toNat_true]
          omega
  | true =>
      cases y with
      | false =>
          simp only [less, Bool.not_true, Bool.and_false, Bool.false_or, decide_eq_false_iff_not,
            Bool.toNat_false, Bool.toNat_true, Bool.false_and, show (true == false) = false from rfl]
          omega
      | true => simp [less]

/-- Of two signed numbers the one with the highest bit set is the smaller one. -/
theorem slt_word_snoc (ha : as.length = n) (hb : bs.length = n) (x y : Bool) :
    (word (n + 1) (as ++ [x])).slt (word (n + 1) (bs ++ [y])) =
      (great x y || ((x == y) && decide (toNat as < toNat bs))) := by
  rw [BitVec.slt_eq_ult, msb_word_snoc ha, msb_word_snoc hb, ult_word_snoc ha hb]
  cases x <;> cases y <;> simp [less, great]

theorem beq_word_snoc (ha : as.length = n) (hb : bs.length = n) (x y : Bool) :
    (word (n + 1) (as ++ [x]) == word (n + 1) (bs ++ [y])) =
      (decide (toNat as = toNat bs) && (x == y)) := by
  have hiff : word (n + 1) (as ++ [x]) = word (n + 1) (bs ++ [y]) ↔
      toNat as = toNat bs ∧ x = y := by
    have hlength : (as ++ [x]).length = (bs ++ [y]).length := by simp [ha, hb]
    rw [← BitVec.toNat_inj, toNat_word (by simp [ha]), toNat_word (by simp [hb]),
      toNat_inj hlength, toNat_inj (ha.trans hb.symm)]
    constructor
    · intro h
      rcases List.append_inj h (ha.trans hb.symm) with ⟨hlow, hhigh⟩
      exact ⟨hlow, List.singleton_inj.mp hhigh⟩
    · rintro ⟨rfl, rfl⟩
      rfl
  rw [Bool.eq_iff_iff]
  simp only [beq_iff_eq, Bool.and_eq_true, decide_eq_true_eq]
  exact hiff

end Highest

end Bits
end Foundation
end Crave
