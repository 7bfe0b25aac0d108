import Crave.Foundation.BinaryDigits
import Crave.Backend.VariableContainer

/-!
# Values that are read back

The solver gives a value as a string of digits, the highest one first. `AssignResultToRef`
shifts the digits into a host variable, and the host variable becomes a constant again.
-/

namespace Crave
namespace Backend

open Foundation Ir MetaSMTVisitor

namespace AssignResultToRef

variable {w : Nat}

/-- The body of the loop of `set_value`, with the answer of `random_bit` for a character
that is no digit. -/
def assign (val : BitVec w) (ite : Char) (random_bit : Bool) : BitVec w :=
  let val := val <<< 1
  match ite with
  | '0' => val &&& BitVec.ofInt w (-2)
  | '1' => val ||| 1
  | _ => if random_bit then val ||| 1 else val &&& BitVec.ofInt w (-2)

/-- `set_value`, for a type of the given width and sign. The shift is that of two's
complement numbers. `random_bit` answers for a position, with false when it is not set. -/
def set_value (w : Nat) (sign : Bool) (random_bit : Nat -> Bool) (str : List Char) : BitVec w :=
  str.zipIdx.foldl (fun val ite => assign val ite.1 (random_bit ite.2))
    (BitVec.ofInt w (if sign = true ∧ str.head? = some '1' then -1 else 0))

def to_constant (d : VarDecl) (random_bit : Nat -> Bool) (str : List Char) : Constant :=
  toConstantExpr d (set_value d.bitsize d.sign random_bit str).toNat

/-- `metaSMT::read_value`, the digits of a bit-vector. -/
def read_value (x : BitVec w) : List Char :=
  (digits w x.toNat).map fun b => if b then '1' else '0'

def digitsOf (str : List Char) : List Bool :=
  str.map fun c => c == '1'

def IsBinary (str : List Char) : Prop :=
  forall c, c ∈ str -> c = '0' ∨ c = '1'

instance (str : List Char) : Decidable (IsBinary str) :=
  inferInstanceAs (Decidable (forall c, c ∈ str -> c = '0' ∨ c = '1'))

/-!
## One digit
-/

theorem and_minus_two (x : BitVec w) : x <<< 1 &&& BitVec.ofInt w (-2) = x.shiftConcat false := by
  apply BitVec.eq_of_getLsbD_eq
  intro i hi
  rw [BitVec.getLsbD_and, BitVec.getLsbD_shiftLeft, BitVec.getLsbD_shiftConcat]
  cases i with
  | zero => simp
  | succ i =>
      have hone : (BitVec.ofInt w (-2)).getLsbD (i + 1) = true := by
        have hnot : BitVec.ofInt w (-2) = ~~~BitVec.ofNat w 1 :=
          BitVec.ofInt_negSucc_eq_not_ofNat
        rw [hnot, BitVec.getLsbD_not]
        simp [hi]
      rw [hone]
      simp [hi]

theorem or_one (x : BitVec w) : x <<< 1 ||| 1 = x.shiftConcat true := by
  apply BitVec.eq_of_getLsbD_eq
  intro i hi
  rw [BitVec.getLsbD_or, BitVec.getLsbD_shiftLeft, BitVec.getLsbD_shiftConcat]
  cases i with
  | zero => simp [hi]
  | succ i => simp [hi]

theorem assign_eq {c : Char} (hc : c = '0' ∨ c = '1') (x : BitVec w) (random_bit : Bool) :
    assign x c random_bit = x.shiftConcat (c == '1') := by
  cases hc with
  | inl hzero =>
      rw [hzero]
      exact and_minus_two x
  | inr hone =>
      rw [hone]
      exact or_one x

/-- The digit of a character, a random one where the character is none. -/
def digitOf (c : Char) (random_bit : Bool) : Bool :=
  match c with
  | '0' => false
  | '1' => true
  | _ => random_bit

theorem assign_eq_shiftConcat (x : BitVec w) (c : Char) (random_bit : Bool) :
    assign x c random_bit = x.shiftConcat (digitOf c random_bit) := by
  unfold assign digitOf
  split
  · exact and_minus_two x
  · exact or_one x
  · cases random_bit with
    | false => exact and_minus_two x
    | true => exact or_one x

/-!
## All digits
-/

theorem foldl_assign {str : List Char} (hstr : IsBinary str) (random_bit : Nat -> Bool)
    (x : BitVec w) (k : Nat) :
    (str.zipIdx k).foldl (fun val ite => assign val ite.1 (random_bit ite.2)) x =
      (digitsOf str).foldl BitVec.shiftConcat x := by
  induction str generalizing x k with
  | nil => rfl
  | cons c rest ih =>
      rw [List.zipIdx_cons, List.foldl_cons, digitsOf, List.map_cons, List.foldl_cons,
        assign_eq (hstr c List.mem_cons_self)]
      exact ih (fun d hd => hstr d (List.mem_cons_of_mem c hd)) _ _

/-- The characters of a string that fills the type give the bits, the first one the highest. -/
theorem getLsbD_set_value {str : List Char} (hlen : str.length = w) (sign : Bool)
    (random_bit : Nat -> Bool) {i : Nat} (hi : i < w) :
    (set_value w sign random_bit str).getLsbD i =
      digitOf (str.get ⟨w - 1 - i, by omega⟩) (random_bit (w - 1 - i)) := by
  have hfold : set_value w sign random_bit str =
      (str.zipIdx.map fun ite => digitOf ite.1 (random_bit ite.2)).foldl BitVec.shiftConcat
        (BitVec.ofInt w (if sign = true ∧ str.head? = some '1' then -1 else 0)) := by
    simp only [set_value, List.foldl_map, assign_eq_shiftConcat]
  have hlength : (str.zipIdx.map fun ite => digitOf ite.1 (random_bit ite.2)).length = w := by
    rw [List.length_map, List.length_zipIdx, hlen]
  rw [hfold, getLsbD_foldl_shiftConcat _ _ hi, List.getD_eq_getElem?_getD,
    List.getElem?_eq_getElem (by rwa [List.length_reverse, hlength]), Option.getD_some,
    List.getElem_reverse]
  simp [hlen]

/-- The result modulo the width, started from minus one when the first digit is a sign. -/
theorem set_value_eq {str : List Char} (hstr : IsBinary str) (sign : Bool)
    (random_bit : Nat -> Bool) :
    set_value w sign random_bit str =
      BitVec.ofInt w ((ofDigits (digitsOf str) : Int) -
        if sign = true ∧ str.head? = some '1' then 2 ^ str.length else 0) := by
  unfold set_value
  rw [foldl_assign hstr, foldl_shiftConcat_ofInt]
  congr 1
  rw [digitsOf, List.length_map]
  split
  · ring
  · ring

theorem ofDigits_read_value (x : BitVec w) : ofDigits (digitsOf (read_value x)) = x.toNat := by
  have hdigits : digitsOf (read_value x) = digits w x.toNat := by
    unfold digitsOf read_value
    rw [List.map_map]
    conv_rhs => rw [← List.map_id (digits w x.toNat)]
    apply List.map_congr_left
    intro b _
    cases b with
    | false => rfl
    | true => rfl
  rw [hdigits, ofDigits_digits, Nat.mod_eq_of_lt x.isLt]

theorem length_read_value (x : BitVec w) : (read_value x).length = w := by
  unfold read_value
  rw [List.length_map, length_digits]

theorem isBinary_read_value (x : BitVec w) : IsBinary (read_value x) := by
  intro c hc
  rcases List.mem_map.mp hc with ⟨b, _, rfl⟩
  cases b with
  | false => exact Or.inl rfl
  | true => exact Or.inr rfl

theorem two_pow_modEq_zero {n : Nat} (h : w ≤ n) : (2 ^ n : Int) ≡ 0 [ZMOD (2 ^ w : Nat)] := by
  apply Int.modEq_zero_iff_dvd.mpr
  push_cast
  exact pow_dvd_pow 2 h

/-- Digits that fill the type give their number modulo the width. -/
theorem set_value_of_le {str : List Char} (hstr : IsBinary str) (hlen : w ≤ str.length)
    (sign : Bool) (random_bit : Nat -> Bool) :
    set_value w sign random_bit str = BitVec.ofNat w (ofDigits (digitsOf str)) := by
  rw [set_value_eq hstr, ← BitVec.ofInt_natCast]
  apply ofInt_congr
  split
  · have hzero := (Int.ModEq.refl (ofDigits (digitsOf str) : Int)).sub (two_pow_modEq_zero hlen)
    rw [sub_zero] at hzero
    exact hzero
  · rw [sub_zero]

/-- Fewer digits are extended by the first one when the type is signed. -/
theorem set_value_signed {str : List Char} (hstr : IsBinary str) (hne : str ≠ [])
    (random_bit : Nat -> Bool) :
    set_value w true random_bit str =
      (BitVec.ofNat str.length (ofDigits (digitsOf str))).signExtend w := by
  rw [set_value_eq hstr]
  cases str with
  | nil => exact absurd rfl hne
  | cons c rest =>
      have hlen : (digitsOf rest).length = rest.length := List.length_map _
      have htoInt := toInt_ofDigits (c == '1') (digitsOf rest)
      show _ = BitVec.ofInt w (BitVec.ofNat (rest.length + 1)
        (ofDigits ((c == '1') :: digitsOf rest))).toInt
      rw [hlen] at htoInt
      rw [htoInt]
      congr 2
      rw [List.head?_cons, List.length_cons]
      cases hstr c List.mem_cons_self with
      | inl hzero =>
          rw [hzero]
          rfl
      | inr hone =>
          rw [hone]
          rfl

/-!
## The way there and back
-/

theorem set_value_read_value (sign : Bool) (random_bit : Nat -> Bool) (x : BitVec w) :
    set_value w sign random_bit (read_value x) = x := by
  rw [set_value_of_le (isBinary_read_value x) (length_read_value x).ge, ofDigits_read_value,
    BitVec.ofNat_toNat, BitVec.setWidth_eq]

theorem eval_to_constant {d : VarDecl} (hd : d.bitsize ≤ 64) (random_bit : Nat -> Bool)
    (x : BitVec d.bitsize) (m : Model SolverVar) :
    (visitConstant (to_constant d random_bit (read_value x))).1.eval m =
      some ⟨d.bitsize, x⟩ := by
  unfold to_constant
  rw [set_value_read_value, eval_visitConstant m (toConstantExpr_inRange hd _) hd]
  show some (SizedBits.mk d.bitsize ((toConstantExpr d x.toNat).value.setWidth d.bitsize)) = _
  rw [setWidth_toConstantExpr hd, BitVec.ofNat_toNat, BitVec.setWidth_eq]

/-- Digits become the value of a host variable, and a value of the solver is the same after
it has been read, made a constant and translated. -/
theorem set_value_exact :
    (forall (w : Nat) (sign : Bool) (random_bit : Nat -> Bool) (str : List Char),
      IsBinary str -> str ≠ [] ->
        if sign = true ∧ str.length < w then
          set_value w sign random_bit str =
            (BitVec.ofNat str.length (ofDigits (digitsOf str))).signExtend w
        else
          (set_value w sign random_bit str).toNat = ofDigits (digitsOf str) % 2 ^ w) ∧
    (forall (d : VarDecl) (random_bit : Nat -> Bool) (x : BitVec d.bitsize)
        (m : Model SolverVar), d.bitsize ≤ 64 ->
      (visitConstant (to_constant d random_bit (read_value x))).1.eval m =
        some ⟨d.bitsize, x⟩) := by
  constructor
  · intro w sign random_bit str hstr hne
    split
    · next hshort =>
        rw [hshort.left]
        exact set_value_signed hstr hne random_bit
    · next hlong =>
        cases sign with
        | true =>
            have hlen : w ≤ str.length := by
              by_contra hlt
              exact hlong ⟨rfl, Nat.lt_of_not_le hlt⟩
            rw [set_value_of_le hstr hlen, BitVec.toNat_ofNat]
        | false =>
            rw [set_value_eq hstr, if_neg (fun h => Bool.false_ne_true h.left), sub_zero,
              BitVec.ofInt_natCast, BitVec.toNat_ofNat]
  · intro d random_bit x m hd
    exact eval_to_constant hd random_bit x m

theorem set_value_exact_byte :
    set_value 8 true (fun _ => false) ['1', '0', '1'] =
      (BitVec.ofNat 3 (ofDigits [true, false, true])).signExtend 8 ∧
    (visitConstant (to_constant ⟨8, true⟩ (fun _ => false) (read_value (128 : BitVec 8)))).1.eval
      (fun _ => 0) = some ⟨8, 128⟩ := by
  have hbinary : IsBinary ['1', '0', '1'] := by
    intro c hc
    simp only [List.mem_cons, List.not_mem_nil, or_false] at hc
    rcases hc with rfl | rfl | rfl
    · exact Or.inr rfl
    · exact Or.inl rfl
    · exact Or.inr rfl
  constructor
  · exact set_value_exact.left 8 true (fun _ => false) ['1', '0', '1'] hbinary (by decide)
  · exact set_value_exact.right ⟨8, true⟩ (fun _ => false) 128 (fun _ => 0) (by decide)

end AssignResultToRef

end Backend
end Crave
