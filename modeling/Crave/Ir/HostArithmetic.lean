import Crave.Ir.EvalVisitor

/-!
# Host arithmetic of the evaluator

`EvalVisitor` computes with the operators of the host language, which leave the
quotient of the least integer by minus one and shifts by the width of the operand
or more undefined.  The module lists the host operations of a visit and says when
all of them are defined.
-/

namespace Crave
namespace Ir
namespace EvalVisitor

/-!
## Host operations
-/

inductive HostOperation where
  | division (signed : Bool) (dividend divisor : BitVec 64)
  | shift (amount : Int)
deriving DecidableEq, Repr

/-- The divisor is not zero and the quotient fits into the 64-bit type; the amount of a
shift is less than the width. -/
def HostOperation.Defined : HostOperation -> Prop
  | division true dividend divisor =>
      divisor.toInt ≠ 0 ∧ -(2 ^ 63) ≤ dividend.toInt.tdiv divisor.toInt ∧
        dividend.toInt.tdiv divisor.toInt < 2 ^ 63
  | division false dividend divisor =>
      divisor.toNat ≠ 0 ∧ dividend.toNat / divisor.toNat < 2 ^ 64
  | shift amount => 0 ≤ amount ∧ amount < 64

/-- What a visit does after the operands of a node have been visited. -/
inductive Application where
  | binary (op : BinaryOperator) (lhs rhs : StackEntry)
  | slice (r l : Nat)

/-- A division is guarded against a zero divisor.  A slice shifts once for every bit of
its mask, and the masked value by the lower bound. -/
def Application.operations : Application -> List HostOperation
  | binary .devideOpr lhs rhs =>
      if rhs.1.value = 0 then []
      else [.division (lhs.1.sign || rhs.1.sign) lhs.1.value rhs.1.value]
  | binary .moduloOpr lhs rhs =>
      if rhs.1.value = 0 then []
      else [.division (lhs.1.sign || rhs.1.sign) lhs.1.value rhs.1.value]
  | binary .shiftLeftOpr _ rhs => [.shift rhs.1.value.toNat]
  | binary .shiftRightOpr _ rhs => [.shift rhs.1.value.toNat]
  | binary _ _ _ => []
  | slice r l =>
      (List.range' l (r + 1 - l)).map (fun i : Nat => HostOperation.shift (i : Int)) ++
        [.shift l]

/-- The applications of a visit, in their order.  A visit that throws makes no more. -/
def applications (stored : Node -> Nat) : Node -> EvalMap -> List Application
  | .unaryOpr _ child, evalMap_ => applications stored child evalMap_
  | .inside child _, evalMap_ => applications stored child evalMap_
  | .extendExpr child _, evalMap_ => applications stored child evalMap_
  | .binaryOpr op lhs rhs, evalMap_ =>
      let bound :=
        if op = .equalOpr then
          bindTemporary (castId stored lhs) (castId stored rhs) evalMap_
        else
          evalMap_
      applications stored lhs bound ++
        match visit stored lhs bound with
        | .error _ => []
        | .ok (fst, evalMap_) =>
            applications stored rhs evalMap_ ++
              match visit stored rhs evalMap_ with
              | .error _ => []
              | .ok (snd, _) => [.binary op fst snd]
  | .ifThenElse a b c, evalMap_ =>
      applications stored a evalMap_ ++
        match visit stored a evalMap_ with
        | .error _ => []
        | .ok (_, evalMap_) =>
            applications stored b evalMap_ ++
              match visit stored b evalMap_ with
              | .error _ => []
              | .ok (_, evalMap_) => applications stored c evalMap_
  | .bitslice child r l, evalMap_ =>
      applications stored child evalMap_ ++
        match visit stored child evalMap_ with
        | .error _ => []
        | .ok _ => [.slice r l]
  | _, _ => []

def operations (stored : Node -> Nat) (n : Node) (evalMap_ : EvalMap) : List HostOperation :=
  (applications stored n evalMap_).flatMap Application.operations

/-!
## When they are defined
-/

/-- The least integer is not divided by minus one as signed numbers, and no shift is by
64 or more. -/
def Application.Safe : Application -> Prop
  | binary .devideOpr lhs rhs =>
      ¬ ((lhs.1.sign || rhs.1.sign) = true ∧ lhs.1.value = BitVec.intMin 64 ∧
        rhs.1.value = -1)
  | binary .moduloOpr lhs rhs =>
      ¬ ((lhs.1.sign || rhs.1.sign) = true ∧ lhs.1.value = BitVec.intMin 64 ∧
        rhs.1.value = -1)
  | binary .shiftLeftOpr _ rhs => rhs.1.value.toNat < 64
  | binary .shiftRightOpr _ rhs => rhs.1.value.toNat < 64
  | binary _ _ _ => True
  | slice r l => (l ≤ r -> r < 64) ∧ l < 64

theorem defined_division_iff (signed : Bool) (dividend : BitVec 64) {divisor : BitVec 64}
    (hne : divisor ≠ 0) :
    (HostOperation.division signed dividend divisor).Defined ↔
      ¬ (signed = true ∧ dividend = BitVec.intMin 64 ∧ divisor = -1) := by
  cases signed with
  | false =>
      have hpos : divisor.toNat ≠ 0 := by
        intro hzero
        exact hne (BitVec.eq_of_toNat_eq hzero)
      constructor
      · intro _ h
        cases h.left
      · intro _
        constructor
        · exact hpos
        · exact lt_of_le_of_lt (Nat.div_le_self _ _) dividend.isLt
  | true =>
      have hpos : divisor.toInt ≠ 0 := by
        intro hzero
        exact hne (BitVec.eq_of_toInt_eq hzero)
      constructor
      · intro h hleast
        have hquotient := h.right.right
        rw [hleast.right.left, hleast.right.right] at hquotient
        revert hquotient
        decide
      · intro h
        have hne' : dividend ≠ BitVec.intMin 64 ∨ divisor ≠ -1#64 := by
          by_contra hboth
          rw [not_or, not_not, not_not] at hboth
          exact h ⟨rfl, hboth.left, hboth.right⟩
        have hdiv := BitVec.toInt_sdiv_of_ne_or_ne dividend divisor hne'
        refine ⟨hpos, ?_, ?_⟩
        · rw [← hdiv]
          exact BitVec.le_toInt _
        · rw [← hdiv]
          exact BitVec.toInt_lt

theorem defined_shift_iff (amount : Nat) :
    (HostOperation.shift amount).Defined ↔ amount < 64 := by
  unfold HostOperation.Defined
  omega

theorem defined_guarded_iff (signed : Bool) (dividend divisor : BitVec 64) :
    (forall o, o ∈ (if divisor = 0 then [] else
        [HostOperation.division signed dividend divisor]) -> o.Defined) ↔
      ¬ (signed = true ∧ dividend = BitVec.intMin 64 ∧ divisor = -1) := by
  by_cases hzero : divisor = 0
  · rw [if_pos hzero]
    constructor
    · intro _ h
      rw [hzero] at h
      exact absurd h.right.right (by decide)
    · intro _ o ho
      cases ho
  · rw [if_neg hzero, List.forall_mem_singleton]
    exact defined_division_iff signed dividend hzero

theorem defined_slice_iff (r l : Nat) :
    (forall o, o ∈ (Application.slice r l).operations -> o.Defined) ↔
      (l ≤ r -> r < 64) ∧ l < 64 := by
  simp only [Application.operations, List.forall_mem_append, List.forall_mem_map,
    List.forall_mem_singleton, defined_shift_iff]
  constructor
  · intro h
    constructor
    · intro hle
      exact h.left r (List.mem_range'_1.mpr (by omega))
    · exact h.right
  · intro h
    constructor
    · intro i hi
      have hin := List.mem_range'_1.mp hi
      have hr := h.left (by omega)
      omega
    · exact h.right

theorem defined_operations_iff (a : Application) :
    (forall o, o ∈ a.operations -> o.Defined) ↔ a.Safe := by
  cases a with
  | binary op lhs rhs =>
      cases op with
      | devideOpr => exact defined_guarded_iff _ _ _
      | moduloOpr => exact defined_guarded_iff _ _ _
      | shiftLeftOpr => exact (List.forall_mem_singleton).trans (defined_shift_iff _)
      | shiftRightOpr => exact (List.forall_mem_singleton).trans (defined_shift_iff _)
      | _ =>
          constructor
          · intro _
            trivial
          · intro _ o ho
            cases ho
  | slice r l => exact defined_slice_iff r l

theorem exists_visitBinaryOpr {op : BinaryOperator} {lhs rhs : StackEntry}
    (h : (Application.binary op lhs rhs).Safe) :
    exists entry, visitBinaryOpr op lhs rhs = .ok entry := by
  have hdivision : forall f g : BitVec 64 -> BitVec 64 -> BitVec 64,
      ¬ ((lhs.1.sign || rhs.1.sign) = true ∧ lhs.1.value = BitVec.intMin 64 ∧
        rhs.1.value = -1) -> exists entry, divisionResult f g lhs rhs = .ok entry := by
    intro f g hsafe
    unfold divisionResult
    split
    · exact ⟨_, rfl⟩
    · split
      · next hsign =>
          split
          · next hleast => exact absurd ⟨hsign, hleast⟩ hsafe
          · exact ⟨_, rfl⟩
      · exact ⟨_, rfl⟩
  have hshift : forall f : BitVec 64 -> BitVec 64 -> BitVec 64, rhs.1.value.toNat < 64 ->
      exists entry, shiftResult f lhs rhs = .ok entry := by
    intro f hlt
    unfold shiftResult
    rw [if_pos hlt]
    exact ⟨_, rfl⟩
  cases op with
  | devideOpr => exact hdivision _ _ h
  | moduloOpr => exact hdivision _ _ h
  | shiftLeftOpr => exact hshift _ h
  | shiftRightOpr => exact hshift _ h
  | _ => exact ⟨_, rfl⟩

theorem safe_applications_iff (stored : Node -> Nat) (n : Node) (evalMap_ : EvalMap) :
    (forall o, o ∈ operations stored n evalMap_ -> o.Defined) ↔
      forall a, a ∈ applications stored n evalMap_ -> a.Safe := by
  unfold operations
  constructor
  · intro h a ha
    apply (defined_operations_iff a).mp
    intro o ho
    exact h o (List.mem_flatMap.mpr ⟨a, ha, ho⟩)
  · intro h o ho
    rcases List.mem_flatMap.mp ho with ⟨a, ha, hoa⟩
    exact (defined_operations_iff a).mpr (h a ha) o hoa

/-!
## The expression in arithmetic modulo 2 ^ 64

What an expression stands for under an assignment, as a word of 64 bits with the mark of a
signed number.  Variables without a value count as zero.  No operator of the visitor is
used; only the equalities assign variables on the way, as the visitor has it.
-/

structure HostNumber where
  word : BitVec 64
  signed : Bool

def truthNumber (b : Bool) : HostNumber :=
  { word := if b then 1 else 0, signed := true }

def unaryNumber : UnaryOperator -> HostNumber -> HostNumber
  | .notOpr, x => truthNumber (x.word == 0)
  | .negOpr, x => { x with word := -x.word }
  | .complementOpr, x => { x with word := ~~~x.word }

/-- The operands are signed numbers as soon as one of them is marked.  A quotient by zero is
not known and counts as zero. -/
def binaryNumber : BinaryOperator -> HostNumber -> HostNumber -> HostNumber
  | .andOpr, x, y => { word := x.word &&& y.word, signed := x.signed || y.signed }
  | .orOpr, x, y => { word := x.word ||| y.word, signed := x.signed || y.signed }
  | .logicalAndOpr, x, y => truthNumber (x.word != 0 && y.word != 0)
  | .logicalOrOpr, x, y => truthNumber (x.word != 0 || y.word != 0)
  | .xorOpr, x, y => { word := x.word ^^^ y.word, signed := x.signed || y.signed }
  | .equalOpr, x, y => truthNumber (x.word == y.word)
  | .notEqualOpr, x, y => truthNumber (x.word != y.word)
  | .lessOpr, x, y => truthNumber (x.word.toNat < y.word.toNat)
  | .lessEqualOpr, x, y => truthNumber (x.word.toNat ≤ y.word.toNat)
  | .greaterOpr, x, y => truthNumber (x.word.toNat > y.word.toNat)
  | .greaterEqualOpr, x, y => truthNumber (x.word.toNat ≥ y.word.toNat)
  | .plusOpr, x, y => { word := x.word + y.word, signed := x.signed || y.signed }
  | .minusOpr, x, y => { word := x.word - y.word, signed := x.signed || y.signed }
  | .multipliesOpr, x, y => { word := x.word * y.word, signed := x.signed || y.signed }
  | .devideOpr, x, y =>
      if y.word = 0 then { word := 0, signed := true }
      else if x.signed || y.signed then { word := x.word.sdiv y.word, signed := true }
      else { word := x.word.udiv y.word, signed := false }
  | .moduloOpr, x, y =>
      if y.word = 0 then { word := 0, signed := true }
      else if x.signed || y.signed then { word := x.word.srem y.word, signed := true }
      else { word := x.word.umod y.word, signed := false }
  | .shiftLeftOpr, x, y =>
      { word := x.word <<< y.word.toNat, signed := x.signed || y.signed }
  | .shiftRightOpr, x, y =>
      { word := x.word >>> y.word.toNat, signed := x.signed || y.signed }

/-- The bits from `l` to `r`. -/
def sliceNumber (r l : Nat) (x : HostNumber) : HostNumber :=
  { word := BitVec.ofNat 64 (x.word.toNat / 2 ^ l % 2 ^ (r + 1 - l)), signed := false }

/-- The assignment after the equalities of an expression, from left to right. -/
def bound (stored : Node -> Nat) : Node -> EvalMap -> EvalMap
  | .unaryOpr _ child, evalMap_ => bound stored child evalMap_
  | .inside child _, evalMap_ => bound stored child evalMap_
  | .extendExpr child _, evalMap_ => bound stored child evalMap_
  | .binaryOpr op lhs rhs, evalMap_ =>
      bound stored rhs (bound stored lhs
        (if op = .equalOpr then bindTemporary (castId stored lhs) (castId stored rhs) evalMap_
         else evalMap_))
  | .ifThenElse a b c, evalMap_ => bound stored c (bound stored b (bound stored a evalMap_))
  | .bitslice child _ _, evalMap_ => bound stored child evalMap_
  | _, evalMap_ => evalMap_

def variableNumber : Option Constant -> HostNumber
  | some c => { word := c.value, signed := c.sign }
  | none => { word := 0, signed := true }

def hostNumber (stored : Node -> Nat) : Node -> EvalMap -> HostNumber
  | .variableExpr id _ _, evalMap_ => variableNumber (evalMap_ id)
  | .constant c, _ => { word := c.value, signed := c.sign }
  | .vectorExpr id _ _, evalMap_ => variableNumber (evalMap_ id)
  | .unaryOpr op child, evalMap_ => unaryNumber op (hostNumber stored child evalMap_)
  | .inside child collection, evalMap_ =>
      truthNumber (collection.any fun c => c.value == (hostNumber stored child evalMap_).word)
  | .extendExpr child _, evalMap_ => hostNumber stored child evalMap_
  | .binaryOpr op lhs rhs, evalMap_ =>
      let before :=
        if op = .equalOpr then bindTemporary (castId stored lhs) (castId stored rhs) evalMap_
        else evalMap_
      binaryNumber op (hostNumber stored lhs before)
        (hostNumber stored rhs (bound stored lhs before))
  | .ifThenElse a b c, evalMap_ =>
      if (hostNumber stored a evalMap_).word ≠ 0 then
        hostNumber stored b (bound stored a evalMap_)
      else
        hostNumber stored c (bound stored b (bound stored a evalMap_))
  | .bitslice child r l, evalMap_ => sliceNumber r l (hostNumber stored child evalMap_)
  | _, _ => { word := 0, signed := true }

/-- The evaluator refuses the expression. -/
def throws : Node -> Bool
  | .placeholder _ => true
  | .unaryOpr _ child => throws child
  | .inside child _ => throws child
  | .extendExpr child _ => throws child
  | .binaryOpr _ lhs rhs => throws lhs || throws rhs
  | .vectorAccess _ _ => true
  | .ifThenElse a b c => throws a || throws b || throws c
  | .forEach _ _ => true
  | .unique _ => true
  | .bitslice child _ _ => throws child
  | _ => false

/-- No signed division of the least number by minus one, and no shift by 64 or more. -/
def SafeNumbers : BinaryOperator -> HostNumber -> HostNumber -> Prop
  | .devideOpr, x, y =>
      ¬ ((x.signed || y.signed) = true ∧ x.word = BitVec.intMin 64 ∧ y.word = -1)
  | .moduloOpr, x, y =>
      ¬ ((x.signed || y.signed) = true ∧ x.word = BitVec.intMin 64 ∧ y.word = -1)
  | .shiftLeftOpr, _, y => y.word.toNat < 64
  | .shiftRightOpr, _, y => y.word.toNat < 64
  | _, _, _ => True

/-- The operators of an expression have safe operands and its slices end below 64, except for
those that come after a part which the evaluator refuses. -/
def ArithmeticDefined (stored : Node -> Nat) : Node -> EvalMap -> Prop
  | .unaryOpr _ child, evalMap_ => ArithmeticDefined stored child evalMap_
  | .inside child _, evalMap_ => ArithmeticDefined stored child evalMap_
  | .extendExpr child _, evalMap_ => ArithmeticDefined stored child evalMap_
  | .binaryOpr op lhs rhs, evalMap_ =>
      let before :=
        if op = .equalOpr then bindTemporary (castId stored lhs) (castId stored rhs) evalMap_
        else evalMap_
      ArithmeticDefined stored lhs before ∧ (throws lhs = false ->
        ArithmeticDefined stored rhs (bound stored lhs before) ∧ (throws rhs = false ->
          SafeNumbers op (hostNumber stored lhs before)
            (hostNumber stored rhs (bound stored lhs before))))
  | .ifThenElse a b c, evalMap_ =>
      ArithmeticDefined stored a evalMap_ ∧ (throws a = false ->
        ArithmeticDefined stored b (bound stored a evalMap_) ∧ (throws b = false ->
          ArithmeticDefined stored c (bound stored b (bound stored a evalMap_))))
  | .bitslice child r l, evalMap_ =>
      ArithmeticDefined stored child evalMap_ ∧
        (throws child = false -> (l ≤ r -> r < 64) ∧ l < 64)
  | _, _ => True

def numberOf (entry : StackEntry) : HostNumber :=
  { word := entry.1.value, signed := entry.1.sign }

theorem numberOf_visitVariableExpr (id : Nat) (evalMap_ : EvalMap) :
    numberOf (visitVariableExpr id evalMap_) = variableNumber (evalMap_ id) := by
  unfold visitVariableExpr
  cases evalMap_ id with
  | none => rfl
  | some c => rfl

theorem numberOf_visitUnaryOpr (op : UnaryOperator) (entry : StackEntry) :
    numberOf (visitUnaryOpr op entry) = unaryNumber op (numberOf entry) := by
  cases op <;> rfl

theorem numberOf_visitBinaryOpr {op : BinaryOperator} {fst snd entry : StackEntry}
    (h : visitBinaryOpr op fst snd = .ok entry) :
    numberOf entry = binaryNumber op (numberOf fst) (numberOf snd) := by
  have hdivision : forall s u : BitVec 64 -> BitVec 64 -> BitVec 64,
      divisionResult s u fst snd = .ok entry ->
        numberOf entry =
          if snd.1.value = 0 then { word := 0, signed := true }
          else if fst.1.sign || snd.1.sign then
            { word := s fst.1.value snd.1.value, signed := true }
          else { word := u fst.1.value snd.1.value, signed := false } := by
    intro s u hdiv
    unfold divisionResult at hdiv
    split at hdiv
    · next hzero =>
        cases hdiv
        rw [if_pos hzero]
        rfl
    · next hzero =>
        rw [if_neg hzero]
        split at hdiv
        · next hsign =>
            rw [if_pos hsign]
            split at hdiv
            · cases hdiv
            · cases hdiv
              rfl
        · next hsign =>
            rw [if_neg hsign]
            cases hdiv
            rfl
  cases op with
  | devideOpr => exact hdivision _ _ h
  | moduloOpr => exact hdivision _ _ h
  | shiftLeftOpr =>
      simp only [visitBinaryOpr, shiftResult] at h
      split at h
      · cases h
        rfl
      · cases h
  | shiftRightOpr =>
      simp only [visitBinaryOpr, shiftResult] at h
      split at h
      · cases h
        rfl
      · cases h
  | _ =>
      cases h
      rfl

theorem safe_binary_iff (op : BinaryOperator) (fst snd : StackEntry) :
    (Application.binary op fst snd).Safe ↔ SafeNumbers op (numberOf fst) (numberOf snd) := by
  cases op <;> exact Iff.rfl

theorem getLsbD_sliceMask {r l i : Nat} (hi : i < 64) :
    (sliceMask r l).getLsbD i = decide (l ≤ i ∧ i ≤ r) := by
  have hfold : forall (is : List Nat) (v : BitVec 64),
      (is.foldl (fun v i => v ||| (1#64 <<< i)) v).getLsbD i =
        (v.getLsbD i || decide (i ∈ is)) := by
    intro is
    induction is with
    | nil =>
        intro v
        simp
    | cons j rest ih =>
        intro v
        have hbit : (1#64 <<< j).getLsbD i = decide (i = j) := by
          by_cases hlt : i < j
          · have hne : i ≠ j := by omega
            simp [hlt, hne]
          · by_cases heq : i = j
            · subst heq
              simp [hi]
            · have hsub : i - j ≠ 0 := by omega
              simp [hlt, heq, hsub]
        rw [List.foldl_cons, ih, BitVec.getLsbD_or, hbit, Bool.or_assoc]
        simp
  unfold sliceMask
  rw [hfold]
  simp only [BitVec.ofNat_eq_ofNat, BitVec.getLsbD_zero, Bool.false_or,
    List.mem_range'_1, decide_eq_decide]
  omega

theorem numberOf_visitBitslice (r l : Nat) (entry : StackEntry) :
    numberOf (visitBitslice r l entry) = sliceNumber r l (numberOf entry) := by
  rcases entry with ⟨⟨value, bitsize, sign⟩, known⟩
  have hbits : (sliceMask r l &&& value) >>> l =
      BitVec.ofNat 64 (value.toNat / 2 ^ l % 2 ^ (r + 1 - l)) := by
    apply BitVec.eq_of_getLsbD_eq
    intro i hi
    rw [BitVec.getLsbD_ushiftRight, BitVec.getLsbD_and, BitVec.getLsbD_ofNat,
      Nat.testBit_mod_two_pow, Nat.testBit_div_two_pow, BitVec.testBit_toNat, Nat.add_comm i l,
      decide_eq_true hi, Bool.true_and]
    by_cases hlt : l + i < 64
    · have hrange : decide (l ≤ l + i ∧ l + i ≤ r) = decide (i < r + 1 - l) := by
        rw [decide_eq_decide]
        omega
      rw [getLsbD_sliceMask hlt, hrange]
    · rw [BitVec.getLsbD_of_ge value _ (Nat.le_of_not_lt hlt), Bool.and_false, Bool.and_false]
  simp only [numberOf, visitBitslice, sliceNumber, hbits]

/-- A visit that ends normally leaves the number of the expression and the assignment after
its equalities. -/
theorem visit_number {stored : Node -> Nat} {n : Node} {evalMap_ later : EvalMap}
    {entry : StackEntry} (h : visit stored n evalMap_ = .ok (entry, later)) :
    numberOf entry = hostNumber stored n evalMap_ ∧ later = bound stored n evalMap_ := by
  induction n generalizing evalMap_ later entry with
  | placeholder id => cases h
  | variableExpr id bitsize sign =>
      cases h
      exact ⟨numberOf_visitVariableExpr id evalMap_, rfl⟩
  | constant c =>
      cases h
      exact ⟨rfl, rfl⟩
  | vectorExpr id bitsize sign =>
      cases h
      exact ⟨numberOf_visitVariableExpr id evalMap_, rfl⟩
  | unaryOpr op child ih =>
      simp only [visit] at h
      split at h
      · cases h
      · next hchild =>
          cases h
          rcases ih hchild with ⟨hnumber, hlater⟩
          exact ⟨by rw [numberOf_visitUnaryOpr, hnumber, hostNumber], hlater⟩
  | inside child collection ih =>
      simp only [visit] at h
      split at h
      · cases h
      · next entry' _ hchild =>
          cases h
          rcases ih hchild with ⟨hnumber, hlater⟩
          refine ⟨?_, hlater⟩
          rw [hostNumber, ← hnumber]
          rfl
  | extendExpr child value ih =>
      simp only [visit] at h
      split at h
      · cases h
      · next hchild =>
          cases h
          rcases ih hchild with ⟨hnumber, hlater⟩
          exact ⟨hnumber, hlater⟩
  | binaryOpr op lhs rhs ihl ihr =>
      simp only [visit] at h
      split at h
      · cases h
      · next hlhs =>
          split at h
          · cases h
          · next hrhs =>
              split at h
              · cases h
              · next hentry =>
                  cases h
                  rcases ihl hlhs with ⟨hfst, hmid⟩
                  rcases ihr hrhs with ⟨hsnd, hlater⟩
                  rw [hmid] at hsnd hlater
                  refine ⟨?_, hlater⟩
                  rw [numberOf_visitBinaryOpr hentry, hfst, hsnd]
                  rfl
  | vectorAccess lhs rhs ihl ihr => cases h
  | ifThenElse a b c iha ihb ihc =>
      simp only [visit] at h
      split at h
      · cases h
      · next fst _ ha =>
          split at h
          · cases h
          · next hb =>
              split at h
              · cases h
              · next hc =>
                  cases h
                  rcases iha ha with ⟨hfst, hfirst⟩
                  rcases ihb hb with ⟨hsnd, hsecond⟩
                  rcases ihc hc with ⟨htrd, hlater⟩
                  rw [hfirst] at hsnd hsecond
                  rw [hsecond] at htrd hlater
                  refine ⟨?_, hlater⟩
                  have hword : (hostNumber stored a evalMap_).word = fst.1.value := by
                    rw [← hfst]
                    rfl
                  rw [hostNumber, hword, visitIfThenElse]
                  split
                  · exact hsnd
                  · exact htrd
  | forEach lhs rhs ihl ihr => cases h
  | unique child ih => cases h
  | bitslice child r l ih =>
      simp only [visit] at h
      split at h
      · cases h
      · next hchild =>
          cases h
          rcases ih hchild with ⟨hnumber, hlater⟩
          exact ⟨by rw [numberOf_visitBitslice, hnumber, hostNumber], hlater⟩

/-- What a visit comes to: an exception for what the evaluator refuses, and an entry otherwise,
as long as the arithmetic is defined. -/
structure Computes (stored : Node -> Nat) (n : Node) (evalMap_ : EvalMap) : Prop where
  safe : (forall a, a ∈ applications stored n evalMap_ -> a.Safe) ↔
    ArithmeticDefined stored n evalMap_
  refused : throws n = true -> exists msg, visit stored n evalMap_ = .error msg
  result : throws n = false -> ArithmeticDefined stored n evalMap_ ->
    exists entry, visit stored n evalMap_ = .ok (entry, bound stored n evalMap_)

section Computes

variable {stored : Node -> Nat} {n : Node} {evalMap_ : EvalMap}

theorem Computes.leaf {entry : StackEntry} (happ : applications stored n evalMap_ = [])
    (hdefined : ArithmeticDefined stored n evalMap_) (hthrows : throws n = false)
    (hvisit : visit stored n evalMap_ = .ok (entry, bound stored n evalMap_)) :
    Computes stored n evalMap_ := by
  constructor
  · rw [happ]
    exact iff_of_true (List.forall_mem_nil _) hdefined
  · intro h
    rw [hthrows] at h
    cases h
  · intro _ _
    exact ⟨entry, hvisit⟩

theorem Computes.refusal {msg : String} (happ : applications stored n evalMap_ = [])
    (hdefined : ArithmeticDefined stored n evalMap_) (hthrows : throws n = true)
    (hvisit : visit stored n evalMap_ = .error msg) : Computes stored n evalMap_ := by
  constructor
  · rw [happ]
    exact iff_of_true (List.forall_mem_nil _) hdefined
  · intro _
    exact ⟨msg, hvisit⟩
  · intro h
    rw [hthrows] at h
    cases h

/-- An operand whose applications are all safe throws or has its number. -/
theorem Computes.cases (h : Computes stored n evalMap_)
    (hdefined : ArithmeticDefined stored n evalMap_) :
    (throws n = true ∧ exists msg, visit stored n evalMap_ = .error msg) ∨
      (throws n = false ∧ exists entry,
        visit stored n evalMap_ = .ok (entry, bound stored n evalMap_) ∧
          numberOf entry = hostNumber stored n evalMap_) := by
  cases hthrows : throws n with
  | true => exact Or.inl ⟨rfl, h.refused hthrows⟩
  | false =>
      rcases h.result hthrows hdefined with ⟨entry, hentry⟩
      exact Or.inr ⟨rfl, entry, hentry, (visit_number hentry).left⟩

end Computes

theorem computes_binaryOpr {stored : Node -> Nat} {op : BinaryOperator} {lhs rhs : Node}
    (ihl : forall evalMap_, Computes stored lhs evalMap_)
    (ihr : forall evalMap_, Computes stored rhs evalMap_) (evalMap_ : EvalMap) :
    Computes stored (.binaryOpr op lhs rhs) evalMap_ := by
  have hbefore : exists before, before = (if op = .equalOpr then
      bindTemporary (castId stored lhs) (castId stored rhs) evalMap_ else evalMap_) := ⟨_, rfl⟩
  rcases hbefore with ⟨before, hbefore⟩
  constructor
  · simp only [applications, ArithmeticDefined, ← hbefore, List.forall_mem_append, (ihl before).safe]
    apply and_congr_right
    intro hl
    rcases (ihl before).cases hl with ⟨hthrows, msg, hvisit⟩ | ⟨hthrows, fst, hvisit, hfst⟩
    · rw [hvisit, hthrows]
      exact iff_of_true (List.forall_mem_nil _) (fun h => by cases h)
    · rw [hvisit, hthrows]
      simp only [List.forall_mem_append, (ihr (bound stored lhs before)).safe, true_implies]
      apply and_congr_right
      intro hr
      rcases (ihr (bound stored lhs before)).cases hr with
        ⟨hthrows, msg, hvisit⟩ | ⟨hthrows, snd, hvisit, hsnd⟩
      · rw [hvisit, hthrows]
        exact iff_of_true (List.forall_mem_nil _) (fun h => by cases h)
      · rw [hvisit, hthrows]
        simp only [List.forall_mem_singleton, true_implies]
        rw [safe_binary_iff, hfst, hsnd]
  · intro h
    simp only [visit, ← hbefore]
    cases hl : visit stored lhs before with
    | error msg => exact ⟨msg, rfl⟩
    | ok found =>
        cases Bool.or_eq_true_iff.mp h with
        | inl hthrows =>
            rcases (ihl before).refused hthrows with ⟨msg, hmsg⟩
            rw [hl] at hmsg
            cases hmsg
        | inr hthrows =>
            rcases (ihr found.2).refused hthrows with ⟨msg, hmsg⟩
            simp only [hmsg]
            exact ⟨msg, rfl⟩
  · intro h hdefined
    have hboth := Bool.or_eq_false_iff.mp h
    simp only [ArithmeticDefined, ← hbefore] at hdefined
    rcases hdefined with ⟨hdefl, hrest⟩
    rcases hrest hboth.left with ⟨hdefr, hsafe⟩
    rcases (ihl before).result hboth.left hdefl with ⟨fst, hvisitl⟩
    rcases (ihr (bound stored lhs before)).result hboth.right hdefr with ⟨snd, hvisitr⟩
    have hopr : (Application.binary op fst snd).Safe := by
      rw [safe_binary_iff, (visit_number hvisitl).left, (visit_number hvisitr).left]
      exact hsafe hboth.right
    rcases exists_visitBinaryOpr hopr with ⟨entry, hentry⟩
    refine ⟨entry, ?_⟩
    simp only [visit, bound, ← hbefore, hvisitl, hvisitr, hentry]

theorem computes_unary {stored : Node -> Nat} {n child : Node} {f : StackEntry -> StackEntry}
    {evalMap_ : EvalMap} (ih : Computes stored child evalMap_)
    (happ : applications stored n evalMap_ = applications stored child evalMap_)
    (hdefined : ArithmeticDefined stored n evalMap_ ↔ ArithmeticDefined stored child evalMap_)
    (hthrows : throws n = throws child)
    (hvisit : visit stored n evalMap_ = match visit stored child evalMap_ with
      | .error msg => .error msg
      | .ok (entry, evalMap_) => .ok (f entry, evalMap_))
    (hbound : bound stored n evalMap_ = bound stored child evalMap_) :
    Computes stored n evalMap_ := by
  constructor
  · rw [happ, hdefined]
    exact ih.safe
  · intro h
    rcases ih.refused (hthrows.symm.trans h) with ⟨msg, hmsg⟩
    rw [hvisit, hmsg]
    exact ⟨msg, rfl⟩
  · intro h hdef
    rcases ih.result (hthrows.symm.trans h) (hdefined.mp hdef) with ⟨entry, hentry⟩
    rw [hvisit, hentry, hbound]
    exact ⟨f entry, rfl⟩

theorem computes_ifThenElse {stored : Node -> Nat} {a b c : Node}
    (iha : forall evalMap_, Computes stored a evalMap_)
    (ihb : forall evalMap_, Computes stored b evalMap_)
    (ihc : forall evalMap_, Computes stored c evalMap_) (evalMap_ : EvalMap) :
    Computes stored (.ifThenElse a b c) evalMap_ := by
  constructor
  · simp only [applications, ArithmeticDefined, List.forall_mem_append, (iha evalMap_).safe]
    apply and_congr_right
    intro ha
    rcases (iha evalMap_).cases ha with ⟨hthrows, msg, hvisit⟩ | ⟨hthrows, fst, hvisit, hfst⟩
    · rw [hvisit, hthrows]
      exact iff_of_true (List.forall_mem_nil _) (fun h => by cases h)
    · rw [hvisit, hthrows]
      simp only [List.forall_mem_append, (ihb (bound stored a evalMap_)).safe, true_implies]
      apply and_congr_right
      intro hb
      rcases (ihb (bound stored a evalMap_)).cases hb with
        ⟨hthrows, msg, hvisit⟩ | ⟨hthrows, snd, hvisit, hsnd⟩
      · rw [hvisit, hthrows]
        exact iff_of_true (List.forall_mem_nil _) (fun h => by cases h)
      · rw [hvisit, hthrows]
        simp only [true_implies]
        exact (ihc _).safe
  · intro h
    simp only [visit]
    cases ha : visit stored a evalMap_ with
    | error msg => exact ⟨msg, rfl⟩
    | ok fst =>
        cases hb : visit stored b fst.2 with
        | error msg =>
            simp only [hb]
            exact ⟨msg, rfl⟩
        | ok snd =>
            simp only [throws, Bool.or_eq_true_iff] at h
            rcases h with (hthrows | hthrows) | hthrows
            · rcases (iha evalMap_).refused hthrows with ⟨msg, hmsg⟩
              rw [ha] at hmsg
              cases hmsg
            · rcases (ihb fst.2).refused hthrows with ⟨msg, hmsg⟩
              rw [hb] at hmsg
              cases hmsg
            · rcases (ihc snd.2).refused hthrows with ⟨msg, hmsg⟩
              simp only [hb, hmsg]
              exact ⟨msg, rfl⟩
  · intro h hdefined
    simp only [throws, Bool.or_eq_false_iff] at h
    rcases hdefined with ⟨hdefa, hrest⟩
    rcases hrest h.left.left with ⟨hdefb, hlast⟩
    rcases (iha evalMap_).result h.left.left hdefa with ⟨fst, hvisita⟩
    rcases (ihb _).result h.left.right hdefb with ⟨snd, hvisitb⟩
    rcases (ihc _).result h.right (hlast h.left.right) with ⟨trd, hvisitc⟩
    refine ⟨visitIfThenElse fst snd trd, ?_⟩
    simp only [visit, bound, hvisita, hvisitb, hvisitc]

theorem computes_bitslice {stored : Node -> Nat} {child : Node} {evalMap_ : EvalMap}
    (ih : Computes stored child evalMap_) (r l : Nat) :
    Computes stored (.bitslice child r l) evalMap_ := by
  constructor
  · simp only [applications, ArithmeticDefined, List.forall_mem_append, ih.safe]
    apply and_congr_right
    intro hchild
    rcases ih.cases hchild with ⟨hthrows, msg, hvisit⟩ | ⟨hthrows, entry, hvisit, hentry⟩
    · rw [hvisit, hthrows]
      exact iff_of_true (List.forall_mem_nil _) (fun h => by cases h)
    · rw [hvisit, hthrows]
      simp only [List.forall_mem_singleton, true_implies]
      exact Iff.rfl
  · intro h
    rcases ih.refused h with ⟨msg, hmsg⟩
    rw [visit, hmsg]
    exact ⟨msg, rfl⟩
  · intro h hdefined
    rcases ih.result h hdefined.left with ⟨entry, hentry⟩
    rw [visit, hentry]
    exact ⟨visitBitslice r l entry, rfl⟩

theorem computes (stored : Node -> Nat) (n : Node) (evalMap_ : EvalMap) :
    Computes stored n evalMap_ := by
  induction n generalizing evalMap_ with
  | placeholder id => exact .refusal rfl trivial rfl rfl
  | variableExpr id bitsize sign => exact .leaf rfl trivial rfl rfl
  | constant c => exact .leaf rfl trivial rfl rfl
  | vectorExpr id bitsize sign => exact .leaf rfl trivial rfl rfl
  | unaryOpr op child ih => exact computes_unary (ih evalMap_) rfl Iff.rfl rfl rfl rfl
  | inside child collection ih => exact computes_unary (ih evalMap_) rfl Iff.rfl rfl rfl rfl
  | extendExpr child value ih => exact computes_unary (ih evalMap_) rfl Iff.rfl rfl rfl rfl
  | binaryOpr op lhs rhs ihl ihr => exact computes_binaryOpr ihl ihr evalMap_
  | vectorAccess lhs rhs ihl ihr => exact .refusal rfl trivial rfl rfl
  | ifThenElse a b c iha ihb ihc => exact computes_ifThenElse iha ihb ihc evalMap_
  | forEach lhs rhs ihl ihr => exact .refusal rfl trivial rfl rfl
  | unique child ih => exact .refusal rfl trivial rfl rfl
  | bitslice child r l ih => exact computes_bitslice (ih evalMap_) r l

/-- The host operations of a visit are all defined exactly when, in arithmetic modulo 2 ^ 64,
no operator of the expression divides the least number by minus one as signed numbers or
shifts by 64 or more, and no slice goes beyond the highest bit. -/
theorem host_operations_defined_iff (stored : Node -> Nat) (n : Node) (evalMap_ : EvalMap) :
    (forall o, o ∈ operations stored n evalMap_ -> o.Defined) ↔
      ArithmeticDefined stored n evalMap_ :=
  (safe_applications_iff stored n evalMap_).trans (computes stored n evalMap_).safe

/-- The variable 1 divided by the variable 2, both signed and of 64 bits. -/
def quotient : Node :=
  .binaryOpr .devideOpr (.variableExpr 1 64 true) (.variableExpr 2 64 true)

/-- The least integer is to be divided by minus one. -/
def leastByMinusOne : EvalMap
  | 1 => some ⟨BitVec.intMin 64, 64, true⟩
  | 2 => some ⟨-1, 64, true⟩
  | _ => none

theorem quotient_undefined :
    ¬ forall (stored : Node -> Nat) (n : Node) (evalMap_ : EvalMap),
      forall o, o ∈ operations stored n evalMap_ -> o.Defined := by
  intro h
  have hmem : HostOperation.division true (BitVec.intMin 64) (-1) ∈
      operations (fun _ => 0) quotient leastByMinusOne := by
    decide
  have hquotient := (h _ _ _ _ hmem).right.right
  revert hquotient
  decide

/-!
## Visits that end normally
-/

/-- Where one visit of an expression ends normally, every visit does whose applications
are safe. -/
theorem exists_visit {stored : Node -> Nat} {n : Node} {evalMap_ evalMap' : EvalMap}
    {found : StackEntry × EvalMap} (h : visit stored n evalMap_ = .ok found)
    (hsafe : forall a, a ∈ applications stored n evalMap' -> a.Safe) :
    exists found', visit stored n evalMap' = .ok found' := by
  induction n generalizing evalMap_ evalMap' found with
  | placeholder id => cases h
  | variableExpr id bitsize sign => exact ⟨_, rfl⟩
  | constant c => exact ⟨_, rfl⟩
  | vectorExpr id bitsize sign => exact ⟨_, rfl⟩
  | unaryOpr op child ih =>
      simp only [visit] at h ⊢
      split at h
      · cases h
      · next hchild =>
          cases ih hchild hsafe with
          | intro found' hfound =>
              rw [hfound]
              exact ⟨_, rfl⟩
  | inside child collection ih =>
      simp only [visit] at h ⊢
      split at h
      · cases h
      · next hchild =>
          cases ih hchild hsafe with
          | intro found' hfound =>
              rw [hfound]
              exact ⟨_, rfl⟩
  | extendExpr child value ih =>
      simp only [visit] at h ⊢
      split at h
      · cases h
      · next hchild =>
          cases ih hchild hsafe with
          | intro found' hfound =>
              rw [hfound]
              exact ⟨_, rfl⟩
  | binaryOpr op lhs rhs ihl ihr =>
      simp only [visit] at h ⊢
      simp only [applications, List.forall_mem_append] at hsafe
      split at h
      · cases h
      · next hlhs =>
          cases ihl hlhs hsafe.left with
          | intro found₁ hfound₁ =>
              have hrest := hsafe.right
              rw [hfound₁] at hrest ⊢
              simp only [List.forall_mem_append] at hrest
              split at h
              · cases h
              · next hrhs =>
                  cases ihr hrhs hrest.left with
                  | intro found₂ hfound₂ =>
                      have hlast := hrest.right
                      simp only [hfound₂, List.forall_mem_singleton] at hlast ⊢
                      cases exists_visitBinaryOpr hlast with
                      | intro entry hentry =>
                          rw [hentry]
                          exact ⟨_, rfl⟩
  | vectorAccess lhs rhs ihl ihr => cases h
  | ifThenElse a b c iha ihb ihc =>
      simp only [visit] at h ⊢
      simp only [applications, List.forall_mem_append] at hsafe
      split at h
      · cases h
      · next ha =>
          cases iha ha hsafe.left with
          | intro found₁ hfound₁ =>
              have hrest := hsafe.right
              rw [hfound₁] at hrest ⊢
              simp only [List.forall_mem_append] at hrest
              split at h
              · cases h
              · next hb =>
                  cases ihb hb hrest.left with
                  | intro found₂ hfound₂ =>
                      have hlast := hrest.right
                      simp only [hfound₂] at hlast ⊢
                      split at h
                      · cases h
                      · next hc =>
                          cases ihc hc hlast with
                          | intro found₃ hfound₃ =>
                              rw [hfound₃]
                              exact ⟨_, rfl⟩
  | forEach lhs rhs ihl ihr => cases h
  | unique child ih => cases h
  | bitslice child r l ih =>
      simp only [visit] at h ⊢
      simp only [applications, List.forall_mem_append] at hsafe
      split at h
      · cases h
      · next hchild =>
          cases ih hchild hsafe.left with
          | intro found' hfound =>
              rw [hfound]
              exact ⟨_, rfl⟩

end EvalVisitor
end Ir
end Crave
