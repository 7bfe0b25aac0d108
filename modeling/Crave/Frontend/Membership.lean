import Crave.Foundation.IntegerType
import Crave.Backend.Operands
import Crave.Backend.VariableContainer
import Crave.Frontend.Distribution

/-!
# Membership in collections and distributions

`inside` and `dist` are expressed with a new variable that is equal to the constrained one
and that has a value of the collection or of a range.
-/

namespace Crave
namespace Frontend

open Foundation Ir Backend

namespace Context

/-!
## Generation
-/

/-- What is generated: the formula, the distribution that is referenced for the new variable,
and the entry of `dist_ref_to_var_map`. -/
structure Generated where
  formula : Node
  dist_reference : Nat × Distribution
  dist_ref_to_var : Nat × Nat

def constant (d : VarDecl) (i : Int) : Constant :=
  { value := BitVec.ofInt 64 i, bitsize := d.bitsize, sign := d.sign }

/-- `std::set<Constant>` is ordered by the values. -/
def insertConstant (c : Constant) : List Constant -> List Constant
  | [] => [c]
  | first :: rest =>
      if c.value < first.value then c :: first :: rest
      else if first.value < c.value then first :: insertConstant c rest
      else first :: rest

def constants (d : VarDecl) (collection : List Int) : List Constant :=
  collection.foldl (fun cs i => insertConstant (constant d i) cs) []

/-- The distribution of the values of a collection, converted to the type of the variable. -/
def insideDistribution (t : IntegerType) : List Int -> Distribution -> Except String Distribution
  | [], dist => .ok dist
  | i :: rest, dist =>
      match dist.addRange (WeightedRange.weighted_value (t.wrap i) 1) with
      | (.error what, _) => .error what
      | (.ok (), dist') => insideDistribution t rest dist'

def typeOf (d : VarDecl) : IntegerType :=
  { width := d.bitsize, sign := d.sign }

/-- `operator_inside`, with `id` for the new variable. -/
def inside (var : Nat) (d : VarDecl) (id : Nat) (collection : List Int) :
    Except String Generated :=
  match insideDistribution (typeOf d) collection Distribution.distribution with
  | .error what => .error what
  | .ok dist =>
      let val_equal_tmp :=
        Node.binaryOpr .equalOpr (.variableExpr var d.bitsize d.sign)
          (.variableExpr id d.bitsize d.sign)
      let tmp_inside := Node.inside (.variableExpr id d.bitsize d.sign) (constants d collection)
      .ok
        { formula := .binaryOpr .logicalAndOpr val_equal_tmp tmp_inside
          dist_reference := (id, dist)
          dist_ref_to_var := (id, var) }

def in_range (id : Nat) (d : VarDecl) (r : WeightedRange) : Node :=
  .binaryOpr .logicalAndOpr
    (.binaryOpr .lessEqualOpr (.constant (constant d r.left_)) (.variableExpr id d.bitsize d.sign))
    (.binaryOpr .lessEqualOpr (.variableExpr id d.bitsize d.sign) (.constant (constant d r.right_)))

/-- The loop over the ranges; before the first one there is no formula. -/
def in_ranges (id : Nat) (d : VarDecl) (ranges_ : List WeightedRange) : Option Node :=
  ranges_.foldl (fun in_ranges r =>
    match in_ranges with
    | none => some (in_range id d r)
    | some formula => some (.binaryOpr .logicalOrOpr formula (in_range id d r))) none

/-- `operator_dist`, for a distribution over the type of `e`. -/
def dist (var : Nat) (d : VarDecl) (id : Nat) (e : VarDecl) (dist : Distribution) :
    Generated :=
  let var_equal_tmp :=
    Node.binaryOpr .equalOpr (.variableExpr var d.bitsize d.sign)
      (.variableExpr id e.bitsize e.sign)
  { formula :=
      match in_ranges id e dist.ranges_ with
      | none => var_equal_tmp
      | some formula => .binaryOpr .logicalAndOpr var_equal_tmp formula
    dist_reference := (id, dist)
    dist_ref_to_var := (id, var) }

def suggestion (least greatest : Int) (u : Distribution.Uniform) (id : Nat) (e : VarDecl)
    (dist : Distribution) : Node :=
  equalConstant id e (constant e (dist.nextValue least greatest u))

/-!
## The distribution of a collection
-/

/-- Single values never overlap, as the test for overlaps has it. -/
theorem exists_insideDistribution (t : IntegerType) (collection : List Int) {dist : Distribution}
    (h : forall range, range ∈ dist.ranges_ -> range.left_ = range.right_) :
    exists dist', insideDistribution t collection dist = .ok dist' := by
  induction collection generalizing dist with
  | nil => exact ⟨dist, rfl⟩
  | cons i rest ih =>
      rw [insideDistribution]
      cases hadd : dist.addRange (WeightedRange.weighted_value (t.wrap i) 1) with
      | mk outcome dist' =>
          rcases Distribution.addRange_cases hadd with ⟨rfl, _, accumWeight_, _, rfl⟩ |
            ⟨_, _, range, hrange, htrue⟩
          · apply ih
            intro range hrange
            cases List.mem_append.mp hrange with
            | inl hold => exact h range hold
            | inr hnew =>
                rw [List.mem_singleton.mp hnew]
                rfl
          · have heq := h range hrange
            unfold WeightedRange.overlap at htrue
            split at htrue
            · have hle := of_decide_eq_true htrue
              omega
            · split at htrue
              · have hle : range.left_ ≤ t.wrap i := of_decide_eq_true htrue
                have hlt : t.wrap i < range.left_ := by assumption
                omega
              · cases htrue

theorem exists_inside (var : Nat) (d : VarDecl) (id : Nat) (collection : List Int) :
    exists g, inside var d id collection = .ok g := by
  have hdist : exists dist,
      insideDistribution (typeOf d) collection Distribution.distribution = .ok dist :=
    exists_insideDistribution (typeOf d) collection
      (fun range hrange => absurd hrange List.not_mem_nil)
  rcases hdist with ⟨dist, hdist⟩
  unfold inside
  rw [hdist]
  exact ⟨_, rfl⟩

/-!
## The numbers of constants
-/

/-- The number that the constant for a value stands for in the type of the variable. -/
def stored (d : VarDecl) (i : Int) : Int :=
  (typeOf d).number (constantBits (constant d i))

/-- The value goes through 64 bits. As a truth value it is zero or minus one. -/
theorem stored_eq (d : VarDecl) (i : Int) :
    stored d i =
      if d.bitsize = 1 ∧ d.sign = true then
        if BitVec.ofInt 64 i = 0 then 0 else -1
      else
        (typeOf d).wrap ((IntegerType.mk 64 d.sign).wrap i) := by
  rcases d with ⟨w, sign⟩
  unfold stored typeOf constantBits
  split
  · next hbool =>
      simp only [Constant.isBool, constant, Bool.and_eq_true, beq_iff_eq] at hbool
      rcases hbool with ⟨rfl, rfl⟩
      have hone : 1 = 1 ∧ true = true := ⟨rfl, rfl⟩
      rw [if_pos hone]
      show IntegerType.number ⟨1, true⟩ (if BitVec.ofInt 64 i = 0 then 0 else 1) = _
      split
      · rfl
      · rfl
  · next hbool =>
      simp only [Constant.isBool, constant, Bool.and_eq_true, beq_iff_eq] at hbool
      rw [if_neg hbool]
      cases sign with
      | false => exact congrArg _ (BitVec.ofInt_natCast w _).symm
      | true => rfl

theorem wrap_wrap_wrap {w : Nat} (hpos : 0 < w) (sign : Bool) (i : Int) :
    (IntegerType.mk w sign).wrap ((IntegerType.mk 64 sign).wrap
      ((IntegerType.mk w sign).wrap ((IntegerType.mk 64 sign).wrap i))) =
        (IntegerType.mk w sign).wrap ((IntegerType.mk 64 sign).wrap i) := by
  have h64 : (IntegerType.mk 64 sign).Contains ((IntegerType.mk 64 sign).wrap i) :=
    IntegerType.contains_wrap (show 0 < 64 by decide) i
  by_cases hle : w ≤ 64
  · have hw := IntegerType.contains_wrap (t := ⟨w, sign⟩) hpos ((IntegerType.mk 64 sign).wrap i)
    rw [IntegerType.wrap_of_contains (t := ⟨64, sign⟩) (show 0 < 64 by decide) (hw.mono hle),
      IntegerType.wrap_of_contains hpos hw]
  · have hw := h64.mono (Nat.le_of_not_le hle)
    rw [IntegerType.wrap_of_contains hpos hw,
      IntegerType.wrap_of_contains (t := ⟨64, sign⟩) (show 0 < 64 by decide) h64,
      IntegerType.wrap_of_contains hpos hw]

theorem stored_stored {d : VarDecl} (hpos : 0 < d.bitsize) (i : Int) :
    stored d (stored d i) = stored d i := by
  simp only [stored_eq]
  split
  · split
    · rfl
    · rfl
  · exact wrap_wrap_wrap hpos d.sign i

theorem stored_of_contains {d : VarDecl} (hpos : 0 < d.bitsize) (hle : d.bitsize ≤ 64) {i : Int}
    (hi : (typeOf d).Contains i) : stored d i = i := by
  rw [stored_eq]
  split
  · next hbool =>
      rcases d with ⟨w, sign⟩
      rcases hbool with ⟨rfl, rfl⟩
      have hbounds : -1 ≤ i ∧ i < 1 := IntegerType.contains_signed.mp hi
      have hcases : i = -1 ∨ i = 0 := by omega
      cases hcases with
      | inl hminus =>
          rw [hminus]
          rfl
      | inr hzero =>
          rw [hzero]
          rfl
  · rw [IntegerType.wrap_of_contains (t := ⟨64, d.sign⟩) (show 0 < 64 by decide)
      (IntegerType.Contains.mono hi hle)]
    exact IntegerType.wrap_of_contains hpos hi

theorem insertConstant_mem {d : VarDecl} {i : Int} {cs : List Constant}
    (hcs : forall c, c ∈ cs -> exists j, c = constant d j) (c : Constant) :
    c ∈ insertConstant (constant d i) cs ↔ c = constant d i ∨ c ∈ cs := by
  induction cs with
  | nil => rw [insertConstant, List.mem_singleton, or_iff_left List.not_mem_nil]
  | cons first rest ih =>
      rw [insertConstant]
      split
      · rw [List.mem_cons]
      · next hnlt =>
          split
          · rw [List.mem_cons, ih fun c hc => hcs c (List.mem_cons_of_mem first hc), List.mem_cons,
              or_left_comm]
          · next hngt =>
              have hvalue : (constant d i).value = first.value :=
                BitVec.le_antisymm (BitVec.not_lt.mp hngt) (BitVec.not_lt.mp hnlt)
              rcases hcs first List.mem_cons_self with ⟨j, hj⟩
              have hsame : constant d i = first := by
                rw [hj] at hvalue ⊢
                have hbits : BitVec.ofInt 64 i = BitVec.ofInt 64 j := hvalue
                unfold constant
                rw [hbits]
              rw [hsame, List.mem_cons]
              constructor
              · exact Or.inr
              · intro h
                cases h with
                | inl heq => exact Or.inl heq
                | inr hmem => exact hmem

theorem mem_constants (d : VarDecl) (collection : List Int) (c : Constant) :
    c ∈ constants d collection ↔ exists i, i ∈ collection ∧ c = constant d i := by
  have hfold : forall (is : List Int) (cs : List Constant),
      (forall c, c ∈ cs -> exists j, c = constant d j) ->
        (c ∈ is.foldl (fun cs i => insertConstant (constant d i) cs) cs ↔
          c ∈ cs ∨ exists i, i ∈ is ∧ c = constant d i) := by
    intro is
    induction is with
    | nil =>
        intro cs _
        simp
    | cons i rest ih =>
        intro cs hcs
        rw [List.foldl_cons, ih _ ?_, insertConstant_mem hcs]
        · simp only [List.mem_cons, exists_eq_or_imp]
          rw [or_comm (a := c = constant d i), or_assoc]
        · intro c' hc'
          cases (insertConstant_mem hcs c').mp hc' with
          | inl heq => exact ⟨i, heq⟩
          | inr hmem => exact hcs c' hmem
  unfold constants
  rw [hfold collection [] (fun c hc => absurd hc List.not_mem_nil)]
  simp

/-!
## The formulas
-/

/-- The integer that a model gives to a variable. -/
def value (m : Model SolverVar) (id : Nat) (d : VarDecl) : Int :=
  (typeOf d).number (BitVec.ofNat d.bitsize (m (.terminal id)))

/-- The formula is true for some value of the new variable. -/
def HoldsForSome (m : Model SolverVar) (id : Nat) (formula : Node) : Prop :=
  exists v : Nat, NodeHolds (Function.update m (.terminal id) v) (FixWidthVisitor.fixWidth formula)

section Formulas

variable {m : Model SolverVar} {var id : Nat} {d e : VarDecl}

theorem value_update_of_ne (hne : var ≠ id) (v : Nat) :
    value (Function.update m (.terminal id) v) var d = value m var d := by
  unfold value
  rw [Function.update_of_ne]
  intro h
  cases h
  exact hne rfl

theorem value_update_self (v : Nat) :
    value (Function.update m (.terminal id) v) id d =
      (typeOf d).number (BitVec.ofNat d.bitsize v) := by
  unfold value
  rw [Function.update_self]

/-- The constrained variable is equal to the new one, modulo the wider of their types. -/
theorem decides_var_equal_tmp (m : Model SolverVar) (var id : Nat) (d e : VarDecl) :
    Decides m (.binaryOpr .equalOpr (.variableExpr var d.bitsize d.sign)
        (.variableExpr id e.bitsize e.sign))
      (value m var d ≡ value m id e [ZMOD (2 ^ max d.bitsize e.bitsize : Nat)]) :=
  (Reads.variableExpr m var d.bitsize d.sign).equal (Reads.variableExpr m id e.bitsize e.sign)

theorem decides_tmp_inside (m : Model SolverVar) (id : Nat) (d : VarDecl) (collection : List Int) :
    Decides m (.inside (.variableExpr id d.bitsize d.sign) (constants d collection))
      (exists i, i ∈ collection ∧ value m id d = stored d i) := by
  have hcs : forall c, c ∈ constants d collection -> c.bitsize = d.bitsize := by
    intro c hc
    rcases (mem_constants d collection c).mp hc with ⟨i, _, rfl⟩
    rfl
  rcases (Reads.variableExpr m id d.bitsize d.sign).inside hcs with ⟨b, s, hreads, hiff⟩
  exists b, s
  constructor
  · exact hreads
  · rw [hiff]
    constructor
    · intro h
      rcases h with ⟨c, hc, heq⟩
      rcases (mem_constants d collection c).mp hc with ⟨i, hi, rfl⟩
      exists i
      constructor
      · exact hi
      · exact congrArg (SizedBits.num d.sign) heq
    · intro h
      rcases h with ⟨i, hi, heq⟩
      exists constant d i
      constructor
      · exact (mem_constants d collection _).mpr ⟨i, hi, rfl⟩
      · exact congrArg (SizedBits.mk d.bitsize) ((IntegerType.number_inj (t := typeOf d)).mp heq)

/-- Every value of the type is given to the new variable by some model. -/
theorem exists_value_update (m : Model SolverVar) (id : Nat) (hpos : 0 < e.bitsize) {i : Int}
    (hi : (typeOf e).Contains i) :
    exists v : Nat, value (Function.update m (.terminal id) v) id e = i := by
  exists (BitVec.ofInt e.bitsize i).toNat
  rw [value_update_self, BitVec.ofNat_toNat, BitVec.setWidth_eq]
  exact IntegerType.number_ofInt hpos hi

theorem contains_value (m : Model SolverVar) (id : Nat) (hpos : 0 < d.bitsize) :
    (typeOf d).Contains (value m id d) :=
  IntegerType.contains_number hpos _

theorem contains_stored (hpos : 0 < d.bitsize) (i : Int) : (typeOf d).Contains (stored d i) :=
  IntegerType.contains_number hpos _

theorem holdsForSome_inside (hne : var ≠ id) (hpos : 0 < d.bitsize) {collection : List Int}
    {g : Generated} (hg : inside var d id collection = .ok g) :
    HoldsForSome m id g.formula ↔ exists i, i ∈ collection ∧ value m var d = stored d i := by
  have hformula : g.formula = .binaryOpr .logicalAndOpr
      (.binaryOpr .equalOpr (.variableExpr var d.bitsize d.sign) (.variableExpr id d.bitsize d.sign))
      (.inside (.variableExpr id d.bitsize d.sign) (constants d collection)) := by
    unfold inside at hg
    split at hg
    · cases hg
    · cases hg
      rfl
  have hiff : forall v, NodeHolds (Function.update m (.terminal id) v)
      (FixWidthVisitor.fixWidth g.formula) ↔
        (value m var d ≡ value (Function.update m (.terminal id) v) id d
          [ZMOD (2 ^ d.bitsize : Nat)]) ∧
        exists i, i ∈ collection ∧
          value (Function.update m (.terminal id) v) id d = stored d i := by
    intro v
    have hboth := ((decides_var_equal_tmp (Function.update m (.terminal id) v) var id d
      d).logicalAnd (decides_tmp_inside _ id d collection)).nodeHolds
    rw [value_update_of_ne hne, max_self] at hboth
    rw [hformula]
    exact hboth
  unfold HoldsForSome
  constructor
  · intro h
    rcases h with ⟨v, hv⟩
    rcases (hiff v).mp hv with ⟨hequal, i, hi, hstored⟩
    exists i
    constructor
    · exact hi
    · rw [← hstored]
      exact IntegerType.eq_of_emod_eq hpos (contains_value _ _ hpos) (contains_value _ _ hpos)
        hequal
  · intro h
    rcases h with ⟨i, hi, hstored⟩
    rcases exists_value_update m id hpos (contains_stored hpos i) with ⟨v, hv⟩
    exists v
    rw [hiff v, hv, hstored]
    exact ⟨Int.ModEq.refl _, i, hi, rfl⟩

/-!
## Ranges
-/

/-- A formula for a range compares with the bounds, which are values of the type. -/
theorem decides_in_range {r : WeightedRange} (hleft : stored e r.left_ = r.left_)
    (hright : stored e r.right_ = r.right_) :
    Decides m (in_range id e r) (r.Contains (value m id e)) := by
  have hlow := (Reads.constant m (constant e r.left_)).lessEqual
    (Reads.variableExpr m id e.bitsize e.sign)
  have hhigh := (Reads.variableExpr m id e.bitsize e.sign).lessEqual
    (Reads.constant m (constant e r.right_))
  have hboth := hlow.logicalAnd hhigh
  change Decides m (in_range id e r)
    (stored e r.left_ ≤ value m id e ∧ value m id e ≤ stored e r.right_) at hboth
  rw [hleft, hright] at hboth
  exact hboth

theorem decides_in_ranges (id : Nat) {ranges_ : List WeightedRange}
    (hbounds : forall r, r ∈ ranges_ -> stored e r.left_ = r.left_ ∧ stored e r.right_ = r.right_)
    (hne : ranges_ ≠ []) :
    exists formula, in_ranges id e ranges_ = some formula ∧
      forall m, Decides m formula (exists r, r ∈ ranges_ ∧ r.Contains (value m id e)) := by
  have hfold : forall (rs : List WeightedRange) (formula : Node)
      (P : Model SolverVar -> Prop),
      (forall r, r ∈ rs -> stored e r.left_ = r.left_ ∧ stored e r.right_ = r.right_) ->
      (forall m, Decides m formula (P m)) ->
      exists formula', rs.foldl (fun in_ranges r =>
          match in_ranges with
          | none => some (in_range id e r)
          | some formula => some (.binaryOpr .logicalOrOpr formula (in_range id e r)))
            (some formula) = some formula' ∧
        forall m, Decides m formula'
          (P m ∨ exists r, r ∈ rs ∧ r.Contains (value m id e)) := by
    intro rs
    induction rs with
    | nil =>
        intro formula P _ hformula
        exists formula
        constructor
        · rfl
        · intro m
          simpa using hformula m
    | cons r rest ih =>
        intro formula P hrs hformula
        have hr := hrs r List.mem_cons_self
        rcases ih (.binaryOpr .logicalOrOpr formula (in_range id e r))
          (fun m => P m ∨ r.Contains (value m id e))
          (fun r' hr' => hrs r' (List.mem_cons_of_mem r hr'))
          (fun m => (hformula m).logicalOr (decides_in_range hr.left hr.right)) with
          ⟨formula', heq, hdecides⟩
        exists formula'
        constructor
        · exact heq
        · intro m
          have hm := hdecides m
          simp only [List.mem_cons, exists_eq_or_imp]
          rw [or_assoc] at hm
          exact hm
  cases ranges_ with
  | nil => exact absurd rfl hne
  | cons r rest =>
      have hr := hbounds r List.mem_cons_self
      rcases hfold rest (in_range id e r) (fun m => r.Contains (value m id e))
        (fun r' hr' => hbounds r' (List.mem_cons_of_mem r hr'))
        (fun m => decides_in_range hr.left hr.right) with ⟨formula, heq, hdecides⟩
      exists formula
      constructor
      · exact heq
      · intro m
        have hm := hdecides m
        simp only [List.mem_cons, exists_eq_or_imp]
        exact hm

/-- The bounds are values of the type, in their order. -/
def RangesIn (e : VarDecl) (ranges_ : List WeightedRange) : Prop :=
  forall r, r ∈ ranges_ -> r.Valid ∧ (typeOf e).Contains r.left_ ∧ (typeOf e).Contains r.right_

instance (e : VarDecl) (ranges_ : List WeightedRange) : Decidable (RangesIn e ranges_) :=
  inferInstanceAs (Decidable (forall r, r ∈ ranges_ ->
    r.Valid ∧ (typeOf e).Contains r.left_ ∧ (typeOf e).Contains r.right_))

theorem RangesIn.stored {ranges_ : List WeightedRange} (h : RangesIn e ranges_)
    (hpos : 0 < e.bitsize) (hle : e.bitsize ≤ 64) (r : WeightedRange) (hr : r ∈ ranges_) :
    Context.stored e r.left_ = r.left_ ∧ Context.stored e r.right_ = r.right_ :=
  ⟨stored_of_contains hpos hle (h r hr).right.left,
    stored_of_contains hpos hle (h r hr).right.right⟩

theorem RangesIn.contains {ranges_ : List WeightedRange} (h : RangesIn e ranges_)
    {r : WeightedRange} (hr : r ∈ ranges_) {i : Int} (hi : r.Contains i) :
    (typeOf e).Contains i :=
  ⟨(h r hr).right.left.left.trans hi.left, hi.right.trans (h r hr).right.right.right⟩

/-- The formula is true for the values that some value of a range is congruent to. -/
theorem holdsForSome_dist (hne : var ≠ id) (hpos : 0 < e.bitsize) (hle : e.bitsize ≤ 64)
    {dist : Distribution} (hin : RangesIn e dist.ranges_) (hranges : dist.ranges_ ≠ []) :
    HoldsForSome m id (Context.dist var d id e dist).formula ↔
      exists i, (exists r, r ∈ dist.ranges_ ∧ r.Contains i) ∧
        (value m var d ≡ i [ZMOD (2 ^ max d.bitsize e.bitsize : Nat)]) := by
  rcases decides_in_ranges id (fun r hr => hin.stored hpos hle r hr) hranges with
    ⟨formula, hformula, hdecides⟩
  have hiff : forall v, NodeHolds (Function.update m (.terminal id) v)
      (FixWidthVisitor.fixWidth (Context.dist var d id e dist).formula) ↔
        (value m var d ≡ value (Function.update m (.terminal id) v) id e
          [ZMOD (2 ^ max d.bitsize e.bitsize : Nat)]) ∧
        exists r, r ∈ dist.ranges_ ∧
          r.Contains (value (Function.update m (.terminal id) v) id e) := by
    intro v
    have hboth := ((decides_var_equal_tmp (Function.update m (.terminal id) v) var id d
      e).logicalAnd (hdecides _)).nodeHolds
    rw [value_update_of_ne hne] at hboth
    unfold Context.dist
    rw [hformula]
    exact hboth
  unfold HoldsForSome
  constructor
  · intro h
    rcases h with ⟨v, hv⟩
    rcases (hiff v).mp hv with ⟨hequal, hmem⟩
    exact ⟨_, hmem, hequal⟩
  · intro h
    rcases h with ⟨i, ⟨r, hr, hi⟩, hequal⟩
    rcases exists_value_update m id hpos (hin.contains hr hi) with ⟨v, hv⟩
    exists v
    rw [hiff v, hv]
    exact ⟨hequal, r, hr, hi⟩

end Formulas

/-!
## When membership is exact
-/

/-- The constant for an element is an element, and the elements that are values of the type
are kept. The latter is always so up to 64 bits. -/
def Representable (d : VarDecl) (collection : List Int) : Prop :=
  forall i, i ∈ collection ->
    stored d i ∈ collection ∧ ((typeOf d).Contains i -> stored d i = i)

instance (d : VarDecl) (collection : List Int) : Decidable (Representable d collection) :=
  inferInstanceAs (Decidable (forall i, i ∈ collection ->
    stored d i ∈ collection ∧ ((typeOf d).Contains i -> stored d i = i)))

/-- Of two types of different sign, the signed one is wider, or the ranges have only values
that no other value of the variable is congruent to. -/
def Distinguishes (d e : VarDecl) (ranges_ : List WeightedRange) : Prop :=
  if d.sign = e.sign then True
  else if e.sign then
    d.bitsize < e.bitsize ∨ forall r, r ∈ ranges_ -> 0 ≤ r.left_
  else
    e.bitsize < d.bitsize ∨
      forall r, r ∈ ranges_ -> r.right_ < (2 ^ e.bitsize : Nat) - (2 ^ (d.bitsize - 1) : Nat)

instance (d e : VarDecl) (ranges_ : List WeightedRange) : Decidable (Distinguishes d e ranges_) := by
  unfold Distinguishes
  infer_instance

section Exactness

variable {var id : Nat} {d e : VarDecl}

theorem exists_value (var : Nat) (hpos : 0 < d.bitsize) {i : Int} (hi : (typeOf d).Contains i) :
    exists m, value m var d = i := by
  rcases exists_value_update (fun _ => 0) var hpos hi with ⟨v, hv⟩
  exact ⟨_, hv⟩

theorem inside_exact_iff (hne : var ≠ id) (hpos : 0 < d.bitsize) {collection : List Int}
    {g : Generated} (hg : inside var d id collection = .ok g) :
    (forall m, HoldsForSome m id g.formula ↔ value m var d ∈ collection) ↔
      Representable d collection := by
  simp only [holdsForSome_inside hne hpos hg]
  constructor
  · intro h i hi
    constructor
    · rcases exists_value var hpos (contains_stored hpos i) with ⟨m, hm⟩
      rw [← hm]
      exact (h m).mp ⟨i, hi, hm⟩
    · intro hcontains
      rcases exists_value var hpos hcontains with ⟨m, hm⟩
      rw [← hm] at hi
      rcases (h m).mpr hi with ⟨j, _, hj⟩
      rw [← hm, hj, stored_stored hpos]
  · intro h m
    constructor
    · intro hsome
      rcases hsome with ⟨i, hi, heq⟩
      rw [heq]
      exact (h i hi).left
    · intro hmem
      exact ⟨_, hmem, ((h _ hmem).right (contains_value m var hpos)).symm⟩

/-- Congruent values of the variable and of the ranges are equal. -/
theorem eq_of_distinguishes (hpos : 0 < d.bitsize) (hpos' : 0 < e.bitsize)
    {ranges_ : List WeightedRange} (hin : RangesIn e ranges_)
    (h : Distinguishes d e ranges_) {x i : Int} (hx : (typeOf d).Contains x)
    {r : WeightedRange} (hr : r ∈ ranges_) (hi : r.Contains i)
    (hcongr : x ≡ i [ZMOD (2 ^ max d.bitsize e.bitsize : Nat)]) : x = i := by
  rcases d with ⟨w, sign⟩
  rcases e with ⟨k, sign'⟩
  have hik := hin.contains hr hi
  have hlow := hi.left
  have hhigh := hi.right
  have hwide : 0 < max w k := Nat.lt_of_lt_of_le hpos (le_max_left w k)
  have hpow : 2 ^ w = 2 * 2 ^ (w - 1) := IntegerType.two_pow_pred hpos
  have hpow' : 2 ^ k = 2 * 2 ^ (k - 1) := IntegerType.two_pow_pred hpos'
  unfold Distinguishes at h
  dsimp only [typeOf] at hcongr hx hik h
  cases sign with
  | false =>
      cases sign' with
      | false =>
          exact IntegerType.eq_of_emod_eq (t := ⟨max w k, false⟩) hwide (hx.mono (le_max_left w k))
            (hik.mono (le_max_right w k)) hcongr
      | true =>
          rw [if_neg Bool.false_ne_true, if_pos rfl] at h
          have hx' := IntegerType.contains_unsigned.mp hx
          have hi' := IntegerType.contains_signed.mp hik
          cases h with
          | inl hlt =>
              have hle : 2 ^ w ≤ 2 ^ (k - 1) := Nat.pow_le_pow_right (by decide) (by omega)
              rw [max_eq_right hlt.le] at hcongr
              apply IntegerType.eq_of_emod_eq (t := ⟨k, true⟩) hpos' _ hik hcongr
              rw [IntegerType.contains_signed]
              omega
          | inr hnonneg =>
              have hleft := hnonneg r hr
              apply IntegerType.eq_of_emod_eq (t := ⟨max w k, false⟩) hwide
                (hx.mono (le_max_left w k)) _ hcongr
              apply IntegerType.Contains.mono (k := k) _ (le_max_right w k)
              rw [IntegerType.contains_unsigned]
              omega
  | true =>
      cases sign' with
      | true =>
          exact IntegerType.eq_of_emod_eq (t := ⟨max w k, true⟩) hwide (hx.mono (le_max_left w k))
            (hik.mono (le_max_right w k)) hcongr
      | false =>
          rw [if_neg Bool.false_ne_true.symm, if_neg Bool.false_ne_true] at h
          have hx' := IntegerType.contains_signed.mp hx
          have hi' := IntegerType.contains_unsigned.mp hik
          by_cases hlt : k < w
          · have hle : 2 ^ k ≤ 2 ^ (w - 1) := Nat.pow_le_pow_right (by decide) (by omega)
            rw [max_eq_left hlt.le] at hcongr
            apply IntegerType.eq_of_emod_eq (t := ⟨w, true⟩) hpos hx _ hcongr
            rw [IntegerType.contains_signed]
            omega
          · have hright := (h.resolve_left hlt) r hr
            have hle : 2 ^ w ≤ 2 ^ k := Nat.pow_le_pow_right (by decide) (Nat.le_of_not_lt hlt)
            rw [max_eq_right (Nat.le_of_not_lt hlt)] at hcongr
            apply Int.eq_of_sub_eq_zero
            exact Int.eq_zero_of_abs_lt_dvd (Int.ModEq.dvd hcongr.symm) (abs_lt.mpr (by omega))

/-- Otherwise some value of the variable outside of the ranges is congruent to one inside. -/
theorem exists_of_not_distinguishes (hpos : 0 < d.bitsize) (hpos' : 0 < e.bitsize)
    {ranges_ : List WeightedRange} (hin : RangesIn e ranges_)
    (h : ¬ Distinguishes d e ranges_) :
    exists x i r, (typeOf d).Contains x ∧ r ∈ ranges_ ∧ r.Contains i ∧
      (x ≡ i [ZMOD (2 ^ max d.bitsize e.bitsize : Nat)]) ∧ ¬ (typeOf e).Contains x := by
  rcases d with ⟨w, sign⟩
  rcases e with ⟨k, sign'⟩
  have hpow : 2 ^ w = 2 * 2 ^ (w - 1) := IntegerType.two_pow_pred hpos
  have hpow' : 2 ^ k = 2 * 2 ^ (k - 1) := IntegerType.two_pow_pred hpos'
  unfold Distinguishes at h
  dsimp only [typeOf] at h ⊢
  cases sign with
  | false =>
      cases sign' with
      | false => exact absurd trivial h
      | true =>
          rw [if_neg Bool.false_ne_true, if_pos rfl, not_or] at h
          rcases h with ⟨hlt, hnot⟩
          push Not at hnot
          rcases hnot with ⟨r, hr, hneg⟩
          have hle : 2 ^ k ≤ 2 ^ w := Nat.pow_le_pow_right (by decide) (Nat.le_of_not_lt hlt)
          have hleft : -(2 ^ (k - 1) : Nat) ≤ r.left_ ∧ r.left_ < (2 ^ (k - 1) : Nat) :=
            IntegerType.contains_signed.mp (hin r hr).right.left
          exists r.left_ + (2 ^ w : Nat), r.left_, r
          constructor
          · rw [IntegerType.contains_unsigned]
            omega
          constructor
          · exact hr
          constructor
          · exact ⟨le_refl _, (hin r hr).left⟩
          constructor
          · rw [max_eq_left (Nat.le_of_not_lt hlt)]
            exact Int.add_emod_right _ _
          · rw [IntegerType.contains_signed]
            omega
  | true =>
      cases sign' with
      | true => exact absurd trivial h
      | false =>
          rw [if_neg Bool.false_ne_true.symm, if_neg Bool.false_ne_true, not_or] at h
          rcases h with ⟨hlt, hnot⟩
          push Not at hnot
          rcases hnot with ⟨r, hr, hge⟩
          have hle : 2 ^ w ≤ 2 ^ k := Nat.pow_le_pow_right (by decide) (Nat.le_of_not_lt hlt)
          have hright : 0 ≤ r.right_ ∧ r.right_ < (2 ^ k : Nat) :=
            IntegerType.contains_unsigned.mp (hin r hr).right.right
          exists r.right_ - (2 ^ k : Nat), r.right_, r
          constructor
          · rw [IntegerType.contains_signed]
            omega
          constructor
          · exact hr
          constructor
          · exact ⟨(hin r hr).left, le_refl _⟩
          constructor
          · rw [max_eq_right (Nat.le_of_not_lt hlt)]
            exact Int.sub_emod_right _ _
          · rw [IntegerType.contains_unsigned]
            omega

theorem dist_exact_iff (hne : var ≠ id) (hpos : 0 < d.bitsize) (hpos' : 0 < e.bitsize)
    (hle : e.bitsize ≤ 64) {dist : Distribution} (hin : RangesIn e dist.ranges_)
    (hranges : dist.ranges_ ≠ []) :
    (forall m, HoldsForSome m id (Context.dist var d id e dist).formula ↔
        exists r, r ∈ dist.ranges_ ∧ r.Contains (value m var d)) ↔
      Distinguishes d e dist.ranges_ := by
  simp only [holdsForSome_dist hne hpos' hle hin hranges]
  constructor
  · intro h
    by_contra hnot
    rcases exists_of_not_distinguishes hpos hpos' hin hnot with
      ⟨x, i, r, hx, hr, hi, hcongr, hout⟩
    rcases exists_value var hpos hx with ⟨m, hm⟩
    rw [← hm] at hcongr hout
    rcases (h m).mp ⟨i, ⟨r, hr, hi⟩, hcongr⟩ with ⟨r', hr', hi'⟩
    exact hout (hin.contains hr' hi')
  · intro h m
    constructor
    · intro hsome
      rcases hsome with ⟨i, ⟨r, hr, hi⟩, hcongr⟩
      rw [eq_of_distinguishes hpos hpos' hin h (contains_value m var hpos) hr hi hcongr]
      exact ⟨r, hr, hi⟩
    · intro hmem
      exact ⟨_, hmem, Int.ModEq.refl _⟩

theorem fixWidth_equalConstant (id : Nat) (e : VarDecl) (i : Int) :
    FixWidthVisitor.fixWidth (equalConstant id e (constant e i)) =
      equalConstant id e (constant e i) := by
  show (FixWidthVisitor.visitBinaryOpr .equalOpr _ _).1 = _
  rw [FixWidthVisitor.visitBinaryOpr_eq]
  have hbitsize : (constant e i).bitsize = e.bitsize := rfl
  simp only [FixWidthVisitor.evalBinExpr, FixWidthVisitor.visit, hbitsize, lt_self_iff_false,
    if_false]
  rfl

theorem suggestion_in_ranges (hpos : 0 < e.bitsize) (hle : e.bitsize ≤ 64) {dist : Distribution}
    (hin : RangesIn e dist.ranges_) (hranges : dist.ranges_ ≠ []) :
    exists formula, in_ranges id e dist.ranges_ = some formula ∧
      forall (m : Model SolverVar) (u : Distribution.Uniform) (least greatest : Int), u.Within ->
        NodeHolds m (suggestion least greatest u id e dist) ->
          NodeHolds m (FixWidthVisitor.fixWidth formula) := by
  rcases decides_in_ranges id (fun r hr => hin.stored hpos hle r hr) hranges with
    ⟨formula, hformula, hdecides⟩
  exists formula
  constructor
  · exact hformula
  · intro m u least greatest hu hholds
    rcases Distribution.nextValue_mem hranges (fun r hr => (hin r hr).left) hu least greatest with
      ⟨r, hr, hnext⟩
    have hequal := ((Reads.variableExpr m id e.bitsize e.sign).equal
      (Reads.constant m (constant e (dist.nextValue least greatest u)))).nodeHolds
    rw [suggestion, ← fixWidth_equalConstant] at hholds
    have hcongr := hequal.mp hholds
    have hmax : max e.bitsize (constant e (dist.nextValue least greatest u)).bitsize =
        e.bitsize := max_self e.bitsize
    rw [hmax] at hcongr
    change value m id e ≡ stored e (dist.nextValue least greatest u)
      [ZMOD (2 ^ e.bitsize : Nat)] at hcongr
    rw [stored_of_contains hpos hle (hin.contains hr hnext)] at hcongr
    have heq : value m id e = dist.nextValue least greatest u :=
      IntegerType.eq_of_emod_eq hpos (contains_value m id hpos) (hin.contains hr hnext) hcongr
    apply (hdecides m).nodeHolds.mpr
    exists r
    constructor
    · exact hr
    · rw [heq]
      exact hnext

end Exactness

/-- The formulas for collections and distributions decide membership exactly under these
conditions, and a suggested value satisfies the formula for the ranges. -/
theorem membership_exact (var id : Nat) (d : VarDecl) (hne : var ≠ id) (hpos : 0 < d.bitsize) :
    (forall collection : List Int, exists g, inside var d id collection = .ok g ∧
      ((forall m, HoldsForSome m id g.formula ↔ value m var d ∈ collection) ↔
        Representable d collection)) ∧
    (forall (e : VarDecl) (dist : Distribution), 0 < e.bitsize -> e.bitsize ≤ 64 ->
      RangesIn e dist.ranges_ -> dist.ranges_ ≠ [] ->
        ((forall m, HoldsForSome m id (Context.dist var d id e dist).formula ↔
            exists r, r ∈ dist.ranges_ ∧ r.Contains (value m var d)) ↔
          Distinguishes d e dist.ranges_) ∧
        exists formula, in_ranges id e dist.ranges_ = some formula ∧
          forall (m : Model SolverVar) (u : Distribution.Uniform) (least greatest : Int),
            u.Within -> NodeHolds m (suggestion least greatest u id e dist) ->
              NodeHolds m (FixWidthVisitor.fixWidth formula)) := by
  constructor
  · intro collection
    rcases exists_inside var d id collection with ⟨g, hg⟩
    exists g
    constructor
    · exact hg
    · exact inside_exact_iff hne hpos hg
  · intro e dist hpos' hle hin hranges
    constructor
    · exact dist_exact_iff hne hpos hpos' hle hin hranges
    · exact suggestion_in_ranges hpos' hle hin hranges

theorem membership_exact_byte :
    (exists g, inside 1 ⟨8, false⟩ 2 [1, 5] = .ok g ∧
      forall m, HoldsForSome m 2 g.formula ↔ value m 1 ⟨8, false⟩ ∈ [1, 5]) ∧
    forall m,
      HoldsForSome m 2 (Context.dist 1 ⟨8, false⟩ 2 ⟨32, true⟩
        (Distribution.distribution.addRange (WeightedRange.weighted_range (-5) 10 1)).2).formula ↔
      exists r, r ∈ (Distribution.distribution.addRange
          (WeightedRange.weighted_range (-5) 10 1)).2.ranges_ ∧
        r.Contains (value m 1 ⟨8, false⟩) := by
  constructor
  · rcases (membership_exact 1 2 ⟨8, false⟩ (by decide) (by decide)).left [1, 5] with ⟨g, hg, hiff⟩
    exact ⟨g, hg, hiff.mpr (by decide)⟩
  · exact ((membership_exact 1 2 ⟨8, false⟩ (by decide) (by decide)).right ⟨32, true⟩
      (Distribution.distribution.addRange (WeightedRange.weighted_range (-5) 10 1)).2 (by decide)
      (by decide) (by decide) (by decide)).left.mpr (by decide)

/-- A byte is not an element of a collection that has only 300, and an unsigned integer is not
minus one, but the formulas are true for 44 and for the greatest one. -/
theorem membership_truncated :
    (exists g, inside 1 ⟨8, false⟩ 2 [300] = .ok g ∧
      ¬ forall m, HoldsForSome m 2 g.formula ↔ value m 1 ⟨8, false⟩ ∈ [300]) ∧
    ¬ forall m,
      HoldsForSome m 2 (Context.dist 1 ⟨32, false⟩ 2 ⟨32, true⟩
        (Distribution.distribution.addRange (WeightedRange.weighted_range (-1) (-1) 1)).2).formula ↔
      exists r, r ∈ (Distribution.distribution.addRange
          (WeightedRange.weighted_range (-1) (-1) 1)).2.ranges_ ∧
        r.Contains (value m 1 ⟨32, false⟩) := by
  constructor
  · rcases exists_inside 1 ⟨8, false⟩ 2 [300] with ⟨g, hg⟩
    exact ⟨g, hg, (inside_exact_iff (by decide) (by decide) hg).not.mpr (by decide)⟩
  · exact (dist_exact_iff (by decide) (by decide) (by decide) (by decide) (by decide)
      (by decide)).not.mpr (by decide)

end Context

end Frontend
end Crave
