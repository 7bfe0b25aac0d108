import Crave.Foundation.BitLists
import Crave.MetaSmt.BitBlast
import Mathlib.Data.List.GetD

/-!
# The circuits of the bit-blaster

Read in any way that respects the connectives, the vector of bits that an operation
returns is the bit-vector that the operation is to return.
-/

namespace Crave
namespace MetaSmt

open Foundation

variable {result_base : Type} {_solver : PredicateSolver result_base}

/-- The bit-vector that a vector of bits is read as. -/
def PredicateSolver.Reading.word (r : _solver.Reading) (w : Nat) (bits : List result_base) :
    BitVec w :=
  Bits.word w (bits.map r.sem)

/-- The operation returns a vector of the given width. -/
def Computes (_solver : PredicateSolver result_base) (e : Except String (Result result_base))
    (w : Nat) (value : _solver.Reading -> BitVec w) : Prop :=
  exists bits, e = .ok (.bv bits) ∧ bits.length = w ∧
    forall r : _solver.Reading, r.word w bits = value r

def Decides (_solver : PredicateSolver result_base) (e : Except String (Result result_base))
    (value : _solver.Reading -> Bool) : Prop :=
  exists p, e = .ok (.base p) ∧ forall r : _solver.Reading, r.sem p = value r

namespace PredicateSolver.Reading

variable (r : _solver.Reading) {w : Nat} {a b : List result_base}

theorem toNat_word (ha : a.length = w) : (r.word w a).toNat = Bits.toNat (a.map r.sem) :=
  Bits.toNat_word (by rw [List.length_map, ha])

theorem getD_map_sem {i : Nat} (hi : i < a.length) (d : result_base) :
    (a.map r.sem).getD i false = r.sem (a.getD i d) := by
  rw [List.getD_eq_getElem _ _ (by rw [List.length_map]; exact hi), List.getElem_map,
    List.getD_eq_getElem _ _ hi]

theorem getLsbD_word (ha : a.length = w) {i : Nat} (hi : i < w) (d : result_base) :
    (r.word w a).getLsbD i = r.sem (a.getD i d) := by
  rw [word, Bits.getLsbD_word, r.getD_map_sem (by omega) d]
  simp [hi]

theorem getLsbD_word_range (f : Nat -> result_base) {i : Nat} (hi : i < w) :
    (r.word w ((List.range w).map f)).getLsbD i = r.sem (f i) := by
  rw [word, Bits.getLsbD_word, List.map_map, List.getD_eq_getElem _ _ (by simpa using hi)]
  simp [hi]

theorem word_eq_of_getLsbD (ha : a.length = w) (d : result_base) {x : BitVec w}
    (h : forall i, i < w -> r.sem (a.getD i d) = x.getLsbD i) : r.word w a = x := by
  apply BitVec.eq_of_getLsbD_eq
  intro i hi
  rw [r.getLsbD_word ha hi d, h i hi]

theorem word_inj (ha : a.length = w) (hb : b.length = w) :
    r.word w a = r.word w b ↔ a.map r.sem = b.map r.sem := by
  rw [← BitVec.toNat_inj, r.toNat_word ha, r.toNat_word hb]
  exact Bits.toNat_inj (by rw [List.length_map, List.length_map, ha, hb])

@[simp] theorem word_replicate_false (n : Nat) :
    r.word w (List.replicate n _solver.false_tag) = 0#w := by
  rw [word, List.map_replicate, r.sem_false_tag, Bits.word, Bits.toNat_replicate_false]

end PredicateSolver.Reading

namespace BitBlast

variable {w : Nat} {a b : List result_base}

theorem operands_bv (ha : a.length = w) (hb : b.length = w) :
    operands (.bv a) (.bv b) = .ok (a, b) := by
  have h : a.length = b.length := ha.trans hb.symm
  simp only [operands, Result.getBv, h, if_true]

/-!
## Variables and constants
-/

theorem bvuint_computes (_solver : PredicateSolver result_base) (value w : Nat) :
    Computes _solver (.ok (bvuint _solver value w)) w fun _ => BitVec.ofNat w value := by
  refine ⟨_, rfl, by simp, ?_⟩
  intro r
  apply BitVec.eq_of_getLsbD_eq
  intro i hi
  rw [r.getLsbD_word_range _ hi, BitVec.getLsbD_ofNat, Nat.testBit_shiftRight, Nat.add_zero]
  cases value.testBit i with
  | false => simp
  | true => simp [hi]

theorem bvsint_computes (_solver : PredicateSolver result_base) (value : BitVec 64) (w : Nat) :
    Computes _solver (.ok (bvsint _solver value w)) w fun _ => value.signExtend w := by
  refine ⟨_, rfl, by simp, ?_⟩
  intro r
  apply BitVec.eq_of_getLsbD_eq
  intro i hi
  have hbit : (value.sshiftRight i).getLsbD 0 = (value.signExtend w).getLsbD i := by
    rw [BitVec.getLsbD_sshiftRight, BitVec.getLsbD_signExtend]
    simp [hi]
  rw [r.getLsbD_word_range _ hi, hbit]
  cases (value.signExtend w).getLsbD i with
  | false => simp
  | true => simp

/-!
## Bitwise operations
-/

theorem bitwise_computes (_solver : PredicateSolver result_base)
    {tag : result_base -> result_base -> result_base}
    {op : BitVec w -> BitVec w -> BitVec w} {connective : Bool -> Bool -> Bool}
    (htag : forall (r : _solver.Reading) x y, r.sem (tag x y) = connective (r.sem x) (r.sem y))
    (hop : forall (x y : BitVec w) i, i < w ->
      (op x y).getLsbD i = connective (x.getLsbD i) (y.getLsbD i))
    (ha : a.length = w) (hb : b.length = w) :
    Computes _solver (bitwise tag (.bv a) (.bv b)) w fun r => op (r.word w a) (r.word w b) := by
  have hlength : (List.zipWith tag a b).length = w := by
    rw [List.length_zipWith, ha, hb, Nat.min_self]
  refine ⟨List.zipWith tag a b, by simp only [bitwise, operands_bv ha hb], hlength, ?_⟩
  intro r
  apply r.word_eq_of_getLsbD hlength _solver.false_tag
  intro i hi
  have hia : i < a.length := ha ▸ hi
  have hib : i < b.length := hb ▸ hi
  rw [hop _ _ i hi, r.getLsbD_word ha hi _solver.false_tag, r.getLsbD_word hb hi _solver.false_tag,
    List.getD_eq_getElem _ _ (hlength ▸ hi), List.getElem_zipWith, htag,
    List.getD_eq_getElem _ _ hia, List.getD_eq_getElem _ _ hib]

theorem bvand_computes (_solver : PredicateSolver result_base)
    (ha : a.length = w) (hb : b.length = w) :
    Computes _solver (bvand _solver (.bv a) (.bv b)) w fun r => r.word w a &&& r.word w b :=
  bitwise_computes _solver (fun r => r.sem_and_tag) (fun _ _ _ _ => BitVec.getLsbD_and) ha hb

theorem bvor_computes (_solver : PredicateSolver result_base)
    (ha : a.length = w) (hb : b.length = w) :
    Computes _solver (bvor _solver (.bv a) (.bv b)) w fun r => r.word w a ||| r.word w b :=
  bitwise_computes _solver (fun r => r.sem_or_tag) (fun _ _ _ _ => BitVec.getLsbD_or) ha hb

theorem bvxor_computes (_solver : PredicateSolver result_base)
    (ha : a.length = w) (hb : b.length = w) :
    Computes _solver (bvxor _solver (.bv a) (.bv b)) w fun r => r.word w a ^^^ r.word w b :=
  bitwise_computes _solver (fun r => r.sem_xor_tag) (fun _ _ _ _ => BitVec.getLsbD_xor) ha hb

theorem bvnot_computes (_solver : PredicateSolver result_base) (ha : a.length = w) :
    Computes _solver (bvnot _solver (.bv a)) w fun r => ~~~r.word w a := by
  refine ⟨a.map _solver.not_tag, rfl, by rw [List.length_map, ha], ?_⟩
  intro r
  apply r.word_eq_of_getLsbD (by rw [List.length_map, ha]) _solver.false_tag
  intro i hi
  have hia : i < a.length := ha ▸ hi
  rw [BitVec.getLsbD_not, r.getLsbD_word ha hi _solver.false_tag,
    List.getD_eq_getElem _ _ (by rw [List.length_map]; exact hia), List.getElem_map,
    r.sem_not_tag, List.getD_eq_getElem _ _ hia]
  simp [hi]

/-!
## Equality and the conditional
-/

theorem sem_collect_equal (r : _solver.Reading) (h : a.length = b.length) (unit : result_base) :
    r.sem (collect _solver.equal_tag _solver.and_tag unit a b) =
      ((a.map r.sem == b.map r.sem) && r.sem unit) := by
  induction a generalizing b unit with
  | nil =>
      cases b with
      | nil => simp [collect]
      | cons y b => cases h
  | cons x a ih =>
      cases b with
      | nil => cases h
      | cons y b =>
          have hrest := ih (Nat.succ.inj h) (_solver.and_tag (_solver.equal_tag x y) unit)
          simp only [collect, List.zip_cons_cons, List.foldl_cons] at hrest ⊢
          rw [hrest, r.sem_and_tag, r.sem_equal_tag, List.map_cons, List.map_cons,
            List.cons_beq_cons, Bool.and_left_comm, Bool.and_assoc]

theorem sem_collect_nequal (r : _solver.Reading) (h : a.length = b.length) (unit : result_base) :
    r.sem (collect _solver.nequal_tag _solver.or_tag unit a b) =
      ((a.map r.sem != b.map r.sem) || r.sem unit) := by
  induction a generalizing b unit with
  | nil =>
      cases b with
      | nil => simp [collect]
      | cons y b => cases h
  | cons x a ih =>
      cases b with
      | nil => cases h
      | cons y b =>
          have hrest := ih (Nat.succ.inj h) (_solver.or_tag (_solver.nequal_tag x y) unit)
          simp only [collect, List.zip_cons_cons, List.foldl_cons] at hrest ⊢
          rw [hrest, r.sem_or_tag, r.sem_nequal_tag, List.map_cons, List.map_cons, bne, bne, bne,
            List.cons_beq_cons, Bool.not_and, Bool.or_left_comm, Bool.or_assoc]

theorem beq_word (r : _solver.Reading) (ha : a.length = w) (hb : b.length = w) :
    (r.word w a == r.word w b) = (a.map r.sem == b.map r.sem) := by
  rw [Bool.eq_iff_iff, beq_iff_eq, r.word_inj ha hb, beq_iff_eq]

theorem equal_decides (_solver : PredicateSolver result_base)
    (ha : a.length = w) (hb : b.length = w) :
    Decides _solver (equal _solver (.bv a) (.bv b)) fun r => r.word w a == r.word w b := by
  have h : a.length = b.length := ha.trans hb.symm
  refine ⟨_, if_pos h, ?_⟩
  intro r
  show _ = (r.word w a == r.word w b)
  rw [sem_collect_equal r h, r.sem_true_tag, Bool.and_true, beq_word r ha hb]

theorem nequal_decides (_solver : PredicateSolver result_base)
    (ha : a.length = w) (hb : b.length = w) :
    Decides _solver (nequal _solver (.bv a) (.bv b)) fun r => r.word w a != r.word w b := by
  have h : a.length = b.length := ha.trans hb.symm
  refine ⟨_, if_pos h, ?_⟩
  intro r
  show _ = (r.word w a != r.word w b)
  rw [sem_collect_nequal r h, r.sem_false_tag, Bool.or_false, bne, bne, beq_word r ha hb]

theorem ite_computes (_solver : PredicateSolver result_base)
    (c : result_base) (ha : a.length = w) (hb : b.length = w) :
    Computes _solver (ite _solver (.base c) (.bv a) (.bv b)) w fun r =>
      if r.sem c then r.word w a else r.word w b := by
  have h : a.length = b.length := ha.trans hb.symm
  have hlength : (List.zipWith (_solver.ite_tag c) a b).length = w := by
    rw [List.length_zipWith, ha, hb, Nat.min_self]
  refine ⟨_, if_pos h, hlength, ?_⟩
  intro r
  apply r.word_eq_of_getLsbD hlength _solver.false_tag
  intro i hi
  have hia : i < a.length := ha ▸ hi
  have hib : i < b.length := hb ▸ hi
  show _ = (if r.sem c then r.word w a else r.word w b).getLsbD i
  rw [List.getD_eq_getElem _ _ (hlength ▸ hi), List.getElem_zipWith, r.sem_ite_tag]
  split
  · rw [r.getLsbD_word ha hi _solver.false_tag, List.getD_eq_getElem _ _ hia]
  · rw [r.getLsbD_word hb hi _solver.false_tag, List.getD_eq_getElem _ _ hib]

theorem ite_decides (_solver : PredicateSolver result_base) (c p q : result_base) :
    Decides _solver (ite _solver (.base c) (.base p) (.base q)) fun r =>
      if r.sem c then r.sem p else r.sem q :=
  ⟨_, rfl, fun r => r.sem_ite_tag c p q⟩

/-!
## Comparisons
-/

theorem sem_less (r : _solver.Reading) (x y : result_base) :
    r.sem (less _solver x y) = Bits.less (r.sem x) (r.sem y) := by
  rw [less, r.sem_and_tag, r.sem_not_tag]
  rfl

theorem sem_great (r : _solver.Reading) (x y : result_base) :
    r.sem (great _solver x y) = Bits.great (r.sem x) (r.sem y) := by
  rw [great, r.sem_and_tag, r.sem_not_tag]
  rfl

theorem sem_foldr_compareStep (r : _solver.Reading)
    {now : result_base -> result_base -> result_base} {nowBool : Bool -> Bool -> Bool}
    (hnow : forall x y, r.sem (now x y) = nowBool (r.sem x) (r.sem y))
    (a b : List result_base) (state : result_base × result_base) :
    (r.sem ((a.zip b).foldr (compareStep _solver now) state).1,
      r.sem ((a.zip b).foldr (compareStep _solver now) state).2) =
      ((a.map r.sem).zip (b.map r.sem)).foldr (Bits.compareStep nowBool)
        (r.sem state.1, r.sem state.2) := by
  induction a generalizing b with
  | nil => rfl
  | cons x a ih =>
      cases b with
      | nil => rfl
      | cons y b =>
          have hrest := ih b
          simp only [List.zip_cons_cons, List.foldr_cons, List.map_cons] at hrest ⊢
          rw [← hrest]
          simp only [compareStep, Bits.compareStep, r.sem_or_tag, r.sem_and_tag, r.sem_xnor_tag,
            hnow]

/-- The state of the comparison after all bits. -/
def compareBits (_solver : PredicateSolver result_base)
    (top now : result_base -> result_base -> result_base) (as bs : List result_base)
    (x y : result_base) : result_base × result_base :=
  (as.zip bs).foldr (compareStep _solver now) (top x y, _solver.xnor_tag x y)

theorem compare_snoc (top now : result_base -> result_base -> result_base) (orEqual : Bool)
    {as bs : List result_base} (h : as.length = bs.length) (x y : result_base) :
    compare _solver top now orEqual (.bv (as ++ [x])) (.bv (bs ++ [y])) =
      .ok (.base (if orEqual then
          _solver.or_tag (compareBits _solver top now as bs x y).1
            (compareBits _solver top now as bs x y).2
        else (compareBits _solver top now as bs x y).1)) := by
  have hzip : ((as ++ [x]).zip (bs ++ [y])).reverse = (x, y) :: (as.zip bs).reverse := by
    rw [List.zip_append h, List.reverse_append]
    rfl
  have hoperands : operands (.bv (as ++ [x])) (.bv (bs ++ [y])) = .ok (as ++ [x], bs ++ [y]) :=
    operands_bv rfl (by rw [List.length_append, List.length_append, h, List.length_singleton,
      List.length_singleton])
  rw [compare, hoperands]
  simp only [hzip, List.foldl_reverse]
  rfl

/-- The comparison of two vectors, when the order on words is decided by the highest
bits, and by the lower bits where these are equal. -/
theorem compare_decides (_solver : PredicateSolver result_base)
    {top now : result_base -> result_base -> result_base}
    {topBool nowBool : Bool -> Bool -> Bool} {below : List Bool -> List Bool -> Bool}
    (strict : forall n : Nat, BitVec n -> BitVec n -> Bool)
    (htop : forall (r : _solver.Reading) x y, r.sem (top x y) = topBool (r.sem x) (r.sem y))
    (hnow : forall (r : _solver.Reading) x y, r.sem (now x y) = nowBool (r.sem x) (r.sem y))
    (hbelow : forall as bs : List Bool, as.length = bs.length -> forall state,
      (as.zip bs).foldr (Bits.compareStep nowBool) state =
        (state.1 || (state.2 && below as bs),
          decide (Bits.toNat as = Bits.toNat bs) && state.2))
    (hstrict : forall (n : Nat) (as bs : List Bool), as.length = n -> bs.length = n ->
      forall x y, strict (n + 1) (Bits.word (n + 1) (as ++ [x])) (Bits.word (n + 1) (bs ++ [y])) =
        (topBool x y || ((x == y) && below as bs)))
    (orEqual : Bool) (hw : 0 < w) (ha : a.length = w) (hb : b.length = w) :
    Decides _solver (compare _solver top now orEqual (.bv a) (.bv b)) fun r =>
      strict w (r.word w a) (r.word w b) || (orEqual && (r.word w a == r.word w b)) := by
  cases w with
  | zero => exact absurd hw (Nat.lt_irrefl 0)
  | succ n =>
      rcases List.eq_nil_or_concat a with rfl | ⟨as, x, rfl⟩
      · cases ha
      · rcases List.eq_nil_or_concat b with rfl | ⟨bs, y, rfl⟩
        · cases hb
        · rw [List.length_concat, Nat.succ.injEq] at ha hb
          rw [List.concat_eq_append, List.concat_eq_append]
          refine ⟨_, compare_snoc top now orEqual (ha.trans hb.symm) x y, ?_⟩
          intro r
          have has : (as.map r.sem).length = n := by rw [List.length_map, ha]
          have hbs : (bs.map r.sem).length = n := by rw [List.length_map, hb]
          have hstate := sem_foldr_compareStep r (hnow r) as bs (top x y, _solver.xnor_tag x y)
          rw [hbelow _ _ (has.trans hbs.symm), htop, r.sem_xnor_tag, Prod.mk.injEq] at hstate
          have hfst : r.sem (compareBits _solver top now as bs x y).1 = _ := hstate.left
          have hsnd : r.sem (compareBits _solver top now as bs x y).2 = _ := hstate.right
          simp only [PredicateSolver.Reading.word, List.map_append, List.map_cons, List.map_nil]
          rw [hstrict n _ _ has hbs, Bits.beq_word_snoc has hbs]
          cases orEqual with
          | false =>
              simp only [Bool.false_eq_true, if_false, hfst, Bool.false_and, Bool.or_false]
          | true => simp only [if_true, r.sem_or_tag, hfst, hsnd, Bool.true_and]

section Orders

variable (_solver) (hw : 0 < w) (ha : a.length = w) (hb : b.length = w)

include hw ha hb

theorem below_decides (orEqual : Bool) :
    Decides _solver (compare _solver (less _solver) (less _solver) orEqual (.bv a) (.bv b))
      fun r => (r.word w a).ult (r.word w b) || (orEqual && (r.word w a == r.word w b)) :=
  compare_decides _solver (fun _ x y => x.ult y) sem_less sem_less
    (fun _ _ h => Bits.foldr_compareStep_less h) (fun _ _ _ => Bits.ult_word_snoc) orEqual hw ha hb

theorem signed_below_decides (orEqual : Bool) :
    Decides _solver (compare _solver (great _solver) (less _solver) orEqual (.bv a) (.bv b))
      fun r => (r.word w a).slt (r.word w b) || (orEqual && (r.word w a == r.word w b)) :=
  compare_decides _solver (fun _ x y => x.slt y) sem_great sem_less
    (fun _ _ h => Bits.foldr_compareStep_less h) (fun _ _ _ => Bits.slt_word_snoc) orEqual hw ha hb

theorem above_decides (orEqual : Bool) :
    Decides _solver (compare _solver (great _solver) (great _solver) orEqual (.bv a) (.bv b))
      fun r => (r.word w b).ult (r.word w a) || (orEqual && (r.word w a == r.word w b)) := by
  refine compare_decides _solver (fun _ x y => y.ult x) sem_great sem_great
    (fun _ _ h => Bits.foldr_compareStep_great h) ?_ orEqual hw ha hb
  intro n as bs has hbs x y
  rw [Bits.ult_word_snoc hbs has]
  cases x <;> cases y <;> rfl

theorem signed_above_decides (orEqual : Bool) :
    Decides _solver (compare _solver (less _solver) (great _solver) orEqual (.bv a) (.bv b))
      fun r => (r.word w b).slt (r.word w a) || (orEqual && (r.word w a == r.word w b)) := by
  refine compare_decides _solver (fun _ x y => y.slt x) sem_less sem_great
    (fun _ _ h => Bits.foldr_compareStep_great h) ?_ orEqual hw ha hb
  intro n as bs has hbs x y
  rw [Bits.slt_word_snoc hbs has]
  cases x <;> cases y <;> rfl

theorem bvult_decides :
    Decides _solver (bvult _solver (.bv a) (.bv b)) fun r => (r.word w a).ult (r.word w b) := by
  have h := below_decides _solver hw ha hb false
  simpa [bvult] using h

theorem bvslt_decides :
    Decides _solver (bvslt _solver (.bv a) (.bv b)) fun r => (r.word w a).slt (r.word w b) := by
  have h := signed_below_decides _solver hw ha hb false
  simpa [bvslt] using h

theorem bvugt_decides :
    Decides _solver (bvugt _solver (.bv a) (.bv b)) fun r => (r.word w b).ult (r.word w a) := by
  have h := above_decides _solver hw ha hb false
  simpa [bvugt] using h

theorem bvsgt_decides :
    Decides _solver (bvsgt _solver (.bv a) (.bv b)) fun r => (r.word w b).slt (r.word w a) := by
  have h := signed_above_decides _solver hw ha hb false
  simpa [bvsgt] using h

theorem bvule_decides :
    Decides _solver (bvule _solver (.bv a) (.bv b)) fun r => (r.word w a).ule (r.word w b) := by
  have h := below_decides _solver hw ha hb true
  simpa [bvule, Bits.ule_eq_ult_or_eq] using h

theorem bvsle_decides :
    Decides _solver (bvsle _solver (.bv a) (.bv b)) fun r => (r.word w a).sle (r.word w b) := by
  have h := signed_below_decides _solver hw ha hb true
  simpa [bvsle, BitVec.sle_eq_slt_or_eq] using h

theorem bvuge_decides :
    Decides _solver (bvuge _solver (.bv a) (.bv b)) fun r => (r.word w b).ule (r.word w a) := by
  have h := above_decides _solver hw ha hb true
  simpa [bvuge, Bits.ule_eq_ult_or_eq, Bool.beq_comm] using h

theorem bvsge_decides :
    Decides _solver (bvsge _solver (.bv a) (.bv b)) fun r => (r.word w b).sle (r.word w a) := by
  have h := signed_above_decides _solver hw ha hb true
  simpa [bvsge, BitVec.sle_eq_slt_or_eq, Bool.beq_comm] using h

end Orders

/-!
## Widening and slices
-/

theorem zero_extend_computes (_solver : PredicateSolver result_base) (ha : a.length = w) (n : Nat) :
    Computes _solver (zero_extend _solver n (.bv a)) (w + n) fun r =>
      (r.word w a).setWidth (w + n) := by
  have hlength : (a ++ List.replicate n _solver.false_tag).length = w + n := by
    rw [List.length_append, List.length_replicate, ha]
  refine ⟨_, rfl, hlength, ?_⟩
  intro r
  apply r.word_eq_of_getLsbD hlength _solver.false_tag
  intro i hi
  rw [BitVec.getLsbD_setWidth]
  by_cases hlow : i < w
  · rw [List.getD_append _ _ _ _ (ha ▸ hlow), r.getLsbD_word ha hlow _solver.false_tag]
    simp [hi]
  · rw [List.getD_append_right _ _ _ _ (by omega), List.getD_replicate _ (by omega),
      r.sem_false_tag, BitVec.getLsbD_of_ge _ _ (Nat.le_of_not_lt hlow), Bool.and_false]

theorem sign_extend_computes (_solver : PredicateSolver result_base)
    (hw : 0 < w) (ha : a.length = w) (n : Nat) :
    Computes _solver (sign_extend n (.bv a)) (w + n) fun r =>
      (r.word w a).signExtend (w + n) := by
  rcases List.eq_nil_or_concat a with rfl | ⟨as, x, rfl⟩
  · rw [List.length_nil] at ha
    omega
  · rw [List.concat_eq_append] at ha ⊢
    have hlength : (as ++ [x] ++ List.replicate n x).length = w + n := by
      rw [List.length_append, List.length_replicate, ha]
    refine ⟨as ++ [x] ++ List.replicate n x, by simp [sign_extend, Result.getBv], hlength, ?_⟩
    intro r
    apply r.word_eq_of_getLsbD hlength _solver.false_tag
    intro i hi
    rw [BitVec.getLsbD_signExtend]
    by_cases hlow : i < w
    · rw [List.getD_append _ _ _ _ (ha ▸ hlow), if_pos hlow,
        r.getLsbD_word ha hlow _solver.false_tag]
      simp [hi]
    · have hmsb : (r.word w (as ++ [x])).msb = r.sem x := by
        have has : as.length = w - 1 := by
          rw [List.length_append, List.length_singleton] at ha
          omega
        rw [BitVec.msb_eq_getLsbD_last, r.getLsbD_word ha (by omega) x]
        rw [List.getD_append_right _ _ _ _ (by omega), has, Nat.sub_self]
        rfl
      rw [List.getD_append_right _ _ _ _ (by omega), List.getD_replicate _ (by omega),
        if_neg hlow, hmsb]
      simp [hi]

theorem extract_computes (_solver : PredicateSolver result_base)
    (ha : a.length = w) {upper lower : Nat} (hle : lower ≤ upper)
    (hlt : upper < w) :
    Computes _solver (extract upper lower (.bv a)) (upper - lower + 1) fun r =>
      (r.word w a).extractLsb upper lower := by
  have hlength : ((a.drop lower).take (upper - lower + 1)).length = upper - lower + 1 := by
    rw [List.length_take, List.length_drop]
    omega
  refine ⟨_, if_pos ⟨hle, ha ▸ hlt⟩, hlength, ?_⟩
  intro r
  apply r.word_eq_of_getLsbD hlength _solver.false_tag
  intro i hi
  have hia : lower + i < a.length := by omega
  have hbit : ((a.drop lower).take (upper - lower + 1)).getD i _solver.false_tag =
      a.getD (lower + i) _solver.false_tag := by
    rw [List.getD_eq_getElem _ _ (by omega), List.getElem_take, List.getElem_drop,
      List.getD_eq_getElem _ _ hia]
  rw [hbit, BitVec.getLsbD_extractLsb, r.getLsbD_word ha (by omega) _solver.false_tag]
  simp [hi]

theorem length_shiftR (a : List result_base) (i : Nat) (x : result_base) :
    (shiftR a i x).length = a.length := by
  simp [shiftR]

theorem length_shiftL (a : List result_base) (i : Nat) :
    (shiftL _solver a i).length = a.length := by
  simp [shiftL]

theorem word_shiftR (r : _solver.Reading) (ha : a.length = w) (i : Nat) :
    r.word w (shiftR a i _solver.false_tag) = r.word w a >>> i := by
  apply BitVec.eq_of_getLsbD_eq
  intro j hj
  rw [shiftR, ha, r.getLsbD_word_range _ hj, BitVec.getLsbD_ushiftRight]
  by_cases hlow : i + j < w
  · rw [r.getLsbD_word ha hlow _solver.false_tag]
  · rw [List.getD_eq_default _ _ (by omega), r.sem_false_tag,
      BitVec.getLsbD_of_ge _ _ (Nat.le_of_not_lt hlow)]

theorem word_shiftL (r : _solver.Reading) (ha : a.length = w) (i : Nat) :
    r.word w (shiftL _solver a i) = r.word w a <<< i := by
  apply BitVec.eq_of_getLsbD_eq
  intro j hj
  rw [shiftL, ha, r.getLsbD_word_range _ hj, BitVec.getLsbD_shiftLeft]
  by_cases hlow : j < i
  · simp [hlow]
  · rw [if_neg hlow, r.getLsbD_word ha (by omega) _solver.false_tag]
    simp [hj, hlow]

/-!
## Sums and products
-/

theorem map_adder (r : _solver.Reading) (a b : List result_base) (carry : result_base) :
    (adder _solver a b carry).map r.sem = Bits.add (a.map r.sem) (b.map r.sem) (r.sem carry) := by
  induction a generalizing b carry with
  | nil => rfl
  | cons x a ih =>
      cases b with
      | nil => rfl
      | cons y b =>
          rw [adder, List.map_cons, ih, List.map_cons, List.map_cons, Bits.add]
          simp only [r.sem_xor_tag, r.sem_or_tag, r.sem_and_tag]

theorem bvadd_computes (_solver : PredicateSolver result_base)
    (ha : a.length = w) (hb : b.length = w) :
    Computes _solver (bvadd _solver (.bv a) (.bv b)) w fun r => r.word w a + r.word w b := by
  refine ⟨adder _solver a b _solver.false_tag, by simp only [bvadd, operands_bv ha hb], ?_, ?_⟩
  · have hlength : forall (a b : List result_base) carry,
        (adder _solver a b carry).length = min a.length b.length := by
      intro a
      induction a with
      | nil => simp [adder]
      | cons x a ih =>
          intro b carry
          cases b with
          | nil => simp [adder]
          | cons y b => simp [adder, ih, Nat.succ_min_succ]
    rw [hlength, ha, hb, Nat.min_self]
  · intro r
    rw [PredicateSolver.Reading.word, map_adder, r.sem_false_tag]
    exact Bits.word_add (by rw [List.length_map, ha]) (by rw [List.length_map, hb])

theorem bvneg_computes (_solver : PredicateSolver result_base) (ha : a.length = w) :
    Computes _solver (bvneg _solver (.bv a)) w fun r => -r.word w a := by
  rcases bvnot_computes _solver ha with ⟨tmp2, hnot, htmp2, hword⟩
  let tmp1 := (List.replicate a.length _solver.false_tag).set 0 _solver.true_tag
  have htmp1 : tmp1.length = w := by
    rw [List.length_set, List.length_replicate, ha]
  have hone : forall r : _solver.Reading, r.word w tmp1 = 1#w := by
    intro r
    apply r.word_eq_of_getLsbD htmp1 _solver.false_tag
    intro i hi
    rw [List.getD_eq_getElem _ _ (htmp1 ▸ hi), List.getElem_set, BitVec.getLsbD_one]
    cases i with
    | zero => simp [hi]
    | succ i => simp
  rcases bvadd_computes _solver htmp2 htmp1 with ⟨sum, hadd, hsum, hsumWord⟩
  refine ⟨sum, ?_, hsum, ?_⟩
  · simp only [bvneg, Result.getBv, hnot]
    exact hadd
  · intro r
    simp only [hsumWord, hword, hone, BitVec.neg_eq_not_add]

theorem bvsub_computes (_solver : PredicateSolver result_base)
    (ha : a.length = w) (hb : b.length = w) :
    Computes _solver (bvsub _solver (.bv a) (.bv b)) w fun r => r.word w a - r.word w b := by
  rcases bvneg_computes _solver hb with ⟨tmp, hneg, htmp, hword⟩
  rcases bvadd_computes _solver ha htmp with ⟨sum, hadd, hsum, hsumWord⟩
  refine ⟨sum, ?_, hsum, ?_⟩
  · simp only [bvsub, hneg]
    exact hadd
  · intro r
    simp only [hsumWord, hword, BitVec.sub_eq_add_neg]

end BitBlast
end MetaSmt
end Crave
