import Crave.MetaSmt.BitBlastVisitor

/-!
# Results and terms

The visitor on the bit-blaster accepts exactly the expressions that have a kind, and its
results stand for the terms of the translation.
-/

namespace Crave
namespace MetaSmt
namespace BitBlastVisitor

open Foundation Ir Backend

variable {result_base : Type} (_solver : PredicateSolver result_base)

/-!
## Terms and results
-/

/-- The numbers of the model are those of the results that were made for the variables. -/
def Agrees (st : VisitorState result_base) (r : _solver.Reading) (m : Model SolverVar) : Prop :=
  forall id x, st.terminals_ id = some x ->
    (Term.var (.terminal id) x.kind.width).eval m = some (x.read r)

/-- The operands of the divisions in a term are ones that the circuits divide right. -/
def DivisionsAgree (m : Model SolverVar) : Formula -> Prop
  | .var _ _ => True
  | .const _ => True
  | .unary _ t => DivisionsAgree m t
  | .binary tag s t =>
      DivisionsAgree m s ∧ DivisionsAgree m t ∧
        forall (w : Nat) (x y : BitVec w), s.eval m = some ⟨w, x⟩ -> t.eval m = some ⟨w, y⟩ ->
          BitBlast.Agrees tag x y
  | .zeroExtend _ t => DivisionsAgree m t
  | .signExtend _ t => DivisionsAgree m t
  | .extract _ _ t => DivisionsAgree m t
  | .ite c t e => DivisionsAgree m c ∧ DivisionsAgree m t ∧ DivisionsAgree m e

/-- The result stands for the term. -/
def Simulates (st : VisitorState result_base) (x : Result result_base) (t : Formula) : Prop :=
  forall (r : _solver.Reading) (m : Model SolverVar), Agrees _solver st r m ->
    DivisionsAgree m t -> t.eval m = some (x.read r)

def Extends (st later : VisitorState result_base) : Prop :=
  forall id x, st.terminals_ id = some x -> later.terminals_ id = some x

variable {_solver} {st st' : VisitorState result_base}

theorem Extends.refl (st : VisitorState result_base) : Extends st st :=
  fun _ _ h => h

theorem Extends.trans {st'' : VisitorState result_base} (h : Extends st st')
    (h' : Extends st' st'') : Extends st st'' :=
  fun id x hid => h' id x (h id x hid)

theorem Agrees.mono {r : _solver.Reading} {m : Model SolverVar} (hext : Extends st st')
    (h : Agrees _solver st' r m) : Agrees _solver st r m :=
  fun id x hid => h id x (hext id x hid)

theorem Simulates.mono {x : Result result_base} {t : Formula} (h : Simulates _solver st x t)
    (hext : Extends st st') : Simulates _solver st' x t :=
  fun r m hagrees hdiv => h r m (hagrees.mono hext) hdiv

/-- The evaluation of an operation throws, or returns a result that stands for the term. -/
def Accepts (_solver : PredicateSolver result_base) (st : VisitorState result_base)
    (e : Except String (Result result_base)) (kind : Option Kind) (t : Formula) : Prop :=
  match kind with
  | none => exists msg, e = .error msg
  | some k => exists out, e = .ok out ∧ out.kind = k ∧ k.Positive ∧ Simulates _solver st out t

/-!
### Widths of the kinds
-/

theorem unaryKind_positive {tag : UnaryTag} {k k' : Kind} (hk : k.Positive)
    (h : BitBlast.unaryKind tag k = some k') : k'.Positive := by
  have hsame : k' = k := by
    cases tag <;> cases k <;> simp [BitBlast.unaryKind] at h <;> exact h.symm
  rw [hsame]
  exact hk

theorem binaryKind_positive {tag : BinaryTag} {k k' l : Kind} (hk : k.Positive)
    (h : BitBlast.binaryKind tag k k' = some l) : l.Positive := by
  have hresult : l = k ∨ l = .predicate := by
    rw [BitBlast.binaryKind] at h
    split at h
    · cases tag <;> cases k <;> simp [BitBlast.resultKind] at h <;> simp [h]
    · cases h
  rcases hresult with rfl | rfl
  · exact hk
  · exact Nat.one_pos

theorem extendKind_positive {value : Nat} {k k' : Kind} (hk : k.Positive)
    (h : BitBlast.extendKind value k = some k') : k'.Positive := by
  cases k with
  | predicate => cases h
  | vector w =>
      cases h
      exact Nat.add_pos_left hk value

theorem extractKind_positive {upper lower : Nat} {k k' : Kind}
    (h : BitBlast.extractKind upper lower k = some k') : k'.Positive := by
  cases k with
  | predicate => cases h
  | vector w =>
      simp only [BitBlast.extractKind] at h
      split at h
      · cases h
        exact Nat.succ_pos _
      · cases h

theorem iteKind_eq {c k k' l : Kind} (h : BitBlast.iteKind c k k' = some l) : l = k := by
  rw [BitBlast.iteKind] at h
  split at h
  · exact (Option.some.inj h).symm
  · cases h

section Operations

variable {x y z : Result result_base} {s t u : Formula}

theorem accepts_of_gives {e : Except String (Result result_base)} {kind : Option Kind}
    {value : _solver.Reading -> Option SizedBits} (h : BitBlast.Gives _solver e kind value)
    (hpos : forall k, kind = some k -> k.Positive)
    (hvalue : forall r m, Agrees _solver st r m -> DivisionsAgree m t -> t.eval m = value r) :
    Accepts _solver st e kind t := by
  cases kind with
  | none => exact h
  | some k =>
      rcases h with ⟨out, he, hkind, hread⟩
      refine ⟨out, he, hkind, hpos k rfl, ?_⟩
      intro r m hagrees hdiv
      rw [hvalue r m hagrees hdiv, hread]

theorem accepts_unary (hpos : x.kind.Positive) (hx : Simulates _solver st x t) (tag : UnaryTag) :
    Accepts _solver st (BitBlast.unary _solver tag x)
      (BitBlast.unaryKind tag x.kind) (.unary tag t) := by
  refine accepts_of_gives (BitBlast.unary_gives tag x) (fun k => unaryKind_positive hpos) ?_
  intro r m hagrees hdiv
  rw [Term.eval, hx r m hagrees hdiv, Option.map_some]

theorem accepts_binary (hpos : x.kind.Positive) (hx : Simulates _solver st x s)
    (hy : Simulates _solver st y t) (tag : BinaryTag) :
    Accepts _solver st (BitBlast.binary _solver tag x y)
      (BitBlast.binaryKind tag x.kind y.kind) (.binary tag s t) := by
  refine accepts_of_gives (BitBlast.binary_gives tag hpos y) (fun k => binaryKind_positive hpos) ?_
  rintro r m hagrees ⟨hdivS, hdivT, hdiv⟩
  have hs := hx r m hagrees hdivS
  have ht := hy r m hagrees hdivT
  have hw : 0 < (x.read r).width := by
    rw [Result.width_read]
    exact hpos
  rw [Term.eval, hs, ht]
  apply (BitBlast.binary_eq_blast_iff tag hw).mpr
  intro w p q hp hq
  rw [hp] at hs
  rw [hq] at ht
  exact hdiv w p q hs ht

theorem accepts_extend (hpos : x.kind.Positive) (hx : Simulates _solver st x t) (sign : Bool)
    (value : Nat) :
    Accepts _solver st (extend _solver sign value x)
      (BitBlast.extendKind value x.kind)
      (if sign then .signExtend value t else .zeroExtend value t) := by
  cases sign with
  | false =>
      refine accepts_of_gives (BitBlast.zero_extend_gives value x)
        (fun k => extendKind_positive hpos) ?_
      intro r m hagrees hdiv
      simp only [Bool.false_eq_true, if_false] at hdiv ⊢
      rw [Term.eval, hx r m hagrees hdiv, Option.map_some]
  | true =>
      refine accepts_of_gives (BitBlast.sign_extend_gives value hpos)
        (fun k => extendKind_positive hpos) ?_
      intro r m hagrees hdiv
      simp only [if_true] at hdiv ⊢
      rw [Term.eval, hx r m hagrees hdiv, Option.map_some]

theorem accepts_extract (hx : Simulates _solver st x t) (upper lower : Nat) :
    Accepts _solver st (BitBlast.extract upper lower x)
      (BitBlast.extractKind upper lower x.kind) (.extract upper lower t) := by
  refine accepts_of_gives (BitBlast.extract_gives upper lower x)
    (fun k => extractKind_positive) ?_
  intro r m hagrees hdiv
  simp only [Term.eval, hx r m hagrees hdiv]

theorem accepts_ite (hpos : y.kind.Positive) (hx : Simulates _solver st x s)
    (hy : Simulates _solver st y t) (hz : Simulates _solver st z u) :
    Accepts _solver st (BitBlast.ite _solver x y z)
      (BitBlast.iteKind x.kind y.kind z.kind) (.ite s t u) := by
  refine accepts_of_gives (BitBlast.ite_gives x y z) (fun k h => iteKind_eq h ▸ hpos) ?_
  rintro r m hagrees ⟨hdivS, hdivT, hdivU⟩
  simp only [Term.eval, hx r m hagrees hdivS, hy r m hagrees hdivT, hz r m hagrees hdivU]

end Operations

/-!
## Entries
-/

/-- The entry of the bit-blaster stands for the entry of the translation. -/
structure Matches (_solver : PredicateSolver result_base) (st : VisitorState result_base)
    (x : Entry result_base) (y : Backend.Entry) : Prop where
  sign : x.2 = y.2
  positive : x.1.kind.Positive
  simulates : Simulates _solver st x.1 y.1

theorem Matches.mono {x : Entry result_base} {y : Backend.Entry}
    (h : Matches _solver st x y) (hext : Extends st st') :
    Matches _solver st' x y :=
  { sign := h.sign, positive := h.positive, simulates := h.simulates.mono hext }

/-- One operation of the visitor throws, or leaves an entry of the kind. -/
def AcceptsEntry (_solver : PredicateSolver result_base) (st : VisitorState result_base)
    (e : Except String (Entry result_base)) (sort : Option (Kind × Bool)) (y : Backend.Entry) :
    Prop :=
  match sort with
  | none => exists msg, e = .error msg
  | some s => exists out, e = .ok out ∧ (out.1.kind, out.2) = s ∧
      Matches _solver st out y

theorem accepts_push {e : Except String (Result result_base)} {kind : Option Kind} {t : Formula}
    (sign : Bool) (h : Accepts _solver st e kind t) :
    AcceptsEntry _solver st (push sign e) (kind.map (·, sign)) (t, sign) := by
  cases kind with
  | none =>
      rcases h with ⟨msg, he⟩
      exact ⟨msg, by rw [he, push]⟩
  | some k =>
      rcases h with ⟨out, he, hkind, hpos, hsim⟩
      refine ⟨(out, sign), by rw [he, push], by rw [hkind], ?_⟩
      exact { sign := rfl, positive := hkind ▸ hpos, simulates := hsim }

section Entries

variable {x y z : Entry result_base} {fst snd trd : Backend.Entry}

theorem accepts_visitUnaryOpr (hx : Matches _solver st x fst) (op : UnaryOperator) :
    AcceptsEntry _solver st (visitUnaryOpr _solver op x)
      (unarySort op (x.1.kind, x.2)) (MetaSMTVisitor.visitUnaryOpr op fst) := by
  have hentry : MetaSMTVisitor.visitUnaryOpr op fst = (.unary (unaryTag op) fst.1, x.2) := by
    rw [hx.sign]
    cases op <;> rfl
  rw [hentry]
  exact accepts_push x.2 (accepts_unary hx.positive hx.simulates (unaryTag op))

theorem accepts_visitExtendExpr (hx : Matches _solver st x fst) (value : Nat) :
    AcceptsEntry _solver st (visitExtendExpr _solver value x)
      (extendSort value (x.1.kind, x.2)) (MetaSMTVisitor.visitExtendExpr value fst) := by
  have hentry : MetaSMTVisitor.visitExtendExpr value fst =
      (if x.2 then .signExtend value fst.1 else .zeroExtend value fst.1, x.2) := by
    rw [MetaSMTVisitor.visitExtendExpr, hx.sign]
    cases fst.2 <;> rfl
  rw [hentry]
  exact accepts_push x.2 (accepts_extend hx.positive hx.simulates x.2 value)

theorem accepts_visitBitslice (hx : Matches _solver st x fst) (r l : Nat) :
    AcceptsEntry _solver st (visitBitslice r l x)
      (bitsliceSort r l (x.1.kind, x.2)) (MetaSMTVisitor.visitBitslice r l fst) :=
  accepts_push false (accepts_extract hx.simulates r l)

theorem accepts_widened (hx : Matches _solver st x fst)
    (hy : Matches _solver st y snd) (tag : BinaryTag) :
    Accepts _solver st (widened _solver tag x y)
      (widenedKind tag x.1.kind y.1.kind)
      (.binary tag (if x.2 then .signExtend 1 fst.1 else .zeroExtend 1 fst.1)
        (if y.2 then .signExtend 1 snd.1 else .zeroExtend 1 snd.1)) := by
  have hlhs := accepts_extend hx.positive hx.simulates x.2 1
  have hrhs := accepts_extend hy.positive hy.simulates y.2 1
  rw [widened, widenedKind]
  cases hk : BitBlast.extendKind 1 x.1.kind with
  | none =>
      rw [hk] at hlhs
      rcases hlhs with ⟨msg, hmsg⟩
      exact ⟨msg, by rw [hmsg]⟩
  | some k =>
      rw [hk] at hlhs
      rcases hlhs with ⟨lhs, hlhs, hlhsKind, hlhsPos, hlhsSim⟩
      rw [hlhs]
      cases hk' : BitBlast.extendKind 1 y.1.kind with
      | none =>
          rw [hk'] at hrhs
          rcases hrhs with ⟨msg, hmsg⟩
          exact ⟨msg, by rw [hmsg]⟩
      | some k' =>
          rw [hk'] at hrhs
          rcases hrhs with ⟨rhs, hrhs, hrhsKind, -, hrhsSim⟩
          rw [hrhs]
          simp only [← hlhsKind, ← hrhsKind]
          exact accepts_binary (hlhsKind ▸ hlhsPos) hlhsSim hrhsSim tag

theorem accepts_signCases (hx : Matches _solver st x fst)
    (hy : Matches _solver st y snd) (signedTag unsignedTag : BinaryTag) :
    Accepts _solver st (signCases _solver signedTag unsignedTag x y)
      (signCasesKind signedTag unsignedTag (x.1.kind, x.2) (y.1.kind, y.2))
      (MetaSMTVisitor.signCases signedTag unsignedTag fst snd) := by
  have hsame := accepts_binary hx.positive hx.simulates hy.simulates
  have hmixed := accepts_widened hx hy signedTag
  rw [signCases, signCasesKind, MetaSMTVisitor.signCases, ← hx.sign, ← hy.sign]
  cases hs : x.2 with
  | false =>
      cases ht : y.2 with
      | false => exact hsame unsignedTag
      | true =>
          rw [hs, ht] at hmixed
          exact hmixed
  | true =>
      cases ht : y.2 with
      | false =>
          rw [hs, ht] at hmixed
          exact hmixed
      | true => exact hsame signedTag

theorem accepts_numberOpr (hx : Matches _solver st x fst) (hy : Matches _solver st y snd)
    (tag : BinaryTag) :
    AcceptsEntry _solver st (numberOpr _solver tag x y)
      ((BitBlast.binaryKind tag x.1.kind y.1.kind).map (·, x.2 || y.2))
      (MetaSMTVisitor.numberOpr tag fst snd) := by
  rw [MetaSMTVisitor.numberOpr, ← hx.sign, ← hy.sign]
  exact accepts_push _ (accepts_binary hx.positive hx.simulates hy.simulates tag)

theorem accepts_equalityOpr (hx : Matches _solver st x fst) (hy : Matches _solver st y snd)
    (tag : BinaryTag) :
    AcceptsEntry _solver st (equalityOpr _solver tag x y)
      ((BitBlast.binaryKind tag x.1.kind y.1.kind).map (·, false))
      (MetaSMTVisitor.equalityOpr tag fst snd) :=
  accepts_push false (accepts_binary hx.positive hx.simulates hy.simulates tag)

theorem accepts_shiftOpr (hx : Matches _solver st x fst) (hy : Matches _solver st y snd)
    (tag : BinaryTag) :
    AcceptsEntry _solver st (shiftOpr _solver tag x y)
      ((BitBlast.binaryKind tag x.1.kind y.1.kind).map (·, x.2))
      (MetaSMTVisitor.shiftOpr tag fst snd) := by
  rw [MetaSMTVisitor.shiftOpr, ← hx.sign]
  exact accepts_push _ (accepts_binary hx.positive hx.simulates hy.simulates tag)

theorem accepts_visitBinaryOpr (hx : Matches _solver st x fst) (hy : Matches _solver st y snd)
    (op : BinaryOperator) :
    AcceptsEntry _solver st (visitBinaryOpr _solver op x y)
      (binarySort op (x.1.kind, x.2) (y.1.kind, y.2))
      (MetaSMTVisitor.visitBinaryOpr op fst snd) := by
  cases op with
  | andOpr => exact accepts_numberOpr hx hy .bvand
  | orOpr => exact accepts_numberOpr hx hy .bvor
  | logicalAndOpr => exact accepts_numberOpr hx hy .and
  | logicalOrOpr => exact accepts_numberOpr hx hy .or
  | xorOpr => exact accepts_numberOpr hx hy .bvxor
  | equalOpr => exact accepts_equalityOpr hx hy .equal
  | notEqualOpr => exact accepts_equalityOpr hx hy .nequal
  | lessOpr => exact accepts_push false (accepts_signCases hx hy .bvslt .bvult)
  | lessEqualOpr => exact accepts_push false (accepts_signCases hx hy .bvsle .bvule)
  | greaterOpr => exact accepts_push false (accepts_signCases hx hy .bvsgt .bvugt)
  | greaterEqualOpr => exact accepts_push false (accepts_signCases hx hy .bvsge .bvuge)
  | plusOpr => exact accepts_numberOpr hx hy .bvadd
  | minusOpr => exact accepts_numberOpr hx hy .bvsub
  | multipliesOpr => exact accepts_numberOpr hx hy .bvmul
  | devideOpr =>
      rw [MetaSMTVisitor.visitBinaryOpr, MetaSMTVisitor.visitDevideOpr, ← hx.sign, ← hy.sign]
      exact accepts_push _ (accepts_signCases hx hy .bvsdiv .bvudiv)
  | moduloOpr =>
      rw [MetaSMTVisitor.visitBinaryOpr, MetaSMTVisitor.visitModuloOpr, ← hx.sign, ← hy.sign]
      exact accepts_push _ (accepts_binary hx.positive hx.simulates hy.simulates _)
  | shiftLeftOpr => exact accepts_shiftOpr hx hy .bvshl
  | shiftRightOpr => exact accepts_shiftOpr hx hy .bvshr

theorem accepts_visitIfThenElse (hx : Matches _solver st x fst) (hy : Matches _solver st y snd)
    (hz : Matches _solver st z trd) :
    AcceptsEntry _solver st (visitIfThenElse _solver x y z)
      (iteSort (x.1.kind, x.2) (y.1.kind, y.2) (z.1.kind, z.2))
      (MetaSMTVisitor.visitIfThenElse fst snd trd) := by
  have htrue : Simulates _solver st (.base _solver.true_tag) Term.true := by
    intro r m _ _
    rw [Result.read, r.sem_true_tag]
    rfl
  have hequal := accepts_binary hx.positive hx.simulates htrue .equal
  rw [visitIfThenElse, iteSort]
  cases hkind : x.1.kind with
  | vector w =>
      rw [hkind] at hequal
      rcases hequal with ⟨msg, hmsg⟩
      exact ⟨msg, by rw [hmsg]⟩
  | predicate =>
      rw [hkind] at hequal
      rcases hequal with ⟨c, hc, hcKind, -, hcSim⟩
      rw [hc]
      simp only [← hcKind]
      exact accepts_push false (accepts_ite hy.positive hcSim hy.simulates hz.simulates)

/-!
## Terminals
-/

theorem kind_visitConstant (_solver : PredicateSolver result_base) (c : Constant) :
    (visitConstant _solver c).1.kind = constantKind c := by
  rw [visitConstant, constantKind]
  split
  · rfl
  · split
    · simp [BitBlast.bvsint, Result.kind]
    · simp [BitBlast.bvuint, Result.kind]

theorem sign_visitConstant (_solver : PredicateSolver result_base) (c : Constant) :
    (visitConstant _solver c).2 = c.sign := by
  rw [visitConstant]
  split
  · rfl
  · split <;> rfl

theorem simulates_visitConstant (_solver : PredicateSolver result_base)
    (st : VisitorState result_base) (c : Constant) :
    Simulates _solver st (visitConstant _solver c).1 (MetaSMTVisitor.visitConstant c).1 := by
  intro r m _ _
  have hread : forall {x : Result result_base} {w : Nat} {value : BitVec w},
      Computes _solver (.ok x) w (fun _ => value) ->
      Term.eval m (.const ⟨w, value⟩) = some (x.read r) := by
    rintro x w value ⟨bits, hx, hlength, hword⟩
    cases hx
    rw [Result.read_bv r hlength, hword]
    rfl
  rw [visitConstant, MetaSMTVisitor.visitConstant]
  split
  · by_cases hzero : c.value = 0
    · rw [if_pos hzero, if_pos hzero, Result.read, r.sem_false_tag]
      rfl
    · rw [if_neg hzero, if_neg hzero, Result.read, r.sem_true_tag]
      rfl
  · split
    · exact hread (BitBlast.bvsint_computes _solver c.value c.bitsize)
    · exact hread (BitBlast.bvuint_computes _solver c.value.toNat c.bitsize)

theorem foldlM_insideStep (hx : Matches _solver st x fst) (collection : List Constant)
    {result : Result result_base} {t : Formula} (hkind : result.kind = .predicate)
    (hresult : Simulates _solver st result t) :
    Accepts _solver st (collection.foldlM (insideStep _solver x) result)
      (if forall c, c ∈ collection -> constantKind c = x.1.kind then some .predicate else none)
      (collection.foldl (fun result c => .binary .or result
        (.binary .equal fst.1 (MetaSMTVisitor.visitConstant c).1)) t) := by
  induction collection generalizing result t with
  | nil =>
      rw [if_pos (fun c hc => absurd hc List.not_mem_nil)]
      exact ⟨result, rfl, hkind, Nat.one_pos, hresult⟩
  | cons c collection ih =>
      have hequal := accepts_binary hx.positive hx.simulates
        (simulates_visitConstant _solver st c) .equal
      rw [kind_visitConstant _solver] at hequal
      rw [List.foldlM_cons, List.foldl_cons, insideStep]
      by_cases hc : constantKind c = x.1.kind
      · rw [hc, BitBlast.binaryKind, if_pos rfl] at hequal
        rcases hequal with ⟨eq, heq, heqKind, -, heqSim⟩
        have hor := accepts_binary (hkind ▸ Nat.one_pos) hresult heqSim .or
        rw [hkind, heqKind] at hor
        rcases hor with ⟨result', hor, hkind', -, hresult'⟩
        rw [heq]
        simp only [hor, BitBlast.ok_bind, List.forall_mem_cons, hc, true_and]
        exact ih hkind' hresult'
      · rw [BitBlast.binaryKind, if_neg (fun h => hc h.symm)] at hequal
        rcases hequal with ⟨msg, hmsg⟩
        rw [hmsg, if_neg (fun h => hc (h c List.mem_cons_self))]
        exact ⟨msg, rfl⟩

theorem accepts_visitInside (hx : Matches _solver st x fst) (collection : List Constant) :
    AcceptsEntry _solver st (visitInside _solver x collection)
      (insideSort (x.1.kind, x.2) collection) (MetaSMTVisitor.visitInside fst collection) := by
  have hfalse : Simulates _solver st (.base _solver.false_tag) Term.false := by
    intro r m _ _
    rw [Result.read, r.sem_false_tag]
    rfl
  have hfold := accepts_push false (foldlM_insideStep hx collection rfl hfalse)
  have hsort : insideSort (x.1.kind, x.2) collection =
      (if forall c, c ∈ collection -> constantKind c = x.1.kind then some Kind.predicate
        else none).map (·, false) := by
    rw [insideSort]
    split <;> rfl
  rw [hsort]
  exact hfold

end Entries

/-!
## Expressions
-/

/-- A declared variable has the result of the kind that its declaration asks for. -/
def Within (variables_ : Declarations) (st : VisitorState result_base) : Prop :=
  forall id x, st.terminals_ id = some x ->
    exists d, variables_ id = some d ∧ x.kind = variableKind d.bitsize d.sign

/-- All constants of an expression have bits. -/
def PositiveConstants : Node -> Prop
  | .placeholder _ => True
  | .variableExpr _ _ _ => True
  | .constant c => 0 < c.bitsize
  | .vectorExpr _ _ _ => True
  | .unaryOpr _ child => PositiveConstants child
  | .inside child _ => PositiveConstants child
  | .extendExpr child _ => PositiveConstants child
  | .binaryOpr _ lhs rhs => PositiveConstants lhs ∧ PositiveConstants rhs
  | .vectorAccess lhs rhs => PositiveConstants lhs ∧ PositiveConstants rhs
  | .ifThenElse a b c => PositiveConstants a ∧ PositiveConstants b ∧ PositiveConstants c
  | .forEach lhs rhs => PositiveConstants lhs ∧ PositiveConstants rhs
  | .unique child => PositiveConstants child
  | .bitslice child _ _ => PositiveConstants child

theorem width_variableKind (bitsize : Nat) (sign : Bool) :
    (variableKind bitsize sign).width = bitsize := by
  rw [variableKind]
  split
  · next h =>
      rw [Bool.and_eq_true, beq_iff_eq] at h
      exact h.1.symm
  · rfl

theorem width_constantKind (c : Constant) : (constantKind c).width = c.bitsize :=
  width_variableKind c.bitsize c.sign

theorem kind_terminal (_solver : PredicateSolver result_base) (first : Nat) (k : Kind) :
    (terminal _solver first k).kind = k := by
  cases k with
  | predicate => rfl
  | vector w => simp [terminal, BitBlast.bitvector, Result.kind]

/-- The visit throws where the expression has no kind, and otherwise leaves an entry of
that kind which stands for the entry of the translation. -/
def AcceptsNode (_solver : PredicateSolver result_base) (variables_ : Declarations)
    (st : VisitorState result_base)
    (e : Except String (Entry result_base × VisitorState result_base))
    (sort : Option (Kind × Bool)) (translated : Except String Backend.Entry) : Prop :=
  match sort with
  | none => exists msg, e = .error msg
  | some s => exists x y st', e = .ok (x, st') ∧ (x.1.kind, x.2) = s ∧ translated = .ok y ∧
      Within variables_ st' ∧ Extends st st' ∧ Matches _solver st' x y

section Visit

variable {variables_ : Declarations}

theorem acceptsNode_withState {e : Except String (Entry result_base)}
    {sort : Option (Kind × Bool)} {y : Backend.Entry} (hst' : Within variables_ st')
    (hext : Extends st st') (h : AcceptsEntry _solver st' e sort y) :
    AcceptsNode _solver variables_ st (withState st' e) sort (.ok y) := by
  cases sort with
  | none =>
      rcases h with ⟨msg, he⟩
      exact ⟨msg, by rw [he, withState]⟩
  | some s =>
      rcases h with ⟨x, he, hs, hmatches⟩
      exact ⟨x, y, st', by rw [he, withState], hs, rfl, hst', hext, hmatches⟩

theorem accepts_visitVariableExpr (hpos : forall id d, variables_ id = some d -> 0 < d.bitsize)
    (hst : Within variables_ st) {id bitsize : Nat} {sign : Bool}
    (hdecl : variables_ id = some ⟨bitsize, sign⟩) :
    AcceptsNode _solver variables_ st (.ok (visitVariableExpr _solver id bitsize sign st))
      (some (variableKind bitsize sign, sign)) (.ok (.var (.terminal id) bitsize, sign)) := by
  have hkindPos : (variableKind bitsize sign).Positive := by
    rw [Kind.Positive, width_variableKind]
    exact hpos id ⟨bitsize, sign⟩ hdecl
  have hsimulates : forall {later : VisitorState result_base} {x : Result result_base},
      later.terminals_ id = some x -> x.kind = variableKind bitsize sign ->
      Simulates _solver later x (.var (.terminal id) bitsize) := by
    intro later x hid hkind r m hagrees _
    have hread := hagrees id x hid
    rwa [hkind, width_variableKind] at hread
  rw [visitVariableExpr]
  cases hid : st.terminals_ id with
  | some x =>
      rcases hst id x hid with ⟨d, hd, hkind⟩
      rw [hdecl] at hd
      cases hd
      refine ⟨(x, sign), _, st, rfl, by rw [hkind], rfl, hst, Extends.refl st, ?_⟩
      exact { sign := rfl, positive := hkind ▸ hkindPos, simulates := hsimulates hid hkind }
  | none =>
      have hkind := kind_terminal _solver st.size (variableKind bitsize sign)
      refine ⟨_, _, _, rfl, by rw [hkind], rfl, ?_, ?_, ?_⟩
      · intro i x hi
        by_cases heq : i = id
        · subst heq
          simp only [Function.update_self, Option.some.injEq] at hi
          exact ⟨⟨bitsize, sign⟩, hdecl, hi ▸ hkind⟩
        · simp only [Function.update_of_ne heq] at hi
          exact hst i x hi
      · intro i x hi
        have hne : i ≠ id := by
          intro heq
          rw [heq, hid] at hi
          cases hi
        simp only [Function.update_of_ne hne]
        exact hi
      · exact { sign := rfl, positive := hkind.symm ▸ hkindPos
                simulates := hsimulates (Function.update_self id _ _) hkind }

theorem AcceptsNode.cases {e : Except String (Entry result_base × VisitorState result_base)}
    {sort : Option (Kind × Bool)} {translated : Except String Backend.Entry}
    (h : AcceptsNode _solver variables_ st e sort translated) :
    (sort = none ∧ exists msg, e = .error msg) ∨
      exists x y st', e = .ok (x, st') ∧ sort = some (x.1.kind, x.2) ∧ translated = .ok y ∧
        Within variables_ st' ∧ Extends st st' ∧ Matches _solver st' x y := by
  cases sort with
  | none => exact Or.inl ⟨rfl, h⟩
  | some s =>
      rcases h with ⟨x, y, st', he, rfl, rest⟩
      exact Or.inr ⟨x, y, st', he, rfl, rest⟩

theorem accepts_visit (hpos : forall id d, variables_ id = some d -> 0 < d.bitsize) {n : Node}
    (hn : n.DeclaredIn variables_) (hconst : PositiveConstants n) (hst : Within variables_ st) :
    AcceptsNode _solver variables_ st (visit _solver n st) (sort n)
      (MetaSMTVisitor.translate n) := by
  induction n generalizing st with
  | placeholder id => exact ⟨_, rfl⟩
  | variableExpr id bitsize sign => exact accepts_visitVariableExpr hpos hst hn
  | constant c =>
      have hkind := kind_visitConstant _solver c
      have hsign := sign_visitConstant _solver c
      refine ⟨visitConstant _solver c, MetaSMTVisitor.visitConstant c, st, rfl, ?_, rfl, hst,
        Extends.refl st, ?_⟩
      · rw [hkind, hsign]
      · exact { sign := by rw [hsign, Backend.sign_visitConstant]
                positive := by
                  rw [hkind, Kind.Positive, width_constantKind]
                  exact hconst
                simulates := simulates_visitConstant _solver st c }
  | vectorExpr id bitsize sign => exact ⟨_, rfl⟩
  | unaryOpr op child ih =>
      rcases (ih hn hconst hst).cases with
        ⟨hs, msg, hmsg⟩ | ⟨x, y, st', hvisit, hs, htranslate, hst', hext, hmatches⟩
      · rw [sort, visit, hs, hmsg]
        exact ⟨msg, rfl⟩
      · rw [sort, visit, MetaSMTVisitor.translate, hs, hvisit, htranslate]
        exact acceptsNode_withState hst' hext (accepts_visitUnaryOpr hmatches op)
  | inside child collection ih =>
      rcases (ih hn hconst hst).cases with
        ⟨hs, msg, hmsg⟩ | ⟨x, y, st', hvisit, hs, htranslate, hst', hext, hmatches⟩
      · rw [sort, visit, hs, hmsg]
        exact ⟨msg, rfl⟩
      · rw [sort, visit, MetaSMTVisitor.translate, hs, hvisit, htranslate]
        exact acceptsNode_withState hst' hext (accepts_visitInside hmatches collection)
  | extendExpr child value ih =>
      rcases (ih hn hconst hst).cases with
        ⟨hs, msg, hmsg⟩ | ⟨x, y, st', hvisit, hs, htranslate, hst', hext, hmatches⟩
      · rw [sort, visit, hs, hmsg]
        exact ⟨msg, rfl⟩
      · rw [sort, visit, MetaSMTVisitor.translate, hs, hvisit, htranslate]
        exact acceptsNode_withState hst' hext (accepts_visitExtendExpr hmatches value)
  | binaryOpr op lhs rhs ihl ihr =>
      rcases (ihl hn.1 hconst.1 hst).cases with
        ⟨hs, msg, hmsg⟩ | ⟨x, fst, st₁, hvisit₁, hs₁, htranslate₁, hst₁, hext₁, hfst⟩
      · rw [sort, visit, hs, hmsg]
        exact ⟨msg, rfl⟩
      · rw [sort, visit, MetaSMTVisitor.translate, hs₁, hvisit₁, htranslate₁]
        simp only [Option.bind_some]
        rcases (ihr hn.2 hconst.2 hst₁).cases with
          ⟨hs, msg, hmsg⟩ | ⟨y, snd, st₂, hvisit₂, hs₂, htranslate₂, hst₂, hext₂, hsnd⟩
        · rw [hs, hmsg]
          exact ⟨msg, rfl⟩
        · rw [hs₂, hvisit₂, htranslate₂]
          exact acceptsNode_withState hst₂ (hext₁.trans hext₂)
            (accepts_visitBinaryOpr (hfst.mono hext₂) hsnd op)
  | vectorAccess lhs rhs ihl ihr => exact ⟨_, rfl⟩
  | ifThenElse a b c iha ihb ihc =>
      rcases (iha hn.1 hconst.1 hst).cases with
        ⟨hs, msg, hmsg⟩ | ⟨x, fst, st₁, hvisit₁, hs₁, htranslate₁, hst₁, hext₁, hfst⟩
      · rw [sort, visit, hs, hmsg]
        exact ⟨msg, rfl⟩
      · rw [sort, visit, MetaSMTVisitor.translate, hs₁, hvisit₁, htranslate₁]
        simp only [Option.bind_some]
        rcases (ihb hn.2.1 hconst.2.1 hst₁).cases with
          ⟨hs, msg, hmsg⟩ | ⟨y, snd, st₂, hvisit₂, hs₂, htranslate₂, hst₂, hext₂, hsnd⟩
        · rw [hs, hmsg]
          exact ⟨msg, rfl⟩
        · rw [hs₂, hvisit₂, htranslate₂]
          simp only [Option.bind_some]
          rcases (ihc hn.2.2 hconst.2.2 hst₂).cases with
            ⟨hs, msg, hmsg⟩ | ⟨z, trd, st₃, hvisit₃, hs₃, htranslate₃, hst₃, hext₃, htrd⟩
          · rw [hs, hmsg]
            exact ⟨msg, rfl⟩
          · rw [hs₃, hvisit₃, htranslate₃]
            exact acceptsNode_withState hst₃ ((hext₁.trans hext₂).trans hext₃)
              (accepts_visitIfThenElse (hfst.mono (hext₂.trans hext₃)) (hsnd.mono hext₃) htrd)
  | forEach lhs rhs ihl ihr => exact ⟨_, rfl⟩
  | unique child ih => exact ⟨_, rfl⟩
  | bitslice child r l ih =>
      rcases (ih hn hconst hst).cases with
        ⟨hs, msg, hmsg⟩ | ⟨x, y, st', hvisit, hs, htranslate, hst', hext, hmatches⟩
      · rw [sort, visit, hs, hmsg]
        exact ⟨msg, rfl⟩
      · rw [sort, visit, MetaSMTVisitor.translate, hs, hvisit, htranslate]
        exact acceptsNode_withState hst' hext (accepts_visitBitslice hmatches r l)

/-- The visitor throws exactly on the expressions without a kind.  From every state it
leaves all others as results of their kinds, and the results stand for the terms of the
translation as long as the divisions of these are ones that the circuits divide right. -/
theorem visit_exact (hpos : forall id d, variables_ id = some d -> 0 < d.bitsize) {n : Node}
    (hn : n.DeclaredIn variables_) (hconst : PositiveConstants n) (hst : Within variables_ st) :
    (sort n = none -> exists msg, visit _solver n st = .error msg) ∧
    forall k sign, sort n = some (k, sign) ->
      exists x t st', visit _solver n st = .ok ((x, sign), st') ∧ x.kind = k ∧
        MetaSMTVisitor.translate n = .ok (t, sign) ∧ Within variables_ st' ∧ Extends st st' ∧
        forall (r : _solver.Reading) (m : Model SolverVar), Agrees _solver st' r m ->
          DivisionsAgree m t -> t.eval m = some (x.read r) := by
  rcases (accepts_visit hpos hn hconst hst : AcceptsNode _solver _ _ _ _ _).cases with
    ⟨hsort, herror⟩ | ⟨x, y, st', hvisit, hsort, htranslate, hst', hext, hmatches⟩
  · constructor
    · exact fun _ => herror
    · intro k sign hs
      rw [hsort] at hs
      cases hs
  · constructor
    · intro hs
      rw [hsort] at hs
      cases hs
    · intro k sign hs
      rw [hsort] at hs
      cases hs
      refine ⟨x.1, y.1, st', hvisit, rfl, ?_, hst', hext, hmatches.simulates⟩
      rw [htranslate, hmatches.sign]

end Visit

/-- The variable 1, an unsigned byte, divided by three. -/
def third : Node :=
  .binaryOpr .devideOpr (.variableExpr 1 8 false)
    (.constant { value := 3, bitsize := 8, sign := false })

theorem visit_exact_third :
    exists x t st', visit (PredicateSolver.evaluating fun _ => false) third
        { size := 0, terminals_ := fun _ => none } = .ok ((x, false), st') ∧
      x.kind = .vector 8 ∧ MetaSMTVisitor.translate third = .ok (t, false) ∧
      Within (fun _ => some ⟨8, false⟩) st' ∧
      Extends { size := 0, terminals_ := fun _ => none } st' ∧
      forall (r : (PredicateSolver.evaluating fun _ => false).Reading) (m : Model SolverVar),
        Agrees _ st' r m -> DivisionsAgree m t -> t.eval m = some (x.read r) := by
  have hpos : forall (id : Nat) (d : VarDecl), some (VarDecl.mk 8 false) = some d ->
      0 < d.bitsize := by
    intro id d hd
    cases hd
    exact Nat.succ_pos 7
  have hdeclared : third.DeclaredIn fun _ => some ⟨8, false⟩ := ⟨rfl, trivial⟩
  have hconst : PositiveConstants third := ⟨trivial, Nat.succ_pos 7⟩
  have hempty : Within (fun _ => some ⟨8, false⟩)
      (VisitorState.mk 0 fun _ => none : VisitorState Bool) := by
    intro id x hid
    cases hid
  exact (visit_exact hpos hdeclared hconst hempty).2 _ _ (by decide)

end BitBlastVisitor
end MetaSmt
end Crave
