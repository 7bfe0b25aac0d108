import Crave.MetaSmt.BitBlastSimulation

/-!
# The variables of the bit-blaster

Every variable that the visitor meets has bits of its own.  So an assignment of the bits
is the same as a choice of values for the variables.
-/

namespace Crave
namespace MetaSmt
namespace BitBlastVisitor

open Foundation Ir Backend

variable {result_base : Type} (_solver : PredicateSolver result_base)

def declare (id : Nat) (k : Kind) (st : VisitorState result_base) : VisitorState result_base :=
  { size := st.size + k.width
    terminals_ := Function.update st.terminals_ id (some (terminal _solver st.size k)) }

/-- The states that the visitor goes through: one variable after the other is made. -/
inductive Laid : VisitorState result_base -> Prop
  | empty : Laid { size := 0, terminals_ := fun _ => none }
  | declare {st : VisitorState result_base} (h : Laid st) {id : Nat}
      (hid : st.terminals_ id = none) (k : Kind) : Laid (declare _solver id k st)

variable {_solver} {st st' : VisitorState result_base}

theorem laid_visitVariableExpr (h : Laid _solver st) (id bitsize : Nat) (sign : Bool) :
    Laid _solver (visitVariableExpr _solver id bitsize sign st).2 := by
  rw [visitVariableExpr]
  cases hid : st.terminals_ id with
  | some x => exact h
  | none => exact h.declare hid (variableKind bitsize sign)

theorem eq_of_withState {e : Except String (Entry result_base)} {x : Entry result_base}
    (h : withState st e = .ok (x, st')) : st' = st := by
  cases e with
  | error msg => cases h
  | ok entry =>
      cases h
      rfl

/-- The variables of the expression preserve the property. -/
def Preserves (_solver : PredicateSolver result_base) (P : VisitorState result_base -> Prop)
    (n : Node) : Prop :=
  forall id bitsize sign st, .variableExpr id bitsize sign ∈ n.subterms -> P st ->
    P (visitVariableExpr _solver id bitsize sign st).2

theorem Preserves.mono {P : VisitorState result_base -> Prop} {n n' : Node}
    (h : Preserves _solver P n) (hsub : forall u, u ∈ n'.subterms -> u ∈ n.subterms) :
    Preserves _solver P n' :=
  fun id bitsize sign st hmem => h id bitsize sign st (hsub _ hmem)

theorem visit_preserves {P : VisitorState result_base -> Prop} {n : Node}
    (hvar : Preserves _solver P n) {x : Entry result_base} (hst : P st)
    (h : visit _solver n st = .ok (x, st')) : P st' := by
  induction n generalizing st st' x with
  | placeholder id => cases h
  | variableExpr id bitsize sign =>
      have hstate : (visitVariableExpr _solver id bitsize sign st).2 = st' :=
        congrArg Prod.snd (Except.ok.inj h)
      exact hstate ▸ hvar id bitsize sign st (List.mem_singleton.mpr rfl) hst
  | constant c =>
      cases h
      exact hst
  | vectorExpr id bitsize sign => cases h
  | unaryOpr op child ih =>
      rw [visit] at h
      split at h
      · cases h
      · next hchild =>
          have hvar' : Preserves _solver P child :=
            hvar.mono fun u hu => List.mem_cons_of_mem _ hu
          exact eq_of_withState h ▸ ih hvar' hst hchild
  | inside child collection ih =>
      rw [visit] at h
      split at h
      · cases h
      · next hchild =>
          have hvar' : Preserves _solver P child :=
            hvar.mono fun u hu => List.mem_cons_of_mem _ hu
          exact eq_of_withState h ▸ ih hvar' hst hchild
  | extendExpr child value ih =>
      rw [visit] at h
      split at h
      · cases h
      · next hchild =>
          have hvar' : Preserves _solver P child :=
            hvar.mono fun u hu => List.mem_cons_of_mem _ hu
          exact eq_of_withState h ▸ ih hvar' hst hchild
  | binaryOpr op lhs rhs ihl ihr =>
      have hvarl : Preserves _solver P lhs := hvar.mono fun u hu => by simp [Node.subterms, hu]
      have hvarr : Preserves _solver P rhs := hvar.mono fun u hu => by simp [Node.subterms, hu]
      rw [visit] at h
      split at h
      · cases h
      · next hlhs =>
          split at h
          · cases h
          · next hrhs => exact eq_of_withState h ▸ ihr hvarr (ihl hvarl hst hlhs) hrhs
  | vectorAccess lhs rhs ihl ihr => cases h
  | ifThenElse a b c iha ihb ihc =>
      have hvara : Preserves _solver P a := hvar.mono fun u hu => by simp [Node.subterms, hu]
      have hvarb : Preserves _solver P b := hvar.mono fun u hu => by simp [Node.subterms, hu]
      have hvarc : Preserves _solver P c := hvar.mono fun u hu => by simp [Node.subterms, hu]
      rw [visit] at h
      split at h
      · cases h
      · next ha =>
          split at h
          · cases h
          · next hb =>
              split at h
              · cases h
              · next hc =>
                  exact eq_of_withState h ▸ ihc hvarc (ihb hvarb (iha hvara hst ha) hb) hc
  | forEach lhs rhs ihl ihr => cases h
  | unique child ih => cases h
  | bitslice child r l ih =>
      rw [visit] at h
      split at h
      · cases h
      · next hchild =>
          have hvar' : Preserves _solver P child :=
            hvar.mono fun u hu => List.mem_cons_of_mem _ hu
          exact eq_of_withState h ▸ ih hvar' hst hchild

theorem laid_visit {n : Node} {x : Entry result_base} (hst : Laid _solver st)
    (h : visit _solver n st = .ok (x, st')) : Laid _solver st' :=
  visit_preserves (fun id bitsize sign _ _ hst => laid_visitVariableExpr hst id bitsize sign) hst h

theorem preserves_isSome (id : Nat) (n : Node) :
    Preserves _solver (fun st => (st.terminals_ id).isSome = true) n := by
  intro id' bitsize sign st _ hst
  rw [visitVariableExpr]
  cases hid : st.terminals_ id' with
  | some x => exact hst
  | none =>
      by_cases heq : id = id'
      · subst heq
        simp only [Function.update_self, Option.isSome_some]
      · simp only [Function.update_of_ne heq]
        exact hst

theorem isSome_visitVariableExpr (id bitsize : Nat) (sign : Bool) :
    ((visitVariableExpr _solver id bitsize sign st).2.terminals_ id).isSome = true := by
  rw [visitVariableExpr]
  cases hid : st.terminals_ id with
  | some x => simp only [hid, Option.isSome_some]
  | none => simp only [Function.update_self, Option.isSome_some]

theorem isSome_visit {n : Node} {id : Nat} (hid : id ∈ n.supportVars) {x : Entry result_base}
    (h : visit _solver n st = .ok (x, st')) : (st'.terminals_ id).isSome = true := by
  induction n generalizing st st' x with
  | placeholder id' => cases h
  | variableExpr id' bitsize sign =>
      have hstate : (visitVariableExpr _solver id' bitsize sign st).2 = st' :=
        congrArg Prod.snd (Except.ok.inj h)
      rw [Finset.mem_singleton.mp hid, ← hstate]
      exact isSome_visitVariableExpr id' bitsize sign
  | constant c => cases hid
  | vectorExpr id' bitsize sign => cases h
  | unaryOpr op child ih =>
      rw [visit] at h
      split at h
      · cases h
      · next hchild => exact eq_of_withState h ▸ ih hid hchild
  | inside child collection ih =>
      rw [visit] at h
      split at h
      · cases h
      · next hchild => exact eq_of_withState h ▸ ih hid hchild
  | extendExpr child value ih =>
      rw [visit] at h
      split at h
      · cases h
      · next hchild => exact eq_of_withState h ▸ ih hid hchild
  | binaryOpr op lhs rhs ihl ihr =>
      rw [visit] at h
      split at h
      · cases h
      · next hlhs =>
          split at h
          · cases h
          · next hrhs =>
              rw [eq_of_withState h]
              rcases Finset.mem_union.mp hid with hl | hr
              · exact visit_preserves (preserves_isSome id rhs) (ihl hl hlhs) hrhs
              · exact ihr hr hrhs
  | vectorAccess lhs rhs ihl ihr => cases h
  | ifThenElse a b c iha ihb ihc =>
      rw [visit] at h
      split at h
      · cases h
      · next ha =>
          split at h
          · cases h
          · next hb =>
              split at h
              · cases h
              · next hc =>
                  rw [eq_of_withState h]
                  rcases Finset.mem_union.mp hid with hab | hidc
                  · apply visit_preserves (preserves_isSome id c) _ hc
                    rcases Finset.mem_union.mp hab with hida | hidb
                    · exact visit_preserves (preserves_isSome id b) (iha hida ha) hb
                    · exact ihb hidb hb
                  · exact ihc hidc hc
  | forEach lhs rhs ihl ihr => cases h
  | unique child ih => cases h
  | bitslice child r l ih =>
      rw [visit] at h
      split at h
      · cases h
      · next hchild => exact eq_of_withState h ▸ ih hid hchild

/-- Nothing or one variable has been made. -/
def AtMost (_solver : PredicateSolver result_base) (id : Nat) (k : Kind)
    (st : VisitorState result_base) : Prop :=
  st = { size := 0, terminals_ := fun _ => none } ∨
    st = declare _solver id k { size := 0, terminals_ := fun _ => none }

theorem preserves_atMost {id : Nat} {d : VarDecl} {variables_ : Declarations}
    (hid : variables_ id = some d) {n : Node} (hn : n.DeclaredIn variables_)
    (hsupport : n.supportVars ⊆ {id}) :
    Preserves _solver (AtMost _solver id (variableKind d.bitsize d.sign)) n := by
  intro id' bitsize sign st hmem hst
  have hid' : id' = id := Finset.mem_singleton.mp
    (hsupport (Node.mem_supportVars hmem))
  have hdeclared : variables_ id' = some ⟨bitsize, sign⟩ := hn.of_mem_subterms hmem
  subst hid'
  rw [hid] at hdeclared
  cases hdeclared
  rcases hst with rfl | rfl
  · exact Or.inr rfl
  · right
    rw [visitVariableExpr, declare]
    simp only [Function.update_self]

/-!
## Values and bits
-/

theorem mk_eq_mk_iff {w : Nat} {x y : BitVec w} :
    SizedBits.mk w x = SizedBits.mk w y ↔ forall i, i < w -> x.getLsbD i = y.getLsbD i := by
  rw [SizedBits.mk.injEq, heq_eq_eq]
  constructor
  · rintro ⟨-, h⟩ i _
    rw [h]
  · intro h
    exact ⟨rfl, BitVec.eq_of_getLsbD_eq h⟩

/-- A variable has the value of a model exactly when its bits are the digits of it. -/
theorem eval_var_eq_read_iff (r : _solver.Reading) (m : Model SolverVar) (v : SolverVar)
    (first : Nat) (k : Kind) :
    (Term.var v k.width).eval m = some ((terminal _solver first k).read r) ↔
      forall i, i < k.width -> r.assignment (first + i) = (m v).testBit i := by
  have hdigit : forall i, i < k.width ->
      (BitVec.ofNat k.width (m v)).getLsbD i = (m v).testBit i := by
    intro i hi
    rw [BitVec.getLsbD_ofNat, decide_eq_true hi, Bool.true_and]
  cases k with
  | predicate =>
      rw [terminal, Result.read, r.sem_var_tag, Term.eval, Option.some.injEq]
      refine (mk_eq_mk_iff (w := 1)).trans (forall₂_congr fun i hi => ?_)
      have hzero : i = 0 := Nat.lt_one_iff.mp hi
      subst hzero
      rw [Nat.add_zero, ← hdigit 0 hi]
      cases r.assignment first <;> exact eq_comm
  | vector w =>
      have hlength : ((List.range w).map fun i => _solver.var_tag (first + i)).length = w := by
        rw [List.length_map, List.length_range]
      rw [terminal, BitBlast.bitvector, Result.read_bv r hlength, Term.eval, Option.some.injEq]
      refine (mk_eq_mk_iff (w := w)).trans (forall₂_congr fun i hi => ?_)
      rw [r.getLsbD_word_range (w := w) _ hi, r.sem_var_tag, ← hdigit i hi, eq_comm]
      rfl

theorem agrees_declare_iff {r : _solver.Reading} {m : Model SolverVar} {id : Nat}
    (hid : st.terminals_ id = none) (k : Kind) :
    Agrees _solver (declare _solver id k st) r m ↔
      Agrees _solver st r m ∧
        forall i, i < k.width ->
          r.assignment (st.size + i) = (m (.terminal id)).testBit i := by
  have hself := eval_var_eq_read_iff r m (.terminal id) st.size k
  constructor
  · intro h
    constructor
    · intro id' x hid'
      have hne : id' ≠ id := by
        intro heq
        rw [heq, hid] at hid'
        cases hid'
      apply h id' x
      simp only [declare, Function.update_of_ne hne]
      exact hid'
    · have heval := h id _ (Function.update_self id _ _)
      rw [kind_terminal] at heval
      exact hself.mp heval
  · rintro ⟨hbefore, hbits⟩ id' x hid'
    by_cases heq : id' = id
    · subst heq
      simp only [declare, Function.update_self, Option.some.injEq] at hid'
      subst hid'
      rw [kind_terminal]
      exact hself.mpr hbits
    · simp only [declare, Function.update_of_ne heq] at hid'
      exact hbefore id' x hid'

/-- The value of a variable in an assignment of the bits. -/
def modelOf (st : VisitorState result_base) (r : _solver.Reading) : Model SolverVar
  | .terminal id =>
      match st.terminals_ id with
      | none => 0
      | some x => (x.read r).bits.toNat
  | .selector _ => 0

theorem agrees_modelOf (st : VisitorState result_base) (r : _solver.Reading) :
    Agrees _solver st r (modelOf st r) := by
  intro id x hid
  have hread : modelOf st r (.terminal id) = (x.read r).bits.toNat := by rw [modelOf, hid]
  rw [Term.eval, hread, ← Result.width_read r x, BitVec.ofNat_toNat, BitVec.setWidth_eq]

theorem Laid.exists_assignment (h : Laid _solver st) (m : Model SolverVar) :
    exists ρ : Nat -> Bool, forall r : _solver.Reading,
      (forall k, k < st.size -> r.assignment k = ρ k) -> Agrees _solver st r m := by
  induction h with
  | empty => exact ⟨fun _ => false, fun r _ id x hid => nomatch hid⟩
  | @declare st _ id hid k ih =>
      rcases ih with ⟨ρ, hρ⟩
      refine ⟨fun i => if i < st.size then ρ i else (m (.terminal id)).testBit (i - st.size), ?_⟩
      intro r hr
      apply (agrees_declare_iff hid k).mpr
      constructor
      · apply hρ r
        intro i hi
        exact (hr i (Nat.lt_of_lt_of_le hi (Nat.le_add_right _ _))).trans (if_pos hi)
      · intro i hi
        have hbit := (hr (st.size + i) (Nat.add_lt_add_left hi _)).trans
          (if_neg (Nat.not_lt.mpr (Nat.le_add_right _ _)))
        rwa [Nat.add_sub_cancel_left] at hbit

theorem Laid.agrees_congr (h : Laid _solver st) {r r' : _solver.Reading} {m : Model SolverVar}
    (hr : forall k, k < st.size -> r.assignment k = r'.assignment k)
    (hagrees : Agrees _solver st r m) : Agrees _solver st r' m := by
  induction h with
  | empty => exact fun id x hid => nomatch hid
  | @declare st _ id hid k ih =>
      rcases (agrees_declare_iff hid k).mp hagrees with ⟨hbefore, hbits⟩
      apply (agrees_declare_iff hid k).mpr
      constructor
      · exact ih (fun i hi => hr i (Nat.lt_of_lt_of_le hi (Nat.le_add_right _ _))) hbefore
      · intro i hi
        rw [← hr (st.size + i) (Nat.add_lt_add_left hi _), hbits i hi]

end BitBlastVisitor
end MetaSmt
end Crave
