import Crave.Backend.AssignResult
import Crave.Backend.VariableDefaultSolver
import Crave.MetaSmt.CuddVisitor

/-!
# Proposals for one variable

The default solver of a partition makes a `CUDD_Distributed` for a variable that has
constraints of its own.  Each call takes a solution from it, reads the variable as a string
of digits and makes a value of the string, which is then proposed for the variable.
-/

namespace Crave
namespace MetaSmt

open Foundation Ir Backend BitBlastVisitor

/-- The alternatives of `result_wrapper` that the bit-blaster returns. -/
inductive result_wrapper where
  | tribool (t : Option Bool)
  | vector (vt : List (Option Bool))

namespace result_wrapper

def character : Option Bool -> Char
  | none => 'X'
  | some true => '1'
  | some false => '0'

def as_string : result_wrapper -> List Char
  | tribool val => [character val]
  | vector val => (val.map character).reverse

end result_wrapper

namespace CuddVisitor

variable {BDD : Type} (_manager : CuddManager BDD)

def read_value (_solution : List (Option Bool)) : Result BDD -> Except String result_wrapper
  | .base var =>
      match CUDD_Distributed.read_value _manager var _solution with
      | .error msg => .error msg
      | .ok t => .ok (.tribool t)
  | .bv vars =>
      match vars.mapM fun var => CUDD_Distributed.read_value _manager var _solution with
      | .error msg => .error msg
      | .ok ret => .ok (.vector ret)

/-- `read`: the string stays empty for a variable that was never met. -/
def read (visitor : VisitorState BDD) (_solution : List (Option Bool)) (id : Nat) :
    Except String (List Char) :=
  match visitor.terminals_ id with
  | none => .ok []
  | some var_expr =>
      match read_value _manager _solution var_expr with
      | .error msg => .error msg
      | .ok wrapper => .ok wrapper.as_string

/-- The value that is proposed for a variable of an integer type. -/
def proposal (visitor : VisitorState BDD) (id : Nat) (d : VarDecl) (random_bit : Nat -> Bool)
    (_solution : List (Option Bool)) : Except String (BitVec d.bitsize) :=
  match read _manager visitor _solution id with
  | .error msg => .error msg
  | .ok str => .ok (AssignResultToRef.set_value d.bitsize d.sign random_bit str)

/-- The constraints of one variable that are simple enough for a BDD. -/
def assertBounded (limit : Nat) (svc : List UserConstraint) (s : CuddVisitor BDD) :
    Except String (CuddVisitor BDD) :=
  match svc with
  | [] => .ok s
  | c :: rest =>
      if 0 < c.complexity_ ∧ c.complexity_ < limit then
        match makeAssertion _manager c.expr_ s with
        | .error msg => .error msg
        | .ok s => assertBounded limit rest s
      else
        assertBounded limit rest s

/-- The expressions of the constraints that are simple enough. -/
def bounded (limit : Nat) (svc : List UserConstraint) : List Node :=
  (svc.filter fun c => 0 < c.complexity_ ∧ c.complexity_ < limit).map UserConstraint.expr_

theorem assertBounded_eq (limit : Nat) (svc : List UserConstraint) (s : CuddVisitor BDD) :
    assertBounded _manager limit svc s = makeAssertions _manager (bounded limit svc) s := by
  induction svc generalizing s with
  | nil => rfl
  | cons c rest ih =>
      rw [assertBounded, bounded, List.filter_cons]
      by_cases hc : 0 < c.complexity_ ∧ c.complexity_ < limit
      · rw [if_pos hc, if_pos (decide_eq_true hc), List.map_cons, makeAssertions]
        cases makeAssertion _manager c.expr_ s with
        | error msg => rfl
        | ok s => exact ih s
      · rw [if_neg hc, if_neg (by simpa using hc)]
        exact ih s

/-!
## Bits and values
-/

section Values

variable {w : Nat}

/-- Bits, the lowest one first, and the value that they are the digits of. -/
def valueEquiv (w : Nat) : (Fin w -> Bool) ≃ BitVec w :=
  { toFun := fun l => Bits.word w (List.ofFn l)
    invFun := fun x i => x.getLsbD i
    left_inv := by
      intro l
      funext i
      show (Bits.word w (List.ofFn l)).getLsbD i = l i
      rw [Bits.getLsbD_word]
      simp
    right_inv := by
      intro x
      apply BitVec.eq_of_getLsbD_eq
      intro i hi
      show (Bits.word w (List.ofFn fun j : Fin w => x.getLsbD j)).getLsbD i = x.getLsbD i
      rw [Bits.getLsbD_word]
      simp [hi] }

instance : Fintype (BitVec w) :=
  Fintype.ofEquiv _ (valueEquiv w)

theorem getLsbD_valueEquiv (l : Fin w -> Bool) (i : Fin w) : (valueEquiv w l).getLsbD i = l i :=
  congrFun ((valueEquiv w).symm_apply_apply l) i

end Values

variable {_manager} {perm : Nat -> Nat}

theorem getNode_bddVar (h : _manager.Canonical perm) (k : Nat) :
    _manager.getNode (_manager.bddVar k) =
      { complement := false, regular := .node k .one true .one } := by
  rcases h.wellFormed (_manager.bddVar k) with ⟨size, hwf⟩
  have hnode : (Diagram.Edge.mk false (.node k .one true .one)).WellFormed perm
      (max size (max k (perm k) + 1)) := by
    have hle : max k (perm k) + 1 ≤ max size (max k (perm k) + 1) := le_max_right _ _
    constructor
    · refine ⟨?_, ?_, ?_, trivial, trivial⟩
      · exact Nat.lt_of_lt_of_le (Nat.lt_succ_of_le (le_max_left _ _)) hle
      · exact Nat.lt_of_lt_of_le (Nat.lt_succ_of_le (le_max_right _ _)) hle
      · exact Nat.lt_of_lt_of_le (Nat.lt_succ_of_le (le_max_right _ _)) hle
    · exact ⟨fun hsame => Bool.noConfusion hsame.1, trivial, trivial⟩
  apply Diagram.Edge.eq_of_eval_eq h.injective (hwf.mono (le_max_left _ _)) hnode
  intro ρ
  rw [h.denotes.bddVar]
  cases hk : ρ k <;> simp [Diagram.Edge.eval, Diagram.eval, hk]

theorem read_value_bddVar (h : _manager.Canonical perm) {_solution : List (Option Bool)} {k : Nat}
    (hk : k < _solution.length) :
    CUDD_Distributed.read_value _manager (_manager.bddVar k) _solution =
      .ok (CUDD_Distributed.valueOf _solution k) := by
  rw [CUDD_Distributed.read_value, CUDD_Distributed.NodeReadIndex, getNode_bddVar h]
  simp [hk, CUDD_Distributed.valueOf]

theorem mapM_eq_ok {α β : Type} {f : α -> Except String β} {g : α -> β} {l : List α}
    (hf : forall a, a ∈ l -> f a = .ok (g a)) : l.mapM f = .ok (l.map g) := by
  induction l with
  | nil => rfl
  | cons a rest ih =>
      rw [List.mapM_cons, hf a List.mem_cons_self, ih fun b hb => hf b (List.mem_cons_of_mem a hb)]
      rfl

/-- The solver has met the variable, of some width, and no other one. -/
def single (_manager : CuddManager BDD) (id w : Nat) : VisitorState BDD :=
  declare (CUDD_Context _manager.toCudd) id (.vector w) { size := 0, terminals_ := fun _ => none }

theorem read_single (h : _manager.Canonical perm) {_solution : List (Option Bool)} {w : Nat}
    (hlength : _solution.length = w) (id : Nat) :
    read _manager (single _manager id w) _solution id =
      .ok (_solution.map result_wrapper.character).reverse := by
  have hterminal : (single _manager id w).terminals_ id =
      some (.bv ((List.range w).map fun i => _manager.bddVar (0 + i))) :=
    Function.update_self _ _ _
  have hvalues : (List.range w).map (CUDD_Distributed.valueOf _solution) = _solution := by
    apply List.ext_getElem
    · rw [List.length_map, List.length_range, hlength]
    · intro i _ hi
      rw [List.getElem_map, List.getElem_range, CUDD_Distributed.valueOf,
        List.getD_eq_getElem _ _ hi]
  have hread : ((List.range w).map fun i => _manager.bddVar (0 + i)).mapM
      (fun var => CUDD_Distributed.read_value _manager var _solution) = .ok _solution := by
    rw [List.mapM_map, mapM_eq_ok (g := CUDD_Distributed.valueOf _solution), hvalues]
    intro i hi
    rw [Function.comp_apply, Nat.zero_add]
    exact read_value_bddVar h (hlength.symm ▸ List.mem_range.mp hi)
  rw [read, hterminal]
  simp only [read_value, hread, result_wrapper.as_string]

theorem digitOf_character (t : Option Bool) (random_bit : Bool) :
    AssignResultToRef.digitOf (result_wrapper.character t) random_bit = t.getD random_bit := by
  cases t with
  | none => rfl
  | some b => cases b <;> rfl

theorem proposal_single (h : _manager.Canonical perm) {_solution : List (Option Bool)}
    {d : VarDecl} (hlength : _solution.length = d.bitsize) (id : Nat) (random_bit : Nat -> Bool) :
    proposal _manager (single _manager id d.bitsize) id d random_bit _solution =
      .ok (valueEquiv d.bitsize
        (fill (CUDD_Distributed.valueOf _solution) fun i => random_bit (Fin.rev i))) := by
  rw [proposal, read_single h hlength]
  refine congrArg Except.ok (BitVec.eq_of_getLsbD_eq fun i hi => ?_)
  have hstr : (_solution.map result_wrapper.character).reverse.length = d.bitsize := by
    rw [List.length_reverse, List.length_map, hlength]
  have hrev : d.bitsize - 1 - i = d.bitsize - (i + 1) := by omega
  rw [AssignResultToRef.getLsbD_set_value hstr d.sign random_bit hi,
    getLsbD_valueEquiv _ ⟨i, hi⟩, fill, Fin.val_rev, ← hrev]
  have hchar : (_solution.map result_wrapper.character).reverse.get
      ⟨d.bitsize - 1 - i, by omega⟩ =
        result_wrapper.character (CUDD_Distributed.valueOf _solution i) := by
    rw [List.get_eq_getElem, List.getElem_reverse, List.getElem_map, CUDD_Distributed.valueOf,
      List.getD_eq_getElem _ _ (hlength.symm ▸ hi)]
    simp only [List.length_map, hlength]
    congr 2
    omega
  rw [hchar, digitOf_character]

/-- The proposal for a solution, with a fair coin for every digit that is left open. -/
noncomputable def proposals (_manager : CuddManager BDD) (visitor : VisitorState BDD) (id : Nat)
    (d : VarDecl) (_solution : List (Option Bool)) : PMF (Option (BitVec d.bitsize)) :=
  (fun coins => (proposal _manager visitor id d (Diagram.extend coins) _solution).toOption) <$>
    PMF.uniformOfFintype (Fin d.bitsize -> Bool)

theorem reads_proposals (h : _manager.Canonical perm) (id : Nat) (d : VarDecl) :
    CUDD_Distributed.Reads (proposals _manager (single _manager id d.bitsize) id d)
      (valueEquiv d.bitsize) := by
  intro _solution hlength
  rw [proposals, ← map_fill_permute _ Fin.revPerm]
  show PMF.map _ _ = PMF.map _ (PMF.map _ _)
  rw [PMF.map_comp]
  congr 1
  funext coins
  rw [proposal_single h hlength]
  have hcoins : (fun i : Fin d.bitsize => Diagram.extend coins (Fin.rev i)) =
      fun i => coins (Fin.revPerm i) := by
    funext i
    exact dif_pos (Fin.rev i).isLt
  rw [hcoins]
  rfl

/-!
## Proposals
-/

theorem visitor_eq_single {variables_ : Declarations} {id : Nat} {d : VarDecl}
    (hid : variables_ id = some d) (hvector : ¬ (d.bitsize = 1 ∧ d.sign = true)) {ns : List Node}
    (hns : forall n, n ∈ ns -> n.DeclaredIn variables_ ∧ n.supportVars = {id}) (hne : ns ≠ [])
    {s : CuddVisitor BDD} (hmake : makeAssertions _manager ns (new _manager) = .ok s) :
    s.visitor = single _manager id d.bitsize := by
  have hkind : variableKind d.bitsize d.sign = .vector d.bitsize := by
    rw [variableKind, if_neg]
    rw [Bool.and_eq_true, beq_iff_eq]
    exact hvector
  have hatMost : AtMost (CUDD_Context _manager.toCudd) id (variableKind d.bitsize d.sign)
      s.visitor := by
    refine makeAssertions_preserves (fun n hn => ?_) (Or.inl rfl) hmake
    exact preserves_atMost hid (hns n hn).1 (hns n hn).2.subset
  rcases hatMost with hempty | hsingle
  · exfalso
    cases ns with
    | nil => exact hne rfl
    | cons n rest =>
        rw [makeAssertions] at hmake
        split at hmake
        · cases hmake
        · next s₁ hfirst =>
            rcases makeAssertion_visit hfirst with ⟨x, hvisit⟩
            have hmem : id ∈ n.supportVars := by
              rw [(hns n List.mem_cons_self).2]
              exact Finset.mem_singleton_self id
            have hsome := makeAssertions_preserves (fun n' _ => preserves_isSome id n')
              (isSome_visit hmem hvisit) hmake
            rw [hempty] at hsome
            cases hsome
  · rw [hsingle, hkind]
    rfl

/-- The assignments of the bits of the variable are the values of it. -/
theorem mem_solutions_single (h : _manager.Canonical perm) {variables_ : Declarations}
    {ns : List Node} {s : CuddVisitor BDD} (hs : Asserted h variables_ ns s)
    (hdiv : forall n, n ∈ ns -> forall m, DivisionsAgree m (formula n)) {id w : Nat}
    (hsingle : s.visitor = single _manager id w) (l : Fin w -> Bool) :
    (forall n, n ∈ ns -> NodeHolds (fun _ => (valueEquiv w l).toNat) n) ↔
      (_manager.getNode s.solver_._assertions).eval (Diagram.extend l) = true := by
  have hagrees : Agrees _ s.visitor (h.denotes.reading (Diagram.extend l))
      fun _ => (valueEquiv w l).toNat := by
    rw [hsingle, single]
    refine (agrees_declare_iff rfl (.vector w)).mpr ⟨(fun _ _ hid => nomatch hid), ?_⟩
    intro i hi
    show Diagram.extend l (0 + i) = (valueEquiv w l).getLsbD i
    rw [Nat.zero_add, getLsbD_valueEquiv l ⟨i, hi⟩]
    exact dif_pos hi
  exact (hs.eval _ _ hagrees fun n hn => hdiv n hn _).symm

/-- Without a constraint the variable is never met, and its string is empty. -/
theorem step_proposals_new (h : _manager.Canonical perm) (id : Nat) (d : VarDecl)
    {st : CUDD_Distributed BDD}
    (hst : st._assertions = _manager.bddOne ∧ st._assumptions = _manager.bddOne) :
    exists st', (st'._assertions = _manager.bddOne ∧ st'._assumptions = _manager.bddOne) ∧
      (CUDD_Distributed.machine _manager perm 0
          (proposals _manager (new _manager).visitor id d)).step .solve st =
        pure (.solved 0, st') := by
  have htrue : forall ρ, (_manager.getNode (st.complete _manager)).eval ρ = true := by
    intro ρ
    rw [CUDD_Distributed.complete, hst.1, hst.2, h.denotes.and, h.denotes.bddOne]
    rfl
  have hone : _manager.getNode (st.complete _manager) = Diagram.Edge.one := by
    rcases h.wellFormed (st.complete _manager) with ⟨size, hwf⟩
    exact Diagram.Edge.eq_of_eval_eq h.injective hwf ⟨trivial, trivial⟩ htrue
  have hne : Diagram.Edge.mk false .one ≠ _manager.getNode _manager.bddZero := by
    intro heq
    have heval := htrue fun _ => false
    rw [hone, Diagram.Edge.one, heq, h.denotes.bddZero] at heval
    cases heval
  have hreader : proposals _manager (new _manager).visitor id d [] = pure (some 0) := by
    have hvalue : forall coins : Fin d.bitsize -> Bool,
        (proposal _manager (new _manager).visitor id d (Diagram.extend coins) []).toOption =
          some 0 := by
      intro coins
      show some (BitVec.ofInt d.bitsize (if d.sign = true ∧ none = some '1' then -1 else 0)) = _
      rw [if_neg fun hsign => nomatch hsign.2]
      rfl
    rw [proposals, funext hvalue]
    exact PMF.map_const _ _
  refine ⟨{ st.refreshed _manager with
    _solution := [], maps := (st.refreshed _manager).maps }, ⟨?_, ?_⟩, ?_⟩
  · exact CUDD_Distributed.assertions_refreshed.trans hst.1
  · exact CUDD_Distributed.assumptions_refreshed
  · simp only [CUDD_Distributed.machine, CUDD_Distributed.solve, hne, if_false, hone,
      CUDD_Distributed.store_solution, Diagram.Edge.one, CUDD_Distributed.walk, pure_bind,
      List.replicate_zero, hreader]

theorem run_proposals_new (h : _manager.Canonical perm) (id : Nat) (d : VarDecl) (calls : Nat)
    {st : CUDD_Distributed BDD}
    (hst : st._assertions = _manager.bddOne ∧ st._assumptions = _manager.bddOne) :
    (CUDD_Distributed.machine _manager perm 0
        (proposals _manager (new _manager).visitor id d)).run (List.replicate calls .solve) st =
      pure (List.replicate calls (.solved 0)) := by
  induction calls generalizing st with
  | zero => rfl
  | succ calls ih =>
      rcases step_proposals_new h id d hst with ⟨st', hst', hstep⟩
      rw [List.replicate_succ, Machine.run, hstep, pure_bind]
      simp only [ih hst', pure_bind]
      rfl

/-- The values that are proposed for a variable of at most 32 bits, call after call, are
independent, and each is uniform among the values that satisfy the constraints of the
variable that are simple enough.  When none is, all proposals are zero. -/
theorem proposals_uniform (h : _manager.Canonical perm) {variables_ : Declarations}
    (hpos : forall id d, variables_ id = some d -> 0 < d.bitsize) {id : Nat} {d : VarDecl}
    (hid : variables_ id = some d) (hvector : ¬ (d.bitsize = 1 ∧ d.sign = true))
    (hsize : d.bitsize ≤ 32) (hlow : forall i, i < d.bitsize -> perm i < d.bitsize) {limit : Nat}
    {svc : List UserConstraint}
    (hsvc : forall n, n ∈ bounded limit svc ->
      n.DeclaredIn variables_ ∧ PositiveConstants n ∧ n.supportVars = {id})
    (hdiv : forall n, n ∈ bounded limit svc -> forall m, DivisionsAgree m (formula n))
    {s : CuddVisitor BDD} (hmake : assertBounded _manager limit svc (new _manager) = .ok s)
    (calls : Nat) :
    (CUDD_Distributed.machine _manager perm s.visitor.size
        (proposals _manager s.visitor id d)).run (List.replicate calls .solve) s.solver_ =
      if bounded limit svc = [] then pure (List.replicate calls (.solved 0))
      else UniformSolver.machine.run (List.replicate calls .solve)
        { assertions := Finset.univ.filter fun x : BitVec d.bitsize =>
            forall n, n ∈ bounded limit svc -> NodeHolds (fun _ => x.toNat) n
          assumptions := Finset.univ } := by
  rw [assertBounded_eq] at hmake
  split
  · next hempty =>
      rw [hempty] at hmake
      cases hmake
      exact run_proposals_new h id d calls ⟨rfl, rfl⟩
  · next hne =>
      have hsingle := visitor_eq_single hid hvector
        (fun n hn => ⟨(hsvc n hn).1, (hsvc n hn).2.2⟩) hne hmake
      have hasserted := asserted_of_makeAssertions h hpos
        (fun n hn => ⟨(hsvc n hn).1, (hsvc n hn).2.1⟩) hmake
      have hwidth : s.visitor.size = d.bitsize := by
        rw [hsingle]
        exact Nat.zero_add _
      have hover := hasserted.over hdiv
      rw [hwidth] at hover
      rw [hwidth, hsingle]
      apply (CUDD_Distributed.simulates_machine h hlow hsize (reads_proposals h id d)).run_eq
        (CUDD_Distributed.stands_replicate_solve calls)
      apply hasserted.represents hover
      intro l
      rw [Finset.mem_filter, ← mem_solutions_single h hasserted hdiv hsingle l]
      exact and_iff_right (Finset.mem_univ _)

/-- The constraint that the variable 1, of two bits, is less than three. -/
def smallConstraint : UserConstraint :=
  { id_ := 0
    expr_ := lessThanThree
    name_ := "small"
    support_vars_ := lessThanThree.supportVars
    unique_ := none
    soft_ := false
    cover_ := false
    enabled_ := true
    complexity_ := (ComplexityEstimationVisitor.visit lessThanThree).toOption.getD 0 }

theorem proposals_uniform_three :
    exists s, assertBounded CuddManager.ofFunctions 400 [smallConstraint]
        (new CuddManager.ofFunctions) = .ok s ∧
      (CUDD_Distributed.machine CuddManager.ofFunctions id s.visitor.size
          (proposals CuddManager.ofFunctions s.visitor 1 ⟨2, false⟩)).run
            (List.replicate 3 .solve) s.solver_ =
        if bounded 400 [smallConstraint] = [] then pure (List.replicate 3 (.solved 0))
        else UniformSolver.machine.run (List.replicate 3 .solve)
          { assertions := Finset.univ.filter fun x : BitVec 2 =>
              forall n, n ∈ bounded 400 [smallConstraint] -> NodeHolds (fun _ => x.toNat) n
            assumptions := Finset.univ } := by
  have hmake : exists s, assertBounded CuddManager.ofFunctions 400 [smallConstraint]
      (new CuddManager.ofFunctions) = .ok s := ⟨_, rfl⟩
  have hpos : forall (id : Nat) (d : VarDecl), some (VarDecl.mk 2 false) = some d ->
      0 < d.bitsize := by
    intro id d hd
    cases hd
    exact Nat.succ_pos 1
  have hbounded : bounded 400 [smallConstraint] = [lessThanThree] := rfl
  rcases hmake with ⟨s, hmake⟩
  refine ⟨s, hmake, ?_⟩
  refine @proposals_uniform _ _ id CuddManager.canonical_ofFunctions (fun _ => some ⟨2, false⟩)
    hpos 1 ⟨2, false⟩ rfl (by decide) (by decide) (fun i hi => hi) 400 [smallConstraint] ?_ ?_
    s hmake 3
  · intro n hn
    rw [hbounded] at hn
    rw [List.mem_singleton.mp hn]
    exact ⟨⟨rfl, trivial⟩, ⟨trivial, Nat.succ_pos 1⟩, rfl⟩
  · intro n hn m
    rw [hbounded] at hn
    rw [List.mem_singleton.mp hn]
    exact ⟨trivial, trivial, fun _ _ _ _ _ => trivial⟩

end CuddVisitor
end MetaSmt
end Crave
