import Crave.Backend.SolverState
import Crave.MetaSmt.BitBlastTerminals
import Crave.MetaSmt.CuddRuns

/-!
# The solver for expressions

`metaSMTVisitorImpl` on the bit-blaster and the solver with random solutions.  The
assertions of expressions become one diagram, and its solutions are the bits of the models
of the expressions.
-/

namespace Crave
namespace MetaSmt

open Foundation Ir Backend BitBlastVisitor

/-- `solver_`, with the variables that were made in it. -/
structure CuddVisitor (BDD : Type) where
  solver_ : CUDD_Distributed BDD
  visitor : VisitorState BDD

namespace CuddVisitor

variable {BDD : Type} (_manager : CuddManager BDD)

def new : CuddVisitor BDD :=
  { solver_ := CUDD_Distributed.new _manager
    visitor := { size := 0, terminals_ := fun _ => none } }

def makeAssertion (expr : Node) (s : CuddVisitor BDD) : Except String (CuddVisitor BDD) :=
  let _solver := CUDD_Context _manager.toCudd
  match visit _solver expr s.visitor with
  | .error msg => .error msg
  | .ok (entry, visitor) =>
      match BitBlast.equal _solver entry.1 (.base _solver.true_tag) with
      | .error msg => .error msg
      | .ok (.bv _) => .error "boost::bad_get"
      | .ok (.base e) =>
          .ok { solver_ := s.solver_.assertion _manager e, visitor := visitor }

def makeAssertions : List Node -> CuddVisitor BDD -> Except String (CuddVisitor BDD)
  | [], s => .ok s
  | expr :: exprs, s =>
      match makeAssertion _manager expr s with
      | .error msg => .error msg
      | .ok s => makeAssertions exprs s

variable {_manager} {perm : Nat -> Nat} {variables_ : Declarations}

/-- The diagram of the assertions is that of the expressions, and nothing else has been
done with the solver. -/
structure Asserted (h : _manager.Canonical perm) (variables_ : Declarations) (ns : List Node)
    (s : CuddVisitor BDD) : Prop where
  laid : Laid (CUDD_Context _manager.toCudd) s.visitor
  within : Within variables_ s.visitor
  fresh : exists e, s.solver_ = { CUDD_Distributed.new _manager with _assertions := e }
  eval : forall ρ m, Agrees _ s.visitor (h.denotes.reading ρ) m ->
    (forall n, n ∈ ns -> DivisionsAgree m (formula n)) ->
      ((_manager.getNode s.solver_._assertions).eval ρ = true ↔ forall n, n ∈ ns -> NodeHolds m n)

theorem asserted_new (h : _manager.Canonical perm) : Asserted h variables_ [] (new _manager) :=
  { laid := Laid.empty
    within := fun _ _ hid => nomatch hid
    fresh := ⟨_, rfl⟩
    eval := fun ρ _ _ _ => by
      rw [new, CUDD_Distributed.new, h.denotes.bddOne]
      exact iff_of_true rfl fun _ hn => nomatch hn }

/-- A predicate stands for an expression when it is true where the expression holds. -/
theorem nodeHolds_iff_sem {_solver : PredicateSolver BDD} {st : VisitorState BDD} {n : Node}
    {y : Backend.Entry} {p : BDD} (htranslate : MetaSMTVisitor.translate n = .ok y)
    (hp : Simulates _solver st (.base p) y.1) {r : _solver.Reading} {m : Model SolverVar}
    (hr : Agrees _solver st r m) (hdiv : DivisionsAgree m (formula n)) :
    NodeHolds m n ↔ r.sem p = true := by
  have hformula : formula n = y.1 := by rw [formula, htranslate]
  rw [hformula] at hdiv
  rw [NodeHolds, htranslate]
  show Term.Holds m y.1 ↔ _
  rw [Term.Holds, hp r m hr hdiv, Result.read, Option.some.injEq]
  exact ⟨SizedBits.ofBool_injective, fun h => by rw [h]⟩

/-- An expression that is a predicate is asserted, every other one is not accepted. -/
theorem makeAssertion_spec (h : _manager.Canonical perm)
    (hpos : forall id d, variables_ id = some d -> 0 < d.bitsize) {ns : List Node} {n : Node}
    (hn : n.DeclaredIn variables_) (hconst : PositiveConstants n) {s : CuddVisitor BDD}
    (hs : Asserted h variables_ ns s) :
    ((forall sign, sort n ≠ some (.predicate, sign)) ->
      exists msg, makeAssertion _manager n s = .error msg) ∧
    forall sign, sort n = some (.predicate, sign) ->
      exists s', makeAssertion _manager n s = .ok s' ∧ Asserted h variables_ (ns ++ [n]) s' := by
  have hvisited : AcceptsNode (CUDD_Context _manager.toCudd) variables_ s.visitor _ _ _ :=
    accepts_visit hpos hn hconst hs.within
  rcases hvisited.cases with
    ⟨hsort, msg, herror⟩ | ⟨⟨x, sign⟩, y, st', hvisit, hsort, htranslate, hst', hext, hmatches⟩
  · constructor
    · intro _
      exact ⟨msg, by rw [makeAssertion, herror]⟩
    · intro sign hpredicate
      rw [hsort] at hpredicate
      cases hpredicate
  · cases x with
    | bv bits =>
        constructor
        · intro _
          exact ⟨_, by rw [makeAssertion, hvisit]; rfl⟩
        · intro sign' hpredicate
          rw [hsort] at hpredicate
          cases hpredicate
    | base p =>
        constructor
        · intro hnone
          exact absurd hsort (hnone sign)
        · intro sign' _
          refine ⟨_, by rw [makeAssertion, hvisit]; rfl, ?_⟩
          constructor
          · exact laid_visit hs.laid hvisit
          · exact hst'
          · rcases hs.fresh with ⟨e, he⟩
            exact ⟨_, by rw [he]; rfl⟩
          · intro ρ m hagrees hdiv
            have hbefore := hs.eval ρ m (hagrees.mono hext) fun n' hn' =>
              hdiv n' (List.mem_append_left _ hn')
            have hnew := nodeHolds_iff_sem htranslate hmatches.simulates hagrees
              (hdiv n (List.mem_append_right _ (List.mem_singleton.mpr rfl)))
            have hequal : (_manager.getNode ((CUDD_Context _manager.toCudd).equal_tag p
                (CUDD_Context _manager.toCudd).true_tag)).eval ρ =
                  ((_manager.getNode p).eval ρ == true) := by
              have hone : (_manager.getNode (CUDD_Context _manager.toCudd).true_tag).eval ρ = true :=
                h.denotes.bddOne ρ
              rw [← hone]
              exact (h.denotes.reading ρ).sem_equal_tag p _
            show (_manager.getNode (_manager.and s.solver_._assertions _)).eval ρ = true ↔ _
            rw [h.denotes.and, Bool.and_eq_true, hbefore, hequal, beq_true]
            simp only [List.mem_append, List.mem_singleton, or_imp, forall_and, forall_eq, hnew]
            exact Iff.rfl

theorem makeAssertions_spec (h : _manager.Canonical perm)
    (hpos : forall id d, variables_ id = some d -> 0 < d.bitsize) {ns rest : List Node}
    (hrest : forall n, n ∈ rest -> n.DeclaredIn variables_ ∧ PositiveConstants n)
    {s : CuddVisitor BDD} (hs : Asserted h variables_ ns s) :
    (forall n, n ∈ rest -> exists sign, sort n = some (.predicate, sign)) ∧
        (exists s', makeAssertions _manager rest s = .ok s' ∧
          Asserted h variables_ (ns ++ rest) s') ∨
      (exists n, n ∈ rest ∧ forall sign, sort n ≠ some (.predicate, sign)) ∧
        exists msg, makeAssertions _manager rest s = .error msg := by
  induction rest generalizing ns s with
  | nil =>
      left
      refine ⟨(fun _ hn => nomatch hn), s, rfl, ?_⟩
      rwa [List.append_nil]
  | cons n rest ih =>
      rcases hrest n List.mem_cons_self with ⟨hn, hconst⟩
      rcases makeAssertion_spec h hpos hn hconst hs with ⟨hreject, haccept⟩
      by_cases hsort : exists sign, sort n = some (.predicate, sign)
      · rcases hsort with ⟨sign, hsort⟩
        rcases haccept sign hsort with ⟨s₁, hmake, hs₁⟩
        have hstep : makeAssertions _manager (n :: rest) s =
            makeAssertions _manager rest s₁ := by rw [makeAssertions, hmake]
        rw [hstep, List.append_cons]
        rcases ih (fun n' hn' => hrest n' (List.mem_cons_of_mem n hn')) hs₁ with
          ⟨hall, hok⟩ | ⟨⟨n', hn', hnone⟩, herror⟩
        · left
          exact ⟨List.forall_mem_cons.mpr ⟨⟨sign, hsort⟩, hall⟩, hok⟩
        · right
          exact ⟨⟨n', List.mem_cons_of_mem n hn', hnone⟩, herror⟩
      · right
        have hnone := not_exists.mp hsort
        rcases hreject hnone with ⟨msg, hmake⟩
        exact ⟨⟨n, List.mem_cons_self, hnone⟩, msg, by rw [makeAssertions, hmake]⟩

theorem makeAssertion_visit {n : Node} {s s' : CuddVisitor BDD}
    (h : makeAssertion _manager n s = .ok s') :
    exists x, visit (CUDD_Context _manager.toCudd) n s.visitor = .ok (x, s'.visitor) := by
  rw [makeAssertion] at h
  split at h
  · cases h
  · next x visitor hvisit =>
      split at h
      · cases h
      · cases h
      · cases h
        exact ⟨x, hvisit⟩

/-- What the variables of the expressions preserve holds of the visitor. -/
theorem makeAssertions_preserves {P : VisitorState BDD -> Prop} {ns : List Node}
    (hvar : forall n, n ∈ ns -> Preserves (CUDD_Context _manager.toCudd) P n)
    {s s' : CuddVisitor BDD} (hs : P s.visitor) (h : makeAssertions _manager ns s = .ok s') :
    P s'.visitor := by
  induction ns generalizing s with
  | nil =>
      cases h
      exact hs
  | cons n rest ih =>
      rw [makeAssertions] at h
      split at h
      · cases h
      · next hmake =>
          rcases makeAssertion_visit hmake with ⟨x, hvisit⟩
          exact ih (fun n' hn' => hvar n' (List.mem_cons_of_mem n hn'))
            (visit_preserves (hvar n List.mem_cons_self) hs hvisit) h

theorem asserted_of_makeAssertions (h : _manager.Canonical perm)
    (hpos : forall id d, variables_ id = some d -> 0 < d.bitsize) {ns : List Node}
    (hns : forall n, n ∈ ns -> n.DeclaredIn variables_ ∧ PositiveConstants n)
    {s : CuddVisitor BDD} (hmake : makeAssertions _manager ns (new _manager) = .ok s) :
    Asserted h variables_ ns s := by
  rcases makeAssertions_spec h hpos hns (asserted_new h) with
    ⟨-, s', hmake', hs'⟩ | ⟨-, msg, herror⟩
  · rw [hmake] at hmake'
    cases hmake'
    exact hs'
  · rw [hmake] at herror
    cases herror

/-!
## Solutions
-/

section Solutions

variable {h : _manager.Canonical perm} {ns : List Node} {s : CuddVisitor BDD}

/-- The values that an assignment of the bits gives the variables. -/
def modelAt (h : _manager.Canonical perm) (s : CuddVisitor BDD) (ρ : Nat -> Bool) :
    Model SolverVar :=
  modelOf s.visitor (h.denotes.reading ρ)

theorem Asserted.eval_modelAt (hs : Asserted h variables_ ns s)
    (hdiv : forall n, n ∈ ns -> forall m, DivisionsAgree m (formula n)) (ρ : Nat -> Bool) :
    (_manager.getNode s.solver_._assertions).eval ρ = true ↔
      forall n, n ∈ ns -> NodeHolds (modelAt h s ρ) n :=
  hs.eval ρ _ (agrees_modelOf _ _) fun n hn => hdiv n hn _

theorem Asserted.over (hs : Asserted h variables_ ns s)
    (hdiv : forall n, n ∈ ns -> forall m, DivisionsAgree m (formula n)) :
    _manager.Over s.visitor.size s.solver_._assertions := by
  intro ρ ρ' hρ
  have hagrees := agrees_modelOf s.visitor (h.denotes.reading ρ)
  have hagrees' : Agrees _ s.visitor (h.denotes.reading ρ') (modelAt h s ρ) :=
    hs.laid.agrees_congr hρ hagrees
  have hiff := (hs.eval ρ _ hagrees fun n hn => hdiv n hn _).trans
    (hs.eval ρ' _ hagrees' fun n hn => hdiv n hn _).symm
  exact Bool.eq_iff_iff.mpr hiff

/-- Every model of the expressions is an assignment of the bits. -/
theorem Asserted.exists_modelAt (hs : Asserted h variables_ ns s)
    (hdiv : forall n, n ∈ ns -> forall m, DivisionsAgree m (formula n)) {m : Model SolverVar}
    (hm : forall n, n ∈ ns -> NodeHolds m n) :
    exists ρ, (forall n, n ∈ ns -> NodeHolds (modelAt h s ρ) n) ∧
      Agrees _ s.visitor (h.denotes.reading ρ) m := by
  rcases hs.laid.exists_assignment m with ⟨ρ, hρ⟩
  have hagrees : Agrees _ s.visitor (h.denotes.reading ρ) m := hρ _ fun k _ => rfl
  refine ⟨ρ, ?_, hagrees⟩
  rw [← hs.eval_modelAt hdiv]
  exact (hs.eval ρ m hagrees fun n hn => hdiv n hn m).mpr hm

theorem Asserted.represents {size : Nat} {Solution : Type} [Fintype Solution]
    {decode : (Fin size -> Bool) ≃ Solution} (hs : Asserted h variables_ ns s)
    (hover : _manager.Over size s.solver_._assertions) {solutions : Finset Solution}
    (hsolutions : forall l, decode l ∈ solutions ↔
      (_manager.getNode s.solver_._assertions).eval (Diagram.extend l) = true) :
    CUDD_Distributed.Represents _manager perm decode s.solver_
      { assertions := solutions, assumptions := Finset.univ } := by
  rcases hs.fresh with ⟨e, he⟩
  have hset : solutions = CUDD_Distributed.solutions _manager decode s.solver_._assertions := by
    ext x
    rw [← decode.apply_symm_apply x, hsolutions, CUDD_Distributed.solutions,
      Finset.mem_map_equiv, decode.symm_apply_apply, Diagram.Edge.models, Finset.mem_filter]
    exact (and_iff_right (Finset.mem_univ _)).symm
  rw [hset]
  rw [he] at hover ⊢
  exact
    { over_assertions := hover
      over_assumptions := CUDD_Distributed.over_bddOne h
      right := CUDD_Distributed.right_reset perm size
      assertions := rfl
      assumptions := (CUDD_Distributed.solutions_bddOne h).symm }

end Solutions

/-- The solutions of the asserted expressions that the solver gives, call after call, are
independent, and each is uniform among the assignments of the bits that make the expressions
true.  Every model of the expressions is one of them. -/
theorem solve_uniform (h : _manager.Canonical perm)
    (hpos : forall id d, variables_ id = some d -> 0 < d.bitsize) {ns : List Node}
    (hns : forall n, n ∈ ns -> n.DeclaredIn variables_ ∧ PositiveConstants n)
    (hdiv : forall n, n ∈ ns -> forall m, DivisionsAgree m (formula n)) {s : CuddVisitor BDD}
    (hmake : makeAssertions _manager ns (new _manager) = .ok s)
    (hlow : forall i, i < s.visitor.size -> perm i < s.visitor.size)
    (hsize : s.visitor.size ≤ 32) :
    (forall calls : Nat,
      (CUDD_Distributed.machine _manager perm s.visitor.size
          (CUDD_Distributed.coins s.visitor.size)).run (List.replicate calls .solve) s.solver_ =
        UniformSolver.machine.run (List.replicate calls .solve)
          { assertions := Finset.univ.filter fun l : Fin s.visitor.size -> Bool =>
              forall n, n ∈ ns -> NodeHolds (modelAt h s (Diagram.extend l)) n
            assumptions := Finset.univ }) ∧
    forall m, (forall n, n ∈ ns -> NodeHolds m n) ->
      exists l : Fin s.visitor.size -> Bool,
        (forall n, n ∈ ns -> NodeHolds (modelAt h s (Diagram.extend l)) n) ∧
          Agrees _ s.visitor (h.denotes.reading (Diagram.extend l)) m := by
  have hasserted := asserted_of_makeAssertions h hpos hns hmake
  constructor
  · intro calls
    apply (CUDD_Distributed.simulates_machine h hlow hsize (CUDD_Distributed.reads_coins _)).run_eq
      (CUDD_Distributed.stands_replicate_solve calls)
    apply hasserted.represents (hasserted.over hdiv)
    intro l
    rw [hasserted.eval_modelAt hdiv, Finset.mem_filter]
    exact and_iff_right (Finset.mem_univ _)
  · intro m hm
    rcases hasserted.exists_modelAt hdiv hm with ⟨ρ, -, hagrees⟩
    have hext : forall k, k < s.visitor.size ->
        ρ k = Diagram.extend (fun i : Fin s.visitor.size => ρ i) k := by
      intro k hk
      rw [Diagram.extend, dif_pos hk]
    have hagrees' : Agrees _ s.visitor (h.denotes.reading (Diagram.extend fun i => ρ i)) m :=
      hasserted.laid.agrees_congr hext hagrees
    refine ⟨fun i => ρ i, ?_, hagrees'⟩
    rw [← hasserted.eval_modelAt hdiv]
    exact (hasserted.eval _ m hagrees' fun n hn => hdiv n hn m).mpr hm

/-- The variable 1, of two bits, is less than three. -/
def lessThanThree : Node :=
  .binaryOpr .lessOpr (.variableExpr 1 2 false)
    (.constant { value := 3, bitsize := 2, sign := false })

theorem solve_uniform_three :
    exists s, makeAssertions CuddManager.ofFunctions [lessThanThree]
        (new CuddManager.ofFunctions) = .ok s ∧
      forall calls : Nat,
        (CUDD_Distributed.machine CuddManager.ofFunctions id s.visitor.size
            (CUDD_Distributed.coins s.visitor.size)).run (List.replicate calls .solve) s.solver_ =
          UniformSolver.machine.run (List.replicate calls .solve)
            { assertions := Finset.univ.filter fun l : Fin s.visitor.size -> Bool =>
                forall n, n ∈ [lessThanThree] ->
                  NodeHolds (modelAt CuddManager.canonical_ofFunctions s (Diagram.extend l)) n
              assumptions := Finset.univ } := by
  have hsize : exists s, makeAssertions CuddManager.ofFunctions [lessThanThree]
      (new CuddManager.ofFunctions) = .ok s ∧ s.visitor.size = 2 := ⟨_, rfl, rfl⟩
  have hpos : forall (id : Nat) (d : VarDecl), some (VarDecl.mk 2 false) = some d ->
      0 < d.bitsize := by
    intro id d hd
    cases hd
    exact Nat.succ_pos 1
  rcases hsize with ⟨s, hmake, hsize⟩
  refine ⟨s, hmake, ?_⟩
  refine (@solve_uniform _ _ id (fun _ => some ⟨2, false⟩) CuddManager.canonical_ofFunctions
    hpos _ ?_ ?_ s hmake (fun i hi => hi) (hsize.trans_le (by decide))).1
  · intro n hn
    rw [List.mem_singleton.mp hn]
    exact ⟨⟨rfl, trivial⟩, trivial, Nat.succ_pos 1⟩
  · intro n hn m
    rw [List.mem_singleton.mp hn]
    exact ⟨trivial, trivial, fun _ _ _ _ _ => trivial⟩

end CuddVisitor
end MetaSmt
end Crave
