import Crave.Backend.MetaSMTVisitor
import Crave.Foundation.Oracle
import Crave.MetaSmt.ExpressionSort

/-!
# Solver instances

The state of `metaSMTVisitorImpl` and its operations: asserting, assuming and
suggesting expressions, the analysis of soft constraints and of contradictions,
solving and reading values back.  The decision procedure behind it is an oracle.
-/

namespace Crave
namespace Backend

open Foundation Ir MetaSmt MetaSMTVisitor

theorem bind_eq_ok {ε α β : Type} {x : Except ε α} {f : α -> Except ε β} {b : β} :
    (x >>= f) = .ok b ↔ exists a, x = .ok a ∧ f a = .ok b := by
  cases x with
  | error e =>
      constructor
      · intro h
        cases h
      · rintro ⟨a, ha, -⟩
        cases ha
  | ok a =>
      constructor
      · intro h
        exact ⟨a, rfl, h⟩
      · rintro ⟨a', ha, h⟩
        cases ha
        exact h

theorem exists_of_any {ε α : Type} {x : Except ε α} {test : α -> Bool}
    (h : x.toOption.any test = true) : exists a, x = .ok a ∧ test a = true := by
  cases x with
  | error e => cases h
  | ok a => exact ⟨a, rfl, h⟩

/-!
## What the program runs in
-/

/-- A random vector: the variable of its size and the type of its elements. -/
structure RandVec where
  size_var : Nat
  element : VarDecl

/-- The decision procedures that are linked in, the terms that `solver` takes, the random
numbers, the random vectors by their identifiers and the static settings.
`analyze_multiple_conflict` is the enumeration of conflicts that
`analyze_conflicts` turns to when several constraints contradict. -/
structure Environment where
  solver : Oracle SolverVar
  check : SortCheck
  bdd : Option (Oracle SolverVar)
  vectorBaseMap : Nat -> Option RandVec
  analyze_multiple_conflict : Nat -> List Formula -> List (Nat × Formula) -> List (List Nat)
  random : Nat -> Nat
  bypass_constraint_analysis : Bool
  complexity_limit_for_bdd : Nat

namespace Environment

def Sound (env : Environment) : Prop :=
  env.solver.Sound

/-- Satisfiable queries are answered and an actual conflict is reported. -/
structure Complete (env : Environment) : Prop where
  solver : env.solver.Complete
  conflicts : forall time assertions s,
    ¬ Term.Satisfiable (assertions ++ Term.true :: s.map Prod.snd) ->
      env.analyze_multiple_conflict time assertions s ≠ []

/-- A backend with the given oracle that draws the given random numbers, without
BDDs and vectors. -/
def simple (solver : Oracle SolverVar) (random : Nat -> Nat) : Environment :=
  { solver := solver
    check := SortCheck.strict
    bdd := none
    vectorBaseMap := fun _ => none
    analyze_multiple_conflict := fun _ _ s => [s.map Prod.fst]
    random := random
    bypass_constraint_analysis := false
    complexity_limit_for_bdd := 400 }

end Environment

/-!
## The state of an instance
-/

/-- `check` tells the terms on which the solver throws, and `model` is what `read_value`
looks at. -/
structure MetaSMTVisitor where
  check : SortCheck
  assertions : List Formula
  terminals_ : Terminals
  softs_ : List Formula
  assumptions_ : List Formula
  suggestions_ : List Formula
  model : Model SolverVar

def equalTrue (f : Formula) : Formula :=
  .binary .equal f Term.true

namespace MetaSMTVisitor

def new (check : SortCheck) : MetaSMTVisitor :=
  { check := check
    assertions := []
    terminals_ := fun _ => none
    softs_ := []
    assumptions_ := []
    suggestions_ := []
    model := fun _ => 0 }

/-- Visit an expression and pop its term, which is compared with `True` later on. -/
def visitPop (expr : Node) (s : MetaSMTVisitor) : Except String (Formula × MetaSMTVisitor) :=
  match visit expr s.terminals_ with
  | .error e => .error e
  | .ok (entry, terminals_) =>
      if s.check.accepts (expr.withWidths s.terminals_) then
        .ok (entry.1, { s with terminals_ := terminals_ })
      else
        .error "evaluate"

def makeAssertion (expr : Node) (s : MetaSMTVisitor) : Except String MetaSMTVisitor :=
  match s.visitPop expr with
  | .error e => .error e
  | .ok (f, s) => .ok { s with assertions := s.assertions ++ [equalTrue f] }

def makeSoftAssertion (expr : Node) (s : MetaSMTVisitor) : Except String MetaSMTVisitor :=
  match s.visitPop expr with
  | .error e => .error e
  | .ok (f, s) => .ok { s with softs_ := s.softs_ ++ [f] }

def makeSuggestion (expr : Node) (s : MetaSMTVisitor) : Except String MetaSMTVisitor :=
  match s.visitPop expr with
  | .error e => .error e
  | .ok (f, s) => .ok { s with suggestions_ := s.suggestions_ ++ [f] }

def makeAssumption (expr : Node) (s : MetaSMTVisitor) : Except String MetaSMTVisitor :=
  match s.visitPop expr with
  | .error e => .error e
  | .ok (f, s) => .ok { s with assumptions_ := s.assumptions_ ++ [equalTrue f] }

/-- Go through the soft formulas from position `i` on; the indices of those that
are rejected are returned. -/
def analyseSoftsFrom (o : Oracle SolverVar) : Nat -> List Formula -> MetaSMTVisitor -> Nat ->
    List Nat × MetaSMTVisitor × Nat
  | _, [], s, time => ([], s, time)
  | i, f :: rest, s, time =>
      match o.check time (s.assertions ++ [equalTrue f]) with
      | some m =>
          analyseSoftsFrom o (i + 1) rest
            { s with assertions := s.assertions ++ [equalTrue f], model := m } (time + 1)
      | none =>
          let (result, s, time) := analyseSoftsFrom o (i + 1) rest s (time + 1)
          (i :: result, s, time)

def analyseSofts (o : Oracle SolverVar) (s : MetaSMTVisitor) (time : Nat) :
    List Nat × MetaSMTVisitor × Nat :=
  analyseSoftsFrom o 0 s.softs_ { s with softs_ := [] } time

/-- One selector for each expression, which implies it. -/
def assertImplications : Nat -> List Node -> MetaSMTVisitor ->
    Except String (List (Nat × Formula) × MetaSMTVisitor)
  | _, [], s => .ok ([], s)
  | i, n :: rest, s =>
      match s.visitPop n with
      | .error e => .error e
      | .ok (f, s) =>
          let var : Formula := .var (.selector i) 1
          match assertImplications (i + 1) rest
              { s with assertions := s.assertions ++ [.binary .implies var f] } with
          | .error e => .error e
          | .ok (result_map, s) => .ok ((i, var) :: result_map, s)

def analyze_conflicts (env : Environment) (assertions : List Formula)
    (s : List (Nat × Formula)) (time : Nat) : List (List Nat) × Nat :=
  match env.solver.check time (assertions ++ Term.true :: s.map Prod.snd) with
  | some _ => ([], time + 1)
  | none =>
      if s.length = 1 then
        ([[0]], time + 1)
      else
        (env.analyze_multiple_conflict (time + 1) assertions s, time + 2)

def analyseContradiction (env : Environment) (s : List Node) (time : Nat) :
    Except String (List (List Nat) × Nat) :=
  match assertImplications 0 s (new env.check) with
  | .error e => .error e
  | .ok (result_map, solver) => .ok (analyze_conflicts env solver.assertions result_map time)

def solve (o : Oracle SolverVar) (random : Nat -> Nat) (ignoreSofts : Bool)
    (s : MetaSMTVisitor) (time : Nat) : Bool × MetaSMTVisitor × Nat :=
  let (assumptions_, time) := randomShuffle random time s.assumptions_
  let (suggestions_, time) := randomShuffle random time s.suggestions_
  let softs := if ignoreSofts then [] else s.softs_.map equalTrue
  let answer := o.retry random (s.assertions ++ assumptions_) softs suggestions_ time
  match answer.result with
  | some m => (true, { s with assumptions_ := [], suggestions_ := [], model := m }, answer.time)
  | none => (false, { s with assumptions_ := [], suggestions_ := [] }, answer.time)

/-- `read`: the bits of a solver variable, when the identifier has one. -/
def read (s : MetaSMTVisitor) (id : Nat) : Option Nat :=
  (s.terminals_ id).map fun width => s.model (.terminal id) % 2 ^ width

end MetaSMTVisitor

/-!
## Formulas of expressions
-/

/-- The term of an expression; an expression that is not translated is false. -/
def formula (n : Node) : Formula :=
  match translate n with
  | .error _ => Term.false
  | .ok entry => entry.1

theorem holds_formula (m : Model SolverVar) (n : Node) :
    Term.Holds m (formula n) ↔ NodeHolds m n := by
  unfold formula NodeHolds
  cases translate n with
  | error e =>
      simp only [iff_false]
      intro h
      cases h
  | ok entry => exact Iff.rfl

theorem holds_equalTrue (m : Model SolverVar) (f : Formula) :
    Term.Holds m (equalTrue f) ↔ Term.Holds m f :=
  Term.holds_equal_true m f

namespace MetaSMTVisitor

/-!
## What each operation does to an instance
-/

section Operations

variable {variables_ : Declarations} {n : Node} {s s' : MetaSMTVisitor}

theorem withWidths_eq (hn : n.DeclaredIn variables_) {terminals_ : Terminals}
    (hs : Terminals.Within variables_ terminals_) : n.withWidths terminals_ = n := by
  induction n with
  | placeholder id => rfl
  | variableExpr id bitsize sign =>
      cases hid : terminals_ id with
      | none => simp only [Node.withWidths, hid, Option.getD_none]
      | some width =>
          have hwidth := hs id width hid
          rw [show variables_ id = some ⟨bitsize, sign⟩ from hn, Option.map_some,
            Option.some.injEq] at hwidth
          simp only [Node.withWidths, hid, Option.getD_some, ← hwidth]
  | constant c => rfl
  | vectorExpr id bitsize sign => rfl
  | unaryOpr op child ih => simp only [Node.withWidths, ih hn]
  | inside child collection ih => simp only [Node.withWidths, ih hn]
  | extendExpr child value ih => simp only [Node.withWidths, ih hn]
  | binaryOpr op lhs rhs ihl ihr => simp only [Node.withWidths, ihl hn.left, ihr hn.right]
  | vectorAccess lhs rhs ihl ihr => simp only [Node.withWidths, ihl hn.left, ihr hn.right]
  | ifThenElse a b c iha ihb ihc =>
      simp only [Node.withWidths, iha hn.left, ihb hn.right.left, ihc hn.right.right]
  | forEach lhs rhs ihl ihr => simp only [Node.withWidths, ihl hn.left, ihr hn.right]
  | unique child ih => simp only [Node.withWidths, ih hn]
  | bitslice child r l ih => simp only [Node.withWidths, ih hn]

/-- The term is that of the visitor, and the solver has sorted it. -/
theorem visitPop_ok {f : Formula} (h : s.visitPop n = .ok (f, s')) :
    exists entry terminals_, visit n s.terminals_ = .ok (entry, terminals_) ∧
      s.check.accepts (n.withWidths s.terminals_) = true ∧ f = entry.1 ∧
      s' = { s with terminals_ := terminals_ } := by
  unfold visitPop at h
  split at h
  · cases h
  · next entry terminals_ hvisit =>
      split at h
      · next haccepts =>
          cases h
          exact ⟨entry, terminals_, hvisit, haccepts, rfl, rfl⟩
      · cases h

theorem visitPop_spec (hn : n.DeclaredIn variables_)
    (hs : Terminals.Within variables_ s.terminals_) {f : Formula}
    (h : s.visitPop n = .ok (f, s')) :
    f = formula n ∧
      s' = { s with terminals_ := Terminals.declare variables_ n.supportVars s.terminals_ } := by
  rcases visitPop_ok h with ⟨entry, terminals_, hvisit, _, rfl, rfl⟩
  rw [visit_eq_translate hn hs] at hvisit
  unfold formula
  cases htr : translate n with
  | error e =>
      rw [htr] at hvisit
      cases hvisit
  | ok entry' =>
      rw [htr] at hvisit
      cases hvisit
      exact ⟨rfl, rfl⟩

theorem makeAssertion_spec (hn : n.DeclaredIn variables_)
    (hs : Terminals.Within variables_ s.terminals_) (h : s.makeAssertion n = .ok s') :
    s' = { s with
      assertions := s.assertions ++ [equalTrue (formula n)]
      terminals_ := Terminals.declare variables_ n.supportVars s.terminals_ } := by
  unfold makeAssertion at h
  split at h
  · cases h
  · rename_i f s₁ hpop
    rcases visitPop_spec hn hs hpop with ⟨rfl, rfl⟩
    cases h
    rfl

theorem makeSoftAssertion_spec (hn : n.DeclaredIn variables_)
    (hs : Terminals.Within variables_ s.terminals_) (h : s.makeSoftAssertion n = .ok s') :
    s' = { s with
      softs_ := s.softs_ ++ [formula n]
      terminals_ := Terminals.declare variables_ n.supportVars s.terminals_ } := by
  unfold makeSoftAssertion at h
  split at h
  · cases h
  · rename_i f s₁ hpop
    rcases visitPop_spec hn hs hpop with ⟨rfl, rfl⟩
    cases h
    rfl

theorem makeSuggestion_spec (hn : n.DeclaredIn variables_)
    (hs : Terminals.Within variables_ s.terminals_) (h : s.makeSuggestion n = .ok s') :
    s' = { s with
      suggestions_ := s.suggestions_ ++ [formula n]
      terminals_ := Terminals.declare variables_ n.supportVars s.terminals_ } := by
  unfold makeSuggestion at h
  split at h
  · cases h
  · rename_i f s₁ hpop
    rcases visitPop_spec hn hs hpop with ⟨rfl, rfl⟩
    cases h
    rfl

theorem makeAssumption_spec (hn : n.DeclaredIn variables_)
    (hs : Terminals.Within variables_ s.terminals_) (h : s.makeAssumption n = .ok s') :
    s' = { s with
      assumptions_ := s.assumptions_ ++ [equalTrue (formula n)]
      terminals_ := Terminals.declare variables_ n.supportVars s.terminals_ } := by
  unfold makeAssumption at h
  split at h
  · cases h
  · rename_i f s₁ hpop
    rcases visitPop_spec hn hs hpop with ⟨rfl, rfl⟩
    cases h
    rfl

end Operations

/-!
## Solving
-/

section Solve

variable {o : Oracle SolverVar} {random : Nat -> Nat} {ignoreSofts : Bool}
  {s s' : MetaSMTVisitor} {time time' : Nat}

theorem solve_frame {result : Bool} (h : s.solve o random ignoreSofts time = (result, s', time')) :
    s' = { s with assumptions_ := [], suggestions_ := [], model := s'.model } := by
  simp only [solve] at h
  split at h
  · cases h
    rfl
  · cases h
    rfl

/-- The soft formulas that a call takes into account. -/
def softQuery (s : MetaSMTVisitor) (ignoreSofts : Bool) : List Formula :=
  if ignoreSofts then [] else s.softs_.map equalTrue

theorem satisfies_of_solve (hsound : o.Sound)
    (h : s.solve o random ignoreSofts time = (true, s', time')) :
    Term.Satisfies s'.model
      (s.assertions ++ s.assumptions_ ++ s.softQuery ignoreSofts) := by
  simp only [solve] at h
  split at h
  · rename_i m hm
    cases h
    refine (Oracle.satisfies_retry hsound hm).mono fun t ht => ?_
    simp only [List.mem_append, (randomShuffle_perm random time s.assumptions_).mem_iff] at ht ⊢
    exact ht
  · cases h

/-- Given a complete oracle, `solve` fails only when there is no model. -/
theorem solve_eq_true (hcomplete : o.Complete)
    (hsat : Term.Satisfiable (s.assertions ++ s.assumptions_ ++ s.softQuery ignoreSofts)) :
    (s.solve o random ignoreSofts time).1 = true := by
  simp only [solve]
  split
  · rfl
  · rename_i hnone
    refine absurd hnone (Oracle.retry_ne_none hcomplete random ?_ _ _)
    refine hsat.mono fun t ht => ?_
    simp only [List.mem_append, (randomShuffle_perm random time s.assumptions_).mem_iff] at ht ⊢
    exact ht

theorem solve_eq_true_iff (hsound : o.Sound) (hcomplete : o.Complete) :
    (s.solve o random ignoreSofts time).1 = true ↔
      Term.Satisfiable (s.assertions ++ s.assumptions_ ++ s.softQuery ignoreSofts) := by
  constructor
  · intro htrue
    cases hsolve : s.solve o random ignoreSofts time with
    | mk result rest =>
        rw [hsolve] at htrue
        cases htrue
        exact ⟨rest.1.model, satisfies_of_solve hsound hsolve⟩
  · exact solve_eq_true hcomplete

/-- The last query of a call, with the suggestions that were not dropped. -/
def answer (o : Oracle SolverVar) (random : Nat -> Nat) (ignoreSofts : Bool)
    (s : MetaSMTVisitor) (time : Nat) : Oracle.Answer SolverVar :=
  let (assumptions_, time) := randomShuffle random time s.assumptions_
  let (suggestions_, time) := randomShuffle random time s.suggestions_
  o.retry random (s.assertions ++ assumptions_) (s.softQuery ignoreSofts) suggestions_ time

def queries (o : Oracle SolverVar) (random : Nat -> Nat) (ignoreSofts : Bool)
    (s : MetaSMTVisitor) (time : Nat) : Nat :=
  let (assumptions_, time) := randomShuffle random time s.assumptions_
  let (suggestions_, time) := randomShuffle random time s.suggestions_
  o.queries random (s.assertions ++ assumptions_) (s.softQuery ignoreSofts) suggestions_ time

theorem solve_answer {result : Bool}
    (h : s.solve o random ignoreSofts time = (result, s', time')) :
    (result = true ↔ (s.answer o random ignoreSofts time).result = some s'.model) ∧
      time' = (s.answer o random ignoreSofts time).time := by
  simp only [solve] at h
  split at h
  · next m hm =>
      cases h
      constructor
      · constructor
        · intro _
          exact hm
        · intro _
          rfl
      · rfl
  · next hnone =>
      cases h
      constructor
      · constructor
        · intro hfalse
          cases hfalse
        · intro hsome
          cases hnone.symm.trans hsome
      · rfl

theorem queries_le (o : Oracle SolverVar) (random : Nat -> Nat) (ignoreSofts : Bool)
    (s : MetaSMTVisitor) (time : Nat) :
    s.queries o random ignoreSofts time ≤ s.suggestions_.length + 1 := by
  have hperm := randomShuffle_perm random
    (randomShuffle random time s.assumptions_).2 s.suggestions_
  rw [← hperm.length_eq]
  exact Oracle.queries_le o random _ _ _ _

theorem kept_subperm (o : Oracle SolverVar) (random : Nat -> Nat) (ignoreSofts : Bool)
    (s : MetaSMTVisitor) (time : Nat) :
    (s.answer o random ignoreSofts time).suggestions.Subperm s.suggestions_ :=
  (Oracle.suggestions_retry_subperm o random _ _ _ _).trans
    (randomShuffle_perm random _ s.suggestions_).subperm

/-- The draws of the two shuffles apart, the time tells the number of queries. -/
theorem time_answer (o : Oracle SolverVar) (random : Nat -> Nat) (ignoreSofts : Bool)
    (s : MetaSMTVisitor) (time : Nat) :
    (s.answer o random ignoreSofts time).time + 1 =
      time + (s.assumptions_.length - 1) + (s.suggestions_.length - 1) +
        2 * s.queries o random ignoreSofts time :=
  Oracle.time_retry o random _ _ _ _

/-- A call succeeds exactly when the assertions, the assumptions and, unless they are to
be ignored, the soft formulas have a common model. The model that is found satisfies the
suggestions that are left as well, the backend is asked once for each suggestion and once
more at most, and only the assumptions and the suggestions are gone. -/
theorem solve_correct (hsound : o.Sound) (hcomplete : o.Complete) (random : Nat -> Nat)
    (ignoreSofts : Bool) (s : MetaSMTVisitor) (time : Nat) (result : Bool)
    (h : s.solve o random ignoreSofts time = (result, s', time')) :
    (result = true ↔
        Term.Satisfiable (s.assertions ++ s.assumptions_ ++ s.softQuery ignoreSofts)) ∧
      (result = true -> Term.Satisfies s'.model
        (s.assertions ++ s.assumptions_ ++ s.softQuery ignoreSofts ++
          (s.answer o random ignoreSofts time).suggestions)) ∧
      (s.answer o random ignoreSofts time).suggestions.Subperm s.suggestions_ ∧
      s.queries o random ignoreSofts time ≤ s.suggestions_.length + 1 ∧
      time' + 1 = time + (s.assumptions_.length - 1) + (s.suggestions_.length - 1) +
        2 * s.queries o random ignoreSofts time ∧
      s' = { s with assumptions_ := [], suggestions_ := [], model := s'.model } := by
  have hanswer := solve_answer h
  refine ⟨?_, ?_, kept_subperm o random ignoreSofts s time,
    queries_le o random ignoreSofts s time, ?_, solve_frame h⟩
  · have hiff := @solve_eq_true_iff o random ignoreSofts s time hsound hcomplete
    rwa [h] at hiff
  · intro htrue
    rw [htrue] at h
    apply (Term.satisfies_append _ _ _).mpr
    constructor
    · exact satisfies_of_solve hsound h
    · exact Oracle.satisfies_suggestions hsound (hanswer.left.mp htrue)
  · rw [hanswer.right]
    exact time_answer o random ignoreSofts s time

/-- The comparison of a variable of eight bits with a number. -/
def byteTerm (tag : BinaryTag) (value : BitVec 8) : Formula :=
  .binary tag (.var (.terminal 1) 8) (.const ⟨8, value⟩)

/-- Below 10 and, for one call, not 3; at best not 4; suggested are 3 and 5. -/
def byteSolver : MetaSMTVisitor :=
  { new .strict with
    assertions := [equalTrue (byteTerm .bvult 10)]
    softs_ := [byteTerm .nequal 4]
    assumptions_ := [equalTrue (byteTerm .nequal 3)]
    suggestions_ := [byteTerm .equal 3, byteTerm .equal 5] }

/-- The suggestions contradict each other and one of them the assumption, but the call
succeeds. -/
theorem solve_correct_byteSolver :
    let after := solve Oracle.ideal (fun _ => 0) false byteSolver 0
    after.1 = true ∧
      Term.Satisfies after.2.1.model
        (byteSolver.assertions ++ byteSolver.assumptions_ ++ byteSolver.softs_.map equalTrue ++
          (byteSolver.answer Oracle.ideal (fun _ => 0) false 0).suggestions) ∧
      byteSolver.queries Oracle.ideal (fun _ => 0) false 0 ≤ 3 ∧
      after.2.1.assumptions_ = [] ∧ after.2.1.suggestions_ = [] ∧
      after.2.1.softs_ = byteSolver.softs_ := by
  intro after
  have hafter : byteSolver.solve Oracle.ideal (fun _ => 0) false 0 =
      (after.1, after.2.1, after.2.2) := rfl
  rcases solve_correct Oracle.ideal_sound Oracle.ideal_complete (fun _ => 0) false
    byteSolver 0 after.1 hafter with ⟨hresult, hmodel, _, hqueries, _, hframe⟩
  have htrue : after.1 = true := by
    apply hresult.mpr
    refine ⟨fun _ => 5, ?_⟩
    intro t ht
    have hcases : t = equalTrue (byteTerm .bvult 10) ∨ t = equalTrue (byteTerm .nequal 3) ∨
        t = equalTrue (byteTerm .nequal 4) := by
      simpa [byteSolver, softQuery] using ht
    rcases hcases with rfl | rfl | rfl <;> decide
  refine ⟨htrue, hmodel htrue, hqueries, ?_, ?_, ?_⟩ <;> rw [hframe]

end Solve

/-!
## Soft constraints
-/

section Softs

variable {o : Oracle SolverVar}

theorem analyseSoftsFrom_frame (i : Nat) (fs : List Formula) (s : MetaSMTVisitor) (time : Nat) :
    exists accepted m, (analyseSoftsFrom o i fs s time).2.1 =
        { s with assertions := s.assertions ++ accepted, model := m } ∧
      forall f, f ∈ accepted -> f ∈ fs.map equalTrue := by
  induction fs generalizing i s time with
  | nil =>
      refine ⟨[], s.model, ?_, fun f hf => absurd hf List.not_mem_nil⟩
      rw [List.append_nil]
      rfl
  | cons f rest ih =>
      simp only [analyseSoftsFrom]
      split
      · rename_i m hm
        rcases ih (i + 1)
          { s with assertions := s.assertions ++ [equalTrue f], model := m } (time + 1) with
          ⟨accepted, m', h, hmem⟩
        refine ⟨equalTrue f :: accepted, m', ?_, fun g hg => ?_⟩
        · rw [h, List.append_assoc, List.singleton_append]
        · rw [List.map_cons]
          rcases List.mem_cons.mp hg with rfl | hg
          · exact List.mem_cons_self
          · exact List.mem_cons_of_mem _ (hmem g hg)
      · rcases ih (i + 1) s (time + 1) with ⟨accepted, m', h, hmem⟩
        exact ⟨accepted, m', h, fun g hg => List.mem_cons_of_mem _ (hmem g hg)⟩

/-- With a sound and complete oracle the accepted formulas are the greedy ones. -/
theorem assertions_analyseSoftsFrom (hsound : o.Sound) (hcomplete : o.Complete) (i : Nat)
    (fs : List Formula) (s : MetaSMTVisitor) (time : Nat) :
    (analyseSoftsFrom o i fs s time).2.1.assertions =
      s.assertions ++ Term.greedy s.assertions (fs.map equalTrue) := by
  induction fs generalizing i s time with
  | nil => exact (List.append_nil _).symm
  | cons f rest ih =>
      simp only [analyseSoftsFrom, List.map_cons, Term.greedy]
      split
      · rename_i m hm
        rw [ih, if_pos ⟨m, hsound _ _ _ hm⟩, List.append_assoc, List.singleton_append]
      · rename_i hnone
        rw [if_neg ((Oracle.eq_none_iff hsound hcomplete _ _).mp hnone)]
        exact ih (i + 1) s (time + 1)

end Softs

/-!
## Contradictions
-/

section Contradictions

variable {variables_ : Declarations}

/-- The implications that the selectors from position `i` on stand for. -/
def implications (i : Nat) (ns : List Node) : List Formula :=
  (ns.zipIdx i).map fun p => .binary .implies (.var (.selector p.2) 1) (formula p.1)

def selectors (i : Nat) (ns : List Node) : List Formula :=
  (ns.zipIdx i).map fun p => .var (.selector p.2) 1

theorem assertImplications_spec {ns : List Node}
    (hns : forall n, n ∈ ns -> n.DeclaredIn variables_) {i : Nat} {s s' : MetaSMTVisitor}
    (hs : Terminals.Within variables_ s.terminals_) {result_map : List (Nat × Formula)}
    (h : assertImplications i ns s = .ok (result_map, s')) :
    result_map.map Prod.snd = selectors i ns ∧
      s'.assertions = s.assertions ++ implications i ns := by
  induction ns generalizing i s result_map with
  | nil =>
      cases h
      exact ⟨rfl, (List.append_nil _).symm⟩
  | cons n rest ih =>
      simp only [assertImplications] at h
      split at h
      · cases h
      · rename_i f s₁ hpop
        rcases visitPop_spec (hns n List.mem_cons_self) hs hpop with ⟨rfl, rfl⟩
        split at h
        · cases h
        · rename_i rest_map s₂ hrest
          cases h
          rcases ih (fun n' hn' => hns n' (List.mem_cons_of_mem n hn'))
            (hs.declare n.supportVars) hrest with ⟨hmap, hassertions⟩
          constructor
          · rw [List.map_cons, hmap]
            rfl
          · rw [hassertions, List.append_assoc]
            rfl

theorem holds_implies {m : Model SolverVar} {i : Nat} {f : Formula}
    (hsel : Term.Holds m (.var (.selector i) 1)) :
    Term.Holds m (.binary .implies (.var (.selector i) 1) f) ↔ Term.Holds m f := by
  unfold Term.Holds at hsel ⊢
  simp only [Term.eval] at hsel ⊢
  rw [hsel]
  cases hf : f.eval m with
  | none => simp
  | some x =>
      rcases x with ⟨w, x⟩
      by_cases hw : w = 1
      · subst hw
        simp only [SizedBits.ofBool, SizedBits.binary_mk, BinaryTag.apply, Option.some.injEq]
        rcases BitVec.eq_zero_or_eq_one x with hx | hx <;> subst hx <;> decide
      · have hne : (SizedBits.mk w x).width ≠ (SizedBits.ofBool true).width := hw
        change SizedBits.binary .implies (SizedBits.ofBool true) ⟨w, x⟩ = _ ↔ _
        rw [SizedBits.binary_eq_none hne]
        constructor
        · intro hx
          cases hx
        · intro hx
          exact absurd (congrArg SizedBits.width (Option.some.inj hx)) hw

/-- Switching all selectors on. -/
def withSelectors (m : Model SolverVar) : Model SolverVar
  | .terminal id => m (.terminal id)
  | .selector _ => 1

theorem nodeHolds_withSelectors (m : Model SolverVar) (n : Node) :
    NodeHolds (withSelectors m) n ↔ NodeHolds m n := by
  unfold NodeHolds
  cases htr : translate n with
  | error e => exact Iff.rfl
  | ok entry =>
      apply Term.holds_congr
      intro v w hv
      rcases atoms_translate htr (v, w) hv with ⟨id, bitsize, sign, -, heq⟩
      cases heq
      rfl

theorem satisfiable_selectors_iff (ns : List Node) :
    Term.Satisfiable (implications 0 ns ++ Term.true :: selectors 0 ns) ↔
      exists m, forall n, n ∈ ns -> NodeHolds m n := by
  constructor
  · rintro ⟨m, hm⟩
    refine ⟨m, fun n hn => ?_⟩
    rcases List.mem_iff_getElem.mp hn with ⟨k, hk, hget⟩
    have hzip : (n, k) ∈ ns.zipIdx 0 := by
      rw [List.mem_zipIdx_iff_getElem?, ← hget]
      exact List.getElem?_eq_getElem hk
    have hsel : Term.Holds m (.var (.selector k) 1) :=
      hm _ (List.mem_append_right _ (List.mem_cons_of_mem _
        (List.mem_map.mpr ⟨(n, k), hzip, rfl⟩)))
    have himplies := hm _ (List.mem_append_left _ (List.mem_map.mpr ⟨(n, k), hzip, rfl⟩))
    exact (holds_formula m n).mp ((holds_implies hsel).mp himplies)
  · rintro ⟨m, hm⟩
    have hsel : forall k, Term.Holds (withSelectors m) (.var (.selector k) 1) := fun k => rfl
    refine ⟨withSelectors m, fun t ht => ?_⟩
    rcases List.mem_append.mp ht with ht | ht
    · rcases List.mem_map.mp ht with ⟨⟨n, k⟩, hzip, rfl⟩
      have hn : n ∈ ns := List.fst_mem_of_mem_zipIdx hzip
      exact (holds_implies (hsel k)).mpr
        ((holds_formula _ n).mpr ((nodeHolds_withSelectors m n).mpr (hm n hn)))
    · rcases List.mem_cons.mp ht with rfl | ht
      · rfl
      · rcases List.mem_map.mp ht with ⟨⟨n, k⟩, -, rfl⟩
        exact hsel k

/-- With a sound and complete backend the analysis reports nothing exactly when
the expressions are satisfiable. -/
theorem analyseContradiction_eq_nil_iff {env : Environment} (hsound : env.Sound)
    (hcomplete : env.Complete) {ns : List Node}
    (hns : forall n, n ∈ ns -> n.DeclaredIn variables_) {time : Nat}
    {results : List (List Nat) × Nat} (h : analyseContradiction env ns time = .ok results) :
    results.1 = [] ↔ exists m, forall n, n ∈ ns -> NodeHolds m n := by
  unfold analyseContradiction at h
  split at h
  · cases h
  · rename_i result_map s hspec
    have hwithin : Terminals.Within variables_ (new env.check).terminals_ :=
      fun id width hid => by cases hid
    rcases assertImplications_spec hns hwithin hspec with ⟨hmap, hassertions⟩
    rw [← satisfiable_selectors_iff, ← hmap]
    have hassertions' : s.assertions = implications 0 ns := hassertions
    rw [← hassertions']
    cases h
    unfold analyze_conflicts
    split
    · rename_i m hm
      exact ⟨fun _ => ⟨m, hsound _ _ _ hm⟩, fun _ => rfl⟩
    · rename_i hnone
      have hunsat := (Oracle.eq_none_iff hsound hcomplete.solver _ _).mp hnone
      refine ⟨fun hnil => ?_, fun hsat => absurd hsat hunsat⟩
      split at hnil
      · cases hnil
      · exact absurd hnil (hcomplete.conflicts _ _ _ hunsat)

end Contradictions

end MetaSMTVisitor
end Backend
end Crave
