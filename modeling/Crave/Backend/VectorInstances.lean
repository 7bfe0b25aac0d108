import Crave.Backend.Buildable
import Crave.Backend.VectorSoundness

/-!
# The instances of the constraints of a vector

What a solver of a vector is given: the copies of the `foreach` constraints and the
inequations of the `unique` constraints, hard and soft ones.  A call tries them all
and then the hard ones alone.
-/

namespace Crave
namespace Backend

open Foundation Ir MetaSmt MetaSMTVisitor ReplaceVisitor

namespace VectorSolver

/-!
## Instances
-/

/-- The accepted copies of a `foreach` for the given indices. -/
def copies (foreach : Node) : List Nat -> List Element -> Except String (List Element × List Node)
  | [], es => .ok (es, [])
  | i :: rest, es => do
      let (result, _, replacer) <-
        ReplaceVisitor.visit i foreach { variables_ := es, okay_ := true }
      let (es, nodes) <- copies foreach rest replacer.variables_
      return (es, if replacer.okay_ then result :: nodes else nodes)

def disequality (pair : Element × Element) : Node :=
  .binaryOpr .notEqualOpr pair.1.toNode pair.2.toNode

def instancesOf (c : UserConstraint) (es : List Element) :
    Except String (List Element × List Node) :=
  if c.isUnique then
    .ok (es, (pairs es).map disequality)
  else
    copies c.expr_ (List.range es.length) es

/-- The instances of all constraints, each with whether it is soft. -/
def instances : List UserConstraint -> List Element ->
    Except String (List Element × List (Bool × Node))
  | [], es => .ok (es, [])
  | c :: rest, es => do
      let (es, nodes) <- instancesOf c es
      let (es, later) <- instances rest es
      return (es, nodes.map (fun n => (c.soft_, n)) ++ later)

def assertInstances : List (Bool × Node) -> MetaSMTVisitor -> Except String MetaSMTVisitor
  | [], s => .ok s
  | (soft, n) :: rest, s => do assertInstances rest (<- assertCopy soft n s)

theorem assertInstances_append (ns ns' : List (Bool × Node)) (s : MetaSMTVisitor) :
    assertInstances (ns ++ ns') s = (assertInstances ns s).bind (assertInstances ns') := by
  induction ns generalizing s with
  | nil => rfl
  | cons entry rest ih =>
      cases entry with
      | mk soft n =>
          simp only [List.cons_append, assertInstances]
          cases assertCopy soft n s with
          | error e => rfl
          | ok s₁ => exact ih s₁

theorem addCopies_iff {c : UserConstraint} {is : List Nat} {es es' : List Element}
    {s s' : MetaSMTVisitor} :
    addCopies c is es s = .ok (es', s') ↔
      exists nodes, copies c.expr_ is es = .ok (es', nodes) ∧
        assertInstances (nodes.map fun n => (c.soft_, n)) s = .ok s' := by
  induction is generalizing es s with
  | nil =>
      constructor
      · intro h
        cases h
        exact ⟨[], rfl, rfl⟩
      · rintro ⟨nodes, hcopies, hassert⟩
        cases hcopies
        cases hassert
        rfl
  | cons i rest ih =>
      constructor
      · intro h
        rcases bind_eq_ok.mp h with ⟨⟨result, idx, replacer⟩, hvisit, h⟩
        cases hokay : replacer.okay_ with
        | true =>
            simp only [hokay, if_true] at h
            rcases bind_eq_ok.mp h with ⟨s₁, hassert, h⟩
            rcases ih.mp h with ⟨nodes, hcopies, hrest⟩
            refine ⟨result :: nodes, ?_, ?_⟩
            · apply bind_eq_ok.mpr
              refine ⟨_, hvisit, bind_eq_ok.mpr ⟨_, hcopies, ?_⟩⟩
              simp only [hokay, if_true]
              rfl
            · exact bind_eq_ok.mpr ⟨s₁, hassert, hrest⟩
        | false =>
            simp only [hokay, Bool.false_eq_true, if_false] at h
            rcases ih.mp h with ⟨nodes, hcopies, hrest⟩
            refine ⟨nodes, ?_, hrest⟩
            apply bind_eq_ok.mpr
            refine ⟨_, hvisit, bind_eq_ok.mpr ⟨_, hcopies, ?_⟩⟩
            simp only [hokay, Bool.false_eq_true, if_false]
            rfl
      · rintro ⟨nodes, hcopies, hassert⟩
        rcases bind_eq_ok.mp hcopies with ⟨⟨result, idx, replacer⟩, hvisit, hcopies⟩
        rcases bind_eq_ok.mp hcopies with ⟨⟨es₁, later⟩, hlater, hcopies⟩
        apply bind_eq_ok.mpr
        refine ⟨_, hvisit, ?_⟩
        cases hokay : replacer.okay_ with
        | true =>
            simp only [hokay, if_true] at hcopies ⊢
            cases hcopies
            rcases bind_eq_ok.mp hassert with ⟨s₁, hfirst, hrest⟩
            exact bind_eq_ok.mpr ⟨s₁, hfirst, ih.mpr ⟨later, hlater, hrest⟩⟩
        | false =>
            simp only [hokay, Bool.false_eq_true, if_false] at hcopies ⊢
            cases hcopies
            exact ih.mpr ⟨_, hlater, hassert⟩

theorem addPairs_eq (c : UserConstraint) (ps : List (Element × Element)) (s : MetaSMTVisitor) :
    addPairs c ps s =
      assertInstances ((ps.map disequality).map fun n => (c.soft_, n)) s := by
  induction ps generalizing s with
  | nil => rfl
  | cons pair rest ih =>
      cases pair with
      | mk fst snd =>
          simp only [addPairs, List.map_cons, assertInstances]
          apply bind_congr
          intro s₁
          exact ih s₁

theorem addConstraints_iff {cs : List UserConstraint} {es es' : List Element}
    {s s' : MetaSMTVisitor} :
    addConstraints cs es s = .ok (es', s') ↔
      exists nodes, instances cs es = .ok (es', nodes) ∧ assertInstances nodes s = .ok s' := by
  induction cs generalizing es s with
  | nil =>
      constructor
      · intro h
        cases h
        exact ⟨[], rfl, rfl⟩
      · rintro ⟨nodes, hinstances, hassert⟩
        cases hinstances
        cases hassert
        rfl
  | cons c rest ih =>
      have hfirst : forall es₁ s₁, (exists nodes, instancesOf c es = .ok (es₁, nodes) ∧
          assertInstances (nodes.map fun n => (c.soft_, n)) s = .ok s₁) ->
          addConstraints rest es₁ s₁ = addConstraints (c :: rest) es s := by
        rintro es₁ s₁ ⟨nodes, hnodes, hassert⟩
        unfold instancesOf at hnodes
        rw [addConstraints]
        split
        · next hunique =>
            rw [if_pos hunique] at hnodes
            cases hnodes
            rw [addPairs_eq, hassert]
            rfl
        · next hunique =>
            rw [if_neg hunique] at hnodes
            rw [addCopies_iff.mpr ⟨nodes, hnodes, hassert⟩]
            rfl
      constructor
      · intro h
        have hstep : exists es₁ s₁ nodes, instancesOf c es = .ok (es₁, nodes) ∧
            assertInstances (nodes.map fun n => (c.soft_, n)) s = .ok s₁ ∧
            addConstraints rest es₁ s₁ = .ok (es', s') := by
          unfold instancesOf
          rw [addConstraints] at h
          split at h
          · next hunique =>
              rcases bind_eq_ok.mp h with ⟨s₁, hpairs, h⟩
              rw [if_pos hunique]
              rw [addPairs_eq] at hpairs
              exact ⟨es, s₁, _, rfl, hpairs, h⟩
          · next hunique =>
              rcases bind_eq_ok.mp h with ⟨⟨es₁, s₁⟩, hcopies, h⟩
              rcases addCopies_iff.mp hcopies with ⟨nodes, hnodes, hassert⟩
              rw [if_neg hunique]
              exact ⟨es₁, s₁, nodes, hnodes, hassert, h⟩
        rcases hstep with ⟨es₁, s₁, nodes, hnodes, hassert, hrest⟩
        rcases ih.mp hrest with ⟨later, hlater, hassertLater⟩
        refine ⟨nodes.map (fun n => (c.soft_, n)) ++ later, ?_, ?_⟩
        · exact bind_eq_ok.mpr ⟨_, hnodes, bind_eq_ok.mpr ⟨_, hlater, rfl⟩⟩
        · rw [assertInstances_append, hassert]
          exact hassertLater
      · rintro ⟨nodes, hinstances, hassert⟩
        rcases bind_eq_ok.mp hinstances with ⟨⟨es₁, first⟩, hfirstNodes, hinstances⟩
        rcases bind_eq_ok.mp hinstances with ⟨⟨es₂, later⟩, hlater, hinstances⟩
        cases hinstances
        rw [assertInstances_append] at hassert
        cases hs : assertInstances (first.map fun n => (c.soft_, n)) s with
        | error e =>
            rw [hs] at hassert
            cases hassert
        | ok s₁ =>
            rw [hs] at hassert
            rw [← hfirst es₁ s₁ ⟨first, hfirstNodes, hs⟩]
            exact ih.mpr ⟨later, hlater, hassert⟩

/-!
## What the solver is left with
-/

def hardNodes (ns : List (Bool × Node)) : List Node :=
  (ns.filter fun entry => !entry.1).map Prod.snd

def softNodes (ns : List (Bool × Node)) : List Node :=
  (ns.filter Prod.fst).map Prod.snd

/-- Every variable occurs with one type in all instances. -/
def OneWidth (D : Declarations) (ns : List (Bool × Node)) : Prop :=
  forall entry, entry ∈ ns -> entry.2.DeclaredIn D

theorem assertInstances_spec {D : Declarations} {ns : List (Bool × Node)} {s s' : MetaSMTVisitor}
    (hD : OneWidth D ns) (hs : Terminals.Within D s.terminals_)
    (h : assertInstances ns s = .ok s') :
    s' = { s with
      assertions := s.assertions ++ (hardNodes ns).map fun n => equalTrue (formula n)
      softs_ := s.softs_ ++ (softNodes ns).map formula
      terminals_ := s'.terminals_ } ∧ Terminals.Within D s'.terminals_ := by
  induction ns generalizing s with
  | nil =>
      cases h
      constructor
      · simp [hardNodes, softNodes]
      · exact hs
  | cons entry rest ih =>
      have hrest : OneWidth D rest := fun e he => hD e (List.mem_cons_of_mem entry he)
      have hn := hD entry List.mem_cons_self
      rcases bind_eq_ok.mp h with ⟨s₁, hfirst, hlater⟩
      cases entry with
      | mk soft n =>
          cases soft with
          | true =>
              have hs₁ := makeSoftAssertion_spec hn hs hfirst
              have hwithin : Terminals.Within D s₁.terminals_ := by
                rw [hs₁]
                exact hs.declare _
              have hih := ih hrest hwithin hlater
              constructor
              · rw [hih.left, hs₁]
                simp [hardNodes, softNodes]
              · exact hih.right
          | false =>
              have hs₁ := makeAssertion_spec hn hs hfirst
              have hwithin : Terminals.Within D s₁.terminals_ := by
                rw [hs₁]
                exact hs.declare _
              have hih := ih hrest hwithin hlater
              constructor
              · rw [hih.left, hs₁]
                simp [hardNodes, softNodes]
              · exact hih.right

theorem exists_assertInstances {check : SortCheck} {D : Declarations} {ns : List (Bool × Node)}
    {s : MetaSMTVisitor} (h : forall entry, entry ∈ ns -> Taken check D entry.2)
    (hs : Standard check D s) : exists s', assertInstances ns s = .ok s' := by
  induction ns generalizing s with
  | nil => exact ⟨s, rfl⟩
  | cons entry rest ih =>
      have hrest := fun e he => h e (List.mem_cons_of_mem entry he)
      have hn := h entry List.mem_cons_self
      have hfirst : exists s₁, assertCopy entry.1 entry.2 s = .ok s₁ ∧ Standard check D s₁ := by
        unfold assertCopy
        split
        · exact exists_makeSoftAssertion hn hs
        · exact exists_makeAssertion hn hs
      rcases hfirst with ⟨s₁, hs₁, hstandard⟩
      rcases ih hrest hstandard with ⟨s', hs'⟩
      exact ⟨s', bind_eq_ok.mpr ⟨s₁, hs₁, hs'⟩⟩

theorem standard_assertCopy {check : SortCheck} {D : Declarations} {soft : Bool} {n : Node}
    {s s' : MetaSMTVisitor} (hn : n.DeclaredIn D) (hs : Standard check D s)
    (h : assertCopy soft n s = .ok s') : Standard check D s' := by
  cases soft with
  | true =>
      rw [makeSoftAssertion_spec hn hs.right h]
      exact ⟨hs.left, hs.declare _⟩
  | false =>
      rw [makeAssertion_spec hn hs.right h]
      exact ⟨hs.left, hs.declare _⟩

theorem accepts_of_assertCopy {check : SortCheck} {D : Declarations} {soft : Bool} {n : Node}
    {s s' : MetaSMTVisitor} (hn : n.DeclaredIn D) (hs : Standard check D s)
    (h : assertCopy soft n s = .ok s') : check.accepts n = true := by
  cases hpop : s.visitPop n with
  | ok r =>
      rcases visitPop_ok hpop with ⟨_, _, _, haccepts, _, _⟩
      rw [withWidths_eq hn hs.right, hs.left] at haccepts
      exact haccepts
  | error e =>
      cases soft with
      | true =>
          simp only [assertCopy, if_true, makeSoftAssertion, hpop] at h
          cases h
      | false =>
          simp only [assertCopy, Bool.false_eq_true, if_false, makeAssertion, hpop] at h
          cases h

theorem accepts_of_assertInstances {check : SortCheck} {D : Declarations}
    {ns : List (Bool × Node)} {s s' : MetaSMTVisitor} (hD : OneWidth D ns)
    (hs : Standard check D s) (h : assertInstances ns s = .ok s') :
    forall entry, entry ∈ ns -> check.accepts entry.2 = true := by
  induction ns generalizing s with
  | nil => exact List.forall_mem_nil _
  | cons entry rest ih =>
      rcases bind_eq_ok.mp h with ⟨s₁, hfirst, hlater⟩
      have hn := hD entry List.mem_cons_self
      have hs₁ := standard_assertCopy hn hs hfirst
      intro e he
      cases List.mem_cons.mp he with
      | inl heq =>
          rw [heq]
          exact accepts_of_assertCopy hn hs hfirst
      | inr he => exact ih (fun e he => hD e (List.mem_cons_of_mem entry he)) hs₁ hlater e he

/-!
## Instances that can be translated
-/

/-- No vector stands outside of an access. -/
def isReplaceable : Node -> Bool
  | .vectorExpr _ _ _ => false
  | .unaryOpr _ child => isReplaceable child
  | .inside child _ => isReplaceable child
  | .extendExpr child _ => isReplaceable child
  | .binaryOpr _ lhs rhs => isReplaceable lhs && isReplaceable rhs
  | .ifThenElse a b c => isReplaceable a && isReplaceable b && isReplaceable c
  | .forEach _ rhs => isReplaceable rhs
  | .bitslice child _ _ => isReplaceable child
  | _ => true

/-- A `unique`, or a `foreach` whose body accesses elements but no whole vector. -/
def Instantiable (c : UserConstraint) : Prop :=
  c.isUnique = true ∨ isReplaceable c.expr_ = true

theorem isTranslatable_of_replaceAccess {ids : List Nat} {lhs node : Node} {k : Int}
    (h : replaceAccess ids lhs k = some node) : isTranslatable node = true := by
  unfold replaceAccess at h
  split at h
  · split at h
    · rcases Option.map_eq_some_iff.mp h with ⟨id, _, hnode⟩
      rw [← hnode]
      rfl
    · cases h
  · cases h

theorem isTranslatable_of_replace {i : Nat} {ids : List Nat} {n node : Node}
    (hn : isReplaceable n = true) (h : replace i ids n = some node) :
    isTranslatable node = true := by
  induction n generalizing node with
  | placeholder id =>
      cases h
      rfl
  | variableExpr id bitsize sign =>
      cases h
      rfl
  | constant c =>
      cases h
      rfl
  | vectorExpr id bitsize sign => cases hn
  | unaryOpr op child ih =>
      rcases replace_unaryOpr_some h with ⟨fst, hfst, rfl⟩
      have hchild := ih hn hfst
      exact hchild
  | inside child collection ih =>
      rcases Option.map_eq_some_iff.mp h with ⟨fst, hfst, hnode⟩
      rw [← hnode]
      have hchild := ih hn hfst
      exact hchild
  | extendExpr child value ih =>
      rcases Option.map_eq_some_iff.mp h with ⟨fst, hfst, hnode⟩
      rw [← hnode]
      have hchild := ih hn hfst
      exact hchild
  | binaryOpr op lhs rhs ihl ihr =>
      have hboth := Bool.and_eq_true_iff.mp hn
      rcases replace_binaryOpr_some h with ⟨fst, snd, hfst, hsnd, rfl⟩
      exact Bool.and_eq_true_iff.mpr ⟨ihl hboth.left hfst, ihr hboth.right hsnd⟩
  | vectorAccess lhs rhs ihl ihr =>
      rw [replace] at h
      split at h
      · exact isTranslatable_of_replaceAccess h
      · cases h
  | ifThenElse a b c iha ihb ihc =>
      have hall := Bool.and_eq_true_iff.mp hn
      have hboth := Bool.and_eq_true_iff.mp hall.left
      rcases replace_ifThenElse_some h with ⟨fst, snd, trd, hfst, hsnd, htrd, rfl⟩
      exact Bool.and_eq_true_iff.mpr
        ⟨Bool.and_eq_true_iff.mpr ⟨iha hboth.left hfst, ihb hboth.right hsnd⟩,
          ihc hall.right htrd⟩
  | forEach lhs rhs ihl ihr => exact ihr hn h
  | unique child ih => cases h
  | bitslice child r l ih =>
      rcases Option.map_eq_some_iff.mp h with ⟨fst, hfst, hnode⟩
      rw [← hnode]
      have hchild := ih hn hfst
      exact hchild

theorem replace_of_mem_copies {foreach : Node} {is : List Nat} {es es' : List Element}
    {nodes : List Node} (h : copies foreach is es = .ok (es', nodes)) :
    ids es' = ids es ∧
      forall n, n ∈ nodes -> exists i, i ∈ is ∧ replace i (ids es) foreach = some n := by
  induction is generalizing es nodes with
  | nil =>
      cases h
      exact ⟨rfl, List.forall_mem_nil _⟩
  | cons i rest ih =>
      rcases bind_eq_ok.mp h with ⟨⟨result, idx, replacer⟩, hvisit, hlater⟩
      rcases bind_eq_ok.mp hlater with ⟨⟨es₁, later⟩, hcopies, hnodes⟩
      have hes : es₁ = es' := by
        cases hnodes
        rfl
      rw [hes] at hcopies
      have hids : ids replacer.variables_ = ids es := (visit_spec hvisit).ids_eq
      have hrest := ih hcopies
      rw [hids] at hrest
      have hold : forall n, n ∈ later ->
          exists j, j ∈ i :: rest ∧ replace j (ids es) foreach = some n := by
        intro n hn
        rcases hrest.right n hn with ⟨j, hj, hreplace⟩
        exact ⟨j, List.mem_cons_of_mem i hj, hreplace⟩
      cases hokay : replacer.okay_ with
      | true =>
          simp only [hokay, if_true] at hnodes
          cases hnodes
          refine ⟨hrest.left, List.forall_mem_cons.mpr ⟨?_, hold⟩⟩
          exact ⟨i, List.mem_cons_self, replace_eq_of_okay hvisit hokay⟩
      | false =>
          simp only [hokay, Bool.false_eq_true, if_false] at hnodes
          cases hnodes
          exact ⟨hrest.left, hold⟩

theorem isTranslatable_of_mem_instancesOf {c : UserConstraint} (hc : Instantiable c)
    {es es' : List Element} {nodes : List Node} (h : instancesOf c es = .ok (es', nodes)) :
    forall n, n ∈ nodes -> isTranslatable n = true := by
  intro n hn
  unfold instancesOf at h
  split at h
  · cases h
    rcases List.mem_map.mp hn with ⟨pair, _, hpair⟩
    rw [← hpair]
    rfl
  · next hunique =>
      rcases (replace_of_mem_copies h).right n hn with ⟨i, _, hreplace⟩
      exact isTranslatable_of_replace (hc.resolve_left hunique) hreplace

theorem isTranslatable_of_mem_instances {cs : List UserConstraint}
    (hcs : forall c, c ∈ cs -> Instantiable c) {es es' : List Element}
    {ns : List (Bool × Node)} (h : instances cs es = .ok (es', ns)) :
    forall entry, entry ∈ ns -> isTranslatable entry.2 = true := by
  induction cs generalizing es ns with
  | nil =>
      cases h
      exact List.forall_mem_nil _
  | cons c rest ih =>
      rcases bind_eq_ok.mp h with ⟨⟨es₁, nodes⟩, hnodes, hlater⟩
      rcases bind_eq_ok.mp hlater with ⟨⟨es₂, later⟩, hrest, hns⟩
      cases hns
      intro entry hentry
      cases List.mem_append.mp hentry with
      | inl hentry =>
          rcases List.mem_map.mp hentry with ⟨n, hn, heq⟩
          rw [← heq]
          exact isTranslatable_of_mem_instancesOf (hcs c List.mem_cons_self) hnodes n hn
      | inr hentry =>
          exact ih (fun c' hc' => hcs c' (List.mem_cons_of_mem c hc')) hrest entry hentry

/-!
## Two attempts
-/

section Stages

variable {env : Environment} {var_gen : List VariableSolver} {D : Declarations}
  {ns : List (Bool × Node)} {s fresh : MetaSMTVisitor}

theorem satisfies_formulas (m : Model SolverVar) (nodes : List Node) :
    Term.Satisfies m (nodes.map fun n => equalTrue (formula n)) ↔
      forall n, n ∈ nodes -> NodeHolds m n := by
  unfold Term.Satisfies
  rw [List.forall_mem_map]
  constructor
  · intro h n hn
    exact (holds_formula m n).mp ((holds_equalTrue m _).mp (h n hn))
  · intro h n hn
    exact (holds_equalTrue m _).mpr ((holds_formula m n).mpr (h n hn))

/-- The instances that a new solver is given are its assertions and its soft formulas. -/
structure Holding (ns : List (Bool × Node)) (s : MetaSMTVisitor) : Prop where
  assertions : s.assertions = (hardNodes ns).map fun n => equalTrue (formula n)
  softs : s.softs_.map equalTrue = (softNodes ns).map fun n => equalTrue (formula n)
  assumptions : s.assumptions_ = []
  suggestions : s.suggestions_ = []

theorem holding_of_assertInstances (hD : OneWidth D ns)
    (h : assertInstances ns (MetaSMTVisitor.new env.check) = .ok s) : Holding ns s := by
  have hempty : Terminals.Within D (MetaSMTVisitor.new env.check).terminals_ := by
    intro id width hid
    cases hid
  have hs := (assertInstances_spec hD hempty h).left
  rw [hs]
  constructor
  · rfl
  · exact List.map_map
  · rfl
  · rfl

theorem Holding.solve_ignoring_iff (h : Holding ns s) (hsound : env.Sound)
    (hcomplete : env.solver.Complete) (time : Nat) :
    (s.solve env.solver env.random true time).1 = true ↔
      exists m, forall n, n ∈ hardNodes ns -> NodeHolds m n := by
  rw [MetaSMTVisitor.solve_eq_true_iff hsound hcomplete, h.assumptions, h.assertions]
  unfold Term.Satisfiable
  simp only [MetaSMTVisitor.softQuery, if_true, List.append_nil, satisfies_formulas]

theorem Holding.solve_iff (h : Holding ns s) (hsound : env.Sound)
    (hcomplete : env.solver.Complete) (time : Nat) :
    (s.solve env.solver env.random false time).1 = true ↔
      exists m, (forall n, n ∈ hardNodes ns -> NodeHolds m n) ∧
        forall n, n ∈ softNodes ns -> NodeHolds m n := by
  rw [MetaSMTVisitor.solve_eq_true_iff hsound hcomplete, h.assumptions, h.assertions]
  unfold Term.Satisfiable
  simp only [MetaSMTVisitor.softQuery, Bool.false_eq_true, if_false, List.append_nil, h.softs,
    Term.satisfies_append, satisfies_formulas]

/-- A call depends on nothing but the formulas that are asked and the time. -/
theorem solve_ignoring_congr (hassertions : s.assertions = fresh.assertions)
    (hassumptions : s.assumptions_ = fresh.assumptions_)
    (hsuggestions : s.suggestions_ = fresh.suggestions_) (o : Oracle SolverVar)
    (random : Nat -> Nat) (time : Nat) :
    (s.solve o random true time).1 = (fresh.solve o random true time).1 ∧
      ((s.solve o random true time).1 = true ->
        (s.solve o random true time).2.1.model = (fresh.solve o random true time).2.1.model) ∧
      (s.solve o random true time).2.2 = (fresh.solve o random true time).2.2 := by
  simp only [MetaSMTVisitor.solve, hassertions, hassumptions, hsuggestions, if_true]
  generalize o.retry random _ _ _ _ = answer
  cases answer.result with
  | some m => exact ⟨rfl, fun _ => rfl, rfl⟩
  | none =>
      refine ⟨rfl, ?_, rfl⟩
      intro h
      cases h

theorem hardNodes_hards (ns : List (Bool × Node)) :
    hardNodes (ns.filter fun entry => !entry.1) = hardNodes ns := by
  rw [hardNodes, List.filter_filter]
  simp only [Bool.and_self]
  rfl

theorem Holding.solveTwice (h : Holding ns s)
    (hfresh : fresh.assertions = (hardNodes ns).map fun n => equalTrue (formula n))
    (hassumptions : fresh.assumptions_ = []) (hsuggestions : fresh.suggestions_ = [])
    (hsound : env.Sound) (hcomplete : env.solver.Complete) (time : Nat) :
    ((solveTwice env s time).1 = true ↔
        exists m, forall n, n ∈ hardNodes ns -> NodeHolds m n) ∧
      ((exists m, (forall n, n ∈ hardNodes ns -> NodeHolds m n) ∧
          forall n, n ∈ softNodes ns -> NodeHolds m n) ->
        forall n, n ∈ softNodes ns -> NodeHolds (solveTwice env s time).2.1.model n) ∧
      forall (failed : MetaSMTVisitor) (later : Nat),
        s.solve env.solver env.random false time = (false, failed, later) ->
        (solveTwice env s time).1 = (fresh.solve env.solver env.random true later).1 ∧
          ((solveTwice env s time).1 = true -> (solveTwice env s time).2.1.model =
            (fresh.solve env.solver env.random true later).2.1.model) ∧
          (solveTwice env s time).2.2 = (fresh.solve env.solver env.random true later).2.2 := by
  have hfirst := h.solve_iff hsound hcomplete time
  cases hsolve : s.solve env.solver env.random false time with
  | mk result q =>
      cases q with
      | mk s₁ time₁ =>
          rw [hsolve] at hfirst
          cases result with
          | true =>
              have htwice : VectorSolver.solveTwice env s time = (true, s₁, time₁) := by
                simp only [VectorSolver.solveTwice, hsolve, if_true]
              rw [htwice]
              have hmodel := MetaSMTVisitor.satisfies_of_solve hsound hsolve
              simp only [MetaSMTVisitor.softQuery, Bool.false_eq_true, if_false, h.softs,
                Term.satisfies_append, satisfies_formulas] at hmodel
              refine ⟨?_, fun _ => hmodel.right, ?_⟩
              · constructor
                · intro _
                  rcases hfirst.mp rfl with ⟨m, hm, _⟩
                  exact ⟨m, hm⟩
                · intro _
                  rfl
              · intro failed later hfailed
                cases hfailed
          | false =>
              have hframe := MetaSMTVisitor.solve_frame hsolve
              have htwice : VectorSolver.solveTwice env s time =
                  s₁.solve env.solver env.random true time₁ := by
                simp only [VectorSolver.solveTwice, hsolve, Bool.false_eq_true, if_false]
              have hholding : Holding ns s₁ := by
                rw [hframe]
                exact ⟨h.assertions, h.softs, rfl, rfl⟩
              rw [htwice]
              refine ⟨hholding.solve_ignoring_iff hsound hcomplete time₁, ?_, ?_⟩
              · intro hall
                cases hfirst.mpr hall
              · intro failed later hfailed
                cases hfailed
                exact solve_ignoring_congr (hholding.assertions.trans hfresh.symm)
                  (hholding.assumptions.trans hassumptions.symm)
                  (hholding.suggestions.trans hsuggestions.symm) env.solver env.random _

theorem exists_solve_of_buildSolver {vs built : VectorSolver} {vector : RandVec} {w : World}
    {var_ID : Nat} (hvector : env.vectorBaseMap vs.vector_id_ = some vector)
    (hbuild : buildSolver env.check vs (vectorSize var_gen vector) w.var_ID = .ok (built, var_ID)) :
    exists w' : World, vs.solve env var_gen w =
        .ok ((solveTwice env built.solver_ w.time).1,
          { built with solver_ := (solveTwice env built.solver_ w.time).2.1 }, w') ∧
      w'.time = (solveTwice env built.solver_ w.time).2.2 := by
  unfold VectorSolver.solve
  rw [hvector]
  cases hsolve : solveTwice env built.solver_ w.time with
  | mk result q =>
      cases q with
      | mk s time =>
          let w₁ : World := { w with var_ID := var_ID, time := time }
          cases result with
          | false =>
              refine ⟨w₁, bind_eq_ok.mpr ⟨_, hbuild, ?_⟩, rfl⟩
              simp only [hsolve]
              rfl
          | true =>
              cases hread : readVector s vector.element built.vec_elements_ with
              | some values =>
                  refine ⟨w₁.setVector built.vector_id_ values,
                    bind_eq_ok.mpr ⟨_, hbuild, ?_⟩, rfl⟩
                  simp only [hsolve, if_true, hread]
                  rfl
              | none =>
                  refine ⟨w₁, bind_eq_ok.mpr ⟨_, hbuild, ?_⟩, rfl⟩
                  simp only [hsolve, if_true, hread]
                  rfl

theorem buildSolver_of_instances {vs : VectorSolver} {size var_ID : Nat} {es : List Element}
    (hinstances : instances vs.constraints_ (resize vs.vec_elements_ size var_ID).1 =
      .ok (es, ns)) (hassert : assertInstances ns (MetaSMTVisitor.new env.check) = .ok s) :
    buildSolver env.check vs size var_ID =
      .ok ({ vs with solver_ := s, vec_elements_ := es }, (resize vs.vec_elements_ size var_ID).2) := by
  have hadd := addConstraints_iff.mpr ⟨ns, hinstances, hassert⟩
  exact bind_eq_ok.mpr ⟨_, hadd, rfl⟩

noncomputable def envBits : Environment :=
  { Environment.simple Oracle.ideal fun _ => 0 with
    vectorBaseMap := fun _ => some { size_var := 2, element := { bitsize := 1, sign := true } } }

/-- `unique(v)` as a soft constraint. -/
def softUnique : UserConstraint :=
  { id_ := 0
    expr_ := .unique (.vectorExpr 1 1 true)
    name_ := "unique"
    support_vars_ := {1}
    unique_ := some true
    soft_ := true
    cover_ := false
    enabled_ := true
    complexity_ := 0 }

theorem envBits_complete : envBits.Complete := by
  constructor
  · exact Oracle.ideal_complete
  · intro time assertions s _ hnil
    cases hnil

def softUniqueSolver : VectorSolver :=
  (VectorSolver.new 1).addConstraint softUnique

def worldStart : World :=
  { memory := fun _ => 0
    vectors := fun _ => []
    time := 0
    var_ID := 10
    constraint_ID := 0 }

end Stages

end VectorSolver

end Backend
end Crave
