import Crave.Backend.VariableCoverageGenerator

/-!
# Partitions that can be built

The solvers of a partition are built unless it has a constraint over a whole vector, which
no visitor translates, or one whose term the solver cannot sort. The solvers of the
partitions before the first one that cannot be built are there all the same.
-/

namespace Crave
namespace Backend

open Foundation Ir MetaSmt MetaSMTVisitor

/-!
## Partitions that can be built
-/

/-- No placeholder and no node over a vector. -/
def isTranslatable : Node -> Bool
  | .placeholder _ => false
  | .variableExpr _ _ _ => true
  | .constant _ => true
  | .vectorExpr _ _ _ => false
  | .unaryOpr _ child => isTranslatable child
  | .inside child _ => isTranslatable child
  | .extendExpr child _ => isTranslatable child
  | .binaryOpr _ lhs rhs => isTranslatable lhs && isTranslatable rhs
  | .vectorAccess _ _ => false
  | .ifThenElse a b c => isTranslatable a && isTranslatable b && isTranslatable c
  | .forEach _ _ => false
  | .unique _ => false
  | .bitslice child _ _ => isTranslatable child

theorem exists_visit {n : Node} (h : isTranslatable n = true) (terminals_ : Terminals) :
    exists entry terminals', visit n terminals_ = .ok (entry, terminals') := by
  induction n generalizing terminals_ with
  | placeholder id => cases h
  | variableExpr id bitsize sign => exact ⟨_, _, rfl⟩
  | constant c => exact ⟨_, _, rfl⟩
  | vectorExpr id bitsize sign => cases h
  | unaryOpr op child ih =>
      rcases ih h terminals_ with ⟨entry, terminals', hchild⟩
      simp only [visit, hchild]
      exact ⟨_, _, rfl⟩
  | inside child collection ih =>
      rcases ih h terminals_ with ⟨entry, terminals', hchild⟩
      simp only [visit, hchild]
      exact ⟨_, _, rfl⟩
  | extendExpr child value ih =>
      rcases ih h terminals_ with ⟨entry, terminals', hchild⟩
      simp only [visit, hchild]
      exact ⟨_, _, rfl⟩
  | binaryOpr op lhs rhs ihl ihr =>
      simp only [isTranslatable, Bool.and_eq_true] at h
      rcases ihl h.left terminals_ with ⟨fst, terminals₁, hlhs⟩
      rcases ihr h.right terminals₁ with ⟨snd, terminals₂, hrhs⟩
      simp only [visit, hlhs, hrhs]
      exact ⟨_, _, rfl⟩
  | vectorAccess lhs rhs ihl ihr => cases h
  | ifThenElse a b c iha ihb ihc =>
      simp only [isTranslatable, Bool.and_eq_true] at h
      rcases iha h.left.left terminals_ with ⟨fst, terminals₁, ha⟩
      rcases ihb h.left.right terminals₁ with ⟨snd, terminals₂, hb⟩
      rcases ihc h.right terminals₂ with ⟨trd, terminals₃, hc⟩
      simp only [visit, ha, hb, hc]
      exact ⟨_, _, rfl⟩
  | forEach lhs rhs ihl ihr => cases h
  | unique child ih => cases h
  | bitslice child r l ih =>
      rcases ih h terminals_ with ⟨entry, terminals', hchild⟩
      simp only [visit, hchild]
      exact ⟨_, _, rfl⟩

/-- An expression that an instance takes: it is translated, and its term is sorted. -/
structure Taken (check : SortCheck) (variables_ : Declarations) (n : Node) : Prop where
  translatable : isTranslatable n = true
  accepted : check.accepts n = true
  declared : n.DeclaredIn variables_

section Taken

variable {check : SortCheck} {variables_ : Declarations} {n : Node} {s : MetaSMTVisitor}

/-- An instance with the given check that has met declared variables only. -/
def Standard (check : SortCheck) (variables_ : Declarations) (s : MetaSMTVisitor) : Prop :=
  s.check = check ∧ Terminals.Within variables_ s.terminals_

theorem standard_new (check : SortCheck) (variables_ : Declarations) :
    Standard check variables_ (MetaSMTVisitor.new check) :=
  ⟨rfl, fun id width hid => by cases hid⟩

theorem Standard.declare (hs : Standard check variables_ s) (support : Finset Nat) :
    Terminals.Within variables_ (Terminals.declare variables_ support s.terminals_) :=
  hs.right.declare support

theorem exists_visitPop (h : Taken check variables_ n) (hs : Standard check variables_ s) :
    exists f s', s.visitPop n = .ok (f, s') ∧ Standard check variables_ s' := by
  rcases exists_visit h.translatable s.terminals_ with ⟨entry, terminals', hvisit⟩
  have haccepted : s.check.accepts (n.withWidths s.terminals_) = true := by
    rw [withWidths_eq h.declared hs.right, hs.left]
    exact h.accepted
  have hpop : exists r, s.visitPop n = .ok r := by
    simp only [visitPop, hvisit, haccepted, if_true]
    exact ⟨_, rfl⟩
  rcases hpop with ⟨⟨f, s'⟩, hpop⟩
  refine ⟨f, s', hpop, ?_⟩
  rw [(visitPop_spec h.declared hs.right hpop).right]
  exact ⟨hs.left, hs.declare _⟩

theorem exists_makeAssertion (h : Taken check variables_ n) (hs : Standard check variables_ s) :
    exists s', s.makeAssertion n = .ok s' ∧ Standard check variables_ s' := by
  rcases exists_visitPop h hs with ⟨f, s₁, hpop, hstandard⟩
  simp only [makeAssertion, hpop]
  exact ⟨_, rfl, hstandard⟩

theorem exists_makeSoftAssertion (h : Taken check variables_ n)
    (hs : Standard check variables_ s) :
    exists s', s.makeSoftAssertion n = .ok s' ∧ Standard check variables_ s' := by
  rcases exists_visitPop h hs with ⟨f, s₁, hpop, hstandard⟩
  simp only [makeSoftAssertion, hpop]
  exact ⟨_, rfl, hstandard⟩

theorem exists_assertImplications {ns : List Node}
    (h : forall n, n ∈ ns -> Taken check variables_ n) (i : Nat)
    (hs : Standard check variables_ s) : exists r, assertImplications i ns s = .ok r := by
  induction ns generalizing i s with
  | nil => exact ⟨_, rfl⟩
  | cons n rest ih =>
      have hn := h n List.mem_cons_self
      rcases exists_visitPop hn hs with ⟨f, s₁, hpop, hstandard⟩
      have htail := @ih { s₁ with
          assertions := s₁.assertions ++ [.binary .implies (.var (.selector i) 1) f] }
        (fun m hm => h m (List.mem_cons_of_mem n hm)) (i + 1) hstandard
      cases htail with
      | intro r hr =>
          simp only [assertImplications, hpop, hr]
          exact ⟨_, rfl⟩

end Taken

section Build

variable {env : Environment} {vcon : VariableContainer} {cp : ConstraintPartition}
  {check : SortCheck} {variables_ : Declarations} {s : MetaSMTVisitor}

theorem exists_addConstraints {cs : List UserConstraint}
    (h : forall c, c ∈ cs -> c.cover_ = false -> Taken check variables_ c.expr_)
    (hs : Standard check variables_ s) : exists s', addConstraints cs s = .ok s' := by
  induction cs generalizing s with
  | nil => exact ⟨s, rfl⟩
  | cons c rest ih =>
      have hrest := fun d hd => h d (List.mem_cons_of_mem c hd)
      have hc := h c List.mem_cons_self
      rw [addConstraints]
      split
      · exact ih hrest hs
      · next hcover =>
          have htaken := hc (by simpa using hcover)
          split
          · rcases exists_makeSoftAssertion htaken hs with ⟨s₁, hs₁, hstandard⟩
            rw [hs₁]
            exact ih hrest hstandard
          · rcases exists_makeAssertion htaken hs with ⟨s₁, hs₁, hstandard⟩
            rw [hs₁]
            exact ih hrest hstandard

theorem exists_assertHards {cs : List UserConstraint}
    (h : forall c, c ∈ cs -> c.cover_ = false -> Taken check variables_ c.expr_)
    (hs : Standard check variables_ s) :
    exists s', VariableCoverageSolver.assertHards cs s = .ok s' := by
  induction cs generalizing s with
  | nil => exact ⟨s, rfl⟩
  | cons c rest ih =>
      have hrest := fun d hd => h d (List.mem_cons_of_mem c hd)
      rw [VariableCoverageSolver.assertHards]
      split
      · exact ih hrest hs
      · next hhard =>
          have hcover : c.cover_ = false := by
            simp only [Bool.or_eq_true, not_or, Bool.not_eq_true] at hhard
            exact hhard.right
          rcases exists_makeAssertion (h c List.mem_cons_self hcover) hs with
            ⟨s₁, hs₁, hstandard⟩
          rw [hs₁]
          exact ih hrest hstandard

/-- The constraints that go to a BDD can be asserted there. -/
def Diagrammed (limit : Nat) (cs : List UserConstraint) : Prop :=
  forall c, c ∈ cs -> 0 < c.complexity_ ∧ c.complexity_ < limit ->
    SortCheck.strict.accepts c.expr_ = true

instance (limit : Nat) (cs : List UserConstraint) : Decidable (Diagrammed limit cs) :=
  inferInstanceAs (Decidable (forall c, c ∈ cs -> _))

theorem exists_assertBounded {limit : Nat} {cs : List UserConstraint}
    (h : forall c, c ∈ cs -> isTranslatable c.expr_ = true ∧ c.expr_.DeclaredIn variables_)
    (hcs : Diagrammed limit cs) (hs : Standard .strict variables_ s) :
    exists s', VariableDefaultSolver.assertBounded limit cs s = .ok s' := by
  induction cs generalizing s with
  | nil => exact ⟨s, rfl⟩
  | cons c rest ih =>
      have hrest := fun d hd => h d (List.mem_cons_of_mem c hd)
      have hbounded : Diagrammed limit rest := fun d hd => hcs d (List.mem_cons_of_mem c hd)
      have hc := h c List.mem_cons_self
      rw [VariableDefaultSolver.assertBounded]
      split
      · next hcomplexity =>
          have htaken : Taken .strict variables_ c.expr_ :=
            ⟨hc.left, hcs c List.mem_cons_self hcomplexity, hc.right⟩
          rcases exists_makeAssertion htaken hs with ⟨s₁, hs₁, hstandard⟩
          rw [hs₁]
          exact ih hrest hbounded hstandard
      · exact ih hrest hbounded hs

theorem exists_createBddSolvers {svc_map : Nat -> List UserConstraint} {limit : Nat}
    (h : forall id c, c ∈ svc_map id ->
      isTranslatable c.expr_ = true ∧ c.expr_.DeclaredIn variables_)
    {refs : List (Nat × Nat)}
    (hrefs : forall pair, pair ∈ refs -> Diagrammed limit (svc_map pair.1))
    (bdd_solvers_ : Nat -> Option MetaSMTVisitor) (vars_with_dist : Finset Nat) :
    exists r, VariableDefaultSolver.createBddSolvers limit svc_map refs bdd_solvers_
      vars_with_dist = .ok r := by
  induction refs generalizing bdd_solvers_ vars_with_dist with
  | nil => exact ⟨_, rfl⟩
  | cons pair rest ih =>
      have hrest := ih fun p hp => hrefs p (List.mem_cons_of_mem pair hp)
      rw [VariableDefaultSolver.createBddSolvers]
      split
      · exact hrest _ _
      · cases exists_assertBounded (h pair.1) (hrefs pair List.mem_cons_self)
          (standard_new .strict variables_) with
        | intro s hs =>
            rw [hs]
            exact hrest _ _

/-- The variables are declared, and the solvers take the constraints. -/
structure Buildable (env : Environment) (vcon : VariableContainer) (cp : ConstraintPartition) :
    Prop where
  declared : forall id, id ∈ cp.support_vars_ -> (vcon.variables_ id).isSome = true
  accepted : forall c, c ∈ cp.constraints_ -> c.cover_ = false ->
    isTranslatable c.expr_ = true ∧ env.check.accepts c.expr_ = true
  diagrammed : env.bdd.isSome = true -> forall id, id ∈ cp.support_vars_ ->
    Diagrammed env.complexity_limit_for_bdd (cp.singleVariableConstraintMap_ id)

instance (env : Environment) (vcon : VariableContainer) (cp : ConstraintPartition) :
    Decidable (Buildable env vcon cp) :=
  decidable_of_iff
    ((forall id, id ∈ cp.support_vars_ -> (vcon.variables_ id).isSome = true) ∧
      (forall c, c ∈ cp.constraints_ -> c.cover_ = false ->
        isTranslatable c.expr_ = true ∧ env.check.accepts c.expr_ = true) ∧
      (env.bdd.isSome = true -> forall id, id ∈ cp.support_vars_ ->
        Diagrammed env.complexity_limit_for_bdd (cp.singleVariableConstraintMap_ id)))
    ⟨fun h => ⟨h.1, h.2.1, h.2.2⟩, fun h => ⟨h.1, h.2, h.3⟩⟩

theorem Buildable.taken (h : Buildable env vcon cp)
    (hmade : forall c, c ∈ cp.constraints_ -> c.Made vcon.variables_) {c : UserConstraint}
    (hc : c ∈ cp.constraints_) (hcover : c.cover_ = false) :
    Taken env.check vcon.variables_ c.expr_ := by
  have haccepted := h.accepted c hc hcover
  exact ⟨haccepted.left, haccepted.right, (hmade c hc).declared⟩

theorem Buildable.taken_hard (h : Buildable env vcon cp)
    (hmade : forall c, c ∈ cp.constraints_ -> c.Made vcon.variables_) {c : UserConstraint}
    (hc : c ∈ cp.constraints_) (hhard : c.isHard = true) :
    Taken env.check vcon.variables_ c.expr_ := by
  apply h.taken hmade hc
  simp only [UserConstraint.isHard, Bool.and_eq_true, Bool.not_eq_true'] at hhard
  exact hhard.right

theorem exists_analyseConstraints (h : Buildable env vcon cp)
    (hmade : forall c, c ∈ cp.constraints_ -> c.Made vcon.variables_) {vs : VariableSolver}
    (hvs : vs.constr_pttn_ = cp) (time : Nat) :
    exists vs' time', VariableDefaultSolver.analyseConstraints env vs time = .ok (vs', time') ∧
      vs'.constr_pttn_ = cp ∧ vs'.var_ctn_ = vs.var_ctn_ := by
  have hhards : forall n, n ∈ (cp.constraints_.filter UserConstraint.isHard).map
      UserConstraint.expr_ -> Taken env.check vcon.variables_ n := by
    intro n hn
    rcases List.mem_map.mp hn with ⟨c, hc, rfl⟩
    exact h.taken_hard hmade (List.mem_filter.mp hc).left (List.mem_filter.mp hc).right
  rcases exists_assertImplications hhards 0 (standard_new env.check vcon.variables_) with
    ⟨⟨result_map, s⟩, hs⟩
  have hanalyse : exists contradictions_ time₁,
      VariableDefaultSolver.analyseHards env cp time = .ok (contradictions_, time₁) := by
    simp only [VariableDefaultSolver.analyseHards, analyseContradiction, hs]
    exact ⟨_, _, rfl⟩
  rcases hanalyse with ⟨contradictions_, time₁, hanalyse⟩
  rw [VariableDefaultSolver.analyseConstraints, hvs, hanalyse]
  by_cases hnil : contradictions_ = []
  · simp only [bind, Except.bind, hnil, if_true]
    exact ⟨_, _, rfl, rfl, rfl⟩
  · simp only [bind, Except.bind, hnil, if_false]
    exact ⟨_, _, rfl, rfl, rfl⟩

theorem exists_setUpRandom (h : Buildable env vcon cp)
    (hmade : forall c, c ∈ cp.constraints_ -> c.Made vcon.variables_)
    (hsingle : forall id c, c ∈ cp.singleVariableConstraintMap_ id ->
      c ∈ cp.constraints_ ∧ c.isHard = true) {vs : VariableSolver} (hvs : vs.constr_pttn_ = cp)
    (hcontainer : vs.var_ctn_ = vcon.restrict cp.support_vars_) :
    exists vs', VariableDefaultSolver.setUpRandom env vs = .ok vs' := by
  have hbdd : exists r, VariableDefaultSolver.setUpBdd env vs.constr_pttn_
      vs.var_ctn_.write_references (VariableDefaultSolver.varsWithDist vs.var_ctn_) = .ok r := by
    rw [VariableDefaultSolver.setUpBdd, hvs]
    split
    · exact ⟨_, rfl⟩
    · next o hbdd =>
        apply @exists_createBddSolvers vcon.variables_
        · intro id c hc
          have htaken := h.taken_hard hmade (hsingle id c hc).left (hsingle id c hc).right
          exact ⟨htaken.translatable, htaken.declared⟩
        · intro pair hpair
          apply h.diagrammed (by rw [hbdd]; rfl)
          rw [hcontainer] at hpair
          exact (VariableContainer.mem_select.mp hpair).right
  cases hbdd with
  | intro r hr =>
      simp only [VariableDefaultSolver.setUpRandom, hr]
      exact ⟨_, rfl⟩

theorem exists_defaultSolver (h : Buildable env vcon cp)
    (hmade : forall c, c ∈ cp.constraints_ -> c.Made vcon.variables_)
    (hsingle : forall id c, c ∈ cp.singleVariableConstraintMap_ id ->
      c ∈ cp.constraints_ ∧ c.isHard = true) (time : Nat) :
    exists r, VariableDefaultSolver.new env vcon cp time = .ok r := by
  rw [VariableDefaultSolver.new, VariableSolver.new, if_pos h.declared]
  cases exists_addConstraints (fun c => h.taken hmade)
    (standard_new env.check vcon.variables_) with
  | intro s hs =>
      simp only [bind, Except.bind, hs]
      split
      · exact ⟨_, rfl⟩
      · have hanalyse := @exists_analyseConstraints env vcon cp h hmade
          ⟨vcon.restrict cp.support_vars_, cp, s, [], []⟩ rfl time
        rcases hanalyse with ⟨vs', time', hanalyse, hvs', hcontainer⟩
        rw [hanalyse]
        cases exists_setUpRandom h hmade hsingle hvs' hcontainer with
        | intro vs hvs =>
            simp only [hvs]
            exact ⟨_, rfl⟩

theorem exists_coverageSolver (h : Buildable env vcon cp)
    (hmade : forall c, c ∈ cp.constraints_ -> c.Made vcon.variables_) :
    exists vs, VariableCoverageSolver.new env vcon cp = .ok vs := by
  rw [VariableCoverageSolver.new, VariableSolver.new, if_pos h.declared]
  cases exists_assertHards (fun c => h.taken hmade)
    (standard_new env.check vcon.variables_) with
  | intro s hs =>
      simp only [bind, Except.bind, hs]
      exact ⟨_, rfl⟩

/-- The partitions from the first one on that cannot be built. -/
def unbuilt (env : Environment) (vcon : VariableContainer) (ps : List ConstraintPartition) :
    List ConstraintPartition :=
  ps.dropWhile fun p => Buildable env vcon p

/-- The partitions up to one that cannot be built. -/
def UpTo (env : Environment) (vcon : VariableContainer) (ps qs : List ConstraintPartition) : Prop :=
  exists rest, ps = qs ++ rest ∧ forall p, rest.head? = some p -> ¬ Buildable env vcon p

theorem UpTo.nil (env : Environment) (vcon : VariableContainer) : UpTo env vcon [] [] :=
  ⟨[], rfl, fun p hp => by cases hp⟩

theorem UpTo.cons {ps qs : List ConstraintPartition} (h : UpTo env vcon ps qs)
    (p : ConstraintPartition) : UpTo env vcon (p :: ps) (p :: qs) := by
  rcases h with ⟨rest, hps, hrest⟩
  exact ⟨rest, by rw [hps]; rfl, hrest⟩

theorem UpTo.stop {p : ConstraintPartition} {ps : List ConstraintPartition}
    (h : ¬ Buildable env vcon p) : UpTo env vcon (p :: ps) [] := by
  refine ⟨p :: ps, rfl, ?_⟩
  intro q hq
  cases hq
  exact h

theorem UpTo.subset {ps qs : List ConstraintPartition} (h : UpTo env vcon ps qs) : qs ⊆ ps := by
  rcases h with ⟨rest, rfl, _⟩
  exact List.subset_append_left qs rest

theorem mem_unbuilt_append {qs rest : List ConstraintPartition} {p : ConstraintPartition}
    (hrest : forall q, rest.head? = some q -> ¬ Buildable env vcon q) (hp : p ∈ rest) :
    p ∈ unbuilt env vcon (qs ++ rest) := by
  induction qs with
  | nil =>
      cases rest with
      | nil => cases hp
      | cons q rest =>
          rw [unbuilt, List.nil_append, List.dropWhile_cons_of_neg]
          · exact hp
          · simpa using hrest q rfl
  | cons q qs ih =>
      by_cases hq : Buildable env vcon q
      · rw [unbuilt, List.cons_append, List.dropWhile_cons_of_pos (by simpa using hq)]
        exact ih
      · rw [unbuilt, List.cons_append, List.dropWhile_cons_of_neg (by simpa using hq)]
        exact List.mem_cons_of_mem q (List.mem_append_right qs hp)

/-- What is filed under single variables are hard constraints of the partition. -/
def Filed (p : ConstraintPartition) : Prop :=
  forall id c, c ∈ p.singleVariableConstraintMap_ id -> c ∈ p.constraints_ ∧ c.isHard = true

theorem filed_of_isPartition {cs : List UserConstraint} {ps : List ConstraintPartition}
    (h : ConstraintPartitioner.IsPartition cs ps) {p : ConstraintPartition} (hp : p ∈ ps) :
    Filed p := by
  intro id c hc
  have hmem := List.mem_filter.mp ((h.single p hp id).mem_iff.mp hc)
  exact ⟨hmem.left, (Bool.and_eq_true _ _ ▸ hmem.right).left⟩

theorem upTo_createSolvers {ps : List ConstraintPartition} (hps : Separated vcon ps)
    (hfiled : forall p, p ∈ ps -> Filed p) {time time' : Nat}
    {solvers_ : List VariableDefaultSolver} {outcome : Except String Unit}
    (h : VariableGenerator.createSolvers env vcon ps time = (solvers_, time', outcome)) :
    exists qs, UpTo env vcon ps qs ∧ List.Forall₂ (VariableDefaultSolver.Built vcon) qs solvers_ ∧
      ((outcome = .ok () ∧ qs = ps) ∨
        (exists e, outcome = .error e) ∧ unbuilt env vcon ps ≠ []) := by
  induction ps generalizing time solvers_ with
  | nil =>
      cases h
      exact ⟨[], UpTo.nil env vcon, List.Forall₂.nil, Or.inl ⟨rfl, rfl⟩⟩
  | cons p rest ih =>
      simp only [VariableGenerator.createSolvers] at h
      split at h
      · next e hnew =>
          cases h
          have hp : ¬ Buildable env vcon p := by
            intro hp
            rcases exists_defaultSolver hp (hps.made p List.mem_cons_self)
              (hfiled p List.mem_cons_self) _ with ⟨r, hr⟩
            rw [hr] at hnew
            cases hnew
          refine ⟨[], UpTo.stop hp, List.Forall₂.nil, Or.inr ⟨⟨e, rfl⟩, ?_⟩⟩
          rw [unbuilt, List.dropWhile_cons_of_neg (by simpa using hp)]
          exact List.cons_ne_nil p rest
      · next vs time₁ hnew =>
          cases hrest : VariableGenerator.createSolvers env vcon rest time₁ with
          | mk solvers₁ q =>
              rcases q with ⟨time₂, outcome₁⟩
              rw [hrest] at h
              cases h
              have htail := ih hps.tail (fun q hq => hfiled q (List.mem_cons_of_mem p hq)) hrest
              rcases htail with ⟨qs, hqs, hbuilt, hcases⟩
              refine ⟨p :: qs, hqs.cons p, List.Forall₂.cons ?_ hbuilt, ?_⟩
              · exact VariableDefaultSolver.built_new (hps.made p List.mem_cons_self)
                  (hps.support p List.mem_cons_self) hnew
              · cases hcases with
                | inl hok => exact Or.inl ⟨hok.left, by rw [hok.right]⟩
                | inr herror =>
                    refine Or.inr ⟨herror.left, ?_⟩
                    by_cases hp : Buildable env vcon p
                    · rw [unbuilt, List.dropWhile_cons_of_pos (by simpa using hp)]
                      exact herror.right
                    · rw [unbuilt, List.dropWhile_cons_of_neg (by simpa using hp)]
                      exact List.cons_ne_nil p rest

theorem upTo_createCoverageSolvers {ps : List ConstraintPartition} (hps : Separated vcon ps)
    {solvers_ : List VariableCoverageSolver} {outcome : Except String Unit}
    (h : VariableCoverageGenerator.createSolvers env vcon ps = (solvers_, outcome)) :
    exists qs, UpTo env vcon ps qs ∧ List.Forall₂ (VariableCoverageSolver.Built vcon) qs solvers_ ∧
      (forall vs, vs ∈ solvers_ -> vs.covered_set_ = ∅) ∧ (outcome = .ok () -> qs = ps) := by
  induction ps generalizing solvers_ outcome with
  | nil =>
      cases h
      exact ⟨[], UpTo.nil env vcon, List.Forall₂.nil, List.forall_mem_nil _, fun _ => rfl⟩
  | cons p rest ih =>
      simp only [VariableCoverageGenerator.createSolvers] at h
      split at h
      · next e hnew =>
          cases h
          refine ⟨[], UpTo.stop ?_, List.Forall₂.nil, List.forall_mem_nil _,
            fun houtcome => by cases houtcome⟩
          intro hp
          cases exists_coverageSolver hp (hps.made p List.mem_cons_self) with
          | intro vs hvs =>
              rw [hvs] at hnew
              cases hnew
      · next vs hnew =>
          cases hrest : VariableCoverageGenerator.createSolvers env vcon rest with
          | mk solvers₁ outcome₁ =>
              rw [hrest] at h
              cases h
              rcases ih hps.tail hrest with ⟨qs, hqs, hbuilt, hempty, hall⟩
              rcases VariableCoverageSolver.built_new (hps.made p List.mem_cons_self)
                (hps.support p List.mem_cons_self) hnew with ⟨hhead, hcovered⟩
              refine ⟨p :: qs, hqs.cons p, List.Forall₂.cons hhead hbuilt, ?_, ?_⟩
              · intro u hu
                cases List.mem_cons.mp hu with
                | inl heq =>
                    rw [heq]
                    exact hcovered
                | inr hu => exact hempty u hu
              · intro houtcome
                rw [hall houtcome]

theorem Separated.upTo {ps qs : List ConstraintPartition} (hps : Separated vcon ps)
    (h : UpTo env vcon ps qs) : Separated vcon qs := by
  rcases h with ⟨rest, rfl, _⟩
  have hsub := List.sublist_append_left qs rest
  exact ⟨hps.disjoint.sublist hsub, fun p hp => hps.support p (hsub.subset hp),
    fun p hp => hps.made p (hsub.subset hp)⟩

end Build

end Backend
end Crave
