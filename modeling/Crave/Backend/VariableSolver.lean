import Crave.Backend.VariableContainer

/-!
# Solvers of one partition

`VariableSolver` owns a solver instance for a partition and the references of
the partition.  The module also has what the derived solvers share: adding the
constraints of a list and assuming or suggesting the values of references.
-/

namespace Crave
namespace Backend

open Foundation Ir MetaSMTVisitor

structure VariableSolver where
  var_ctn_ : VariableContainer
  constr_pttn_ : ConstraintPartition
  solver_ : MetaSMTVisitor
  contradictions_ : List (List String)
  inactive_softs_ : List String

namespace VariableSolver

def new (env : Environment) (vcon : VariableContainer) (cp : ConstraintPartition) :
    Except String VariableSolver :=
  if forall id, id ∈ cp.support_vars_ -> (vcon.variables_ id).isSome = true then
    .ok
      { var_ctn_ := vcon.restrict cp.support_vars_
        constr_pttn_ := cp
        solver_ := MetaSMTVisitor.new env.check
        contradictions_ := []
        inactive_softs_ := [] }
  else
    .error "vcon.variables.find(id) != vcon.variables.end()"

/-- `read`: whether the variable belongs to the partition, and the value, which
stays as it is when the solver has not met the variable. -/
def read (vs : VariableSolver) (id value : Nat) : Bool × Nat :=
  if (vs.var_ctn_.variables_ id).isSome then
    (true, (vs.solver_.read id).getD value)
  else
    (false, value)

end VariableSolver

/-!
## Assertions, assumptions and suggestions of a list
-/

/-- Hard constraints are asserted, soft ones entered as such, cover constraints
are ignored. -/
def addConstraints : List UserConstraint -> MetaSMTVisitor -> Except String MetaSMTVisitor
  | [], s => .ok s
  | c :: rest, s =>
      if c.cover_ then
        addConstraints rest s
      else if c.soft_ then do
        addConstraints rest (<- s.makeSoftAssertion c.expr_)
      else do
        addConstraints rest (<- s.makeAssertion c.expr_)

/-- The current value of every referenced program variable is assumed. -/
def assumeReferences (var_ctn_ : VariableContainer) (memory : Memory) :
    List (Nat × Nat) -> MetaSMTVisitor -> Except String MetaSMTVisitor
  | [], s => .ok s
  | (id, loc) :: rest, s => do
      let d := var_ctn_.declOf id
      assumeReferences var_ctn_ memory rest
        (<- s.makeAssumption (equalConstant id d (toConstantExpr d (memory loc))))

/-- A value is drawn from every distribution and suggested. -/
def suggestDistributions (var_ctn_ : VariableContainer) (random : Nat -> Nat) :
    List (Nat × (Nat -> BitVec 64)) -> MetaSMTVisitor -> Nat ->
      Except String (MetaSMTVisitor × Nat)
  | [], s, time => .ok (s, time)
  | (id, nextValue) :: rest, s, time => do
      let d := var_ctn_.declOf id
      let value : Constant :=
        { value := nextValue (random time), bitsize := d.bitsize, sign := d.sign }
      suggestDistributions var_ctn_ random rest
        (<- s.makeSuggestion (equalConstant id d value)) (time + 1)

/-- The current values of write references are suggested. -/
def suggestValues (var_ctn_ : VariableContainer) (memory : Memory) :
    List (Nat × Nat) -> MetaSMTVisitor -> Except String MetaSMTVisitor
  | [], s => .ok s
  | (id, loc) :: rest, s => do
      let d := var_ctn_.declOf id
      suggestValues var_ctn_ memory rest
        (<- s.makeSuggestion (equalConstant id d (toConstantExpr d (memory loc))))

/-!
## What the lists add to an instance
-/

def hardFormulas (cs : List UserConstraint) : List Formula :=
  (cs.filter UserConstraint.isHard).map fun c => equalTrue (formula c.expr_)

def softFormulas (cs : List UserConstraint) : List Formula :=
  (cs.filter fun c => !c.cover_ && c.soft_).map fun c => formula c.expr_

def referenceFormulas (var_ctn_ : VariableContainer) (memory : Memory)
    (refs : List (Nat × Nat)) : List Formula :=
  refs.map fun pair => equalTrue (formula (equalConstant pair.1 (var_ctn_.declOf pair.1)
    (toConstantExpr (var_ctn_.declOf pair.1) (memory pair.2))))

section Lists

variable {variables_ : Declarations}

theorem addConstraints_spec {cs : List UserConstraint}
    (hcs : forall c, c ∈ cs -> c.Made variables_) {s s' : MetaSMTVisitor}
    (hs : Terminals.Within variables_ s.terminals_) (h : addConstraints cs s = .ok s') :
    exists support,
      s' = { s with
        assertions := s.assertions ++ hardFormulas cs
        softs_ := s.softs_ ++ softFormulas cs
        terminals_ := Terminals.declare variables_ support s.terminals_ } ∧
      forall c, c ∈ cs -> c.cover_ = false -> c.support_vars_ ⊆ support := by
  induction cs generalizing s with
  | nil =>
      cases h
      refine ⟨∅, ?_, fun c hc => absurd hc List.not_mem_nil⟩
      simp [hardFormulas, softFormulas]
  | cons c rest ih =>
      have hc := hcs c List.mem_cons_self
      have hrest := fun d hd => hcs d (List.mem_cons_of_mem c hd)
      unfold addConstraints at h
      split at h
      · rename_i hcover
        rcases ih hrest hs h with ⟨support, rfl, hsupport⟩
        refine ⟨support, ?_, fun d hd hdcover => ?_⟩
        · simp [hardFormulas, softFormulas, UserConstraint.isHard, hcover]
        · rcases List.mem_cons.mp hd with rfl | hd
          · rw [hcover] at hdcover
            cases hdcover
          · exact hsupport d hd hdcover
      · rename_i hcover
        have hcover' : c.cover_ = false := by simpa using hcover
        split at h
        · rename_i hsoft
          rcases bind_eq_ok.mp h with ⟨s₁, hadd, h⟩
          have hs₁ := makeSoftAssertion_spec hc.declared hs hadd
          rcases ih hrest (by rw [hs₁]; exact hs.declare _) h with ⟨support, hs', hsupport⟩
          refine ⟨c.support_vars_ ∪ support, ?_, fun d hd hdcover => ?_⟩
          · rw [hs', hs₁, hc.support]
            simp [hardFormulas, softFormulas, UserConstraint.isHard, hcover', hsoft,
              Terminals.declare_declare]
          · rcases List.mem_cons.mp hd with rfl | hd
            · exact Finset.subset_union_left
            · exact (hsupport d hd hdcover).trans Finset.subset_union_right
        · rename_i hsoft
          have hsoft' : c.soft_ = false := by simpa using hsoft
          rcases bind_eq_ok.mp h with ⟨s₁, hadd, h⟩
          have hs₁ := makeAssertion_spec hc.declared hs hadd
          rcases ih hrest (by rw [hs₁]; exact hs.declare _) h with ⟨support, hs', hsupport⟩
          refine ⟨c.support_vars_ ∪ support, ?_, fun d hd hdcover => ?_⟩
          · rw [hs', hs₁, hc.support]
            simp [hardFormulas, softFormulas, UserConstraint.isHard, hcover', hsoft',
              Terminals.declare_declare]
          · rcases List.mem_cons.mp hd with rfl | hd
            · exact Finset.subset_union_left
            · exact (hsupport d hd hdcover).trans Finset.subset_union_right

theorem assumeReferences_spec {var_ctn_ : VariableContainer} {memory : Memory}
    {refs : List (Nat × Nat)}
    (hrefs : forall pair, pair ∈ refs ->
      variables_ pair.1 = some (var_ctn_.declOf pair.1))
    {s s' : MetaSMTVisitor} (hs : Terminals.Within variables_ s.terminals_)
    (h : assumeReferences var_ctn_ memory refs s = .ok s') :
    exists support,
      s' = { s with
        assumptions_ := s.assumptions_ ++ referenceFormulas var_ctn_ memory refs
        terminals_ := Terminals.declare variables_ support s.terminals_ } ∧
      forall pair, pair ∈ refs -> pair.1 ∈ support := by
  induction refs generalizing s with
  | nil =>
      cases h
      refine ⟨∅, ?_, fun pair hpair => absurd hpair List.not_mem_nil⟩
      simp [referenceFormulas]
  | cons pair rest ih =>
      rcases pair with ⟨id, loc⟩
      have hd := hrefs (id, loc) List.mem_cons_self
      rcases bind_eq_ok.mp h with ⟨s₁, hadd, h⟩
      have hs₁ := makeAssumption_spec (equalConstant_declared hd _) hs hadd
      rw [supportVars_equalConstant] at hs₁
      rcases ih (fun p hp => hrefs p (List.mem_cons_of_mem _ hp))
        (by rw [hs₁]; exact hs.declare _) h with ⟨support, hs', hsupport⟩
      refine ⟨{id} ∪ support, ?_, fun p hp => ?_⟩
      · rw [hs', hs₁]
        simp [referenceFormulas, Terminals.declare_declare]
      · rcases List.mem_cons.mp hp with rfl | hp
        · exact Finset.mem_union_left _ (Finset.mem_singleton_self id)
        · exact Finset.mem_union_right _ (hsupport p hp)

/-- Some suggestions were added and their variables declared. -/
def Suggested (variables_ : Declarations) (s s' : MetaSMTVisitor) : Prop :=
  exists fs support, s' = { s with
    suggestions_ := s.suggestions_ ++ fs
    terminals_ := Terminals.declare variables_ support s.terminals_ }

theorem Suggested.refl (s : MetaSMTVisitor) : Suggested variables_ s s :=
  ⟨[], ∅, by simp⟩

theorem Suggested.trans {s s' s'' : MetaSMTVisitor} (h : Suggested variables_ s s')
    (h' : Suggested variables_ s' s'') : Suggested variables_ s s'' := by
  rcases h with ⟨fs, support, rfl⟩
  rcases h' with ⟨fs', support', rfl⟩
  exact ⟨fs ++ fs', support ∪ support', by simp [Terminals.declare_declare]⟩

theorem Suggested.within {s s' : MetaSMTVisitor} (h : Suggested variables_ s s')
    (hs : Terminals.Within variables_ s.terminals_) :
    Terminals.Within variables_ s'.terminals_ := by
  rcases h with ⟨fs, support, rfl⟩
  exact hs.declare support

theorem suggested_of_makeSuggestion {n : Node} (hn : n.DeclaredIn variables_)
    {s s' : MetaSMTVisitor} (hs : Terminals.Within variables_ s.terminals_)
    (h : s.makeSuggestion n = .ok s') : Suggested variables_ s s' :=
  ⟨[formula n], n.supportVars, makeSuggestion_spec hn hs h⟩

theorem suggested_suggestDistributions {var_ctn_ : VariableContainer} {random : Nat -> Nat}
    {refs : List (Nat × (Nat -> BitVec 64))}
    (hrefs : forall pair, pair ∈ refs ->
      variables_ pair.1 = some (var_ctn_.declOf pair.1))
    {s s' : MetaSMTVisitor} {time time' : Nat}
    (hs : Terminals.Within variables_ s.terminals_)
    (h : suggestDistributions var_ctn_ random refs s time = .ok (s', time')) :
    Suggested variables_ s s' := by
  induction refs generalizing s time with
  | nil =>
      cases h
      exact Suggested.refl _
  | cons pair rest ih =>
      rcases pair with ⟨id, nextValue⟩
      have hd := hrefs (id, nextValue) List.mem_cons_self
      rcases bind_eq_ok.mp h with ⟨s₁, hadd, h⟩
      have hs₁ := suggested_of_makeSuggestion (equalConstant_declared hd _) hs hadd
      exact hs₁.trans (ih (fun p hp => hrefs p (List.mem_cons_of_mem _ hp)) (hs₁.within hs) h)

theorem suggested_suggestValues {var_ctn_ : VariableContainer} {memory : Memory}
    {refs : List (Nat × Nat)}
    (hrefs : forall pair, pair ∈ refs ->
      variables_ pair.1 = some (var_ctn_.declOf pair.1))
    {s s' : MetaSMTVisitor} (hs : Terminals.Within variables_ s.terminals_)
    (h : suggestValues var_ctn_ memory refs s = .ok s') : Suggested variables_ s s' := by
  induction refs generalizing s with
  | nil =>
      cases h
      exact Suggested.refl _
  | cons pair rest ih =>
      rcases pair with ⟨id, loc⟩
      have hd := hrefs (id, loc) List.mem_cons_self
      rcases bind_eq_ok.mp h with ⟨s₁, hadd, h⟩
      have hs₁ := suggested_of_makeSuggestion (equalConstant_declared hd _) hs hadd
      exact hs₁.trans (ih (fun p hp => hrefs p (List.mem_cons_of_mem _ hp)) (hs₁.within hs) h)

end Lists

end Backend
end Crave
