import Crave.Backend.VectorBody
import Crave.Backend.VectorSize

/-!
# Solutions of vectors

When the constraints of a vector are about its elements only, and every element is
accessed in a copy that is handed to the solver, the contents that are read back make
the hard ones true.
-/

namespace Crave
namespace Backend

open Foundation Ir MetaSmt MetaSMTVisitor ReplaceVisitor

/-!
## Copies and assertions
-/

/-- Constraints of a vector that are `foreach`es over its elements. -/
def Elementwise (v : Nat) (d : VarDecl) (cs : List UserConstraint) : Prop :=
  forall c, c ∈ cs -> c.isUnique = false ∧ isElementwiseForeach v d c.expr_ = true

instance (v : Nat) (d : VarDecl) (cs : List UserConstraint) : Decidable (Elementwise v d cs) :=
  inferInstanceAs (Decidable (forall c, c ∈ cs -> _))

/-- Every position of a vector of the given size is accessed in a copy of a body that
is inside of the vector. -/
def Covers (cs : List UserConstraint) (size : Nat) : Prop :=
  forall k, k < size -> exists c, c ∈ cs ∧ exists i, i < size ∧
    InRange size (accessed i c.expr_) ∧ (k : Int) ∈ accessed i c.expr_

instance (cs : List UserConstraint) (size : Nat) : Decidable (Covers cs size) :=
  inferInstanceAs (Decidable (forall k, k < size -> exists c, c ∈ cs ∧ exists i, i < size ∧
    InRange size (accessed i c.expr_) ∧ (k : Int) ∈ accessed i c.expr_))

theorem exists_body {v : Nat} {d : VarDecl} {n : Node} (h : isElementwiseForeach v d n = true) :
    exists body, n = .forEach (.vectorExpr v d.bitsize d.sign) body ∧
      isElementwise v d body = true := by
  cases n with
  | forEach lhs body =>
      have hboth := Bool.and_eq_true_iff.mp h
      exact ⟨body, by rw [eq_of_beq hboth.left], hboth.right⟩
  | _ => cases h

namespace VectorSolver

variable {env : Environment} {var_gen : List VariableSolver} {v : Nat} {d : VarDecl}

structure Copied (D : Declarations) (s s' : MetaSMTVisitor) : Prop where
  within : Terminals.Within D s'.terminals_
  asserted : s.assertions ⊆ s'.assertions
  settled : s'.assumptions_ = s.assumptions_

theorem Copied.trans {D : Declarations} {s₁ s₂ s₃ : MetaSMTVisitor} (h : Copied D s₁ s₂)
    (h' : Copied D s₂ s₃) : Copied D s₁ s₃ :=
  ⟨h'.within, List.Subset.trans h.asserted h'.asserted, h'.settled.trans h.settled⟩

theorem copied_assertCopy {D : Declarations} {soft : Bool} {n : Node}
    (hn : n.DeclaredIn D) {s s' : MetaSMTVisitor} (hs : Terminals.Within D s.terminals_)
    (h : assertCopy soft n s = .ok s') :
    Copied D s s' ∧ (soft = false -> equalTrue (formula n) ∈ s'.assertions) := by
  cases soft with
  | true =>
      have hs' := makeSoftAssertion_spec hn hs h
      rw [hs']
      constructor
      · exact ⟨hs.declare _, List.Subset.refl _, rfl⟩
      · intro hsoft
        cases hsoft
  | false =>
      have hs' := makeAssertion_spec hn hs h
      rw [hs']
      constructor
      · exact ⟨hs.declare _, List.subset_append_left _ _, rfl⟩
      · intro _
        exact List.mem_append_right _ (List.mem_singleton_self _)

theorem copied_addCopies {c : UserConstraint} (hc : isElementwiseForeach v d c.expr_ = true)
    {is : List Nat} {es es' : List Element} {s s' : MetaSMTVisitor}
    (hs : Terminals.Within (elementDeclarations (ids es) d) s.terminals_)
    (h : addCopies c is es s = .ok (es', s')) :
    Copied (elementDeclarations (ids es) d) s s' ∧
      forall i, i ∈ is -> (exists idx, subscript i c.expr_ = some idx) ∧
        (c.soft_ = false -> forall node, replace i (ids es) c.expr_ = some node ->
          equalTrue (formula node) ∈ s'.assertions) := by
  rcases exists_body hc with ⟨body, hexpr, hbody⟩
  induction is generalizing es s with
  | nil =>
      cases h
      constructor
      · exact ⟨hs, List.Subset.refl _, rfl⟩
      · intro i hi
        cases hi
  | cons i rest ih =>
      rcases bind_eq_ok.mp h with ⟨⟨node, idx, st⟩, hvisit, h⟩
      have hvisited := visit_spec hvisit
      have hids : ids st.variables_ = ids es := hvisited.ids_eq
      rcases hvisited.replaced with ⟨b, hokay, hreplace⟩
      have hokay' : st.okay_ = b := by simpa using hokay
      have hreplace' : replace i (ids es) c.expr_ = if b then some node else none := hreplace
      simp only [hokay'] at h
      cases b with
      | true =>
          rcases bind_eq_ok.mp h with ⟨s₁, hassert, h⟩
          have hdeclared : node.DeclaredIn (elementDeclarations (ids es) d) := by
            apply declaredIn_of_replace hbody
            rw [hexpr] at hreplace'
            exact hreplace'
          have hcopied := copied_assertCopy hdeclared hs hassert
          have hrest := ih (by rw [hids]; exact hcopied.left.within) h
          rw [hids] at hrest
          constructor
          · exact hcopied.left.trans hrest.left
          · intro j hj
            cases List.mem_cons.mp hj with
            | inl hji =>
                rw [hji]
                constructor
                · exact ⟨idx, hvisited.subscript_eq⟩
                · intro hsoft node' hnode'
                  rw [hreplace'] at hnode'
                  cases hnode'
                  exact hrest.left.asserted (hcopied.right hsoft)
            | inr hj => exact hrest.right j hj
      | false =>
          have hrest := ih (by rw [hids]; exact hs) h
          rw [hids] at hrest
          constructor
          · exact hrest.left
          · intro j hj
            cases List.mem_cons.mp hj with
            | inl hji =>
                rw [hji]
                constructor
                · exact ⟨idx, hvisited.subscript_eq⟩
                · intro _ node' hnode'
                  rw [hreplace'] at hnode'
                  cases hnode'
            | inr hj => exact hrest.right j hj

theorem copied_addConstraints {cs : List UserConstraint} (hcs : Elementwise v d cs)
    {es es' : List Element} {s s' : MetaSMTVisitor}
    (hs : Terminals.Within (elementDeclarations (ids es) d) s.terminals_)
    (h : addConstraints cs es s = .ok (es', s')) :
    Copied (elementDeclarations (ids es) d) s s' ∧
      forall c, c ∈ cs -> forall i, i < es.length ->
        (exists idx, subscript i c.expr_ = some idx) ∧
          (c.soft_ = false -> forall node, replace i (ids es) c.expr_ = some node ->
            equalTrue (formula node) ∈ s'.assertions) := by
  induction cs generalizing es s with
  | nil =>
      cases h
      constructor
      · exact ⟨hs, List.Subset.refl _, rfl⟩
      · intro c hc
        cases hc
  | cons c rest ih =>
      have hc := hcs c List.mem_cons_self
      rw [addConstraints, if_neg (by simp [hc.left])] at h
      rcases bind_eq_ok.mp h with ⟨⟨es₁, s₁⟩, hcopies, h⟩
      have hids : ids es₁ = ids es := (met_addCopies hcopies).left
      have hlength : es₁.length = es.length := by
        have hsame := congrArg List.length hids
        simpa [ids] using hsame
      have hcopied := copied_addCopies hc.right hs hcopies
      have hrest := ih (fun e he => hcs e (List.mem_cons_of_mem c he))
        (by rw [hids]; exact hcopied.left.within) h
      rw [hids, hlength] at hrest
      constructor
      · exact hcopied.left.trans hrest.left
      · intro e he i hi
        cases List.mem_cons.mp he with
        | inl hec =>
            rw [hec]
            have hcopy := hcopied.right i (List.mem_range.mpr hi)
            constructor
            · exact hcopy.left
            · intro hsoft node hnode
              exact hrest.left.asserted (hcopy.right hsoft node hnode)
        | inr he => exact hrest.right e he i hi

/-!
## Contents that are read back
-/

theorem satisfies_of_solveTwice (hsound : env.Sound) {s s' : MetaSMTVisitor} {time time' : Nat}
    (h : solveTwice env s time = (true, s', time')) : Term.Satisfies s'.model s.assertions := by
  unfold solveTwice at h
  cases hfirst : s.solve env.solver env.random false time with
  | mk r q =>
      cases q with
      | mk s₁ time₁ =>
          simp only [hfirst] at h
          cases r with
          | true =>
              cases h
              exact (MetaSMTVisitor.satisfies_of_solve hsound hfirst).mono fun f hf =>
                List.mem_append_left _ (List.mem_append_left _ hf)
          | false =>
              have hframe := MetaSMTVisitor.solve_frame hfirst
              have hsat := MetaSMTVisitor.satisfies_of_solve hsound h
              rw [hframe] at hsat
              exact hsat.mono fun f hf => List.mem_append_left _ (List.mem_append_left _ hf)

theorem terminals_solveTwice {s s' : MetaSMTVisitor} {time time' : Nat} {result : Bool}
    (h : solveTwice env s time = (result, s', time')) : s'.terminals_ = s.terminals_ := by
  unfold solveTwice at h
  cases hfirst : s.solve env.solver env.random false time with
  | mk r q =>
      cases q with
      | mk s₁ time₁ =>
          have hframe := MetaSMTVisitor.solve_frame hfirst
          simp only [hfirst] at h
          cases r with
          | true =>
              cases h
              rw [hframe]
          | false =>
              have hframe' := MetaSMTVisitor.solve_frame h
              rw [hframe', hframe]

theorem not_satisfiable_of_solveTwice (hcomplete : env.Complete) {s s' : MetaSMTVisitor}
    {time time' : Nat} (h : solveTwice env s time = (false, s', time')) :
    ¬ Term.Satisfiable s.assertions := by
  unfold solveTwice at h
  cases hfirst : s.solve env.solver env.random false time with
  | mk r q =>
      cases q with
      | mk s₁ time₁ =>
          simp only [hfirst] at h
          cases r with
          | true => cases h
          | false =>
              intro hsat
              have hsecond : s₁.solve env.solver env.random true time₁ = (false, s', time') := h
              have hquery : Term.Satisfiable
                  (s₁.assertions ++ s₁.assumptions_ ++ s₁.softQuery true) := by
                rw [MetaSMTVisitor.solve_frame hfirst]
                simpa [softQuery] using hsat
              have htrue := @MetaSMTVisitor.solve_eq_true _ env.random true s₁ time₁
                hcomplete.solver hquery
              rw [hsecond] at htrue
              cases htrue

theorem ofNat_setValue (d : VarDecl) (value : Nat) :
    BitVec.ofNat d.bitsize (setValue d d.bitsize value) = BitVec.ofNat d.bitsize value := by
  unfold setValue
  split
  · rw [BitVec.signExtend_eq, BitVec.ofNat_toNat, BitVec.setWidth_eq]
  · rw [BitVec.setWidth_eq, BitVec.ofNat_toNat, BitVec.setWidth_eq]

theorem met_of_covers {check : SortCheck} {cs : List UserConstraint} (hcs : Elementwise v d cs)
    {es es' : List Element} {s : MetaSMTVisitor} (hsize : es.length < 2 ^ 31)
    (hcovers : Covers cs es.length)
    (h : addConstraints cs es (MetaSMTVisitor.new check) = .ok (es', s)) :
    forall id, id ∈ ids es -> s.Met id := by
  intro id hid
  have hempty : Terminals.Within (elementDeclarations (ids es) d)
      (MetaSMTVisitor.new check).terminals_ := by
    intro i width hi
    cases hi
  rcases List.mem_iff_getElem?.mp hid with ⟨k, hk⟩
  have hlt : k < es.length := by
    have hlt := (List.getElem?_eq_some_iff.mp hk).1
    simpa [ids] using hlt
  rcases hcovers k hlt with ⟨c, hc, i, hi, hrange, haccessed⟩
  rcases exists_body (hcs c hc).right with ⟨body, hexpr, hbody⟩
  rcases ((copied_addConstraints hcs hempty h).right c hc i hi).left with ⟨idx, hidx⟩
  rw [hexpr] at hidx hrange haccessed
  have hrange' : InRange (ids es).length (accessed i body) := by
    rw [ids, List.length_map]
    exact hrange
  have hids : (ids es).length < 2 ^ 31 := by
    rw [ids, List.length_map]
    exact hsize
  rcases exists_replace (isForeachBody_of_isElementwise hbody) hids hidx hrange' with ⟨node, hnode⟩
  have hget : (ids es)[Int.toNat k]? = some id := by simpa using hk
  have hmem : id ∈ node.supportVars := mem_supportVars_of_replace hbody hnode haccessed hget
  apply ((met_addConstraints h).right id).mpr
  apply Or.inr
  refine ⟨c, hc, ?_⟩
  rw [OccursIn, if_neg (by simp [(hcs c hc).left])]
  refine ⟨i, by simpa [ids] using hi, node, ?_, hmem⟩
  rw [hexpr]
  exact hnode

/-- After a call that succeeds the hard constraints are true of the contents. -/
theorem bodyHolds_of_solve (hsound : env.Sound) {vs vs' : VectorSolver} {w w' : World}
    {vector : RandVec} (hvector : env.vectorBaseMap vs.vector_id_ = some vector)
    (hsupported : vector.element.bitsize ≤ 64)
    (hcs : Elementwise vs.vector_id_ vector.element vs.constraints_)
    (hsize : vectorSize var_gen vector < 2 ^ 31)
    (hcovers : Covers vs.constraints_ (vectorSize var_gen vector))
    (h : vs.solve env var_gen w = .ok (true, vs', w')) {c : UserConstraint}
    (hc : c ∈ vs.constraints_) (hhard : c.soft_ = false) {lhs body : Node}
    (hexpr : c.expr_ = .forEach lhs body) {values : Values}
    (hvalues : values.vector vs.vector_id_ = w'.vectors vs.vector_id_) :
    values.BodyHolds vs.vector_id_ body := by
  rcases solve_cases h with ⟨vector', built, var_ID, s, time, hvector', hbuild, hsolve, _, hw'⟩
  rw [hvector] at hvector'
  cases hvector'
  have hadd := (buildSolver_spec hbuild).left
  let es := (resize vs.vec_elements_ (vectorSize var_gen vector) w.var_ID).1
  have hlength : es.length = vectorSize var_gen vector := ids_resize_length _ _ _
  have hempty : Terminals.Within (elementDeclarations (ids es) vector.element)
      (MetaSMTVisitor.new env.check).terminals_ := by
    intro i width hi
    cases hi
  have hcopied := copied_addConstraints hcs hempty hadd
  have hids : ids built.vec_elements_ = ids es := (met_addConstraints hadd).left
  have hterminals := terminals_solveTwice hsolve
  -- the elements were all met, so they are read
  have hread : (readVector s vector.element built.vec_elements_).isSome = true := by
    apply (readVector_isSome_iff s vector.element built.vec_elements_).mpr
    intro id hid
    rw [hids] at hid
    unfold MetaSMTVisitor.Met
    rw [hterminals]
    exact met_of_covers hcs (by rw [hlength]; exact hsize) (by rw [hlength]; exact hcovers) hadd id hid
  rcases Option.isSome_iff_exists.mp hread with ⟨contents, hcontents⟩
  have hvector_eq : values.vector vs.vector_id_ = contents := by
    rw [hvalues, hw']
    simp only [if_true, hcontents]
    exact Function.update_self _ _ _
  have hholds := holdsElements_of_readVector hcontents
  have hcount : contents.length = es.length := by
    rw [hholds.length]
    have hsame := congrArg List.length hids
    simpa [ids] using hsame
  have hagree : ElementsAgree values vs.vector_id_ vector.element (ids es) s.model := by
    intro k id bits hid hbits
    rw [hvector_eq] at hbits
    have hlt : k < built.vec_elements_.length := by
      rw [← hholds.length]
      exact (List.getElem?_eq_some_iff.mp hbits).1
    rcases hholds.element k hlt with ⟨var, width, hvar, hwidth, hvalue⟩
    have hvar_id : var.id = id := by
      have hget : (ids built.vec_elements_)[k]? = some var.id := by
        rw [ids, List.getElem?_map, hvar]
        rfl
      rw [hids, hid] at hget
      exact (Option.some.inj hget).symm
    rw [hterminals] at hwidth
    have hdeclared := hcopied.left.within var.id width hwidth
    rw [hvar_id, elementDeclarations, if_pos (List.mem_of_getElem? hid)] at hdeclared
    rw [hbits] at hvalue
    rw [Option.some.inj hvalue, ← Option.some.inj hdeclared, hvar_id, ofNat_setValue]
  rcases exists_body (hcs c hc).right with ⟨body', hexpr', hbody⟩
  rw [hexpr] at hexpr'
  cases hexpr'
  intro i hi node hnode
  rw [hvector_eq, hcount] at hi
  have hcopy := hcopied.right c hc i hi
  rcases hcopy.left with ⟨idx, hidx⟩
  rw [hexpr] at hidx
  have hi' : i < 2 ^ 31 := by
    rw [hlength] at hi
    exact hi.trans hsize
  have hrange := inRange_of_instantiate hbody hi' hnode
  rw [hvector_eq, hcount] at hrange
  have hrange' : InRange (ids es).length (accessed i body) := by
    rw [ids, List.length_map]
    exact hrange
  have hids' : (ids es).length < 2 ^ 31 := by
    rw [ids, List.length_map, hlength]
    exact hsize
  rcases exists_replace (isForeachBody_of_isElementwise hbody) hids' hidx hrange' with
    ⟨copy, hreplace⟩
  have hmem := hcopy.right hhard copy (by rw [hexpr]; exact hreplace)
  have hsat := satisfies_of_solveTwice hsound hsolve _ hmem
  have hcopyHolds : NodeHolds s.model copy :=
    (holds_formula s.model copy).mp ((holds_equalTrue s.model _).mp hsat)
  exact nodeHolds_of_replace hsupported hbody hi' hagree hreplace hnode hcopyHolds

end VectorSolver

end Backend
end Crave
