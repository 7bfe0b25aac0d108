import Crave.Backend.VectorGenerator

/-!
# The size of a solved vector

The solver of a vector reads its elements back only when it has met all of them.
An element is met when it occurs in a copy of a constraint that was handed to
the solver.
-/

namespace Crave
namespace Backend

open Foundation Ir MetaSmt MetaSMTVisitor ReplaceVisitor

namespace MetaSMTVisitor

/-- The identifiers for which an instance has made a variable. -/
def Met (s : MetaSMTVisitor) (id : Nat) : Prop :=
  (s.terminals_ id).isSome = true

theorem not_met_new (check : SortCheck) (id : Nat) : ¬ Met (MetaSMTVisitor.new check) id := by
  intro h
  cases h

theorem met_visitPop {n : Node} {s s' : MetaSMTVisitor} {f : Formula}
    (h : s.visitPop n = .ok (f, s')) (id : Nat) :
    s'.Met id ↔ s.Met id ∨ id ∈ n.supportVars := by
  rcases visitPop_ok h with ⟨entry, terminals_, hvisit, _, _, rfl⟩
  exact isSome_visit hvisit id

end MetaSMTVisitor

namespace VectorSolver

variable {env : Environment} {var_gen : List VariableSolver}

theorem met_assertCopy {soft : Bool} {n : Node} {s s' : MetaSMTVisitor}
    (h : assertCopy soft n s = .ok s') (id : Nat) :
    s'.Met id ↔ s.Met id ∨ id ∈ n.supportVars := by
  cases soft with
  | true =>
      simp only [assertCopy, if_true, makeSoftAssertion] at h
      split at h
      · cases h
      · rename_i f s₁ hpop
        cases h
        exact met_visitPop hpop id
  | false =>
      simp only [assertCopy, Bool.false_eq_true, if_false, makeAssertion] at h
      split at h
      · cases h
      · rename_i f s₁ hpop
        cases h
        exact met_visitPop hpop id

/-!
## Occurrences in the copies
-/

/-- The variable occurs in the copy of a body for a value of the iteration
variable, and every access of the copy is in range. -/
def OccursInCopy (body : Node) (ids : List Nat) (i id : Nat) : Prop :=
  exists node, replace i ids body = some node ∧ id ∈ node.supportVars

/-- The variable occurs in something that a constraint hands to the solver: the
copies of a `foreach`, or the inequations of a `unique` over two elements or
more. -/
def OccursIn (ids : List Nat) (id : Nat) (c : UserConstraint) : Prop :=
  if c.isUnique then
    2 ≤ ids.length ∧ id ∈ ids
  else
    exists i, i < ids.length ∧ OccursInCopy c.expr_ ids i id

def ids (es : List Element) : List Nat :=
  es.map Element.id

theorem met_addCopies {c : UserConstraint} {is : List Nat} {es es' : List Element}
    {s s' : MetaSMTVisitor} (h : addCopies c is es s = .ok (es', s')) :
    ids es' = ids es ∧ forall id, s'.Met id ↔
      s.Met id ∨ exists i, i ∈ is ∧ OccursInCopy c.expr_ (ids es) i id := by
  induction is generalizing es s with
  | nil =>
      cases h
      refine ⟨rfl, fun id => ?_⟩
      simp
  | cons i rest ih =>
      rcases bind_eq_ok.mp h with ⟨⟨node, idx, st⟩, hvisit, h⟩
      have hvisited := visit_spec hvisit
      have hids : ids st.variables_ = ids es := hvisited.ids_eq
      rcases hvisited.replaced with ⟨b, hokay, hreplace⟩
      have hokay' : st.okay_ = b := by simpa using hokay
      have hreplace' : replace i (ids es) c.expr_ = if b then some node else none := hreplace
      simp only [hokay'] at h
      cases b with
      | true =>
          rcases bind_eq_ok.mp h with ⟨s₁, hassert, h⟩
          rcases ih h with ⟨hids', hmet⟩
          refine ⟨hids'.trans hids, fun id => ?_⟩
          have hcopy : OccursInCopy c.expr_ (ids es) i id ↔ id ∈ node.supportVars := by
            unfold OccursInCopy
            rw [hreplace']
            simp
          rw [hmet, met_assertCopy hassert, hids]
          simp only [List.mem_cons, exists_eq_or_imp, hcopy, or_assoc]
      | false =>
          rcases ih h with ⟨hids', hmet⟩
          refine ⟨hids'.trans hids, fun id => ?_⟩
          have hcopy : ¬ OccursInCopy c.expr_ (ids es) i id := by
            rintro ⟨n, hn, -⟩
            rw [hreplace'] at hn
            cases hn
          rw [hmet, hids]
          simp only [List.mem_cons, exists_eq_or_imp, hcopy, false_or]

theorem met_addPairs {c : UserConstraint} {ps : List (Element × Element)}
    {s s' : MetaSMTVisitor} (h : addPairs c ps s = .ok s') (id : Nat) :
    s'.Met id ↔ s.Met id ∨ exists p, p ∈ ps ∧ (id = p.1.id ∨ id = p.2.id) := by
  induction ps generalizing s with
  | nil =>
      cases h
      simp
  | cons pair rest ih =>
      rcases pair with ⟨fst, snd⟩
      rcases bind_eq_ok.mp h with ⟨s₁, hassert, h⟩
      have hnode : id ∈ (Node.binaryOpr .notEqualOpr fst.toNode snd.toNode).supportVars ↔
          id = fst.id ∨ id = snd.id := by
        simp [Node.supportVars, Element.toNode]
      rw [ih h, met_assertCopy hassert, hnode, or_assoc]
      simp only [List.mem_cons, exists_eq_or_imp]

theorem exists_pair_iff (es : List Element) (id : Nat) :
    (exists p, p ∈ pairs es ∧ (id = p.1.id ∨ id = p.2.id)) ↔
      2 ≤ (ids es).length ∧ id ∈ ids es := by
  induction es with
  | nil => simp [pairs, ids]
  | cons var rest ih =>
      cases rest with
      | nil => simp [pairs, ids]
      | cons other rest =>
          constructor
          · rintro ⟨p, hp, hid⟩
            refine ⟨by simp [ids], ?_⟩
            rw [pairs, List.mem_append, List.mem_map] at hp
            rcases hp with ⟨o, ho, rfl⟩ | hp
            · rcases hid with rfl | rfl
              · exact List.mem_cons_self
              · exact List.mem_cons_of_mem _ (List.mem_map_of_mem ho)
            · exact List.mem_cons_of_mem _ (ih.mp ⟨p, hp, hid⟩).2
          · rintro ⟨-, hmem⟩
            rcases List.mem_cons.mp hmem with rfl | hmem
            · refine ⟨(var, other), ?_, Or.inl rfl⟩
              rw [pairs, List.mem_append]
              exact Or.inl (List.mem_map_of_mem List.mem_cons_self)
            · rcases List.mem_map.mp hmem with ⟨o, ho, rfl⟩
              refine ⟨(var, o), ?_, Or.inr rfl⟩
              rw [pairs, List.mem_append]
              exact Or.inl (List.mem_map_of_mem ho)

theorem met_addConstraints {cs : List UserConstraint} {es es' : List Element}
    {s s' : MetaSMTVisitor} (h : addConstraints cs es s = .ok (es', s')) :
    ids es' = ids es ∧ forall id, s'.Met id ↔
      s.Met id ∨ exists c, c ∈ cs ∧ OccursIn (ids es) id c := by
  induction cs generalizing es s with
  | nil =>
      cases h
      refine ⟨rfl, fun id => ?_⟩
      simp
  | cons c rest ih =>
      unfold addConstraints at h
      split at h
      · rename_i hunique
        rcases bind_eq_ok.mp h with ⟨s₁, hpairs, h⟩
        rcases ih h with ⟨hids, hmet⟩
        refine ⟨hids, fun id => ?_⟩
        have hoccurs : OccursIn (ids es) id c ↔ 2 ≤ (ids es).length ∧ id ∈ ids es := by
          rw [OccursIn, if_pos hunique]
        rw [hmet, met_addPairs hpairs, exists_pair_iff, or_assoc, ← hoccurs]
        simp only [List.mem_cons, exists_eq_or_imp]
      · rename_i hunique
        rcases bind_eq_ok.mp h with ⟨⟨es₁, s₁⟩, hcopies, h⟩
        rcases met_addCopies hcopies with ⟨hids₁, hmet₁⟩
        rcases ih h with ⟨hids, hmet⟩
        refine ⟨hids.trans hids₁, fun id => ?_⟩
        have hoccurs : OccursIn (ids es) id c ↔
            exists i, i ∈ List.range es.length ∧ OccursInCopy c.expr_ (ids es) i id := by
          rw [OccursIn, if_neg hunique]
          simp [ids]
        rw [hmet, hmet₁, hids₁, or_assoc, ← hoccurs]
        simp only [List.mem_cons, exists_eq_or_imp]

/-!
## Reading back
-/

/-- The vector has the given size and holds the value of each element variable. -/
structure HoldsElements (d : VarDecl) (s : MetaSMTVisitor) (es : List Element) (size : Nat)
    (values : List Nat) : Prop where
  length : values.length = size
  element : forall k, k < size -> exists var width, es[k]? = some var ∧
    s.terminals_ var.id = some width ∧
    values[k]? = some (setValue d width (s.model (.terminal var.id)))

theorem holdsElements_of_readVector {d : VarDecl} {s : MetaSMTVisitor} {es : List Element}
    {values : List Nat} (h : readVector s d es = some values) :
    HoldsElements d s es es.length values := by
  induction es generalizing values with
  | nil =>
      cases h
      exact ⟨rfl, fun k hk => absurd hk (Nat.not_lt_zero k)⟩
  | cons var rest ih =>
      unfold readVector at h
      split at h
      · rename_i width vals hwidth hrest
        cases h
        rcases ih hrest with ⟨hlength, helement⟩
        refine ⟨congrArg Nat.succ hlength, fun k hk => ?_⟩
        cases k with
        | zero => exact ⟨var, width, rfl, hwidth, rfl⟩
        | succ k => exact helement k (Nat.lt_of_succ_lt_succ hk)
      · cases h

theorem readVector_isSome_iff (s : MetaSMTVisitor) (d : VarDecl) (es : List Element) :
    (readVector s d es).isSome = true ↔ forall id, id ∈ ids es -> s.Met id := by
  induction es with
  | nil => simp [readVector, ids]
  | cons var rest ih =>
      have hcons : (forall id, id ∈ ids (var :: rest) -> s.Met id) ↔
          s.Met var.id ∧ forall id, id ∈ ids rest -> s.Met id := by
        simp [ids]
      rw [hcons, ← ih]
      simp only [readVector, MetaSMTVisitor.Met]
      cases s.terminals_ var.id with
      | none => simp
      | some width =>
          cases readVector s d rest with
          | none => simp
          | some values => simp

theorem met_solve {s s' : MetaSMTVisitor} {time time' : Nat} {result : Bool}
    (h : solveTwice env s time = (result, s', time')) (id : Nat) : s'.Met id ↔ s.Met id := by
  unfold solveTwice at h
  cases hfirst : s.solve env.solver env.random false time with
  | mk r p =>
      rcases p with ⟨s₁, time₁⟩
      have hframe := MetaSMTVisitor.solve_frame hfirst
      have hmet₁ : s₁.Met id ↔ s.Met id := by
        unfold MetaSMTVisitor.Met
        rw [hframe]
      simp only [hfirst] at h
      cases r with
      | true =>
          cases h
          exact hmet₁
      | false =>
          have hframe' := MetaSMTVisitor.solve_frame h
          rw [← hmet₁]
          unfold MetaSMTVisitor.Met
          rw [hframe']

theorem ids_resize_length (es : List Element) (size var_ID : Nat) :
    (resize es size var_ID).1.length = size := by
  have hnew : forall n var_ID, (newElements var_ID n).length = n := by
    intro n
    induction n with
    | zero => exact fun _ => rfl
    | succ n ih => exact fun var_ID => congrArg Nat.succ (ih _)
  simp only [resize, List.length_append, List.length_take, hnew]
  omega

/-- After a call the elements can be read exactly when each occurs in something that was
handed to the solver. -/
theorem readVector_isSome_solve_iff {vs vs' : VectorSolver} {w w' : World} {vector : RandVec}
    {result : Bool} (hvector : env.vectorBaseMap vs.vector_id_ = some vector)
    (h : vs.solve env var_gen w = .ok (result, vs', w')) :
    (readVector vs'.solver_ vector.element vs'.vec_elements_).isSome = true ↔
      forall id,
        id ∈ ids (resize vs.vec_elements_ (vectorSize var_gen vector) w.var_ID).1 ->
          exists c, c ∈ vs.constraints_ ∧
            OccursIn (ids (resize vs.vec_elements_ (vectorSize var_gen vector) w.var_ID).1) id
              c := by
  rcases solve_cases h with
    ⟨vector', built, var_ID, s, time, hvector', hbuild, hsolve, rfl, _⟩
  rw [hvector] at hvector'
  cases hvector'
  rcases buildSolver_spec hbuild with ⟨hadd, -, -⟩
  rcases met_addConstraints hadd with ⟨hids, hmet⟩
  rw [readVector_isSome_iff]
  show (forall id, id ∈ ids built.vec_elements_ -> s.Met id) ↔ _
  rw [hids]
  refine forall_congr' fun id => imp_congr_right fun _ => ?_
  rw [met_solve hsolve, hmet]
  constructor
  · rintro (hnew | hc)
    · exact absurd hnew (not_met_new _ id)
    · exact hc
  · exact Or.inr

/-- After a call that succeeds, the vector has the requested size and holds the
values of its element variables exactly when every element occurs in something
that was handed to the solver. -/
theorem holdsElements_iff {vs vs' : VectorSolver} {w w' : World} {vector : RandVec}
    (hvector : env.vectorBaseMap vs.vector_id_ = some vector)
    (h : vs.solve env var_gen w = .ok (true, vs', w')) :
    HoldsElements vector.element vs'.solver_ vs'.vec_elements_ (vectorSize var_gen vector)
        (w'.vectors vs.vector_id_) ↔
      forall id,
        id ∈ ids (resize vs.vec_elements_ (vectorSize var_gen vector) w.var_ID).1 ->
          exists c, c ∈ vs.constraints_ ∧
            OccursIn (ids (resize vs.vec_elements_ (vectorSize var_gen vector) w.var_ID).1) id
              c := by
  rw [← readVector_isSome_solve_iff hvector h]
  rcases solve_cases h with
    ⟨vector', built, var_ID, s, time, hvector', hbuild, hsolve, rfl, rfl⟩
  rw [hvector] at hvector'
  cases hvector'
  have hlength : built.vec_elements_.length = vectorSize var_gen vector := by
    have hsame := congrArg List.length (met_addConstraints (buildSolver_spec hbuild).1).1
    simpa [ids, ids_resize_length] using hsame
  simp only [if_true]
  cases hread : readVector s vector.element built.vec_elements_ with
  | some values =>
      change HoldsElements _ _ _ _
        (Function.update w.vectors vs.vector_id_ values vs.vector_id_) ↔ _
      rw [Function.update_self, ← hlength]
      exact ⟨fun _ => rfl, fun _ => holdsElements_of_readVector hread⟩
  | none =>
      constructor
      · intro hholds
        -- every element has a solver variable, so the vector could have been read
        rw [← hread, readVector_isSome_iff]
        intro id hid
        rcases List.mem_map.mp hid with ⟨var, hvar, rfl⟩
        rcases List.mem_iff_getElem?.mp hvar with ⟨k, hk⟩
        have hlt : k < vectorSize var_gen vector := by
          rw [← hlength]
          exact (List.getElem?_eq_some_iff.mp hk).1
        rcases hholds.element k hlt with ⟨var', width, hvar', hwidth, -⟩
        have heq : some var = some var' := hk.symm.trans hvar'
        cases heq
        unfold MetaSMTVisitor.Met
        rw [hwidth]
        rfl
      · intro hnone
        cases hnone

/-!
## A size that is not reached
-/

/-- A `foreach` over vector 2 that compares every element with another one, made
hard under the name of its vector. -/
def comparing (subscript : Node) : UserConstraint :=
  let v : Node := .vectorExpr 2 32 false
  let body : Node := .forEach v (.binaryOpr .equalOpr (.vectorAccess v (.placeholder 0))
    (.vectorAccess v subscript))
  { id_ := 1
    expr_ := FixWidthVisitor.fixWidth body
    name_ := "c"
    support_vars_ := {2}
    unique_ := some false
    soft_ := false
    cover_ := false
    enabled_ := true
    complexity_ := 0 }

/-- A backend in which variable 1 is the size of vector 2. -/
def sizedEnvironment : Environment :=
  { Environment.simple (Oracle.ofModel fun _ => 0) id with
    vectorBaseMap := Function.update (fun _ => none) 2
      (some { size_var := 1, element := ⟨32, false⟩ }) }

/-- The solver of a partition that has given the size the value one. -/
def sizeOne : VariableSolver :=
  { var_ctn_ := VariableContainer.ofReferences ⟨32, false⟩ (by decide) [] [1]
      VariableContainer.nodup_write_one
    constr_pttn_ :=
      { constraints_ := [], support_vars_ := {1}, singleVariableConstraintMap_ := fun _ => [] }
    solver_ := { MetaSMTVisitor.new .strict with
      terminals_ := Function.update (fun _ => none) 1 (some 32)
      model := fun _ => 1 }
    contradictions_ := []
    inactive_softs_ := [] }

theorem holdsElements_iff_same :
    let vs := (VectorSolver.new 2).addConstraint (comparing (.placeholder 0))
    let w : World :=
      { memory := fun _ => 0, vectors := fun _ => [], time := 0, var_ID := 2, constraint_ID := 1 }
    exists vs' w', vs.solve sizedEnvironment [] w = .ok (true, vs', w') ∧
      (HoldsElements ⟨32, false⟩ vs'.solver_ vs'.vec_elements_ 5 (w'.vectors 2) ↔
        forall id, id ∈ [3, 4, 5, 6, 7] ->
          exists c, c ∈ vs.constraints_ ∧ OccursIn [3, 4, 5, 6, 7] id c) := by
  intro vs w
  have hresult : (vs.solve sizedEnvironment [] w).toOption.any (fun r => r.1) = true := by
    decide +kernel
  rcases exists_of_any hresult with ⟨⟨result, vs', w'⟩, hok, htrue⟩
  have htrue' : result = true := htrue
  subst htrue'
  exact ⟨vs', w', hok, holdsElements_iff rfl hok⟩

/-- Every element is compared with the one before it, and the size is one: no
copy is in range, and the vector is left as it was. -/
theorem size_not_reached :
    ¬ forall (env : Environment) (var_gen : List VariableSolver) (vs vs' : VectorSolver)
        (w w' : World) (vector : RandVec),
      env.vectorBaseMap vs.vector_id_ = some vector ->
        vs.solve env var_gen w = .ok (true, vs', w') ->
          HoldsElements vector.element vs'.solver_ vs'.vec_elements_ (vectorSize var_gen vector)
            (w'.vectors vs.vector_id_) := by
  intro hclaim
  let vs := (VectorSolver.new 2).addConstraint
    (comparing (.binaryOpr .minusOpr (.placeholder 0) (.constant ⟨1, 1, false⟩)))
  let w : World :=
    { memory := fun _ => 0, vectors := fun _ => [], time := 0, var_ID := 2, constraint_ID := 1 }
  have hresult : (vs.solve sizedEnvironment [sizeOne] w).toOption.any
      (fun r => r.1 && r.2.2.vectors 2 == []) = true := by
    decide +kernel
  rcases exists_of_any hresult with ⟨⟨result, vs', w'⟩, hok, htest⟩
  rcases Bool.and_eq_true_iff.mp htest with ⟨htrue, hempty⟩
  have htrue' : result = true := htrue
  subst htrue'
  have hlength := (hclaim sizedEnvironment [sizeOne] vs vs' w w' _ rfl hok).length
  have hempty' : w'.vectors 2 = [] := eq_of_beq hempty
  have hsize : vectorSize [sizeOne] { size_var := 1, element := ⟨32, false⟩ } = 1 := by decide
  rw [hsize] at hlength
  change (w'.vectors 2).length = 1 at hlength
  rw [hempty'] at hlength
  cases hlength

end VectorSolver
end Backend
end Crave
