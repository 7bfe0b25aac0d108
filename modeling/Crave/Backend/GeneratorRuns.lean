import Crave.Backend.GeneratorCache

/-!
# Runs of a generator

A standalone generator is used by operations in any order.  The invariant of its
runs ties the name map, the constraint list, the flag of the manager and the
solvers together.
-/

namespace Crave
namespace Backend

open Foundation Ir

namespace Generator

open VectorGenerator (contents)

inductive Operation where
  | makeConstraint (name : Option String) (e : Node) (soft cover : Bool)
  | enableConstraint (name : String)
  | disableConstraint (name : String)
  | next
  | nextCov
  | resetCoverage
  | enable_multithreading

/-- Expressions are built by the context over the declared variables. -/
def Operation.Over (vcon : VariableContainer) : Operation -> Prop
  | .makeConstraint _ e _ _ => Context.Builds vcon.variables_ vcon.vector_variables e
  | _ => True

/-- The value of an operation that yields none counts as true. -/
def toBool : Outcome Unit -> Outcome Bool
  | (.ok (), g, w) => (.ok true, g, w)
  | (.error e, g, w) => (.error e, g, w)

def perform (env : Environment) (vcon : VariableContainer) (g : Generator) (w : World) :
    Operation -> Outcome Bool
  | .makeConstraint name e soft cover => toBool (makeConstraint g name e soft cover w)
  | .enableConstraint name => (.ok (enableConstraint g name).1, (enableConstraint g name).2, w)
  | .disableConstraint name => (.ok (disableConstraint g name).1, (disableConstraint g name).2, w)
  | .next => next env vcon g w
  | .nextCov => nextCov env vcon g w
  | .resetCoverage => toBool ((resetCoverage env vcon g).1, (resetCoverage env vcon g).2, w)
  | .enable_multithreading => toBool (enable_multithreading env vcon g w)

/-- An operation that ends normally, an addition that is rejected, or anything
that happens outside of the generator; constraint identifiers are never given
back. -/
inductive Step (env : Environment) (vcon : VariableContainer) :
    Generator -> World -> Generator -> World -> Prop where
  | perform {g g' : Generator} {w w' : World} (op : Operation) (result : Bool)
      (hover : op.Over vcon) (h : perform env vcon g w op = (.ok result, g', w')) :
      Step env vcon g w g' w'
  | rejected {g g' : Generator} {w w' : World} (name : Option String) (e : Node)
      (soft cover : Bool) (what : String)
      (h : makeConstraint g name e soft cover w = (.error what, g', w')) :
      Step env vcon g w g' w'
  | outside {g : Generator} {w w' : World} (h : w.constraint_ID ≤ w'.constraint_ID) :
      Step env vcon g w g w'

inductive Reachable (env : Environment) (vcon : VariableContainer) :
    Generator -> World -> Prop where
  | new (w : World) : Reachable env vcon Generator.new w
  | step {g g' : Generator} {w w' : World} (before : Reachable env vcon g w)
      (h : Step env vcon g w g' w') : Reachable env vcon g' w'

/-- The operations that start no threads. -/
def Operation.Sequential : Operation -> Prop
  | .enable_multithreading => False
  | _ => True

/-- A generator that was used in any way: the operations end normally or throw, and anything
may happen outside of it.  An exception of the vectors leaves their solvers with elements of
the call that was interrupted. -/
inductive Used (env : Environment) (vcon : VariableContainer) (allowed : Operation -> Prop) :
    Generator -> World -> Prop where
  | new (w : World) : Used env vcon allowed Generator.new w
  | perform {g g' : Generator} {w w' : World} (before : Used env vcon allowed g w)
      (op : Operation) (hover : op.Over vcon) (hallowed : allowed op)
      (result : Except String Bool) (h : perform env vcon g w op = (result, g', w')) :
      Used env vcon allowed g' w'
  | interrupted {g : Generator} {w : World} (before : Used env vcon allowed g w)
      (vec_gen_ : VectorGenerator)
      (h : VectorGenerator.contents vec_gen_.vector_solvers_ =
        VectorGenerator.contents g.vec_gen_.vector_solvers_) :
      Used env vcon allowed { g with vec_gen_ := vec_gen_ } w
  | outside {g : Generator} {w w' : World} (before : Used env vcon allowed g w)
      (h : w.constraint_ID ≤ w'.constraint_ID) : Used env vcon allowed g w'

/-!
## The invariant
-/

/-- The constraints of a manager are over declared variables, and their
identifiers were given out one after the other. -/
structure Owned (vcon : VariableContainer) (mng : ConstraintManager) (w : World) : Prop where
  consistent : mng.Consistent
  wellMade : WellMade vcon mng.constraints_
  bound : forall c, c ∈ mng.constraints_ -> c.id_ ≤ w.constraint_ID

structure Invariant (vcon : VariableContainer) (g : Generator) (w : World) : Prop where
  owned : Owned vcon g.constr_mng_ w
  cached : g.isChanged = false ->
    BuiltFor vcon (scalarConstraints g.constr_mng_) (vectorConstraints g.constr_mng_) g

section Invariant

variable {env : Environment} {vcon : VariableContainer} {g g' : Generator} {w w' : World}
  {mng mng' : ConstraintManager}

theorem Owned.mono (h : Owned vcon mng w) (hle : w.constraint_ID ≤ w'.constraint_ID) :
    Owned vcon mng w' :=
  ⟨h.consistent, h.wellMade, fun c hc => (h.bound c hc).trans hle⟩

theorem Owned.resetChanged (h : Owned vcon mng w) : Owned vcon mng.resetChanged w :=
  ⟨h.consistent, h.wellMade, h.bound⟩

theorem Owned.scalars (h : Owned vcon mng w) : WellMade vcon (scalarConstraints mng) :=
  h.wellMade.sublist (List.filter_sublist.trans List.filter_sublist)

theorem Owned.makeConstraint (h : Owned vcon mng w) {name : String} {n : Node}
    {soft cover : Bool} (hn : n.DeclaredIn vcon.variables_)
    (hm : mng.makeConstraint name (w.constraint_ID + 1) n soft cover = .ok mng')
    (hle : w.constraint_ID + 1 ≤ w'.constraint_ID) : Owned vcon mng' w' := by
  have hconsistent := h.consistent.makeConstraint hm
  rcases ConstraintManager.makeConstraint_spec hm with ⟨-, c, rfl, hid, hexpr, -, hsupport, -⟩
  refine ⟨hconsistent, ⟨?_, ?_⟩, ?_⟩
  · simp only [ConstraintPartitioner.ids, List.map_append, List.map_cons, List.map_nil]
    rw [List.nodup_append]
    refine ⟨h.wellMade.ids, List.nodup_singleton _, ?_⟩
    intro i hi j hj heq
    rcases List.mem_map.mp hi with ⟨d, hd, rfl⟩
    have hbound := h.bound d hd
    rw [heq, List.mem_singleton.mp hj, hid] at hbound
    exact absurd hbound (Nat.not_succ_le_self _)
  · intro d hd
    rcases List.mem_append.mp hd with hd | hd
    · exact h.wellMade.made d hd
    · rw [List.mem_singleton.mp hd]
      refine ⟨?_, ?_⟩
      · rw [hexpr]
        exact hn
      · rw [hexpr, hsupport]
  · intro d hd
    rcases List.mem_append.mp hd with hd | hd
    · exact (h.bound d hd).trans ((Nat.le_succ _).trans hle)
    · rw [List.mem_singleton.mp hd, hid]
      exact hle

theorem Owned.setEnabled (h : Owned vcon mng w) {i : Nat} {c : UserConstraint}
    (hc : mng.constraints_[i]? = some c) (enabled : Bool) :
    Owned vcon (mng.setEnabled i c enabled) w := by
  have hmem : c ∈ mng.constraints_ := List.mem_of_getElem? hc
  have hcases : forall d, d ∈ (mng.setEnabled i c enabled).constraints_ ->
      d ∈ mng.constraints_ ∨ d = { c with enabled_ := enabled } := by
    intro d hd
    exact List.mem_or_eq_of_mem_set hd
  refine ⟨h.consistent.setEnabled hc enabled, ⟨?_, ?_⟩, ?_⟩
  · unfold ConstraintPartitioner.ids
    rw [ConstraintManager.map_setEnabled UserConstraint.id_ (fun _ _ => rfl) hc]
    exact h.wellMade.ids
  · intro d hd
    rcases hcases d hd with hd | rfl
    · exact h.wellMade.made d hd
    · exact ⟨(h.wellMade.made c hmem).declared, (h.wellMade.made c hmem).support⟩
  · intro d hd
    rcases hcases d hd with hd | rfl
    · exact h.bound d hd
    · exact h.bound c hmem

theorem Invariant.new (w : World) : Invariant vcon Generator.new w := by
  refine ⟨⟨ConstraintManager.consistent_new, ⟨List.nodup_nil, ?_⟩, ?_⟩, fun _ => ?_⟩
  · intro c hc
    cases hc
  · intro c hc
    cases hc
  · refine ⟨?_, rfl, rfl, List.Forall₂.nil, List.Forall₂.nil, rfl⟩
    change [] = ConstraintPartitioner.partition []
    rw [ConstraintPartitioner.partition]

theorem Invariant.mono (h : Invariant vcon g w) (hle : w.constraint_ID ≤ w'.constraint_ID) :
    Invariant vcon g w' :=
  ⟨h.owned.mono hle, h.cached⟩

theorem Invariant.setManager (h : Owned vcon mng' w') (hchanged : mng'.changed_ = true) :
    Invariant vcon { g with constr_mng_ := mng' } w' := by
  refine ⟨h, fun hcontra => ?_⟩
  change mng'.changed_ = false at hcontra
  rw [hchanged] at hcontra
  cases hcontra

theorem Invariant.setEnabled (h : Invariant vcon g w) {mng' : ConstraintManager} {enabled : Bool}
    (hcases : mng' = g.constr_mng_ ∨ exists i c, g.constr_mng_.constraints_[i]? = some c ∧
      mng' = g.constr_mng_.setEnabled i c enabled) :
    Invariant vcon { g with constr_mng_ := mng' } w := by
  rcases hcases with rfl | ⟨i, c, hc, rfl⟩
  · exact h
  · exact Invariant.setManager (h.owned.setEnabled hc enabled) rfl

theorem rebuild_self_spec (howned : Owned vcon g.constr_mng_ w)
    (h : rebuild env vcon true (reset env vcon g) w = (.ok (), g', w')) :
    BuiltFor vcon (scalarConstraints g.constr_mng_) (vectorConstraints g.constr_mng_) g' ∧
      (forall vs, vs ∈ g'.var_cov_gen_.solvers_ -> vs.covered_set_ = ∅) ∧
      g'.constr_mng_ = g.constr_mng_.resetChanged ∧ g'.covered_ = false ∧
      w' = { w with time := w'.time } := by
  have hmade : WellMade vcon (scalarConstraints g.constr_mng_) := howned.scalars
  rcases rebuild_spec (by rfl) 
    (by rfl) (by rfl) hmade h with
    ⟨hbuilt, hempty, hmng, hcovered, -, hw⟩
  exact ⟨hbuilt, hempty, hmng, hcovered, hw⟩

theorem update_spec (hinv : Invariant vcon g w)
    (h : update env vcon g w = (.ok (), g', w')) :
    BuiltFor vcon (scalarConstraints g.constr_mng_) (vectorConstraints g.constr_mng_) g' ∧
      g'.constr_mng_ = g.constr_mng_.resetChanged ∧ w' = { w with time := w'.time } := by
  unfold update at h
  split at h
  · rcases rebuild_self_spec hinv.owned h with ⟨hbuilt, -, hmng, -, hw⟩
    exact ⟨hbuilt, hmng, hw⟩
  · rename_i hchanged
    cases h
    have hfalse : g.isChanged = false := by simpa using hchanged
    have hflag : g.constr_mng_.changed_ = false := hfalse
    refine ⟨hinv.cached hfalse, ?_, rfl⟩
    rw [ConstraintManager.resetChanged, ← hflag]

theorem Invariant.of_kept (howned : Owned vcon g.constr_mng_ w)
    (hkept : Kept vcon (scalarConstraints g.constr_mng_) (vectorConstraints g.constr_mng_) g g'
      w w') : Invariant vcon g' w' := by
  refine ⟨?_, fun _ => ?_⟩
  · rw [hkept.constr_mng]
    exact howned.mono (Nat.le_of_eq hkept.constraint_ID.symm)
  · rw [hkept.constr_mng]
    exact hkept.built

/-!
## The course of a call
-/

theorem next_of_unchanged (h : g.isChanged = false) : next env vcon g w = solve env g w := by
  unfold next update
  rw [h]
  rfl

theorem next_cases {result : Bool} (h : next env vcon g w = (.ok result, g', w')) :
    exists g₁ w₁, update env vcon g w = (.ok (), g₁, w₁) ∧
      solve env g₁ w₁ = (.ok result, g', w') := by
  unfold next at h
  split at h
  · cases h
  · rename_i g₁ w₁ hupdate
    exact ⟨g₁, w₁, hupdate, h⟩

theorem nextCov_cases {result : Bool} (h : nextCov env vcon g w = (.ok result, g', w')) :
    exists g₁ w₁, update env vcon g w = (.ok (), g₁, w₁) ∧
      ((g₁.covered_ = true ∧ next env vcon g₁ w₁ = (.ok result, g', w')) ∨
        (g₁.covered_ = false ∧ result = true ∧
          solveCoverage env g₁ w₁ = (.ok true, g', w')) ∨
        (g₁.covered_ = false ∧ exists g₂ w₂, solveCoverage env g₁ w₁ = (.ok false, g₂, w₂) ∧
          next env vcon { g₂ with covered_ := true } w₂ = (.ok result, g', w'))) := by
  unfold nextCov at h
  split at h
  · cases h
  · rename_i g₁ w₁ hupdate
    refine ⟨g₁, w₁, hupdate, ?_⟩
    split at h
    · rename_i hcovered
      exact Or.inl ⟨hcovered, h⟩
    · rename_i hcovered
      have hcovered' : g₁.covered_ = false := by simpa using hcovered
      split at h
      · cases h
      · rename_i g₂ w₂ hsolve
        cases h
        exact Or.inr (Or.inl ⟨hcovered', rfl, hsolve⟩)
      · rename_i g₂ w₂ hsolve
        exact Or.inr (Or.inr ⟨hcovered', g₂, w₂, hsolve, h⟩)

/-- After an update the generator is built for the enabled constraints, and
nothing has changed since. -/
theorem invariant_update (hinv : Invariant vcon g w)
    (h : update env vcon g w = (.ok (), g', w')) :
    Invariant vcon g' w' ∧ g'.isChanged = false ∧
      BuiltFor vcon (scalarConstraints g'.constr_mng_) (vectorConstraints g'.constr_mng_) g' := by
  rcases update_spec hinv h with ⟨hbuilt, hmng, hw⟩
  have hbuilt' : BuiltFor vcon (scalarConstraints g'.constr_mng_)
      (vectorConstraints g'.constr_mng_) g' := by
    rw [hmng]
    exact hbuilt
  refine ⟨⟨?_, fun _ => hbuilt'⟩, ?_, hbuilt'⟩
  · rw [hmng, hw]
    exact hinv.owned.resetChanged.mono (Nat.le_refl _)
  · rw [isChanged, hmng]
    rfl

theorem invariant_solve (hinv : Invariant vcon g w) (hunchanged : g.isChanged = false)
    {result : Except String Bool} (h : solve env g w = (result, g', w')) :
    Invariant vcon g' w' :=
  Invariant.of_kept hinv.owned (kept_solve (hinv.cached hunchanged) h)

theorem invariant_solveCoverage (hinv : Invariant vcon g w) (hunchanged : g.isChanged = false)
    {result : Except String Bool} (h : solveCoverage env g w = (result, g', w')) :
    Invariant vcon g' w' ∧ g'.isChanged = false := by
  have hbuilt := hinv.cached hunchanged
  have hps : Separated vcon g.constr_pttn_.partitions_ := by
    rw [hbuilt.partitions]
    exact hinv.owned.scalars.separated
  have hkept := kept_solveCoverage hbuilt hps h
  refine ⟨Invariant.of_kept hinv.owned hkept, ?_⟩
  rw [isChanged, hkept.constr_mng]
  exact hunchanged

theorem invariant_next (hinv : Invariant vcon g w) {result : Bool}
    (h : next env vcon g w = (.ok result, g', w')) : Invariant vcon g' w' := by
  rcases next_cases h with ⟨g₁, w₁, hupdate, hsolve⟩
  rcases invariant_update hinv hupdate with ⟨hinv₁, hunchanged, -⟩
  exact invariant_solve hinv₁ hunchanged hsolve

theorem Invariant.setCovered (h : Invariant vcon g w) (covered : Bool) :
    Invariant vcon { g with covered_ := covered } w := by
  refine ⟨h.owned, fun hunchanged => ?_⟩
  exact (h.cached hunchanged).setCovered covered

theorem invariant_nextCov (hinv : Invariant vcon g w) {result : Bool}
    (h : nextCov env vcon g w = (.ok result, g', w')) : Invariant vcon g' w' := by
  rcases nextCov_cases h with ⟨g₁, w₁, hupdate, hcases⟩
  rcases invariant_update hinv hupdate with ⟨hinv₁, hunchanged, -⟩
  rcases hcases with ⟨-, hnext⟩ | ⟨-, -, hsolve⟩ | ⟨-, g₂, w₂, hsolve, hnext⟩
  · exact invariant_next hinv₁ hnext
  · exact (invariant_solveCoverage hinv₁ hunchanged hsolve).1
  · have hinv₂ := (invariant_solveCoverage hinv₁ hunchanged hsolve).1
    exact invariant_next (hinv₂.setCovered true) hnext

theorem invariant_resetCoverage (hinv : Invariant vcon g w)
    (h : resetCoverage env vcon g = (.ok (), g')) : Invariant vcon g' w := by
  have hframe := resetCoverage_spec h
  have hmng : g'.constr_mng_ = g.constr_mng_ := by rw [hframe]
  refine ⟨by rw [hmng]; exact hinv.owned, fun hunchanged => ?_⟩
  rw [isChanged, hmng] at hunchanged
  have hbuilt := hinv.cached hunchanged
  have hps : Separated vcon g.constr_pttn_.partitions_ := by
    rw [hbuilt.partitions]
    exact hinv.owned.scalars.separated
  rw [hmng]
  exact (hbuilt.resetCoverage hps h).1

theorem toBool_ok {x : Outcome Unit} {result : Bool} (h : toBool x = (.ok result, g', w')) :
    x = (.ok (), g', w') := by
  rcases x with ⟨r, g, w⟩
  cases r with
  | error e => cases h
  | ok u =>
      cases h
      rfl

theorem makeConstraint_ok {name : Option String} {e : Node} {soft cover : Bool}
    (h : makeConstraint g name e soft cover w = (.ok (), g', w')) :
    exists mng', g.constr_mng_.makeConstraint
        (name.getD ("constraint_" ++ toString (w.constraint_ID + 1))) (w.constraint_ID + 1)
        (FixWidthVisitor.fixWidth e) soft cover = .ok mng' ∧
      g' = { g with constr_mng_ := mng' } ∧
      w' = { w with constraint_ID := w.constraint_ID + 1 } := by
  unfold makeConstraint at h
  simp only at h
  split at h
  · cases h
  · rename_i mng' hmake
    cases h
    exact ⟨mng', hmake, rfl, rfl⟩

/-- An addition that is rejected leaves the generator as it was. -/
theorem makeConstraint_error {name : Option String} {e : Node} {soft cover : Bool}
    {what : String} (h : makeConstraint g name e soft cover w = (.error what, g', w')) :
    g' = g ∧ w' = { w with constraint_ID := w.constraint_ID + 1 } := by
  unfold makeConstraint at h
  simp only at h
  split at h
  · cases h
    exact ⟨rfl, rfl⟩
  · cases h

theorem invariant_perform (hinv : Invariant vcon g w) {op : Operation} (hop : op.Over vcon)
    {result : Bool} (h : perform env vcon g w op = (.ok result, g', w')) :
    Invariant vcon g' w' := by
  cases op with
  | makeConstraint name e soft cover =>
      rcases makeConstraint_ok (toBool_ok h) with ⟨mng', hmake, rfl, rfl⟩
      have howned : Owned vcon mng' { w with constraint_ID := w.constraint_ID + 1 } :=
        hinv.owned.makeConstraint (Context.Builds.declaredIn hop).fixWidth hmake (Nat.le_refl _)
      rcases ConstraintManager.makeConstraint_spec hmake with ⟨-, c, hmng, -⟩
      exact Invariant.setManager howned (by rw [hmng])
  | enableConstraint name =>
      cases h
      exact hinv.setEnabled (ConstraintManager.enableConstraint_cases g.constr_mng_ name)
  | disableConstraint name =>
      cases h
      exact hinv.setEnabled (ConstraintManager.disableConstraint_cases g.constr_mng_ name)
  | next => exact invariant_next hinv h
  | nextCov => exact invariant_nextCov hinv h
  | resetCoverage =>
      have hreset := toBool_ok h
      cases hpair : resetCoverage env vcon g with
      | mk outcome g₁ =>
          rw [hpair] at hreset
          cases hreset
          exact invariant_resetCoverage hinv hpair
  | enable_multithreading =>
      have hrebuild := toBool_ok h
      rcases rebuild_self_spec (g := { g with var_gen_ := VariableGenerator.new }) hinv.owned
        hrebuild with ⟨hbuilt, -, hmng, -, hw⟩
      refine ⟨?_, fun _ => ?_⟩
      · rw [hmng, hw]
        exact hinv.owned.resetChanged.mono (Nat.le_refl _)
      · rw [hmng]
        exact hbuilt

theorem invariant_step (hinv : Invariant vcon g w) (h : Step env vcon g w g' w') :
    Invariant vcon g' w' := by
  cases h with
  | perform op result hover h => exact invariant_perform hinv hover h
  | rejected name e soft cover what h =>
      rcases makeConstraint_error h with ⟨rfl, rfl⟩
      exact hinv.mono (Nat.le_succ _)
  | outside h => exact hinv.mono h

theorem Reachable.invariant (h : Reachable env vcon g w) : Invariant vcon g w := by
  induction h with
  | new w => exact Invariant.new w
  | step before h ih => exact invariant_step ih h

/-!
## What is solved
-/

/-- The solvers of a generator are for the enabled constraints, each once. -/
structure SolvesEnabled (vcon : VariableContainer) (g : Generator) : Prop where
  built : BuiltFor vcon (scalarConstraints g.constr_mng_) (vectorConstraints g.constr_mng_) g
  var_gen : (g.var_gen_.solvers_.map fun vs => vs.constr_pttn_.constraints_).flatten.Perm
    (scalarConstraints g.constr_mng_)
  var_cov_gen : (g.var_cov_gen_.solvers_.map fun vs => vs.constr_pttn_.constraints_).flatten.Perm
    (scalarConstraints g.constr_mng_)
  vec_gen : (g.vec_gen_.vector_solvers_.map fun pair => pair.2.constraints_).flatten.Perm
    (vectorConstraints g.constr_mng_)

theorem map_constraints_of_built {solver : Type} {R : ConstraintPartition -> solver -> Prop}
    {constr_pttn_ : solver -> ConstraintPartition} (hR : forall p vs, R p vs -> constr_pttn_ vs = p)
    {ps : List ConstraintPartition} {solvers_ : List solver} (h : List.Forall₂ R ps solvers_) :
    solvers_.map (fun vs => (constr_pttn_ vs).constraints_) =
      ps.map ConstraintPartition.constraints_ := by
  induction h with
  | nil => rfl
  | cons hhead _ ih => rw [List.map_cons, List.map_cons, ih, hR _ _ hhead]

theorem insertConstraint_perm (v_id : Nat) (vc : UserConstraint)
    (solvers_ : List (Nat × VectorSolver)) :
    ((VectorGenerator.insertConstraint v_id vc solvers_).map
        fun pair => pair.2.constraints_).flatten.Perm
      ((solvers_.map fun pair => pair.2.constraints_).flatten ++ [vc]) := by
  induction solvers_ with
  | nil => exact List.Perm.refl _
  | cons pair rest ih =>
      rcases pair with ⟨key, vs⟩
      unfold VectorGenerator.insertConstraint
      split
      · simp only [List.map_cons, List.flatten_cons, List.append_assoc]
        exact ih.append_left _
      · split
        · simp only [List.map_cons, List.flatten_cons]
          exact (List.perm_append_singleton vc _).symm
        · simp only [List.map_cons, List.flatten_cons, VectorSolver.addConstraint,
            List.append_assoc]
          exact (List.perm_append_comm).append_left _

theorem reset_perm (vecs : List UserConstraint) :
    ((VectorGenerator.reset vecs).vector_solvers_.map
      fun pair => pair.2.constraints_).flatten.Perm vecs := by
  have hfold : forall g : VectorGenerator,
      ((vecs.foldl VectorGenerator.addConstraint g).vector_solvers_.map
          fun pair => pair.2.constraints_).flatten.Perm
        ((g.vector_solvers_.map fun pair => pair.2.constraints_).flatten ++ vecs) := by
    induction vecs with
    | nil =>
        intro g
        rw [List.append_nil]
        exact List.Perm.refl _
    | cons vc rest ih =>
        intro g
        have hhead := insertConstraint_perm (getVectorId vc) vc g.vector_solvers_
        refine (ih (g.addConstraint vc)).trans ?_
        rw [← List.singleton_append, ← List.append_assoc]
        exact hhead.append_right rest
  exact hfold VectorGenerator.new

theorem BuiltFor.solvesEnabled (howned : Owned vcon g.constr_mng_ w)
    (hbuilt : BuiltFor vcon (scalarConstraints g.constr_mng_)
      (vectorConstraints g.constr_mng_) g) : SolvesEnabled vcon g := by
  have hparts := ConstraintPartitioner.partition_isPartition _ howned.scalars.ids
  rw [← hbuilt.partitions] at hparts
  constructor
  · exact hbuilt
  · rw [map_constraints_of_built (fun _ _ h => h.constr_pttn) hbuilt.var_gen]
    exact hparts.components.perm
  · rw [map_constraints_of_built (fun _ _ h => h.constr_pttn) hbuilt.var_cov_gen]
    exact hparts.components.perm
  · have hcontents := congrArg (List.map fun entry => entry.2.2) hbuilt.vec_gen
    simp only [contents, List.map_map, Function.comp_def] at hcontents
    rw [hcontents]
    exact reset_perm _

theorem SolvesEnabled.of_unchanged (hinv : Invariant vcon g w) (h : g.isChanged = false) :
    SolvesEnabled vcon g :=
  (hinv.cached h).solvesEnabled hinv.owned

/-- In every reachable state names and constraints are in bijection, and the
solvers are for the enabled constraints unless the manager has changed; so every
call of `next` and of `nextCov` solves for exactly the enabled constraints. -/
theorem cache_invariant (h : Reachable env vcon g w) :
    g.constr_mng_.Consistent ∧
      (g.constr_mng_.constraints_.map UserConstraint.name_).Nodup ∧
      (forall name, name ∈ g.constr_mng_.constraints_.map UserConstraint.name_ ->
        forall e soft cover, exists what, makeConstraint g (some name) e soft cover w =
          (.error what, g, { w with constraint_ID := w.constraint_ID + 1 })) ∧
      (g.isChanged = false -> SolvesEnabled vcon g) ∧
      (forall result g' w', next env vcon g w = (.ok result, g', w') ->
        exists g₁ w₁, g₁.constr_mng_.constraints_ = g.constr_mng_.constraints_ ∧
          SolvesEnabled vcon g₁ ∧ solve env g₁ w₁ = (.ok result, g', w')) ∧
      (forall result g' w', nextCov env vcon g w = (.ok result, g', w') ->
        exists g₁ w₁, g₁.constr_mng_.constraints_ = g.constr_mng_.constraints_ ∧
          SolvesEnabled vcon g₁ ∧
          (solve env g₁ w₁ = (.ok result, g', w') ∨
            solveCoverage env g₁ w₁ = (.ok true, g', w') ∧ result = true)) := by
  have hinv := h.invariant
  have hupdated : forall {g₁ w₁}, update env vcon g w = (.ok (), g₁, w₁) ->
      Invariant vcon g₁ w₁ ∧ g₁.isChanged = false ∧
        g₁.constr_mng_.constraints_ = g.constr_mng_.constraints_ := by
    intro g₁ w₁ hupdate
    rcases invariant_update hinv hupdate with ⟨hinv₁, hunchanged, -⟩
    refine ⟨hinv₁, hunchanged, ?_⟩
    rw [(update_spec hinv hupdate).2.1]
    rfl
  refine ⟨hinv.owned.consistent, hinv.owned.consistent.names_nodup, ?_, ?_, ?_, ?_⟩
  · intro name hname e soft cover
    rcases List.mem_map.mp hname with ⟨c, hc, rfl⟩
    rcases List.mem_iff_getElem?.mp hc with ⟨i, hi⟩
    have hlookup := (hinv.owned.consistent c.name_ i).mpr (by rw [hi]; rfl)
    refine ⟨c.name_ ++ "Constraint already exists.", ?_⟩
    simp only [makeConstraint, ConstraintManager.makeConstraint, Option.getD_some, hlookup,
      Option.isSome_some, if_true]
  · exact SolvesEnabled.of_unchanged hinv
  · intro result g' w' hnext
    rcases next_cases hnext with ⟨g₁, w₁, hupdate, hsolve⟩
    rcases hupdated hupdate with ⟨hinv₁, hunchanged, hsame⟩
    exact ⟨g₁, w₁, hsame, SolvesEnabled.of_unchanged hinv₁ hunchanged, hsolve⟩
  · intro result g' w' hnext
    rcases nextCov_cases hnext with ⟨g₁, w₁, hupdate, hcases⟩
    rcases hupdated hupdate with ⟨hinv₁, hunchanged, hsame⟩
    have hsolves := SolvesEnabled.of_unchanged hinv₁ hunchanged
    rcases hcases with ⟨-, hnext₁⟩ | ⟨-, hresult, hsolve⟩ | ⟨-, g₂, w₂, hsolve, hnext₂⟩
    · rw [next_of_unchanged hunchanged] at hnext₁
      exact ⟨g₁, w₁, hsame, hsolves, Or.inl hnext₁⟩
    · exact ⟨g₁, w₁, hsame, hsolves, Or.inr ⟨hsolve, hresult⟩⟩
    · -- no goal was hit: `next` goes on from the generator that is left
      rcases invariant_solveCoverage hinv₁ hunchanged hsolve with ⟨hinv₂, hunchanged₂⟩
      have hps : Separated vcon g₁.constr_pttn_.partitions_ := by
        rw [hsolves.built.partitions]
        exact hinv₁.owned.scalars.separated
      have hmng := (kept_solveCoverage hsolves.built hps hsolve).constr_mng
      rw [next_of_unchanged (by exact hunchanged₂)] at hnext₂
      refine ⟨{ g₂ with covered_ := true }, w₂, ?_, ?_, Or.inl hnext₂⟩
      · change g₂.constr_mng_.constraints_ = _
        rw [hmng, hsame]
      · exact SolvesEnabled.of_unchanged (hinv₂.setCovered true) hunchanged₂

theorem cache_invariant_toggled :
    let vcon := VariableContainer.ofReferences ⟨8, false⟩ (by decide) [] [1] (by decide)
    let env := Environment.simple (Oracle.ofModel fun _ => 0) id
    let w : World :=
      { memory := fun _ => 0, vectors := fun _ => [], time := 0, var_ID := 1, constraint_ID := 0 }
    let e : Node := .binaryOpr .equalOpr (.variableExpr 1 8 false) (.variableExpr 1 8 false)
    let g₁ := (perform env vcon Generator.new w (.makeConstraint (some "c") e false false)).2.1
    let g₂ := (disableConstraint g₁ "c").2
    let g₃ := (enableConstraint g₂ "c").2
    g₃.isChanged = true ∧ scalarConstraints g₂.constr_mng_ = [] ∧
      (g₃.constr_mng_.constraints_.map UserConstraint.name_).Nodup := by
  intro vcon env w e g₁ g₂ g₃
  have h₁ : Reachable env vcon g₁ { w with constraint_ID := 1 } :=
    .step (.new w) (.perform (.makeConstraint (some "c") e false false) true
      ⟨rfl, rfl⟩ rfl)
  have h₂ : Reachable env vcon g₂ { w with constraint_ID := 1 } :=
    .step h₁ (.perform (.disableConstraint "c") true trivial rfl)
  have h₃ : Reachable env vcon g₃ { w with constraint_ID := 1 } :=
    .step h₂ (.perform (.enableConstraint "c") true trivial rfl)
  exact ⟨rfl, rfl, (cache_invariant h₃).2.1⟩

end Invariant

end Generator
end Backend
end Crave
