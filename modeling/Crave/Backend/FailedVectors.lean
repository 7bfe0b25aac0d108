import Crave.Backend.VectorSoundness

/-!
# Vectors that fail

The vectors are solved one after the other, for the sizes that were solved before. When
one of them has no solution, those before it have been written already.
-/

namespace Crave
namespace Backend

open Foundation Ir MetaSMTVisitor ReplaceVisitor

variable {env : Environment} {var_gen : List VariableSolver} {w w' : World} {result : Bool}

namespace VectorSolver

variable {vs : VectorSolver}

theorem satisfiable_iff_of_solveTwice (hsound : env.Sound) (hcomplete : env.Complete)
    {s s' : MetaSMTVisitor} {time time' : Nat}
    (h : solveTwice env s time = (result, s', time')) :
    result = true ↔ Term.Satisfiable s.assertions := by
  cases result with
  | true => exact iff_of_true rfl ⟨_, satisfies_of_solveTwice hsound h⟩
  | false =>
      constructor
      · intro hfalse
        cases hfalse
      · intro hsat
        exact absurd hsat (not_satisfiable_of_solveTwice hcomplete h)

/-- Whether a vector is written depends on the elements that the copies mention. -/
theorem isSome_readVector_solve {s s' : MetaSMTVisitor} {time time' : Nat}
    (h : solveTwice env s time = (result, s', time')) (d : VarDecl) (es : List Element) :
    (readVector s' d es).isSome = (readVector s d es).isSome := by
  apply Bool.eq_iff_iff.mpr
  rw [readVector_isSome_iff, readVector_isSome_iff]
  simp only [met_solve h]

/-- The vectors after a solver has read this for its vector. -/
def writeVector (id : Nat) (read : Option (List Nat)) (vectors : Nat -> List Nat) :
    Nat -> List Nat :=
  match read with
  | some values => Function.update vectors id values
  | none => vectors

theorem solve_of_build {vector : RandVec} {built : VectorSolver} {next time : Nat}
    {s : MetaSMTVisitor} (hvector : env.vectorBaseMap vs.vector_id_ = some vector)
    (hbuild : buildSolver env.check vs (vectorSize var_gen vector) w.var_ID = .ok (built, next))
    (hsolve : solveTwice env built.solver_ w.time = (result, s, time)) :
    vs.solve env var_gen w = .ok (result, { built with solver_ := s },
      { w with
        var_ID := next
        time := time
        vectors := writeVector vs.vector_id_
          (if result then readVector s vector.element built.vec_elements_ else none)
          w.vectors }) := by
  have hid := (buildSolver_spec hbuild).right.right
  unfold VectorSolver.solve
  rw [hvector]
  simp only [hbuild, bind, Except.bind, hsolve]
  cases result with
  | false => rfl
  | true =>
      simp only [if_true, World.setVector, hid]
      cases readVector s vector.element built.vec_elements_ with
      | none => rfl
      | some values => rfl

end VectorSolver

namespace VectorGenerator

open VectorSolver (buildSolver solveTwice writeVector)

variable {size size' : RandVec -> Nat} {solvers_ solvers' : List (Nat × VectorSolver)}
  {var_ID : Nat} {written : Bool}

/-- With these sizes of the vectors one of the solvers has no solution, and those before
it have one. The flag says whether one of these writes its vector. -/
inductive Fails (env : Environment) (size : RandVec -> Nat) :
    List (Nat × VectorSolver) -> Nat -> Bool -> Prop where
  | here {key var_ID next : Nat} {vs built : VectorSolver} {rest : List (Nat × VectorSolver)}
      {vector : RandVec} (hvector : env.vectorBaseMap vs.vector_id_ = some vector)
      (hbuild : buildSolver env.check vs (size vector) var_ID = .ok (built, next))
      (hunsat : ¬ Term.Satisfiable built.solver_.assertions) :
      Fails env size ((key, vs) :: rest) var_ID false
  | behind {key var_ID next : Nat} {vs built : VectorSolver} {rest : List (Nat × VectorSolver)}
      {vector : RandVec} {written : Bool} (hvector : env.vectorBaseMap vs.vector_id_ = some vector)
      (hbuild : buildSolver env.check vs (size vector) var_ID = .ok (built, next))
      (hsat : Term.Satisfiable built.solver_.assertions) (h : Fails env size rest next written) :
      Fails env size ((key, vs) :: rest) var_ID
        ((readVector built.solver_ vector.element built.vec_elements_).isSome || written)

/-- The two functions give the vectors of the solvers the same sizes. -/
def SameSizes (env : Environment) (solvers_ : List (Nat × VectorSolver))
    (size size' : RandVec -> Nat) : Prop :=
  forall pair, pair ∈ solvers_ -> forall vector,
    env.vectorBaseMap pair.2.vector_id_ = some vector -> size' vector = size vector

theorem fails_of_solveFrom (hsound : env.Sound) (hcomplete : env.Complete)
    (h : solveFrom env var_gen solvers_ w = .ok (false, solvers', w')) :
    exists written, Fails env (vectorSize var_gen) solvers_ w.var_ID written ∧
      (written = false -> w'.vectors = w.vectors) := by
  induction solvers_ generalizing solvers' w with
  | nil => cases h
  | cons pair rest ih =>
      cases pair with
      | mk key vs =>
          rcases bind_eq_ok.mp h with ⟨⟨r, vs', w₁⟩, hhead, h⟩
          rcases VectorSolver.solve_cases hhead with
            ⟨vector, built, next, s, time, hvector, hbuild, hsolve, _, hw₁⟩
          have hiff := VectorSolver.satisfiable_iff_of_solveTwice hsound hcomplete hsolve
          cases r with
          | false =>
              cases h
              exists false
              constructor
              · apply Fails.here hvector hbuild
                intro hsat
                cases hiff.mpr hsat
              · intro _
                rw [hw₁]
                rfl
          | true =>
              rcases bind_eq_ok.mp h with ⟨⟨r, rest', w₂⟩, htail, h⟩
              cases h
              have hnext : w₁.var_ID = next := by rw [hw₁]
              rcases ih htail with ⟨written, hfails, hvectors⟩
              rw [hnext] at hfails
              exists (readVector built.solver_ vector.element built.vec_elements_).isSome || written
              constructor
              · exact Fails.behind hvector hbuild (hiff.mp rfl) hfails
              · intro hflag
                rcases Bool.or_eq_false_iff.mp hflag with ⟨hread, hrest⟩
                have hnone : readVector s vector.element built.vec_elements_ = none := by
                  apply Option.not_isSome_iff_eq_none.mp
                  rw [VectorSolver.isSome_readVector_solve hsolve, hread]
                  exact Bool.false_ne_true
                rw [hvectors hrest, hw₁, if_pos rfl, hnone]

/-!
## Values that are lost
-/

/-- What a call does to the vectors: each one stays, or its values do not depend on those
before. -/
def Overwrites (f : (Nat -> List Nat) -> Nat -> List Nat) : Prop :=
  forall id, (forall vectors, f vectors id = vectors id) ∨
    exists values, forall vectors, f vectors id = values

theorem Overwrites.id : Overwrites id :=
  fun _ => Or.inl fun _ => rfl

theorem overwrites_writeVector (id : Nat) (read : Option (List Nat)) :
    Overwrites (writeVector id read) := by
  intro other
  cases read with
  | none => exact Or.inl fun _ => rfl
  | some values =>
      by_cases hother : other = id
      · rw [hother]
        exact Or.inr ⟨values, fun _ => Function.update_self _ _ _⟩
      · exact Or.inl fun _ => Function.update_of_ne hother _ _

theorem Overwrites.comp {f g : (Nat -> List Nat) -> Nat -> List Nat} (hf : Overwrites f)
    (hg : Overwrites g) : Overwrites fun vectors => f (g vectors) := by
  intro id
  cases hf id with
  | inr hlost =>
      rcases hlost with ⟨values, hvalues⟩
      exact Or.inr ⟨values, fun vectors => hvalues (g vectors)⟩
  | inl hkept =>
      cases hg id with
      | inl hkept' => exact Or.inl fun vectors => (hkept (g vectors)).trans (hkept' vectors)
      | inr hlost =>
          rcases hlost with ⟨values, hvalues⟩
          exact Or.inr ⟨values, fun vectors => (hkept (g vectors)).trans (hvalues vectors)⟩

/-- The vectors fail whatever they held before, and when the flag says so the values of
one of them are lost. -/
theorem solveFrom_of_fails (hsound : env.Sound) (hcomplete : env.Complete)
    (h : Fails env size solvers_ var_ID written) (hid : w.var_ID = var_ID)
    (hsize : SameSizes env solvers_ size (vectorSize var_gen)) :
    exists solvers' f time next, Overwrites f ∧
      (written = true -> exists id values, forall vectors, f vectors id = values) ∧
      forall vectors, solveFrom env var_gen solvers_ { w with vectors := vectors } =
        .ok (false, solvers', { w with vectors := f vectors, time := time, var_ID := next }) := by
  induction h generalizing w with
  | @here key _ next vs built rest vector hvector hbuild hunsat =>
      rw [← hid, ← hsize _ List.mem_cons_self _ hvector] at hbuild
      cases hsolve : solveTwice env built.solver_ w.time with
      | mk r pair =>
          cases pair with
          | mk s time =>
              have hiff := VectorSolver.satisfiable_iff_of_solveTwice hsound hcomplete hsolve
              have hfalse : r = false := by
                cases r with
                | false => rfl
                | true => exact absurd (hiff.mp rfl) hunsat
              rw [hfalse] at hsolve
              refine ⟨(key, { built with solver_ := s }) :: rest, fun vectors => vectors, time,
                next, Overwrites.id, ?_, ?_⟩
              · intro hflag
                cases hflag
              · intro vectors
                have hcall := @VectorSolver.solve_of_build env var_gen
                  { w with vectors := vectors } _ vs _ _ _ _ _ hvector hbuild hsolve
                unfold solveFrom
                rw [hcall]
                rfl
  | @behind key _ next vs built rest vector written hvector hbuild hsat _ ih =>
      rw [← hid, ← hsize _ List.mem_cons_self _ hvector] at hbuild
      cases hsolve : solveTwice env built.solver_ w.time with
      | mk r pair =>
          cases pair with
          | mk s time =>
              have hiff := VectorSolver.satisfiable_iff_of_solveTwice hsound hcomplete hsolve
              rw [hiff.mpr hsat] at hsolve
              have hrest : SameSizes env rest size (vectorSize var_gen) :=
                fun pair hpair => hsize pair (List.mem_cons_of_mem _ hpair)
              rcases @ih { w with var_ID := next, time := time } rfl hrest with
                ⟨rest', f, time', next', hf, hflag, hcalls⟩
              let g := writeVector vs.vector_id_
                (readVector s vector.element built.vec_elements_)
              have hg : Overwrites g := overwrites_writeVector _ _
              refine ⟨(key, { built with solver_ := s }) :: rest', fun vectors => f (g vectors),
                time', next', hf.comp hg, ?_, ?_⟩
              · intro hwritten
                cases hor : written with
                | true =>
                    rcases hflag hor with ⟨id, values, hvalues⟩
                    exact ⟨id, values, fun vectors => hvalues (g vectors)⟩
                | false =>
                    rw [hor, Bool.or_false, ← VectorSolver.isSome_readVector_solve hsolve] at hwritten
                    rcases Option.isSome_iff_exists.mp hwritten with ⟨values, hvalues⟩
                    have hlost : forall vectors, g vectors vs.vector_id_ = values := by
                      intro vectors
                      show writeVector vs.vector_id_ _ vectors vs.vector_id_ = values
                      rw [hvalues]
                      exact Function.update_self _ _ _
                    exists vs.vector_id_
                    cases hf vs.vector_id_ with
                    | inl hkept =>
                        exact ⟨values, fun vectors => (hkept (g vectors)).trans (hlost vectors)⟩
                    | inr hother =>
                        rcases hother with ⟨values', hvalues'⟩
                        exact ⟨values', fun vectors => hvalues' (g vectors)⟩
              · intro vectors
                have hcall := @VectorSolver.solve_of_build env var_gen
                  { w with vectors := vectors } _ vs _ _ _ _ _ hvector hbuild hsolve
                rw [if_pos rfl] at hcall
                unfold solveFrom
                apply bind_eq_ok.mpr
                exact ⟨_, hcall, bind_eq_ok.mpr ⟨_, hcalls (g vectors), rfl⟩⟩

end VectorGenerator

end Backend
end Crave
