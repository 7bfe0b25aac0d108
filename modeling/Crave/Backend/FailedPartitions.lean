import Crave.Backend.BddSolvers
import Crave.Backend.VectorGenerator

/-!
# Partitions that fail

The solvers of the partitions write their solutions one after the other. When one of them
fails, those before it have already written.
-/

namespace Crave
namespace Backend

open Foundation Ir MetaSMTVisitor

namespace VariableGenerator

open VariableDefaultSolver (Solvable Keeps Drawn Checked Built query suggestedRefs)

variable {env : Environment} {vcon : VariableContainer} {ps : List ConstraintPartition}
  {solvers_ solvers' : List VariableDefaultSolver} {w w' : World} {result : Bool}

/-- The solvers were built for these partitions. -/
def BuiltAmong (vcon : VariableContainer) (ps : List ConstraintPartition)
    (solvers_ : List VariableDefaultSolver) : Prop :=
  forall vs, vs ∈ solvers_ -> Drawn vs ∧ exists p, p ∈ ps ∧ Built vcon p vs

theorem exists_built (hbuilt : List.Forall₂ (Built vcon) ps solvers_)
    {vs : VariableDefaultSolver} (hvs : vs ∈ solvers_) : exists p, p ∈ ps ∧ Built vcon p vs := by
  rcases List.mem_iff_getElem.mp hvs with ⟨i, hi, rfl⟩
  have hi' : i < ps.length := by rwa [hbuilt.length_eq]
  exact ⟨ps[i], List.getElem_mem hi', hbuilt.get hi' hi⟩

theorem builtAmong_of_forall₂ (hbuilt : List.Forall₂ (Built vcon) ps solvers_)
    (hdrawn : forall vs, vs ∈ solvers_ -> Drawn vs) : BuiltAmong vcon ps solvers_ := by
  intro vs hvs
  exact ⟨hdrawn vs hvs, exists_built hbuilt hvs⟩

theorem BuiltAmong.tail {vs : VariableDefaultSolver}
    (h : BuiltAmong vcon ps (vs :: solvers_)) : BuiltAmong vcon ps solvers_ :=
  fun u hu => h u (List.mem_cons_of_mem vs hu)

theorem BuiltAmong.ready (h : BuiltAmong vcon ps solvers_) {vs : VariableDefaultSolver}
    (hvs : vs ∈ solvers_) : VariableDefaultSolver.Ready vcon.variables_ vs := by
  rcases (h vs hvs).right with ⟨p, _, hbuilt⟩
  exact hbuilt.ready

/-- A call of one of the solvers writes variables of the partitions only. -/
theorem BuiltAmong.writtenOnly {vs vs' : VariableDefaultSolver}
    (h : BuiltAmong vcon ps (vs :: solvers_))
    (hcall : VariableDefaultSolver.solve env vs w = .ok (result, vs', w')) :
    WrittenOnly vcon (supportOf ps) w.memory w'.memory := by
  rcases (h vs List.mem_cons_self).right with ⟨p, hp, hbuilt⟩
  exact (solver_spec hbuilt hcall).left.mono (support_subset_supportOf hp)

/-!
## What a failure leaves
-/

/-- When the solvers fail, one of them has no solution with the values it reads. -/
theorem exists_not_solvable (hall : BuiltAmong vcon ps solvers_) (hcomplete : env.Complete)
    (h : solveFrom env solvers_ w = .ok (false, solvers', w')) :
    exists vs, vs ∈ solvers_ ∧ exists memory, WrittenOnly vcon (supportOf ps) w.memory memory ∧
      ¬ Solvable vs memory := by
  induction solvers_ generalizing solvers' w with
  | nil => cases h
  | cons vs rest ih =>
      rcases (hall vs List.mem_cons_self).right with ⟨p, hp, hbuilt⟩
      rcases solveFrom_cons h with ⟨r, vs', w₁, hhead, hcases⟩
      rcases hcases with ⟨hfalse, _⟩ | ⟨_, rest', htail, _⟩
      · refine ⟨vs, List.mem_cons_self, w.memory, WrittenOnly.refl _, ?_⟩
        intro hsolvable
        rw [hfalse] at hhead
        cases VariableDefaultSolver.solve_of_satisfiable hbuilt.ready hcomplete hsolvable.left
          hsolvable.right hhead
      · rcases ih hall.tail htail with ⟨u, hu, memory, hwritten, hunsolvable⟩
        exact ⟨u, List.mem_cons_of_mem vs hu, memory, (hall.writtenOnly hhead).trans hwritten,
          hunsolvable⟩

/-- With these values, whenever a solver behind some that have solutions has none, the
ones before it keep the values. -/
def KeepsBefore (vcon : VariableContainer) (ps : List ConstraintPartition)
    (solvers_ : List VariableDefaultSolver) (memory : Memory) : Prop :=
  forall memory', WrittenOnly vcon (supportOf ps) memory memory' ->
    forall front rest, solvers_ = front ++ rest ->
      (forall vs, vs ∈ front -> Solvable vs memory) ->
      (exists vs, vs ∈ rest ∧ ¬ Solvable vs memory') ->
        forall vs, vs ∈ front -> Keeps vs memory

/-- Then nothing has changed when the call fails: the induction is on the solvers that are
still to be called. -/
theorem memory_of_solveFrom_false {all front : List VariableDefaultSolver} {memory : Memory}
    (hquiet : KeepsBefore vcon ps all memory) (hsplit : all = front ++ solvers_)
    (hsolvable : forall vs, vs ∈ front -> Solvable vs memory)
    (hall : BuiltAmong vcon ps solvers_) (hsound : env.Sound) (hcomplete : env.Complete)
    (hmemory : w.memory = memory)
    (h : solveFrom env solvers_ w = .ok (false, solvers', w')) : w'.memory = memory := by
  induction solvers_ generalizing front solvers' w with
  | nil => cases h
  | cons vs rest ih =>
      rcases hall vs List.mem_cons_self with ⟨hdrawn, p, hp, hbuilt⟩
      rcases solveFrom_cons h with ⟨r, vs', w₁, hhead, hcases⟩
      rcases hcases with ⟨rfl, _, _, rfl⟩ | ⟨rfl, rest', htail, _⟩
      · rw [VariableDefaultSolver.world_solve hbuilt.ready hhead]
        exact hmemory
      · have hself : Solvable vs memory := by
          rw [← hmemory]
          exact (VariableDefaultSolver.solve_eq_true_iff hbuilt.ready hsound hcomplete hhead).mp rfl
        have hfront : forall u, u ∈ front ++ [vs] -> Solvable u memory := by
          intro u hu
          cases List.mem_append.mp hu with
          | inl hu => exact hsolvable u hu
          | inr hu =>
              rw [List.mem_singleton.mp hu]
              exact hself
        have hsplit' : all = (front ++ [vs]) ++ rest := by
          rw [hsplit, List.append_assoc, List.singleton_append]
        rcases exists_not_solvable hall.tail hcomplete htail with
          ⟨u, hu, memory', hwritten, hunsolvable⟩
        have hwritten' : WrittenOnly vcon (supportOf ps) memory memory' := by
          rw [← hmemory]
          exact (hall.writtenOnly hhead).trans hwritten
        have hkeeps := hquiet memory' hwritten' (front ++ [vs]) rest hsplit' hfront
          ⟨u, hu, hunsolvable⟩ vs (List.mem_append_right _ (List.mem_singleton_self vs))
        rw [← hmemory] at hkeeps
        have hsame := hkeeps.memory_solve hbuilt.ready hdrawn hsound hcomplete hhead
        exact ih hsplit' hfront hall.tail (hsame.trans hmemory) htail

theorem memory_of_keeps (hkeeps : forall vs, vs ∈ solvers_ -> Keeps vs w.memory)
    (hall : BuiltAmong vcon ps solvers_) (hsound : env.Sound) (hcomplete : env.Complete)
    (h : solveFrom env solvers_ w = .ok (result, solvers', w')) : w'.memory = w.memory := by
  induction solvers_ generalizing solvers' w with
  | nil =>
      cases h
      rfl
  | cons vs rest ih =>
      rcases hall vs List.mem_cons_self with ⟨hdrawn, p, hp, hbuilt⟩
      rcases solveFrom_cons h with ⟨r, vs', w₁, hhead, hcases⟩
      have hsame := (hkeeps vs List.mem_cons_self).memory_solve hbuilt.ready hdrawn hsound
        hcomplete hhead
      rcases hcases with ⟨_, _, _, rfl⟩ | ⟨_, rest', htail, _⟩
      · exact hsame
      · have hrest : forall u, u ∈ rest -> Keeps u w₁.memory := by
          intro u hu
          rw [hsame]
          exact hkeeps u (List.mem_cons_of_mem vs hu)
        rw [ih hrest hall.tail htail, hsame]

theorem solveFrom_setVectors (hall : BuiltAmong vcon ps solvers_)
    (h : solveFrom env solvers_ w = .ok (result, solvers', w')) (vectors : Nat -> List Nat) :
    solveFrom env solvers_ { w with vectors := vectors } =
      .ok (result, solvers', { w' with vectors := vectors }) := by
  induction solvers_ generalizing solvers' w with
  | nil =>
      cases h
      rfl
  | cons vs rest ih =>
      rcases (hall vs List.mem_cons_self).right with ⟨p, hp, hbuilt⟩
      rcases solveFrom_cons h with ⟨r, vs', w₁, hhead, hcases⟩
      have hhead' := VariableDefaultSolver.solve_setVectors hbuilt.ready hhead vectors
      rcases hcases with ⟨rfl, rfl, rfl, rfl⟩ | ⟨rfl, rest', htail, rfl⟩
      · exact bind_eq_ok.mpr ⟨_, hhead', rfl⟩
      · exact bind_eq_ok.mpr ⟨_, hhead', bind_eq_ok.mpr ⟨_, ih hall.tail htail, rfl⟩⟩

/-!
## The sizes that are reported
-/

/-- In the support of a hard or a soft constraint of the partition. -/
def Constrained (vs : VariableDefaultSolver) (id : Nat) : Prop :=
  exists c, c ∈ vs.constr_pttn_.constraints_ ∧ c.cover_ = false ∧ id ∈ c.support_vars_

/-- Sizes of vectors as solutions of the partitions give them: the solver of each partition
has a solution, and the size variables that its constraints determine have the values of
the solution. Without a partition a size is the default one. -/
structure Reported (vcon : VariableContainer) (ps : List ConstraintPartition)
    (solvers_ : List VariableDefaultSolver) (memory : Memory) (size : RandVec -> Nat) : Prop where
  solution : forall vs, vs ∈ solvers_ -> vs.contradictions_ = [] ∧ exists m memory',
    WrittenOnly vcon (supportOf ps) memory memory' ∧ Term.Satisfies m (query vs memory') ∧
      forall vector : RandVec, Constrained vs vector.size_var -> size vector =
        m (.terminal vector.size_var) % 2 ^ (vcon.declOf vector.size_var).bitsize % 2 ^ 32
  default : forall vector : RandVec, vector.size_var ∉ supportOf ps ->
    size vector = default_rand_vec_size

/-- How a solver stands after a call that succeeded. -/
structure Answered (vcon : VariableContainer) (ps : List ConstraintPartition) (memory : Memory)
    (vs vs' : VariableDefaultSolver) : Prop where
  var_ctn : vs'.var_ctn_ = vs.var_ctn_
  constr_pttn : vs'.constr_pttn_ = vs.constr_pttn_
  contradictions : vs.contradictions_ = []
  built : exists p, p ∈ ps ∧ Built vcon p vs'
  satisfies : exists memory', WrittenOnly vcon (supportOf ps) memory memory' ∧
    Term.Satisfies vs'.solver_.model (query vs memory')

theorem answered_solveFrom (hall : BuiltAmong vcon ps solvers_) (hsound : env.Sound)
    (h : solveFrom env solvers_ w = .ok (true, solvers', w')) :
    List.Forall₂ (Answered vcon ps w.memory) solvers_ solvers' := by
  induction solvers_ generalizing solvers' w with
  | nil =>
      cases h
      exact List.Forall₂.nil
  | cons vs rest ih =>
      rcases (hall vs List.mem_cons_self).right with ⟨p, hp, hbuilt⟩
      rcases solveFrom_cons h with ⟨r, vs', w₁, hhead, hcases⟩
      rcases hcases with ⟨_, hfalse, _⟩ | ⟨rfl, rest', htail, rfl⟩
      · cases hfalse
      · have hkept := VariableDefaultSolver.kept_solve hbuilt.ready hhead
        constructor
        · constructor
          · exact hkept.base.var_ctn
          · exact hkept.base.constr_pttn
          · rcases VariableDefaultSolver.solve_cases hhead with ⟨_, hfalse, _⟩ | ⟨hcontr, _⟩
            · cases hfalse
            · exact hcontr
          · exact ⟨p, hp, hbuilt.solve hhead⟩
          · exact ⟨w.memory, WrittenOnly.refl _,
              VariableDefaultSolver.satisfies_of_solve hbuilt.ready hsound hhead⟩
        · apply (ih hall.tail htail).imp
          intro u u' hu
          rcases hu.satisfies with ⟨memory', hwritten, hsat⟩
          exact ⟨hu.var_ctn, hu.constr_pttn, hu.contradictions, hu.built, memory',
            (hall.writtenOnly hhead).trans hwritten, hsat⟩

theorem mem_support_of_constrained (hps : Separated vcon ps) {p : ConstraintPartition}
    (hp : p ∈ ps) {vs : VariableDefaultSolver} (hbuilt : Built vcon p vs) {id : Nat}
    (hid : Constrained vs id) : id ∈ p.support_vars_ := by
  rcases hid with ⟨c, hc, _, hid⟩
  rw [hbuilt.constr_pttn] at hc
  exact hps.support p hp c hc hid

/-- The solver of a partition reports the values of its solution. -/
theorem read_of_constrained (hps : Separated vcon ps) {p : ConstraintPartition} (hp : p ∈ ps)
    {vs : VariableDefaultSolver} (hbuilt : Built vcon p vs) {id : Nat} (hid : Constrained vs id)
    (value : Nat) : vs.read id value =
      (true, vs.solver_.model (.terminal id) % 2 ^ (vcon.declOf id).bitsize) := by
  have hsupport := mem_support_of_constrained hps hp hbuilt hid
  rcases hid with ⟨c, hc, hcover, hid⟩
  rw [hbuilt.constr_pttn] at hc
  rcases hbuilt.met c hc hcover id hid with ⟨d, hd, hterminal⟩
  unfold VariableSolver.read
  rw [hbuilt.var_ctn, MetaSMTVisitor.read, hterminal, VariableContainer.variables_declOf hd]
  simp [VariableContainer.restrict, hsupport, hd]

theorem readFrom_of_answered {qs : List ConstraintPartition} {memory : Memory}
    (hps : Separated vcon ps) (hbuilt : List.Forall₂ (Built vcon) ps solvers_)
    (h : List.Forall₂ (Answered vcon qs memory) solvers_ solvers') {vs : VariableDefaultSolver}
    (hvs : vs ∈ solvers_) : exists vs', Answered vcon qs memory vs vs' ∧
      forall id, Constrained vs id -> forall value,
        readFrom (solvers'.map VariableDefaultSolver.toVariableSolver) id value =
          (true, vs'.solver_.model (.terminal id) % 2 ^ (vcon.declOf id).bitsize) := by
  induction hbuilt generalizing solvers' with
  | nil => cases hvs
  | @cons p u ps rest hu hrest ih =>
      cases h with
      | @cons _ u' _ rest' hanswered htail =>
          rcases hanswered.built with ⟨q, _, hbuilt'⟩
          have hpq : q = p := by
            rw [← hbuilt'.constr_pttn, hanswered.constr_pttn, hu.constr_pttn]
          rw [hpq] at hbuilt'
          cases List.mem_cons.mp hvs with
          | inl hself =>
              rw [hself]
              exists u'
              constructor
              · exact hanswered
              · intro id hid value
                have hid' : Constrained u' id := by
                  unfold Constrained
                  rw [hanswered.constr_pttn]
                  exact hid
                have hread := read_of_constrained hps List.mem_cons_self hbuilt' hid' value
                rw [List.map_cons, readFrom, hread]
                rfl
          | inr hvs =>
              rcases ih hps.tail htail hvs with ⟨vs', hanswered', hread⟩
              exists vs'
              constructor
              · exact hanswered'
              · intro id hid value
                rcases exists_built hrest hvs with ⟨r, hr, hbuilt_vs⟩
                have hsupport := mem_support_of_constrained hps.tail hr hbuilt_vs hid
                have hother : id ∉ p.support_vars_ := fun hp =>
                  Set.disjoint_left.mp hps.disjoint_tail hp ⟨r, hr, hsupport⟩
                have hskip : (u'.toVariableSolver.read id value).1 = false := by
                  unfold VariableSolver.read
                  rw [hbuilt'.var_ctn]
                  simp [VariableContainer.restrict, hother]
                rw [List.map_cons, readFrom, hskip]
                exact hread id hid value

theorem reported_of_solveFrom (hps : Separated vcon ps)
    (hbuilt : List.Forall₂ (Built vcon) ps solvers_)
    (hdrawn : forall vs, vs ∈ solvers_ -> Drawn vs) (hsound : env.Sound)
    (h : solveFrom env solvers_ w = .ok (true, solvers', w')) :
    Reported vcon ps solvers_ w.memory
      (vectorSize (solvers'.map VariableDefaultSolver.toVariableSolver)) := by
  have hanswered := answered_solveFrom (builtAmong_of_forall₂ hbuilt hdrawn) hsound h
  constructor
  · intro vs hvs
    rcases readFrom_of_answered hps hbuilt hanswered hvs with ⟨vs', hvs', hread⟩
    rcases hvs'.satisfies with ⟨memory', hwritten, hsat⟩
    constructor
    · exact hvs'.contradictions
    · refine ⟨vs'.solver_.model, memory', hwritten, hsat, ?_⟩
      intro vector hconstrained
      rw [vectorSize, hread _ hconstrained]
  · intro vector hfree
    have hsolvers : List.Forall₂ (fun p (vs : VariableSolver) =>
        vs.var_ctn_ = vcon.restrict p.support_vars_) ps
          (solvers'.map VariableDefaultSolver.toVariableSolver) := by
      apply List.forall₂_map_right_iff.mpr
      exact (solveFrom_spec hbuilt h).left.imp fun _ _ hs => hs.var_ctn
    rw [vectorSize, readFrom_of_not_mem hsolvers fun p hp hid => hfree ⟨p, hp, hid⟩]
    rfl

/-!
## Values that play no part
-/

section Unwritten

variable {front rest : List VariableDefaultSolver} {vs : VariableDefaultSolver}

theorem solvable_of_written (hunwritten : Unwritten vcon (supportOf ps))
    {p : ConstraintPartition} (hp : p ∈ ps) (hbuilt : Built vcon p vs) {memory memory' : Memory}
    (hwritten : WrittenOnly vcon (supportOf ps) memory memory') :
    query vs memory' = query vs memory ∧ (Solvable vs memory' ↔ Solvable vs memory) := by
  have hreads : forall pair, pair ∈ vs.var_ctn_.read_references ->
      memory' pair.2 = memory pair.2 := by
    intro pair hpair
    rw [hbuilt.var_ctn] at hpair
    rcases VariableContainer.mem_select.mp hpair with ⟨hpair, hid⟩
    exact hwritten.read hunwritten hpair ⟨p, hp, hid⟩
  exact ⟨VariableDefaultSolver.query_congr hreads, VariableDefaultSolver.solvable_congr hreads⟩

/-- Reads and writes of the solver of a partition, and the locations of other partitions. -/
theorem location_ne (hps : Separated vcon (p :: ps))
    (hunwritten : Unwritten vcon (supportOf (p :: ps))) {q : ConstraintPartition}
    (hq : q ∈ ps) {u : VariableDefaultSolver} (hu : Built vcon p u) (hbuilt : Built vcon q vs)
    {pair : Nat × Nat} (hpair : pair ∈ vs.var_ctn_.write_references) :
    (forall r, r ∈ u.var_ctn_.read_references -> r.2 ≠ pair.2) ∧
      forall r, r ∈ u.var_ctn_.write_references -> r.2 ≠ pair.2 := by
  rw [hbuilt.var_ctn] at hpair
  rcases VariableContainer.mem_select.mp hpair with ⟨hpair, hid⟩
  rw [hu.var_ctn]
  constructor
  · intro r hr
    rcases VariableContainer.mem_select.mp hr with ⟨hr, hrid⟩
    exact hunwritten r hr ⟨p, List.mem_cons_self, hrid⟩ pair hpair
      ⟨q, List.mem_cons_of_mem p hq, hid⟩
  · intro r hr heq
    rcases VariableContainer.mem_select.mp hr with ⟨hr, hrid⟩
    have hsame := write_eq_of_location hr hpair heq
    rw [hsame] at hrid
    exact Set.disjoint_left.mp hps.disjoint_tail hrid ⟨q, hq, hid⟩

/-- A solver that has a solution hands over to those behind it. -/
theorem solveFrom_cons_solvable {p : ConstraintPartition} {u : VariableDefaultSolver}
    (hu : Built vcon p u) (hcomplete : env.Complete) (hsolvable : Solvable u w.memory)
    (h : solveFrom env (u :: solvers_) w = .ok (result, solvers', w')) :
    exists u' w₁ rest', VariableDefaultSolver.solve env u w = .ok (true, u', w₁) ∧
      solveFrom env solvers_ w₁ = .ok (result, rest', w') ∧ solvers' = u' :: rest' := by
  rcases solveFrom_cons h with ⟨r, u', w₁, hhead, hcases⟩
  have htrue := VariableDefaultSolver.solve_of_satisfiable hu.ready hcomplete hsolvable.left
    hsolvable.right hhead
  rw [htrue] at hhead
  rcases hcases with ⟨hfalse, _⟩ | ⟨_, rest', htail, heq⟩
  · rw [htrue] at hfalse
    cases hfalse
  · exact ⟨u', w₁, rest', hhead, htail, heq⟩

theorem unchanged_behind (hunwritten : Unwritten vcon (supportOf (p :: ps)))
    {u u' : VariableDefaultSolver} (hu : Built vcon p u)
    (hrest : List.Forall₂ (Built vcon) ps solvers_) {w₁ : World}
    (hhead : VariableDefaultSolver.solve env u w = .ok (result, u', w₁))
    {v : VariableDefaultSolver} (hv : v ∈ solvers_) :
    query v w₁.memory = query v w.memory ∧
      (Solvable v w₁.memory ↔ Solvable v w.memory) := by
  rcases exists_built hrest hv with ⟨q, hq, hbuilt⟩
  have hwritten : WrittenOnly vcon (supportOf (p :: ps)) w.memory w₁.memory :=
    (solver_spec hu hhead).left.mono (support_subset_supportOf List.mem_cons_self)
  exact solvable_of_written hunwritten (List.mem_cons_of_mem p hq) hbuilt hwritten

theorem mem_front_append {v : VariableDefaultSolver} (hv : v ∈ front ++ [vs]) :
    v ∈ front ++ vs :: rest := by
  rw [← List.singleton_append, ← List.append_assoc]
  exact List.mem_append_left _ hv

/-- A solver that succeeds has no use for the value behind some write reference, unless
this is the one reference that it suggests. -/
theorem exists_unused {p : ConstraintPartition} (hunwritten : Unwritten vcon p.support_vars_)
    (hvs : Built vcon p vs) (hdrawn : Drawn vs) (hne : vs.var_ctn_.write_references ≠ [])
    (hsingle : forall pair, vs.var_ctn_.write_references = [pair] ->
      vs.random_write_refs_ ≠ [pair])
    (hmet : forall pair, pair ∈ vs.var_ctn_.write_references -> Constrained vs pair.1)
    {vs' : VariableDefaultSolver} {w₁ : World}
    (hhead : VariableDefaultSolver.solve env vs w = .ok (true, vs', w₁)) :
    exists pair, pair ∈ vs.var_ctn_.write_references ∧ forall a,
      VariableDefaultSolver.solve env vs (w.setValue pair.2 a) = .ok (true, vs', w₁) := by
  have hvs' := hvs.solve hhead
  have hperm := VariableDefaultSolver.random_solve hvs.ready hhead
  have hctn : vs'.var_ctn_ = vs.var_ctn_ := by rw [hvs'.var_ctn, hvs.var_ctn]
  have hexists : exists pair, pair ∈ vs'.var_ctn_.write_references ∧
      pair ∉ suggestedRefs vs' := by
    apply VariableDefaultSolver.exists_not_suggested
    · exact hperm.nodup_iff.mpr hdrawn.nodup
    · exact hvs'.ready.random
    · rw [hctn]
      exact hne
    · intro pair hwrite hrandom
      rw [hctn] at hwrite
      apply hsingle pair hwrite
      apply List.perm_singleton.mp
      rw [← hrandom]
      exact hperm.symm
  rcases hexists with ⟨pair, hpair, hsuggested⟩
  rw [hctn] at hpair
  exists pair
  constructor
  · exact hpair
  · have hreads : forall q, q ∈ vs.var_ctn_.read_references -> q.2 ≠ pair.2 := by
      intro q hq
      rw [hvs.var_ctn] at hq hpair
      rcases VariableContainer.mem_select.mp hq with ⟨hq, hqid⟩
      rcases VariableContainer.mem_select.mp hpair with ⟨hpair, hid⟩
      exact hunwritten q hq hqid pair hpair hid
    have hread : (vs'.solver_.read pair.1).isSome = true := by
      rcases hmet pair hpair with ⟨c, hc, hcover, hid⟩
      rw [hvs.constr_pttn] at hc
      rcases hvs'.met c hc hcover pair.1 hid with ⟨d, _, hterminal⟩
      rw [MetaSMTVisitor.read, hterminal]
      rfl
    exact VariableDefaultSolver.solve_setValue_of_mem hvs.ready hhead hpair hsuggested hreads hread

/-- Once a solver that does not keep its values has succeeded, one of the values from
before plays no part in the call any more. -/
theorem exists_setValue (hps : Separated vcon ps) (hunwritten : Unwritten vcon (supportOf ps))
    (hbuilt : List.Forall₂ (Built vcon) ps (front ++ vs :: rest)) (hdrawn : Drawn vs)
    (hcomplete : env.Complete) (hne : vs.var_ctn_.write_references ≠ [])
    (hsingle : forall pair, vs.var_ctn_.write_references = [pair] ->
      vs.random_write_refs_ ≠ [pair])
    (hmet : forall pair, pair ∈ vs.var_ctn_.write_references -> Constrained vs pair.1)
    (hsolvable : forall u, u ∈ front ++ [vs] -> Solvable u w.memory)
    (h : solveFrom env (front ++ vs :: rest) w = .ok (result, solvers', w')) :
    exists pair, pair ∈ vs.var_ctn_.write_references ∧ forall a,
      solveFrom env (front ++ vs :: rest) (w.setValue pair.2 a) = .ok (result, solvers', w') := by
  induction front generalizing ps w solvers' with
  | nil =>
      cases hbuilt with
      | @cons p _ ps _ hvs hrest =>
          have hself := hsolvable vs (List.mem_singleton_self vs)
          rcases solveFrom_cons_solvable hvs hcomplete hself h with
            ⟨vs', w₁, rest', hhead, htail, rfl⟩
          have hown := hunwritten.mono (support_subset_supportOf List.mem_cons_self)
          rcases exists_unused hown hvs hdrawn hne hsingle hmet hhead with ⟨pair, hpair, hany⟩
          exists pair
          constructor
          · exact hpair
          · intro a
            exact bind_eq_ok.mpr ⟨_, hany a, bind_eq_ok.mpr ⟨_, htail, rfl⟩⟩
  | cons u front ih =>
      cases hbuilt with
      | @cons p _ ps _ hu hrest =>
          rcases solveFrom_cons_solvable hu hcomplete (hsolvable u List.mem_cons_self) h with
            ⟨u', w₁, rest', hhead, htail, rfl⟩
          have hsub : supportOf ps ⊆ supportOf (p :: ps) :=
            supportOf_subset fun q hq => List.mem_cons_of_mem p hq
          have hsolvable' : forall v, v ∈ front ++ [vs] -> Solvable v w₁.memory := by
            intro v hv
            exact (unchanged_behind hunwritten hu hrest hhead (mem_front_append hv)).right.mpr
              (hsolvable v (List.mem_cons_of_mem u hv))
          rcases ih hps.tail (hunwritten.mono hsub) hrest hsolvable' htail with
            ⟨pair, hpair, hsame⟩
          rcases exists_built hrest (List.mem_append_right _ List.mem_cons_self) with
            ⟨q, hq, hbuilt⟩
          rcases location_ne hps hunwritten hq hu hbuilt hpair with ⟨hreads, hwrites⟩
          exists pair
          constructor
          · exact hpair
          · intro a
            have hcall := VariableDefaultSolver.solve_setValue_of_not_mem hu.ready hhead hreads
              hwrites a
            exact bind_eq_ok.mpr ⟨_, hcall, bind_eq_ok.mpr ⟨_, hsame a, rfl⟩⟩

theorem value_of_solve {p : ConstraintPartition} {vs' : VariableDefaultSolver}
    (hbuilt : Built vcon p vs) {pair : Nat × Nat}
    (hpair : pair ∈ vs.var_ctn_.write_references) (hmet : Constrained vs pair.1)
    (h : VariableDefaultSolver.solve env vs w = .ok (true, vs', w')) :
    w'.memory pair.2 =
      vs'.solver_.model (.terminal pair.1) % 2 ^ (vs.var_ctn_.declOf pair.1).bitsize := by
  rcases hmet with ⟨c, hc, hcover, hid⟩
  rw [hbuilt.constr_pttn] at hc
  rcases (hbuilt.solve h).met c hc hcover pair.1 hid with ⟨d, hd, hterminal⟩
  have hdecl : (vs.var_ctn_.declOf pair.1).bitsize = d.bitsize := by
    have hsupport : pair.1 ∈ p.support_vars_ := by
      rw [hbuilt.var_ctn] at hpair
      exact (VariableContainer.mem_select.mp hpair).right
    rw [hbuilt.var_ctn, declOf_restrict hsupport, VariableContainer.variables_declOf hd]
  rw [VariableDefaultSolver.world_solve hbuilt.ready h]
  show writeBack vs'.solver_ vs.var_ctn_.write_references w.memory pair.2 = _
  rw [writeBack_of_mem vs.var_ctn_.locations_nodup hpair, MetaSMTVisitor.read, hterminal, hdecl]
  rfl

/-- What a write reference holds in the end is the value of a solution. -/
theorem exists_solution (hps : Separated vcon ps) (hunwritten : Unwritten vcon (supportOf ps))
    (hbuilt : List.Forall₂ (Built vcon) ps (front ++ vs :: rest)) (hsound : env.Sound)
    (hcomplete : env.Complete) {pair : Nat × Nat}
    (hpair : pair ∈ vs.var_ctn_.write_references) (hmet : Constrained vs pair.1)
    (hsolvable : forall u, u ∈ front ++ [vs] -> Solvable u w.memory)
    (h : solveFrom env (front ++ vs :: rest) w = .ok (result, solvers', w')) :
    exists m, Term.Satisfies m (query vs w.memory) ∧
      w'.memory pair.2 = m (.terminal pair.1) % 2 ^ (vs.var_ctn_.declOf pair.1).bitsize := by
  induction front generalizing ps w solvers' with
  | nil =>
      cases hbuilt with
      | @cons p _ ps _ hvs hrest =>
          have hself := hsolvable vs (List.mem_singleton_self vs)
          rcases solveFrom_cons_solvable hvs hcomplete hself h with
            ⟨vs', w₁, rest', hhead, htail, _⟩
          exists vs'.solver_.model
          constructor
          · exact VariableDefaultSolver.satisfies_of_solve hvs.ready hsound hhead
          · rw [← value_of_solve hvs hpair hmet hhead]
            -- the solvers behind it write other variables
            apply (solveFrom_spec hrest htail).right.left
            intro q hq hqs heq
            rw [hvs.var_ctn] at hpair
            rcases VariableContainer.mem_select.mp hpair with ⟨hpair, hid⟩
            rw [write_eq_of_location hq hpair heq] at hqs
            exact Set.disjoint_left.mp hps.disjoint_tail hid hqs
  | cons u front ih =>
      cases hbuilt with
      | @cons p _ ps _ hu hrest =>
          rcases solveFrom_cons_solvable hu hcomplete (hsolvable u List.mem_cons_self) h with
            ⟨u', w₁, rest', hhead, htail, _⟩
          have hsub : supportOf ps ⊆ supportOf (p :: ps) :=
            supportOf_subset fun q hq => List.mem_cons_of_mem p hq
          have hsolvable' : forall v, v ∈ front ++ [vs] -> Solvable v w₁.memory := by
            intro v hv
            exact (unchanged_behind hunwritten hu hrest hhead (mem_front_append hv)).right.mpr
              (hsolvable v (List.mem_cons_of_mem u hv))
          have hvs : vs ∈ front ++ vs :: rest := List.mem_append_right _ List.mem_cons_self
          rw [← (unchanged_behind hunwritten hu hrest hhead hvs).left]
          exact ih hps.tail (hunwritten.mono hsub) hrest hsolvable' htail

/-- When the values from before are still there whatever they were, the solver keeps
them. -/
theorem keeps_of_unchanged (hps : Separated vcon ps) (hunwritten : Unwritten vcon (supportOf ps))
    (hbuilt : List.Forall₂ (Built vcon) ps (front ++ vs :: rest)) (hdrawn : Drawn vs)
    (hsound : env.Sound) (hcomplete : env.Complete)
    (hmet : forall pair, pair ∈ vs.var_ctn_.write_references -> Constrained vs pair.1)
    (hsolvable : forall u, u ∈ front ++ [vs] -> Solvable u w.memory)
    (h : solveFrom env (front ++ vs :: rest) w = .ok (result, solvers', w'))
    (hsame : forall pair, pair ∈ vs.var_ctn_.write_references -> forall a,
      a = w.memory pair.2 ∨ a < 2 ->
        solveFrom env (front ++ vs :: rest) (w.setValue pair.2 a) = .ok (result, solvers', w') ->
          w'.memory pair.2 = a) : Keeps vs w.memory := by
  by_cases hne : vs.var_ctn_.write_references = []
  · exact Or.inl hne
  · by_cases hsingle : exists pair, vs.var_ctn_.write_references = [pair] ∧
        vs.random_write_refs_ = [pair]
    · rcases hsingle with ⟨pair, hwrite, hrandom⟩
      have hpair : pair ∈ vs.var_ctn_.write_references := by
        rw [hwrite]
        exact List.mem_singleton_self pair
      have hself : w.setValue pair.2 (w.memory pair.2) = w := by
        unfold World.setValue
        rw [Function.update_eq_self]
      rcases exists_solution hps hunwritten hbuilt hsound hcomplete hpair (hmet pair hpair)
        hsolvable h with ⟨m, hm, hvalue⟩
      refine Or.inr ⟨pair, hwrite, hrandom, m, hm, ?_⟩
      rw [← hvalue]
      apply hsame pair hpair _ (Or.inl rfl)
      rw [hself]
      exact h
    · have hnot : forall pair, vs.var_ctn_.write_references = [pair] ->
          vs.random_write_refs_ ≠ [pair] :=
        fun pair hwrite hrandom => hsingle ⟨pair, hwrite, hrandom⟩
      rcases exists_setValue hps hunwritten hbuilt hdrawn hcomplete hne hnot hmet hsolvable h with
        ⟨pair, hpair, hany⟩
      -- the final value does not depend on the value from before
      have hzero := hsame pair hpair 0 (Or.inr Nat.zero_lt_two) (hany 0)
      have hone := hsame pair hpair 1 (Or.inr Nat.one_lt_two) (hany 1)
      rw [hzero] at hone
      cases hone

theorem solvable_of_reported (hunwritten : Unwritten vcon (supportOf ps))
    (hall : BuiltAmong vcon ps solvers_) {memory : Memory} {size : RandVec -> Nat}
    (h : Reported vcon ps solvers_ memory size) {vs : VariableDefaultSolver}
    (hvs : vs ∈ solvers_) : Solvable vs memory := by
  rcases (hall vs hvs).right with ⟨p, hp, hbuilt⟩
  rcases h.solution vs hvs with ⟨hcontr, m, memory', hwritten, hm, _⟩
  exact (solvable_of_written hunwritten hp hbuilt hwritten).right.mp ⟨hcontr, m, hm⟩

theorem exists_solveFrom (hbdd : forall o, env.bdd = some o -> o.Complete)
    (hchecked : forall vs, vs ∈ solvers_ -> Checked vs)
    (hready : forall vs, vs ∈ solvers_ -> VariableDefaultSolver.Ready vcon.variables_ vs)
    (w : World) :
    exists result solvers' w', solveFrom env solvers_ w = .ok (result, solvers', w') := by
  induction solvers_ generalizing w with
  | nil => exact ⟨true, [], w, rfl⟩
  | cons vs rest ih =>
      rcases (hchecked vs List.mem_cons_self).exists_solve (hready vs List.mem_cons_self) hbdd w
        with ⟨r, vs', w₁, hhead⟩
      cases r with
      | false => exact ⟨false, vs' :: rest, w₁, bind_eq_ok.mpr ⟨_, hhead, rfl⟩⟩
      | true =>
          rcases ih (fun u hu => hchecked u (List.mem_cons_of_mem vs hu))
            (fun u hu => hready u (List.mem_cons_of_mem vs hu)) w₁ with
            ⟨result, rest', w', htail⟩
          exact ⟨result, vs' :: rest', w',
            bind_eq_ok.mpr ⟨_, hhead, bind_eq_ok.mpr ⟨_, htail, rfl⟩⟩⟩

theorem solveFrom_of_solvable (hbdd : forall o, env.bdd = some o -> o.Complete)
    (hchecked : forall vs, vs ∈ solvers_ -> Checked vs)
    (hunwritten : Unwritten vcon (supportOf ps)) (hall : BuiltAmong vcon ps solvers_)
    (hcomplete : env.Complete) (hsolvable : forall vs, vs ∈ solvers_ -> Solvable vs w.memory) :
    exists solvers' w', solveFrom env solvers_ w = .ok (true, solvers', w') := by
  rcases exists_solveFrom hbdd hchecked (fun _ => hall.ready) w with ⟨result, solvers', w', h⟩
  cases result with
  | true => exact ⟨solvers', w', h⟩
  | false =>
      rcases exists_not_solvable hall hcomplete h with ⟨vs, hvs, memory, hwritten, hnot⟩
      rcases (hall vs hvs).right with ⟨p, hp, hbuilt⟩
      have hsame := (solvable_of_written hunwritten hp hbuilt hwritten).right
      exact absurd (hsame.mpr (hsolvable vs hvs)) hnot

end Unwritten

end VariableGenerator

end Backend
end Crave
