import Crave.Experimental.Executor
import Crave.Frontend.ObjectCoverage
import Crave.Frontend.RandObjCoverage

/-!
# The actions along a path run until it is covered

At the end of a path the executor resets the coverage of the objects that are bound to the
rules on it, and then runs the actions along the path again and again until all of these
objects are covered.
-/

namespace Crave
namespace Experimental
namespace Graph

open Foundation Ir Backend Frontend

universe u

variable {α : Type u}

/-- An action changes the objects and the world, and it may throw. -/
abbrev Action := RandObjs -> World -> Except String Unit × RandObjs × World

/-- What the functions of the rules do, and the objects that rules are bound to. -/
structure Bindings (α : Type u) where
  call : α -> Action
  m_rand_obj : Rule α -> Option Nat

namespace Action

def skip : Action :=
  fun s w => (.ok (), s, w)

/-- A loop over the vertices of a path, which an exception ends. -/
def forEach (f : Nat -> Action) : List Nat -> Action
  | [] => skip
  | i :: rest => fun s w =>
      match f i s w with
      | (.error what, s, w) => (.error what, s, w)
      | (.ok (), s, w) => forEach f rest s w

end Action

namespace Bindings

/-- The action that `bind_rand_obj` gives to a rule. -/
def gen (env : Environment) (vcon : VariableContainer) (m_rand_obj : Option Nat) : Action :=
  match m_rand_obj with
  | none => Action.skip
  | some i => fun s w =>
      match s.next_cov env vcon i w with
      | (.error what, s, w) => (.error what, s, w)
      | (.ok false, s, w) => (.error "m_rand_obj->next_cov()", s, w)
      | (.ok true, s, w) => (.ok (), s, w)

def is_rand_obj_covered (b : Bindings α) (r : Rule α) (s : RandObjs) : Bool :=
  match b.m_rand_obj r with
  | none => true
  | some i => s.isCovered i

def reset_coverage (env : Environment) (vcon : VariableContainer) (b : Bindings α)
    (r : Rule α) : Action :=
  match b.m_rand_obj r with
  | none => Action.skip
  | some i => fun s w =>
      s.onConstraint i fun g =>
        ((Generator.resetCoverage env vcon g).1, (Generator.resetCoverage env vcon g).2, w)

end Bindings

namespace Executor

def resetPath (env : Environment) (vcon : VariableContainer) (b : Bindings α) (e : Executor α)
    (path : List Nat) : Action :=
  Action.forEach (fun i =>
    match e.m_main_to_rule_map i with
    | none => Action.skip
    | some r => b.reset_coverage env vcon r) path

def runActions (b : Bindings α) (e : Executor α) (path : List Nat) : Action :=
  Action.forEach (fun i =>
    match (e.m_actions i).join with
    | none => Action.skip
    | some a => b.call a) path

def path_covered (b : Bindings α) (e : Executor α) (path : List Nat) (s : RandObjs) : Bool :=
  path.all fun i =>
    match e.m_main_to_rule_map i with
    | none => true
    | some r => b.is_rand_obj_covered r s

/-- The loop "repeat until path is covered". There is no result when the fuel is used up. -/
def repeatUntilCovered (b : Bindings α) (e : Executor α) (path : List Nat) :
    Nat -> RandObjs -> World -> Option (Except String Unit × RandObjs × World)
  | 0, _, _ => none
  | fuel + 1, s, w =>
      match runActions b e path s w with
      | (.error what, s, w) => some (.error what, s, w)
      | (.ok (), s, w) =>
          if path_covered b e path s then
            some (.ok (), s, w)
          else
            repeatUntilCovered b e path fuel s w

/-- What `dfs` does at the end of a path. -/
def completePath (env : Environment) (vcon : VariableContainer) (b : Bindings α) (e : Executor α)
    (path : List Nat) (fuel : Nat) (s : RandObjs) (w : World) :
    Option (Except String Unit × RandObjs × World) :=
  match resetPath env vcon b e path s w with
  | (.error what, s, w) => some (.error what, s, w)
  | (.ok (), s, w) => repeatUntilCovered b e path fuel s w

/-!
## The rule of a vertex and its action
-/

/-- The vertex of a rule has the main action of the rule. -/
def Mapped (e : Executor α) : Prop :=
  forall i r, e.m_main_to_rule_map i = some r -> i < e.m_id ∧ e.m_actions i = some r.main

theorem mapped_new : Mapped (new : Executor α) := by
  intro i r h
  cases h

theorem Mapped.make_edge {e : Executor α} (h : Mapped e) (s d : Nat) : Mapped (e.make_edge s d) :=
  h

theorem Mapped.pop {e : Executor α} (h : Mapped e) (stack : List (Nat × Nat)) :
    Mapped { e with m_stack := stack } :=
  h

theorem mapped_insertRule {e e' : Executor α} (h : Mapped e) (r : Option (Rule α))
    (hmap : e'.m_main_to_rule_map = (insertRule r e.m_id e).m_main_to_rule_map)
    (hactions : e'.m_actions = (insertRule r e.m_id e).m_actions)
    (hid : e'.m_id = e.m_id + 3) : Mapped e' := by
  intro i r' hi
  rw [hmap] at hi
  rw [hactions, hid]
  cases r with
  | none =>
      have hold := h i r' hi
      exact ⟨by omega, hold.right⟩
  | some r =>
      simp only [insertRule] at hi ⊢
      by_cases hmain : i = e.m_id + 1
      · rw [hmain, Function.update_self] at hi
        cases hi
        rw [hmain, Function.update_of_ne (by omega), Function.update_self]
        exact ⟨by omega, rfl⟩
      · rw [Function.update_of_ne hmain] at hi
        have hold := h i r' hi
        rw [Function.update_of_ne (by omega), Function.update_of_ne hmain,
          Function.update_of_ne (by omega)]
        exact ⟨by omega, hold.right⟩

theorem mapped_enter {m_rules : String -> Option (Rule α)} {name : Option String}
    {e : Executor α} (h : Mapped e) : Mapped (enter m_rules name e) := by
  apply mapped_insertRule h (getRule m_rules name)
  all_goals
    cases hrule : getRule m_rules name with
    | none => simp [enter, hrule, insertRule, make_edge, allocate]
    | some r => simp [enter, hrule, insertRule, make_edge, allocate]

mutual

theorem mapped_visit {m_rules : String -> Option (Rule α)} (t : RuleTree) {e e' : Executor α}
    (h : Mapped e) (hvisit : visit m_rules t e = .ok e') : Mapped e' := by
  cases t with
  | terminal name =>
      simp only [visit, visitTerminal] at hvisit
      split at hvisit
      · cases hvisit
      · next r _ =>
          cases hvisit
          exact mapped_insertRule h (some r) rfl rfl rfl
  | nonTerminal kind name children =>
      cases kind with
      | Selector =>
          simp only [visit] at hvisit
          exact mapped_choices children (mapped_enter h) hvisit
      | Sequence =>
          simp only [visit] at hvisit
          split at hvisit
          · cases hvisit
          · next hsteps =>
              cases hvisit
              exact (mapped_steps children (mapped_enter h) hsteps).make_edge _ _

theorem mapped_choices {m_rules : String -> Option (Rule α)} (children : List RuleTree)
    {start : Nat} {e e' : Executor α} (h : Mapped e)
    (hvisit : visitChoices m_rules start children e = .ok e') : Mapped e' := by
  cases children with
  | nil =>
      cases hvisit
      exact h
  | cons t rest =>
      simp only [visitChoices] at hvisit
      split at hvisit
      · cases hvisit
      · next e₁ hfirst =>
          have hmapped := mapped_visit t h hfirst
          split at hvisit
          · cases hvisit
          · exact mapped_choices rest (((hmapped.pop _).make_edge _ _).make_edge _ _) hvisit

theorem mapped_steps {m_rules : String -> Option (Rule α)} (children : List RuleTree)
    {last last' : Nat} {e e' : Executor α} (h : Mapped e)
    (hvisit : visitSteps m_rules children last e = .ok (last', e')) : Mapped e' := by
  cases children with
  | nil =>
      cases hvisit
      exact h
  | cons t rest =>
      simp only [visitSteps] at hvisit
      split at hvisit
      · cases hvisit
      · next e₁ hfirst =>
          have hmapped := mapped_visit t h hfirst
          split at hvisit
          · cases hvisit
          · exact mapped_steps rest ((hmapped.pop _).make_edge _ _) hvisit

end

theorem mapped_execute {m_rules : String -> Option (Rule α)} {root : RuleTree}
    {e : Executor α} {paths : List (List Nat)} (h : execute m_rules root = .ok (e, paths)) :
    Mapped e := by
  unfold execute at h
  split at h
  · cases h
  · next hvisit =>
      split at h
      · cases h
      · cases h
        exact mapped_visit root mapped_new hvisit

end Executor

/-!
## What actions do to the coverage
-/

namespace Action

/-- An action that returns has changed no constraints, and it has not reset the coverage. -/
def KeepsConstraints (env : Environment) (vcon : VariableContainer) (f : Action) : Prop :=
  forall s w s' w', f s w = (.ok (), s', w') ->
    exists calls, Trace (RandObjs.CoverageStep env vcon) (s, w) calls (s', w')

/-- An action that returns has called `next_cov` of the object, and nothing but such calls
has changed the objects. -/
def CallsNextCov (env : Environment) (vcon : VariableContainer) (o : Nat) (f : Action) : Prop :=
  forall s w s' w', f s w = (.ok (), s', w') ->
    exists calls, Trace (RandObjs.CoverageStep env vcon) (s, w) calls (s', w') ∧
      0 < calls.countP (RandObjs.CoverageCall.isNextCov o)

variable {env : Environment} {vcon : VariableContainer}

theorem keepsConstraints_skip : KeepsConstraints env vcon skip := by
  intro s w s' w' h
  cases h
  exact ⟨[], Trace.start⟩

theorem callsNextCov_gen (o : Nat) :
    CallsNextCov env vcon o (Bindings.gen env vcon (some o)) := by
  intro s w s' w' h
  simp only [Bindings.gen] at h
  split at h
  · cases h
  · cases h
  · next hcall =>
      cases h
      exists [.next_cov o]
      constructor
      · exact Trace.single (RandObjs.CoverageStep.next_cov o true hcall)
      · simp [RandObjs.CoverageCall.isNextCov]

theorem CallsNextCov.keepsConstraints {o : Nat} {f : Action} (h : CallsNextCov env vcon o f) :
    KeepsConstraints env vcon f := by
  intro s w s' w' hf
  rcases h s w s' w' hf with ⟨calls, htrace, _⟩
  exact ⟨calls, htrace⟩

theorem keepsConstraints_forEach {f : Nat -> Action} {path : List Nat}
    (hf : forall i, i ∈ path -> KeepsConstraints env vcon (f i)) :
    KeepsConstraints env vcon (forEach f path) := by
  induction path with
  | nil => exact keepsConstraints_skip
  | cons i rest ih =>
      intro s w s' w' h
      simp only [forEach] at h
      split at h
      · cases h
      · next s₁ w₁ hfirst =>
          rcases hf i List.mem_cons_self s w s₁ w₁ hfirst with ⟨calls, htrace⟩
          rcases ih (fun j hj => hf j (List.mem_cons_of_mem i hj)) s₁ w₁ s' w' h with
            ⟨later, hlater⟩
          exact ⟨calls ++ later, htrace.trans hlater⟩

theorem callsNextCov_forEach {f : Nat -> Action} {path : List Nat} {o k : Nat}
    (hf : forall i, i ∈ path -> KeepsConstraints env vcon (f i)) (hk : k ∈ path)
    (hcalls : CallsNextCov env vcon o (f k)) : CallsNextCov env vcon o (forEach f path) := by
  induction path with
  | nil => cases hk
  | cons i rest ih =>
      have hrest := fun j hj => hf j (List.mem_cons_of_mem i hj)
      intro s w s' w' h
      simp only [forEach] at h
      split at h
      · cases h
      · next s₁ w₁ hfirst =>
          cases List.mem_cons.mp hk with
          | inl heq =>
              rw [← heq] at hfirst
              rcases hcalls s w s₁ w₁ hfirst with ⟨calls, htrace, hcount⟩
              rcases keepsConstraints_forEach hrest s₁ w₁ s' w' h with ⟨later, hlater⟩
              exists calls ++ later
              constructor
              · exact htrace.trans hlater
              · rw [List.countP_append]
                exact Nat.add_pos_left hcount _
          | inr hmem =>
              rcases hf i List.mem_cons_self s w s₁ w₁ hfirst with ⟨calls, htrace⟩
              rcases ih hrest hmem s₁ w₁ s' w' h with ⟨later, hlater, hcount⟩
              exists calls ++ later
              constructor
              · exact htrace.trans hlater
              · rw [List.countP_append]
                exact Nat.add_pos_right _ hcount

end Action

namespace Executor

/-- An object that a rule on the path is bound to. -/
def Bound (b : Bindings α) (e : Executor α) (path : List Nat) (o : Nat) : Prop :=
  exists i r, i ∈ path ∧ e.m_main_to_rule_map i = some r ∧ b.m_rand_obj r = some o

/-- No action on the path changes the constraints, and the main action of every bound rule
calls `next_cov` of its object. -/
structure CoversPath (env : Environment) (vcon : VariableContainer) (b : Bindings α)
    (e : Executor α) (path : List Nat) : Prop where
  keeps : forall i a, i ∈ path -> (e.m_actions i).join = some a ->
    Action.KeepsConstraints env vcon (b.call a)
  calls : forall i r o, i ∈ path -> e.m_main_to_rule_map i = some r ->
    b.m_rand_obj r = some o -> exists a, r.main = some a ∧
      Action.CallsNextCov env vcon o (b.call a)

section Loop

variable {env : Environment} {vcon : VariableContainer} {b : Bindings α} {e : Executor α}
  {path : List Nat} {s s' : RandObjs} {w w' : World}

theorem callsNextCov_runActions (hmapped : Mapped e) (hcovers : CoversPath env vcon b e path)
    {o : Nat} (ho : Bound b e path o) :
    Action.CallsNextCov env vcon o (runActions b e path) := by
  rcases ho with ⟨k, r, hk, hr, hbound⟩
  rcases hcovers.calls k r o hk hr hbound with ⟨a, hmain, hcalls⟩
  have haction : (e.m_actions k).join = some a := by
    rw [(hmapped k r hr).right, hmain]
    rfl
  apply Action.callsNextCov_forEach _ hk
  · rw [haction]
    exact hcalls
  · intro i hi
    cases hjoin : (e.m_actions i).join with
    | none => exact Action.keepsConstraints_skip
    | some a => exact hcovers.keeps i a hi hjoin

theorem path_covered_of_bound (h : forall o, Bound b e path o -> s.isCovered o = true) :
    path_covered b e path s = true := by
  apply List.all_eq_true.mpr
  intro i hi
  split
  · rfl
  · next r hr =>
      unfold Bindings.is_rand_obj_covered
      split
      · rfl
      · next o ho => exact h o ⟨i, r, hi, hr, ho⟩

/-- One iteration closes a goal of each object that is not covered. -/
theorem progress_runActions (hmapped : Mapped e) (hcovers : CoversPath env vcon b e path)
    {o m : Nat} (ho : Bound b e path o) (hdue : s.CoverageDue o)
    (hopen : s.isCovered o = true ∨ s.openGoals o ≤ m)
    (hrun : runActions b e path s w = (.ok (), s', w')) :
    s'.CoverageDue o ∧ (s'.isCovered o = true ∨ s'.openGoals o < m) := by
  rcases callsNextCov_runActions hmapped hcovers ho s w s' w' hrun with ⟨calls, htrace, hcount⟩
  have hcountdown := RandObjs.coverage_countdown env vcon o
  constructor
  · exact hcountdown.invariant_trace htrace hdue
  · cases hopen with
    | inl hdone => exact Or.inl (hcountdown.stays_trace htrace hdue hdone)
    | inr hle =>
        cases hcountdown.progress_trace htrace hdue with
        | inl hdone => exact Or.inl hdone
        | inr hless =>
            apply Or.inr
            have hless' : s'.openGoals o + calls.countP (RandObjs.CoverageCall.isNextCov o) ≤
                s.openGoals o := hless
            omega

/-- The loop ends after as many iterations as some object has goals left, and one more. -/
theorem repeatUntilCovered_isSome (hmapped : Mapped e) (hcovers : CoversPath env vcon b e path)
    {m : Nat} (hdue : forall o, Bound b e path o -> s.CoverageDue o)
    (hopen : forall o, Bound b e path o -> s.isCovered o = true ∨ s.openGoals o ≤ m) :
    (repeatUntilCovered b e path (m + 1) s w).isSome = true := by
  induction m generalizing s w with
  | zero =>
      unfold repeatUntilCovered
      split
      · rfl
      · next s₁ w₁ hrun =>
          have hcovered : forall o, Bound b e path o -> s₁.isCovered o = true := by
            intro o ho
            cases (progress_runActions hmapped hcovers ho (hdue o ho) (hopen o ho) hrun).right with
            | inl hdone => exact hdone
            | inr hlt => exact absurd hlt (Nat.not_lt_zero _)
          rw [if_pos (path_covered_of_bound hcovered)]
          rfl
  | succ m ih =>
      unfold repeatUntilCovered
      split
      · rfl
      · next s₁ w₁ hrun =>
          have hprogress := fun o ho =>
            progress_runActions hmapped hcovers ho (hdue o ho) (hopen o ho) hrun
          split
          · rfl
          · apply ih
            · exact fun o ho => (hprogress o ho).left
            · exact fun o ho => (hprogress o ho).right.imp_right Nat.le_of_lt_succ

/-!
## The reset before the loop
-/

theorem reset_coverage_uncovered {r : Rule α} {o : Nat}
    (h : b.reset_coverage env vcon r s w = (.ok (), s', w')) :
    (b.m_rand_obj r = some o -> s'.isCovered o = false) ∧
      (s.isCovered o = false -> s'.isCovered o = false) := by
  unfold Bindings.reset_coverage at h
  cases hk : b.m_rand_obj r with
  | none =>
      rw [hk] at h
      cases h
      constructor
      · intro hsome
        cases hsome
      · exact id
  | some k =>
      rw [hk] at h
      rcases RandObjs.onConstraint_eq h with ⟨g, hg, hs'⟩
      have hg' : (Generator.resetCoverage env vcon (s.constraint k)).2 = g :=
        congrArg (fun p => p.2.1) hg
      have hself : s'.isCovered k = false := by
        show (s'.constraint k).covered_ = false
        rw [hs', RandObjs.constraint_setConstraint_self, ← hg']
        rfl
      constructor
      · intro hsome
        cases hsome
        exact hself
      · intro hbefore
        by_cases ho : o = k
        · rw [ho]
          exact hself
        · show (s'.constraint o).covered_ = false
          rw [hs', RandObjs.constraint_setConstraint_of_ne s ho]
          exact hbefore

theorem resetPath_uncovered (h : resetPath env vcon b e path s w = (.ok (), s', w')) {o : Nat} :
    (Bound b e path o -> s'.isCovered o = false) ∧
      (s.isCovered o = false -> s'.isCovered o = false) := by
  induction path generalizing s w with
  | nil =>
      cases h
      constructor
      · rintro ⟨i, r, hi, _⟩
        cases hi
      · exact id
  | cons i rest ih =>
      simp only [resetPath, Action.forEach] at h
      split at h
      · cases h
      · next s₁ w₁ hfirst =>
          have hrest := ih h
          cases hr : e.m_main_to_rule_map i with
          | none =>
              rw [hr] at hfirst
              cases hfirst
              constructor
              · rintro ⟨k, r, hk, hkr, hbound⟩
                cases List.mem_cons.mp hk with
                | inl heq =>
                    rw [heq, hr] at hkr
                    cases hkr
                | inr hmem => exact hrest.left ⟨k, r, hmem, hkr, hbound⟩
              · exact hrest.right
          | some r =>
              rw [hr] at hfirst
              have hone := @reset_coverage_uncovered _ env vcon b s s₁ w w₁ r o hfirst
              constructor
              · rintro ⟨k, r', hk, hkr, hbound⟩
                cases List.mem_cons.mp hk with
                | inl heq =>
                    rw [heq, hr] at hkr
                    cases hkr
                    exact hrest.right (hone.left hbound)
                | inr hmem => exact hrest.left ⟨k, r', hmem, hkr, hbound⟩
              · exact fun hbefore => hrest.right (hone.right hbefore)

/-- The open goals of all objects on a path. -/
def openAlong (b : Bindings α) (e : Executor α) (path : List Nat) (s : RandObjs) : Nat :=
  (path.map fun i =>
    match (e.m_main_to_rule_map i).bind b.m_rand_obj with
    | none => 0
    | some o => s.openGoals o).sum

theorem openGoals_le_openAlong {o : Nat} (ho : Bound b e path o) :
    s.openGoals o ≤ openAlong b e path s := by
  rcases ho with ⟨i, r, hi, hr, hbound⟩
  apply List.single_le_sum (fun _ _ => Nat.zero_le _)
  apply List.mem_map.mpr
  exists i
  constructor
  · exact hi
  · rw [hr, Option.bind_some, hbound]

theorem completePath_isSome (hmapped : Mapped e) (hcovers : CoversPath env vcon b e path)
    (s : RandObjs) (w : World) :
    exists fuel, (completePath env vcon b e path fuel s w).isSome = true := by
  cases hreset : resetPath env vcon b e path s w with
  | mk outcome p =>
      rcases p with ⟨s₁, w₁⟩
      exists openAlong b e path s₁ + 1
      unfold completePath
      rw [hreset]
      cases outcome with
      | error what => rfl
      | ok u =>
          apply repeatUntilCovered_isSome hmapped hcovers
          · intro o ho
            have huncovered := (resetPath_uncovered hreset).left ho
            exact ⟨fun _ => huncovered, fun _ => huncovered⟩
          · intro o ho
            exact Or.inr (openGoals_le_openAlong ho)

end Loop

theorem reachable_generatorPair (value : Nat) :
    Generator.Reachable envPair vconPair (generatorPair value).1 (generatorPair value).2 :=
  .step (.step (.new (worldPair value)) (.perform
      (.makeConstraint (some "hard") RandObjs.isSeven false false) true
      ⟨rfl, by decide, by decide, by decide⟩ rfl))
    (.perform (.makeConstraint (some "goal") isFive false true) true
      ⟨rfl, by decide, by decide, by decide⟩ rfl)

end Executor

end Graph
end Experimental
end Crave
