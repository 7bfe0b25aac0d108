import Crave.Experimental.ExecutorVisit

/-!
# Derivations of the executor

The paths that the executor runs along are the maximal paths of its graph, each once,
and the actions along them are those of the derivations of the root.
-/

namespace Crave
namespace Experimental
namespace Graph

universe u

variable {α : Type u}

namespace Executor

open RuleTree

/-!
## Maximal paths
-/

inductive MaximalPath (m_adj : Nat -> List Nat) : Nat -> List Nat -> Prop where
  | last {v : Nat} : m_adj v = [] -> MaximalPath m_adj v [v]
  | step {v w : Nat} {p : List Nat} :
      w ∈ m_adj v -> MaximalPath m_adj w p -> MaximalPath m_adj v (v :: p)

theorem MaximalPath.head {m_adj : Nat -> List Nat} {v : Nat} {p : List Nat}
    (h : MaximalPath m_adj v p) : exists q, p = v :: q := by
  cases h with
  | last _ => exact ⟨[], rfl⟩
  | step _ _ => exact ⟨_, rfl⟩

theorem mem_dfsAll {dfs : Nat -> Except Failure (List (List Nat))}
    {P : Nat -> List Nat -> Prop}
    (hdfs : forall i paths, dfs i = .ok paths -> forall p, p ∈ paths ↔ P i p)
    {adj : List Nat} {paths : List (List Nat)} (h : dfsAll dfs adj = .ok paths) (p : List Nat) :
    p ∈ paths ↔ exists i, i ∈ adj ∧ P i p := by
  induction adj generalizing paths with
  | nil =>
      cases h
      simp
  | cons i adj ih =>
      simp only [dfsAll] at h
      cases hi : dfs i with
      | error failure =>
          rw [hi] at h
          cases h
      | ok first =>
          rw [hi] at h
          cases hadj : dfsAll dfs adj with
          | error failure =>
              rw [hadj] at h
              cases h
          | ok later =>
              rw [hadj] at h
              cases h
              simp [hdfs i first hi p, ih hadj]

theorem mem_dfs {m_adj : Nat -> List Nat} {fuel v : Nat} {path : List Nat}
    {paths : List (List Nat)} (h : dfs m_adj fuel v path = .ok paths) (p : List Nat) :
    p ∈ paths ↔ exists q, MaximalPath m_adj v q ∧ p = path ++ q := by
  induction fuel generalizing v path paths p with
  | zero => cases h
  | succ fuel ih =>
      rw [dfs] at h
      cases hadj : m_adj v with
      | nil =>
          rw [hadj] at h
          simp only at h
          split at h
          · cases h
            rw [List.mem_singleton]
            constructor
            · intro hp
              exact ⟨[v], MaximalPath.last hadj, hp⟩
            · rintro ⟨q, hq, rfl⟩
              cases hq with
              | last _ => rfl
              | step hw _ =>
                  rw [hadj] at hw
                  cases hw
          · cases h
      | cons i adj =>
          rw [hadj] at h
          rw [mem_dfsAll (fun i paths hi p => ih hi p) h, ← hadj]
          constructor
          · rintro ⟨w, hw, q, hq, rfl⟩
            exact ⟨v :: q, MaximalPath.step hw hq, by simp⟩
          · rintro ⟨q, hq, rfl⟩
            cases hq with
            | last hnone =>
                rw [hadj] at hnone
                cases hnone
            | step hw hq => exact ⟨_, hw, _, hq, by simp⟩

theorem nodup_dfsAll {dfs : Nat -> Except Failure (List (List Nat))}
    {P : Nat -> List Nat -> Prop}
    (hdfs : forall i paths, dfs i = .ok paths -> paths.Nodup ∧ forall p, p ∈ paths ↔ P i p)
    (hdisjoint : forall i j p, P i p -> P j p -> i = j) {adj : List Nat} (hadj : adj.Nodup)
    {paths : List (List Nat)} (h : dfsAll dfs adj = .ok paths) :
    paths.Nodup := by
  induction adj generalizing paths with
  | nil =>
      cases h
      exact List.nodup_nil
  | cons i adj ih =>
      simp only [dfsAll] at h
      cases hi : dfs i with
      | error failure =>
          rw [hi] at h
          cases h
      | ok first =>
          rw [hi] at h
          cases hlater : dfsAll dfs adj with
          | error failure =>
              rw [hlater] at h
              cases h
          | ok later =>
              rw [hlater] at h
              cases h
              rcases List.nodup_cons.mp hadj with ⟨hnew, hrest⟩
              apply List.Nodup.append (hdfs i first hi).1 (ih hrest hlater)
              intro p hp hp'
              have hfirst := ((hdfs i first hi).2 p).mp hp
              rcases (mem_dfsAll (fun j ps hj => (hdfs j ps hj).2) hlater p).mp hp' with
                ⟨j, hj, hlast⟩
              rw [hdisjoint i j p hfirst hlast] at hnew
              exact hnew hj

theorem nodup_dfs {m_adj : Nat -> List Nat} (hnodup : forall v, (m_adj v).Nodup)
    {fuel v : Nat} {path : List Nat} {paths : List (List Nat)}
    (h : dfs m_adj fuel v path = .ok paths) : paths.Nodup := by
  induction fuel generalizing v path paths with
  | zero => cases h
  | succ fuel ih =>
      rw [dfs] at h
      cases hadj : m_adj v with
      | nil =>
          rw [hadj] at h
          simp only at h
          split at h
          · cases h
            exact List.nodup_singleton _
          · cases h
      | cons i adj =>
          rw [hadj] at h
          have hlist := hnodup v
          rw [hadj] at hlist
          apply nodup_dfsAll (fun i paths hi => ⟨ih hi, mem_dfs hi⟩) ?_ hlist h
          rintro a b p ⟨q, hq, rfl⟩ ⟨q', hq', heq⟩
          rcases hq.head with ⟨r, rfl⟩
          rcases hq'.head with ⟨r', rfl⟩
          cases List.append_cancel_left heq
          rfl

theorem last_dfs {m_adj : Nat -> List Nat} {fuel v : Nat} {path : List Nat}
    {paths : List (List Nat)} (h : dfs m_adj fuel v path = .ok paths) (p : List Nat)
    (hp : p ∈ paths) : p.getLast? = some 2 := by
  induction fuel generalizing v path paths with
  | zero => cases h
  | succ fuel ih =>
      rw [dfs] at h
      cases hadj : m_adj v with
      | nil =>
          rw [hadj] at h
          simp only at h
          split at h
          · rename_i hv
            cases h
            cases List.mem_singleton.mp hp
            simp [hv]
          · cases h
      | cons i adj =>
          rw [hadj] at h
          simp only at h
          generalize i :: adj = is at h
          induction is generalizing paths with
          | nil =>
              cases h
              cases hp
          | cons j js ihjs =>
              simp only [dfsAll] at h
              cases hj : dfs m_adj fuel j (path ++ [v]) with
              | error failure =>
                  rw [hj] at h
                  cases h
              | ok first =>
                  rw [hj] at h
                  cases hjs : dfsAll (fun i => dfs m_adj fuel i (path ++ [v])) js with
                  | error failure =>
                      rw [hjs] at h
                      cases h
                  | ok later =>
                      rw [hjs] at h
                      cases h
                      rcases List.mem_append.mp hp with hfirst | hlater
                      · exact ih hj hfirst
                      · exact ihjs hlater hjs

/-!
## Actions
-/

/-- The actions of a rule around those of the nodes below it. -/
def around (r : Option (Rule α)) (body : List α) : List α :=
  (r.bind Rule.entry).toList ++ (r.bind Rule.main).toList ++ body ++
    (r.bind Rule.exit).toList

mutual

/-- The actions of a derivation, properly nested. -/
def actions (m_rules : String -> Option (Rule α)) : Derivation -> List α
  | .terminal name => around (m_rules name) []
  | .selector name _ d => around (getRule m_rules name) (actions m_rules d)
  | .sequence name ds => around (getRule m_rules name) (actionsAll m_rules ds)

def actionsAll (m_rules : String -> Option (Rule α)) : List Derivation -> List α
  | [] => []
  | d :: ds => actions m_rules d ++ actionsAll m_rules ds

end

def along (m_actions : Nat -> Option (Option α)) (path : List Nat) : List α :=
  path.filterMap fun i => (m_actions i).join

theorem along_append (m_actions : Nat -> Option (Option α)) (p q : List Nat) :
    along m_actions (p ++ q) = along m_actions p ++ along m_actions q :=
  List.filterMap_append

theorem along_cons (m_actions : Nat -> Option (Option α)) (i : Nat) (p : List Nat) :
    along m_actions (i :: p) = (m_actions i).join.toList ++ along m_actions p := by
  simp only [along, List.filterMap_cons]
  cases (m_actions i).join <;> rfl

/-- The actions along a path that goes into a node, through it and out again. -/
theorem along_around {m_actions : Nat -> Option (Option α)} {r : Option (Rule α)} {k : Nat}
    (h : LabelledRule m_actions r k) (p : List Nat) :
    along m_actions (k :: (k + 1) :: (p ++ [k + 2])) = around r (along m_actions p) := by
  rcases h with ⟨hentry, hmain, hexit⟩
  have hjoin : forall f : Rule α -> Option α, (r.map f).join = r.bind f := by
    intro f
    cases r <;> rfl
  rw [along_cons, along_cons, along_append, along_cons, hentry, hmain, hexit, hjoin, hjoin,
    hjoin]
  simp [around, along]

mutual

/-- The paths through a node carry the actions of its derivations, in the same order. -/
theorem along_inner {m_rules : String -> Option (Rule α)}
    {m_actions : Nat -> Option (Option α)} (t : RuleTree) {k : Nat}
    (h : Labelled m_rules m_actions t k) :
    (inner t k).map (fun p => along m_actions (p ++ [k + 2])) =
      (derivations t).map (actions m_rules) := by
  cases t with
  | terminal name =>
      have haround := along_around h []
      exact congrArg (fun xs => [xs]) haround
  | nonTerminal kind name children =>
      rcases h with ⟨hrule, hchildren⟩
      cases kind with
      | Selector =>
          have hchoices := along_innerChoices children hchildren
          have hnested : (inner (.nonTerminal .Selector name children) k).map
              (fun p => along m_actions (p ++ [k + 2])) =
                ((innerChoices children (k + 3)).map (along m_actions)).map
                  (around (getRule m_rules name)) := by
            rw [RuleTree.inner, List.map_map, List.map_map]
            apply List.map_congr_left
            intro p _
            exact along_around hrule p
          rw [hnested, hchoices]
          simp [derivations, actions, Function.comp_def]
      | Sequence =>
          have hsteps := along_innerSteps children hchildren
          have hnested : (inner (.nonTerminal .Sequence name children) k).map
              (fun p => along m_actions (p ++ [k + 2])) =
                ((innerSteps children (k + 3)).map (along m_actions)).map
                  (around (getRule m_rules name)) := by
            rw [RuleTree.inner, List.map_map, List.map_map]
            apply List.map_congr_left
            intro p _
            exact along_around hrule p
          rw [hnested, hsteps]
          simp [derivations, actions, Function.comp_def]

theorem along_innerChoices {m_rules : String -> Option (Rule α)}
    {m_actions : Nat -> Option (Option α)} (children : List RuleTree) {k : Nat}
    (h : LabelledAll m_rules m_actions children k) :
    (innerChoices children k).map (along m_actions) =
      (choices children).map fun c => actions m_rules c.2 := by
  cases children with
  | nil => rfl
  | cons t rest =>
      have hfirst := along_inner t h.1
      have hrest := along_innerChoices rest h.2
      simp only [innerChoices, choices, List.map_append, List.map_map, Function.comp_def]
      rw [hfirst, hrest]

theorem along_innerSteps {m_rules : String -> Option (Rule α)}
    {m_actions : Nat -> Option (Option α)} (children : List RuleTree) {k : Nat}
    (h : LabelledAll m_rules m_actions children k) :
    (innerSteps children k).map (along m_actions) =
      (steps children).map (actionsAll m_rules) := by
  cases children with
  | nil => rfl
  | cons t rest =>
      have hfirst := along_inner t h.1
      have hrest := along_innerSteps rest h.2
      have hpaths : (innerSteps (t :: rest) k).map (along m_actions) =
          ((inner t k).map fun p => along m_actions (p ++ [k + 2])).flatMap fun xs =>
            ((innerSteps rest (k + 3 * size t)).map (along m_actions)).map fun ys => xs ++ ys := by
        simp only [innerSteps, List.map_flatMap, List.flatMap_map, List.map_map]
        congr 1
        funext p
        congr 1
        funext q
        simp [← along_append]
      rw [hpaths, hfirst, hrest]
      simp only [steps, List.map_flatMap, List.flatMap_map, List.map_map]
      rfl

end

/-- The executor completes each maximal path of its graph once and ends each at the exit,
there are as many as derivations of the root, and the actions along them are those of the
derivations. -/
theorem execute_correct (m_rules : String -> Option (Rule α)) (root : RuleTree)
    (hnonempty : Nonempty root) (hregistered : Registered m_rules root) :
    exists e paths, execute m_rules root = .ok (e, paths) ∧
      (forall p, p ∈ paths ↔ MaximalPath e.m_adj 0 p) ∧ paths.Nodup ∧
        (forall p, p ∈ paths -> p.getLast? = some 2) ∧
          paths.length = countDerivations root ∧
            paths.map (actionsAlong e) = (derivations root).map (actions m_rules) ∧
              (derivations root).Nodup ∧
                forall d, d ∈ derivations root ↔ IsDerivation root d := by
  rcases visited_visit root sound_new hregistered with ⟨e, hvisit, hvisited⟩
  have hid : e.m_id = 0 + 3 * size root := hvisited.id.trans rfl
  have hend : Completes e.m_adj (0 + 1) (0 + 2) [[2]] := by
    intro path
    rw [dfs, show e.m_adj (0 + 2) = [] from hvisited.exit]
    rfl
  have hcompletes : dfs e.m_adj (0 + 3 * size root) 0 [] =
      .ok ((continued (inner root 0) [[2]]).map fun q => [] ++ q) :=
    completes_of_realizes root hvisited.realizes hnonempty hend []
  have hdfs : dfs e.m_adj e.m_id 0 [] = .ok ((inner root 0).map fun p => p ++ [0 + 2]) := by
    rw [hid, hcompletes]
    simp [continued, ← List.map_eq_flatMap]
  have hactions : ((inner root 0).map fun p => p ++ [0 + 2]).map (actionsAlong e) =
      (derivations root).map (actions m_rules) := by
    rw [List.map_map]
    exact along_inner root hvisited.labelled
  refine ⟨e, _, ?_, ?_, nodup_dfs hvisited.sound.nodup hdfs, last_dfs hdfs, ?_,
    hactions, nodup_derivations root, mem_derivations root⟩
  · simp only [execute, hvisit, hdfs]
  · intro p
    simp [mem_dfs hdfs p]
  · have hlength := congrArg List.length hactions
    simpa [length_derivations] using hlength

theorem execute_correct_nested :
    let m_rules : String -> Option (Rule String) := fun name =>
      if name = "r" then none else some ⟨none, some name, none⟩
    let root : RuleTree := .nonTerminal .Sequence (some "r")
      [.terminal "a", .nonTerminal .Selector none [.terminal "b", .terminal "c"], .terminal "a"]
    exists e paths, execute m_rules root = .ok (e, paths) ∧
      (forall p, p ∈ paths ↔ MaximalPath e.m_adj 0 p) ∧ paths.Nodup ∧
        (forall p, p ∈ paths -> p.getLast? = some 2) ∧
          paths.length = 2 ∧
            paths.map (actionsAlong e) = [["a", "b", "a"], ["a", "c", "a"]] ∧
              (derivations root).Nodup ∧
                forall d, d ∈ derivations root ↔ IsDerivation root d := by
  intro m_rules root
  exact execute_correct m_rules root (by simp [root, RuleTree.Nonempty, RuleTree.NonemptyAll])
    (by simp [root, m_rules, Registered, RegisteredAll])

end Executor

end Graph
end Experimental
end Crave
