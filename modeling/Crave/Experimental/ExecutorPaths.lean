import Crave.Experimental.Executor

/-!
# Paths of the executor

The graph that a visit builds for a node lies between the first and the last of the
vertices it allocates there, and a path through it is one derivation of the node.
-/

namespace Crave
namespace Experimental
namespace Graph

universe u

variable {α : Type u}

/-!
## The graph of a node
-/

namespace RuleTree

mutual

/-- The number of visits below a node, itself included. -/
def size : RuleTree -> Nat
  | .terminal _ => 1
  | .nonTerminal _ _ children => sizeAll children + 1

def sizeAll : List RuleTree -> Nat
  | [] => 0
  | t :: rest => size t + sizeAll rest

end

/-- The first vertices of nodes that are visited one after the other. -/
def starts : List RuleTree -> Nat -> List Nat
  | [], _ => []
  | t :: rest, k => k :: starts rest (k + 3 * size t)

mutual

/-- The edges of a node whose vertices are allocated from `k` on. -/
def Realizes (m_adj : Nat -> List Nat) : RuleTree -> Nat -> Prop
  | .terminal _, k => m_adj k = [k + 1] ∧ m_adj (k + 1) = [k + 2]
  | .nonTerminal .Selector _ children, k =>
      m_adj k = [k + 1] ∧ m_adj (k + 1) = starts children (k + 3) ∧
        RealizesChoices m_adj children (k + 3) (k + 2)
  | .nonTerminal .Sequence _ children, k =>
      m_adj k = [k + 1] ∧ RealizesSteps m_adj children (k + 3) (k + 1) (k + 2)

def RealizesChoices (m_adj : Nat -> List Nat) : List RuleTree -> Nat -> Nat -> Prop
  | [], _, _ => True
  | t :: rest, k, fin =>
      Realizes m_adj t k ∧ m_adj (k + 2) = [fin] ∧
        RealizesChoices m_adj rest (k + 3 * size t) fin

def RealizesSteps (m_adj : Nat -> List Nat) : List RuleTree -> Nat -> Nat -> Nat -> Prop
  | [], _, last, fin => m_adj last = [fin]
  | t :: rest, k, last, fin =>
      m_adj last = [k] ∧ Realizes m_adj t k ∧
        RealizesSteps m_adj rest (k + 3 * size t) (k + 2) fin

end

mutual

/-- The paths through the graph of a node, without its last vertex. -/
def inner : RuleTree -> Nat -> List (List Nat)
  | .terminal _, k => [[k, k + 1]]
  | .nonTerminal .Selector _ children, k =>
      (innerChoices children (k + 3)).map fun p => k :: (k + 1) :: p
  | .nonTerminal .Sequence _ children, k =>
      (innerSteps children (k + 3)).map fun p => k :: (k + 1) :: p

def innerChoices : List RuleTree -> Nat -> List (List Nat)
  | [], _ => []
  | t :: rest, k =>
      (inner t k).map (fun p => p ++ [k + 2]) ++ innerChoices rest (k + 3 * size t)

def innerSteps : List RuleTree -> Nat -> List (List Nat)
  | [], _ => [[]]
  | t :: rest, k =>
      (inner t k).flatMap fun p =>
        (innerSteps rest (k + 3 * size t)).map fun q => p ++ (k + 2) :: q

end

mutual

/-- Every selector has something to choose. -/
def Nonempty : RuleTree -> Prop
  | .terminal _ => True
  | .nonTerminal _ _ children => children ≠ [] ∧ NonemptyAll children

def NonemptyAll : List RuleTree -> Prop
  | [] => True
  | t :: rest => Nonempty t ∧ NonemptyAll rest

end

end RuleTree

/-!
## The traversal of the graph of a node
-/

namespace Executor

open RuleTree

theorem dfsAll_mono {dfs dfs' : Nat -> Except Failure (List (List Nat))}
    (hdfs : forall i paths, dfs i = .ok paths -> dfs' i = .ok paths) {adj : List Nat}
    {paths : List (List Nat)} (h : dfsAll dfs adj = .ok paths) :
    dfsAll dfs' adj = .ok paths := by
  induction adj generalizing paths with
  | nil => exact h
  | cons i adj ih =>
      simp only [dfsAll] at h ⊢
      cases hi : dfs i with
      | error failure =>
          rw [hi] at h
          cases h
      | ok first =>
          rw [hi] at h
          rw [hdfs i first hi]
          cases hadj : dfsAll dfs adj with
          | error failure =>
              rw [hadj] at h
              cases h
          | ok later =>
              rw [hadj] at h
              rw [ih hadj]
              exact h

theorem dfs_succ {m_adj : Nat -> List Nat} {fuel v : Nat} {path : List Nat}
    {paths : List (List Nat)} (h : dfs m_adj fuel v path = .ok paths) :
    dfs m_adj (fuel + 1) v path = .ok paths := by
  induction fuel generalizing v path paths with
  | zero => cases h
  | succ fuel ih =>
      rw [dfs] at h ⊢
      cases hadj : m_adj v with
      | nil =>
          rw [hadj] at h
          exact h
      | cons i adj =>
          rw [hadj] at h
          exact dfsAll_mono (fun i paths hi => ih hi) h

theorem dfs_mono {m_adj : Nat -> List Nat} {fuel fuel' v : Nat} (hle : fuel ≤ fuel')
    {path : List Nat} {paths : List (List Nat)} (h : dfs m_adj fuel v path = .ok paths) :
    dfs m_adj fuel' v path = .ok paths := by
  induction hle with
  | refl => exact h
  | step _ ih => exact dfs_succ ih

/-- From a vertex the traversal completes exactly these continuations. -/
def Completes (m_adj : Nat -> List Nat) (fuel v : Nat) (tails : List (List Nat)) : Prop :=
  forall path, dfs m_adj fuel v path = .ok (tails.map fun q => path ++ q)

theorem Completes.mono {m_adj : Nat -> List Nat} {fuel fuel' v : Nat}
    {tails : List (List Nat)} (h : Completes m_adj fuel v tails) (hle : fuel ≤ fuel') :
    Completes m_adj fuel' v tails :=
  fun path => dfs_mono hle (h path)

theorem dfsAll_completes {m_adj : Nat -> List Nat} {fuel : Nat} {adj : List Nat}
    {tails : List (List (List Nat))}
    (h : List.Forall₂ (fun i ts => Completes m_adj fuel i ts) adj tails) (path : List Nat) :
    dfsAll (fun i => dfs m_adj fuel i path) adj =
      .ok (tails.flatten.map fun q => path ++ q) := by
  induction h with
  | nil => rfl
  | cons hi _ ih =>
      rw [dfsAll, hi path, ih]
      simp

theorem completes_of_edges {m_adj : Nat -> List Nat} {fuel v : Nat} {adj : List Nat}
    (hadj : m_adj v = adj) (hne : adj ≠ []) {tails : List (List (List Nat))}
    (h : List.Forall₂ (fun i ts => Completes m_adj fuel i ts) adj tails) :
    Completes m_adj (fuel + 1) v (tails.flatten.map fun q => v :: q) := by
  intro path
  rw [dfs, hadj]
  cases adj with
  | nil => exact absurd rfl hne
  | cons i adj =>
      simp only
      rw [dfsAll_completes h]
      simp [Function.comp_def]

theorem completes_of_edge {m_adj : Nat -> List Nat} {fuel v i : Nat} (hadj : m_adj v = [i])
    {tails : List (List Nat)} (h : Completes m_adj fuel i tails) :
    Completes m_adj (fuel + 1) v (tails.map fun q => v :: q) := by
  have hedges := completes_of_edges hadj (List.cons_ne_nil i []) (List.Forall₂.cons h .nil)
  simpa using hedges

def continued (paths tails : List (List Nat)) : List (List Nat) :=
  paths.flatMap fun p => tails.map fun q => p ++ q

theorem continued_append (ps qs tails : List (List Nat)) :
    continued (ps ++ qs) tails = continued ps tails ++ continued qs tails := by
  simp [continued]

theorem continued_snoc (ps tails : List (List Nat)) (v : Nat) :
    continued (ps.map fun p => p ++ [v]) tails =
      continued ps (tails.map fun q => v :: q) := by
  simp [continued, List.flatMap_map, Function.comp_def]

theorem continued_cons (ps tails : List (List Nat)) (v : Nat) :
    continued (ps.map fun p => v :: p) tails =
      (continued ps tails).map fun q => v :: q := by
  simp [continued, List.flatMap_map, List.map_flatMap, Function.comp_def]

theorem continued_continued (ps qs tails : List (List Nat)) (v : Nat) :
    continued (ps.flatMap fun p => qs.map fun q => p ++ v :: q) tails =
      continued ps ((continued qs tails).map fun q => v :: q) := by
  simp [continued, List.flatMap_assoc, List.flatMap_map, List.map_flatMap, Function.comp_def]

mutual

/-- The traversal runs along every path through a node, and then on. -/
theorem completes_of_realizes {m_adj : Nat -> List Nat} (t : RuleTree) {k fuel : Nat}
    {tails : List (List Nat)} (h : Realizes m_adj t k) (hne : Nonempty t)
    (hend : Completes m_adj (fuel + 1) (k + 2) tails) :
    Completes m_adj (fuel + 3 * size t) k (continued (inner t k) tails) := by
  cases t with
  | terminal name =>
      have hmain := completes_of_edge h.2 hend
      have hentry := completes_of_edge h.1 hmain
      simpa [continued, RuleTree.inner, size, Function.comp_def] using hentry
  | nonTerminal kind name children =>
      cases kind with
      | Selector =>
          rcases h with ⟨hentry, hmain, hchildren⟩
          rcases completes_choices children hchildren hne.2 hend with ⟨tss, hall, hflatten⟩
          have hstarts : starts children (k + 3) ≠ [] := by
            cases children with
            | nil => exact absurd rfl hne.1
            | cons t rest => exact List.cons_ne_nil _ _
          have hsecond := completes_of_edges hmain hstarts hall
          have hfirst := completes_of_edge hentry hsecond
          rw [hflatten] at hfirst
          rw [RuleTree.inner, show (innerChoices children (k + 3)).map (fun p => k :: (k + 1) :: p) =
            ((innerChoices children (k + 3)).map fun p => (k + 1) :: p).map fun p => k :: p by
              simp, continued_cons, continued_cons]
          apply hfirst.mono
          simp only [size]
          omega
      | Sequence =>
          rcases h with ⟨hentry, hchildren⟩
          have hsecond := completes_steps children hchildren hne.2 hend
          have hfirst := completes_of_edge hentry hsecond
          rw [RuleTree.inner, show (innerSteps children (k + 3)).map (fun p => k :: (k + 1) :: p) =
            ((innerSteps children (k + 3)).map fun p => (k + 1) :: p).map fun p => k :: p by
              simp, continued_cons, continued_cons]
          apply hfirst.mono
          simp only [size]
          omega

theorem completes_choices {m_adj : Nat -> List Nat} (children : List RuleTree)
    {k fin fuel : Nat} {tails : List (List Nat)} (h : RealizesChoices m_adj children k fin)
    (hne : NonemptyAll children) (hend : Completes m_adj (fuel + 1) fin tails) :
    exists tss,
      List.Forall₂ (fun i ts => Completes m_adj (fuel + 1 + 3 * sizeAll children) i ts)
          (starts children k) tss ∧
        tss.flatten = continued (innerChoices children k) tails := by
  cases children with
  | nil => exact ⟨[], List.Forall₂.nil, rfl⟩
  | cons t rest =>
      rcases h with ⟨hchild, hexit, hrest⟩
      have hlast := completes_of_edge hexit hend
      have hfirst := completes_of_realizes t hchild hne.1 hlast
      rcases completes_choices rest hrest hne.2 hend with ⟨tss, hall, hflatten⟩
      refine ⟨continued (inner t k) (tails.map fun q => (k + 2) :: q) :: tss, ?_, ?_⟩
      · apply List.Forall₂.cons
        · apply hfirst.mono
          simp only [sizeAll]
          omega
        · apply hall.imp
          intro i ts hi
          apply hi.mono
          simp only [sizeAll]
          omega
      · rw [List.flatten_cons, hflatten, innerChoices, continued_append, continued_snoc]

theorem completes_steps {m_adj : Nat -> List Nat} (children : List RuleTree)
    {k last fin fuel : Nat} {tails : List (List Nat)}
    (h : RealizesSteps m_adj children k last fin) (hne : NonemptyAll children)
    (hend : Completes m_adj (fuel + 1) fin tails) :
    Completes m_adj (fuel + 2 + 3 * sizeAll children) last
      ((continued (innerSteps children k) tails).map fun q => last :: q) := by
  cases children with
  | nil =>
      have hedge := completes_of_edge h hend
      simpa [continued, innerSteps, sizeAll] using hedge
  | cons t rest =>
      rcases h with ⟨hedge, hchild, hrest⟩
      have hlater := completes_steps rest hrest hne.2 hend
      have hlater' : Completes m_adj (fuel + 1 + 3 * sizeAll rest + 1) (k + 2)
          ((continued (innerSteps rest (k + 3 * size t)) tails).map fun q => (k + 2) :: q) := by
        apply hlater.mono
        omega
      have hfirst := completes_of_realizes t hchild hne.1 hlater'
      have hwhole := completes_of_edge hedge hfirst
      rw [innerSteps, continued_continued]
      apply hwhole.mono
      simp only [sizeAll]
      omega

end

end Executor

end Graph
end Experimental
end Crave
