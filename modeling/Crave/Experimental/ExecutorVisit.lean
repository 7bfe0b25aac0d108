import Crave.Experimental.ExecutorPaths

/-!
# The visit of the executor

What a visit adds to the executor: the edges and the actions of a node, on vertices
that were not used before, and the pair of its first and last vertex on the stack.
-/

namespace Crave
namespace Experimental
namespace Graph

universe u

variable {α : Type u}

/-!
## Edges and actions of a node
-/

/-- The entries of a rule in the map of actions. -/
def LabelledRule (m_actions : Nat -> Option (Option α)) (r : Option (Rule α)) (k : Nat) : Prop :=
  m_actions k = r.map Rule.entry ∧ m_actions (k + 1) = r.map Rule.main ∧
    m_actions (k + 2) = r.map Rule.exit

namespace RuleTree

mutual

def Labelled (m_rules : String -> Option (Rule α)) (m_actions : Nat -> Option (Option α)) :
    RuleTree -> Nat -> Prop
  | .terminal name, k => LabelledRule m_actions (m_rules name) k
  | .nonTerminal _ name children, k =>
      LabelledRule m_actions (Executor.getRule m_rules name) k ∧
        LabelledAll m_rules m_actions children (k + 3)

def LabelledAll (m_rules : String -> Option (Rule α)) (m_actions : Nat -> Option (Option α)) :
    List RuleTree -> Nat -> Prop
  | [], _ => True
  | t :: rest, k =>
      Labelled m_rules m_actions t k ∧ LabelledAll m_rules m_actions rest (k + 3 * size t)

end

mutual

/-- Every terminal names a registered rule. -/
def Registered (m_rules : String -> Option (Rule α)) : RuleTree -> Prop
  | .terminal name => (m_rules name).isSome
  | .nonTerminal _ _ children => RegisteredAll m_rules children

def RegisteredAll (m_rules : String -> Option (Rule α)) : List RuleTree -> Prop
  | [] => True
  | t :: rest => Registered m_rules t ∧ RegisteredAll m_rules rest

end

theorem size_pos (t : RuleTree) : 0 < size t := by
  cases t <;> simp [size]

mutual

theorem realizes_congr {m_adj m_adj' : Nat -> List Nat} (t : RuleTree) {k : Nat}
    (hsame : forall i, k ≤ i -> i < k + 3 * size t -> i ≠ k + 2 -> m_adj' i = m_adj i)
    (h : Realizes m_adj t k) : Realizes m_adj' t k := by
  have hpos := size_pos t
  cases t with
  | terminal name =>
      have hentry := hsame k (Nat.le_refl k) (by omega) (by omega)
      have hmain := hsame (k + 1) (by omega) (by omega) (by omega)
      exact ⟨hentry.trans h.1, hmain.trans h.2⟩
  | nonTerminal kind name children =>
      have hentry := hsame k (Nat.le_refl k) (by omega) (by omega)
      have hmain := hsame (k + 1) (by omega) (by omega) (by omega)
      have hbelow : forall i, k + 3 ≤ i -> i < k + 3 + 3 * sizeAll children ->
          m_adj' i = m_adj i := by
        intro i hlow hhigh
        apply hsame i
        · omega
        · simp only [size]
          omega
        · omega
      cases kind with
      | Selector =>
          exact ⟨hentry.trans h.1, hmain.trans h.2.1, realizesChoices_congr children hbelow h.2.2⟩
      | Sequence =>
          exact ⟨hentry.trans h.1, realizesSteps_congr children hmain hbelow h.2⟩

theorem realizesChoices_congr {m_adj m_adj' : Nat -> List Nat} (children : List RuleTree)
    {k fin : Nat}
    (hsame : forall i, k ≤ i -> i < k + 3 * sizeAll children -> m_adj' i = m_adj i)
    (h : RealizesChoices m_adj children k fin) : RealizesChoices m_adj' children k fin := by
  cases children with
  | nil => exact trivial
  | cons t rest =>
      have hpos := size_pos t
      simp only [sizeAll] at hsame
      rcases h with ⟨hchild, hexit, hrest⟩
      refine ⟨realizes_congr t ?_ hchild, ?_, realizesChoices_congr rest ?_ hrest⟩
      · intro i hlow hhigh _
        exact hsame i hlow (by omega)
      · exact (hsame (k + 2) (by omega) (by omega)).trans hexit
      · intro i hlow hhigh
        exact hsame i (by omega) (by omega)

theorem realizesSteps_congr {m_adj m_adj' : Nat -> List Nat} (children : List RuleTree)
    {k last fin : Nat} (hlast : m_adj' last = m_adj last)
    (hsame : forall i, k ≤ i -> i < k + 3 * sizeAll children -> m_adj' i = m_adj i)
    (h : RealizesSteps m_adj children k last fin) : RealizesSteps m_adj' children k last fin := by
  cases children with
  | nil => exact hlast.trans h
  | cons t rest =>
      have hpos := size_pos t
      simp only [sizeAll] at hsame
      rcases h with ⟨hedge, hchild, hrest⟩
      refine ⟨hlast.trans hedge, realizes_congr t ?_ hchild,
        realizesSteps_congr rest ?_ ?_ hrest⟩
      · intro i hlow hhigh _
        exact hsame i hlow (by omega)
      · exact hsame (k + 2) (by omega) (by omega)
      · intro i hlow hhigh
        exact hsame i (by omega) (by omega)

end

theorem labelledRule_congr {m_actions m_actions' : Nat -> Option (Option α)}
    {r : Option (Rule α)} {k : Nat}
    (hsame : forall i, k ≤ i -> i < k + 3 -> m_actions' i = m_actions i)
    (h : LabelledRule m_actions r k) : LabelledRule m_actions' r k :=
  ⟨(hsame k (Nat.le_refl k) (by omega)).trans h.1,
    (hsame (k + 1) (by omega) (by omega)).trans h.2.1,
    (hsame (k + 2) (by omega) (by omega)).trans h.2.2⟩

mutual

theorem labelled_congr {m_rules : String -> Option (Rule α)}
    {m_actions m_actions' : Nat -> Option (Option α)} (t : RuleTree) {k : Nat}
    (hsame : forall i, k ≤ i -> i < k + 3 * size t -> m_actions' i = m_actions i)
    (h : Labelled m_rules m_actions t k) : Labelled m_rules m_actions' t k := by
  have hpos := size_pos t
  cases t with
  | terminal name => exact labelledRule_congr (fun i hlow hhigh => hsame i hlow (by omega)) h
  | nonTerminal kind name children =>
      refine ⟨labelledRule_congr (fun i hlow hhigh => hsame i hlow (by omega)) h.1,
        labelledAll_congr children ?_ h.2⟩
      intro i hlow hhigh
      apply hsame i
      · omega
      · simp only [size]
        omega

theorem labelledAll_congr {m_rules : String -> Option (Rule α)}
    {m_actions m_actions' : Nat -> Option (Option α)} (children : List RuleTree) {k : Nat}
    (hsame : forall i, k ≤ i -> i < k + 3 * sizeAll children -> m_actions' i = m_actions i)
    (h : LabelledAll m_rules m_actions children k) :
    LabelledAll m_rules m_actions' children k := by
  cases children with
  | nil => exact trivial
  | cons t rest =>
      simp only [sizeAll] at hsame
      refine ⟨labelled_congr t ?_ h.1, labelledAll_congr rest ?_ h.2⟩
      · intro i hlow hhigh
        exact hsame i hlow (by omega)
      · intro i hlow hhigh
        exact hsame i (by omega) (by omega)

end

end RuleTree

/-!
## The parts of a visit
-/

namespace Executor

open RuleTree

/-- Vertices from `m_id` on are unused, and no edge is doubled. -/
structure Sound (e : Executor α) : Prop where
  unused : forall i, e.m_id ≤ i -> e.m_adj i = [] ∧ e.m_actions i = none
  bounded : forall i j, j ∈ e.m_adj i -> j < e.m_id
  nodup : forall i, (e.m_adj i).Nodup

theorem sound_new : Sound (new : Executor α) :=
  ⟨fun _ _ => ⟨rfl, rfl⟩, fun _ _ h => (by cases h), fun _ => List.nodup_nil⟩

theorem Sound.make_edge {e : Executor α} (h : Sound e) {s d : Nat} (hs : s < e.m_id)
    (hd : d < e.m_id) (hnew : d ∉ e.m_adj s) : Sound (e.make_edge s d) := by
  constructor
  · intro i hi
    have hne : i ≠ s := by
      intro heq
      rw [heq] at hi
      exact Nat.lt_irrefl s (Nat.lt_of_lt_of_le hs hi)
    refine ⟨?_, (h.unused i hi).2⟩
    change Function.update e.m_adj s _ i = []
    rw [Function.update_of_ne hne]
    exact (h.unused i hi).1
  · intro i j hj
    change j ∈ Function.update e.m_adj s (e.m_adj s ++ [d]) i at hj
    rw [Function.update_apply] at hj
    split at hj
    · rcases List.mem_append.mp hj with hold | hlast
      · exact h.bounded s j hold
      · cases List.mem_singleton.mp hlast
        exact hd
    · exact h.bounded i j hj
  · intro i
    change (Function.update e.m_adj s (e.m_adj s ++ [d]) i).Nodup
    rw [Function.update_apply]
    split
    · rw [List.nodup_append]
      refine ⟨h.nodup s, List.nodup_singleton d, ?_⟩
      intro a ha b hb
      cases List.mem_singleton.mp hb
      intro heq
      rw [heq] at ha
      exact hnew ha
    · exact h.nodup i

theorem Sound.setStack {e : Executor α} (h : Sound e) (stack : List (Nat × Nat)) :
    Sound { e with m_stack := stack } :=
  ⟨h.unused, h.bounded, h.nodup⟩

theorem make_edge_adj_self (e : Executor α) (s d : Nat) :
    (e.make_edge s d).m_adj s = e.m_adj s ++ [d] :=
  Function.update_self s _ _

theorem make_edge_adj_of_ne (e : Executor α) {s i : Nat} (d : Nat) (h : i ≠ s) :
    (e.make_edge s d).m_adj i = e.m_adj i :=
  Function.update_of_ne h _ _

theorem insertRule_adj (r : Option (Rule α)) (k : Nat) (e : Executor α) :
    (insertRule r k e).m_adj = e.m_adj := by
  cases r <;> rfl

theorem insertRule_id (r : Option (Rule α)) (k : Nat) (e : Executor α) :
    (insertRule r k e).m_id = e.m_id := by
  cases r <;> rfl

theorem insertRule_stack (r : Option (Rule α)) (k : Nat) (e : Executor α) :
    (insertRule r k e).m_stack = e.m_stack := by
  cases r <;> rfl

theorem insertRule_actions_of_ne (r : Option (Rule α)) {k i : Nat} (e : Executor α)
    (h : i < k ∨ k + 3 ≤ i) : (insertRule r k e).m_actions i = e.m_actions i := by
  cases r with
  | none => rfl
  | some r =>
      simp only [insertRule, Function.update_apply]
      rw [if_neg (by omega), if_neg (by omega), if_neg (by omega)]

theorem insertRule_labelled (r : Option (Rule α)) {k : Nat} {e : Executor α}
    (h : forall i, k ≤ i -> e.m_actions i = none) :
    LabelledRule (insertRule r k e).m_actions r k := by
  cases r with
  | none =>
      exact ⟨h k (Nat.le_refl k), h (k + 1) (by omega), h (k + 2) (by omega)⟩
  | some r => simp [LabelledRule, insertRule]

structure Visited (m_rules : String -> Option (Rule α)) (t : RuleTree) (e e' : Executor α) :
    Prop where
  sound : Sound e'
  id : e'.m_id = e.m_id + 3 * size t
  stack : e'.m_stack = (e.m_id, e.m_id + 2) :: e.m_stack
  adj : forall i, i < e.m_id -> e'.m_adj i = e.m_adj i
  actions : forall i, i < e.m_id -> e'.m_actions i = e.m_actions i
  exit : e'.m_adj (e.m_id + 2) = []
  realizes : Realizes e'.m_adj t e.m_id
  labelled : Labelled m_rules e'.m_actions t e.m_id

/-- What is there when the children of a nonterminal are visited. -/
structure Entered (r : Option (Rule α)) (e e' : Executor α) : Prop where
  sound : Sound e'
  id : e'.m_id = e.m_id + 3
  stack : e'.m_stack = (e.m_id, e.m_id + 2) :: e.m_stack
  adj : forall i, i ≠ e.m_id -> e'.m_adj i = e.m_adj i
  entry : e'.m_adj e.m_id = [e.m_id + 1]
  actions : forall i, i < e.m_id -> e'.m_actions i = e.m_actions i
  labelled : LabelledRule e'.m_actions r e.m_id

theorem entered_enter (m_rules : String -> Option (Rule α)) (name : Option String)
    {e : Executor α} (h : Sound e) :
    Entered (getRule m_rules name) e (enter m_rules name e) := by
  have hbefore : Sound (insertRule (getRule m_rules name) e.m_id e.allocate) := by
    constructor
    · intro i hi
      rw [insertRule_id] at hi
      have hlow : e.m_id + 3 ≤ i := hi
      rw [insertRule_adj, insertRule_actions_of_ne _ _ (Or.inr hlow)]
      exact h.unused i (by omega)
    · intro i j hj
      rw [insertRule_adj] at hj
      rw [insertRule_id]
      have hbound := h.bounded i j hj
      change j < e.m_id + 3
      omega
    · intro i
      rw [insertRule_adj]
      exact h.nodup i
  have hid : (insertRule (getRule m_rules name) e.m_id e.allocate).m_id = e.m_id + 3 :=
    insertRule_id _ _ _
  have hempty : (insertRule (getRule m_rules name) e.m_id e.allocate).m_adj e.m_id = [] := by
    rw [insertRule_adj]
    exact (h.unused e.m_id (Nat.le_refl _)).1
  constructor
  · apply hbefore.make_edge
    · omega
    · omega
    · rw [hempty]
      exact List.not_mem_nil
  · exact hid
  · exact insertRule_stack _ _ _
  · intro i hi
    rw [enter, make_edge_adj_of_ne _ _ hi, insertRule_adj]
    rfl
  · rw [enter, make_edge_adj_self, hempty]
    rfl
  · intro i hi
    exact insertRule_actions_of_ne _ _ (Or.inl hi)
  · exact insertRule_labelled _ fun i hi => (h.unused i hi).2

theorem visited_terminal {m_rules : String -> Option (Rule α)} {name : String} {e : Executor α}
    (h : Sound e) (hname : (m_rules name).isSome) :
    exists e', visitTerminal m_rules name e = .ok e' ∧ Visited m_rules (.terminal name) e e' := by
  rcases Option.isSome_iff_exists.mp hname with ⟨r, hr⟩
  have hentered := entered_enter m_rules (some name) h
  have hrule : getRule m_rules (some name) = some r := hr
  rw [hrule] at hentered
  refine ⟨(enter m_rules (some name) e).make_edge (e.m_id + 1) (e.m_id + 2), ?_, ?_⟩
  · simp only [visitTerminal, enter, hrule]
    rfl
  · have hempty : (enter m_rules (some name) e).m_adj (e.m_id + 1) = [] := by
      rw [hentered.adj (e.m_id + 1) (by omega)]
      exact (h.unused (e.m_id + 1) (by omega)).1
    have hid := hentered.id
    constructor
    · apply hentered.sound.make_edge
      · omega
      · omega
      · rw [hempty]
        exact List.not_mem_nil
    · exact hid
    · exact hentered.stack
    · intro i hi
      rw [make_edge_adj_of_ne _ _ (by omega), hentered.adj i (by omega)]
    · exact hentered.actions
    · rw [make_edge_adj_of_ne _ _ (by omega), hentered.adj _ (by omega)]
      exact (h.unused (e.m_id + 2) (by omega)).1
    · constructor
      · rw [make_edge_adj_of_ne _ _ (by omega)]
        exact hentered.entry
      · rw [make_edge_adj_self, hempty]
        rfl
    · change LabelledRule _ (m_rules name) e.m_id
      rw [hr]
      exact hentered.labelled

/-- What the loop over the children of a selector does. -/
structure ChoicesVisited (m_rules : String -> Option (Rule α)) (start : Nat)
    (children : List RuleTree) (e e' : Executor α) : Prop where
  sound : Sound e'
  id : e'.m_id = e.m_id + 3 * sizeAll children
  stack : e'.m_stack = e.m_stack
  adj : forall i, i < e.m_id -> i ≠ start + 1 -> e'.m_adj i = e.m_adj i
  main : e'.m_adj (start + 1) = e.m_adj (start + 1) ++ starts children e.m_id
  actions : forall i, i < e.m_id -> e'.m_actions i = e.m_actions i
  realizes : RealizesChoices e'.m_adj children e.m_id (start + 2)
  labelled : LabelledAll m_rules e'.m_actions children e.m_id

/-- What the loop over the children of a sequence does. Its last vertex still lacks the
edge to the end of the sequence. -/
structure StepsVisited (m_rules : String -> Option (Rule α)) (children : List RuleTree)
    (last : Nat) (e : Executor α) (last' : Nat) (e' : Executor α) : Prop where
  sound : Sound e'
  id : e'.m_id = e.m_id + 3 * sizeAll children
  stack : e'.m_stack = e.m_stack
  adj : forall i, i < e.m_id -> i ≠ last -> e'.m_adj i = e.m_adj i
  later : last' = last ∨ e.m_id ≤ last'
  allocated : last' < e'.m_id
  exit : e'.m_adj last' = []
  actions : forall i, i < e.m_id -> e'.m_actions i = e.m_actions i
  realizes : forall fin,
    RealizesSteps (Function.update e'.m_adj last' [fin]) children e.m_id last fin
  labelled : LabelledAll m_rules e'.m_actions children e.m_id

theorem choicesVisited_cons {m_rules : String -> Option (Rule α)} {start : Nat}
    {t : RuleTree} {rest : List RuleTree} {e e1 e' : Executor α}
    (hstart : start + 2 < e.m_id) (hchild : Visited m_rules t e e1)
    (hrest : ChoicesVisited m_rules start rest
      (({ e1 with m_stack := e.m_stack }.make_edge (start + 1) e.m_id).make_edge (e.m_id + 2)
        (start + 2)) e') :
    ChoicesVisited m_rules start (t :: rest) e e' := by
  have hpos := size_pos t
  have hid1 := hchild.id
  have hid : e'.m_id = e1.m_id + 3 * sizeAll rest := hrest.id
  have hadj : forall i, i < e1.m_id -> i ≠ start + 1 -> i ≠ e.m_id + 2 ->
      e'.m_adj i = e1.m_adj i := by
    intro i hi hmain hexit
    rw [hrest.adj i hi hmain, make_edge_adj_of_ne _ _ hexit, make_edge_adj_of_ne _ _ hmain]
  have hactions : forall i, i < e1.m_id -> e'.m_actions i = e1.m_actions i := hrest.actions
  have hafter : RealizesChoices e'.m_adj rest (e.m_id + 3 * size t) (start + 2) := by
    rw [← hid1]
    exact hrest.realizes
  have hafter' : LabelledAll m_rules e'.m_actions rest (e.m_id + 3 * size t) := by
    rw [← hid1]
    exact hrest.labelled
  constructor
  · exact hrest.sound
  · rw [hid, hid1]
    simp only [sizeAll]
    omega
  · exact hrest.stack
  · intro i hi hmain
    rw [hadj i (by omega) hmain (by omega), hchild.adj i hi]
  · rw [hrest.main, make_edge_adj_of_ne _ _ (by omega), make_edge_adj_self]
    change e1.m_adj (start + 1) ++ [e.m_id] ++ starts rest e1.m_id = _
    rw [hchild.adj (start + 1) (by omega), hid1, starts, List.append_assoc]
    rfl
  · intro i hi
    rw [hactions i (by omega), hchild.actions i hi]
  · refine ⟨realizes_congr t ?_ hchild.realizes, ?_, hafter⟩
    · intro i hlow hhigh hexit
      exact hadj i (by omega) (by omega) hexit
    · rw [hrest.adj (e.m_id + 2)
          (show e.m_id + 2 < e1.m_id by omega) (by omega), make_edge_adj_self,
        make_edge_adj_of_ne _ _ (by omega)]
      change e1.m_adj (e.m_id + 2) ++ [start + 2] = [start + 2]
      rw [hchild.exit]
      rfl
  · refine ⟨labelled_congr t ?_ hchild.labelled, hafter'⟩
    intro i hlow hhigh
    exact hactions i (by omega)

theorem stepsVisited_cons {m_rules : String -> Option (Rule α)} {t : RuleTree}
    {rest : List RuleTree} {last last' : Nat} {e e1 e' : Executor α} (hlast : last < e.m_id)
    (hempty : e.m_adj last = []) (hchild : Visited m_rules t e e1)
    (hrest : StepsVisited m_rules rest (e.m_id + 2)
      ({ e1 with m_stack := e.m_stack }.make_edge last e.m_id) last' e') :
    StepsVisited m_rules (t :: rest) last e last' e' := by
  have hpos := size_pos t
  have hid1 := hchild.id
  have hid : e'.m_id = e1.m_id + 3 * sizeAll rest := hrest.id
  have hlater : last' = e.m_id + 2 ∨ e1.m_id ≤ last' := hrest.later
  have hadj : forall i, i < e1.m_id -> i ≠ last -> i ≠ e.m_id + 2 ->
      e'.m_adj i = e1.m_adj i := by
    intro i hi hne hexit
    rw [hrest.adj i hi hexit, make_edge_adj_of_ne _ _ hne]
  have hedge : e'.m_adj last = [e.m_id] := by
    rw [hrest.adj last (show last < e1.m_id by omega) (by omega), make_edge_adj_self]
    change e1.m_adj last ++ [e.m_id] = [e.m_id]
    rw [hchild.adj last hlast, hempty]
    rfl
  have hactions : forall i, i < e1.m_id -> e'.m_actions i = e1.m_actions i := hrest.actions
  have hafter' : LabelledAll m_rules e'.m_actions rest (e.m_id + 3 * size t) := by
    rw [← hid1]
    exact hrest.labelled
  constructor
  · exact hrest.sound
  · rw [hid, hid1]
    simp only [sizeAll]
    omega
  · exact hrest.stack
  · intro i hi hne
    rw [hadj i (by omega) hne (by omega), hchild.adj i hi]
  · exact Or.inr (by omega)
  · exact hrest.allocated
  · exact hrest.exit
  · intro i hi
    rw [hactions i (by omega), hchild.actions i hi]
  · intro fin
    have hafter : RealizesSteps (Function.update e'.m_adj last' [fin]) rest
        (e.m_id + 3 * size t) (e.m_id + 2) fin := by
      rw [← hid1]
      exact hrest.realizes fin
    refine ⟨?_, realizes_congr t ?_ hchild.realizes, hafter⟩
    · rw [Function.update_of_ne (by omega)]
      exact hedge
    · intro i hlow hhigh hexit
      rw [Function.update_of_ne (by omega)]
      exact hadj i (by omega) (by omega) hexit
  · refine ⟨labelled_congr t ?_ hchild.labelled, hafter'⟩
    intro i hlow hhigh
    exact hactions i (by omega)

mutual

theorem visited_visit {m_rules : String -> Option (Rule α)} (t : RuleTree) {e : Executor α}
    (h : Sound e) (hrules : Registered m_rules t) :
    exists e', visit m_rules t e = .ok e' ∧ Visited m_rules t e e' := by
  cases t with
  | terminal name => exact visited_terminal h hrules
  | nonTerminal kind name children =>
      have hentered := entered_enter m_rules name h
      have hid := hentered.id
      have hmain : (enter m_rules name e).m_adj (e.m_id + 1) = [] := by
        rw [hentered.adj (e.m_id + 1) (by omega)]
        exact (h.unused (e.m_id + 1) (by omega)).1
      have hexit : (enter m_rules name e).m_adj (e.m_id + 2) = [] := by
        rw [hentered.adj (e.m_id + 2) (by omega)]
        exact (h.unused (e.m_id + 2) (by omega)).1
      cases kind with
      | Selector =>
          rcases visited_choices children hentered.sound (show e.m_id + 2 < _ by omega) hrules with
            ⟨e', hok, hvisited⟩
          refine ⟨e', hok, ?_⟩
          have hrealizes := hvisited.realizes
          have hlabelled := hvisited.labelled
          have hstarts := hvisited.main
          rw [hid] at hrealizes hlabelled hstarts
          constructor
          · exact hvisited.sound
          · rw [hvisited.id, hid]
            simp only [size]
            omega
          · exact hvisited.stack.trans hentered.stack
          · intro i hi
            rw [hvisited.adj i (by omega) (by omega), hentered.adj i (by omega)]
          · intro i hi
            rw [hvisited.actions i (by omega), hentered.actions i hi]
          · rw [hvisited.adj (e.m_id + 2) (by omega) (by omega)]
            exact hexit
          · refine ⟨?_, ?_, hrealizes⟩
            · rw [hvisited.adj e.m_id (by omega) (by omega)]
              exact hentered.entry
            · rw [hstarts, hmain]
              rfl
          · refine ⟨labelledRule_congr ?_ hentered.labelled, hlabelled⟩
            intro i hlow hhigh
            exact hvisited.actions i (by omega)
      | Sequence =>
          rcases visited_steps children hentered.sound (show e.m_id + 1 < _ by omega) hmain
            hrules with ⟨last, e', hok, hvisited⟩
          have hlast := hvisited.later
          refine ⟨e'.make_edge last (e.m_id + 2), ?_, ?_⟩
          · simp only [visit, hok]
          have hrealizes := hvisited.realizes (e.m_id + 2)
          have hlabelled := hvisited.labelled
          have hid' := hvisited.id
          rw [hid] at hrealizes hlabelled hlast hid'
          have hadj : (e'.make_edge last (e.m_id + 2)).m_adj =
              Function.update e'.m_adj last [e.m_id + 2] := by
            simp only [make_edge, hvisited.exit]
            rfl
          constructor
          · apply hvisited.sound.make_edge hvisited.allocated
            · omega
            · rw [hvisited.exit]
              exact List.not_mem_nil
          · change e'.m_id = _
            rw [hid']
            simp only [size]
            omega
          · exact hvisited.stack.trans hentered.stack
          · intro i hi
            rw [make_edge_adj_of_ne _ _ (by omega), hvisited.adj i (by omega) (by omega),
              hentered.adj i (by omega)]
          · intro i hi
            change e'.m_actions i = _
            rw [hvisited.actions i (by omega), hentered.actions i hi]
          · rw [make_edge_adj_of_ne _ _ (by omega),
              hvisited.adj (e.m_id + 2) (by omega) (by omega)]
            exact hexit
          · rw [hadj]
            refine ⟨?_, hrealizes⟩
            rw [Function.update_of_ne (by omega), hvisited.adj e.m_id (by omega) (by omega)]
            exact hentered.entry
          · refine ⟨labelledRule_congr ?_ hentered.labelled, hlabelled⟩
            intro i hlow hhigh
            exact hvisited.actions i (by omega)

theorem visited_choices {m_rules : String -> Option (Rule α)} (children : List RuleTree)
    {start : Nat} {e : Executor α} (h : Sound e) (hstart : start + 2 < e.m_id)
    (hrules : RegisteredAll m_rules children) :
    exists e', visitChoices m_rules start children e = .ok e' ∧
      ChoicesVisited m_rules start children e e' := by
  cases children with
  | nil =>
      exact ⟨e, rfl, h, rfl, rfl, fun _ _ _ => rfl, (List.append_nil _).symm, fun _ _ => rfl,
        trivial, trivial⟩
  | cons t rest =>
      rcases visited_visit t h hrules.1 with ⟨e1, hok, hchild⟩
      have hpos := size_pos t
      have hid1 := hchild.id
      have hnew : e.m_id ∉ e1.m_adj (start + 1) := by
        rw [hchild.adj (start + 1) (by omega)]
        intro hmem
        exact Nat.lt_irrefl _ (h.bounded _ _ hmem)
      have hsound := (hchild.sound.setStack e.m_stack).make_edge
        (show start + 1 < e1.m_id by omega) (show e.m_id < e1.m_id by omega) hnew
      have hsound' := hsound.make_edge (show e.m_id + 2 < e1.m_id by omega)
        (show start + 2 < e1.m_id by omega) (by
          rw [make_edge_adj_of_ne _ _ (by omega)]
          change start + 2 ∉ e1.m_adj (e.m_id + 2)
          rw [hchild.exit]
          exact List.not_mem_nil)
      rcases visited_choices rest hsound' (show start + 2 < e1.m_id by omega) hrules.2 with
        ⟨e', hok', hrest⟩
      refine ⟨e', ?_, choicesVisited_cons hstart hchild hrest⟩
      simp only [visitChoices, hok, hchild.stack]
      exact hok'

theorem visited_steps {m_rules : String -> Option (Rule α)} (children : List RuleTree)
    {last : Nat} {e : Executor α} (h : Sound e) (hlast : last < e.m_id)
    (hempty : e.m_adj last = []) (hrules : RegisteredAll m_rules children) :
    exists last' e', visitSteps m_rules children last e = .ok (last', e') ∧
      StepsVisited m_rules children last e last' e' := by
  cases children with
  | nil =>
      refine ⟨last, e, rfl, h, rfl, rfl, fun _ _ _ => rfl, Or.inl rfl, hlast, hempty,
        fun _ _ => rfl, ?_, trivial⟩
      intro fin
      exact Function.update_self last _ _
  | cons t rest =>
      rcases visited_visit t h hrules.1 with ⟨e1, hok, hchild⟩
      have hpos := size_pos t
      have hid1 := hchild.id
      have hnew : e.m_id ∉ e1.m_adj last := by
        rw [hchild.adj last hlast, hempty]
        exact List.not_mem_nil
      have hsound := (hchild.sound.setStack e.m_stack).make_edge
        (show last < e1.m_id by omega) (show e.m_id < e1.m_id by omega) hnew
      have hexit : ({ e1 with m_stack := e.m_stack }.make_edge last e.m_id).m_adj
          (e.m_id + 2) = [] := by
        rw [make_edge_adj_of_ne _ _ (by omega)]
        exact hchild.exit
      rcases visited_steps rest hsound (show e.m_id + 2 < e1.m_id by omega) hexit hrules.2 with
        ⟨last', e', hok', hrest⟩
      refine ⟨last', e', ?_, stepsVisited_cons hlast hempty hchild hrest⟩
      simp only [visitSteps, hok, hchild.stack]
      exact hok'

end

end Executor

end Graph
end Experimental
end Crave
