import Mathlib.Logic.Relation
import Crave.Experimental.RuleContext

/-!
# The update of a rule

What the update visitor makes of a graph of rules. The visit of a node is a visit of
the names below it, in order, and a rewriting of its children that no other node
takes part in; the rewriting is idempotent, which is why it does not matter how
often a shared node is visited.
-/

namespace Crave
namespace Experimental
namespace Graph

/-!
## The rewriting of children
-/

def resolve (m : String -> Option NamedNode) (name : String) (n : NodePtr) : NodePtr :=
  match m name with
  | some .nonTerminal => .named name
  | some .terminal => .terminal name
  | none => n

mutual

def unfoldChild (m : String -> Option NamedNode) (kind : Kind) : NodePtr -> List NodePtr
  | .terminal name => [resolve m name (.terminal name)]
  | .named name => [resolve m name (.named name)]
  | .unnamed k children =>
      if k = kind then unfoldChildren m k children
      else [.unnamed k (unfoldChildren m k children)]

def unfoldChildren (m : String -> Option NamedNode) (kind : Kind) :
    List NodePtr -> List NodePtr
  | [] => []
  | n :: rest => unfoldChild m kind n ++ unfoldChildren m kind rest

end

mutual

def names : NodePtr -> List String
  | .terminal name => [name]
  | .named name => [name]
  | .unnamed _ children => namesAll children

def namesAll : List NodePtr -> List String
  | [] => []
  | n :: rest => names n ++ namesAll rest

end

/-- The names below a node whose nodes are entered. -/
def entered (m : String -> Option NamedNode) (children : List NodePtr) : List String :=
  (namesAll children).filter fun name => m name == some .nonTerminal

mutual

def Resolved (m : String -> Option NamedNode) : NodePtr -> Prop
  | .terminal name => m name ≠ some .nonTerminal
  | .named name => m name = some .nonTerminal
  | .unnamed _ children => ResolvedAll m children

def ResolvedAll (m : String -> Option NamedNode) : List NodePtr -> Prop
  | [] => True
  | n :: rest => Resolved m n ∧ ResolvedAll m rest

end

mutual

/-- No unnamed node has the kind of the node it is a child of. -/
def Flat (kind : Kind) : NodePtr -> Prop
  | .terminal _ => True
  | .named _ => True
  | .unnamed k children => k ≠ kind ∧ FlatAll k children

def FlatAll (kind : Kind) : List NodePtr -> Prop
  | [] => True
  | n :: rest => Flat kind n ∧ FlatAll kind rest

end

mutual

/-- A pointer to an assigned node is a pointer to the node of an assigned rule. -/
def Pointed (m : String -> Option NamedNode) : NodePtr -> Prop
  | .terminal _ => True
  | .named name => m name = some .nonTerminal
  | .unnamed _ children => PointedAll m children

def PointedAll (m : String -> Option NamedNode) : List NodePtr -> Prop
  | [] => True
  | n :: rest => Pointed m n ∧ PointedAll m rest

end

theorem namesAll_append (xs ys : List NodePtr) :
    namesAll (xs ++ ys) = namesAll xs ++ namesAll ys := by
  induction xs with
  | nil => rfl
  | cons x xs ih => simp [namesAll, ih]

theorem resolvedAll_append {m : String -> Option NamedNode} {xs ys : List NodePtr} :
    ResolvedAll m (xs ++ ys) ↔ ResolvedAll m xs ∧ ResolvedAll m ys := by
  induction xs with
  | nil => simp [ResolvedAll]
  | cons x xs ih => simp [ResolvedAll, ih, and_assoc]

theorem flatAll_append {kind : Kind} {xs ys : List NodePtr} :
    FlatAll kind (xs ++ ys) ↔ FlatAll kind xs ∧ FlatAll kind ys := by
  induction xs with
  | nil => simp [FlatAll]
  | cons x xs ih => simp [FlatAll, ih, and_assoc]

theorem names_resolve (m : String -> Option NamedNode) (name : String) {n : NodePtr}
    (hn : names n = [name]) : names (resolve m name n) = [name] := by
  unfold resolve
  split
  · rfl
  · rfl
  · exact hn

mutual

theorem namesAll_unfoldChild (m : String -> Option NamedNode) (kind : Kind) (n : NodePtr) :
    namesAll (unfoldChild m kind n) = names n := by
  cases n with
  | terminal name => simpa [unfoldChild, namesAll, names] using names_resolve m name rfl
  | named name => simpa [unfoldChild, namesAll, names] using names_resolve m name rfl
  | unnamed k children =>
      have hchildren := namesAll_unfoldChildren m k children
      simp only [unfoldChild, names]
      split
      · exact hchildren
      · simpa [namesAll, names] using hchildren

theorem namesAll_unfoldChildren (m : String -> Option NamedNode) (kind : Kind)
    (children : List NodePtr) :
    namesAll (unfoldChildren m kind children) = namesAll children := by
  cases children with
  | nil => rfl
  | cons n rest =>
      have hfirst := namesAll_unfoldChild m kind n
      have hrest := namesAll_unfoldChildren m kind rest
      simp only [unfoldChildren, namesAll, namesAll_append, hfirst, hrest]

end

theorem resolved_resolve {m : String -> Option NamedNode} {name : String} {n : NodePtr}
    (hn : names n = [name]) (hpointed : Pointed m n) (hkind : forall k cs, n ≠ .unnamed k cs) :
    Resolved m (resolve m name n) := by
  unfold resolve
  cases hm : m name with
  | none =>
      cases n with
      | terminal name' =>
          cases hn
          simp [Resolved, hm]
      | named name' =>
          cases hn
          exact hpointed
      | unnamed k children => exact absurd rfl (hkind k children)
  | some found =>
      cases found with
      | terminal => simp [Resolved, hm]
      | nonTerminal => exact hm

mutual

theorem resolvedAll_unfoldChild {m : String -> Option NamedNode} (kind : Kind) {n : NodePtr}
    (h : Pointed m n) : ResolvedAll m (unfoldChild m kind n) := by
  cases n with
  | terminal name =>
      exact ⟨resolved_resolve rfl h (fun k cs heq => by cases heq), trivial⟩
  | named name =>
      exact ⟨resolved_resolve rfl h (fun k cs heq => by cases heq), trivial⟩
  | unnamed k children =>
      have hchildren := resolvedAll_unfoldChildren k (show PointedAll m children from h)
      simp only [unfoldChild]
      split
      · exact hchildren
      · exact ⟨hchildren, trivial⟩

theorem resolvedAll_unfoldChildren {m : String -> Option NamedNode} (kind : Kind)
    {children : List NodePtr} (h : PointedAll m children) :
    ResolvedAll m (unfoldChildren m kind children) := by
  cases children with
  | nil => exact trivial
  | cons n rest =>
      have hfirst := resolvedAll_unfoldChild kind h.1
      have hrest := resolvedAll_unfoldChildren kind h.2
      simp only [unfoldChildren]
      exact resolvedAll_append.mpr ⟨hfirst, hrest⟩

end

mutual

theorem pointed_of_resolved {m : String -> Option NamedNode} {n : NodePtr}
    (h : Resolved m n) : Pointed m n := by
  cases n with
  | terminal name => exact trivial
  | named name => exact h
  | unnamed k children =>
      exact pointedAll_of_resolvedAll (show ResolvedAll m children from h)

theorem pointedAll_of_resolvedAll {m : String -> Option NamedNode} {children : List NodePtr}
    (h : ResolvedAll m children) : PointedAll m children := by
  cases children with
  | nil => exact trivial
  | cons n rest => exact ⟨pointed_of_resolved h.1, pointedAll_of_resolvedAll h.2⟩

end

theorem flat_resolve {m : String -> Option NamedNode} {kind : Kind} {name : String}
    {n : NodePtr} (hn : Flat kind n) : Flat kind (resolve m name n) := by
  unfold resolve
  split
  · exact trivial
  · exact trivial
  · exact hn

mutual

theorem flatAll_unfoldChild (m : String -> Option NamedNode) (kind : Kind) (n : NodePtr) :
    FlatAll kind (unfoldChild m kind n) := by
  cases n with
  | terminal name => exact ⟨flat_resolve trivial, trivial⟩
  | named name => exact ⟨flat_resolve trivial, trivial⟩
  | unnamed k children =>
      have hchildren := flatAll_unfoldChildren m k children
      simp only [unfoldChild]
      split
      · rename_i heq
        rw [← heq]
        exact hchildren
      · rename_i hne
        exact ⟨⟨hne, hchildren⟩, trivial⟩

theorem flatAll_unfoldChildren (m : String -> Option NamedNode) (kind : Kind)
    (children : List NodePtr) : FlatAll kind (unfoldChildren m kind children) := by
  cases children with
  | nil => exact trivial
  | cons n rest =>
      have hfirst := flatAll_unfoldChild m kind n
      have hrest := flatAll_unfoldChildren m kind rest
      simp only [unfoldChildren]
      exact flatAll_append.mpr ⟨hfirst, hrest⟩

end

mutual

theorem unfoldChild_eq {m : String -> Option NamedNode} {kind : Kind} {n : NodePtr}
    (hresolved : Resolved m n) (hflat : Flat kind n) :
    unfoldChild m kind n = [n] := by
  cases n with
  | terminal name =>
      simp only [unfoldChild, resolve]
      cases hm : m name with
      | none => rfl
      | some found =>
          cases found with
          | terminal => rfl
          | nonTerminal => exact absurd hm hresolved
  | named name =>
      have hm : m name = some .nonTerminal := hresolved
      simp only [unfoldChild, resolve, hm]
  | unnamed k children =>
      rcases hflat with ⟨hne, hchildren⟩
      have heq := unfoldChildren_eq (show ResolvedAll m children from hresolved) hchildren
      simp only [unfoldChild, if_neg hne, heq]

theorem unfoldChildren_eq {m : String -> Option NamedNode} {kind : Kind}
    {children : List NodePtr} (hresolved : ResolvedAll m children)
    (hflat : FlatAll kind children) : unfoldChildren m kind children = children := by
  cases children with
  | nil => rfl
  | cons n rest =>
      have hfirst := unfoldChild_eq hresolved.1 hflat.1
      have hrest := unfoldChildren_eq hresolved.2 hflat.2
      simp only [unfoldChildren, hfirst, hrest, List.singleton_append]

end

theorem entered_unfoldChildren (m : String -> Option NamedNode) (kind : Kind)
    (children : List NodePtr) :
    entered m (unfoldChildren m kind children) = entered m children := by
  rw [entered, entered, namesAll_unfoldChildren]

/-!
## The visit of the names below a node
-/

namespace UpdateVisitor

def visitAll (visit : String -> UpdateVisitor -> Except Stop UpdateVisitor) :
    List String -> UpdateVisitor -> Except Stop UpdateVisitor
  | [], v => .ok v
  | name :: rest, v =>
      match visit name v with
      | .error stop => .error stop
      | .ok v => visitAll visit rest v

theorem visitAll_append (visit : String -> UpdateVisitor -> Except Stop UpdateVisitor)
    (xs ys : List String) (v : UpdateVisitor) :
    visitAll visit (xs ++ ys) v =
      match visitAll visit xs v with
      | .error stop => .error stop
      | .ok v => visitAll visit ys v := by
  induction xs generalizing v with
  | nil => rfl
  | cons x xs ih =>
      simp only [List.cons_append, visitAll]
      cases visit x v with
      | error stop => rfl
      | ok v' => exact ih v'

def KeepsNames (visit : String -> UpdateVisitor -> Except Stop UpdateVisitor) : Prop :=
  forall name v v', visit name v = .ok v' -> v'.m_named_nodes = v.m_named_nodes

theorem KeepsNames.visitAll {visit : String -> UpdateVisitor -> Except Stop UpdateVisitor}
    (hvisit : KeepsNames visit) {xs : List String} {v v' : UpdateVisitor}
    (h : visitAll visit xs v = .ok v') : v'.m_named_nodes = v.m_named_nodes := by
  induction xs generalizing v with
  | nil =>
      cases h
      rfl
  | cons x xs ih =>
      simp only [UpdateVisitor.visitAll] at h
      cases hx : visit x v with
      | error stop =>
          rw [hx] at h
          cases h
      | ok mid =>
          rw [hx] at h
          exact (ih h).trans (hvisit x v mid hx)

theorem visitName_eq (visit : String -> UpdateVisitor -> Except Stop UpdateVisitor)
    (name : String) (n : NodePtr) (v : UpdateVisitor) :
    visitName visit name n v =
      match visitAll visit ([name].filter fun x => v.m_named_nodes x == some .nonTerminal) v with
      | .error stop => .error stop
      | .ok v' => .ok ([resolve v.m_named_nodes name n], v') := by
  unfold visitName resolve
  cases hm : v.m_named_nodes name with
  | none => simp [hm, visitAll]
  | some found =>
      cases found with
      | terminal => simp [hm, visitAll]
      | nonTerminal =>
          simp only [List.filter_cons, hm, beq_self_eq_true, if_true, List.filter_nil, visitAll]
          cases visit name v <;> rfl

mutual

theorem visitChild_eq {visit : String -> UpdateVisitor -> Except Stop UpdateVisitor}
    (hvisit : KeepsNames visit) (kind : Kind) (n : NodePtr) (v : UpdateVisitor) :
    visitChild visit kind n v =
      match visitAll visit
          ((names n).filter fun x => v.m_named_nodes x == some .nonTerminal) v with
      | .error stop => .error stop
      | .ok v' => .ok (unfoldChild v.m_named_nodes kind n, v') := by
  cases n with
  | terminal name => exact visitName_eq visit name (.terminal name) v
  | named name => exact visitName_eq visit name (.named name) v
  | unnamed k children =>
      have hchildren := visitChildren_eq hvisit k children v
      simp only [visitChild, hchildren, names, unfoldChild, entered]
      cases visitAll visit _ v with
      | error stop => rfl
      | ok v' =>
          simp only
          split <;> rfl

/-- The visit of the children enters the names below them in order, and rewrites the
children. -/
theorem visitChildren_eq {visit : String -> UpdateVisitor -> Except Stop UpdateVisitor}
    (hvisit : KeepsNames visit) (kind : Kind) (children : List NodePtr) (v : UpdateVisitor) :
    visitChildren visit kind children v =
      match visitAll visit (entered v.m_named_nodes children) v with
      | .error stop => .error stop
      | .ok v' => .ok (unfoldChildren v.m_named_nodes kind children, v') := by
  cases children with
  | nil => rfl
  | cons n rest =>
      have hfirst := visitChild_eq hvisit kind n v
      simp only [visitChildren, hfirst, entered, namesAll, List.filter_append, visitAll_append]
      cases hvn : visitAll visit
          ((names n).filter fun x => v.m_named_nodes x == some .nonTerminal) v with
      | error stop => rfl
      | ok mid =>
          have hsame := hvisit.visitAll hvn
          have hrest := visitChildren_eq hvisit kind rest mid
          simp only [hrest, entered, hsame, unfoldChildren]
          cases visitAll visit _ mid <;> rfl

end

/-!
## The graph of references
-/

/-- The node of `a` has a child that is, after the update, the node of `b`. -/
def References (v : UpdateVisitor) (a b : String) : Prop :=
  b ∈ entered v.m_named_nodes (v.nonTerminals a).children

def Reaches (v : UpdateVisitor) : String -> String -> Prop :=
  Relation.ReflTransGen (References v)

/-- A cycle of references can be reached. -/
def Cyclic (v : UpdateVisitor) (name : String) : Prop :=
  exists n, Reaches v name n ∧ Relation.TransGen (References v) n n

/-- The node of a name, with its children rewritten. -/
def updated (v : UpdateVisitor) (n : String) : NonTerminal :=
  { kind := (v.nonTerminals n).kind
    children :=
      unfoldChildren v.m_named_nodes (v.nonTerminals n).kind (v.nonTerminals n).children }

def AllPointed (v : UpdateVisitor) : Prop :=
  forall n, PointedAll v.m_named_nodes (v.nonTerminals n).children

/-- The nodes in `S` are rewritten, the others and everything else is as before. -/
structure Rewrites (S : String -> Prop) (v v' : UpdateVisitor) : Prop where
  names : v'.m_named_nodes = v.m_named_nodes
  on_path : v'.m_on_path = v.m_on_path
  inside : forall n, S n -> v'.nonTerminals n = updated v n
  outside : forall n, ¬ S n -> v'.nonTerminals n = v.nonTerminals n

theorem updated_updated {v v' : UpdateVisitor} (hpointed : AllPointed v) {n : String}
    (hnames : v'.m_named_nodes = v.m_named_nodes) (hn : v'.nonTerminals n = updated v n) :
    updated v' n = updated v n := by
  have hresolved := resolvedAll_unfoldChildren (v.nonTerminals n).kind (hpointed n)
  have hflat := flatAll_unfoldChildren v.m_named_nodes (v.nonTerminals n).kind
    (v.nonTerminals n).children
  unfold updated at hn ⊢
  rw [hn, hnames]
  simp only [unfoldChildren_eq hresolved hflat]

namespace Rewrites

variable {S T : String -> Prop} {v v' v'' : UpdateVisitor}

theorem either (h : Rewrites S v v') (n : String) :
    v'.nonTerminals n = v.nonTerminals n ∨ v'.nonTerminals n = updated v n := by
  by_cases hn : S n
  · exact Or.inr (h.inside n hn)
  · exact Or.inl (h.outside n hn)

theorem references (h : Rewrites S v v') : References v' = References v := by
  funext a b
  unfold References
  rw [h.names]
  rcases h.either a with hsame | hupdated
  · rw [hsame]
  · rw [hupdated]
    simp only [updated, entered_unfoldChildren]

theorem reaches (h : Rewrites S v v') : Reaches v' = Reaches v := by
  unfold Reaches
  rw [h.references]

theorem allPointed (h : Rewrites S v v') (hpointed : AllPointed v) : AllPointed v' := by
  intro n
  rw [h.names]
  rcases h.either n with hsame | hupdated
  · rw [hsame]
    exact hpointed n
  · rw [hupdated]
    exact pointedAll_of_resolvedAll (resolvedAll_unfoldChildren _ (hpointed n))

theorem updated_eq (h : Rewrites S v v') (hpointed : AllPointed v) (n : String) :
    updated v' n = updated v n := by
  rcases h.either n with hsame | hupdated
  · simp only [updated, hsame, h.names]
  · exact updated_updated hpointed h.names hupdated

theorem refl (v : UpdateVisitor) : Rewrites (fun _ => False) v v :=
  ⟨rfl, rfl, fun _ hn => hn.elim, fun _ _ => rfl⟩

theorem congr (h : Rewrites S v v') (hST : forall n, S n ↔ T n) : Rewrites T v v' :=
  ⟨h.names, h.on_path, fun n hn => h.inside n ((hST n).mpr hn),
    fun n hn => h.outside n (fun hS => hn ((hST n).mp hS))⟩

theorem trans (h : Rewrites S v v') (h' : Rewrites T v' v'') (hpointed : AllPointed v) :
    Rewrites (fun n => S n ∨ T n) v v'' := by
  constructor
  · exact h'.names.trans h.names
  · exact h'.on_path.trans h.on_path
  · intro n hn
    by_cases hT : T n
    · rw [h'.inside n hT]
      exact h.updated_eq hpointed n
    · rw [h'.outside n hT]
      exact h.inside n (hn.resolve_right hT)
  · intro n hn
    rw [h'.outside n (fun hT => hn (Or.inr hT))]
    exact h.outside n (fun hS => hn (Or.inl hS))

end Rewrites

theorem reaches_iff {v : UpdateVisitor} {a n : String} :
    Reaches v a n ↔ n = a ∨ exists b, References v a b ∧ Reaches v b n := by
  constructor
  · intro h
    rcases Relation.ReflTransGen.cases_head h with heq | ⟨b, hab, hbn⟩
    · exact Or.inl heq.symm
    · exact Or.inr ⟨b, hab, hbn⟩
  · rintro (rfl | ⟨b, hab, hbn⟩)
    · exact Relation.ReflTransGen.refl
    · exact Relation.ReflTransGen.head hab hbn

/-!
## The visit of a named node
-/

theorem keepsNames_visitNamed (fuel : Nat) : KeepsNames (visitNamed fuel) := by
  induction fuel with
  | zero =>
      intro name v v' h
      cases h
  | succ fuel ih =>
      intro name v v' h
      simp only [visitNamed, visitChildren_eq ih] at h
      split at h
      · cases h
      · split at h
        · cases h
        · rename_i hvisit
          split at hvisit
          · cases hvisit
          · rename_i hall
            cases hvisit
            cases h
            have hnames := ih.visitAll hall
            exact hnames

/-- What the visit of a named node does, in terms of the visits of the nodes below
it. -/
theorem visitNamed_succ (fuel : Nat) (name : String) (v : UpdateVisitor) :
    visitNamed (fuel + 1) name v =
      if name ∈ v.m_on_path then .error .loopDetected
      else
        match visitAll (visitNamed fuel) (entered v.m_named_nodes (v.nonTerminals name).children)
            { v with m_on_path := insert name v.m_on_path } with
        | .error stop => .error stop
        | .ok v' =>
            .ok
              { v' with
                m_on_path := v'.m_on_path.erase name
                nonTerminals := Function.update v'.nonTerminals name (updated v name) } := by
  simp only [visitNamed, visitChildren_eq (keepsNames_visitNamed fuel)]
  split
  · rfl
  · cases visitAll (visitNamed fuel) (entered v.m_named_nodes (v.nonTerminals name).children)
      { v with m_on_path := insert name v.m_on_path } <;> rfl

theorem visitAll_rewrites {visit : String -> UpdateVisitor -> Except Stop UpdateVisitor}
    (hvisit : forall name v v', AllPointed v -> visit name v = .ok v' ->
      Rewrites (Reaches v name) v v')
    {xs : List String} {v v' : UpdateVisitor} (hpointed : AllPointed v)
    (h : visitAll visit xs v = .ok v') :
    Rewrites (fun n => exists x, x ∈ xs ∧ Reaches v x n) v v' := by
  induction xs generalizing v with
  | nil =>
      cases h
      apply (Rewrites.refl _).congr
      simp
  | cons x xs ih =>
      simp only [visitAll] at h
      cases hx : visit x v with
      | error stop =>
          rw [hx] at h
          cases h
      | ok mid =>
          rw [hx] at h
          have hfirst := hvisit x v mid hpointed hx
          have hrest := ih (hfirst.allPointed hpointed) h
          rw [hfirst.reaches] at hrest
          apply (hfirst.trans hrest hpointed).congr
          intro n
          simp

theorem visitNamed_rewrites (fuel : Nat) (name : String) (v v' : UpdateVisitor)
    (hpointed : AllPointed v) (h : visitNamed fuel name v = .ok v') :
    Rewrites (Reaches v name) v v' := by
  induction fuel generalizing name v v' with
  | zero => cases h
  | succ fuel ih =>
      rw [visitNamed_succ] at h
      split at h
      · cases h
      · rename_i hpath
        cases hall : visitAll (visitNamed fuel)
            (entered v.m_named_nodes (v.nonTerminals name).children)
            { v with m_on_path := insert name v.m_on_path } with
        | error stop =>
            rw [hall] at h
            cases h
        | ok mid =>
            rw [hall] at h
            cases h
            have hpointed' : AllPointed { v with m_on_path := insert name v.m_on_path } :=
              hpointed
            have hbelow := visitAll_rewrites ih hpointed' hall
            constructor
            · exact hbelow.names
            · change mid.m_on_path.erase name = v.m_on_path
              rw [hbelow.on_path]
              exact Finset.erase_insert hpath
            · intro n hn
              by_cases heq : n = name
              · simp [heq]
              · rcases reaches_iff.mp hn with hname | ⟨b, hb, hbn⟩
                · exact absurd hname heq
                · change Function.update mid.nonTerminals name _ n = _
                  rw [Function.update_of_ne heq]
                  exact hbelow.inside n ⟨b, hb, hbn⟩
            · intro n hn
              have heq : n ≠ name := fun heq => hn (reaches_iff.mpr (Or.inl heq))
              change Function.update mid.nonTerminals name _ n = _
              rw [Function.update_of_ne heq]
              apply hbelow.outside n
              rintro ⟨b, hb, hbn⟩
              exact hn (reaches_iff.mpr (Or.inr ⟨b, hb, hbn⟩))

/-!
## Loops
-/

/-- No name on the path can be reached, and no cycle. -/
def LoopFree (v : UpdateVisitor) (name : String) : Prop :=
  (forall p, p ∈ v.m_on_path -> ¬ Reaches v name p) ∧ ¬ Cyclic v name

theorem visitAll_loopFree {fuel : Nat}
    (hvisit : forall name v v', AllPointed v -> visitNamed fuel name v = .ok v' ->
      LoopFree v name)
    {xs : List String} {v v' : UpdateVisitor} (hpointed : AllPointed v)
    (h : visitAll (visitNamed fuel) xs v = .ok v') :
    forall x, x ∈ xs -> LoopFree v x := by
  induction xs generalizing v with
  | nil => simp
  | cons x xs ih =>
      simp only [visitAll] at h
      cases hx : visitNamed fuel x v with
      | error stop =>
          rw [hx] at h
          cases h
      | ok mid =>
          rw [hx] at h
          have hrewrites := visitNamed_rewrites fuel x v mid hpointed hx
          intro y hy
          rcases List.mem_cons.mp hy with rfl | hrest
          · exact hvisit y v mid hpointed hx
          · have hfree := ih (hrewrites.allPointed hpointed) h y hrest
            unfold LoopFree Cyclic at hfree ⊢
            rw [hrewrites.references, hrewrites.reaches, hrewrites.on_path] at hfree
            exact hfree

theorem loopFree_of_ok (fuel : Nat) (name : String) (v v' : UpdateVisitor)
    (hpointed : AllPointed v) (h : visitNamed fuel name v = .ok v') : LoopFree v name := by
  induction fuel generalizing name v v' with
  | zero => cases h
  | succ fuel ih =>
      rw [visitNamed_succ] at h
      split at h
      · cases h
      · rename_i hpath
        cases hall : visitAll (visitNamed fuel)
            (entered v.m_named_nodes (v.nonTerminals name).children)
            { v with m_on_path := insert name v.m_on_path } with
        | error stop =>
            rw [hall] at h
            cases h
        | ok mid =>
            have hpointed' : AllPointed { v with m_on_path := insert name v.m_on_path } :=
              hpointed
            have hbelow := visitAll_loopFree ih hpointed' hall
            constructor
            · intro p hp hreach
              rcases reaches_iff.mp hreach with rfl | ⟨b, hb, hbp⟩
              · exact hpath hp
              · exact (hbelow b hb).1 p (Finset.mem_insert_of_mem hp) hbp
            · rintro ⟨n, hn, hcycle⟩
              rcases reaches_iff.mp hn with rfl | ⟨b, hb, hbn⟩
              · rcases Relation.TransGen.head'_iff.mp hcycle with ⟨b, hb, hback⟩
                exact (hbelow b hb).1 n (Finset.mem_insert_self n _) hback
              · exact (hbelow b hb).2 ⟨n, hbn, hcycle⟩

/-- A cycle, or a way back to the path. -/
def Loops (v : UpdateVisitor) (name : String) : Prop :=
  (exists p, p ∈ v.m_on_path ∧ Reaches v name p) ∨ Cyclic v name

theorem visitAll_loops {fuel : Nat}
    (hvisit : forall name v, AllPointed v -> visitNamed fuel name v = .error .loopDetected ->
      Loops v name)
    {xs : List String} {v : UpdateVisitor} (hpointed : AllPointed v)
    (h : visitAll (visitNamed fuel) xs v = .error .loopDetected) :
    exists x, x ∈ xs ∧ Loops v x := by
  induction xs generalizing v with
  | nil => cases h
  | cons x xs ih =>
      simp only [visitAll] at h
      cases hx : visitNamed fuel x v with
      | error stop =>
          rw [hx] at h
          cases h
          exact ⟨x, List.mem_cons_self, hvisit x v hpointed hx⟩
      | ok mid =>
          rw [hx] at h
          have hrewrites := visitNamed_rewrites fuel x v mid hpointed hx
          rcases ih (hrewrites.allPointed hpointed) h with ⟨y, hy, hloops⟩
          refine ⟨y, List.mem_cons_of_mem x hy, ?_⟩
          unfold Loops Cyclic at hloops ⊢
          rw [hrewrites.references, hrewrites.reaches, hrewrites.on_path] at hloops
          exact hloops

theorem loops_of_loopDetected (fuel : Nat) (name : String) (v : UpdateVisitor)
    (hpointed : AllPointed v) (h : visitNamed fuel name v = .error .loopDetected) :
    Loops v name := by
  induction fuel generalizing name v with
  | zero => cases h
  | succ fuel ih =>
      rw [visitNamed_succ] at h
      split at h
      · rename_i hpath
        exact Or.inl ⟨name, hpath, Relation.ReflTransGen.refl⟩
      · cases hall : visitAll (visitNamed fuel)
            (entered v.m_named_nodes (v.nonTerminals name).children)
            { v with m_on_path := insert name v.m_on_path } with
        | ok mid =>
            rw [hall] at h
            cases h
        | error stop =>
            rw [hall] at h
            cases h
            have hpointed' : AllPointed { v with m_on_path := insert name v.m_on_path } :=
              hpointed
            rcases visitAll_loops ih hpointed' hall with ⟨b, hb, hback | hcycle⟩
            · rcases hback with ⟨p, hp, hbp⟩
              rcases Finset.mem_insert.mp hp with rfl | hold
              · exact Or.inr ⟨p, Relation.ReflTransGen.refl, Relation.TransGen.head' hb hbp⟩
              · exact Or.inl ⟨p, hold, reaches_iff.mpr (Or.inr ⟨b, hb, hbp⟩)⟩
            · rcases hcycle with ⟨n, hbn, hn⟩
              exact Or.inr ⟨n, reaches_iff.mpr (Or.inr ⟨b, hb, hbn⟩), hn⟩

/-!
## Termination
-/

theorem visitAll_ne_outOfFuel {fuel : Nat} {P : UpdateVisitor -> String -> Prop}
    (hvisit : forall name v, AllPointed v -> P v name ->
      visitNamed fuel name v ≠ .error .outOfFuel)
    (hkept : forall v v' name, v'.m_named_nodes = v.m_named_nodes ->
      v'.m_on_path = v.m_on_path -> P v name -> P v' name)
    {xs : List String} {v : UpdateVisitor} (hpointed : AllPointed v)
    (hxs : forall x, x ∈ xs -> P v x) :
    visitAll (visitNamed fuel) xs v ≠ .error .outOfFuel := by
  induction xs generalizing v with
  | nil =>
      intro h
      cases h
  | cons x xs ih =>
      intro h
      simp only [visitAll] at h
      cases hx : visitNamed fuel x v with
      | error stop =>
          rw [hx] at h
          cases h
          exact hvisit x v hpointed (hxs x List.mem_cons_self) hx
      | ok mid =>
          rw [hx] at h
          have hrewrites := visitNamed_rewrites fuel x v mid hpointed hx
          refine ih (hrewrites.allPointed hpointed) ?_ h
          intro y hy
          exact hkept v mid y hrewrites.names hrewrites.on_path
            (hxs y (List.mem_cons_of_mem x hy))

/-- Each named node that is entered is one name less that can still be. -/
theorem visitNamed_ne_outOfFuel (assigned : Finset String) (fuel : Nat) (name : String)
    (v : UpdateVisitor) (hpointed : AllPointed v)
    (hassigned : forall n, v.m_named_nodes n = some .nonTerminal -> n ∈ assigned)
    (hname : name ∈ assigned) (hfuel : (assigned \ v.m_on_path).card < fuel) :
    visitNamed fuel name v ≠ .error .outOfFuel := by
  induction fuel generalizing name v with
  | zero => exact absurd hfuel (Nat.not_lt_zero _)
  | succ fuel ih =>
      intro h
      rw [visitNamed_succ] at h
      split at h
      · cases h
      · rename_i hpath
        have hfewer : (assigned \ insert name v.m_on_path).card < fuel := by
          have hlt : (assigned \ insert name v.m_on_path).card <
              (assigned \ v.m_on_path).card := by
            apply Finset.card_lt_card
            constructor
            · intro n hn
              rw [Finset.mem_sdiff] at hn ⊢
              exact ⟨hn.1, fun hmem => hn.2 (Finset.mem_insert_of_mem hmem)⟩
            · intro hsub
              have hin := hsub (Finset.mem_sdiff.mpr ⟨hname, hpath⟩)
              exact (Finset.mem_sdiff.mp hin).2 (Finset.mem_insert_self name _)
          omega
        have hall : visitAll (visitNamed fuel)
            (entered v.m_named_nodes (v.nonTerminals name).children)
            { v with m_on_path := insert name v.m_on_path } ≠ .error .outOfFuel := by
          apply visitAll_ne_outOfFuel
            (P := fun w n => (forall k, w.m_named_nodes k = some .nonTerminal -> k ∈ assigned) ∧
              n ∈ assigned ∧ (assigned \ w.m_on_path).card < fuel)
          · intro n w hw hP
            exact ih n w hw hP.1 hP.2.1 hP.2.2
          · intro w w' n hnames hon_path hP
            rw [hnames, hon_path]
            exact hP
          · exact hpointed
          · intro x hx
            have hm := (List.mem_filter.mp hx).2
            exact ⟨hassigned, hassigned x (eq_of_beq hm), hfewer⟩
        split at h
        · rename_i stop hstop
          cases h
          exact hall hstop
        · cases h

end UpdateVisitor

end Graph
end Experimental
end Crave
