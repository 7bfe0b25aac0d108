import Crave.Experimental.RuleUpdate

/-!
# Derivations of a rule

The sequences of terminals that a node derives, each as often as it can be derived,
where a name that is assigned is derived as its node. The update of a rule does not
change them, and it fails exactly when there is a cycle of rules.
-/

namespace Crave
namespace Experimental
namespace Graph

/-!
## Words of a node
-/

def join : Kind -> List (List String) -> List (List String) -> List (List String)
  | .Selector, us, vs => us ++ vs
  | .Sequence, us, vs => us.flatMap fun u => vs.map fun v => u ++ v

def combine : Kind -> List (List (List String)) -> List (List String)
  | .Selector, [] => []
  | .Sequence, [] => [[]]
  | kind, ws :: wss => join kind ws (combine kind wss)

mutual

def wordsOf (m : String -> Option NamedNode) (inner : String -> Option (List (List String))) :
    NodePtr -> Option (List (List String))
  | .terminal name => if m name = some .nonTerminal then inner name else some [[name]]
  | .named name => if m name = some .nonTerminal then inner name else some [[name]]
  | .unnamed kind children =>
      match wordsAll m inner children with
      | none => none
      | some wss => some (combine kind wss)

def wordsAll (m : String -> Option NamedNode) (inner : String -> Option (List (List String))) :
    List NodePtr -> Option (List (List (List String)))
  | [] => some []
  | n :: rest =>
      match wordsOf m inner n with
      | none => none
      | some ws =>
          match wordsAll m inner rest with
          | none => none
          | some wss => some (ws :: wss)

end

/-- The derivations from the node of a name, entering at most `fuel` named nodes one
below the other. -/
def derivations (m : String -> Option NamedNode) (nonTerminals : String -> NonTerminal) :
    Nat -> String -> Option (List (List String))
  | 0, _ => none
  | fuel + 1, name =>
      match wordsAll m (derivations m nonTerminals fuel) (nonTerminals name).children with
      | none => none
      | some wss => some (combine (nonTerminals name).kind wss)

theorem join_assoc (kind : Kind) (us vs ws : List (List String)) :
    join kind (join kind us vs) ws = join kind us (join kind vs ws) := by
  cases kind with
  | Selector => exact List.append_assoc us vs ws
  | Sequence =>
      simp only [join, List.flatMap_assoc, List.map_flatMap, List.flatMap_map, List.map_map]
      congr 1
      funext u
      congr 1
      funext v
      congr 1
      funext w
      exact List.append_assoc u v w

theorem join_unit (kind : Kind) (ws : List (List String)) : join kind (combine kind []) ws = ws := by
  cases kind with
  | Selector => rfl
  | Sequence => simp [join, combine]

theorem combine_append (kind : Kind) (xs ys : List (List (List String))) :
    combine kind (xs ++ ys) = join kind (combine kind xs) (combine kind ys) := by
  induction xs with
  | nil => exact (join_unit kind _).symm
  | cons x xs ih =>
      cases kind with
      | Selector => simp only [List.cons_append, combine, ih, join_assoc]
      | Sequence => simp only [List.cons_append, combine, ih, join_assoc]

theorem combine_singleton (kind : Kind) (ws : List (List String)) : combine kind [ws] = ws := by
  cases kind with
  | Selector => simp [combine, join]
  | Sequence => simp [combine, join]

theorem wordsAll_append (m : String -> Option NamedNode)
    (inner : String -> Option (List (List String))) (xs ys : List NodePtr) :
    wordsAll m inner (xs ++ ys) =
      match wordsAll m inner xs with
      | none => none
      | some us =>
          match wordsAll m inner ys with
          | none => none
          | some vs => some (us ++ vs) := by
  induction xs with
  | nil =>
      simp only [List.nil_append, wordsAll]
      cases wordsAll m inner ys <;> rfl
  | cons x xs ih =>
      simp only [List.cons_append, wordsAll, ih]
      cases wordsOf m inner x with
      | none => rfl
      | some ws =>
          cases wordsAll m inner xs with
          | none => rfl
          | some us => cases wordsAll m inner ys <;> rfl

theorem wordsOf_resolve (m : String -> Option NamedNode)
    (inner : String -> Option (List (List String))) (name : String) {n : NodePtr}
    (hn : n = .terminal name ∨ n = .named name) :
    wordsOf m inner (resolve m name n) = wordsOf m inner n := by
  unfold resolve
  rcases hn with rfl | rfl
  · split <;> rfl
  · split <;> rfl

/-- The derivations of children of a node of this kind, together. -/
def together (kind : Kind) (wss : Option (List (List (List String)))) :
    Option (List (List String)) :=
  wss.map (combine kind)

mutual

theorem words_unfoldChild (m : String -> Option NamedNode)
    (inner : String -> Option (List (List String))) (kind : Kind) (n : NodePtr) :
    together kind (wordsAll m inner (unfoldChild m kind n)) = wordsOf m inner n := by
  have hone : forall n', together kind (wordsAll m inner [n']) = wordsOf m inner n' := by
    intro n'
    simp only [wordsAll]
    cases wordsOf m inner n' with
    | none => rfl
    | some ws => exact congrArg some (combine_singleton kind ws)
  cases n with
  | terminal name => exact (hone _).trans (wordsOf_resolve m inner name (Or.inl rfl))
  | named name => exact (hone _).trans (wordsOf_resolve m inner name (Or.inr rfl))
  | unnamed k children =>
      have hchildren := words_unfoldChildren m inner k children
      have hwords : wordsOf m inner (.unnamed k children) =
          together k (wordsAll m inner children) := by
        simp only [wordsOf]
        cases wordsAll m inner children <;> rfl
      rw [hwords, ← hchildren]
      simp only [unfoldChild]
      split
      · rename_i heq
        rw [heq]
      · rw [hone]
        simp only [wordsOf]
        cases wordsAll m inner (unfoldChildren m k children) <;> rfl

theorem words_unfoldChildren (m : String -> Option NamedNode)
    (inner : String -> Option (List (List String))) (kind : Kind) (children : List NodePtr) :
    together kind (wordsAll m inner (unfoldChildren m kind children)) =
      together kind (wordsAll m inner children) := by
  cases children with
  | nil => rfl
  | cons n rest =>
      have hfirst := words_unfoldChild m inner kind n
      have hrest := words_unfoldChildren m inner kind rest
      simp only [unfoldChildren, wordsAll_append, wordsAll]
      rw [← hfirst]
      revert hrest
      cases wordsAll m inner (unfoldChild m kind n) with
      | none => intro _; rfl
      | some us =>
          cases wordsAll m inner (unfoldChildren m kind rest) with
          | none =>
              cases wordsAll m inner rest with
              | none => intro _; rfl
              | some wss => intro hrest; cases hrest
          | some vs =>
              cases wordsAll m inner rest with
              | none => intro hrest; cases hrest
              | some wss =>
                  intro hrest
                  have hvs : combine kind vs = combine kind wss := Option.some.inj hrest
                  simp only [together, Option.map_some, combine_append, hvs]
                  cases kind <;> rfl

end

theorem derivations_congr {m m' : String -> Option NamedNode}
    {nonTerminals nonTerminals' : String -> NonTerminal} (hm : m' = m)
    (hnodes : forall n, nonTerminals' n = nonTerminals n ∨
      nonTerminals' n =
        { kind := (nonTerminals n).kind
          children := unfoldChildren m (nonTerminals n).kind (nonTerminals n).children })
    (fuel : Nat) :
    derivations m' nonTerminals' fuel = derivations m nonTerminals fuel := by
  subst hm
  induction fuel with
  | zero => rfl
  | succ fuel ih =>
      funext name
      simp only [derivations, ih]
      rcases hnodes name with hsame | hrewritten
      · rw [hsame]
      · rw [hrewritten]
        have hwords := words_unfoldChildren m' (derivations m' nonTerminals fuel)
          (nonTerminals name).kind (nonTerminals name).children
        revert hwords
        cases wordsAll m' (derivations m' nonTerminals fuel)
            (unfoldChildren m' (nonTerminals name).kind (nonTerminals name).children) <;>
          cases wordsAll m' (derivations m' nonTerminals fuel) (nonTerminals name).children <;>
            exact id

mutual

theorem wordsOf_mono {m : String -> Option NamedNode}
    {inner inner' : String -> Option (List (List String))}
    (hinner : forall name ws, inner name = some ws -> inner' name = some ws)
    {n : NodePtr} {ws : List (List String)} (h : wordsOf m inner n = some ws) :
    wordsOf m inner' n = some ws := by
  cases n with
  | terminal name =>
      simp only [wordsOf] at h ⊢
      split at h
      · rw [if_pos (by assumption)]
        exact hinner name ws h
      · rw [if_neg (by assumption)]
        exact h
  | named name =>
      simp only [wordsOf] at h ⊢
      split at h
      · rw [if_pos (by assumption)]
        exact hinner name ws h
      · rw [if_neg (by assumption)]
        exact h
  | unnamed kind children =>
      simp only [wordsOf] at h ⊢
      cases hall : wordsAll m inner children with
      | none =>
          rw [hall] at h
          cases h
      | some wss =>
          rw [hall] at h
          rw [wordsAll_mono hinner hall]
          exact h

theorem wordsAll_mono {m : String -> Option NamedNode}
    {inner inner' : String -> Option (List (List String))}
    (hinner : forall name ws, inner name = some ws -> inner' name = some ws)
    {children : List NodePtr} {wss : List (List (List String))}
    (h : wordsAll m inner children = some wss) :
    wordsAll m inner' children = some wss := by
  cases children with
  | nil => exact h
  | cons n rest =>
      simp only [wordsAll] at h ⊢
      cases hn : wordsOf m inner n with
      | none =>
          rw [hn] at h
          cases h
      | some ws =>
          rw [hn] at h
          rw [wordsOf_mono hinner hn]
          cases hrest : wordsAll m inner rest with
          | none =>
              rw [hrest] at h
              cases h
          | some vss =>
              rw [hrest] at h
              rw [wordsAll_mono hinner hrest]
              exact h

end

theorem derivations_succ {m : String -> Option NamedNode}
    {nonTerminals : String -> NonTerminal} {fuel : Nat} {name : String}
    {ws : List (List String)} (h : derivations m nonTerminals fuel name = some ws) :
    derivations m nonTerminals (fuel + 1) name = some ws := by
  induction fuel generalizing name ws with
  | zero => cases h
  | succ fuel ih =>
      rw [derivations] at h ⊢
      cases hall : wordsAll m (derivations m nonTerminals fuel) (nonTerminals name).children with
      | none =>
          rw [hall] at h
          cases h
      | some wss =>
          rw [hall] at h
          rw [wordsAll_mono (fun _ _ hn => ih hn) hall]
          exact h

theorem derivations_mono {m : String -> Option NamedNode}
    {nonTerminals : String -> NonTerminal} {fuel fuel' : Nat} (hle : fuel ≤ fuel')
    {name : String} {ws : List (List String)}
    (h : derivations m nonTerminals fuel name = some ws) :
    derivations m nonTerminals fuel' name = some ws := by
  induction hle with
  | refl => exact h
  | step _ ih => exact derivations_succ ih

mutual

theorem wordsOf_isSome {m : String -> Option NamedNode}
    {inner : String -> Option (List (List String))} {n : NodePtr}
    (h : forall name, name ∈ names n -> m name = some .nonTerminal -> (inner name).isSome) :
    (wordsOf m inner n).isSome := by
  cases n with
  | terminal name =>
      simp only [wordsOf]
      split
      · exact h name (List.mem_singleton.mpr rfl) (by assumption)
      · rfl
  | named name =>
      simp only [wordsOf]
      split
      · exact h name (List.mem_singleton.mpr rfl) (by assumption)
      · rfl
  | unnamed kind children =>
      have hchildren : (wordsAll m inner children).isSome := wordsAll_isSome h
      rcases Option.isSome_iff_exists.mp hchildren with ⟨wss, hwss⟩
      simp only [wordsOf, hwss]
      rfl

theorem wordsAll_isSome {m : String -> Option NamedNode}
    {inner : String -> Option (List (List String))} {children : List NodePtr}
    (h : forall name, name ∈ namesAll children -> m name = some .nonTerminal ->
      (inner name).isSome) :
    (wordsAll m inner children).isSome := by
  cases children with
  | nil => rfl
  | cons n rest =>
      have hfirst : (wordsOf m inner n).isSome := by
        apply wordsOf_isSome
        intro name hname
        exact h name (List.mem_append_left _ hname)
      have hrest : (wordsAll m inner rest).isSome := by
        apply wordsAll_isSome
        intro name hname
        exact h name (List.mem_append_right _ hname)
      rcases Option.isSome_iff_exists.mp hfirst with ⟨ws, hws⟩
      rcases Option.isSome_iff_exists.mp hrest with ⟨wss, hwss⟩
      simp only [wordsAll, hws, hwss]
      rfl

end

namespace UpdateVisitor

theorem visitAll_derivations {fuel : Nat}
    (hvisit : forall name v v', AllPointed v -> visitNamed fuel name v = .ok v' ->
      (derivations v.m_named_nodes v.nonTerminals fuel name).isSome)
    {xs : List String} {v v' : UpdateVisitor} (hpointed : AllPointed v)
    (h : visitAll (visitNamed fuel) xs v = .ok v') :
    forall x, x ∈ xs -> (derivations v.m_named_nodes v.nonTerminals fuel x).isSome := by
  induction xs generalizing v with
  | nil => simp
  | cons x xs ih =>
      simp only [visitAll] at h
      cases hx : visitNamed fuel x v with
      | error stop =>
          rw [hx] at h
          cases h
      | ok mid =>
          rw [hx] at h
          have hrewrites := visitNamed_rewrites fuel x v mid hpointed hx
          have hsame := derivations_congr hrewrites.names hrewrites.either fuel
          intro y hy
          rcases List.mem_cons.mp hy with rfl | hrest
          · exact hvisit y v mid hpointed hx
          · rw [← hsame]
            exact ih (hrewrites.allPointed hpointed) h y hrest

theorem derivations_isSome (fuel : Nat) (name : String) (v v' : UpdateVisitor)
    (hpointed : AllPointed v) (h : visitNamed fuel name v = .ok v') :
    (derivations v.m_named_nodes v.nonTerminals fuel name).isSome := by
  induction fuel generalizing name v v' with
  | zero => cases h
  | succ fuel ih =>
      rw [visitNamed_succ] at h
      split at h
      · cases h
      · cases hall : visitAll (visitNamed fuel)
            (entered v.m_named_nodes (v.nonTerminals name).children)
            { v with m_on_path := insert name v.m_on_path } with
        | error stop =>
            rw [hall] at h
            cases h
        | ok mid =>
            have hpointed' : AllPointed { v with m_on_path := insert name v.m_on_path } :=
              hpointed
            have hbelow := visitAll_derivations ih hpointed' hall
            have hwords : (wordsAll v.m_named_nodes
                (derivations v.m_named_nodes v.nonTerminals fuel)
                (v.nonTerminals name).children).isSome := by
              apply wordsAll_isSome
              intro x hx hm
              exact hbelow x (List.mem_filter.mpr ⟨hx, beq_iff_eq.mpr hm⟩)
            rcases Option.isSome_iff_exists.mp hwords with ⟨wss, hwss⟩
            simp only [derivations, hwss]
            rfl

end UpdateVisitor

/-!
## Contexts
-/

namespace RuleContext

/-- The contexts that evaluations, assignments and updates lead to. -/
inductive Reachable : RuleContext -> Prop where
  | new : Reachable new
  | eval {ctx : RuleContext} (e : Expr) : Reachable ctx -> Reachable (eval e ctx).2
  | assign {ctx ctx' : RuleContext} {rule_name : String} {e : Expr} :
      Reachable ctx -> assign rule_name e ctx = .ok ctx' -> Reachable ctx'
  | update {ctx ctx' : RuleContext} {r : String} :
      Reachable ctx -> update r ctx = .ok ctx' -> Reachable ctx'

structure Consistent (ctx : RuleContext) : Prop where
  assigned : forall name,
    name ∈ ctx.m_assigned_nodes ↔ ctx.m_named_nodes name = some .nonTerminal
  pointed : forall n, PointedAll ctx.m_named_nodes (ctx.nonTerminals n).children
  unassigned : forall name, name ∉ ctx.m_assigned_nodes -> (ctx.nonTerminals name).children = []

/-- The visitor as `root` starts it. -/
def visitor (ctx : RuleContext) : UpdateVisitor where
  m_named_nodes := ctx.m_named_nodes
  m_on_path := ∅
  nonTerminals := ctx.nonTerminals

/-- `b` is named in the definition of `a`, and assigned. -/
def References (ctx : RuleContext) : String -> String -> Prop :=
  UpdateVisitor.References ctx.visitor

def Reaches (ctx : RuleContext) : String -> String -> Prop :=
  Relation.ReflTransGen ctx.References

/-- A cycle of named references can be reached from the root. -/
def Cyclic (ctx : RuleContext) (r : String) : Prop :=
  exists n, ctx.Reaches r n ∧ Relation.TransGen ctx.References n n

def words (ctx : RuleContext) (fuel : Nat) (r : String) : Option (List (List String)) :=
  wordsOf ctx.m_named_nodes (derivations ctx.m_named_nodes ctx.nonTerminals fuel) (.terminal r)

mutual

theorem pointed_mono {m m' : String -> Option NamedNode}
    (hm : forall name, m name = some .nonTerminal -> m' name = some .nonTerminal) {n : NodePtr}
    (h : Pointed m n) : Pointed m' n := by
  cases n with
  | terminal name => exact trivial
  | named name => exact hm name h
  | unnamed kind children => exact pointedAll_mono hm (show PointedAll m children from h)

theorem pointedAll_mono {m m' : String -> Option NamedNode}
    (hm : forall name, m name = some .nonTerminal -> m' name = some .nonTerminal)
    {children : List NodePtr} (h : PointedAll m children) : PointedAll m' children := by
  cases children with
  | nil => exact trivial
  | cons n rest => exact ⟨pointed_mono hm h.1, pointedAll_mono hm h.2⟩

end

/-- What the evaluation of an expression changes: names that were unknown become
terminals. -/
structure Evaluated (ctx ctx' : RuleContext) : Prop where
  assigned : ctx'.m_assigned_nodes = ctx.m_assigned_nodes
  nodes : ctx'.nonTerminals = ctx.nonTerminals
  names : forall name,
    ctx'.m_named_nodes name = some .nonTerminal ↔ ctx.m_named_nodes name = some .nonTerminal

theorem Evaluated.trans {ctx ctx' ctx'' : RuleContext} (h : Evaluated ctx ctx')
    (h' : Evaluated ctx' ctx'') : Evaluated ctx ctx'' :=
  ⟨h'.assigned.trans h.assigned, h'.nodes.trans h.nodes,
    fun name => (h'.names name).trans (h.names name)⟩

theorem Evaluated.consistent {ctx ctx' : RuleContext} (h : Evaluated ctx ctx')
    (hctx : Consistent ctx) : Consistent ctx' := by
  constructor
  · intro name
    rw [h.assigned, h.names]
    exact hctx.assigned name
  · intro n
    rw [h.nodes]
    exact pointedAll_mono (fun name => (h.names name).mpr) (hctx.pointed n)
  · intro name hname
    rw [h.assigned] at hname
    rw [h.nodes]
    exact hctx.unassigned name hname

theorem eval_spec (e : Expr) (ctx : RuleContext) :
    Evaluated ctx (eval e ctx).2 ∧ Pointed (eval e ctx).2.m_named_nodes (eval e ctx).1 := by
  induction e generalizing ctx with
  | rule name =>
      simp only [eval]
      cases hm : ctx.m_named_nodes name with
      | none =>
          refine ⟨⟨rfl, rfl, ?_⟩, trivial⟩
          intro name'
          simp only [Function.update_apply]
          split
          · rename_i heq
            rw [heq, hm]
            simp
          · exact Iff.rfl
      | some found =>
          cases found with
          | terminal => exact ⟨⟨rfl, rfl, fun _ => Iff.rfl⟩, trivial⟩
          | nonTerminal => exact ⟨⟨rfl, rfl, fun _ => Iff.rfl⟩, hm⟩
  | shift_right e1 e2 ih1 ih2 =>
      rcases ih1 ctx with ⟨h1, hp1⟩
      rcases ih2 (eval e1 ctx).2 with ⟨h2, hp2⟩
      exact ⟨h1.trans h2, pointed_mono (fun name => (h2.names name).mpr) hp1, hp2, trivial⟩
  | bitwise_or e1 e2 ih1 ih2 =>
      rcases ih1 ctx with ⟨h1, hp1⟩
      rcases ih2 (eval e1 ctx).2 with ⟨h2, hp2⟩
      exact ⟨h1.trans h2, pointed_mono (fun name => (h2.names name).mpr) hp1, hp2, trivial⟩

theorem consistent_assign {rule_name : String} {e : Expr} {ctx ctx' : RuleContext}
    (hctx : Consistent ctx) (h : assign rule_name e ctx = .ok ctx') : Consistent ctx' := by
  rcases eval_spec e ctx with ⟨hevaluated, hpointed⟩
  have hmid := hevaluated.consistent hctx
  unfold assign at h
  generalize eval e ctx = evaluated at h hpointed hmid
  rcases evaluated with ⟨n, mid⟩
  cases n with
  | terminal name => cases h
  | named name => cases h
  | unnamed kind children =>
      simp only at h
      split at h
      · cases h
      · cases h
        have hmono : forall name, mid.m_named_nodes name = some .nonTerminal ->
            Function.update mid.m_named_nodes rule_name (some .nonTerminal) name =
              some .nonTerminal := by
          intro name hname
          rw [Function.update_apply]
          split
          · rfl
          · exact hname
        constructor
        · intro name
          change name ∈ insert rule_name mid.m_assigned_nodes ↔
            Function.update mid.m_named_nodes rule_name (some .nonTerminal) name = _
          rw [Finset.mem_insert, Function.update_apply, hmid.assigned]
          by_cases heq : name = rule_name
          · simp [heq]
          · simp [heq]
        · intro n
          apply pointedAll_mono hmono
          simp only [Function.update_apply]
          split
          · exact hpointed
          · exact hmid.pointed n
        · intro name hname
          rw [Finset.mem_insert, not_or] at hname
          simp only [Function.update_apply, if_neg hname.1]
          exact hmid.unassigned name hname.2

theorem update_cases (r : String) {ctx : RuleContext} (hctx : Consistent ctx) :
    (r ∉ ctx.m_assigned_nodes ∧ update r ctx = .ok (eval (.rule r) ctx).2) ∨
      (r ∈ ctx.m_assigned_nodes ∧
        update r ctx =
          match UpdateVisitor.visitNamed (ctx.m_assigned_nodes.card + 1) r ctx.visitor with
          | .error stop => .error stop
          | .ok v => .ok { ctx with nonTerminals := v.nonTerminals }) := by
  have hassigned := hctx.assigned r
  unfold update
  simp only [eval]
  cases hm : ctx.m_named_nodes r with
  | none =>
      rw [hm] at hassigned
      exact Or.inl ⟨by simp [hassigned], rfl⟩
  | some found =>
      rw [hm] at hassigned
      cases found with
      | terminal => exact Or.inl ⟨by simp [hassigned], rfl⟩
      | nonTerminal => exact Or.inr ⟨hassigned.mpr rfl, rfl⟩

theorem Consistent.rewrites {ctx : RuleContext} (hctx : Consistent ctx)
    {S : String -> Prop} {v : UpdateVisitor} (h : UpdateVisitor.Rewrites S ctx.visitor v) :
    Consistent { ctx with nonTerminals := v.nonTerminals } := by
  constructor
  · exact hctx.assigned
  · intro n
    have hpointed := h.allPointed hctx.pointed n
    rw [h.names] at hpointed
    exact hpointed
  · intro name hname
    have hnone := hctx.unassigned name hname
    change (v.nonTerminals name).children = []
    rcases h.either name with hsame | hupdated
    · rw [hsame]
      exact hnone
    · have hnone' : (ctx.visitor.nonTerminals name).children = [] := hnone
      rw [hupdated, UpdateVisitor.updated, hnone']
      rfl

theorem Reachable.consistent {ctx : RuleContext} (h : Reachable ctx) : Consistent ctx := by
  induction h with
  | new =>
      constructor
      · intro name
        simp [RuleContext.new]
      · intro n
        exact trivial
      · intro name _
        rfl
  | eval e _ ih => exact (eval_spec e _).1.consistent ih
  | assign _ hassign ih => exact consistent_assign ih hassign
  | @update ctx ctx' r _ hupdate ih =>
      rcases update_cases r ih with ⟨-, hok⟩ | ⟨-, hvisit⟩
      · rw [hok] at hupdate
        cases hupdate
        exact (eval_spec (.rule r) ctx).1.consistent ih
      · rw [hvisit] at hupdate
        split at hupdate
        · cases hupdate
        · rename_i v hv
          cases hupdate
          exact ih.rewrites (UpdateVisitor.visitNamed_rewrites _ r ctx.visitor v ih.pointed hv)

theorem visitor_rewritten {ctx : RuleContext} {S : String -> Prop} {v : UpdateVisitor}
    (h : UpdateVisitor.Rewrites S ctx.visitor v) :
    visitor { ctx with nonTerminals := v.nonTerminals } = v := by
  have hnames := h.names
  have hon_path := h.on_path
  cases v
  cases hnames
  cases hon_path
  rfl

theorem exists_visitNamed {ctx : RuleContext} (hctx : Consistent ctx) {r : String}
    (hr : r ∈ ctx.m_assigned_nodes) (hacyclic : ¬ ctx.Cyclic r) :
    exists v, UpdateVisitor.visitNamed (ctx.m_assigned_nodes.card + 1) r ctx.visitor = .ok v := by
  have hfuel := UpdateVisitor.visitNamed_ne_outOfFuel ctx.m_assigned_nodes
    (ctx.m_assigned_nodes.card + 1) r ctx.visitor hctx.pointed
    (fun n hn => (hctx.assigned n).mpr hn) hr (by
      change (ctx.m_assigned_nodes \ ∅).card < _
      rw [Finset.sdiff_empty]
      exact Nat.lt_succ_self _)
  cases hvisit : UpdateVisitor.visitNamed (ctx.m_assigned_nodes.card + 1) r ctx.visitor with
  | ok v => exact ⟨v, rfl⟩
  | error stop =>
      cases stop with
      | outOfFuel => exact absurd hvisit hfuel
      | loopDetected =>
          rcases UpdateVisitor.loops_of_loopDetected _ r ctx.visitor hctx.pointed hvisit with
            ⟨p, hp, -⟩ | hcycle
          · exact absurd hp (Finset.notMem_empty p)
          · exact absurd hcycle hacyclic

theorem not_cyclic_of_unassigned {ctx : RuleContext} (hctx : Consistent ctx) {r : String}
    (hr : r ∉ ctx.m_assigned_nodes) : ¬ ctx.Cyclic r := by
  have hnone : forall b, ¬ ctx.References r b := by
    intro b hb
    have hempty := hctx.unassigned r hr
    change b ∈ entered ctx.m_named_nodes (ctx.nonTerminals r).children at hb
    rw [hempty] at hb
    cases hb
  rintro ⟨n, hn, hcycle⟩
  rcases Relation.ReflTransGen.cases_head hn with rfl | ⟨b, hb, -⟩
  · rcases Relation.TransGen.head'_iff.mp hcycle with ⟨b, hb, -⟩
    exact hnone b hb
  · exact hnone b hb

theorem update_loopDetected_iff {ctx : RuleContext} (hctx : Consistent ctx) (r : String) :
    update r ctx = .error .loopDetected ↔ ctx.Cyclic r := by
  rcases update_cases r hctx with ⟨hr, hok⟩ | ⟨hr, hvisit⟩
  · rw [hok]
    constructor
    · intro h
      cases h
    · intro h
      exact absurd h (not_cyclic_of_unassigned hctx hr)
  · rw [hvisit]
    constructor
    · intro h
      by_contra hacyclic
      rcases exists_visitNamed hctx hr hacyclic with ⟨v, hv⟩
      rw [hv] at h
      cases h
    · intro hcycle
      have hfuel := UpdateVisitor.visitNamed_ne_outOfFuel ctx.m_assigned_nodes
        (ctx.m_assigned_nodes.card + 1) r ctx.visitor hctx.pointed
        (fun n hn => (hctx.assigned n).mpr hn) hr (by
          change (ctx.m_assigned_nodes \ ∅).card < _
          rw [Finset.sdiff_empty]
          exact Nat.lt_succ_self _)
      cases hv : UpdateVisitor.visitNamed (ctx.m_assigned_nodes.card + 1) r ctx.visitor with
      | ok v =>
          exact absurd hcycle
            (UpdateVisitor.loopFree_of_ok _ r ctx.visitor v hctx.pointed hv).2
      | error stop =>
          cases stop with
          | outOfFuel => exact absurd hv hfuel
          | loopDetected => rfl

/-- What an update leaves behind. -/
structure UpdatedFrom (ctx : RuleContext) (r : String) (ctx' : RuleContext) : Prop where
  assigned : ctx'.m_assigned_nodes = ctx.m_assigned_nodes
  kind : forall n, (ctx'.nonTerminals n).kind = (ctx.nonTerminals n).kind
  named : forall n, namesAll (ctx'.nonTerminals n).children =
    namesAll (ctx.nonTerminals n).children
  resolved : forall n, ctx.Reaches r n ->
    ResolvedAll ctx'.m_named_nodes (ctx'.nonTerminals n).children
  flat : forall n, ctx.Reaches r n ->
    FlatAll (ctx'.nonTerminals n).kind (ctx'.nonTerminals n).children
  outside : forall n, ¬ ctx.Reaches r n -> ctx'.nonTerminals n = ctx.nonTerminals n
  words : forall fuel, ctx'.words fuel r = ctx.words fuel r
  derived : exists ws, forall fuel, ctx.m_assigned_nodes.card < fuel ->
    ctx.words fuel r = some ws
  again : update r ctx' = .ok ctx'

theorem words_of_unassigned {ctx : RuleContext} (hctx : Consistent ctx) {r : String}
    (hr : r ∉ ctx.m_assigned_nodes) (fuel : Nat) : ctx.words fuel r = some [[r]] := by
  have hm : ctx.m_named_nodes r ≠ some .nonTerminal := fun h => hr ((hctx.assigned r).mpr h)
  simp only [words, wordsOf, if_neg hm]

theorem updatedFrom_unassigned {ctx : RuleContext} (hctx : Consistent ctx) {r : String}
    (hr : r ∉ ctx.m_assigned_nodes) : UpdatedFrom ctx r (eval (.rule r) ctx).2 := by
  have hevaluated := (eval_spec (.rule r) ctx).1
  have hctx' := hevaluated.consistent hctx
  have hr' : r ∉ (eval (.rule r) ctx).2.m_assigned_nodes := by
    rw [hevaluated.assigned]
    exact hr
  have hself : forall n, ctx.Reaches r n -> n = r := by
    intro n hn
    rcases Relation.ReflTransGen.cases_head hn with rfl | ⟨b, hb, -⟩
    · rfl
    · have hempty := hctx.unassigned r hr
      change b ∈ entered ctx.m_named_nodes (ctx.nonTerminals r).children at hb
      rw [hempty] at hb
      cases hb
  have hnone : ((eval (.rule r) ctx).2.nonTerminals r).children = [] :=
    hctx'.unassigned r hr'
  have hagain : (eval (.rule r) (eval (.rule r) ctx).2).2 = (eval (.rule r) ctx).2 := by
    simp only [eval]
    cases hm : ctx.m_named_nodes r with
    | none => simp [Function.update_self]
    | some found => cases found <;> simp [hm]
  constructor
  · exact hevaluated.assigned
  · intro n
    rw [hevaluated.nodes]
  · intro n
    rw [hevaluated.nodes]
  · intro n hn
    rw [hself n hn, hnone]
    exact trivial
  · intro n hn
    rw [hself n hn, hnone]
    exact trivial
  · intro n _
    rw [hevaluated.nodes]
  · intro fuel
    rw [words_of_unassigned hctx' hr', words_of_unassigned hctx hr]
  · exact ⟨[[r]], fun fuel _ => words_of_unassigned hctx hr fuel⟩
  · rcases update_cases r hctx' with ⟨-, hok⟩ | ⟨hassigned, -⟩
    · rw [hok, hagain]
    · exact absurd hassigned hr'

theorem updatedFrom_visited {ctx : RuleContext} (hctx : Consistent ctx) {r : String}
    (hr : r ∈ ctx.m_assigned_nodes) (hacyclic : ¬ ctx.Cyclic r) {v : UpdateVisitor}
    (hv : UpdateVisitor.visitNamed (ctx.m_assigned_nodes.card + 1) r ctx.visitor = .ok v) :
    UpdatedFrom ctx r { ctx with nonTerminals := v.nonTerminals } := by
  have hrewrites := UpdateVisitor.visitNamed_rewrites _ r ctx.visitor v hctx.pointed hv
  have hctx' := hctx.rewrites hrewrites
  have hvisitor := visitor_rewritten hrewrites
  have hsame := derivations_congr hrewrites.names hrewrites.either
  have hwords : forall fuel, words { ctx with nonTerminals := v.nonTerminals } fuel r =
      ctx.words fuel r := by
    intro fuel
    have hderivations := hsame fuel
    rw [hrewrites.names] at hderivations
    simp only [words, show derivations ctx.m_named_nodes v.nonTerminals fuel =
      derivations ctx.m_named_nodes ctx.nonTerminals fuel from hderivations]
  constructor
  · rfl
  · intro n
    rcases hrewrites.either n with hsame | hupdated
    · exact congrArg NonTerminal.kind hsame
    · have hkind := congrArg NonTerminal.kind hupdated
      exact hkind
  · intro n
    rcases hrewrites.either n with hsame | hupdated
    · exact congrArg (fun nt => namesAll nt.children) hsame
    · have hnames := congrArg (fun nt : NonTerminal => namesAll nt.children) hupdated
      exact hnames.trans (namesAll_unfoldChildren _ _ _)
  · intro n hn
    change ResolvedAll ctx.m_named_nodes (v.nonTerminals n).children
    rw [hrewrites.inside n hn]
    exact resolvedAll_unfoldChildren _ (hctx.pointed n)
  · intro n hn
    change FlatAll (v.nonTerminals n).kind (v.nonTerminals n).children
    rw [hrewrites.inside n hn]
    exact flatAll_unfoldChildren _ _ _
  · exact hrewrites.outside
  · exact hwords
  · have hsome := UpdateVisitor.derivations_isSome _ r ctx.visitor v hctx.pointed hv
    rcases Option.isSome_iff_exists.mp hsome with ⟨ws, hws⟩
    refine ⟨ws, ?_⟩
    intro fuel hfuel
    simp only [words, wordsOf, if_pos ((hctx.assigned r).mp hr)]
    exact derivations_mono (Nat.succ_le_of_lt hfuel) hws
  · rcases update_cases r hctx' with ⟨hnot, -⟩ | ⟨-, hvisit⟩
    · exact absurd hr hnot
    · have hacyclic' : ¬ Cyclic { ctx with nonTerminals := v.nonTerminals } r := by
        unfold Cyclic Reaches References
        rw [hvisitor, hrewrites.references]
        exact hacyclic
      rcases exists_visitNamed hctx' hr hacyclic' with ⟨v', hv'⟩
      rw [hvisit, hv']
      have hpointed' : UpdateVisitor.AllPointed
          (visitor { ctx with nonTerminals := v.nonTerminals }) := hctx'.pointed
      have hrewrites' := UpdateVisitor.visitNamed_rewrites _ r _ v' hpointed' hv'
      have hnodes : v'.nonTerminals = v.nonTerminals := by
        funext n
        rcases hrewrites'.either n with hkept | hupdated
        · exact hkept
        · rw [hupdated, hvisitor, hrewrites.updated_eq hctx.pointed]
          by_cases hn : ctx.Reaches r n
          · exact (hrewrites.inside n hn).symm
          · have hout : ¬ UpdateVisitor.Reaches (visitor
                { ctx with nonTerminals := v.nonTerminals }) r n := by
              rw [hvisitor, hrewrites.reaches]
              exact hn
            have hstays := hrewrites'.outside n hout
            rw [hupdated, hvisitor, hrewrites.updated_eq hctx.pointed] at hstays
            exact hstays
      simp only [hnodes]

/-- The update reports a loop exactly when a cycle of named references can be reached
from the root; otherwise it resolves and flattens what can be reached, changes no
derivation, and does nothing when it is run again. -/
theorem update_correct (ctx : RuleContext) (h : Reachable ctx) (r : String) :
    (update r ctx = .error .loopDetected ↔ ctx.Cyclic r) ∧
      (¬ ctx.Cyclic r -> exists ctx', update r ctx = .ok ctx' ∧ UpdatedFrom ctx r ctx') := by
  have hctx := h.consistent
  constructor
  · exact update_loopDetected_iff hctx r
  · intro hacyclic
    rcases update_cases r hctx with ⟨hr, hok⟩ | ⟨hr, hvisit⟩
    · exact ⟨_, hok, updatedFrom_unassigned hctx hr⟩
    · rcases exists_visitNamed hctx hr hacyclic with ⟨v, hv⟩
      rw [hv] at hvisit
      exact ⟨_, hvisit, updatedFrom_visited hctx hr hacyclic hv⟩

theorem update_correct_shared :
    exists ctx, Reachable ctx ∧ ctx.m_assigned_nodes = {"r2", "r1"} ∧
      (update "r1" ctx = .error .loopDetected ↔ ctx.Cyclic "r1") ∧
        (¬ ctx.Cyclic "r1" ->
          exists ctx', update "r1" ctx = .ok ctx' ∧ UpdatedFrom ctx "r1" ctx') := by
  have hfirst : exists ctx, ctx.m_assigned_nodes = {"r1"} ∧
      assign "r1" (.shift_right (.rule "r2") (.shift_right (.rule "r3") (.rule "r2"))) .new =
        .ok ctx :=
    ⟨_, rfl, rfl⟩
  rcases hfirst with ⟨first, hone, hassign⟩
  have hreachable : Reachable first := Reachable.assign Reachable.new hassign
  rcases eval_spec (.bitwise_or (.rule "r3") (.rule "r4")) first with ⟨hevaluated, -⟩
  have hsecond : exists ctx, ctx.m_assigned_nodes = {"r2", "r1"} ∧
      assign "r2" (.bitwise_or (.rule "r3") (.rule "r4")) first = .ok ctx := by
    have hassigned := hevaluated.assigned
    rw [hone] at hassigned
    have hnew : "r2" ∉ (eval (.bitwise_or (.rule "r3") (.rule "r4")) first).2.m_assigned_nodes := by
      rw [hassigned]
      decide
    refine ⟨_, ?_, if_neg hnew⟩
    change insert "r2" (eval (.bitwise_or (.rule "r3") (.rule "r4")) first).2.m_assigned_nodes = _
    rw [hassigned]
  rcases hsecond with ⟨second, htwo, hassign'⟩
  have hreachable' : Reachable second := Reachable.assign hreachable hassign'
  exact ⟨second, hreachable', htwo, update_correct second hreachable' "r1"⟩

end RuleContext

end Graph
end Experimental
end Crave
