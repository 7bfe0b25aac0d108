import Mathlib.Data.Finset.Insert
import Mathlib.Data.Finset.Card
import Mathlib.Logic.Function.Basic

/-!
# Rules and their update

The nodes of a graph of rules, the context that builds them from assignments, and
the visitor that updates them in place. An unnamed node belongs to the one node it
was built into, and is modelled as a part of it. A named node may be shared, and
is modelled by its name: the context holds the one node assigned to a rule.
-/

namespace Crave
namespace Experimental
namespace Graph

/-- `obj_kind()` of a nonterminal. -/
inductive Kind where
  | Selector
  | Sequence
deriving DecidableEq, Repr

/-- `named` points to the nonterminal that was assigned to the rule, `terminal` to a
`Terminal` with the name of the rule. -/
inductive NodePtr where
  | terminal (name : String)
  | named (name : String)
  | unnamed (kind : Kind) (children : List NodePtr)

structure NonTerminal where
  kind : Kind
  children : List NodePtr

/-- What the context holds under a name. -/
inductive NamedNode where
  | terminal
  | nonTerminal
deriving DecidableEq

inductive Expr where
  | rule (name : String)
  | shift_right (e1 e2 : Expr)
  | bitwise_or (e1 e2 : Expr)

structure RuleContext where
  m_named_nodes : String -> Option NamedNode
  m_assigned_nodes : Finset String
  nonTerminals : String -> NonTerminal

namespace RuleContext

def new : RuleContext where
  m_named_nodes := fun _ => none
  m_assigned_nodes := ∅
  nonTerminals := fun _ => ⟨.Sequence, []⟩

def eval : Expr -> RuleContext -> NodePtr × RuleContext
  | .rule name, ctx =>
      match ctx.m_named_nodes name with
      | some .terminal => (.terminal name, ctx)
      | some .nonTerminal => (.named name, ctx)
      | none =>
          (.terminal name,
            { ctx with
              m_named_nodes := Function.update ctx.m_named_nodes name (some .terminal) })
  | .shift_right e1 e2, ctx =>
      let (n1, ctx) := eval e1 ctx
      let (n2, ctx) := eval e2 ctx
      (.unnamed .Sequence [n1, n2], ctx)
  | .bitwise_or e1 e2, ctx =>
      let (n1, ctx) := eval e1 ctx
      let (n2, ctx) := eval e2 ctx
      (.unnamed .Selector [n1, n2], ctx)

def assign (rule_name : String) (e : Expr) (ctx : RuleContext) : Except String RuleContext :=
  let (n, ctx) := eval e ctx
  match n with
  | .unnamed kind children =>
      if rule_name ∈ ctx.m_assigned_nodes then
        .error "Multiple assignments to a rule is not allowed"
      else
        .ok
          { m_named_nodes := Function.update ctx.m_named_nodes rule_name (some .nonTerminal)
            m_assigned_nodes := insert rule_name ctx.m_assigned_nodes
            nonTerminals := Function.update ctx.nonTerminals rule_name ⟨kind, children⟩ }
  | _ => .error "RHS must be unnamed"

end RuleContext

/-- Why an update stops. The second is none of the visitor's: the model bounds how
deeply named nodes are entered. -/
inductive Stop where
  | loopDetected
  | outOfFuel
deriving DecidableEq

namespace Stop

def message : Stop -> String
  | loopDetected => "Loop detected"
  | outOfFuel => ""

end Stop

structure UpdateVisitor where
  m_named_nodes : String -> Option NamedNode
  m_on_path : Finset String
  nonTerminals : String -> NonTerminal

namespace UpdateVisitor

/-- The child after the update of a name, and the visit of what it points to. -/
def visitName (visitNamed : String -> UpdateVisitor -> Except Stop UpdateVisitor)
    (name : String) (n : NodePtr) (v : UpdateVisitor) :
    Except Stop (List NodePtr × UpdateVisitor) :=
  match v.m_named_nodes name with
  | some .nonTerminal =>
      match visitNamed name v with
      | .error stop => .error stop
      | .ok v => .ok ([.named name], v)
  | some .terminal => .ok ([.terminal name], v)
  | none => .ok ([n], v)

mutual

/-- What a child of a node of this kind is replaced by. -/
def visitChild (visitNamed : String -> UpdateVisitor -> Except Stop UpdateVisitor)
    (kind : Kind) : NodePtr -> UpdateVisitor -> Except Stop (List NodePtr × UpdateVisitor)
  | .terminal name, v => visitName visitNamed name (.terminal name) v
  | .named name, v => visitName visitNamed name (.named name) v
  | .unnamed k children, v =>
      match visitChildren visitNamed k children v with
      | .error stop => .error stop
      | .ok (updated_children, v) =>
          -- unfold unnamed child of same kind
          if k = kind then .ok (updated_children, v)
          else .ok ([.unnamed k updated_children], v)

def visitChildren (visitNamed : String -> UpdateVisitor -> Except Stop UpdateVisitor)
    (kind : Kind) :
    List NodePtr -> UpdateVisitor -> Except Stop (List NodePtr × UpdateVisitor)
  | [], v => .ok ([], v)
  | n :: rest, v =>
      match visitChild visitNamed kind n v with
      | .error stop => .error stop
      | .ok (updated, v) =>
          match visitChildren visitNamed kind rest v with
          | .error stop => .error stop
          | .ok (updated_children, v) => .ok (updated ++ updated_children, v)

end

/-- `visitNonTerminal` at the node assigned to a rule. -/
def visitNamed : Nat -> String -> UpdateVisitor -> Except Stop UpdateVisitor
  | 0, _, _ => .error .outOfFuel
  | fuel + 1, name, v =>
      if name ∈ v.m_on_path then .error .loopDetected
      else
        let nt := v.nonTerminals name
        match visitChildren (visitNamed fuel) nt.kind nt.children
            { v with m_on_path := insert name v.m_on_path } with
        | .error stop => .error stop
        | .ok (updated_children, v) =>
            .ok
              { v with
                m_on_path := v.m_on_path.erase name
                nonTerminals :=
                  Function.update v.nonTerminals name ⟨nt.kind, updated_children⟩ }

end UpdateVisitor

namespace RuleContext

/-- The update in `root`: each visit of a named node is entered with a name more on
the path. -/
def update (r : String) (ctx : RuleContext) : Except Stop RuleContext :=
  match eval (.rule r) ctx with
  | (.named name, ctx) =>
      match UpdateVisitor.visitNamed (ctx.m_assigned_nodes.card + 1) name
          { m_named_nodes := ctx.m_named_nodes
            m_on_path := ∅
            nonTerminals := ctx.nonTerminals } with
      | .error stop => .error stop
      | .ok v => .ok { ctx with nonTerminals := v.nonTerminals }
  | (_, ctx) => .ok ctx

end RuleContext

end Graph
end Experimental
end Crave
