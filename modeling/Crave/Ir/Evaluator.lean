import Crave.Ir.EvalVisitor

/-!
# The evaluator and its history

An `Evaluator` keeps its assignments and the stack of its visitor between calls.
The visitor binds variables of its own in the same map, and a visit that throws
leaves its operands on the stack.
-/

namespace Crave
namespace Ir
namespace EvalVisitor

structure EvalState where
  exprStack_ : List StackEntry
  evalMap_ : EvalMap

abbrev Visited := Except String Unit × EvalState

def push (entry : StackEntry) (s : EvalState) : Visited :=
  (.ok (), { s with exprStack_ := entry :: s.exprStack_ })

/-- Carry on with the state unless the visit threw. -/
def andThen (v : Visited) (f : EvalState -> Visited) : Visited :=
  match v with
  | (.ok (), s) => f s
  | (.error e, s) => (.error e, s)

def popOne (f : StackEntry -> StackEntry) (s : EvalState) : Visited :=
  match s.exprStack_ with
  | fst :: rest => (.ok (), { s with exprStack_ := f fst :: rest })
  | [] => (.error "exprStack_.size() >= 1", s)

def popTwo (f : StackEntry -> StackEntry -> Except String StackEntry) (s : EvalState) :
    Visited :=
  match s.exprStack_ with
  | snd :: fst :: rest =>
      match f fst snd with
      | .ok entry => (.ok (), { s with exprStack_ := entry :: rest })
      | .error e => (.error e, { s with exprStack_ := rest })
  | _ => (.error "exprStack_.size() >= 2", s)

def popThree (f : StackEntry -> StackEntry -> StackEntry -> StackEntry) (s : EvalState) :
    Visited :=
  match s.exprStack_ with
  | trd :: snd :: fst :: rest => (.ok (), { s with exprStack_ := f fst snd trd :: rest })
  | _ => (.error "exprStack_.size() >= 3", s)

/-- The identifiers between which an equality binds. -/
def boundIds (stored : Node -> Nat) (op : BinaryOperator) (lhs rhs : Node) : Finset Nat :=
  if op = .equalOpr then {castId stored lhs, castId stored rhs} else ∅

def bind (stored : Node -> Nat) (op : BinaryOperator) (lhs rhs : Node) (s : EvalState) :
    EvalState :=
  { s with
    evalMap_ :=
      if op = .equalOpr then
        bindTemporary (castId stored lhs) (castId stored rhs) s.evalMap_
      else s.evalMap_ }

/-- The visit on the stack and the map of the visitor. -/
def traverse (stored : Node -> Nat) : Node -> EvalState -> Visited
  | .placeholder _, s => (.ok (), s)
  | .variableExpr id _ _, s => push (visitVariableExpr id s.evalMap_) s
  | .constant c, s => push (c, true) s
  | .vectorExpr id _ _, s => push (visitVariableExpr id s.evalMap_) s
  | .unaryOpr op child, s => andThen (traverse stored child s) (popOne (visitUnaryOpr op))
  | .inside child collection, s =>
      andThen (traverse stored child s) (popOne fun e => visitInside e collection)
  | .extendExpr child value, s =>
      andThen (traverse stored child s) (popOne (visitExtendExpr value))
  | .binaryOpr op lhs rhs, s =>
      andThen (andThen (traverse stored lhs (bind stored op lhs rhs s)) (traverse stored rhs))
        (popTwo (visitBinaryOpr op))
  | .vectorAccess _ _, s => (.error "VectorAccess is not allowed in EvalVisitor.", s)
  | .ifThenElse a b c, s =>
      andThen
        (andThen (andThen (traverse stored a s) (traverse stored b)) (traverse stored c))
        (popThree visitIfThenElse)
  | .forEach _ _, s => (.error "ForEach is not allowed in EvalVisitor.", s)
  | .unique _, s => (.error "Unique is not allowed in EvalVisitor.", s)
  | .bitslice child r l, s => andThen (traverse stored child s) (popOne (visitBitslice r l))

/-- The identifiers that a visit looks up. -/
def touched (stored : Node -> Nat) : Node -> Finset Nat
  | .placeholder _ => ∅
  | .variableExpr id _ _ => {id}
  | .constant _ => ∅
  | .vectorExpr id _ _ => {id}
  | .unaryOpr _ child => touched stored child
  | .inside child _ => touched stored child
  | .extendExpr child _ => touched stored child
  | .binaryOpr op lhs rhs =>
      boundIds stored op lhs rhs ∪ (touched stored lhs ∪ touched stored rhs)
  | .vectorAccess _ _ => ∅
  | .ifThenElse a b c => touched stored a ∪ touched stored b ∪ touched stored c
  | .forEach _ _ => ∅
  | .unique _ => ∅
  | .bitslice child _ _ => touched stored child

/-!
## The visit as a function of the map

Without a placeholder a visit leaves one more entry on whatever the stack holds.
-/

def PlaceholderFree (n : Node) : Prop :=
  forall id, .placeholder id ∉ n.subterms

def Pushes (v : Except String (StackEntry × EvalMap)) (stack : List StackEntry)
    (t : Visited) : Prop :=
  match v with
  | .ok (entry, evalMap_) => t = (.ok (), ⟨entry :: stack, evalMap_⟩)
  | .error e => t.1 = .error e

theorem Pushes.result {v : Except String (StackEntry × EvalMap)} {stack : List StackEntry}
    {t : Visited} (h : Pushes v stack t) :
    (exists e, v = .error e ∧ t.1 = .error e) ∨
      exists entry evalMap_, v = .ok (entry, evalMap_) ∧ t = (.ok (), ⟨entry :: stack, evalMap_⟩) := by
  cases v with
  | error e => exact Or.inl ⟨e, rfl, h⟩
  | ok found => exact Or.inr ⟨found.1, found.2, rfl, h⟩

theorem andThen_error {t : Visited} {e : String} (h : t.1 = .error e)
    (f : EvalState -> Visited) : (andThen t f).1 = .error e := by
  cases t with
  | mk result s =>
      cases h
      rfl

theorem Pushes.popOne {v v' : Except String (StackEntry × EvalMap)} {stack : List StackEntry}
    {t : Visited} {f : StackEntry -> StackEntry} (h : Pushes v stack t)
    (herror : forall e, v = .error e -> v' = .error e)
    (hok : forall entry evalMap_, v = .ok (entry, evalMap_) -> v' = .ok (f entry, evalMap_)) :
    Pushes v' stack (andThen t (popOne f)) := by
  rcases h.result with ⟨e, hv, ht⟩ | ⟨entry, evalMap_, hv, rfl⟩
  · rw [herror e hv]
    exact andThen_error ht _
  · rw [hok entry evalMap_ hv]
    rfl

theorem traverse_pushes (stored : Node -> Nat) {n : Node} (hn : PlaceholderFree n)
    (stack : List StackEntry) (evalMap_ : EvalMap) :
    Pushes (visit stored n evalMap_) stack (traverse stored n ⟨stack, evalMap_⟩) := by
  induction n generalizing stack evalMap_ with
  | placeholder id => exact absurd (by simp [Node.subterms]) (hn id)
  | variableExpr id bitsize sign => rfl
  | constant c => rfl
  | vectorExpr id bitsize sign => rfl
  | unaryOpr op child ih =>
      have hchild : PlaceholderFree child := fun id hid => hn id (List.mem_cons_of_mem _ hid)
      apply (ih hchild stack evalMap_).popOne
      · intro e hv
        simp only [visit, hv]
      · intro entry later hv
        simp only [visit, hv]
  | inside child collection ih =>
      have hchild : PlaceholderFree child := fun id hid => hn id (List.mem_cons_of_mem _ hid)
      apply (ih hchild stack evalMap_).popOne
      · intro e hv
        simp only [visit, hv]
      · intro entry later hv
        simp only [visit, hv]
  | extendExpr child value ih =>
      have hchild : PlaceholderFree child := fun id hid => hn id (List.mem_cons_of_mem _ hid)
      apply (ih hchild stack evalMap_).popOne
      · intro e hv
        simp only [visit, hv]
      · intro entry later hv
        simp only [visit, hv]
  | binaryOpr op lhs rhs ihl ihr =>
      have hlhs : PlaceholderFree lhs := fun id hid =>
        hn id (List.mem_cons_of_mem _ (List.mem_append_left _ hid))
      have hrhs : PlaceholderFree rhs := fun id hid =>
        hn id (List.mem_cons_of_mem _ (List.mem_append_right _ hid))
      simp only [visit, traverse, bind]
      generalize (if op = .equalOpr then
        bindTemporary (castId stored lhs) (castId stored rhs) evalMap_ else evalMap_) = bound
      rcases (ihl hlhs stack bound).result with ⟨e, hv, ht⟩ | ⟨fst, mid, hv, ht⟩
      · rw [hv]
        exact andThen_error (andThen_error ht _) _
      · rw [hv, ht]
        rcases (ihr hrhs (fst :: stack) mid).result with ⟨e, hv', ht'⟩ | ⟨snd, later, hv', ht'⟩
        · simp only [hv']
          exact andThen_error ht' _
        · simp only [hv', andThen, ht', popTwo]
          cases visitBinaryOpr op fst snd with
          | error e => rfl
          | ok entry => rfl
  | vectorAccess lhs rhs ihl ihr => rfl
  | ifThenElse a b c iha ihb ihc =>
      have ha : PlaceholderFree a := fun id hid =>
        hn id (List.mem_cons_of_mem _ (List.mem_append_left _ (List.mem_append_left _ hid)))
      have hb : PlaceholderFree b := fun id hid =>
        hn id (List.mem_cons_of_mem _ (List.mem_append_left _ (List.mem_append_right _ hid)))
      have hc : PlaceholderFree c := fun id hid =>
        hn id (List.mem_cons_of_mem _ (List.mem_append_right _ hid))
      simp only [visit, traverse]
      rcases (iha ha stack evalMap_).result with ⟨e, hv, ht⟩ | ⟨fst, first, hv, ht⟩
      · rw [hv]
        exact andThen_error (andThen_error (andThen_error ht _) _) _
      · rw [hv, ht]
        rcases (ihb hb (fst :: stack) first).result with ⟨e, hv', ht'⟩ | ⟨snd, second, hv', ht'⟩
        · simp only [hv']
          exact andThen_error (andThen_error ht' _) _
        · rcases (ihc hc (snd :: fst :: stack) second).result with
            ⟨e, hv'', ht''⟩ | ⟨trd, third, hv'', ht''⟩
          · simp only [hv', hv'']
            change (andThen (andThen (traverse stored b ⟨fst :: stack, first⟩) _) _).1 = _
            rw [ht']
            exact andThen_error ht'' _
          · simp only [hv', hv'', andThen, ht', ht'']
            rfl
  | forEach lhs rhs ihl ihr => rfl
  | unique child ih => rfl
  | bitslice child r l ih =>
      have hchild : PlaceholderFree child := fun id hid => hn id (List.mem_cons_of_mem _ hid)
      apply (ih hchild stack evalMap_).popOne
      · intro e hv
        simp only [visit, hv]
      · intro entry later hv
        simp only [visit, hv]

/-!
## Visits of maps that agree
-/

/-- The stacks are equal, and the maps give the same to the identifiers of `S`. -/
structure AgreeOn (S : Finset Nat) (s t : EvalState) : Prop where
  stack : s.exprStack_ = t.exprStack_
  map : forall id, id ∈ S -> s.evalMap_ id = t.evalMap_ id

def VisitedAlike (S : Finset Nat) (v w : Visited) : Prop :=
  v.1 = w.1 ∧ AgreeOn S v.2 w.2

theorem VisitedAlike.andThen {S : Finset Nat} {v w : Visited} {f g : EvalState -> Visited}
    (h : VisitedAlike S v w)
    (hnext : forall s t, AgreeOn S s t -> VisitedAlike S (f s) (g t)) :
    VisitedAlike S (andThen v f) (EvalVisitor.andThen w g) := by
  cases v with
  | mk result s =>
      cases w with
      | mk result' t =>
          rcases h with ⟨hresult, hagree⟩
          cases hresult
          cases result with
          | error e => exact ⟨rfl, hagree⟩
          | ok u => exact hnext s t hagree

theorem popOne_alike {S : Finset Nat} (f : StackEntry -> StackEntry) {s t : EvalState}
    (h : AgreeOn S s t) : VisitedAlike S (popOne f s) (popOne f t) := by
  unfold popOne
  rw [h.stack]
  cases t.exprStack_ with
  | nil => exact ⟨rfl, h⟩
  | cons fst rest => exact ⟨rfl, rfl, h.map⟩

theorem popTwo_alike {S : Finset Nat} (f : StackEntry -> StackEntry -> Except String StackEntry)
    {s t : EvalState} (h : AgreeOn S s t) : VisitedAlike S (popTwo f s) (popTwo f t) := by
  unfold popTwo
  rw [h.stack]
  cases t.exprStack_ with
  | nil => exact ⟨rfl, h⟩
  | cons snd rest =>
      cases rest with
      | nil => exact ⟨rfl, h⟩
      | cons fst rest =>
          simp only
          cases f fst snd with
          | error e => exact ⟨rfl, rfl, h.map⟩
          | ok entry => exact ⟨rfl, rfl, h.map⟩

theorem popThree_alike {S : Finset Nat}
    (f : StackEntry -> StackEntry -> StackEntry -> StackEntry) {s t : EvalState}
    (h : AgreeOn S s t) : VisitedAlike S (popThree f s) (popThree f t) := by
  unfold popThree
  rw [h.stack]
  match t.exprStack_ with
  | [] => exact ⟨rfl, h⟩
  | [_] => exact ⟨rfl, h⟩
  | [_, _] => exact ⟨rfl, h⟩
  | _ :: _ :: _ :: _ => exact ⟨rfl, rfl, h.map⟩

theorem push_alike {S : Finset Nat} {id : Nat} (hid : id ∈ S) {s t : EvalState}
    (h : AgreeOn S s t) :
    VisitedAlike S (push (visitVariableExpr id s.evalMap_) s)
      (push (visitVariableExpr id t.evalMap_) t) := by
  simp only [push, visitVariableExpr, h.map id hid, h.stack]
  exact ⟨rfl, rfl, h.map⟩

theorem bind_alike {stored : Node -> Nat} {S : Finset Nat} {op : BinaryOperator}
    {lhs rhs : Node} (hids : boundIds stored op lhs rhs ⊆ S) {s t : EvalState}
    (h : AgreeOn S s t) :
    AgreeOn S (bind stored op lhs rhs s) (bind stored op lhs rhs t) := by
  constructor
  · exact h.stack
  · intro id hid
    simp only [bind]
    by_cases hop : op = .equalOpr
    · rw [boundIds, if_pos hop] at hids
      rw [if_pos hop, if_pos hop]
      have hl := h.map (castId stored lhs) (hids (Finset.mem_insert_self _ _))
      have hr := h.map (castId stored rhs)
        (hids (Finset.mem_insert_of_mem (Finset.mem_singleton_self _)))
      simp only [bindTemporary, hl, hr]
      split
      · cases t.evalMap_ (castId stored lhs) <;> cases t.evalMap_ (castId stored rhs) <;>
          simp only [Function.update_apply, h.map id hid]
      · exact h.map id hid
    · rw [if_neg hop, if_neg hop]
      exact h.map id hid

theorem traverse_alike {stored : Node -> Nat} {n : Node} {S : Finset Nat}
    (hS : touched stored n ⊆ S) {s t : EvalState} (h : AgreeOn S s t) :
    VisitedAlike S (traverse stored n s) (traverse stored n t) := by
  induction n generalizing s t with
  | placeholder id => exact ⟨rfl, h⟩
  | variableExpr id bitsize sign => exact push_alike (hS (Finset.mem_singleton_self id)) h
  | constant c =>
      simp only [traverse, push, h.stack]
      exact ⟨rfl, rfl, h.map⟩
  | vectorExpr id bitsize sign => exact push_alike (hS (Finset.mem_singleton_self id)) h
  | unaryOpr op child ih => exact (ih hS h).andThen fun s t => popOne_alike _
  | inside child collection ih => exact (ih hS h).andThen fun s t => popOne_alike _
  | extendExpr child value ih => exact (ih hS h).andThen fun s t => popOne_alike _
  | binaryOpr op lhs rhs ihl ihr =>
      rcases Finset.union_subset_iff.mp hS with ⟨hids, hchildren⟩
      rcases Finset.union_subset_iff.mp hchildren with ⟨hl, hr⟩
      apply ((ihl hl (bind_alike hids h)).andThen fun s t hagree => ihr hr hagree).andThen
      intro s t hagree
      exact popTwo_alike _ hagree
  | vectorAccess lhs rhs ihl ihr => exact ⟨rfl, h⟩
  | ifThenElse a b c iha ihb ihc =>
      rcases Finset.union_subset_iff.mp hS with ⟨hab, hc⟩
      rcases Finset.union_subset_iff.mp hab with ⟨ha, hb⟩
      apply (((iha ha h).andThen fun s t hagree => ihb hb hagree).andThen
        fun s t hagree => ihc hc hagree).andThen
      intro s t hagree
      exact popThree_alike _ hagree
  | forEach lhs rhs ihl ihr => exact ⟨rfl, h⟩
  | unique child ih => exact ⟨rfl, h⟩
  | bitslice child r l ih => exact (ih hS h).andThen fun s t => popOne_alike _

/-!
## Later maps
-/

theorem extends_traverse (stored : Node -> Nat) (n : Node) (s : EvalState) :
    Extends s.evalMap_ (traverse stored n s).2.evalMap_ := by
  have hthen : forall (v : Visited) (f : EvalState -> Visited),
      (forall t, Extends t.evalMap_ (f t).2.evalMap_) ->
        Extends v.2.evalMap_ (andThen v f).2.evalMap_ := by
    intro v f hf
    cases v with
    | mk result t =>
        cases result with
        | error e => exact fun _ _ hid => hid
        | ok u => exact hf t
  have hone : forall (f : StackEntry -> StackEntry) (t : EvalState),
      Extends t.evalMap_ (popOne f t).2.evalMap_ := by
    intro f t
    unfold popOne
    cases t.exprStack_ <;> exact fun _ _ hid => hid
  have htwo : forall (f : StackEntry -> StackEntry -> Except String StackEntry) (t : EvalState),
      Extends t.evalMap_ (popTwo f t).2.evalMap_ := by
    intro f t
    unfold popTwo
    split
    · split <;> exact fun _ _ hid => hid
    · exact fun _ _ hid => hid
  have hthree : forall (f : StackEntry -> StackEntry -> StackEntry -> StackEntry)
      (t : EvalState), Extends t.evalMap_ (popThree f t).2.evalMap_ := by
    intro f t
    unfold popThree
    split <;> exact fun _ _ hid => hid
  have htrans : forall {m m' m'' : EvalMap}, Extends m m' -> Extends m' m'' -> Extends m m'' :=
    fun h h' id c hid => h' id c (h id c hid)
  induction n generalizing s with
  | placeholder id => exact fun _ _ hid => hid
  | variableExpr id bitsize sign => exact fun _ _ hid => hid
  | constant c => exact fun _ _ hid => hid
  | vectorExpr id bitsize sign => exact fun _ _ hid => hid
  | unaryOpr op child ih => exact htrans (ih s) (hthen _ _ (hone _))
  | inside child collection ih => exact htrans (ih s) (hthen _ _ (hone _))
  | extendExpr child value ih => exact htrans (ih s) (hthen _ _ (hone _))
  | binaryOpr op lhs rhs ihl ihr =>
      have hbind : Extends s.evalMap_ (bind stored op lhs rhs s).evalMap_ := by
        simp only [bind]
        split
        · exact extends_bindTemporary _ _ _
        · exact fun _ _ hid => hid
      exact htrans hbind (htrans (ihl _) (htrans (hthen _ _ ihr) (hthen _ _ (htwo _))))
  | vectorAccess lhs rhs ihl ihr => exact fun _ _ hid => hid
  | ifThenElse a b c iha ihb ihc =>
      exact htrans (iha s) (htrans (hthen _ _ ihb)
        (htrans (hthen _ _ ihc) (hthen _ _ (hthree _))))
  | forEach lhs rhs ihl ihr => exact fun _ _ hid => hid
  | unique child ih => exact fun _ _ hid => hid
  | bitslice child r l ih => exact htrans (ih s) (hthen _ _ (hone _))

end EvalVisitor

/-!
## The evaluator
-/

open EvalVisitor

structure Evaluator where
  assignments_ : EvalMap
  exprStack_ : List StackEntry
  result_ : Constant

namespace Evaluator

def new : Evaluator :=
  { assignments_ := fun _ => none, exprStack_ := [], result_ := Constant.unknown }

def assign (ev : Evaluator) (id : Nat) (c : Constant) : Evaluator :=
  { ev with assignments_ := Function.update ev.assignments_ id (some c) }

def evaluate (stored : Node -> Nat) (ev : Evaluator) (expr : Node) :
    Except String Bool × Evaluator :=
  match traverse stored expr ⟨ev.exprStack_, ev.assignments_⟩ with
  | (.error e, s) =>
      (.error e, { ev with assignments_ := s.evalMap_, exprStack_ := s.exprStack_ })
  | (.ok (), s) =>
      match s.exprStack_ with
      | entry :: rest =>
          (.ok entry.2,
            { assignments_ := s.evalMap_, exprStack_ := rest, result_ := entry.1 })
      | [] =>
          (.error "exprStack_.size() >= 1",
            { ev with assignments_ := s.evalMap_, exprStack_ := s.exprStack_ })

/-- What a caller sees of `evaluate`: whether the expression is defined, and the
result that it asks for then. -/
def answer (stored : Node -> Nat) (ev : Evaluator) (expr : Node) :
    Except String (Bool × Constant) :=
  match ev.evaluate stored expr with
  | (.error e, _) => .error e
  | (.ok defined, after) => .ok (defined, after.result_)

/-- `evaluate(expr) && result<bool>()` -/
def holds (stored : Node -> Nat) (ev : Evaluator) (expr : Node) : Except String Bool :=
  match ev.answer stored expr with
  | .error e => .error e
  | .ok (defined, result) => .ok (defined && result.value != 0)

inductive Call where
  | assign (id : Nat) (c : Constant)
  | evaluate (expr : Node)

def perform (stored : Node -> Nat) (ev : Evaluator) : Call -> Evaluator
  | .assign id c => ev.assign id c
  | .evaluate expr => (ev.evaluate stored expr).2

/-- The evaluator after a sequence of calls. -/
def after (stored : Node -> Nat) (calls : List Call) : Evaluator :=
  calls.foldl (perform stored) new

/-- The last value that `assign` gave to each variable. -/
def lastAssigned (calls : List Call) : EvalMap :=
  calls.foldl
    (fun assigned call =>
      match call with
      | .assign id c => Function.update assigned id (some c)
      | .evaluate _ => assigned)
    (fun _ => none)

/-- An evaluator that holds these assignments and has evaluated nothing. -/
def holding (assigned : EvalMap) : Evaluator :=
  { new with assignments_ := assigned }

/-!
## Histories
-/

theorem after_snoc (stored : Node -> Nat) (calls : List Call) (call : Call) :
    after stored (calls ++ [call]) = (after stored calls).perform stored call := by
  simp [after]

theorem lastAssigned_snoc_assign (calls : List Call) (id : Nat) (c : Constant) :
    lastAssigned (calls ++ [.assign id c]) =
      Function.update (lastAssigned calls) id (some c) := by
  simp [lastAssigned]

theorem lastAssigned_snoc_evaluate (calls : List Call) (expr : Node) :
    lastAssigned (calls ++ [.evaluate expr]) = lastAssigned calls := by
  simp [lastAssigned]

theorem extends_evaluate (stored : Node -> Nat) (ev : Evaluator) (expr : Node) :
    Extends ev.assignments_ (ev.evaluate stored expr).2.assignments_ := by
  have hextends := extends_traverse stored expr ⟨ev.exprStack_, ev.assignments_⟩
  unfold evaluate
  generalize traverse stored expr ⟨ev.exprStack_, ev.assignments_⟩ = v at hextends
  cases v with
  | mk result s =>
      cases result with
      | error e => exact hextends
      | ok u => cases hstack : s.exprStack_ <;> simpa only [hstack] using hextends

theorem extends_lastAssigned (stored : Node -> Nat) (calls : List Call) :
    Extends (lastAssigned calls) (after stored calls).assignments_ := by
  induction calls using List.reverseRecOn with
  | nil =>
      intro id c hid
      cases hid
  | append_singleton calls call ih =>
      rw [after_snoc]
      cases call with
      | assign id c =>
          intro i d hi
          rw [lastAssigned_snoc_assign, Function.update_apply] at hi
          simp only [perform, assign, Function.update_apply]
          split
          · rwa [if_pos (by assumption)] at hi
          · rw [if_neg (by assumption)] at hi
            exact ih i d hi
      | evaluate expr =>
          intro i d hi
          rw [lastAssigned_snoc_evaluate] at hi
          exact extends_evaluate stored _ expr i d (ih i d hi)

theorem answer_alike {stored : Node -> Nat} {ev ev' : Evaluator} {expr : Node}
    (hstack : ev.exprStack_ = ev'.exprStack_)
    (hmap : forall id, id ∈ touched stored expr -> ev.assignments_ id = ev'.assignments_ id) :
    ev.answer stored expr = ev'.answer stored expr := by
  have halike : VisitedAlike (touched stored expr)
      (traverse stored expr ⟨ev.exprStack_, ev.assignments_⟩)
      (traverse stored expr ⟨ev'.exprStack_, ev'.assignments_⟩) :=
    traverse_alike (Finset.Subset.refl _) ⟨hstack, hmap⟩
  unfold answer evaluate
  generalize traverse stored expr ⟨ev.exprStack_, ev.assignments_⟩ = v at halike
  generalize traverse stored expr ⟨ev'.exprStack_, ev'.assignments_⟩ = w at halike
  cases v with
  | mk result s =>
      cases w with
      | mk result' t =>
          rcases halike with ⟨hresult, hagree⟩
          cases hresult
          cases result with
          | error e => rfl
          | ok u =>
              have hsame : s.exprStack_ = t.exprStack_ := hagree.stack
              simp only [hsame]
              cases t.exprStack_ <;> rfl

theorem answer_eq_visit {stored : Node -> Nat} {ev : Evaluator} {expr : Node}
    (hexpr : PlaceholderFree expr) :
    ev.answer stored expr =
      match visit stored expr ev.assignments_ with
      | .error e => .error e
      | .ok (entry, _) => .ok (entry.2, entry.1) := by
  unfold answer evaluate
  rcases (traverse_pushes stored hexpr ev.exprStack_ ev.assignments_).result with
    ⟨e, hv, ht⟩ | ⟨entry, later, hv, ht⟩
  · rw [hv]
    generalize traverse stored expr ⟨ev.exprStack_, ev.assignments_⟩ = v at ht
    cases v with
    | mk result s =>
        cases ht
        rfl
  · rw [hv, ht]

/-- No variable that the expression looks up and that was never assigned holds what an
earlier evaluation bound to it, and no operand of an earlier evaluation that threw is
within reach. -/
def SeesNoTemporary (stored : Node -> Nat) (ev : Evaluator) (assigned : EvalMap)
    (expr : Node) : Prop :=
  (forall id, id ∈ touched stored expr -> assigned id = none -> ev.assignments_ id = none) ∧
    (ev.exprStack_ = [] ∨ PlaceholderFree expr)

theorem answer_holding {stored : Node -> Nat} {ev : Evaluator} {assigned : EvalMap}
    {expr : Node} (hextends : Extends assigned ev.assignments_)
    (h : SeesNoTemporary stored ev assigned expr) :
    ev.answer stored expr = (holding assigned).answer stored expr := by
  have hmap : forall id, id ∈ touched stored expr ->
      ev.assignments_ id = (holding assigned).assignments_ id := by
    intro id hid
    change ev.assignments_ id = assigned id
    cases hassigned : assigned id with
    | none => exact h.1 id hid hassigned
    | some c => exact hextends id c hassigned
  rcases h.2 with hstack | hfree
  · exact answer_alike hstack hmap
  · have hempty : ev.answer stored expr = { ev with exprStack_ := [] }.answer stored expr := by
      rw [answer_eq_visit hfree, answer_eq_visit hfree]
    rw [hempty]
    exact answer_alike rfl hmap

/-!
## Samples of a covergroup

In every sample a covergroup assigns all of its variables, and then its bins
evaluate expressions. Which ones, a transition bin decides as it runs.
-/

structure Sample where
  values : Nat -> Constant
  evaluated : List Node

def sampleCalls (vars_ : List Nat) (s : Sample) : List Call :=
  vars_.map (fun id => .assign id (s.values id)) ++ s.evaluated.map .evaluate

/-- What a covergroup has assigned when the bins of a sample are evaluated. -/
def sampled (vars_ : List Nat) (values : Nat -> Constant) : EvalMap :=
  fun id => if id ∈ vars_ then some (values id) else none

theorem lastAssigned_append_evaluate (calls : List Call) (exprs : List Node) :
    lastAssigned (calls ++ exprs.map .evaluate) = lastAssigned calls := by
  induction exprs using List.reverseRecOn with
  | nil => simp
  | append_singleton exprs expr ih =>
      rw [List.map_append, ← List.append_assoc]
      exact (lastAssigned_snoc_evaluate _ _).trans ih

theorem lastAssigned_append_assign (calls : List Call) (vars_ : List Nat)
    (values : Nat -> Constant) (id : Nat) :
    lastAssigned (calls ++ vars_.map (fun id => .assign id (values id))) id =
      if id ∈ vars_ then some (values id) else lastAssigned calls id := by
  induction vars_ using List.reverseRecOn with
  | nil => simp
  | append_singleton vars_ v ih =>
      rw [List.map_append, ← List.append_assoc]
      simp only [List.map_cons, List.map_nil]
      rw [lastAssigned_snoc_assign, Function.update_apply, ih]
      by_cases hid : id = v
      · simp [hid]
      · simp [hid]

theorem lastAssigned_sampleCalls (calls : List Call) (vars_ : List Nat) (s : Sample)
    (id : Nat) :
    lastAssigned (calls ++ sampleCalls vars_ s) id =
      if id ∈ vars_ then some (s.values id) else lastAssigned calls id := by
  rw [sampleCalls, ← List.append_assoc, lastAssigned_append_evaluate,
    lastAssigned_append_assign]

theorem lastAssigned_samples (vars_ : List Nat) (samples : List Sample) (s : Sample) :
    lastAssigned (samples.flatMap (sampleCalls vars_) ++ sampleCalls vars_ s) =
      sampled vars_ s.values := by
  have hearlier : forall id, id ∉ vars_ ->
      lastAssigned (samples.flatMap (sampleCalls vars_)) id = none := by
    intro id hid
    induction samples using List.reverseRecOn with
    | nil => rfl
    | append_singleton samples t ih =>
        rw [List.flatMap_append, List.flatMap_singleton, lastAssigned_sampleCalls, if_neg hid]
        exact ih
  funext id
  rw [lastAssigned_sampleCalls, sampled]
  split
  · rfl
  · rename_i hid
    exact hearlier id hid

/-- An evaluation that sees no temporary of an earlier one depends only on what was
assigned, and the bins of a sample only on that sample. -/
theorem answer_independent (stored : Node -> Nat) :
    (forall (calls : List Call) (expr : Node),
      SeesNoTemporary stored (after stored calls) (lastAssigned calls) expr ->
        (after stored calls).answer stored expr =
          (holding (lastAssigned calls)).answer stored expr) ∧
    forall (vars_ : List Nat) (samples : List Sample) (s : Sample) (expr : Node),
      SeesNoTemporary stored
          (after stored (samples.flatMap (sampleCalls vars_) ++ sampleCalls vars_ s))
          (sampled vars_ s.values) expr ->
        (after stored (samples.flatMap (sampleCalls vars_) ++ sampleCalls vars_ s)).holds
            stored expr =
          (holding (sampled vars_ s.values)).holds stored expr := by
  constructor
  · intro calls expr h
    exact answer_holding (extends_lastAssigned stored calls) h
  · intro vars_ samples s expr h
    have hextends := extends_lastAssigned stored
      (samples.flatMap (sampleCalls vars_) ++ sampleCalls vars_ s)
    rw [lastAssigned_samples] at hextends
    unfold holds
    rw [answer_holding hextends h]

/-- `inside(x, {1, 5})`, as the context builds it with a temporary variable. -/
def insideSet (x temporary : Nat) : Node :=
  .binaryOpr .logicalAndOpr
    (.binaryOpr .equalOpr (.variableExpr x 32 false) (.variableExpr temporary 32 false))
    (.inside (.variableExpr temporary 32 false) [⟨1, 32, false⟩, ⟨5, 32, false⟩])

theorem answer_independent_inside :
    let calls : List Call :=
      [.assign 1 ⟨1, 32, false⟩, .evaluate (insideSet 1 2), .assign 1 ⟨5, 32, false⟩]
    let first : Sample := { values := fun _ => ⟨1, 32, false⟩, evaluated := [insideSet 1 2] }
    let second : Sample := { values := fun _ => ⟨5, 32, false⟩, evaluated := [] }
    (after (fun _ => 0) calls).answer (fun _ => 0) (insideSet 1 3) =
        (holding (lastAssigned calls)).answer (fun _ => 0) (insideSet 1 3) ∧
      (after (fun _ => 0) ([first].flatMap (sampleCalls [1]) ++ sampleCalls [1] second)).holds
          (fun _ => 0) (insideSet 1 3) =
        (holding (sampled [1] second.values)).holds (fun _ => 0) (insideSet 1 3) := by
  intro calls first second
  have hfree : PlaceholderFree (insideSet 1 3) := by
    intro id hid
    simp [insideSet, Node.subterms] at hid
  have htouched : forall id, id ∈ touched (fun _ => 0) (insideSet 1 3) -> id = 1 ∨ id = 3 := by
    decide
  constructor
  · apply (answer_independent (fun _ => 0)).1 calls (insideSet 1 3)
    refine ⟨?_, Or.inr hfree⟩
    intro id hid hnone
    rcases htouched id hid with rfl | rfl
    · cases hnone
    · rfl
  · apply (answer_independent (fun _ => 0)).2 [1] [first] second (insideSet 1 3)
    refine ⟨?_, Or.inr hfree⟩
    intro id hid hnone
    rcases htouched id hid with rfl | rfl
    · cases hnone
    · rfl

/-- `inside(x, {1, 5})` is evaluated for 1 and then for 5: the temporary still holds 1. -/
theorem temporary_outlives_evaluation :
    ¬ forall (stored : Node -> Nat) (calls : List Call) (expr : Node),
      (after stored calls).answer stored expr =
        (holding (lastAssigned calls)).answer stored expr := by
  intro hclaim
  have hanswers := hclaim (fun _ => 0)
    [.assign 1 ⟨1, 32, false⟩, .evaluate (insideSet 1 2), .assign 1 ⟨5, 32, false⟩]
    (insideSet 1 2)
  have hfive : (Except.ok (true, Constant.ofBool false) : Except String (Bool × Constant)) =
      .ok (true, Constant.ofBool true) :=
    hanswers
  cases hfive

end Evaluator
end Ir
end Crave
