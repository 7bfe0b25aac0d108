import Crave.Backend.MetaSMTVisitor
import Crave.Ir.ReplaceVisitor
import Crave.MetaSmt.ExpressionSort

/-!
# Widths and signs through the pipeline

The widths that `FixWidthVisitor` records are compared with the widths of the
bit-vectors that `metaSMTVisitorImpl` makes, for every sub-expression of a
constraint.  A scalar constraint reaches the solver as it is, a `foreach` as
the instances of its body.
-/

namespace Crave
namespace Ir

/-- The width of the result of a binary operator, from those of its operands. -/
def binaryBitsize (op : BinaryOperator) (lhs rhs : Nat) : Nat :=
  match op with
  | .logicalAndOpr | .logicalOrOpr | .equalOpr | .notEqualOpr | .lessOpr
  | .lessEqualOpr | .greaterOpr | .greaterEqualOpr => 1
  | _ => max lhs rhs

namespace Node

/-- The width that an expression has in the front end. -/
def bitsize : Node -> Nat
  | placeholder _ => placeholder_bitsize
  | variableExpr _ bitsize _ => bitsize
  | constant c => c.bitsize
  | vectorExpr _ bitsize _ => bitsize
  | unaryOpr _ child => child.bitsize
  | inside _ _ => 1
  | extendExpr child value => child.bitsize + value
  | binaryOpr op lhs rhs => binaryBitsize op lhs.bitsize rhs.bitsize
  | vectorAccess lhs _ => lhs.bitsize
  | ifThenElse _ b c => max b.bitsize c.bitsize
  | forEach _ _ => 1
  | unique _ => 1
  | bitslice _ r l => r - l + 1

def sign : Node -> Bool
  | placeholder _ => false
  | variableExpr _ _ sign => sign
  | constant c => c.sign
  | vectorExpr _ _ sign => sign
  | unaryOpr _ child => child.sign
  | inside _ _ => false
  | extendExpr child _ => child.sign
  | binaryOpr op lhs rhs => binarySign op lhs.sign rhs.sign
  | vectorAccess lhs _ => lhs.sign
  | ifThenElse _ _ _ => false
  | forEach _ rhs => rhs.sign
  | unique _ => false
  | bitslice _ _ _ => false

end Node
end Ir

namespace Backend

open Foundation Ir FixWidthVisitor MetaSMTVisitor

/-!
## Widths of the translation, one operation at a time
-/

theorem width_visitConstant (c : Constant) :
    (visitConstant c).1.width = some c.bitsize := by
  unfold visitConstant
  split
  · rename_i hbool
    have hone : c.bitsize = 1 := by
      simp only [Constant.isBool, Bool.and_eq_true, beq_iff_eq] at hbool
      exact hbool.1
    rw [hone]
    split <;> rfl
  · split <;> rfl

theorem sign_visitConstant (c : Constant) : (visitConstant c).2 = c.sign := by
  unfold visitConstant
  split
  · rfl
  · split <;> rfl

theorem width_visitUnaryOpr (op : UnaryOperator) (entry : Entry) :
    (visitUnaryOpr op entry).1.width = entry.1.width := by
  cases op <;> rfl

theorem sign_visitUnaryOpr (op : UnaryOperator) (entry : Entry) :
    (visitUnaryOpr op entry).2 = entry.2 := by
  cases op <;> rfl

theorem width_visitExtendExpr (value : Nat) (entry : Entry) :
    (visitExtendExpr value entry).1.width = entry.1.width.map (· + value) := by
  unfold visitExtendExpr
  split <;> rfl

theorem sign_visitExtendExpr (value : Nat) (entry : Entry) :
    (visitExtendExpr value entry).2 = entry.2 := by
  unfold visitExtendExpr
  split <;> rfl

theorem width_visitInside {entry : Entry} {w : Nat} {collection : List Constant}
    (hentry : entry.1.width = some w)
    (hcollection : forall c, c ∈ collection -> c.bitsize = w) :
    (visitInside entry collection).1.width = some 1 := by
  have hfold : forall (cs : List Constant) (acc : Formula),
      acc.width = some 1 -> (forall c, c ∈ cs -> c.bitsize = w) ->
      (cs.foldl
        (fun result c =>
          Term.binary .or result (.binary .equal entry.1 (visitConstant c).1))
        acc).width = some 1 := by
    intro cs
    induction cs with
    | nil =>
        intro acc hacc hcs
        exact hacc
    | cons c rest ih =>
        intro acc hacc hcs
        apply ih
        · have hc := hcs c List.mem_cons_self
          simp [Term.width, hacc, hentry, width_visitConstant, hc, BinaryTag.width]
        · exact fun d hd => hcs d (List.mem_cons_of_mem c hd)
  exact hfold collection Term.false rfl hcollection

theorem width_signCases {signedTag unsignedTag : BinaryTag} {f g : Formula}
    {s t : Bool} {w : Nat} (htag : unsignedTag.width w = signedTag.width w)
    (hf : f.width = some w) (hg : g.width = some w) :
    (signCases signedTag unsignedTag (f, s) (g, t)).width =
      some (signedTag.width (if s = t then w else w + 1)) := by
  cases s <;> cases t
  · simp [signCases, Term.width, hf, hg, htag]
  · simp [signCases, Term.width, hf, hg]
  · simp [signCases, Term.width, hf, hg]
  · simp [signCases, Term.width, hf, hg]

/-- The width of the bit-vector made for a binary operator whose operands have
the width `w`: a division of operands of different signs gets a bit more. -/
def producedWidth (op : BinaryOperator) (s t : Bool) (w : Nat) : Nat :=
  match op with
  | .equalOpr | .notEqualOpr | .lessOpr | .lessEqualOpr | .greaterOpr
  | .greaterEqualOpr => 1
  | .devideOpr => if s = t then w else w + 1
  | _ => w

theorem width_visitBinaryOpr (op : BinaryOperator) {fst snd : Entry} {w : Nat}
    (hf : fst.1.width = some w) (hg : snd.1.width = some w) :
    (visitBinaryOpr op fst snd).1.width =
      some (producedWidth op fst.2 snd.2 w) := by
  rcases fst with ⟨f, s⟩
  rcases snd with ⟨g, t⟩
  simp only at hf hg
  cases op with
  | lessOpr => exact width_signCases rfl hf hg
  | lessEqualOpr => exact width_signCases rfl hf hg
  | greaterOpr => exact width_signCases rfl hf hg
  | greaterEqualOpr => exact width_signCases rfl hf hg
  | devideOpr => exact width_signCases rfl hf hg
  | moduloOpr =>
      cases s <;>
        simp [MetaSMTVisitor.visitBinaryOpr, visitModuloOpr, Term.width, hf, hg,
          producedWidth, BinaryTag.width]
  | _ =>
      simp [MetaSMTVisitor.visitBinaryOpr, numberOpr, equalityOpr, shiftOpr,
        Term.width, hf, hg, producedWidth, BinaryTag.width]

theorem sign_visitBinaryOpr (op : BinaryOperator) (fst snd : Entry) :
    (visitBinaryOpr op fst snd).2 = binarySign op fst.2 snd.2 := by
  cases op <;> rfl

theorem width_visitIfThenElse {fst snd trd : Entry} {w : Nat} :
    (visitIfThenElse fst snd trd).1.width = some w ↔
      fst.1.width = some 1 ∧ snd.1.width = some w ∧ trd.1.width = some w := by
  rcases fst with ⟨f, s⟩
  rcases snd with ⟨g, t⟩
  rcases trd with ⟨h, u⟩
  simp only [visitIfThenElse, Term.width, Term.true, SizedBits.width_ofBool]
  cases f.width with
  | none => simp
  | some a =>
      cases g.width with
      | none => by_cases ha : 1 = a <;> simp [ha]
      | some b =>
          cases h.width with
          | none => by_cases ha : 1 = a <;> simp [ha]
          | some c =>
              by_cases ha : 1 = a
              · subst ha
                by_cases hbc : b = c
                · subst hbc
                  simp [BinaryTag.width]
                · simp [hbc, BinaryTag.width]
                  intro hb hc
                  exact hbc (hb.trans hc.symm)
              · have ha' : a ≠ 1 := fun h => ha h.symm
                simp [ha, ha']

theorem width_visitBitslice {entry : Entry} {w r l : Nat}
    (hentry : entry.1.width = some w) (hlr : l ≤ r) (hr : r < w) :
    (visitBitslice r l entry).1.width = some (r - l + 1) := by
  simp [visitBitslice, Term.width, hentry, hlr, hr]

/-!
## The table of solver variables

A solver variable keeps the width of the node it was made for.  After a visit
the table tells the width behind every variable of the expression, so that the
bit-vectors are those of the translation over the widths of the table.
-/

/-- The expression with the widths that the solver variables have. -/
def retype (terminals_ : Terminals) : Node -> Node
  | .placeholder id => .placeholder id
  | .variableExpr id bitsize sign =>
      .variableExpr id ((terminals_ id).getD bitsize) sign
  | .constant c => .constant c
  | .vectorExpr id bitsize sign => .vectorExpr id bitsize sign
  | .unaryOpr op child => .unaryOpr op (retype terminals_ child)
  | .inside child collection => .inside (retype terminals_ child) collection
  | .extendExpr child value => .extendExpr (retype terminals_ child) value
  | .binaryOpr op lhs rhs =>
      .binaryOpr op (retype terminals_ lhs) (retype terminals_ rhs)
  | .vectorAccess lhs rhs =>
      .vectorAccess (retype terminals_ lhs) (retype terminals_ rhs)
  | .ifThenElse a b c =>
      .ifThenElse (retype terminals_ a) (retype terminals_ b) (retype terminals_ c)
  | .forEach lhs rhs => .forEach (retype terminals_ lhs) (retype terminals_ rhs)
  | .unique child => .unique (retype terminals_ child)
  | .bitslice child r l => .bitslice (retype terminals_ child) r l

/-- The variable nodes of an expression, as identifier and width, in the order
in which they are visited. -/
def occurrences : Node -> List (Nat × Nat)
  | .variableExpr id bitsize _ => [(id, bitsize)]
  | .unaryOpr _ child => occurrences child
  | .inside child _ => occurrences child
  | .extendExpr child _ => occurrences child
  | .binaryOpr _ lhs rhs => occurrences lhs ++ occurrences rhs
  | .ifThenElse a b c => occurrences a ++ occurrences b ++ occurrences c
  | .bitslice child _ _ => occurrences child
  | _ => []

namespace Terminals

/-- A variable node makes a solver variable unless its identifier has one. -/
def meet (terminals_ : Terminals) (occurrence : Nat × Nat) : Terminals :=
  match terminals_ occurrence.1 with
  | some _ => terminals_
  | none => Function.update terminals_ occurrence.1 (some occurrence.2)

def meetAll (terminals_ : Terminals) (occurrences : List (Nat × Nat)) : Terminals :=
  occurrences.foldl meet terminals_

/-- One width serves for all nodes of an identifier and for the solver variable
that the table may already have for it. -/
structure Agrees (terminals_ : Terminals) (occurrences : List (Nat × Nat)) : Prop where
  known : forall id bitsize, (id, bitsize) ∈ occurrences ->
    forall width, terminals_ id = some width -> width = bitsize
  unique : forall id bitsize bitsize', (id, bitsize) ∈ occurrences ->
    (id, bitsize') ∈ occurrences -> bitsize = bitsize'

theorem extends_meet (terminals_ : Terminals) (occurrence : Nat × Nat) :
    Terminals.Extends terminals_ (meet terminals_ occurrence) := by
  intro id width hid
  unfold meet
  cases hocc : terminals_ occurrence.1 with
  | some w => exact hid
  | none =>
      have hne : id ≠ occurrence.1 := by
        intro heq
        rw [heq, hocc] at hid
        cases hid
      simpa [Function.update, hne] using hid

theorem extends_meetAll (terminals_ : Terminals) (occurrences : List (Nat × Nat)) :
    Terminals.Extends terminals_ (meetAll terminals_ occurrences) := by
  induction occurrences generalizing terminals_ with
  | nil => exact Terminals.Extends.refl terminals_
  | cons occurrence rest ih => exact (extends_meet terminals_ occurrence).trans (ih _)

theorem meetAll_append (terminals_ : Terminals) (s t : List (Nat × Nat)) :
    meetAll terminals_ (s ++ t) = meetAll (meetAll terminals_ s) t :=
  List.foldl_append

theorem eq_of_meet {terminals_ : Terminals} {occurrence : Nat × Nat} {id width : Nat}
    (h : meet terminals_ occurrence id = some width) :
    terminals_ id = some width ∨ (id, width) = occurrence := by
  unfold meet at h
  cases hocc : terminals_ occurrence.1 with
  | some w =>
      rw [hocc] at h
      exact Or.inl h
  | none =>
      rw [hocc] at h
      by_cases heq : id = occurrence.1
      · subst heq
        simp only [Function.update_self, Option.some.injEq] at h
        exact Or.inr (Prod.ext rfl h.symm)
      · simp only [ne_eq, heq, not_false_eq_true, Function.update_of_ne] at h
        exact Or.inl h

theorem exists_meet (terminals_ : Terminals) (occurrence : Nat × Nat) :
    exists width, meet terminals_ occurrence occurrence.1 = some width := by
  unfold meet
  cases hocc : terminals_ occurrence.1 with
  | some w => exact ⟨w, hocc⟩
  | none => exact ⟨occurrence.2, by simp⟩

/-- The width of a variable that was met is the one the table had for it, or
the width of one of its nodes. -/
theorem meetAll_of_mem (terminals_ : Terminals) {occurrences : List (Nat × Nat)}
    {id bitsize : Nat} (h : (id, bitsize) ∈ occurrences) :
    exists width, meetAll terminals_ occurrences id = some width ∧
      (terminals_ id = some width ∨ (id, width) ∈ occurrences) := by
  induction occurrences generalizing terminals_ with
  | nil => cases h
  | cons occurrence rest ih =>
      rcases List.mem_cons.mp h with heq | hrest
      · rcases exists_meet terminals_ occurrence with ⟨width, hwidth⟩
        have hid : id = occurrence.1 := congrArg Prod.fst heq
        rw [← hid] at hwidth
        refine ⟨width, extends_meetAll _ rest id width hwidth, ?_⟩
        rcases eq_of_meet hwidth with hor | hor
        · exact Or.inl hor
        · exact Or.inr (List.mem_cons.mpr (Or.inl hor))
      · rcases ih (meet terminals_ occurrence) hrest with
          ⟨width, hwidth, hor⟩
        refine ⟨width, hwidth, ?_⟩
        rcases hor with hor | hor
        · rcases eq_of_meet hor with hor | hor
          · exact Or.inl hor
          · exact Or.inr (List.mem_cons.mpr (Or.inl hor))
        · exact Or.inr (List.mem_cons_of_mem occurrence hor)

/-- The solver variables of an expression have the widths of its nodes exactly
when the nodes agree with the table and with each other. -/
theorem agrees_iff (terminals_ : Terminals) (occurrences : List (Nat × Nat)) :
    Agrees terminals_ occurrences ↔
      forall id bitsize, (id, bitsize) ∈ occurrences ->
        meetAll terminals_ occurrences id = some bitsize := by
  constructor
  · intro h id bitsize hmem
    rcases meetAll_of_mem terminals_ hmem with ⟨width, hwidth, hor⟩
    rcases hor with hor | hor
    · rw [hwidth, h.known id bitsize hmem width hor]
    · rw [hwidth, h.unique id width bitsize hor hmem]
  · intro h
    constructor
    · intro id bitsize hmem width hwidth
      have hlater := extends_meetAll terminals_ occurrences id width hwidth
      rw [h id bitsize hmem] at hlater
      exact (Option.some.inj hlater).symm
    · intro id bitsize bitsize' hmem hmem'
      have hsame := (h id bitsize hmem).symm.trans (h id bitsize' hmem')
      exact Option.some.inj hsame

end Terminals

open Terminals

/-- The visitor translates the expression over the widths of the table that it
leaves behind. -/
theorem visit_eq_translate_retype (n : Node) (terminals_ : Terminals) {later : Terminals}
    (hlater : Terminals.Extends (meetAll terminals_ (occurrences n)) later) :
    MetaSMTVisitor.visit n terminals_ =
      match MetaSMTVisitor.translate (retype later n) with
      | .error e => .error e
      | .ok entry => .ok (entry, meetAll terminals_ (occurrences n)) := by
  induction n generalizing terminals_ with
  | placeholder id => rfl
  | variableExpr id bitsize sign =>
      simp only [occurrences, meetAll, List.foldl_cons, List.foldl_nil] at hlater ⊢
      simp only [MetaSMTVisitor.visit, visitVariableExpr, retype, MetaSMTVisitor.translate, meet]
      cases hid : terminals_ id with
      | some width =>
          have hw := hlater id width (extends_meet terminals_ (id, bitsize) id width hid)
          simp only [hw, Option.getD_some]
      | none =>
          have hw := hlater id bitsize (by simp [meet, hid])
          simp only [hw, Option.getD_some, newTerminal_eq]
  | constant c => rfl
  | vectorExpr id bitsize sign => rfl
  | unaryOpr op child ih =>
      simp only [MetaSMTVisitor.visit, retype, MetaSMTVisitor.translate, ih terminals_ hlater,
        occurrences]
      cases MetaSMTVisitor.translate (retype later child) <;> rfl
  | inside child collection ih =>
      simp only [MetaSMTVisitor.visit, retype, MetaSMTVisitor.translate, ih terminals_ hlater,
        occurrences]
      cases MetaSMTVisitor.translate (retype later child) <;> rfl
  | extendExpr child value ih =>
      simp only [MetaSMTVisitor.visit, retype, MetaSMTVisitor.translate, ih terminals_ hlater,
        occurrences]
      cases MetaSMTVisitor.translate (retype later child) <;> rfl
  | binaryOpr op lhs rhs ihl ihr =>
      simp only [occurrences, meetAll_append] at hlater ⊢
      have hl := ihl _ ((extends_meetAll _ (occurrences rhs)).trans hlater)
      simp only [MetaSMTVisitor.visit, retype, MetaSMTVisitor.translate, hl]
      cases MetaSMTVisitor.translate (retype later lhs) with
      | error e => rfl
      | ok fst =>
          simp only [ihr _ hlater]
          cases MetaSMTVisitor.translate (retype later rhs) <;> rfl
  | vectorAccess lhs rhs ihl ihr => rfl
  | ifThenElse a b c iha ihb ihc =>
      simp only [occurrences, meetAll_append] at hlater ⊢
      have hb := (extends_meetAll _ (occurrences c)).trans hlater
      have ha := (extends_meetAll _ (occurrences b)).trans hb
      simp only [MetaSMTVisitor.visit, retype, MetaSMTVisitor.translate, iha _ ha]
      cases MetaSMTVisitor.translate (retype later a) with
      | error e => rfl
      | ok fst =>
          simp only [ihb _ hb]
          cases MetaSMTVisitor.translate (retype later b) with
          | error e => rfl
          | ok snd =>
              simp only [ihc _ hlater]
              cases MetaSMTVisitor.translate (retype later c) <;> rfl
  | forEach lhs rhs ihl ihr => rfl
  | unique child ih => rfl
  | bitslice child r l ih =>
      simp only [MetaSMTVisitor.visit, retype, MetaSMTVisitor.translate, ih terminals_ hlater,
        occurrences]
      cases MetaSMTVisitor.translate (retype later child) <;> rfl

/-!
## What the solver visitor gets to see
-/

/-- How a constraint reaches the solver visitor: as it is, or as the instance
of a vector constraint for one index. -/
inductive Form where
  | whole
  | instanceAt (vec_idx_ : Nat) (ids : List Nat)
deriving DecidableEq, Repr

namespace Form

def node : Form -> Node -> Option Node
  | whole, n => some n
  | instanceAt vec_idx_ ids, n => ReplaceVisitor.replace vec_idx_ ids n

/-- The sub-expressions that the solver visitor translates.  It never looks
below a vector node, except that the instance of a `foreach` is its body. -/
def visited (form : Form) : Node -> List Node
  | .unaryOpr op child => .unaryOpr op child :: visited form child
  | .inside child collection => .inside child collection :: visited form child
  | .extendExpr child value => .extendExpr child value :: visited form child
  | .binaryOpr op lhs rhs =>
      .binaryOpr op lhs rhs :: (visited form lhs ++ visited form rhs)
  | .ifThenElse a b c =>
      .ifThenElse a b c :: (visited form a ++ visited form b ++ visited form c)
  | .forEach lhs rhs =>
      match form with
      | whole => [.forEach lhs rhs]
      | instanceAt _ _ => .forEach lhs rhs :: visited form rhs
  | .bitslice child r l => .bitslice child r l :: visited form child
  | n => [n]

/-- The expressions that the solver visitor does not refuse. -/
def Accepts (form : Form) : Node -> Prop
  | .placeholder _ => form ≠ whole
  | .variableExpr _ _ _ => True
  | .constant _ => True
  | .vectorExpr _ _ _ => False
  | .unaryOpr _ child => Accepts form child
  | .inside child _ => Accepts form child
  | .extendExpr child _ => Accepts form child
  | .binaryOpr _ lhs rhs => Accepts form lhs ∧ Accepts form rhs
  | .vectorAccess _ _ => form ≠ whole
  | .ifThenElse a b c => Accepts form a ∧ Accepts form b ∧ Accepts form c
  | .forEach _ rhs => form ≠ whole ∧ Accepts form rhs
  | .unique _ => False
  | .bitslice child _ _ => Accepts form child

theorem self_mem_visited (form : Form) (u : Node) : u ∈ form.visited u := by
  cases u with
  | forEach lhs rhs => cases form <;> simp [visited]
  | _ => simp [visited]

theorem node_unaryOpr {form : Form} {op : UnaryOperator} {child n : Node}
    (h : form.node (.unaryOpr op child) = some n) :
    exists m, form.node child = some m ∧ n = .unaryOpr op m := by
  cases form with
  | whole => exact ⟨child, rfl, (Option.some.inj h).symm⟩
  | instanceAt vec_idx_ ids =>
      simp only [node, ReplaceVisitor.replace] at h
      split at h
      · rename_i m _ hm _
        exact ⟨m, hm, (Option.some.inj h).symm⟩
      · cases h

theorem node_inside {form : Form} {child n : Node} {collection : List Constant}
    (h : form.node (.inside child collection) = some n) :
    exists m, form.node child = some m ∧ n = .inside m collection := by
  cases form with
  | whole => exact ⟨child, rfl, (Option.some.inj h).symm⟩
  | instanceAt vec_idx_ ids =>
      rcases Option.map_eq_some_iff.mp h with ⟨m, hm, hn⟩
      exact ⟨m, hm, hn.symm⟩

theorem node_extendExpr {form : Form} {child n : Node} {value : Nat}
    (h : form.node (.extendExpr child value) = some n) :
    exists m, form.node child = some m ∧ n = .extendExpr m value := by
  cases form with
  | whole => exact ⟨child, rfl, (Option.some.inj h).symm⟩
  | instanceAt vec_idx_ ids =>
      rcases Option.map_eq_some_iff.mp h with ⟨m, hm, hn⟩
      exact ⟨m, hm, hn.symm⟩

theorem node_bitslice {form : Form} {child n : Node} {r l : Nat}
    (h : form.node (.bitslice child r l) = some n) :
    exists m, form.node child = some m ∧ n = .bitslice m r l := by
  cases form with
  | whole => exact ⟨child, rfl, (Option.some.inj h).symm⟩
  | instanceAt vec_idx_ ids =>
      rcases Option.map_eq_some_iff.mp h with ⟨m, hm, hn⟩
      exact ⟨m, hm, hn.symm⟩

theorem node_binaryOpr {form : Form} {op : BinaryOperator} {lhs rhs n : Node}
    (h : form.node (.binaryOpr op lhs rhs) = some n) :
    exists fst snd, form.node lhs = some fst ∧ form.node rhs = some snd ∧
      n = .binaryOpr op fst snd := by
  cases form with
  | whole => exact ⟨lhs, rhs, rfl, rfl, (Option.some.inj h).symm⟩
  | instanceAt vec_idx_ ids =>
      simp only [node, ReplaceVisitor.replace] at h
      split at h
      · rename_i fst snd _ hfst hsnd _
        exact ⟨fst, snd, hfst, hsnd, (Option.some.inj h).symm⟩
      · cases h

theorem node_ifThenElse {form : Form} {a b c n : Node}
    (h : form.node (.ifThenElse a b c) = some n) :
    exists fst snd trd, form.node a = some fst ∧ form.node b = some snd ∧
      form.node c = some trd ∧ n = .ifThenElse fst snd trd := by
  cases form with
  | whole => exact ⟨a, b, c, rfl, rfl, rfl, (Option.some.inj h).symm⟩
  | instanceAt vec_idx_ ids =>
      simp only [node, ReplaceVisitor.replace] at h
      split at h
      · rename_i fst snd trd hfst hsnd htrd
        exact ⟨fst, snd, trd, hfst, hsnd, htrd, (Option.some.inj h).symm⟩
      · cases h

theorem node_evalBinExpr {form : Form} {fst snd : StackEntry} {p q : Node}
    (hp : form.node (evalBinExpr fst snd).1.1 = some p)
    (hq : form.node (evalBinExpr fst snd).2.1 = some q) :
    exists m k, form.node fst.1 = some m ∧ form.node snd.1 = some k ∧
      (p = if fst.2 < snd.2 then .extendExpr m (snd.2 - fst.2) else m) ∧
      (q = if snd.2 < fst.2 then .extendExpr k (fst.2 - snd.2) else k) := by
  unfold evalBinExpr at hp hq
  by_cases hlt : fst.2 < snd.2
  · simp only [hlt, if_true] at hp hq
    rcases node_extendExpr hp with ⟨m, hm, rfl⟩
    have hnot : ¬ snd.2 < fst.2 := Nat.not_lt.mpr hlt.le
    exact ⟨m, q, hm, hq, by simp [hlt], by simp [hnot]⟩
  · by_cases hgt : snd.2 < fst.2
    · simp only [hlt, hgt, if_true, if_false] at hp hq
      rcases node_extendExpr hq with ⟨k, hk, rfl⟩
      exact ⟨p, k, hp, hk, by simp [hlt], by simp [hgt]⟩
    · simp only [hlt, hgt, if_false] at hp hq
      exact ⟨p, q, hp, hq, by simp [hlt], by simp [hgt]⟩

end Form

/-- The bit-vector and sign that the solver visitor makes for a sub-expression
when the solver variables have the widths of the table. -/
def Produced (form : Form) (later : Terminals) (u : Node) (entry : Entry) : Prop :=
  exists n, form.node (fixWidth u) = some n ∧ MetaSMTVisitor.translate (retype later n) = .ok entry

/-- The sign that a width-fixed sub-expression carries: that of a terminal. -/
def recordedSign : Node -> Option Bool
  | .variableExpr _ _ sign => some sign
  | .constant c => some c.sign
  | .vectorAccess (.vectorExpr _ _ sign) _ => some sign
  | _ => none

theorem sign_of_recordedSign {u : Node} {sign : Bool}
    (h : recordedSign u = some sign) : u.sign = sign := by
  unfold recordedSign at h
  split at h
  · exact Option.some.inj h
  · exact Option.some.inj h
  · exact Option.some.inj h
  · cases h

/-- The operators for which the two visitors need not agree, and when they do:
truth values are single bits, and the operands of a division have one sign. -/
def SortedAt : Node -> Prop
  | .ifThenElse a b c => a.bitsize = 1 ∧ b.bitsize = 1 ∧ c.bitsize = 1
  | .binaryOpr .logicalAndOpr lhs rhs => max lhs.bitsize rhs.bitsize = 1
  | .binaryOpr .logicalOrOpr lhs rhs => max lhs.bitsize rhs.bitsize = 1
  | .binaryOpr .devideOpr lhs rhs => lhs.sign = rhs.sign
  | .forEach _ rhs => rhs.bitsize = 1
  | _ => True

theorem translate_widened {later : Terminals} {m : Node} {entry : Entry}
    (h : MetaSMTVisitor.translate (retype later m) = .ok entry) (c : Prop) [Decidable c] (k : Nat) :
    exists entry' : Entry,
      MetaSMTVisitor.translate (retype later (if c then .extendExpr m k else m)) = .ok entry' ∧
      entry'.2 = entry.2 ∧
      entry'.1.width = if c then entry.1.width.map (· + k) else entry.1.width := by
  by_cases hc : c
  · simp only [hc, if_true, retype, MetaSMTVisitor.translate, h]
    exact ⟨_, rfl, sign_visitExtendExpr k entry, width_visitExtendExpr k entry⟩
  · simp only [hc, if_false]
    exact ⟨entry, h, rfl, rfl⟩

theorem producedWidth_eq_iff (op : BinaryOperator) (lhs rhs : Node) :
    producedWidth op lhs.sign rhs.sign (max lhs.bitsize rhs.bitsize) =
        binaryBitsize op lhs.bitsize rhs.bitsize ↔
      SortedAt (.binaryOpr op lhs rhs) := by
  cases op with
  | devideOpr =>
      simp only [producedWidth, binaryBitsize, SortedAt]
      by_cases h : lhs.sign = rhs.sign
      · simp [h]
      · simp [h]
  | _ => simp [producedWidth, binaryBitsize, SortedAt]

theorem binaryBitsize_eq (op : BinaryOperator) (lhs rhs : Nat) :
    binaryBitsize op lhs rhs = if isBooleanResult op then 1 else max lhs rhs := by
  cases op <;> rfl

/-!
## Width fixing and instances

Extensions do not touch subscripts, so width fixing changes neither which
instances exist nor which variables occur in them.
-/

theorem subscript_evalBinExpr (vec_idx_ : Nat) (fst snd : StackEntry) :
    ReplaceVisitor.subscript vec_idx_ (evalBinExpr fst snd).1.1 =
        ReplaceVisitor.subscript vec_idx_ fst.1 ∧
      ReplaceVisitor.subscript vec_idx_ (evalBinExpr fst snd).2.1 =
        ReplaceVisitor.subscript vec_idx_ snd.1 := by
  unfold evalBinExpr
  split
  · exact ⟨rfl, rfl⟩
  · split
    · exact ⟨rfl, rfl⟩
    · exact ⟨rfl, rfl⟩

theorem subscript_fixWidth (vec_idx_ : Nat) (u : Node) :
    ReplaceVisitor.subscript vec_idx_ (fixWidth u) =
      ReplaceVisitor.subscript vec_idx_ u := by
  unfold fixWidth
  induction u with
  | unaryOpr op child ih =>
      simp only [FixWidthVisitor.visit, visitNumberResultUnaryExpr,
        ReplaceVisitor.subscript, ih]
  | inside child collection ih => exact ih
  | extendExpr child value ih => exact ih
  | binaryOpr op lhs rhs ihl ihr =>
      have h := subscript_evalBinExpr vec_idx_ (FixWidthVisitor.visit lhs)
        (FixWidthVisitor.visit rhs)
      simp only [FixWidthVisitor.visit, visitBinaryOpr_eq, ReplaceVisitor.subscript,
        h.1, h.2, ihl, ihr]
  | vectorAccess lhs rhs ihl ihr =>
      simp only [FixWidthVisitor.visit, ReplaceVisitor.subscript, ihl, ihr]
  | ifThenElse a b c iha ihb ihc =>
      simp only [FixWidthVisitor.visit, ReplaceVisitor.subscript, iha, ihb, ihc]
  | forEach lhs rhs ihl ihr => exact ihr
  | bitslice child r l ih =>
      simp only [FixWidthVisitor.visit, ReplaceVisitor.subscript, ih]
  | _ => rfl

theorem replace_widened {vec_idx_ : Nat} {ids : List Nat} {u n m : Node}
    (h : ReplaceVisitor.replace vec_idx_ ids u = some n)
    (hocc : occurrences n = occurrences m) (c : Prop) [Decidable c] (k : Nat) :
    exists n', ReplaceVisitor.replace vec_idx_ ids (if c then .extendExpr u k else u) =
        some n' ∧ occurrences n' = occurrences m := by
  by_cases hc : c
  · simp only [hc, if_true, ReplaceVisitor.replace, h, Option.map_some]
    exact ⟨_, rfl, hocc⟩
  · simp only [hc, if_false]
    exact ⟨n, h, hocc⟩

theorem evalBinExpr_fst_eq (fst snd : StackEntry) :
    (evalBinExpr fst snd).1.1 =
        (if fst.2 < snd.2 then .extendExpr fst.1 (snd.2 - fst.2) else fst.1) ∧
      (evalBinExpr fst snd).2.1 =
        (if snd.2 < fst.2 then .extendExpr snd.1 (fst.2 - snd.2) else snd.1) := by
  unfold evalBinExpr
  by_cases hlt : fst.2 < snd.2
  · have hnot : ¬ snd.2 < fst.2 := Nat.not_lt.mpr hlt.le
    simp [hlt, hnot]
  · by_cases hgt : snd.2 < fst.2
    · simp [hlt, hgt]
    · simp [hlt, hgt]

theorem occurrences_fixWidth (u : Node) : occurrences (fixWidth u) = occurrences u := by
  unfold fixWidth
  induction u with
  | unaryOpr op child ih => exact ih
  | inside child collection ih => exact ih
  | extendExpr child value ih => exact ih
  | binaryOpr op lhs rhs ihl ihr =>
      have hext : forall (c : Prop) [Decidable c] (n : Node) (k : Nat),
          occurrences (if c then .extendExpr n k else n) = occurrences n := by
        intro c _ n k
        split <;> rfl
      simp only [FixWidthVisitor.visit, visitBinaryOpr_eq, occurrences,
        evalBinExpr_fst_eq, hext, ihl, ihr]
  | ifThenElse a b c iha ihb ihc =>
      simp only [FixWidthVisitor.visit, occurrences, iha, ihb, ihc]
  | bitslice child r l ih => exact ih
  | _ => rfl

theorem replace_fixWidth {variables_ vectors_ : Declarations} {vec_idx_ : Nat}
    {ids : List Nat} {u m : Node} (hbuilds : Context.Builds variables_ vectors_ u)
    (hm : ReplaceVisitor.replace vec_idx_ ids u = some m) :
    exists n, ReplaceVisitor.replace vec_idx_ ids (fixWidth u) = some n ∧
      occurrences n = occurrences m := by
  induction u generalizing m with
  | unaryOpr op child ih =>
      have hsub := subscript_fixWidth vec_idx_ (.unaryOpr op child)
      change ReplaceVisitor.subscript vec_idx_ (.unaryOpr op (fixWidth child)) = _ at hsub
      change exists n, ReplaceVisitor.replace vec_idx_ ids
        (.unaryOpr op (fixWidth child)) = some n ∧ _
      simp only [ReplaceVisitor.replace] at hm ⊢
      split at hm
      · rename_i p idx hp hidx
        rcases ih hbuilds hp with ⟨n, hn, hocc⟩
        cases hm
        rw [hsub, hidx, hn]
        exact ⟨_, rfl, hocc⟩
      · cases hm
  | inside child collection ih =>
      rcases hbuilds with ⟨id, bitsize, sign, rfl, -⟩
      exact ⟨m, hm, rfl⟩
  | extendExpr child value ih => exact hbuilds.elim
  | binaryOpr op lhs rhs ihl ihr =>
      have hsub := subscript_fixWidth vec_idx_ (.binaryOpr op lhs rhs)
      unfold fixWidth at hsub ⊢
      simp only [FixWidthVisitor.visit, visitBinaryOpr_eq, evalBinExpr_fst_eq] at hsub ⊢
      simp only [ReplaceVisitor.replace] at hm ⊢
      split at hm
      · rename_i p q idx hp hq hidx
        rcases ihl hbuilds.1 hp with ⟨n, hn, hocc⟩
        rcases ihr hbuilds.2 hq with ⟨k, hk, hocc'⟩
        rcases replace_widened hn hocc
          ((FixWidthVisitor.visit lhs).2 < (FixWidthVisitor.visit rhs).2)
          ((FixWidthVisitor.visit rhs).2 - (FixWidthVisitor.visit lhs).2)
          with ⟨n', hn', hoccn⟩
        rcases replace_widened hk hocc'
          ((FixWidthVisitor.visit rhs).2 < (FixWidthVisitor.visit lhs).2)
          ((FixWidthVisitor.visit lhs).2 - (FixWidthVisitor.visit rhs).2)
          with ⟨k', hk', hocck⟩
        cases hm
        unfold fixWidth at hn' hk'
        rw [hsub, hidx, hn', hk']
        exact ⟨_, rfl, congrArg₂ (· ++ ·) hoccn hocck⟩
      · cases hm
  | vectorAccess lhs rhs ihl ihr =>
      rcases hbuilds.1 with ⟨vec_id, bitsize, sign, rfl, -⟩
      have hsub := subscript_fixWidth vec_idx_ rhs
      change exists n, ReplaceVisitor.replace vec_idx_ ids
        (.vectorAccess (.vectorExpr vec_id bitsize sign) (fixWidth rhs)) = some n ∧ _
      simp only [ReplaceVisitor.replace] at hm ⊢
      split at hm
      · rename_i p q i hp hq hi
        rcases ihr hbuilds.2 hq with ⟨k, hk, -⟩
        cases hp
        rw [hsub, hi, hk]
        exact ⟨m, hm, rfl⟩
      · cases hm
  | ifThenElse a b c iha ihb ihc =>
      change exists n, ReplaceVisitor.replace vec_idx_ ids
        (.ifThenElse (fixWidth a) (fixWidth b) (fixWidth c)) = some n ∧ _
      simp only [ReplaceVisitor.replace] at hm ⊢
      split at hm
      · rename_i p q r hp hq hr
        rcases iha hbuilds.1 hp with ⟨n, hn, hoccn⟩
        rcases ihb hbuilds.2.1 hq with ⟨k, hk, hocck⟩
        rcases ihc hbuilds.2.2 hr with ⟨l, hl, hoccl⟩
        cases hm
        rw [hn, hk, hl]
        refine ⟨_, rfl, ?_⟩
        simp only [occurrences, hoccn, hocck, hoccl]
      · cases hm
  | forEach lhs rhs ihl ihr => exact ihr hbuilds.2 hm
  | bitslice child r l ih =>
      rcases hbuilds with ⟨id, bitsize, sign, rfl, -⟩
      exact ⟨m, hm, rfl⟩
  | unique child ih => cases hm
  | _ => exact ⟨m, hm, rfl⟩

theorem recordedWidth_binaryOpr (op : BinaryOperator) (lhs rhs : Node) :
    recordedWidth (.binaryOpr op lhs rhs) =
      binaryBitsize op (recordedWidth lhs) (recordedWidth rhs) := by
  unfold recordedWidth
  rw [FixWidthVisitor.visit, visitBinaryOpr_eq, binaryBitsize_eq]

section Expression

variable {variables_ vectors_ : Declarations} {form : Form} {later : Terminals}

/-- What the pipeline makes of an accepted expression.  The widths are right
when every sub-expression is sorted, and only then. -/
structure Pipeline (form : Form) (later : Terminals) (u n : Node) (entry : Entry) :
    Prop where
  translated : MetaSMTVisitor.translate (retype later n) = .ok entry
  sign_eq : entry.2 = u.sign
  width_eq : (forall v, v ∈ form.visited u -> SortedAt v) ->
    entry.1.width = some u.bitsize ∧ recordedWidth u = u.bitsize
  sorted : (forall v, v ∈ form.visited u -> forall entry, Produced form later v entry ->
    entry.1.width = some (recordedWidth v)) -> forall v, v ∈ form.visited u -> SortedAt v

theorem translated_retype_variable {id bitsize : Nat} {sign : Bool}
    (h : later id = some bitsize) :
    MetaSMTVisitor.translate (retype later (.variableExpr id bitsize sign)) =
      .ok (.var (.terminal id) bitsize, sign) := by
  simp only [retype, MetaSMTVisitor.translate, h, Option.getD_some]

/-- A binary operator after width fixing: the operands are widened to the wider
recorded width. -/
theorem node_fixWidth_binaryOpr {op : BinaryOperator} {lhs rhs n : Node}
    (hn : form.node (fixWidth (.binaryOpr op lhs rhs)) = some n) :
    exists m k, form.node (fixWidth lhs) = some m ∧
      form.node (fixWidth rhs) = some k ∧
      occurrences n = occurrences m ++ occurrences k ∧
      n = .binaryOpr op
        (if recordedWidth lhs < recordedWidth rhs then
          .extendExpr m (recordedWidth rhs - recordedWidth lhs) else m)
        (if recordedWidth rhs < recordedWidth lhs then
          .extendExpr k (recordedWidth lhs - recordedWidth rhs) else k) := by
  unfold fixWidth at hn
  rw [FixWidthVisitor.visit, visitBinaryOpr_eq] at hn
  rcases Form.node_binaryOpr hn with ⟨p, q, hp, hq, hpq⟩
  rcases Form.node_evalBinExpr hp hq with ⟨m, k, hm, hk, hpm, hqk⟩
  refine ⟨m, k, hm, hk, ?_, ?_⟩
  · rw [hpq, occurrences, hpm, hqk]
    split
    · split <;> rfl
    · split <;> rfl
  · rw [hpq, hpm, hqk]
    rfl

theorem pipeline_binaryOpr {op : BinaryOperator} {lhs rhs m k n : Node}
    {fst snd : Entry} (hn : form.node (fixWidth (.binaryOpr op lhs rhs)) = some n)
    (heq : n = .binaryOpr op
      (if recordedWidth lhs < recordedWidth rhs then
        .extendExpr m (recordedWidth rhs - recordedWidth lhs) else m)
      (if recordedWidth rhs < recordedWidth lhs then
        .extendExpr k (recordedWidth lhs - recordedWidth rhs) else k))
    (hfst : Pipeline form later lhs m fst) (hsnd : Pipeline form later rhs k snd) :
    exists entry, Pipeline form later (.binaryOpr op lhs rhs) n entry := by
  rcases translate_widened hfst.translated (recordedWidth lhs < recordedWidth rhs)
    (recordedWidth rhs - recordedWidth lhs) with ⟨fst', hfst', hfsign, hfwidth⟩
  rcases translate_widened hsnd.translated (recordedWidth rhs < recordedWidth lhs)
    (recordedWidth lhs - recordedWidth rhs) with ⟨snd', hsnd', hssign, hswidth⟩
  have htranslated : MetaSMTVisitor.translate (retype later n) =
      .ok (MetaSMTVisitor.visitBinaryOpr op fst' snd') := by
    rw [heq]
    simp only [retype, MetaSMTVisitor.translate, hfst', hsnd']
  -- sorted operands meet at the wider of their widths
  have hwidth : (forall v, v ∈ form.visited lhs -> SortedAt v) ->
      (forall v, v ∈ form.visited rhs -> SortedAt v) ->
      (MetaSMTVisitor.visitBinaryOpr op fst' snd').1.width =
          some (producedWidth op lhs.sign rhs.sign (max lhs.bitsize rhs.bitsize)) ∧
        recordedWidth (.binaryOpr op lhs rhs) =
          binaryBitsize op lhs.bitsize rhs.bitsize := by
    intro hl hr
    have hlw := hfst.width_eq hl
    have hrw := hsnd.width_eq hr
    rw [hlw.1, hlw.2, hrw.2] at hfwidth
    rw [hrw.1, hlw.2, hrw.2] at hswidth
    have hfmax : fst'.1.width = some (max lhs.bitsize rhs.bitsize) := by
      rw [hfwidth]
      split
      · simp only [Option.map_some, Option.some.injEq]
        omega
      · simp only [Option.some.injEq]
        omega
    have hsmax : snd'.1.width = some (max lhs.bitsize rhs.bitsize) := by
      rw [hswidth]
      split
      · simp only [Option.map_some, Option.some.injEq]
        omega
      · simp only [Option.some.injEq]
        omega
    rw [width_visitBinaryOpr op hfmax hsmax, hfsign, hssign, hfst.sign_eq,
      hsnd.sign_eq, recordedWidth_binaryOpr, hlw.2, hrw.2]
    exact ⟨rfl, rfl⟩
  refine ⟨_, htranslated, ?_, ?_, ?_⟩
  · rw [sign_visitBinaryOpr, hfsign, hssign, hfst.sign_eq, hsnd.sign_eq]
    rfl
  · intro hsorted
    have hw := hwidth
      (fun v hv => hsorted v (List.mem_cons_of_mem _ (List.mem_append_left _ hv)))
      (fun v hv => hsorted v (List.mem_cons_of_mem _ (List.mem_append_right _ hv)))
    have hself := (producedWidth_eq_iff op lhs rhs).mpr
      (hsorted _ (Form.self_mem_visited form _))
    rw [hself] at hw
    exact hw
  · intro hrecorded
    have hl := hfst.sorted fun v hv =>
      hrecorded v (List.mem_cons_of_mem _ (List.mem_append_left _ hv))
    have hr := hsnd.sorted fun v hv =>
      hrecorded v (List.mem_cons_of_mem _ (List.mem_append_right _ hv))
    have hw := hwidth hl hr
    have hself := hrecorded _ (Form.self_mem_visited form _) _ ⟨n, hn, htranslated⟩
    rw [hw.1, hw.2] at hself
    intro v hv
    rcases List.mem_cons.mp hv with rfl | hv
    · exact (producedWidth_eq_iff op lhs rhs).mp (Option.some.inj hself)
    · rcases List.mem_append.mp hv with hv | hv
      · exact hl v hv
      · exact hr v hv

theorem pipeline_ifThenElse {a b c p q r : Node} {fst snd trd : Entry}
    (hn : form.node (fixWidth (.ifThenElse a b c)) = some (.ifThenElse p q r))
    (hfst : Pipeline form later a p fst) (hsnd : Pipeline form later b q snd)
    (htrd : Pipeline form later c r trd) :
    exists entry,
      Pipeline form later (.ifThenElse a b c) (.ifThenElse p q r) entry := by
  have htranslated : MetaSMTVisitor.translate (retype later (.ifThenElse p q r)) =
      .ok (visitIfThenElse fst snd trd) := by
    simp only [retype, MetaSMTVisitor.translate, hfst.translated, hsnd.translated, htrd.translated]
  have hmem : forall v, v ∈ form.visited (.ifThenElse a b c) ↔
      v = .ifThenElse a b c ∨ v ∈ form.visited a ∨ v ∈ form.visited b ∨
        v ∈ form.visited c := by
    intro v
    simp only [Form.visited, List.mem_cons, List.mem_append, or_assoc]
  refine ⟨_, htranslated, rfl, ?_, ?_⟩
  · intro hsorted
    have ha := hfst.width_eq fun v hv => hsorted v ((hmem v).mpr (by simp [hv]))
    have hb := hsnd.width_eq fun v hv => hsorted v ((hmem v).mpr (by simp [hv]))
    have hc := htrd.width_eq fun v hv => hsorted v ((hmem v).mpr (by simp [hv]))
    rcases hsorted _ (Form.self_mem_visited form _) with ⟨ha1, hb1, hc1⟩
    have hmax : (Node.ifThenElse a b c).bitsize = 1 := by
      simp only [Node.bitsize, hb1, hc1, max_self]
    refine ⟨?_, ?_⟩
    · rw [hmax, width_visitIfThenElse, ha.1, hb.1, hc.1, ha1, hb1, hc1]
      exact ⟨rfl, rfl, rfl⟩
    · rw [hmax, ← ha1, ← ha.2]
      rfl
  · intro hrecorded
    have ha := hfst.sorted fun v hv => hrecorded v ((hmem v).mpr (by simp [hv]))
    have hb := hsnd.sorted fun v hv => hrecorded v ((hmem v).mpr (by simp [hv]))
    have hc := htrd.sorted fun v hv => hrecorded v ((hmem v).mpr (by simp [hv]))
    have haw := hfst.width_eq ha
    have hself := hrecorded _ (Form.self_mem_visited form _) _ ⟨_, hn, htranslated⟩
    rcases width_visitIfThenElse.mp hself with ⟨h1, h2, h3⟩
    have hone : a.bitsize = 1 := by
      rw [haw.1] at h1
      exact Option.some.inj h1
    have hrec : recordedWidth (.ifThenElse a b c) = 1 := by
      rw [← hone, ← haw.2]
      rfl
    rw [hrec, (hsnd.width_eq hb).1] at h2
    rw [hrec, (htrd.width_eq hc).1] at h3
    intro v hv
    rcases (hmem v).mp hv with rfl | hv | hv | hv
    · exact ⟨hone, Option.some.inj h2, Option.some.inj h3⟩
    · exact ha v hv
    · exact hb v hv
    · exact hc v hv

theorem node_fixWidth_vectorAccess {vec_id bitsize : Nat} {sign : Bool} {rhs n : Node}
    (hform : form ≠ .whole)
    (hn : form.node (fixWidth (.vectorAccess (.vectorExpr vec_id bitsize sign) rhs)) =
      some n) :
    exists id, n = .variableExpr id bitsize sign := by
  cases form with
  | whole => exact absurd rfl hform
  | instanceAt vec_idx_ ids =>
      simp only [Form.node, fixWidth, FixWidthVisitor.visit,
        ReplaceVisitor.replace] at hn
      split at hn
      · rename_i hfst _ _
        cases hfst
        unfold ReplaceVisitor.replaceAccess at hn
        simp only at hn
        split at hn
        · rcases Option.map_eq_some_iff.mp hn with ⟨id, -, hid⟩
          exact ⟨id, hid.symm⟩
        · cases hn
      · cases hn

/-- A sub-expression that is visited alone is sorted whatever is produced for it. -/
theorem pipeline_leaf {u n : Node} {entry : Entry} (hvisited : form.visited u = [u])
    (hself : SortedAt u) (htranslated : MetaSMTVisitor.translate (retype later n) = .ok entry)
    (hsign : entry.2 = u.sign)
    (hwidth : entry.1.width = some u.bitsize ∧ recordedWidth u = u.bitsize) :
    Pipeline form later u n entry := by
  refine ⟨htranslated, hsign, fun _ => hwidth, ?_⟩
  intro _ v hv
  rw [hvisited] at hv
  cases List.mem_singleton.mp hv
  exact hself

/-- An operator on a variable is sorted whatever is produced for it. -/
theorem pipeline_of_variable {u n : Node} {entry : Entry} {id bitsize : Nat} {sign : Bool}
    (hvisited : form.visited u = [u, .variableExpr id bitsize sign])
    (hself : SortedAt u) (htranslated : MetaSMTVisitor.translate (retype later n) = .ok entry)
    (hsign : entry.2 = u.sign)
    (hwidth : entry.1.width = some u.bitsize ∧ recordedWidth u = u.bitsize) :
    Pipeline form later u n entry := by
  refine ⟨htranslated, hsign, fun _ => hwidth, ?_⟩
  intro _ v hv
  rw [hvisited] at hv
  rcases List.mem_cons.mp hv with rfl | hv
  · exact hself
  · cases List.mem_singleton.mp hv
    trivial

theorem pipeline_unaryOpr {op : UnaryOperator} {child m : Node} {entry : Entry}
    (hp : Pipeline form later child m entry) :
    Pipeline form later (.unaryOpr op child) (.unaryOpr op m) (visitUnaryOpr op entry) := by
  constructor
  · simp only [retype, MetaSMTVisitor.translate, hp.translated]
  · rw [sign_visitUnaryOpr]
    exact hp.sign_eq
  · intro hsorted
    rw [width_visitUnaryOpr]
    exact hp.width_eq fun v hv => hsorted v (List.mem_cons_of_mem _ hv)
  · intro hrecorded v hv
    rcases List.mem_cons.mp hv with rfl | hv
    · trivial
    · exact hp.sorted (fun w hw => hrecorded w (List.mem_cons_of_mem _ hw)) v hv

/-- The instance of a `foreach` is the instance of its body, whose width must
be that of a truth value. -/
theorem pipeline_forEach {vec_idx_ : Nat} {ids : List Nat} {lhs rhs n : Node} {entry : Entry}
    (hn : Form.node (.instanceAt vec_idx_ ids) (fixWidth rhs) = some n)
    (hp : Pipeline (.instanceAt vec_idx_ ids) later rhs n entry) :
    Pipeline (.instanceAt vec_idx_ ids) later (.forEach lhs rhs) n entry := by
  refine ⟨hp.translated, hp.sign_eq, ?_, ?_⟩
  · intro hsorted
    have hbody := hp.width_eq fun v hv => hsorted v (List.mem_cons_of_mem _ hv)
    have hself : rhs.bitsize = 1 := hsorted _ (Form.self_mem_visited _ _)
    rw [hself] at hbody
    exact ⟨hbody.1, rfl⟩
  · intro hrecorded v hv
    have hbody := hp.sorted fun w hw => hrecorded w (List.mem_cons_of_mem _ hw)
    have hself := hrecorded _ (Form.self_mem_visited _ _) _ ⟨n, hn, hp.translated⟩
    rcases List.mem_cons.mp hv with rfl | hv
    · rw [(hp.width_eq hbody).1] at hself
      exact Option.some.inj hself
    · exact hbody v hv

theorem pipeline {u n : Node} (hbuilds : Context.Builds variables_ vectors_ u)
    (haccepts : form.Accepts u) (hn : form.node (fixWidth u) = some n)
    (hlater : forall id bitsize, (id, bitsize) ∈ occurrences n ->
      later id = some bitsize) :
    exists entry, Pipeline form later u n entry := by
  induction u generalizing n with
  | placeholder id =>
      cases form with
      | whole => exact absurd rfl haccepts
      | instanceAt vec_idx_ ids =>
          cases hn
          exact ⟨_, pipeline_leaf rfl trivial rfl rfl ⟨rfl, rfl⟩⟩
  | variableExpr id bitsize sign =>
      have hnode : n = .variableExpr id bitsize sign := by
        cases form <;> exact (Option.some.inj hn).symm
      subst hnode
      have hterminal := hlater id bitsize List.mem_cons_self
      exact ⟨_, pipeline_leaf rfl trivial (translated_retype_variable hterminal) rfl
        ⟨rfl, rfl⟩⟩
  | constant c =>
      have hnode : n = .constant c := by
        cases form <;> exact (Option.some.inj hn).symm
      subst hnode
      exact ⟨_, pipeline_leaf rfl trivial rfl (sign_visitConstant c)
        ⟨width_visitConstant c, rfl⟩⟩
  | vectorExpr id bitsize sign => exact haccepts.elim
  | unaryOpr op child ih =>
      rcases Form.node_unaryOpr hn with ⟨m, hm, rfl⟩
      rcases ih hbuilds haccepts hm hlater with ⟨entry, hp⟩
      exact ⟨visitUnaryOpr op entry, pipeline_unaryOpr hp⟩
  | inside child collection ih =>
      rcases hbuilds with ⟨id, bitsize, sign, rfl, hdecl, hcollection⟩
      rcases Form.node_inside hn with ⟨m, hm, rfl⟩
      rcases ih hdecl haccepts hm hlater with ⟨entry, hp⟩
      have hchild := hp.width_eq fun v hv => by
        cases List.mem_singleton.mp hv
        trivial
      have htranslated : MetaSMTVisitor.translate (retype later (.inside m collection)) =
          .ok (visitInside entry collection) := by
        simp only [retype, MetaSMTVisitor.translate, hp.translated]
      have hwidth := width_visitInside hchild.1 fun c hc => (hcollection c hc).1
      exact ⟨_, pipeline_of_variable rfl trivial htranslated rfl ⟨hwidth, rfl⟩⟩
  | extendExpr child value ih => exact hbuilds.elim
  | binaryOpr op lhs rhs ihl ihr =>
      rcases node_fixWidth_binaryOpr hn with ⟨m, k, hm, hk, hocc, heq⟩
      rw [hocc] at hlater
      rcases ihl hbuilds.1 haccepts.1 hm fun id bitsize h =>
        hlater id bitsize (List.mem_append_left _ h) with ⟨fst, hfst⟩
      rcases ihr hbuilds.2 haccepts.2 hk fun id bitsize h =>
        hlater id bitsize (List.mem_append_right _ h) with ⟨snd, hsnd⟩
      exact pipeline_binaryOpr hn heq hfst hsnd
  | vectorAccess lhs rhs ihl ihr =>
      rcases hbuilds.1 with ⟨vec_id, bitsize, sign, rfl, -⟩
      rcases node_fixWidth_vectorAccess haccepts hn with ⟨id, rfl⟩
      have hterminal := hlater id bitsize List.mem_cons_self
      exact ⟨_, pipeline_leaf rfl trivial (translated_retype_variable hterminal) rfl
        ⟨rfl, rfl⟩⟩
  | ifThenElse a b c iha ihb ihc =>
      rcases Form.node_ifThenElse hn with ⟨p, q, r, hp, hq, hr, rfl⟩
      simp only [occurrences, List.mem_append] at hlater
      rcases iha hbuilds.1 haccepts.1 hp fun id bitsize h =>
        hlater id bitsize (Or.inl (Or.inl h)) with ⟨fst, hfst⟩
      rcases ihb hbuilds.2.1 haccepts.2.1 hq fun id bitsize h =>
        hlater id bitsize (Or.inl (Or.inr h)) with ⟨snd, hsnd⟩
      rcases ihc hbuilds.2.2 haccepts.2.2 hr fun id bitsize h =>
        hlater id bitsize (Or.inr h) with ⟨trd, htrd⟩
      exact pipeline_ifThenElse hn hfst hsnd htrd
  | forEach lhs rhs ihl ihr =>
      cases form with
      | whole => exact absurd rfl haccepts.1
      | instanceAt vec_idx_ ids =>
          rcases ihr hbuilds.2 haccepts.2 hn hlater with ⟨entry, hp⟩
          exact ⟨entry, pipeline_forEach hn hp⟩
  | unique child ih => exact haccepts.elim
  | bitslice child r l ih =>
      rcases hbuilds with ⟨id, bitsize, sign, rfl, hdecl, hlr, hr⟩
      rcases Form.node_bitslice hn with ⟨m, hm, rfl⟩
      rcases ih hdecl haccepts hm hlater with ⟨entry, hp⟩
      have hchild := hp.width_eq fun v hv => by
        cases List.mem_singleton.mp hv
        trivial
      have htranslated : MetaSMTVisitor.translate (retype later (.bitslice m r l)) =
          .ok (visitBitslice r l entry) := by
        simp only [retype, MetaSMTVisitor.translate, hp.translated]
      have hwidth := width_visitBitslice hchild.1 hlr hr
      exact ⟨_, pipeline_of_variable rfl trivial htranslated rfl ⟨hwidth, rfl⟩⟩

def Form.children (form : Form) : Node -> List Node
  | .unaryOpr _ child => [child]
  | .inside child _ => [child]
  | .extendExpr child _ => [child]
  | .binaryOpr _ lhs rhs => [lhs, rhs]
  | .ifThenElse a b c => [a, b, c]
  | .forEach _ rhs =>
      match form with
      | whole => []
      | instanceAt _ _ => [rhs]
  | .bitslice child _ _ => [child]
  | _ => []

theorem Form.sizeOf_lt_of_mem_children {u c : Node} (h : c ∈ form.children u) :
    sizeOf c < sizeOf u := by
  cases u with
  | forEach lhs rhs =>
      cases form with
      | whole => cases h
      | instanceAt vec_idx_ ids =>
          cases List.mem_singleton.mp h
          simp
  | unaryOpr op child =>
      cases List.mem_singleton.mp h
      simp
  | inside child collection =>
      cases List.mem_singleton.mp h
      simp
      omega
  | extendExpr child value =>
      cases List.mem_singleton.mp h
      simp
      omega
  | bitslice child r l =>
      cases List.mem_singleton.mp h
      simp
      omega
  | binaryOpr op lhs rhs =>
      simp only [children, List.mem_cons, List.not_mem_nil, or_false] at h
      rcases h with rfl | rfl
      · simp
        omega
      · simp
  | ifThenElse a b c =>
      simp only [children, List.mem_cons, List.not_mem_nil, or_false] at h
      rcases h with rfl | rfl | rfl
      · simp
        omega
      · simp
        omega
      · simp
  | _ => cases h

theorem Form.mem_visited_iff {u v : Node} :
    v ∈ form.visited u ↔ v = u ∨ exists c, c ∈ form.children u ∧ v ∈ form.visited c := by
  cases u with
  | forEach lhs rhs => cases form <;> simp [visited, children]
  | _ => simp [visited, children]

theorem Form.Accepts.of_mem_visited {u v : Node} (h : form.Accepts u)
    (hv : v ∈ form.visited u) : form.Accepts v := by
  rcases Form.mem_visited_iff.mp hv with rfl | ⟨c, hc, hmem⟩
  · exact h
  · have hlt := Form.sizeOf_lt_of_mem_children hc
    have hchild : form.Accepts c := by
      cases u with
      | binaryOpr op lhs rhs =>
          simp only [Form.children, List.mem_cons, List.not_mem_nil, or_false] at hc
          rcases hc with rfl | rfl
          · exact h.1
          · exact h.2
      | ifThenElse p q r =>
          simp only [Form.children, List.mem_cons, List.not_mem_nil, or_false] at hc
          rcases hc with rfl | rfl | rfl
          · exact h.1
          · exact h.2.1
          · exact h.2.2
      | forEach lhs rhs =>
          cases form with
          | whole => cases hc
          | instanceAt vec_idx_ ids =>
              cases List.mem_singleton.mp hc
              exact h.2
      | unaryOpr op child =>
          cases List.mem_singleton.mp hc
          exact h
      | inside child collection =>
          cases List.mem_singleton.mp hc
          exact h
      | extendExpr child value =>
          cases List.mem_singleton.mp hc
          exact h
      | bitslice child r l =>
          cases List.mem_singleton.mp hc
          exact h
      | _ => cases hc
    exact Form.Accepts.of_mem_visited hchild hmem
termination_by sizeOf u

theorem node_of_mem_children {u c n : Node}
    (hbuilds : Context.Builds variables_ vectors_ u) (hc : c ∈ form.children u)
    (hn : form.node (fixWidth u) = some n) :
    exists m, form.node (fixWidth c) = some m ∧
      (forall o, o ∈ occurrences m -> o ∈ occurrences n) ∧
      Context.Builds variables_ vectors_ c := by
  cases u with
  | unaryOpr op child =>
      cases List.mem_singleton.mp hc
      rcases Form.node_unaryOpr hn with ⟨m, hm, rfl⟩
      exact ⟨m, hm, fun o ho => ho, hbuilds⟩
  | inside child collection =>
      cases List.mem_singleton.mp hc
      rcases Form.node_inside hn with ⟨m, hm, rfl⟩
      rcases hbuilds with ⟨id, bitsize, sign, rfl, hdecl, -⟩
      exact ⟨m, hm, fun o ho => ho, hdecl⟩
  | extendExpr child value => exact hbuilds.elim
  | binaryOpr op lhs rhs =>
      rcases node_fixWidth_binaryOpr hn with ⟨m, k, hm, hk, hocc, -⟩
      rw [hocc]
      simp only [Form.children, List.mem_cons, List.not_mem_nil, or_false] at hc
      rcases hc with rfl | rfl
      · exact ⟨m, hm, fun o ho => List.mem_append_left _ ho, hbuilds.1⟩
      · exact ⟨k, hk, fun o ho => List.mem_append_right _ ho, hbuilds.2⟩
  | ifThenElse a b c =>
      rcases Form.node_ifThenElse hn with ⟨p, q, r, hp, hq, hr, rfl⟩
      simp only [Form.children, List.mem_cons, List.not_mem_nil, or_false] at hc
      simp only [occurrences, List.mem_append]
      rcases hc with rfl | rfl | rfl
      · exact ⟨p, hp, fun o ho => Or.inl (Or.inl ho), hbuilds.1⟩
      · exact ⟨q, hq, fun o ho => Or.inl (Or.inr ho), hbuilds.2.1⟩
      · exact ⟨r, hr, fun o ho => Or.inr ho, hbuilds.2.2⟩
  | forEach lhs rhs =>
      cases form with
      | whole => cases hc
      | instanceAt vec_idx_ ids =>
          cases List.mem_singleton.mp hc
          exact ⟨n, hn, fun o ho => ho, hbuilds.2⟩
  | bitslice child r l =>
      cases List.mem_singleton.mp hc
      rcases Form.node_bitslice hn with ⟨m, hm, rfl⟩
      rcases hbuilds with ⟨id, bitsize, sign, rfl, hdecl, -⟩
      exact ⟨m, hm, fun o ho => ho, hdecl⟩
  | _ => cases hc

theorem node_of_mem_visited {u v n : Node}
    (hbuilds : Context.Builds variables_ vectors_ u) (hv : v ∈ form.visited u)
    (hn : form.node (fixWidth u) = some n) :
    exists m, form.node (fixWidth v) = some m ∧
      (forall o, o ∈ occurrences m -> o ∈ occurrences n) ∧
      Context.Builds variables_ vectors_ v ∧
      forall w, w ∈ form.visited v -> w ∈ form.visited u := by
  rcases Form.mem_visited_iff.mp hv with rfl | ⟨c, hc, hmem⟩
  · exact ⟨n, hn, fun o ho => ho, hbuilds, fun w hw => hw⟩
  · have hlt := Form.sizeOf_lt_of_mem_children hc
    rcases node_of_mem_children hbuilds hc hn with ⟨k, hk, hocc, hb⟩
    rcases node_of_mem_visited hb hmem hk with ⟨m, hm, hocc', hb', hvis⟩
    exact ⟨m, hm, fun o ho => hocc o (hocc' o ho), hb',
      fun w hw => Form.mem_visited_iff.mpr (Or.inr ⟨c, hc, hvis w hw⟩)⟩
termination_by sizeOf u

theorem accepts_of_translated {u n : Node} {entry : Entry}
    (hbuilds : Context.Builds variables_ vectors_ u)
    (hn : form.node (fixWidth u) = some n)
    (htranslated : MetaSMTVisitor.translate (retype later n) = .ok entry) : form.Accepts u := by
  induction u generalizing n entry with
  | placeholder id =>
      cases form with
      | whole =>
          cases hn
          cases htranslated
      | instanceAt vec_idx_ ids => exact Form.noConfusion
  | variableExpr id bitsize sign => trivial
  | constant c => trivial
  | vectorExpr id bitsize sign =>
      have hnode : n = .vectorExpr id bitsize sign := by
        cases form <;> exact (Option.some.inj hn).symm
      subst hnode
      cases htranslated
  | unaryOpr op child ih =>
      rcases Form.node_unaryOpr hn with ⟨m, hm, rfl⟩
      rcases MetaSMTVisitor.translate_unaryOpr_ok htranslated with ⟨e, hchild, _⟩
      exact ih hbuilds hm hchild
  | inside child collection ih =>
      rcases hbuilds with ⟨id, bitsize, sign, rfl, -⟩
      trivial
  | extendExpr child value ih => exact hbuilds.elim
  | binaryOpr op lhs rhs ihl ihr =>
      rcases node_fixWidth_binaryOpr hn with ⟨m, k, hm, hk, -, rfl⟩
      have hwide : forall (p : Node) (c : Prop) [Decidable c] (d : Nat) (e : Entry),
          MetaSMTVisitor.translate (retype later (if c then .extendExpr p d else p)) = .ok e ->
          exists e', MetaSMTVisitor.translate (retype later p) = .ok e' := by
        intro p c _ d e he
        split at he
        · rcases MetaSMTVisitor.translate_extendExpr_ok he with ⟨e', he', _⟩
          exact ⟨e', he'⟩
        · exact ⟨e, he⟩
      rcases MetaSMTVisitor.translate_binaryOpr_ok htranslated with ⟨_, _, hfst, hsnd, _⟩
      rcases hwide _ _ _ _ hfst with ⟨fst, hfst'⟩
      rcases hwide _ _ _ _ hsnd with ⟨snd, hsnd'⟩
      exact ⟨ihl hbuilds.1 hm hfst', ihr hbuilds.2 hk hsnd'⟩
  | vectorAccess lhs rhs ihl ihr =>
      cases form with
      | whole =>
          cases hn
          cases htranslated
      | instanceAt vec_idx_ ids => exact Form.noConfusion
  | ifThenElse a b c iha ihb ihc =>
      rcases Form.node_ifThenElse hn with ⟨p, q, r, hp, hq, hr, rfl⟩
      rcases MetaSMTVisitor.translate_ifThenElse_ok htranslated with
        ⟨_, _, _, hfst, hsnd, htrd, _⟩
      exact ⟨iha hbuilds.1 hp hfst, ihb hbuilds.2.1 hq hsnd, ihc hbuilds.2.2 hr htrd⟩
  | forEach lhs rhs ihl ihr =>
      cases form with
      | whole =>
          cases hn
          cases htranslated
      | instanceAt vec_idx_ ids =>
          exact ⟨Form.noConfusion, ihr hbuilds.2 hn htranslated⟩
  | unique child ih =>
      cases form with
      | whole =>
          cases hn
          cases htranslated
      | instanceAt vec_idx_ ids => cases hn
  | bitslice child r l ih =>
      rcases hbuilds with ⟨id, bitsize, sign, rfl, -⟩
      trivial

/-- Every variable node that is handed over comes from a visited sub-expression
with the recorded width. -/
theorem visited_of_mem_occurrences {u n : Node} {id bitsize : Nat}
    (hbuilds : Context.Builds variables_ vectors_ u)
    (hn : form.node (fixWidth u) = some n) (hocc : (id, bitsize) ∈ occurrences n) :
    exists v sign, v ∈ form.visited u ∧
      form.node (fixWidth v) = some (.variableExpr id bitsize sign) ∧
      recordedWidth v = bitsize := by
  have hlift : forall {c v w : Node}, v ∈ form.visited c -> c ∈ form.children w ->
      v ∈ form.visited w := fun hv hc => Form.mem_visited_iff.mpr (Or.inr ⟨_, hc, hv⟩)
  induction u generalizing n with
  | variableExpr i b s =>
      have hnode : n = .variableExpr i b s := by
        cases form <;> exact (Option.some.inj hn).symm
      subst hnode
      cases List.mem_singleton.mp hocc
      exact ⟨_, s, Form.self_mem_visited _ _, hn, rfl⟩
  | placeholder i => cases form <;> cases hn <;> cases hocc
  | constant c => cases form <;> cases hn <;> cases hocc
  | vectorExpr i b s => cases form <;> cases hn <;> cases hocc
  | unique child ih =>
      cases form with
      | whole =>
          cases hn
          cases hocc
      | instanceAt vec_idx_ ids => cases hn
  | unaryOpr op child ih =>
      rcases Form.node_unaryOpr hn with ⟨m, hm, rfl⟩
      rcases ih hbuilds hm hocc with ⟨v, sign, hv, hrest⟩
      exact ⟨v, sign, hlift hv List.mem_cons_self, hrest⟩
  | inside child collection ih =>
      rcases hbuilds with ⟨i, b, s, rfl, hdecl, -⟩
      rcases Form.node_inside hn with ⟨m, hm, rfl⟩
      rcases ih hdecl hm hocc with ⟨v, sign, hv, hrest⟩
      exact ⟨v, sign, hlift hv List.mem_cons_self, hrest⟩
  | extendExpr child value ih => exact hbuilds.elim
  | binaryOpr op lhs rhs ihl ihr =>
      rcases node_fixWidth_binaryOpr hn with ⟨m, k, hm, hk, heq, -⟩
      rw [heq] at hocc
      rcases List.mem_append.mp hocc with hocc | hocc
      · rcases ihl hbuilds.1 hm hocc with ⟨v, sign, hv, hrest⟩
        exact ⟨v, sign, hlift hv List.mem_cons_self, hrest⟩
      · rcases ihr hbuilds.2 hk hocc with ⟨v, sign, hv, hrest⟩
        exact ⟨v, sign, hlift hv (List.mem_cons_of_mem _ List.mem_cons_self), hrest⟩
  | vectorAccess lhs rhs ihl ihr =>
      cases hform : form with
      | whole =>
          subst hform
          cases hn
          cases hocc
      | instanceAt vec_idx_ ids =>
          rw [← hform]
          have hne : form ≠ .whole := by
            rw [hform]
            exact Form.noConfusion
          rcases hbuilds.1 with ⟨vec_id, b, s, rfl, -⟩
          rcases node_fixWidth_vectorAccess hne hn with ⟨i, rfl⟩
          cases List.mem_singleton.mp hocc
          exact ⟨_, s, Form.self_mem_visited _ _, hn, rfl⟩
  | ifThenElse a b c iha ihb ihc =>
      rcases Form.node_ifThenElse hn with ⟨p, q, r, hp, hq, hr, rfl⟩
      simp only [occurrences, List.mem_append] at hocc
      rcases hocc with (hocc | hocc) | hocc
      · rcases iha hbuilds.1 hp hocc with ⟨v, sign, hv, hrest⟩
        exact ⟨v, sign, hlift hv (by simp [Form.children]), hrest⟩
      · rcases ihb hbuilds.2.1 hq hocc with ⟨v, sign, hv, hrest⟩
        exact ⟨v, sign, hlift hv (by simp [Form.children]), hrest⟩
      · rcases ihc hbuilds.2.2 hr hocc with ⟨v, sign, hv, hrest⟩
        exact ⟨v, sign, hlift hv (by simp [Form.children]), hrest⟩
  | forEach lhs rhs ihl ihr =>
      cases hform : form with
      | whole =>
          subst hform
          cases hn
          cases hocc
      | instanceAt vec_idx_ ids =>
          subst hform
          rcases ihr hbuilds.2 hn hocc with ⟨v, sign, hv, hrest⟩
          exact ⟨v, sign, hlift hv List.mem_cons_self, hrest⟩
  | bitslice child r l ih =>
      rcases hbuilds with ⟨i, b, s, rfl, hdecl, -⟩
      rcases Form.node_bitslice hn with ⟨m, hm, rfl⟩
      rcases ih hdecl hm hocc with ⟨v, sign, hv, hrest⟩
      exact ⟨v, sign, hlift hv List.mem_cons_self, hrest⟩

theorem node_fixWidth {u m : Node} (hbuilds : Context.Builds variables_ vectors_ u)
    (hm : form.node u = some m) :
    exists n, form.node (fixWidth u) = some n ∧ occurrences n = occurrences m := by
  cases form with
  | whole =>
      cases hm
      exact ⟨fixWidth u, rfl, occurrences_fixWidth u⟩
  | instanceAt vec_idx_ ids => exact replace_fixWidth hbuilds hm

/-!
## The pipeline on a constraint
-/

/-- The table of solver variables after the constraint has been visited. -/
def tableAfter (form : Form) (terminals_ : Terminals) (e : Node) : Terminals :=
  match form.node (fixWidth e) with
  | some n => meetAll terminals_ (occurrences n)
  | none => terminals_

/-- What the visitor returns for a constraint is what is produced for it. -/
theorem visit_fixWidth {e n : Node} {terminals_ terminals' : Terminals} {entry : Entry}
    (hn : form.node (fixWidth e) = some n) :
    MetaSMTVisitor.visit n terminals_ = .ok (entry, terminals') ↔
      Produced form (tableAfter form terminals_ e) e entry ∧
        terminals' = tableAfter form terminals_ e := by
  have htable : tableAfter form terminals_ e = meetAll terminals_ (occurrences n) := by
    simp only [tableAfter, hn]
  have hextends : Terminals.Extends (meetAll terminals_ (occurrences n))
      (tableAfter form terminals_ e) := by
    rw [htable]
    exact Terminals.Extends.refl _
  have hvisit := visit_eq_translate_retype n terminals_ hextends
  rw [hvisit, htable]
  constructor
  · intro h
    split at h
    · cases h
    · rename_i entry' hentry'
      cases h
      exact ⟨⟨n, hn, hentry'⟩, rfl⟩
  · rintro ⟨⟨p, hp, hentry⟩, rfl⟩
    have hpn : p = n := Option.some.inj (hp.symm.trans hn)
    subst hpn
    rw [hentry]

/-- No operation gets operands of different widths, the recorded widths and
signs are those of the bit-vectors, and what is asserted is a single bit. -/
structure WellSorted (form : Form) (terminals_ : Terminals) (e : Node) : Prop where
  operations : forall u, u ∈ form.visited e -> forall entry,
    Produced form (tableAfter form terminals_ e) u entry -> entry.1.OperandsMeet
  widths : forall u, u ∈ form.visited e -> forall entry,
    Produced form (tableAfter form terminals_ e) u entry ->
      entry.1.width = some (recordedWidth u)
  signs : forall u, u ∈ form.visited e -> forall entry,
    Produced form (tableAfter form terminals_ e) u entry ->
      forall sign, recordedSign u = some sign -> entry.2 = sign
  asserted : forall entry, Produced form (tableAfter form terminals_ e) e entry ->
    (Term.binary .equal entry.1 Term.true).OperandsMeet

/-- The pipeline is well-sorted on a constraint if and only if its variables
agree with the solver variables, its truth values are single bits, and no
division mixes signs. -/
theorem wellSorted_iff {e m : Node} {terminals_ : Terminals}
    (hbuilds : Context.Builds variables_ vectors_ e) (hm : form.node e = some m) :
    WellSorted form terminals_ e ↔
      Terminals.Agrees terminals_ (occurrences m) ∧
        (forall u, u ∈ form.visited e -> form.Accepts u -> SortedAt u) ∧
        (form.Accepts e -> e.bitsize = 1) := by
  rcases node_fixWidth hbuilds hm with ⟨n, hn, hocc⟩
  have htable : tableAfter form terminals_ e = meetAll terminals_ (occurrences n) := by
    simp only [tableAfter, hn]
  rw [← hocc, agrees_iff, ← htable]
  constructor
  · intro h
    have hagrees : forall id bitsize, (id, bitsize) ∈ occurrences n ->
        tableAfter form terminals_ e id = some bitsize := by
      intro id bitsize hmem
      rcases visited_of_mem_occurrences hbuilds hn hmem with ⟨v, sign, hv, hnode, hrec⟩
      have hwidth := h.widths v hv _ ⟨_, hnode, rfl⟩
      rcases meetAll_of_mem terminals_ hmem with ⟨width, hid, -⟩
      rw [← htable] at hid
      simp only [hid, Option.getD_some, Term.width, hrec] at hwidth
      rw [hid, hwidth]
    have hsorted : forall u, u ∈ form.visited e -> form.Accepts u -> SortedAt u := by
      intro u hu haccepts
      rcases node_of_mem_visited hbuilds hu hn with ⟨k, hk, hsub, hb, hvis⟩
      rcases pipeline hb haccepts hk fun id bitsize hmem =>
        hagrees id bitsize (hsub _ hmem) with ⟨entry, hp⟩
      exact hp.sorted (fun v hv => h.widths v (hvis v hv)) u (Form.self_mem_visited _ _)
    refine ⟨hagrees, hsorted, fun haccepts => ?_⟩
    rcases pipeline hbuilds haccepts hn hagrees with ⟨entry, hp⟩
    have hone := (h.asserted entry ⟨n, hn, hp.translated⟩).2.2
    have hwidth := hp.width_eq fun v hv => hsorted v hv (haccepts.of_mem_visited hv)
    rw [hwidth.1] at hone
    exact Option.some.inj hone
  · rintro ⟨hagrees, hsorted, hone⟩
    -- what a produced entry looks like
    have hentry : forall u, u ∈ form.visited e -> forall entry,
        Produced form (tableAfter form terminals_ e) u entry ->
        entry.1.width = some u.bitsize ∧ recordedWidth u = u.bitsize ∧
          entry.2 = u.sign ∧ form.Accepts u := by
      rintro u hu entry ⟨p, hp, hentry⟩
      rcases node_of_mem_visited hbuilds hu hn with ⟨k, hk, hsub, hb, hvis⟩
      have hpk : p = k := Option.some.inj (hp.symm.trans hk)
      subst hpk
      have haccepts := accepts_of_translated hb hk hentry
      rcases pipeline hb haccepts hk fun id bitsize hmem =>
        hagrees id bitsize (hsub _ hmem) with ⟨entry', hp'⟩
      have hsame : entry' = entry := by
        have htwo := hp'.translated.symm.trans hentry
        exact Except.ok.inj htwo
      subst hsame
      have hwidth := hp'.width_eq fun v hv =>
        hsorted v (hvis v hv) (haccepts.of_mem_visited hv)
      exact ⟨hwidth.1, hwidth.2, hp'.sign_eq, haccepts⟩
    refine ⟨?_, ?_, ?_, ?_⟩
    · intro u hu entry hp
      exact Term.operandsMeet_of_width (hentry u hu entry hp).1
    · intro u hu entry hp
      rw [(hentry u hu entry hp).1, (hentry u hu entry hp).2.1]
    · intro u hu entry hp sign hsign
      rw [(hentry u hu entry hp).2.2.1]
      exact sign_of_recordedSign hsign
    · intro entry hp
      have he := hentry e (Form.self_mem_visited _ _) entry hp
      refine ⟨Term.operandsMeet_of_width he.1, trivial, ?_⟩
      rw [he.1, hone he.2.2.2]
      rfl

end Expression

/-!
A conditional over two words is recorded with the width of its condition, and
is widened by 31 bits too many when it is compared with a word.
-/

def selectVariables : Declarations := fun id =>
  if id = 1 then some ⟨1, true⟩ else if id < 5 then some ⟨32, false⟩ else none

def selectWord : Node :=
  .ifThenElse (.variableExpr 1 1 true) (.variableExpr 2 32 false)
    (.variableExpr 3 32 false)

def selectEqual : Node := .binaryOpr .equalOpr selectWord (.variableExpr 4 32 false)

theorem selectEqual_builds : Context.Builds selectVariables (fun _ => none) selectEqual :=
  ⟨⟨rfl, rfl, rfl⟩, rfl⟩

theorem selectEqual_not_wellSorted :
    Context.Builds selectVariables (fun _ => none) selectEqual ∧
      ¬ WellSorted .whole (fun _ => none) selectEqual := by
  refine ⟨selectEqual_builds, fun h => ?_⟩
  have hwidth := h.widths selectWord (by decide) _ ⟨_, rfl, rfl⟩
  revert hwidth
  decide

theorem wellSorted_iff_selectEqual :
    WellSorted .whole (fun _ => none) selectEqual ↔
      Terminals.Agrees (fun _ => none) (occurrences selectEqual) ∧
        (forall u, u ∈ Form.visited .whole selectEqual ->
          Form.Accepts .whole u -> SortedAt u) ∧
        (Form.Accepts .whole selectEqual -> selectEqual.bitsize = 1) :=
  wellSorted_iff selectEqual_builds rfl

end Backend
end Crave
