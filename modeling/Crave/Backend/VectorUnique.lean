import Crave.Backend.VectorInstances
import Mathlib.Data.List.Perm.Subperm

/-!
# The elements of a `unique` constraint

The inequations of a `unique` are between the variables of the elements, with the types
that the elements were last accessed at.  A new element has one bit until a `foreach`
accesses it.
-/

namespace Crave
namespace Backend

open Foundation Ir MetaSmt MetaSMTVisitor ReplaceVisitor

/-!
## Positions that a body accesses
-/

/-- No vector occurs but the given one. -/
def isOver (v : Nat) (d : VarDecl) : Node -> Bool
  | .placeholder _ => true
  | .variableExpr _ _ _ => true
  | .constant _ => true
  | .vectorExpr id bitsize sign => id == v && bitsize == d.bitsize && sign == d.sign
  | .unaryOpr _ child => isOver v d child
  | .inside child _ => isOver v d child
  | .extendExpr child _ => isOver v d child
  | .binaryOpr _ lhs rhs => isOver v d lhs && isOver v d rhs
  | .vectorAccess lhs rhs => lhs == .vectorExpr v d.bitsize d.sign && isOver v d rhs
  | .ifThenElse a b c => isOver v d a && isOver v d b && isOver v d c
  | .forEach lhs rhs => lhs == .vectorExpr v d.bitsize d.sign && isOver v d rhs
  | .unique child => isOver v d child
  | .bitslice child _ _ => isOver v d child

/-- The positions that the visitor accesses for one index, those inside of index
expressions included. -/
def touched (i : Nat) : Node -> List Int
  | .unaryOpr _ child => touched i child
  | .inside child _ => touched i child
  | .extendExpr child _ => touched i child
  | .binaryOpr _ lhs rhs => touched i lhs ++ touched i rhs
  | .vectorAccess _ rhs => touched i rhs ++ (subscript i rhs).toList
  | .ifThenElse a b c => touched i a ++ touched i b ++ touched i c
  | .forEach _ rhs => touched i rhs
  | .bitslice child _ _ => touched i child
  | _ => []

/-- The elements at the given positions have got the width of the vector. -/
structure Retyped (d : VarDecl) (ks : List Int) (es es' : List Element) : Prop where
  length : es'.length = es.length
  bitsize : forall (k : Nat) (e : Element), es[k]? = some e ->
    exists e' : Element, es'[k]? = some e' ∧ e'.bitsize =
      if (k : Int) ∈ ks ∧ (k : Int) < castInt es.length then d.bitsize else e.bitsize

namespace Retyped

variable {d : VarDecl} {es es₁ es' : List Element} {ks ks' : List Int}

theorem refl (d : VarDecl) (es : List Element) : Retyped d [] es es := by
  constructor
  · rfl
  · intro k e he
    exact ⟨e, he, by simp⟩

theorem trans (h : Retyped d ks es es₁) (h' : Retyped d ks' es₁ es') :
    Retyped d (ks ++ ks') es es' := by
  constructor
  · exact h'.length.trans h.length
  · intro k e he
    rcases h.bitsize k e he with ⟨e₁, he₁, hfirst⟩
    rcases h'.bitsize k e₁ he₁ with ⟨e', he', hsecond⟩
    refine ⟨e', he', ?_⟩
    rw [hsecond, hfirst, h.length]
    by_cases hk : (k : Int) ∈ ks
    · by_cases hk' : (k : Int) ∈ ks'
      · by_cases hlt : (k : Int) < castInt es.length
        · simp [hk, hk', hlt]
        · simp [hlt]
      · simp [hk, hk']
    · simp [hk]

end Retyped

section Visit

variable {v i : Nat} {d : VarDecl} {n node : Node} {idx : Int} {st st' : State}

theorem retyped_visitVectorAccess {k : Int}
    (h : visitVectorAccess (.vectorExpr v d.bitsize d.sign) k st = .ok (node, st')) :
    Retyped d [k] st.variables_ st'.variables_ := by
  unfold visitVectorAccess at h
  split at h
  · next hrange =>
      split at h
      · next id bitsize sign var hlhs hvar =>
          cases hlhs
          cases h
          constructor
          · exact List.length_set
          · intro j e he
            by_cases hj : (j : Int) = k
            · have hjk : k.toNat = j := by
                rw [← hj]
                exact Int.toNat_natCast j
              have hlt : j < st.variables_.length := (List.getElem?_eq_some_iff.mp he).1
              refine ⟨⟨var.id, d.bitsize, d.sign⟩, ?_, ?_⟩
              · show (st.variables_.set k.toNat _)[j]? = _
                rw [hjk, List.getElem?_set_self hlt]
              · rw [if_pos ⟨by simp [hj], by rw [hj]; exact hrange.right⟩]
            · have hjk : k.toNat ≠ j := by
                intro heq
                apply hj
                rw [← heq]
                exact Int.toNat_of_nonneg hrange.left
              refine ⟨e, ?_, ?_⟩
              · show (st.variables_.set k.toNat _)[j]? = _
                rw [List.getElem?_set_ne hjk]
                exact he
              · rw [if_neg]
                intro hmem
                exact hj (List.mem_singleton.mp hmem.left)
      · cases h
  · next hrange =>
      split at h
      · cases h
        constructor
        · rfl
        · intro j e he
          refine ⟨e, he, ?_⟩
          rw [if_neg]
          intro hmem
          apply hrange
          rw [← List.mem_singleton.mp hmem.left]
          exact ⟨Int.natCast_nonneg j, hmem.right⟩
      · cases h

/-- A visit gives the accessed elements the width of the vector, whether the copy is
accepted or not. -/
theorem retyped_visit (hover : isOver v d n = true)
    (h : ReplaceVisitor.visit i n st = .ok (node, idx, st')) :
    Retyped d (touched i n) st.variables_ st'.variables_ := by
  induction n generalizing node idx st st' with
  | placeholder id =>
      cases h
      exact Retyped.refl d _
  | variableExpr id bitsize sign =>
      cases h
      exact Retyped.refl d _
  | constant c =>
      cases h
      exact Retyped.refl d _
  | vectorExpr id bitsize sign =>
      cases h
      exact Retyped.refl d _
  | unaryOpr op child ih =>
      simp only [ReplaceVisitor.visit] at h
      split at h
      · cases h
      · next hchild =>
          split at h
          · cases h
            exact ih hover hchild
          · cases h
  | inside child collection ih =>
      simp only [ReplaceVisitor.visit] at h
      split at h
      · cases h
      · next hchild =>
          cases h
          exact ih hover hchild
  | extendExpr child value ih =>
      simp only [ReplaceVisitor.visit] at h
      split at h
      · cases h
      · next hchild =>
          cases h
          exact ih hover hchild
  | binaryOpr op lhs rhs ihl ihr =>
      have hboth := Bool.and_eq_true_iff.mp hover
      simp only [ReplaceVisitor.visit] at h
      split at h
      · cases h
      · next hlhs =>
          split at h
          · cases h
          · next hrhs =>
              split at h
              · cases h
                exact (ihl hboth.left hlhs).trans (ihr hboth.right hrhs)
              · cases h
  | vectorAccess lhs rhs ihl ihr =>
      have hboth := Bool.and_eq_true_iff.mp hover
      rw [eq_of_beq hboth.left] at h
      simp only [ReplaceVisitor.visit] at h
      split at h
      · cases h
      · next rnode k st₁ hrhs =>
          split at h
          · cases h
          · next haccess =>
              cases h
              have hsub := (visit_spec hrhs).subscript_eq
              have hretyped := (ihr hboth.right hrhs).trans (retyped_visitVectorAccess haccess)
              rw [touched, hsub]
              exact hretyped
  | ifThenElse a b c iha ihb ihc =>
      have hall := Bool.and_eq_true_iff.mp hover
      have hboth := Bool.and_eq_true_iff.mp hall.left
      simp only [ReplaceVisitor.visit] at h
      split at h
      · cases h
      · next ha =>
          split at h
          · cases h
          · next hb =>
              split at h
              · cases h
              · next hc =>
                  cases h
                  exact ((iha hboth.left ha).trans (ihb hboth.right hb)).trans (ihc hall.right hc)
  | forEach lhs rhs ihl ihr =>
      have hboth := Bool.and_eq_true_iff.mp hover
      exact ihr hboth.right h
  | unique child ih => cases h
  | bitslice child r l ih =>
      simp only [ReplaceVisitor.visit] at h
      split at h
      · cases h
      · next hchild =>
          cases h
          exact ih hover hchild

end Visit

/-!
## Widths of the occurrences
-/

/-- The variables of the elements occur with one width. -/
def ElementWidth (ids : List Nat) (width : Nat) (n : Node) : Prop :=
  forall (id bitsize : Nat) (sign : Bool), .variableExpr id bitsize sign ∈ n.subterms ->
    id ∈ ids -> bitsize = width

/-- The solver variables of the elements have one width. -/
def TerminalWidth (ids : List Nat) (width : Nat) (terminals_ : Terminals) : Prop :=
  forall id bitsize, terminals_ id = some bitsize -> id ∈ ids -> bitsize = width

section Widths

variable {v i width : Nat} {d : VarDecl} {ids : List Nat} {n node : Node}

theorem elementWidth_of_replaceAccess {id : Nat} {k : Int}
    (h : replaceAccess ids (.vectorExpr id d.bitsize d.sign) k = some node) :
    ElementWidth ids d.bitsize node := by
  simp only [replaceAccess] at h
  split at h
  · rcases Option.map_eq_some_iff.mp h with ⟨id', _, hnode⟩
    rw [← hnode]
    intro id bitsize sign hmem _
    cases List.mem_singleton.mp hmem
    rfl
  · cases h

/-- An expression that is no variable has the occurrences of its operands. -/
theorem elementWidth_of_operands {operands : List Node}
    (hsubterms : n.subterms = n :: operands)
    (hvar : forall id bitsize sign, .variableExpr id bitsize sign ≠ n)
    (h : forall id bitsize sign, .variableExpr id bitsize sign ∈ operands -> id ∈ ids ->
      bitsize = width) : ElementWidth ids width n := by
  intro id bitsize sign hmem
  rw [hsubterms] at hmem
  cases List.mem_cons.mp hmem with
  | inl hself => exact absurd hself (hvar id bitsize sign)
  | inr hmem => exact h id bitsize sign hmem

theorem elementWidth_of_replace (hover : isOver v d n = true)
    (hfresh : forall id, id ∈ n.supportVars -> id ∉ ids) (h : replace i ids n = some node) :
    ElementWidth ids d.bitsize node := by
  induction n generalizing node with
  | placeholder id =>
      cases h
      intro id bitsize sign hmem
      cases List.mem_singleton.mp hmem
  | variableExpr id bitsize sign =>
      cases h
      intro id' bitsize' sign' hmem hid
      cases List.mem_singleton.mp hmem
      exact absurd hid (hfresh id (Finset.mem_singleton_self id))
  | constant c =>
      cases h
      intro id bitsize sign hmem
      cases List.mem_singleton.mp hmem
  | vectorExpr id bitsize sign =>
      cases h
      intro id bitsize sign hmem
      cases List.mem_singleton.mp hmem
  | unaryOpr op child ih =>
      rcases replace_unaryOpr_some h with ⟨fst, hfst, rfl⟩
      exact elementWidth_of_operands rfl (fun _ _ _ hvar => by cases hvar)
        (ih hover hfresh hfst)
  | inside child collection ih =>
      rcases Option.map_eq_some_iff.mp h with ⟨fst, hfst, hnode⟩
      rw [← hnode]
      exact elementWidth_of_operands rfl (fun _ _ _ hvar => by cases hvar)
        (ih hover hfresh hfst)
  | extendExpr child value ih =>
      rcases Option.map_eq_some_iff.mp h with ⟨fst, hfst, hnode⟩
      rw [← hnode]
      exact elementWidth_of_operands rfl (fun _ _ _ hvar => by cases hvar)
        (ih hover hfresh hfst)
  | binaryOpr op lhs rhs ihl ihr =>
      have hboth := Bool.and_eq_true_iff.mp hover
      rcases replace_binaryOpr_some h with ⟨fst, snd, hfst, hsnd, rfl⟩
      have hl := ihl hboth.left (fun id hid => hfresh id (Finset.mem_union_left _ hid)) hfst
      have hr := ihr hboth.right (fun id hid => hfresh id (Finset.mem_union_right _ hid)) hsnd
      apply elementWidth_of_operands rfl (fun _ _ _ hvar => by cases hvar)
      intro id bitsize sign hmem
      cases List.mem_append.mp hmem with
      | inl hmem => exact hl id bitsize sign hmem
      | inr hmem => exact hr id bitsize sign hmem
  | vectorAccess lhs rhs ihl ihr =>
      have hlhs := eq_of_beq (Bool.and_eq_true_iff.mp hover).left
      rw [hlhs, replace] at h
      split at h
      · next fst snd k hfst _ _ =>
          cases hfst
          exact elementWidth_of_replaceAccess h
      · cases h
  | ifThenElse a b c iha ihb ihc =>
      have hall := Bool.and_eq_true_iff.mp hover
      have hboth := Bool.and_eq_true_iff.mp hall.left
      rcases replace_ifThenElse_some h with ⟨fst, snd, trd, hfst, hsnd, htrd, rfl⟩
      have ha := iha hboth.left (fun id hid => hfresh id
        (Finset.mem_union_left _ (Finset.mem_union_left _ hid))) hfst
      have hb := ihb hboth.right (fun id hid => hfresh id
        (Finset.mem_union_left _ (Finset.mem_union_right _ hid))) hsnd
      have hc := ihc hall.right (fun id hid => hfresh id (Finset.mem_union_right _ hid)) htrd
      apply elementWidth_of_operands rfl (fun _ _ _ hvar => by cases hvar)
      intro id bitsize sign hmem
      cases List.mem_append.mp hmem with
      | inr hmem => exact hc id bitsize sign hmem
      | inl hmem =>
          cases List.mem_append.mp hmem with
          | inl hmem => exact ha id bitsize sign hmem
          | inr hmem => exact hb id bitsize sign hmem
  | forEach lhs rhs ihl ihr =>
      exact ihr (Bool.and_eq_true_iff.mp hover).right
        (fun id hid => hfresh id (Finset.mem_union_right _ hid)) h
  | unique child ih => cases h
  | bitslice child r l ih =>
      rcases Option.map_eq_some_iff.mp h with ⟨fst, hfst, hnode⟩
      rw [← hnode]
      exact elementWidth_of_operands rfl (fun _ _ _ hvar => by cases hvar)
        (ih hover hfresh hfst)

/-- The solver variables that a table has gained are made for occurrences. -/
def Gained (n : Node) (terminals_ later : Terminals) : Prop :=
  forall id bitsize, later id = some bitsize ->
    terminals_ id = some bitsize ∨ exists sign, .variableExpr id bitsize sign ∈ n.subterms

theorem Gained.refl (n : Node) (terminals_ : Terminals) : Gained n terminals_ terminals_ := by
  intro id bitsize hid
  exact Or.inl hid

theorem Gained.trans {t₁ t₂ t₃ : Terminals} (h : Gained n t₁ t₂) (h' : Gained n t₂ t₃) :
    Gained n t₁ t₃ := by
  intro id bitsize hid
  cases h' id bitsize hid with
  | inl hid => exact h id bitsize hid
  | inr hnew => exact Or.inr hnew

theorem Gained.mono {m : Node} {t₁ t₂ : Terminals} (h : Gained m t₁ t₂)
    (hsub : m.subterms ⊆ n.subterms) : Gained n t₁ t₂ := by
  intro id bitsize hid
  cases h id bitsize hid with
  | inl hold => exact Or.inl hold
  | inr hnew =>
      cases hnew with
      | intro sign hmem => exact Or.inr ⟨sign, hsub hmem⟩

theorem gained_visitVariableExpr (i b : Nat) (s : Bool) (terminals_ : Terminals) :
    Gained (.variableExpr i b s) terminals_ (visitVariableExpr i b s terminals_).2 := by
  intro id bitsize hid
  unfold visitVariableExpr at hid
  split at hid
  · exact Or.inl hid
  · change Function.update terminals_ i (some b) id = some bitsize at hid
    by_cases hi : id = i
    · rw [hi, Function.update_self] at hid
      cases hid
      rw [hi]
      exact Or.inr ⟨s, List.mem_singleton_self _⟩
    · rw [Function.update_of_ne hi] at hid
      exact Or.inl hid

theorem gained_visit {terminals_ later : Terminals} {entry : Entry}
    (h : MetaSMTVisitor.visit n terminals_ = .ok (entry, later)) : Gained n terminals_ later := by
  induction n generalizing terminals_ later entry with
  | placeholder i => cases h
  | variableExpr i b s =>
      have hlater : (visitVariableExpr i b s terminals_).2 = later :=
        congrArg Prod.snd (Except.ok.inj h)
      rw [← hlater]
      exact gained_visitVariableExpr i b s terminals_
  | constant c =>
      cases h
      exact Gained.refl _ _
  | vectorExpr i b s => cases h
  | unaryOpr op child ih =>
      simp only [MetaSMTVisitor.visit] at h
      split at h
      · cases h
      · next hchild =>
          cases h
          exact (ih hchild).mono (List.subset_cons_self _ _)
  | inside child collection ih =>
      simp only [MetaSMTVisitor.visit] at h
      split at h
      · cases h
      · next hchild =>
          cases h
          exact (ih hchild).mono (List.subset_cons_self _ _)
  | extendExpr child value ih =>
      simp only [MetaSMTVisitor.visit] at h
      split at h
      · cases h
      · next hchild =>
          cases h
          exact (ih hchild).mono (List.subset_cons_self _ _)
  | binaryOpr op lhs rhs ihl ihr =>
      simp only [MetaSMTVisitor.visit] at h
      split at h
      · cases h
      · next hlhs =>
          split at h
          · cases h
          · next hrhs =>
              cases h
              have hl : Gained (.binaryOpr op lhs rhs) _ _ := (ihl hlhs).mono fun m hm =>
                List.mem_cons_of_mem _ (List.mem_append_left _ hm)
              have hr : Gained (.binaryOpr op lhs rhs) _ _ := (ihr hrhs).mono fun m hm =>
                List.mem_cons_of_mem _ (List.mem_append_right _ hm)
              exact hl.trans hr
  | vectorAccess lhs rhs ihl ihr => cases h
  | ifThenElse a b c iha ihb ihc =>
      simp only [MetaSMTVisitor.visit] at h
      split at h
      · cases h
      · next ha =>
          split at h
          · cases h
          · next hb =>
              split at h
              · cases h
              · next hc =>
                  cases h
                  have hfst : Gained (.ifThenElse a b c) _ _ := (iha ha).mono fun m hm =>
                    List.mem_cons_of_mem _ (List.mem_append_left _ (List.mem_append_left _ hm))
                  have hsnd : Gained (.ifThenElse a b c) _ _ := (ihb hb).mono fun m hm =>
                    List.mem_cons_of_mem _ (List.mem_append_left _ (List.mem_append_right _ hm))
                  have htrd : Gained (.ifThenElse a b c) _ _ := (ihc hc).mono fun m hm =>
                    List.mem_cons_of_mem _ (List.mem_append_right _ hm)
                  exact (hfst.trans hsnd).trans htrd
  | forEach lhs rhs ihl ihr => cases h
  | unique child ih => cases h
  | bitslice child r l ih =>
      simp only [MetaSMTVisitor.visit] at h
      split at h
      · cases h
      · next hchild =>
          cases h
          exact (ih hchild).mono (List.subset_cons_self _ _)

theorem TerminalWidth.visit {terminals_ later : Terminals} {entry : Entry}
    (hterminals : TerminalWidth ids width terminals_) (hn : ElementWidth ids width n)
    (h : MetaSMTVisitor.visit n terminals_ = .ok (entry, later)) :
    TerminalWidth ids width later := by
  intro id bitsize hid hmem
  cases gained_visit h id bitsize hid with
  | inl hold => exact hterminals id bitsize hold hmem
  | inr hnew =>
      cases hnew with
      | intro sign hnew => exact hn id bitsize sign hnew hmem

/-- What the instances add to a solver whose element variables have one width. -/
structure Widened (ids : List Nat) (width : Nat) (s s' : MetaSMTVisitor) : Prop where
  terminals : TerminalWidth ids width s'.terminals_
  asserted : s.assertions ⊆ s'.assertions

theorem widened_assertCopy {soft : Bool} {s s' : MetaSMTVisitor}
    (hs : TerminalWidth ids width s.terminals_) (hn : ElementWidth ids width n)
    (h : VectorSolver.assertCopy soft n s = .ok s') : Widened ids width s s' := by
  cases soft with
  | true =>
      simp only [VectorSolver.assertCopy, if_true, makeSoftAssertion] at h
      split at h
      · cases h
      · next f s₁ hpop =>
          cases h
          rcases visitPop_ok hpop with ⟨entry, terminals_, hvisit, _, _, rfl⟩
          exact ⟨hs.visit hn hvisit, List.Subset.refl _⟩
  | false =>
      simp only [VectorSolver.assertCopy, Bool.false_eq_true, if_false, makeAssertion] at h
      split at h
      · cases h
      · next f s₁ hpop =>
          cases h
          rcases visitPop_ok hpop with ⟨entry, terminals_, hvisit, _, _, rfl⟩
          exact ⟨hs.visit hn hvisit, List.subset_append_left _ _⟩

theorem widened_assertInstances {ns : List (Bool × Node)} {s s' : MetaSMTVisitor}
    (hs : TerminalWidth ids width s.terminals_)
    (hns : forall entry, entry ∈ ns -> ElementWidth ids width entry.2)
    (h : VectorSolver.assertInstances ns s = .ok s') : Widened ids width s s' := by
  induction ns generalizing s with
  | nil =>
      cases h
      exact ⟨hs, List.Subset.refl _⟩
  | cons entry rest ih =>
      rcases bind_eq_ok.mp h with ⟨s₁, hfirst, hrest⟩
      have hwidened := widened_assertCopy hs (hns entry List.mem_cons_self) hfirst
      have hlater := ih hwidened.terminals (fun e he => hns e (List.mem_cons_of_mem entry he)) hrest
      exact ⟨hlater.terminals, List.Subset.trans hwidened.asserted hlater.asserted⟩

end Widths

/-!
## Inequations of the elements
-/

namespace VectorSolver

/-- The formula of an inequation between two variables of one width. -/
def distinctFormula (width : Nat) (pair : Element × Element) : Formula :=
  equalTrue (.binary .nequal (.var (.terminal pair.1.id) width) (.var (.terminal pair.2.id) width))

theorem holds_distinctFormula (m : Model SolverVar) (width : Nat) (pair : Element × Element) :
    Term.Holds m (distinctFormula width pair) ↔
      BitVec.ofNat width (m (.terminal pair.1.id)) ≠ BitVec.ofNat width (m (.terminal pair.2.id)) := by
  unfold distinctFormula
  rw [holds_equalTrue]
  simp only [Term.Holds, Term.eval, SizedBits.binary_mk, BinaryTag.apply, Option.some.injEq]
  by_cases heq : BitVec.ofNat width (m (.terminal pair.1.id)) =
      BitVec.ofNat width (m (.terminal pair.2.id))
  · simp [heq, SizedBits.ofBool]
  · have hne := bne_iff_ne.mpr heq
    simp [heq, hne, SizedBits.ofBool]

theorem nodup_map_ids_iff {α : Type} (f : Nat -> α) (es : List Element) :
    ((ids es).map f).Nodup ↔ forall pair, pair ∈ pairs es -> f pair.1.id ≠ f pair.2.id := by
  induction es with
  | nil => simp [ids, pairs]
  | cons var rest ih =>
      have hids : (ids (var :: rest)).map f = f var.id :: (ids rest).map f := rfl
      rw [hids, List.nodup_cons, ih, pairs]
      constructor
      · intro h pair hpair
        cases List.mem_append.mp hpair with
        | inl hpair =>
            rcases List.mem_map.mp hpair with ⟨other, hother, heq⟩
            rw [← heq]
            intro hsame
            apply h.left
            show f var.id ∈ (ids rest).map f
            rw [hsame]
            exact List.mem_map_of_mem (List.mem_map_of_mem hother)
        | inr hpair => exact h.right pair hpair
      · intro h
        constructor
        · intro hmem
          rcases List.mem_map.mp hmem with ⟨id, hid, heq⟩
          rcases List.mem_map.mp hid with ⟨other, hother, hid⟩
          apply h (var, other) (List.mem_append_left _ (List.mem_map_of_mem hother))
          show f var.id = f other.id
          rw [hid, heq]
        · intro pair hpair
          exact h pair (List.mem_append_right _ hpair)

/-- Inequations between all elements can be met exactly when there are enough values. -/
theorem satisfiable_pairs_iff {es : List Element} (hnodup : (ids es).Nodup) (width : Nat) :
    Term.Satisfiable ((pairs es).map (distinctFormula width)) ↔ es.length ≤ 2 ^ width := by
  have hlength : (ids es).length = es.length := List.length_map _
  constructor
  · intro h
    rcases h with ⟨m, hm⟩
    have hdistinct : ((ids es).map fun id => (BitVec.ofNat width (m (.terminal id))).toNat).Nodup := by
      apply (nodup_map_ids_iff _ es).mpr
      intro pair hpair heq
      have hholds := hm _ (List.mem_map_of_mem hpair)
      exact (holds_distinctFormula m width pair).mp hholds (BitVec.eq_of_toNat_eq heq)
    have hrange : ((ids es).map fun id => (BitVec.ofNat width (m (.terminal id))).toNat) ⊆
        List.range (2 ^ width) := by
      intro value hvalue
      rcases List.mem_map.mp hvalue with ⟨id, _, heq⟩
      rw [← heq]
      exact List.mem_range.mpr (BitVec.isLt _)
    have hle := (hdistinct.subperm hrange).length_le
    rw [List.length_map, hlength, List.length_range] at hle
    exact hle
  · intro h
    let m : Model SolverVar := modelOf fun id => (ids es).idxOf id
    refine ⟨m, ?_⟩
    have hsmall : forall id, id ∈ ids es ->
        (BitVec.ofNat width (m (.terminal id))).toNat = (ids es).idxOf id := by
      intro id hid
      rw [BitVec.toNat_ofNat]
      apply Nat.mod_eq_of_lt
      have hlt := List.idxOf_lt_length_of_mem hid
      rw [hlength] at hlt
      exact Nat.lt_of_lt_of_le hlt h
    have hdistinct : ((ids es).map fun id => BitVec.ofNat width (m (.terminal id))).Nodup := by
      apply List.Nodup.map_on _ hnodup
      intro id hid id' hid' heq
      have hsame := congrArg BitVec.toNat heq
      rw [hsmall id hid, hsmall id' hid'] at hsame
      exact (List.idxOf_inj hid).mp hsame
    intro f hf
    rcases List.mem_map.mp hf with ⟨pair, hpair, heq⟩
    rw [← heq, holds_distinctFormula]
    exact (nodup_map_ids_iff _ es).mp hdistinct pair hpair

section Inequations

variable {width : Nat} {is : List Nat} {es : List Element}

theorem visit_toNode {e : Element} {terminals_ : Terminals}
    (hs : TerminalWidth is width terminals_) (hid : e.id ∈ is) (hwidth : e.bitsize = width) :
    exists later, MetaSMTVisitor.visit e.toNode terminals_ =
        .ok ((.var (.terminal e.id) width, e.sign), later) ∧
      TerminalWidth is width later := by
  have hnode : ElementWidth is width e.toNode := by
    intro id bitsize sign hmem _
    cases List.mem_singleton.mp hmem
    exact hwidth
  cases hterminals : terminals_ e.id with
  | some bitsize =>
      have hvisit : MetaSMTVisitor.visit e.toNode terminals_ =
          .ok ((.var (.terminal e.id) width, e.sign), terminals_) := by
        simp only [Element.toNode, MetaSMTVisitor.visit, visitVariableExpr, hterminals,
          hs e.id bitsize hterminals hid]
      exact ⟨_, hvisit, hs.visit hnode hvisit⟩
  | none =>
      have hvisit : MetaSMTVisitor.visit e.toNode terminals_ =
          .ok ((.var (.terminal e.id) width, e.sign),
            Function.update terminals_ e.id (some width)) := by
        simp only [Element.toNode, MetaSMTVisitor.visit, visitVariableExpr, hterminals, hwidth,
          newTerminal_eq]
      exact ⟨_, hvisit, hs.visit hnode hvisit⟩

/-- The elements of a pair with one width. -/
structure OfWidth (is : List Nat) (width : Nat) (pair : Element × Element) : Prop where
  fst_mem : pair.1.id ∈ is
  snd_mem : pair.2.id ∈ is
  fst_width : pair.1.bitsize = width
  snd_width : pair.2.bitsize = width

theorem assertCopy_disequality {pair : Element × Element} {s s' : MetaSMTVisitor}
    (hs : TerminalWidth is width s.terminals_) (hpair : OfWidth is width pair)
    (h : assertCopy false (disequality pair) s = .ok s') :
    s'.assertions = s.assertions ++ [distinctFormula width pair] ∧
      TerminalWidth is width s'.terminals_ := by
  rcases visit_toNode hs hpair.fst_mem hpair.fst_width with ⟨first, hfirst, hs₁⟩
  rcases visit_toNode hs₁ hpair.snd_mem hpair.snd_width with ⟨later, hlater, hs₂⟩
  have hvisit : MetaSMTVisitor.visit (disequality pair) s.terminals_ =
      .ok (visitBinaryOpr .notEqualOpr (.var (.terminal pair.1.id) width, pair.1.sign)
        (.var (.terminal pair.2.id) width, pair.2.sign), later) := by
    simp only [disequality, MetaSMTVisitor.visit, hfirst, hlater]
  simp only [assertCopy, Bool.false_eq_true, if_false, makeAssertion] at h
  split at h
  · cases h
  · next f s₁ hpop =>
      rcases visitPop_ok hpop with ⟨entry, terminals_, hpopped, _, rfl, rfl⟩
      rw [hvisit] at hpopped
      cases hpopped
      cases h
      exact ⟨rfl, hs₂⟩

theorem assertInstances_pairs {ps : List (Element × Element)} {s s' : MetaSMTVisitor}
    (hs : TerminalWidth is width s.terminals_)
    (hps : forall pair, pair ∈ ps -> OfWidth is width pair)
    (h : assertInstances ((ps.map disequality).map fun n => (false, n)) s = .ok s') :
    s'.assertions = s.assertions ++ ps.map (distinctFormula width) ∧
      TerminalWidth is width s'.terminals_ := by
  induction ps generalizing s with
  | nil =>
      cases h
      exact ⟨(List.append_nil _).symm, hs⟩
  | cons pair rest ih =>
      rcases bind_eq_ok.mp h with ⟨s₁, hfirst, hrest⟩
      have hone := assertCopy_disequality hs (hps pair List.mem_cons_self) hfirst
      have hlater := ih hone.right (fun p hp => hps p (List.mem_cons_of_mem pair hp)) hrest
      constructor
      · rw [hlater.left, hone.left, List.map_cons, List.append_assoc]
        rfl
      · exact hlater.right

/-- The elements of all pairs have one width. -/
def PairsOfWidth (width : Nat) (es : List Element) : Prop :=
  forall pair, pair ∈ pairs es -> OfWidth (ids es) width pair

theorem mem_of_mem_pairs {pair : Element × Element} (h : pair ∈ pairs es) :
    pair.1 ∈ es ∧ pair.2 ∈ es ∧ 2 ≤ es.length := by
  induction es with
  | nil => cases h
  | cons var rest ih =>
      cases List.mem_append.mp h with
      | inl h =>
          rcases List.mem_map.mp h with ⟨other, hother, heq⟩
          rw [← heq]
          have hpos := List.length_pos_of_mem hother
          exact ⟨List.mem_cons_self, List.mem_cons_of_mem var hother, Nat.succ_le_succ hpos⟩
      | inr h =>
          have hrest := ih h
          exact ⟨List.mem_cons_of_mem var hrest.left, List.mem_cons_of_mem var hrest.right.left,
            Nat.le_succ_of_le hrest.right.right⟩

theorem exists_pair_of_mem {e : Element} (hlength : 2 ≤ es.length) (he : e ∈ es) :
    exists pair, pair ∈ pairs es ∧ (pair.1 = e ∨ pair.2 = e) := by
  cases es with
  | nil => cases he
  | cons var rest =>
      cases List.mem_cons.mp he with
      | inl hvar =>
          cases rest with
          | nil => exact absurd hlength (by simp)
          | cons other rest =>
              exact ⟨(var, other), List.mem_append_left _ (List.mem_map_of_mem List.mem_cons_self),
                Or.inl hvar.symm⟩
      | inr hrest =>
          exact ⟨(var, e), List.mem_append_left _ (List.mem_map_of_mem hrest), Or.inr rfl⟩

theorem pairsOfWidth_iff :
    PairsOfWidth width es ↔ (2 ≤ es.length -> forall e, e ∈ es -> e.bitsize = width) := by
  constructor
  · intro h hlength e he
    rcases exists_pair_of_mem hlength he with ⟨pair, hpair, hside⟩
    cases hside with
    | inl hfst =>
        rw [← hfst]
        exact (h pair hpair).fst_width
    | inr hsnd =>
        rw [← hsnd]
        exact (h pair hpair).snd_width
  · intro h pair hpair
    have hmem := mem_of_mem_pairs hpair
    have hwidth := h hmem.right.right
    exact ⟨List.mem_map_of_mem hmem.left, List.mem_map_of_mem hmem.right.left,
      hwidth _ hmem.left, hwidth _ hmem.right.left⟩

end Inequations

/-!
## Instances of the other constraints
-/

/-- Constraints that are `foreach`es over the given vector. -/
def ForeachOver (v : Nat) (d : VarDecl) (cs : List UserConstraint) : Prop :=
  forall c, c ∈ cs -> c.isUnique = false ∧ isOver v d c.expr_ = true

/-- The positions that the copies of constraints access. -/
def reached (cs : List UserConstraint) (size : Nat) : List Int :=
  cs.flatMap fun c => (List.range size).flatMap fun i => touched i c.expr_

/-- The variables of constraints are not those of elements. -/
def Apart (is : List Nat) (cs : List UserConstraint) : Prop :=
  forall c, c ∈ cs -> forall id, id ∈ c.expr_.supportVars -> id ∉ is

section Copies

variable {v : Nat} {d : VarDecl}

theorem retyped_copies {foreach : Node} (hover : isOver v d foreach = true) {is : List Nat}
    {es es' : List Element} {nodes : List Node} (h : copies foreach is es = .ok (es', nodes)) :
    Retyped d (is.flatMap fun i => touched i foreach) es es' := by
  induction is generalizing es nodes with
  | nil =>
      cases h
      exact Retyped.refl d _
  | cons i rest ih =>
      rcases bind_eq_ok.mp h with ⟨⟨result, idx, replacer⟩, hvisit, hlater⟩
      rcases bind_eq_ok.mp hlater with ⟨⟨es₁, later⟩, hcopies, hnodes⟩
      have hes : es₁ = es' := by
        cases hnodes
        rfl
      rw [hes] at hcopies
      exact (retyped_visit hover hvisit).trans (ih hcopies)

/-- What the instances of constraints are, next to the elements. -/
structure Instanced (d : VarDecl) (cs : List UserConstraint) (es es' : List Element)
    (ns : List (Bool × Node)) : Prop where
  ids_eq : ids es' = ids es
  retyped : Retyped d (reached cs es.length) es es'
  width : forall entry, entry ∈ ns -> ElementWidth (ids es) d.bitsize entry.2

theorem instanced_instances {cs : List UserConstraint} (hcs : ForeachOver v d cs)
    {es es' : List Element} (hapart : Apart (ids es) cs) {ns : List (Bool × Node)}
    (h : instances cs es = .ok (es', ns)) : Instanced d cs es es' ns := by
  induction cs generalizing es ns with
  | nil =>
      cases h
      constructor
      · rfl
      · exact Retyped.refl d _
      · exact List.forall_mem_nil _
  | cons c rest ih =>
      have hc := hcs c List.mem_cons_self
      rcases bind_eq_ok.mp h with ⟨⟨es₁, nodes⟩, hnodes, hlater⟩
      rcases bind_eq_ok.mp hlater with ⟨⟨es₂, later⟩, hrest, hns⟩
      cases hns
      rw [instancesOf, if_neg (by simp [hc.left])] at hnodes
      have hcopies := replace_of_mem_copies hnodes
      have hretyped := retyped_copies hc.right hnodes
      have hapart' : Apart (ids es₁) rest := by
        rw [hcopies.left]
        exact fun e he => hapart e (List.mem_cons_of_mem c he)
      have hinstanced := ih (fun e he => hcs e (List.mem_cons_of_mem c he)) hapart' hrest
      constructor
      · exact hinstanced.ids_eq.trans hcopies.left
      · have hreached := hinstanced.retyped
        rw [hretyped.length] at hreached
        exact hretyped.trans hreached
      · intro entry hentry
        cases List.mem_append.mp hentry with
        | inl hentry =>
            rcases List.mem_map.mp hentry with ⟨n, hn, heq⟩
            rcases hcopies.right n hn with ⟨i, _, hreplace⟩
            rw [← heq]
            exact elementWidth_of_replace hc.right (hapart c List.mem_cons_self) hreplace
        | inr hentry =>
            have hwidth := hinstanced.width entry hentry
            rw [hcopies.left] at hwidth
            exact hwidth

theorem instances_append {cs cs' : List UserConstraint} {es es' : List Element}
    {ns : List (Bool × Node)} (h : instances (cs ++ cs') es = .ok (es', ns)) :
    exists (es₁ : List Element) (first later : List (Bool × Node)),
      instances cs es = .ok (es₁, first) ∧ instances cs' es₁ = .ok (es', later) ∧
        ns = first ++ later := by
  induction cs generalizing es ns with
  | nil => exact ⟨es, [], ns, rfl, h, rfl⟩
  | cons c rest ih =>
      rcases bind_eq_ok.mp h with ⟨⟨es₁, nodes⟩, hnodes, hlater⟩
      rcases bind_eq_ok.mp hlater with ⟨⟨es₂, later⟩, hrest, hns⟩
      cases hns
      rcases ih hrest with ⟨es₃, first, last, hfirst, hlast, heq⟩
      refine ⟨es₃, _, last, bind_eq_ok.mpr ⟨_, hnodes, bind_eq_ok.mpr ⟨_, hfirst, rfl⟩⟩, hlast, ?_⟩
      rw [heq, List.append_assoc]

end Copies

/-!
## Variables of the elements
-/

section Numbers

variable {env : Environment} {var_gen : List VariableSolver}

theorem mem_newElements {e : Element} {var_ID n : Nat} (h : e ∈ newElements var_ID n) :
    e.bitsize = 1 ∧ var_ID < e.id ∧ e.id ≤ var_ID + n := by
  induction n generalizing var_ID with
  | zero => cases h
  | succ n ih =>
      cases List.mem_cons.mp h with
      | inl heq =>
          rw [heq]
          exact ⟨rfl, Nat.lt_succ_self _, Nat.add_le_add_left (Nat.le_add_left 1 n) var_ID⟩
      | inr h =>
          have hrest := ih h
          refine ⟨hrest.left, Nat.lt_of_succ_lt hrest.right.left, ?_⟩
          have hle := hrest.right.right
          rw [Nat.add_assoc, Nat.add_comm 1 n] at hle
          exact hle

theorem nodup_newElements (var_ID n : Nat) : (ids (newElements var_ID n)).Nodup := by
  induction n generalizing var_ID with
  | zero => exact List.nodup_nil
  | succ n ih =>
      apply List.nodup_cons.mpr
      constructor
      · intro hmem
        rcases List.mem_map.mp hmem with ⟨e, he, hid⟩
        have hlt := (mem_newElements he).right.left
        rw [hid] at hlt
        exact Nat.lt_irrefl _ hlt
      · exact ih (var_ID + 1)

/-- The variables of the elements are distinct and have been counted, and are not among
the variables of the constraints. -/
structure Numbered (vs : VectorSolver) (var_ID : Nat) : Prop where
  nodup : (ids vs.vec_elements_).Nodup
  counted : forall id, id ∈ ids vs.vec_elements_ -> id ≤ var_ID
  support : forall c, c ∈ vs.constraints_ -> forall id, id ∈ c.expr_.supportVars -> id ≤ var_ID
  apart : Apart (ids vs.vec_elements_) vs.constraints_

theorem numbered_of_nil {vs : VectorSolver} {var_ID : Nat} (hempty : vs.vec_elements_ = [])
    (hsupport : forall c, c ∈ vs.constraints_ ->
      forall id, id ∈ c.expr_.supportVars -> id ≤ var_ID) : Numbered vs var_ID := by
  constructor
  · rw [hempty]
    exact List.nodup_nil
  · rw [hempty]
    exact List.forall_mem_nil _
  · exact hsupport
  · rw [hempty]
    exact fun _ _ _ _ => List.not_mem_nil

theorem Numbered.mono {vs : VectorSolver} {var_ID var_ID' : Nat} (h : Numbered vs var_ID)
    (hle : var_ID ≤ var_ID') : Numbered vs var_ID' :=
  ⟨h.nodup, fun id hid => Nat.le_trans (h.counted id hid) hle,
    fun c hc id hid => Nat.le_trans (h.support c hc id hid) hle, h.apart⟩

theorem ids_resize (es : List Element) (size var_ID : Nat) :
    ids (resize es size var_ID).1 =
      (ids es).take size ++ ids (newElements var_ID (size - es.length)) := by
  simp only [resize, ids, List.map_append, List.map_take]

theorem Numbered.resize {vs : VectorSolver} {var_ID : Nat} (h : Numbered vs var_ID) (size : Nat) :
    Numbered { vs with vec_elements_ := (resize vs.vec_elements_ size var_ID).1 }
      (resize vs.vec_elements_ size var_ID).2 := by
  have hmem : forall id, id ∈ ids (VectorSolver.resize vs.vec_elements_ size var_ID).1 ->
      id ∈ ids vs.vec_elements_ ∨
        (var_ID < id ∧ id ≤ var_ID + (size - vs.vec_elements_.length)) := by
    intro id hid
    rw [ids_resize] at hid
    cases List.mem_append.mp hid with
    | inl hid => exact Or.inl (List.mem_of_mem_take hid)
    | inr hid =>
        rcases List.mem_map.mp hid with ⟨e, he, heq⟩
        rw [← heq]
        exact Or.inr (mem_newElements he).right
  constructor
  · show (ids (VectorSolver.resize vs.vec_elements_ size var_ID).1).Nodup
    rw [ids_resize]
    apply List.nodup_append.mpr
    refine ⟨h.nodup.sublist (List.take_sublist _ _), nodup_newElements _ _, ?_⟩
    intro id hid id' hid' heq
    rcases List.mem_map.mp hid' with ⟨e, he, hid'⟩
    have hle := h.counted id (List.mem_of_mem_take hid)
    have hlt := (mem_newElements he).right.left
    rw [hid', ← heq] at hlt
    exact Nat.lt_irrefl _ (Nat.lt_of_lt_of_le hlt hle)
  · intro id hid
    cases hmem id hid with
    | inl hold => exact Nat.le_add_right_of_le (h.counted id hold)
    | inr hnew => exact hnew.right
  · intro c hc id hid
    exact Nat.le_add_right_of_le (h.support c hc id hid)
  · intro c hc id hid hin
    cases hmem id hin with
    | inl hold => exact h.apart c hc id hid hold
    | inr hnew => exact Nat.lt_irrefl _ (Nat.lt_of_lt_of_le hnew.left (h.support c hc id hid))

theorem Numbered.congr {vs vs' : VectorSolver} {var_ID : Nat} (h : Numbered vs var_ID)
    (hids : ids vs'.vec_elements_ = ids vs.vec_elements_)
    (hconstraints : vs'.constraints_ = vs.constraints_) : Numbered vs' var_ID := by
  constructor
  · rw [hids]
    exact h.nodup
  · rw [hids]
    exact h.counted
  · rw [hconstraints]
    exact h.support
  · rw [hids, hconstraints]
    exact h.apart

theorem Numbered.solve {vs vs' : VectorSolver} {w w' : World} {result : Bool}
    (h : Numbered vs w.var_ID) (hsolve : vs.solve env var_gen w = .ok (result, vs', w')) :
    Numbered vs' w'.var_ID := by
  rcases solve_cases hsolve with ⟨vector, built, var_ID, s, time, _, hbuild, _, hvs', hw'⟩
  have hspec := buildSolver_spec hbuild
  have hids := (met_addConstraints hspec.left).left
  rcases bind_eq_ok.mp hbuild with ⟨⟨es, solver⟩, _, hbuilt⟩
  cases hbuilt
  rw [hvs', hw']
  exact (h.resize (vectorSize var_gen vector)).congr hids rfl

end Numbers

/-!
## Correctness of `unique`
-/

/-- The width that is kept for a position: one bit when there is no element yet. -/
def recordedWidth (es : List Element) (k : Nat) : Nat :=
  match es[k]? with
  | some e => e.bitsize
  | none => 1

/-- Of two elements or more, each has the width of the vector when the `unique` is reached:
from an earlier call, or from an access of a `foreach` that is declared before. -/
def WidthsKnown (d : VarDecl) (before : List UserConstraint) (es : List Element) (size : Nat) :
    Prop :=
  2 ≤ size -> forall k : Nat, k < size ->
    recordedWidth es k = d.bitsize ∨ ((k : Int) ∈ reached before size ∧ (k : Int) < castInt size)

/-- What a hard `unique` is for. -/
structure UniqueCorrect (env : Environment) (var_gen : List VariableSolver) (vector : RandVec)
    (vs : VectorSolver) (w : World) (built : VectorSolver) : Prop where
  satisfiable : vs.constraints_.length = 1 ->
    (Term.Satisfiable built.solver_.assertions ↔
      vectorSize var_gen vector ≤ 2 ^ vector.element.bitsize)
  distinct : forall (vs' : VectorSolver) (w' : World) (values : List Nat),
    vs.solve env var_gen w = .ok (true, vs', w') ->
      readVector vs'.solver_ vector.element vs'.vec_elements_ = some values ->
        w'.vectors vs.vector_id_ = values ∧ values.Nodup
  occurrences : forall (es : List Element) (ns : List (Bool × Node)),
    instances vs.constraints_ (resize vs.vec_elements_ (vectorSize var_gen vector) w.var_ID).1 =
        .ok (es, ns) ->
      forall entry, entry ∈ ns -> ElementWidth (ids es) vector.element.bitsize entry.2
  terminals :
    TerminalWidth (ids built.vec_elements_) vector.element.bitsize built.solver_.terminals_

section Unique

variable {env : Environment} {var_gen : List VariableSolver} {d : VarDecl}

theorem bitsize_resize {es : List Element} {size var_ID k : Nat} {e : Element} (hk : k < size)
    (h : (resize es size var_ID).1[k]? = some e) : e.bitsize = recordedWidth es k := by
  unfold recordedWidth
  by_cases hlt : k < es.length
  · have htake : k < (es.take size).length := by
      rw [List.length_take]
      exact Nat.lt_min.mpr ⟨hk, hlt⟩
    rw [resize, List.getElem?_append_left htake, List.getElem?_take_of_lt hk] at h
    rw [h]
  · have hle : (es.take size).length ≤ k := by
      rw [List.length_take]
      exact Nat.le_trans (Nat.min_le_right _ _) (Nat.le_of_not_lt hlt)
    rw [resize, List.getElem?_append_right hle] at h
    rw [List.getElem?_eq_none (Nat.le_of_not_lt hlt)]
    exact (mem_newElements (List.mem_of_getElem? h)).left

/-- The elements of the inequations have the width of the vector exactly when the widths
are known. -/
theorem pairsOfWidth_iff_widthsKnown {before : List UserConstraint} {es es₁ : List Element}
    {size var_ID : Nat} (h : Retyped d (reached before size) (resize es size var_ID).1 es₁) :
    PairsOfWidth d.bitsize es₁ ↔ WidthsKnown d before es size := by
  have hlength := ids_resize_length es size var_ID
  have hlength₁ : es₁.length = size := h.length.trans hlength
  rw [pairsOfWidth_iff, hlength₁]
  constructor
  · intro hwidth hsize k hk
    have hlt : k < (resize es size var_ID).1.length := by
      rw [hlength]
      exact hk
    have hget := List.getElem?_eq_getElem hlt
    rcases h.bitsize k _ hget with ⟨e', he', hbitsize⟩
    rw [hlength, hwidth hsize e' (List.mem_of_getElem? he')] at hbitsize
    split at hbitsize
    · next hreached => exact Or.inr hreached
    · rw [bitsize_resize hk hget] at hbitsize
      exact Or.inl hbitsize.symm
  · intro hknown hsize e' he'
    rcases List.mem_iff_getElem?.mp he' with ⟨k, hk⟩
    have hlt : k < size := by
      rw [← hlength₁]
      exact (List.getElem?_eq_some_iff.mp hk).1
    have hlt' : k < (resize es size var_ID).1.length := by
      rw [hlength]
      exact hlt
    have hget := List.getElem?_eq_getElem hlt'
    rcases h.bitsize k _ hget with ⟨e₁, he₁, hbitsize⟩
    rw [hk] at he₁
    cases he₁
    rw [hlength] at hbitsize
    rw [hbitsize]
    split
    · rfl
    · next hreached =>
        rw [bitsize_resize hlt hget]
        cases hknown hsize k hlt with
        | inl hwidth => exact hwidth
        | inr hmem => exact absurd hmem hreached

/-- The parts of a solver that is built with one `unique`. -/
structure Parts (check : SortCheck) (d : VarDecl) (before after : List UserConstraint)
    (es es₁ : List Element) (first later : List (Bool × Node)) (s₁ s₂ : MetaSMTVisitor)
    (built : VectorSolver) : Prop where
  made_before : instances before es = .ok (es₁, first)
  made_after : instances after es₁ = .ok (built.vec_elements_, later)
  before : Instanced d before es es₁ first
  after : Instanced d after es₁ built.vec_elements_ later
  asserted_before : assertInstances first (MetaSMTVisitor.new check) = .ok s₁
  asserted : assertInstances (((pairs es₁).map disequality).map fun n => (false, n)) s₁ = .ok s₂
  asserted_after : assertInstances later s₂ = .ok built.solver_

theorem exists_parts {check : SortCheck} {v : Nat} {vs built : VectorSolver}
    {size var_ID var_ID' : Nat}
    (hnumbered : Numbered vs var_ID) {before after : List UserConstraint} {u : UserConstraint}
    (hcs : vs.constraints_ = before ++ u :: after) (hunique : u.isUnique = true)
    (hhard : u.soft_ = false) (hothers : ForeachOver v d (before ++ after))
    (hbuild : buildSolver check vs size var_ID = .ok (built, var_ID')) :
    exists (es₁ : List Element) (first later : List (Bool × Node)) (s₁ s₂ : MetaSMTVisitor),
      instances vs.constraints_ (resize vs.vec_elements_ size var_ID).1 =
        .ok (built.vec_elements_,
          first ++ (((pairs es₁).map disequality).map fun n => (false, n)) ++ later) ∧
      Parts check d before after (resize vs.vec_elements_ size var_ID).1 es₁ first later s₁ s₂
        built := by
  have happart := (hnumbered.resize size).apart
  rcases addConstraints_iff.mp (buildSolver_spec hbuild).left with ⟨ns, hinstances, hassert⟩
  have hinstances' := hinstances
  rw [hcs] at hinstances'
  rcases instances_append hinstances' with ⟨es₁, first, rest, hfirst, hrest, hns⟩
  rcases bind_eq_ok.mp hrest with ⟨⟨es₂, nodes⟩, hnodes, hlater⟩
  rcases bind_eq_ok.mp hlater with ⟨⟨es₃, later⟩, hafter, heq⟩
  cases heq
  rw [instancesOf, if_pos hunique] at hnodes
  cases hnodes
  rw [hhard] at hns
  have hbefore := instanced_instances (fun c hc => hothers c (List.mem_append_left _ hc))
    (fun c hc => happart c (by
      show c ∈ vs.constraints_
      rw [hcs]
      exact List.mem_append_left _ hc)) hfirst
  have happart₁ : Apart (ids es₁) after := by
    rw [hbefore.ids_eq]
    intro c hc
    apply happart c
    show c ∈ vs.constraints_
    rw [hcs]
    exact List.mem_append_right _ (List.mem_cons_of_mem u hc)
  have hafter' := instanced_instances (fun c hc => hothers c (List.mem_append_right _ hc))
    happart₁ hafter
  rw [hns] at hassert
  rcases bind_eq_ok.mp ((assertInstances_append _ _ _).symm.trans hassert) with ⟨s₁, hs₁, hassert⟩
  rcases bind_eq_ok.mp ((assertInstances_append _ _ _).symm.trans hassert) with ⟨s₂, hs₂, hassert⟩
  refine ⟨es₁, first, later, s₁, s₂, ?_, hfirst, hafter, hbefore, hafter', hs₁, hs₂, hassert⟩
  rw [hinstances, hns, List.append_assoc]

theorem Parts.widened {check : SortCheck} {before after : List UserConstraint}
    {es es₁ : List Element}
    {first later : List (Bool × Node)} {s₁ s₂ : MetaSMTVisitor} {built : VectorSolver}
    (h : Parts check d before after es es₁ first later s₁ s₂ built)
    (hpairs : PairsOfWidth d.bitsize es₁) :
    TerminalWidth (ids es) d.bitsize built.solver_.terminals_ ∧
      s₂.assertions = s₁.assertions ++ (pairs es₁).map (distinctFormula d.bitsize) ∧
      s₂.assertions ⊆ built.solver_.assertions := by
  have hempty : TerminalWidth (ids es) d.bitsize (MetaSMTVisitor.new check).terminals_ := by
    intro id bitsize hid
    cases hid
  have hfirst := widened_assertInstances hempty h.before.width h.asserted_before
  have hofWidth : forall pair, pair ∈ pairs es₁ -> OfWidth (ids es) d.bitsize pair := by
    intro pair hpair
    have hwidth := hpairs pair hpair
    rw [h.before.ids_eq] at hwidth
    exact hwidth
  have hsecond := assertInstances_pairs hfirst.terminals hofWidth h.asserted
  have hwidth := h.after.width
  rw [h.before.ids_eq] at hwidth
  have hthird := widened_assertInstances hsecond.right hwidth h.asserted_after
  exact ⟨hthird.terminals, hsecond.left, hthird.asserted⟩

theorem Parts.satisfiable_iff {check : SortCheck} {es es₁ : List Element}
    {first later : List (Bool × Node)} {s₁ s₂ : MetaSMTVisitor} {built : VectorSolver}
    (h : Parts check d [] [] es es₁ first later s₁ s₂ built) (hpairs : PairsOfWidth d.bitsize es₁)
    (hnodup : (ids es).Nodup) :
    Term.Satisfiable built.solver_.assertions ↔ es.length ≤ 2 ^ d.bitsize := by
  have hasserted := (h.widened hpairs).right.left
  have hfirst := h.made_before
  cases hfirst
  have hlater := h.made_after
  cases hlater
  have hs₁ := h.asserted_before
  cases hs₁
  have hs₂ := Except.ok.inj h.asserted_after
  rw [← hs₂, hasserted]
  exact satisfiable_pairs_iff hnodup d.bitsize

theorem readVector_eq_map {s : MetaSMTVisitor} {width : Nat} {is : List Nat} {es : List Element}
    (hs : TerminalWidth is width s.terminals_) (hes : ids es ⊆ is) {values : List Nat}
    (h : readVector s d es = some values) :
    values = (ids es).map fun id => setValue d width (s.model (.terminal id)) := by
  induction es generalizing values with
  | nil =>
      cases h
      rfl
  | cons var rest ih =>
      unfold readVector at h
      split at h
      · next bitsize vals hbitsize hrest =>
          cases h
          have hwidth := hs var.id bitsize hbitsize (hes List.mem_cons_self)
          rw [hwidth, ih (fun id hid => hes (List.mem_cons_of_mem _ hid)) hrest]
          rfl
      · cases h

/-- The values that are read back differ, as the model satisfies the inequations. -/
theorem Parts.distinct {before after : List UserConstraint} {es es₁ : List Element}
    {first later : List (Bool × Node)} {s s₁ s₂ : MetaSMTVisitor} {built : VectorSolver}
    (h : Parts env.check d before after es es₁ first later s₁ s₂ built)
    (hpairs : PairsOfWidth d.bitsize es₁) (hsound : env.Sound) {time time' : Nat}
    (hsolve : solveTwice env built.solver_ time = (true, s, time')) {values : List Nat}
    (hread : readVector s d built.vec_elements_ = some values) : values.Nodup := by
  rcases h.widened hpairs with ⟨hterminals, hasserted, hsub⟩
  have hmodel := satisfies_of_solveTwice hsound hsolve
  have hids : ids built.vec_elements_ = ids es := h.after.ids_eq.trans h.before.ids_eq
  rw [← terminals_solveTwice hsolve, ← hids] at hterminals
  rw [readVector_eq_map hterminals (List.Subset.refl _) hread, h.after.ids_eq]
  apply (nodup_map_ids_iff _ es₁).mpr
  intro pair hpair heq
  have hmem : distinctFormula d.bitsize pair ∈ built.solver_.assertions := by
    apply hsub
    rw [hasserted]
    exact List.mem_append_right _ (List.mem_map_of_mem hpair)
  apply (holds_distinctFormula s.model d.bitsize pair).mp (hmodel _ hmem)
  rw [← ofNat_setValue d (s.model (.terminal pair.1.id)), heq, ofNat_setValue]

theorem elementWidth_disequality {is : List Nat} {width : Nat} {pair : Element × Element}
    (h : OfWidth is width pair) : ElementWidth is width (disequality pair) := by
  intro id bitsize sign hmem _
  cases List.mem_cons.mp hmem with
  | inl hmem => cases hmem
  | inr hmem =>
      cases List.mem_append.mp hmem with
      | inl hmem =>
          cases List.mem_singleton.mp hmem
          exact h.fst_width
      | inr hmem =>
          cases List.mem_singleton.mp hmem
          exact h.snd_width

theorem ofWidth_of_elementWidth {es : List Element} {width : Nat} {pair : Element × Element}
    (hpair : pair ∈ pairs es) (h : ElementWidth (ids es) width (disequality pair)) :
    OfWidth (ids es) width pair := by
  have hmem := mem_of_mem_pairs hpair
  have hfst : pair.1.id ∈ ids es := List.mem_map_of_mem hmem.left
  have hsnd : pair.2.id ∈ ids es := List.mem_map_of_mem hmem.right.left
  constructor
  · exact hfst
  · exact hsnd
  · exact h _ _ pair.1.sign (List.mem_cons_of_mem _ (List.mem_append_left _
      (List.mem_singleton_self _))) hfst
  · exact h _ _ pair.2.sign (List.mem_cons_of_mem _ (List.mem_append_right _
      (List.mem_singleton_self _))) hsnd

theorem uniqueCorrect_of_widthsKnown (hsound : env.Sound) {vs : VectorSolver} {w : World}
    {vector : RandVec} (hvector : env.vectorBaseMap vs.vector_id_ = some vector)
    (hnumbered : Numbered vs w.var_ID) {before after : List UserConstraint} {u : UserConstraint}
    (hcs : vs.constraints_ = before ++ u :: after) (hunique : u.isUnique = true)
    (hhard : u.soft_ = false)
    (hothers : ForeachOver vs.vector_id_ vector.element (before ++ after))
    {built : VectorSolver} {var_ID : Nat}
    (hbuild : buildSolver env.check vs (vectorSize var_gen vector) w.var_ID =
      .ok (built, var_ID))
    (hknown : WidthsKnown vector.element before vs.vec_elements_ (vectorSize var_gen vector)) :
    UniqueCorrect env var_gen vector vs w built := by
  rcases exists_parts hnumbered hcs hunique hhard hothers hbuild with
    ⟨es₁, first, later, s₁, s₂, hinstances, hparts⟩
  have hlength := ids_resize_length vs.vec_elements_ (vectorSize var_gen vector) w.var_ID
  have hretyped := hparts.before.retyped
  rw [hlength] at hretyped
  have hpairs := (pairsOfWidth_iff_widthsKnown hretyped).mpr hknown
  have hids₁ := hparts.before.ids_eq
  have hids := hparts.after.ids_eq
  rcases hparts.widened hpairs with ⟨hterminals, hasserted, hsub⟩
  rw [← hids₁] at hterminals
  constructor
  · intro hone
    rw [hcs, List.length_append, List.length_cons] at hone
    have hsum : before.length + after.length = 0 := Nat.succ.inj hone
    have hzero := Nat.add_eq_zero_iff.mp hsum
    have hbefore := List.length_eq_zero_iff.mp hzero.left
    have hafter := List.length_eq_zero_iff.mp hzero.right
    rw [hbefore, hafter] at hparts
    rw [← hlength]
    exact hparts.satisfiable_iff hpairs (hnumbered.resize _).nodup
  · intro vs' w' values hsolve hread
    rcases solve_cases hsolve with
      ⟨vector', built', var_ID', s, time, hvector', hbuild', htwice, hvs', hw'⟩
    rw [hvector] at hvector'
    cases hvector'
    rw [hbuild] at hbuild'
    cases hbuild'
    rw [hvs'] at hread
    constructor
    · rw [hw']
      simp only [if_true, hread]
      exact Function.update_self _ _ _
    · exact hparts.distinct hpairs hsound htwice hread
  · intro es ns h entry hentry
    rw [hinstances] at h
    cases h
    rw [hids]
    cases List.mem_append.mp hentry with
    | inr hentry => exact hparts.after.width entry hentry
    | inl hentry =>
        cases List.mem_append.mp hentry with
        | inl hentry =>
            have hwidth := hparts.before.width entry hentry
            rw [← hids₁] at hwidth
            exact hwidth
        | inr hentry =>
            rcases List.mem_map.mp hentry with ⟨n, hn, heq⟩
            rcases List.mem_map.mp hn with ⟨pair, hpair, hnode⟩
            rw [← heq, ← hnode]
            exact elementWidth_disequality (hpairs pair hpair)
  · rw [hids]
    exact hterminals

/-- A `unique` is correct exactly when the widths of the elements are known when it is
reached. -/
theorem unique_correct_iff (hsound : env.Sound) {vs : VectorSolver} {w : World}
    {vector : RandVec} (hvector : env.vectorBaseMap vs.vector_id_ = some vector)
    (hnumbered : Numbered vs w.var_ID) {before after : List UserConstraint} {u : UserConstraint}
    (hcs : vs.constraints_ = before ++ u :: after) (hunique : u.isUnique = true)
    (hhard : u.soft_ = false)
    (hothers : ForeachOver vs.vector_id_ vector.element (before ++ after))
    {built : VectorSolver} {var_ID : Nat}
    (hbuild : buildSolver env.check vs (vectorSize var_gen vector) w.var_ID =
      .ok (built, var_ID)) :
    UniqueCorrect env var_gen vector vs w built ↔
      WidthsKnown vector.element before vs.vec_elements_ (vectorSize var_gen vector) := by
  rcases exists_parts hnumbered hcs hunique hhard hothers hbuild with
    ⟨es₁, first, later, s₁, s₂, hinstances, hparts⟩
  have hlength := ids_resize_length vs.vec_elements_ (vectorSize var_gen vector) w.var_ID
  have hretyped := hparts.before.retyped
  rw [hlength] at hretyped
  have hids : ids built.vec_elements_ = ids es₁ := hparts.after.ids_eq
  constructor
  · intro h
    apply (pairsOfWidth_iff_widthsKnown hretyped).mp
    intro pair hpair
    apply ofWidth_of_elementWidth hpair
    have hmem : (false, disequality pair) ∈
        first ++ (((pairs es₁).map disequality).map fun n => (false, n)) ++ later :=
      List.mem_append_left _ (List.mem_append_right _
        (List.mem_map_of_mem (List.mem_map_of_mem hpair)))
    have hwidth := h.occurrences _ _ hinstances _ hmem
    rw [hids] at hwidth
    exact hwidth
  · exact uniqueCorrect_of_widthsKnown hsound hvector hnumbered hcs hunique hhard hothers hbuild

/-- After a call that succeeds, a vector with a hard `unique` has no value twice, when the widths
are known and a single element is accessed in a copy. -/
theorem nodup_of_solve (hsound : env.Sound) {vs vs' : VectorSolver} {w w' : World}
    {vector : RandVec} (hvector : env.vectorBaseMap vs.vector_id_ = some vector)
    (hnumbered : Numbered vs w.var_ID) {before after : List UserConstraint} {u : UserConstraint}
    (hcs : vs.constraints_ = before ++ u :: after) (hunique : u.isUnique = true)
    (hhard : u.soft_ = false)
    (hothers : ForeachOver vs.vector_id_ vector.element (before ++ after))
    (hknown : WidthsKnown vector.element before vs.vec_elements_ (vectorSize var_gen vector))
    (hsingle : vectorSize var_gen vector = 1 ->
      forall id, exists c, c ∈ before ++ after ∧ OccursIn [id] id c)
    (hsolve : vs.solve env var_gen w = .ok (true, vs', w')) :
    (w'.vectors vs.vector_id_).Nodup := by
  rcases solve_cases hsolve with ⟨vector', built, var_ID, s, time, hvector', hbuild, _⟩
  rw [hvector] at hvector'
  cases hvector'
  have hcorrect :=
    uniqueCorrect_of_widthsKnown hsound hvector hnumbered hcs hunique hhard hothers hbuild hknown
  have hlength := ids_resize_length vs.vec_elements_ (vectorSize var_gen vector) w.var_ID
  rw [← List.length_map (f := Element.id)] at hlength
  have hread : (readVector vs'.solver_ vector.element vs'.vec_elements_).isSome = true := by
    apply (readVector_isSome_solve_iff hvector hsolve).mpr
    intro id hid
    by_cases hsize : 2 ≤ vectorSize var_gen vector
    · -- the inequations are about all elements
      refine ⟨u, ?_, ?_⟩
      · rw [hcs]
        exact List.mem_append_right _ List.mem_cons_self
      · rw [OccursIn, if_pos hunique]
        refine ⟨?_, hid⟩
        rw [ids, hlength]
        exact hsize
    · have hpos := List.length_pos_of_mem hid
      rw [ids, hlength] at hpos
      have hone : vectorSize var_gen vector = 1 :=
        Nat.le_antisymm (Nat.lt_succ_iff.mp (Nat.not_le.mp hsize)) hpos
      rw [hone] at hid hlength ⊢
      rcases List.length_eq_one_iff.mp hlength with ⟨id', hid'⟩
      have hids : ids (resize vs.vec_elements_ 1 w.var_ID).1 = [id'] := hid'
      rw [hids] at hid ⊢
      rw [List.mem_singleton.mp hid]
      rcases hsingle hone id' with ⟨c, hc, hoccurs⟩
      refine ⟨c, ?_, hoccurs⟩
      rw [hcs]
      cases List.mem_append.mp hc with
      | inl hc => exact List.mem_append_left _ hc
      | inr hc => exact List.mem_append_right _ (List.mem_cons_of_mem u hc)
  rcases Option.isSome_iff_exists.mp hread with ⟨values, hvalues⟩
  rcases hcorrect.distinct vs' w' values hsolve hvalues with ⟨hkept, hnodup⟩
  rw [hkept]
  exact hnodup

noncomputable def envBytes : Environment :=
  { Environment.simple Oracle.ideal fun _ => 0 with
    vectorBaseMap := fun _ => some { size_var := 2, element := { bitsize := 8, sign := false } } }

/-- `unique(v)` as a hard constraint. -/
def hardUnique : UserConstraint :=
  { softUnique with
    expr_ := .unique (.vectorExpr 1 8 false)
    soft_ := false }

/-- `foreach(v, v[_i] <= 9)` -/
def foreachBelow : UserConstraint :=
  { hardUnique with
    expr_ := .forEach (.vectorExpr 1 8 false)
      (.binaryOpr .lessEqualOpr (.vectorAccess (.vectorExpr 1 8 false) (.placeholder 0))
        (.constant ⟨9, 8, false⟩))
    unique_ := some false }

theorem numbered_start {cs : List UserConstraint}
    (hcs : forall c, c ∈ cs -> c.expr_.supportVars = {1}) :
    Numbered { VectorSolver.new 1 with constraints_ := cs } worldStart.var_ID := by
  apply numbered_of_nil rfl
  intro c hc id hid
  rw [hcs c hc] at hid
  rw [Finset.mem_singleton.mp hid]
  show 1 ≤ 10
  decide

theorem unique_correct_iff_after_foreach :
    let vs : VectorSolver := { VectorSolver.new 1 with constraints_ := [foreachBelow, hardUnique] }
    exists (built : VectorSolver) (var_ID : Nat),
      buildSolver .strict vs 5 worldStart.var_ID = .ok (built, var_ID) ∧
        UniqueCorrect envBytes [] ⟨2, ⟨8, false⟩⟩ vs worldStart built := by
  intro vs
  have hbuilt :
      (buildSolver .strict vs 5 worldStart.var_ID).toOption.any (fun _ => true) = true := by
    decide +kernel
  rcases exists_of_any hbuilt with ⟨⟨built, var_ID⟩, hbuild, _⟩
  have hothers : ForeachOver 1 ⟨8, false⟩ ([foreachBelow] ++ []) := by
    intro c hc
    rw [List.mem_singleton.mp hc]
    exact ⟨rfl, rfl⟩
  have hnumbered : Numbered vs worldStart.var_ID := by
    apply numbered_start
    intro c hc
    cases List.mem_cons.mp hc with
    | inl hc =>
        rw [hc]
        rfl
    | inr hc =>
        rw [List.mem_singleton.mp hc]
        rfl
  have hknown : WidthsKnown ⟨8, false⟩ [foreachBelow] vs.vec_elements_ 5 := by
    unfold WidthsKnown
    decide
  have hsound : envBytes.Sound := Oracle.ideal_sound
  have hcs : vs.constraints_ = [foreachBelow] ++ hardUnique :: [] := rfl
  have hbuild' : buildSolver .strict vs (vectorSize [] ⟨2, ⟨8, false⟩⟩) worldStart.var_ID =
      .ok (built, var_ID) := hbuild
  exact ⟨built, var_ID, hbuild,
    (unique_correct_iff hsound rfl hnumbered hcs rfl rfl hothers hbuild').mpr hknown⟩

/-- Five bytes can differ, but the `unique` alone is about five bits. -/
theorem unique_alone_unsatisfiable :
    ¬ forall (env : Environment) (var_gen : List VariableSolver) (vs : VectorSolver) (w : World)
        (vector : RandVec) (before after : List UserConstraint) (u : UserConstraint)
        (built : VectorSolver) (var_ID : Nat),
      env.Sound -> env.vectorBaseMap vs.vector_id_ = some vector -> Numbered vs w.var_ID ->
        vs.constraints_ = before ++ u :: after -> u.isUnique = true -> u.soft_ = false ->
          ForeachOver vs.vector_id_ vector.element (before ++ after) ->
            buildSolver env.check vs (vectorSize var_gen vector) w.var_ID = .ok (built, var_ID) ->
              UniqueCorrect env var_gen vector vs w built := by
  intro hclaim
  let vs : VectorSolver := { VectorSolver.new 1 with constraints_ := [hardUnique] }
  have hbuilt : (buildSolver .strict vs 5 worldStart.var_ID).toOption.any (fun r =>
      r.1.solver_.assertions == (pairs (newElements 10 5)).map (distinctFormula 1)) = true := by
    decide +kernel
  rcases exists_of_any hbuilt with ⟨⟨built, var_ID⟩, hbuild, hassertions⟩
  have hassertions' := eq_of_beq hassertions
  have hnumbered : Numbered vs worldStart.var_ID := by
    apply numbered_start
    intro c hc
    rw [List.mem_singleton.mp hc]
    rfl
  have hcorrect := hclaim envBytes [] vs worldStart ⟨2, ⟨8, false⟩⟩ [] [] hardUnique built var_ID
    Oracle.ideal_sound rfl hnumbered rfl rfl rfl (List.forall_mem_nil _) hbuild
  have hsatisfiable := (hcorrect.satisfiable rfl).mpr (by decide)
  change Term.Satisfiable built.solver_.assertions at hsatisfiable
  rw [hassertions'] at hsatisfiable
  have hle := (satisfiable_pairs_iff (nodup_newElements 10 5) 1).mp hsatisfiable
  exact absurd hle (by decide)

end Unique

end VectorSolver

end Backend
end Crave
