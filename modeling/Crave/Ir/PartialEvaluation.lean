import Crave.Ir.HostArithmetic

/-!
# Evaluation under partial assignments

An unassigned variable counts as zero and is marked as unknown, and the mark goes
through every operator.  What is known under a partial assignment is then the value under
every extension of it, unless an unknown condition has chosen a branch or an equality has
assigned one of its variables.
-/

namespace Crave
namespace Ir
namespace EvalVisitor

/-!
## Where the marks are lost
-/

/-- No equality has an assigned variable on one side and an unassigned one on the other. -/
def BindsNothing (stored : Node -> Nat) (evalMap_ : EvalMap) (n : Node) : Prop :=
  forall lhs rhs, .binaryOpr .equalOpr lhs rhs ∈ n.subterms ->
    castId stored lhs ≠ 0 -> castId stored rhs ≠ 0 ->
      (evalMap_ (castId stored lhs)).isSome = (evalMap_ (castId stored rhs)).isSome

/-- The partial assignment determines the number of an expression: the variables of it have
values, no divisor is zero, and there is no slice.  Of a conditional the condition and the
branch that it chooses count. -/
def Determined (stored : Node -> Nat) (evalMap_ : EvalMap) : Node -> Prop
  | .variableExpr id _ _ => (evalMap_ id).isSome = true
  | .constant _ => True
  | .vectorExpr id _ _ => (evalMap_ id).isSome = true
  | .unaryOpr _ child => Determined stored evalMap_ child
  | .inside child _ => Determined stored evalMap_ child
  | .extendExpr child _ => Determined stored evalMap_ child
  | .binaryOpr op lhs rhs =>
      Determined stored evalMap_ lhs ∧ Determined stored evalMap_ rhs ∧
        (op = .devideOpr ∨ op = .moduloOpr -> (hostNumber stored rhs evalMap_).word ≠ 0)
  | .ifThenElse a b c =>
      Determined stored evalMap_ a ∧
        if (hostNumber stored a evalMap_).word ≠ 0 then Determined stored evalMap_ b
        else Determined stored evalMap_ c
  | _ => False

/-- The conditions of the conditionals that are met are determined; of a conditional only the
branch counts that is taken. -/
def ConditionsDetermined (stored : Node -> Nat) (evalMap_ : EvalMap) : Node -> Prop
  | .unaryOpr _ child => ConditionsDetermined stored evalMap_ child
  | .inside child _ => ConditionsDetermined stored evalMap_ child
  | .extendExpr child _ => ConditionsDetermined stored evalMap_ child
  | .binaryOpr _ lhs rhs =>
      ConditionsDetermined stored evalMap_ lhs ∧ ConditionsDetermined stored evalMap_ rhs
  | .ifThenElse a b c =>
      Determined stored evalMap_ a ∧
        if (hostNumber stored a evalMap_).word ≠ 0 then ConditionsDetermined stored evalMap_ b
        else ConditionsDetermined stored evalMap_ c
  | _ => True

/-- The conditions of the conditionals that are met are marked as known. -/
def ConditionsKnown (evalMap_ : EvalMap) : Node -> Prop
  | .unaryOpr _ child => ConditionsKnown evalMap_ child
  | .inside child _ => ConditionsKnown evalMap_ child
  | .extendExpr child _ => ConditionsKnown evalMap_ child
  | .binaryOpr _ lhs rhs => ConditionsKnown evalMap_ lhs ∧ ConditionsKnown evalMap_ rhs
  | .ifThenElse a b c =>
      ConditionsKnown evalMap_ a ∧ forall entry, value evalMap_ a = .ok entry ->
        entry.2 = true ∧
          if entry.1.value ≠ 0 then ConditionsKnown evalMap_ b else ConditionsKnown evalMap_ c
  | _ => True

section Binding

variable {stored : Node -> Nat} {evalMap_ : EvalMap}

theorem bindTemporary_eq_self {id₁ id₂ : Nat}
    (h : id₁ ≠ 0 -> id₂ ≠ 0 -> (evalMap_ id₁).isSome = (evalMap_ id₂).isSome) :
    bindTemporary id₁ id₂ evalMap_ = evalMap_ := by
  unfold bindTemporary
  split
  · next hne =>
      have hboth := h hne.left hne.right
      cases h₁ : evalMap_ id₁ with
      | none =>
          cases h₂ : evalMap_ id₂ with
          | none => rfl
          | some c =>
              rw [h₁, h₂] at hboth
              cases hboth
      | some c =>
          cases h₂ : evalMap_ id₂ with
          | none =>
              rw [h₁, h₂] at hboth
              cases hboth
          | some d => rfl
  · rfl

theorem BindsNothing.mono {n u : Node} (h : BindsNothing stored evalMap_ n)
    (hsub : forall v, v ∈ u.subterms -> v ∈ n.subterms) : BindsNothing stored evalMap_ u :=
  fun lhs rhs hmem => h lhs rhs (hsub _ hmem)

/-- When nothing is bound the visit computes the value and leaves the map alone. -/
theorem visit_of_bindsNothing {n : Node} (h : BindsNothing stored evalMap_ n) :
    visit stored n evalMap_ =
      match value evalMap_ n with
      | .error e => .error e
      | .ok entry => .ok (entry, evalMap_) := by
  induction n with
  | placeholder id => rfl
  | variableExpr id bitsize sign => rfl
  | constant c => rfl
  | vectorExpr id bitsize sign => rfl
  | unaryOpr op child ih =>
      have hchild := ih (h.mono fun v hv => List.mem_cons_of_mem _ hv)
      simp only [visit, value, hchild]
      cases value evalMap_ child with
      | error e => rfl
      | ok entry => rfl
  | inside child collection ih =>
      have hchild := ih (h.mono fun v hv => List.mem_cons_of_mem _ hv)
      simp only [visit, value, hchild]
      cases value evalMap_ child with
      | error e => rfl
      | ok entry => rfl
  | extendExpr child value' ih =>
      have hchild := ih (h.mono fun v hv => List.mem_cons_of_mem _ hv)
      simp only [visit, value, hchild]
      cases value evalMap_ child with
      | error e => rfl
      | ok entry => rfl
  | binaryOpr op lhs rhs ihl ihr =>
      have hl := ihl (h.mono fun v hv => List.mem_cons_of_mem _ (List.mem_append_left _ hv))
      have hr := ihr (h.mono fun v hv => List.mem_cons_of_mem _ (List.mem_append_right _ hv))
      have hbound : (if op = .equalOpr then
          bindTemporary (castId stored lhs) (castId stored rhs) evalMap_
        else evalMap_) = evalMap_ := by
        split
        · next hop =>
            apply bindTemporary_eq_self
            apply h lhs rhs
            rw [hop]
            exact List.mem_cons_self
        · rfl
      simp only [visit, value, hbound, hl]
      cases value evalMap_ lhs with
      | error e => rfl
      | ok fst =>
          simp only [hr]
          cases value evalMap_ rhs with
          | error e => rfl
          | ok snd =>
              cases hopr : visitBinaryOpr op fst snd with
              | error e => simp only [hopr]
              | ok entry => simp only [hopr]
  | vectorAccess lhs rhs ihl ihr => rfl
  | ifThenElse a b c iha ihb ihc =>
      have ha := iha (h.mono fun v hv =>
        List.mem_cons_of_mem _ (List.mem_append_left _ (List.mem_append_left _ hv)))
      have hb := ihb (h.mono fun v hv =>
        List.mem_cons_of_mem _ (List.mem_append_left _ (List.mem_append_right _ hv)))
      have hc := ihc (h.mono fun v hv => List.mem_cons_of_mem _ (List.mem_append_right _ hv))
      simp only [visit, value, ha]
      cases value evalMap_ a with
      | error e => rfl
      | ok fst =>
          simp only [hb]
          cases value evalMap_ b with
          | error e => rfl
          | ok snd =>
              simp only [hc]
              cases value evalMap_ c with
              | error e => rfl
              | ok trd => rfl
  | forEach lhs rhs ihl ihr => rfl
  | unique child ih => rfl
  | bitslice child r l ih =>
      have hchild := ih (h.mono fun v hv => List.mem_cons_of_mem _ hv)
      simp only [visit, value, hchild]
      cases value evalMap_ child with
      | error e => rfl
      | ok entry => rfl

end Binding

/-!
## Known values
-/

theorem known_operands {op : BinaryOperator} {fst snd entry : StackEntry}
    (h : visitBinaryOpr op fst snd = .ok entry) (hknown : entry.2 = true) :
    fst.2 = true ∧ snd.2 = true := by
  have hand : forall e : StackEntry, e.2 = (fst.2 && snd.2) -> e = entry ->
      fst.2 = true ∧ snd.2 = true := by
    intro e hflag heq
    rw [heq, hknown] at hflag
    exact Bool.and_eq_true_iff.mp hflag.symm
  have hdivision : forall f g : BitVec 64 -> BitVec 64 -> BitVec 64,
      divisionResult f g fst snd = .ok entry -> fst.2 = true ∧ snd.2 = true := by
    intro f g hdiv
    unfold divisionResult at hdiv
    split at hdiv
    · cases hdiv
      cases hknown
    · split at hdiv
      · split at hdiv
        · cases hdiv
        · exact hand _ rfl (Except.ok.inj hdiv)
      · exact hand _ rfl (Except.ok.inj hdiv)
  have hshift : forall f : BitVec 64 -> BitVec 64 -> BitVec 64,
      shiftResult f fst snd = .ok entry -> fst.2 = true ∧ snd.2 = true := by
    intro f hsh
    unfold shiftResult at hsh
    split at hsh
    · exact hand _ rfl (Except.ok.inj hsh)
    · cases hsh
  cases op with
  | devideOpr => exact hdivision _ _ h
  | moduloOpr => exact hdivision _ _ h
  | shiftLeftOpr => exact hshift _ h
  | shiftRightOpr => exact hshift _ h
  | _ => exact hand _ rfl (Except.ok.inj h)

theorem known_unary (op : UnaryOperator) (e : StackEntry) : (visitUnaryOpr op e).2 = e.2 := by
  cases op <;> rfl

/-- A result is known when both operands are and nothing is divided by zero. -/
theorem known_of_operands {op : BinaryOperator} {fst snd entry : StackEntry}
    (h : visitBinaryOpr op fst snd = .ok entry) (hfst : fst.2 = true) (hsnd : snd.2 = true)
    (hdivisor : op = .devideOpr ∨ op = .moduloOpr -> snd.1.value ≠ 0) : entry.2 = true := by
  have hand : (fst.2 && snd.2) = true := Bool.and_eq_true_iff.mpr ⟨hfst, hsnd⟩
  have hdivision : forall f g : BitVec 64 -> BitVec 64 -> BitVec 64, snd.1.value ≠ 0 ->
      divisionResult f g fst snd = .ok entry -> entry.2 = true := by
    intro f g hne hdiv
    rw [divisionResult, if_neg hne] at hdiv
    split at hdiv
    · split at hdiv
      · cases hdiv
      · rw [← Except.ok.inj hdiv]
        exact hand
    · rw [← Except.ok.inj hdiv]
      exact hand
  have hshift : forall f : BitVec 64 -> BitVec 64 -> BitVec 64,
      shiftResult f fst snd = .ok entry -> entry.2 = true := by
    intro f hsh
    unfold shiftResult at hsh
    split at hsh
    · rw [← Except.ok.inj hsh]
      exact hand
    · cases hsh
  cases op with
  | devideOpr => exact hdivision _ _ (hdivisor (Or.inl rfl)) h
  | moduloOpr => exact hdivision _ _ (hdivisor (Or.inr rfl)) h
  | shiftLeftOpr => exact hshift _ h
  | shiftRightOpr => exact hshift _ h
  | _ =>
      rw [← Except.ok.inj h]
      exact hand

theorem value_number {stored : Node -> Nat} {evalMap_ : EvalMap} {n : Node} {entry : StackEntry}
    (hbinds : BindsNothing stored evalMap_ n) (h : value evalMap_ n = .ok entry) :
    (hostNumber stored n evalMap_).word = entry.1.value := by
  have hvisit := visit_of_bindsNothing hbinds
  rw [h] at hvisit
  rw [← (visit_number hvisit).left]
  rfl

theorem known_of_determined {stored : Node -> Nat} {evalMap_ : EvalMap} {n : Node}
    {entry : StackEntry} (hbinds : BindsNothing stored evalMap_ n)
    (hdetermined : Determined stored evalMap_ n) (h : value evalMap_ n = .ok entry) :
    entry.2 = true ∧ ConditionsKnown evalMap_ n := by
  induction n generalizing entry with
  | variableExpr id bitsize sign =>
      cases h
      rcases Option.isSome_iff_exists.mp hdetermined with ⟨c, hc⟩
      rw [visitVariableExpr, hc]
      exact ⟨rfl, trivial⟩
  | constant c =>
      cases h
      exact ⟨rfl, trivial⟩
  | vectorExpr id bitsize sign =>
      cases h
      rcases Option.isSome_iff_exists.mp hdetermined with ⟨c, hc⟩
      rw [visitVariableExpr, hc]
      exact ⟨rfl, trivial⟩
  | unaryOpr op child ih =>
      rcases value_unaryOpr_ok h with ⟨e, he, rfl⟩
      rw [known_unary]
      exact ih (hbinds.mono fun v hv => List.mem_cons_of_mem _ hv) hdetermined he
  | inside child collection ih =>
      rcases value_inside_ok h with ⟨e, he, rfl⟩
      have hchild := ih (hbinds.mono fun v hv => List.mem_cons_of_mem _ hv) hdetermined he
      exact ⟨hchild.left, hchild.right⟩
  | extendExpr child value' ih =>
      rcases value_extendExpr_ok h with ⟨e, he, rfl⟩
      have hchild := ih (hbinds.mono fun v hv => List.mem_cons_of_mem _ hv) hdetermined he
      exact ⟨hchild.left, hchild.right⟩
  | binaryOpr op lhs rhs ihl ihr =>
      have hbindsr := hbinds.mono (u := rhs) fun v hv =>
        List.mem_cons_of_mem _ (List.mem_append_right _ hv)
      rcases value_binaryOpr_ok h with ⟨fst, snd, hfst, hsnd, hop⟩
      rcases hdetermined with ⟨hl, hr, hdivisor⟩
      have hl' := ihl (hbinds.mono fun v hv =>
        List.mem_cons_of_mem _ (List.mem_append_left _ hv)) hl hfst
      have hr' := ihr hbindsr hr hsnd
      refine ⟨?_, hl'.right, hr'.right⟩
      apply known_of_operands hop hl'.left hr'.left
      intro hdivides
      rw [← value_number hbindsr hsnd]
      exact hdivisor hdivides
  | ifThenElse a b c iha ihb ihc =>
      have hbindsa := hbinds.mono (u := a) fun v hv =>
        List.mem_cons_of_mem _ (List.mem_append_left _ (List.mem_append_left _ hv))
      have hbindsb := hbinds.mono (u := b) fun v hv =>
        List.mem_cons_of_mem _ (List.mem_append_left _ (List.mem_append_right _ hv))
      have hbindsc := hbinds.mono (u := c) fun v hv =>
        List.mem_cons_of_mem _ (List.mem_append_right _ hv)
      rcases value_ifThenElse_ok h with ⟨fst, snd, trd, hfst, hsnd, htrd, rfl⟩
      rcases hdetermined with ⟨ha, hbranch⟩
      have ha' := iha hbindsa ha hfst
      rw [value_number hbindsa hfst] at hbranch
      rw [ConditionsKnown, visitIfThenElse]
      by_cases hcond : fst.1.value ≠ 0
      · rw [if_pos hcond] at hbranch ⊢
        have hb' := ihb hbindsb hbranch hsnd
        refine ⟨hb'.left, ha'.right, ?_⟩
        intro entry hentry
        rw [hfst] at hentry
        cases hentry
        rw [if_pos hcond]
        exact ⟨ha'.left, hb'.right⟩
      · rw [if_neg hcond] at hbranch ⊢
        have hc' := ihc hbindsc hbranch htrd
        refine ⟨hc'.left, ha'.right, ?_⟩
        intro entry hentry
        rw [hfst] at hentry
        cases hentry
        rw [if_neg hcond]
        exact ⟨ha'.left, hc'.right⟩
  | _ => cases hdetermined

theorem conditionsKnown_of_determined {stored : Node -> Nat} {evalMap_ : EvalMap} {n : Node}
    {entry : StackEntry} (hbinds : BindsNothing stored evalMap_ n)
    (hcond : ConditionsDetermined stored evalMap_ n) (h : value evalMap_ n = .ok entry) :
    ConditionsKnown evalMap_ n := by
  induction n generalizing entry with
  | unaryOpr op child ih =>
      rcases value_unaryOpr_ok h with ⟨e, he, _⟩
      exact ih (hbinds.mono fun v hv => List.mem_cons_of_mem _ hv) hcond he
  | inside child collection ih =>
      rcases value_inside_ok h with ⟨e, he, _⟩
      exact ih (hbinds.mono fun v hv => List.mem_cons_of_mem _ hv) hcond he
  | extendExpr child value' ih =>
      rcases value_extendExpr_ok h with ⟨e, he, _⟩
      exact ih (hbinds.mono fun v hv => List.mem_cons_of_mem _ hv) hcond he
  | binaryOpr op lhs rhs ihl ihr =>
      rcases value_binaryOpr_ok h with ⟨fst, snd, hfst, hsnd, _⟩
      constructor
      · exact ihl (hbinds.mono fun v hv =>
          List.mem_cons_of_mem _ (List.mem_append_left _ hv)) hcond.left hfst
      · exact ihr (hbinds.mono fun v hv =>
          List.mem_cons_of_mem _ (List.mem_append_right _ hv)) hcond.right hsnd
  | ifThenElse a b c iha ihb ihc =>
      have hbindsa := hbinds.mono (u := a) fun v hv =>
        List.mem_cons_of_mem _ (List.mem_append_left _ (List.mem_append_left _ hv))
      have hbindsb := hbinds.mono (u := b) fun v hv =>
        List.mem_cons_of_mem _ (List.mem_append_left _ (List.mem_append_right _ hv))
      have hbindsc := hbinds.mono (u := c) fun v hv =>
        List.mem_cons_of_mem _ (List.mem_append_right _ hv)
      rcases value_ifThenElse_ok h with ⟨fst, snd, trd, hfst, hsnd, htrd, _⟩
      rcases hcond with ⟨ha, hbranch⟩
      have ha' := known_of_determined hbindsa ha hfst
      rw [value_number hbindsa hfst] at hbranch
      refine ⟨ha'.right, ?_⟩
      intro entry hentry
      rw [hfst] at hentry
      cases hentry
      refine ⟨ha'.left, ?_⟩
      split
      · next hvalue =>
          rw [if_pos hvalue] at hbranch
          exact ihb hbindsb hbranch hsnd
      · next hvalue =>
          rw [if_neg hvalue] at hbranch
          exact ihc hbindsc hbranch htrd
  | _ => trivial

variable {m m' : EvalMap}

/-- A known value stays when variables are assigned that were not assigned before. -/
theorem value_extend {n : Node}
    (hext : forall id c, id ∈ n.supportVars -> m id = some c -> m' id = some c)
    (hcond : ConditionsKnown m n) {entry entry' : StackEntry}
    (h : value m n = .ok entry) (h' : value m' n = .ok entry') (hknown : entry.2 = true) :
    entry' = entry := by
  induction n generalizing entry entry' with
  | placeholder id => cases h
  | variableExpr id bitsize sign =>
      cases h
      cases h'
      unfold visitVariableExpr at hknown ⊢
      cases hid : m id with
      | none =>
          rw [hid] at hknown
          cases hknown
      | some c => rw [hext id c (Finset.mem_singleton_self id) hid]
  | constant c =>
      cases h
      cases h'
      rfl
  | vectorExpr id bitsize sign =>
      cases h
      cases h'
      unfold visitVariableExpr at hknown ⊢
      cases hid : m id with
      | none =>
          rw [hid] at hknown
          cases hknown
      | some c => rw [hext id c (Finset.mem_singleton_self id) hid]
  | unaryOpr op child ih =>
      rcases value_unaryOpr_ok h with ⟨e, he, rfl⟩
      rcases value_unaryOpr_ok h' with ⟨e', he', rfl⟩
      rw [known_unary] at hknown
      rw [ih hext hcond he he' hknown]
  | inside child collection ih =>
      rcases value_inside_ok h with ⟨e, he, rfl⟩
      rcases value_inside_ok h' with ⟨e', he', rfl⟩
      rw [ih hext hcond he he' hknown]
  | extendExpr child value' ih =>
      rcases value_extendExpr_ok h with ⟨e, he, rfl⟩
      rcases value_extendExpr_ok h' with ⟨e', he', rfl⟩
      rw [ih hext hcond he he' hknown]
  | binaryOpr op lhs rhs ihl ihr =>
      rcases value_binaryOpr_ok h with ⟨fst, snd, hfst, hsnd, hop⟩
      rcases value_binaryOpr_ok h' with ⟨fst', snd', hfst', hsnd', hop'⟩
      have hboth := known_operands hop hknown
      have hl := ihl (fun id c hid => hext id c (Finset.mem_union_left _ hid))
        hcond.left hfst hfst' hboth.left
      have hr := ihr (fun id c hid => hext id c (Finset.mem_union_right _ hid))
        hcond.right hsnd hsnd' hboth.right
      rw [hl, hr, hop] at hop'
      exact (Except.ok.inj hop').symm
  | vectorAccess lhs rhs ihl ihr => cases h
  | ifThenElse a b c iha ihb ihc =>
      have hexta := fun id c hid => hext id c
        (Finset.mem_union_left _ (Finset.mem_union_left _ hid))
      have hextb := fun id c hid => hext id c
        (Finset.mem_union_left _ (Finset.mem_union_right _ hid))
      have hextc := fun id c hid => hext id c (Finset.mem_union_right _ hid)
      rcases value_ifThenElse_ok h with ⟨fst, snd, trd, hfst, hsnd, htrd, rfl⟩
      rcases value_ifThenElse_ok h' with ⟨fst', snd', trd', hfst', hsnd', htrd', rfl⟩
      have hknowna := hcond.right fst hfst
      rw [iha hexta hcond.left hfst hfst' hknowna.left]
      unfold visitIfThenElse at hknown ⊢
      by_cases hvalue : fst.1.value ≠ 0
      · rw [if_pos hvalue] at hknown hknowna
        rw [if_pos hvalue, if_pos hvalue]
        exact ihb hextb hknowna.right hsnd hsnd' hknown
      · rw [if_neg hvalue] at hknown hknowna
        rw [if_neg hvalue, if_neg hvalue]
        exact ihc hextc hknowna.right htrd htrd' hknown
  | forEach lhs rhs ihl ihr => cases h
  | unique child ih => cases h
  | bitslice child r l ih =>
      rcases value_bitslice_ok h with ⟨e, _, rfl⟩
      cases hknown

/-- What is reported as known under a partial assignment is the value under every total
extension of it, as long as no equality binds a variable, no undetermined condition chooses a
branch and the arithmetic under the extension is defined. -/
theorem partial_evaluation_sound (stored : Node -> Nat) {n : Node} {c : Constant}
    {later : EvalMap} (h : visit stored n m = .ok ((c, true), later))
    (hext : Extends m m') (htotal : forall id, id ∈ n.supportVars -> (m' id).isSome = true)
    (hbinds : BindsNothing stored m n) (hcond : ConditionsDetermined stored m n)
    (hdefined : ArithmeticDefined stored n m') :
    exists later', visit stored n m' = .ok ((c, true), later') := by
  cases exists_visit h ((computes stored n m').safe.mpr hdefined) with
  | intro found hfound =>
      have hassigns : Assigns m' (fun id => (m' id).getD Constant.unknown) n.supportVars := by
        intro id hid
        cases hd : m' id with
        | none =>
            have hsome := htotal id hid
            rw [hd] at hsome
            cases hsome
        | some d =>
            show some d = some ((m' id).getD Constant.unknown)
            rw [hd]
            rfl
      rcases visit_eq_value stored hassigns with ⟨later', _, hvisit⟩
      rw [visit_of_bindsNothing hbinds] at h
      rw [hvisit] at hfound ⊢
      split at h
      · cases h
      · next entry hentry =>
          cases h
          split at hfound
          · cases hfound
          · next entry' hentry' =>
              have hsame : entry' = (c, true) := by
                apply value_extend _ (conditionsKnown_of_determined hbinds hcond hentry) hentry
                  hentry' rfl
                intro id d hid hd
                rw [hext id d hd]
                rfl
              exact ⟨later', by rw [hsame]⟩

/-!
### A branch that an unknown condition chooses
-/

/-- A conditional between two numbers on the variable 1. -/
def oneOrTwo : Node :=
  .ifThenElse (.variableExpr 1 1 false) (.constant ⟨1, 8, false⟩) (.constant ⟨2, 8, false⟩)

theorem partial_evaluation_unsound :
    ¬ forall (stored : Node -> Nat) (n : Node) (m m' : EvalMap) (c : Constant) (later : EvalMap),
      visit stored n m = .ok ((c, true), later) -> Extends m m' ->
      (forall id, id ∈ n.supportVars -> (m' id).isSome = true) ->
      ArithmeticDefined stored n m' -> exists later', visit stored n m' = .ok ((c, true), later') := by
  intro h
  have hunknown := h (fun _ => 0) oneOrTwo (fun _ => none) (fun _ => some ⟨1, 1, false⟩)
    ⟨2, 8, false⟩ (fun _ => none) rfl (fun id c hid => by cases hid) (fun _ _ => rfl)
    ⟨trivial, fun _ => ⟨trivial, fun _ => trivial⟩⟩
  rcases hunknown with ⟨later', hlater⟩
  cases hlater

/-- A conditional between a number and the variable 2 on the variable 1. -/
def oneOrVariable : Node :=
  .ifThenElse (.variableExpr 1 1 false) (.constant ⟨1, 8, false⟩) (.variableExpr 2 8 false)

def conditionOne : EvalMap
  | 1 => some ⟨1, 1, false⟩
  | _ => none

def conditionOneVariableFive : EvalMap
  | 1 => some ⟨1, 1, false⟩
  | 2 => some ⟨5, 8, false⟩
  | _ => none

/-- With the condition assigned the value is the one of its branch, whatever the variable of
the other branch is. -/
theorem partial_evaluation_sound_one :
    exists later', visit (fun _ => 0) oneOrVariable conditionOneVariableFive =
      .ok ((⟨1, 8, false⟩, true), later') := by
  have hvisit : visit (fun _ => 0) oneOrVariable conditionOne =
      .ok ((⟨1, 8, false⟩, true), conditionOne) := rfl
  apply partial_evaluation_sound (fun _ => 0) hvisit
  · intro id c hid
    match id, hid with
    | 1, hid => exact hid
  · intro id hid
    simp only [oneOrVariable, Node.supportVars, Finset.mem_union, Finset.mem_singleton,
      Finset.notMem_empty, or_false] at hid
    rcases hid with rfl | rfl
    · rfl
    · rfl
  · intro lhs rhs hmem
    simp [oneOrVariable, Node.subterms] at hmem
  · exact ⟨rfl, trivial⟩
  · exact ⟨trivial, fun _ => ⟨trivial, fun _ => trivial⟩⟩

end EvalVisitor
end Ir
end Crave
