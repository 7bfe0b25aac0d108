import Crave.Ir.Constraint

/-!
# Complexity estimates

The estimator adds the widths in an expression and multiplies them at the arithmetic
operators. It counts in `unsigned int`. The same rules over the unbounded integers can
give an estimate that is larger.
-/

namespace Crave
namespace Ir

/-- The widths in an expression are of type `unsigned int`, the bounds of a slice are
of type `int`. -/
def Node.MachineWidths : Node -> Prop
  | .placeholder _ => True
  | .variableExpr _ bitsize _ => bitsize < 2 ^ 32
  | .constant _ => True
  | .vectorExpr _ bitsize _ => bitsize < 2 ^ 32
  | .unaryOpr _ child => child.MachineWidths
  | .inside child _ => child.MachineWidths
  | .extendExpr child _ => child.MachineWidths
  | .binaryOpr _ lhs rhs => lhs.MachineWidths ∧ rhs.MachineWidths
  | .vectorAccess lhs rhs => lhs.MachineWidths ∧ rhs.MachineWidths
  | .ifThenElse a b c => a.MachineWidths ∧ b.MachineWidths ∧ c.MachineWidths
  | .forEach lhs rhs => lhs.MachineWidths ∧ rhs.MachineWidths
  | .unique child => child.MachineWidths
  | .bitslice child r _ => child.MachineWidths ∧ r < 2 ^ 31

namespace ComplexityEstimationVisitor

/-!
## The rules over the unbounded integers
-/

/-- The rules of `visitSimpleBinExpr` and `visitComplexBinExpr`. -/
def combine (op : BinaryOperator) (lhs rhs : Nat) : Nat :=
  if isComplex op then
    if 0 < lhs then
      if 0 < rhs then lhs * rhs else lhs
    else
      rhs
  else
    lhs + rhs

/-- The estimate of an expression by the rules of the visitor, without a bound. -/
def estimate : Node -> Except String Nat
  | .placeholder _ => .error "Placeholder is not allowed in ComplexityEstimationVisitor."
  | .variableExpr _ bitsize _ => .ok bitsize
  | .constant _ => .ok 0
  | .vectorExpr _ bitsize _ => .ok bitsize
  | .unaryOpr _ child => estimate child
  | .inside child _ => estimate child
  | .extendExpr child _ => estimate child
  | .binaryOpr op lhs rhs =>
      match estimate lhs with
      | .error e => .error e
      | .ok l =>
          match estimate rhs with
          | .error e => .error e
          | .ok r => .ok (combine op l r)
  | .vectorAccess _ _ =>
      .error "VectorAccess is not allowed in ComplexityEstimationVisitor."
  | .ifThenElse a b c =>
      match estimate a with
      | .error e => .error e
      | .ok x =>
          match estimate b with
          | .error e => .error e
          | .ok y =>
              match estimate c with
              | .error e => .error e
              | .ok z => .ok (x + y + z)
  | .forEach _ _ => .error "ForEach is not allowed in ComplexityEstimationVisitor."
  | .unique _ => .error "Unique is not allowed in ComplexityEstimationVisitor."
  | .bitslice child r l =>
      match estimate child with
      | .error e => .error e
      | .ok _ => .ok (r - l + 1)

/-!
## Lost factors

A factor whose estimate is a multiple of `2 ^ 32` is 0 as an `unsigned int`, and then the
rule for products takes the other factor alone.
-/

def isLost (n : Node) : Bool :=
  match estimate n with
  | .error _ => false
  | .ok u => decide (2 ^ 32 ∣ u)

/-- The expression without the factors that are lost, from the inside out. -/
def dropLost : Node -> Node
  | .placeholder id => .placeholder id
  | .variableExpr id bitsize sign => .variableExpr id bitsize sign
  | .constant c => .constant c
  | .vectorExpr id bitsize sign => .vectorExpr id bitsize sign
  | .unaryOpr op child => .unaryOpr op (dropLost child)
  | .inside child collection => .inside (dropLost child) collection
  | .extendExpr child value => .extendExpr (dropLost child) value
  | .binaryOpr op lhs rhs =>
      if isComplex op && isLost (dropLost lhs) then
        dropLost rhs
      else if isComplex op && isLost (dropLost rhs) then
        dropLost lhs
      else
        .binaryOpr op (dropLost lhs) (dropLost rhs)
  | .vectorAccess lhs rhs => .vectorAccess (dropLost lhs) (dropLost rhs)
  | .ifThenElse a b c => .ifThenElse (dropLost a) (dropLost b) (dropLost c)
  | .forEach lhs rhs => .forEach (dropLost lhs) (dropLost rhs)
  | .unique child => .unique (dropLost child)
  | .bitslice child r l => .bitslice (dropLost child) r l

section Lost

variable {n : Node} {u : Nat}

theorem isLost_of_ok (h : estimate n = .ok u) : isLost n = true ↔ 2 ^ 32 ∣ u := by
  rw [isLost, h, decide_eq_true_iff]

theorem isLost_of_error {e : String} (h : estimate n = .error e) : isLost n = false := by
  rw [isLost, h]

/-- A factor that is 0 in the machine leaves the other one alone. -/
theorem visitBinExpr_lost_left {op : BinaryOperator} (hop : isComplex op = true) {a : Nat}
    (ha : 2 ^ 32 ∣ a) (b : Nat) : visitBinExpr op (a % 2 ^ 32) b = b := by
  rw [Nat.mod_eq_zero_of_dvd ha, visitBinExpr, if_pos hop, if_neg (Nat.lt_irrefl 0)]

theorem visitBinExpr_lost_right {op : BinaryOperator} (hop : isComplex op = true) (a : Nat)
    {b : Nat} (hb : 2 ^ 32 ∣ b) : visitBinExpr op a (b % 2 ^ 32) = a := by
  rw [Nat.mod_eq_zero_of_dvd hb, visitBinExpr, if_pos hop, if_neg (Nat.lt_irrefl 0)]
  split
  · rfl
  · next hzero => exact (Nat.eq_zero_of_not_pos hzero).symm

theorem mod_pos_of_not_dvd {a : Nat} (h : ¬ 2 ^ 32 ∣ a) : 0 < a % 2 ^ 32 := by
  apply Nat.pos_of_ne_zero
  intro hzero
  exact h (Nat.dvd_of_mod_eq_zero hzero)

theorem pos_of_not_dvd {a : Nat} (h : ¬ 2 ^ 32 ∣ a) : 0 < a := by
  apply Nat.pos_of_ne_zero
  intro hzero
  rw [hzero] at h
  exact h (Nat.dvd_zero _)

/-- Without a lost factor the machine's rule is the unbounded one with the result reduced. -/
theorem visitBinExpr_mod {op : BinaryOperator} {a b : Nat}
    (ha : isComplex op = true -> ¬ 2 ^ 32 ∣ a) (hb : isComplex op = true -> ¬ 2 ^ 32 ∣ b) :
    visitBinExpr op (a % 2 ^ 32) (b % 2 ^ 32) = combine op a b % 2 ^ 32 := by
  unfold visitBinExpr combine
  split
  · next hop =>
      rw [if_pos (mod_pos_of_not_dvd (ha hop)), if_pos (mod_pos_of_not_dvd (hb hop)),
        if_pos (pos_of_not_dvd (ha hop)), if_pos (pos_of_not_dvd (hb hop))]
      exact (Nat.mul_mod a b (2 ^ 32)).symm
  · exact (Nat.add_mod a b (2 ^ 32)).symm

theorem estimate_dropLost_error {op : BinaryOperator} {lhs rhs : Node} {e : String}
    (h : estimate (dropLost lhs) = .error e ∨
      (exists a, estimate (dropLost lhs) = .ok a) ∧ estimate (dropLost rhs) = .error e) :
    estimate (dropLost (.binaryOpr op lhs rhs)) = .error e := by
  rw [dropLost]
  cases h with
  | inl hl =>
      rw [isLost_of_error hl, Bool.and_false, if_neg Bool.false_ne_true]
      split
      · exact hl
      · rw [estimate, hl]
  | inr hr =>
      rcases hr with ⟨⟨a, hl⟩, hr⟩
      split
      · exact hr
      · rw [isLost_of_error hr, Bool.and_false, if_neg Bool.false_ne_true, estimate, hl, hr]

/-- The machine's rule on the reduced estimates of the operands reduces the estimate of what
is left. -/
theorem estimate_dropLost_ok {op : BinaryOperator} {lhs rhs : Node} {a b : Nat}
    (hl : estimate (dropLost lhs) = .ok a) (hr : estimate (dropLost rhs) = .ok b) :
    exists v, estimate (dropLost (.binaryOpr op lhs rhs)) = .ok v ∧
      visitBinExpr op (a % 2 ^ 32) (b % 2 ^ 32) = v % 2 ^ 32 := by
  rw [dropLost]
  split
  · next hlost =>
      rw [Bool.and_eq_true, isLost_of_ok hl] at hlost
      exact ⟨b, hr, visitBinExpr_lost_left hlost.left hlost.right _⟩
  · next hkept =>
      split
      · next hlost =>
          rw [Bool.and_eq_true, isLost_of_ok hr] at hlost
          exact ⟨a, hl, visitBinExpr_lost_right hlost.left _ hlost.right⟩
      · next hkept' =>
          rw [Bool.and_eq_true, isLost_of_ok hl, not_and] at hkept
          rw [Bool.and_eq_true, isLost_of_ok hr, not_and] at hkept'
          exists combine op a b
          constructor
          · rw [estimate, hl, hr]
          · exact visitBinExpr_mod hkept hkept'

/-- The machine's estimate is the unbounded one of what is left, reduced once. -/
theorem visit_eq (h : n.MachineWidths) :
    visit n = (estimate (dropLost n)).map fun u => u % 2 ^ 32 := by
  induction n with
  | placeholder id => rfl
  | variableExpr id bitsize sign => exact congrArg Except.ok (Nat.mod_eq_of_lt h).symm
  | constant c => rfl
  | vectorExpr id bitsize sign => exact congrArg Except.ok (Nat.mod_eq_of_lt h).symm
  | unaryOpr op child ih => exact ih h
  | inside child collection ih => exact ih h
  | extendExpr child value ih => exact ih h
  | binaryOpr op lhs rhs ihl ihr =>
      rw [visit, ihl h.left, ihr h.right]
      cases hl : estimate (dropLost lhs) with
      | error e =>
          rw [estimate_dropLost_error (Or.inl hl)]
          rfl
      | ok a =>
          cases hr : estimate (dropLost rhs) with
          | error e =>
              rw [estimate_dropLost_error (Or.inr ⟨⟨a, hl⟩, hr⟩)]
              rfl
          | ok b =>
              rcases @estimate_dropLost_ok op lhs rhs a b hl hr with ⟨v, hv, hreduced⟩
              rw [hv]
              exact congrArg Except.ok hreduced
  | vectorAccess lhs rhs ihl ihr => rfl
  | ifThenElse a b c iha ihb ihc =>
      rw [visit, iha h.left, ihb h.right.left, ihc h.right.right, dropLost, estimate]
      cases estimate (dropLost a) with
      | error e => rfl
      | ok x =>
          cases estimate (dropLost b) with
          | error e => rfl
          | ok y =>
              cases estimate (dropLost c) with
              | error e => rfl
              | ok z =>
                  show Except.ok ((x % 2 ^ 32 + y % 2 ^ 32 + z % 2 ^ 32) % 2 ^ 32) =
                    Except.ok ((x + y + z) % 2 ^ 32)
                  congr 1
                  omega
  | forEach lhs rhs ihl ihr => rfl
  | unique child ih => rfl
  | bitslice child r l ih =>
      rw [visit, ih h.left, dropLost, estimate]
      cases estimate (dropLost child) with
      | error e => rfl
      | ok a =>
          show Except.ok (r - l + 1) = Except.ok ((r - l + 1) % 2 ^ 32)
          have hlt : r - l + 1 < 2 ^ 32 := by
            have hr := h.right
            omega
          rw [Nat.mod_eq_of_lt hlt]

theorem exists_estimate_of_visit (h : n.MachineWidths) {m : Nat} (hvisit : visit n = .ok m) :
    exists v, estimate (dropLost n) = .ok v ∧ m = v % 2 ^ 32 := by
  rw [visit_eq h] at hvisit
  cases hestimate : estimate (dropLost n) with
  | error e =>
      rw [hestimate] at hvisit
      cases hvisit
  | ok v =>
      rw [hestimate] at hvisit
      cases hvisit
      exact ⟨v, rfl, rfl⟩

end Lost

/-!
## Estimates that fit
-/

theorem visitBinExpr_of_lt {op : BinaryOperator} {a b : Nat} (h : combine op a b < 2 ^ 32) :
    visitBinExpr op a b = combine op a b := by
  unfold visitBinExpr combine at *
  split
  · next hop =>
      rw [if_pos hop] at h
      split
      · next ha =>
          rw [if_pos ha] at h
          split
          · next hb =>
              rw [if_pos hb] at h
              exact Nat.mod_eq_of_lt h
          · rfl
      · rfl
  · next hop =>
      rw [if_neg hop] at h
      exact Nat.mod_eq_of_lt h

/-- As long as nothing in an expression has an estimate of `2 ^ 32` or more, the machine's
estimate is the unbounded one. -/
theorem visit_of_lt {n : Node}
    (h : forall m, m ∈ n.subterms -> forall u, estimate m = .ok u -> u < 2 ^ 32) :
    visit n = estimate n := by
  induction n with
  | placeholder id => rfl
  | variableExpr id bitsize sign => rfl
  | constant c => rfl
  | vectorExpr id bitsize sign => rfl
  | unaryOpr op child ih => exact ih fun m hm => h m (List.mem_cons_of_mem _ hm)
  | inside child collection ih => exact ih fun m hm => h m (List.mem_cons_of_mem _ hm)
  | extendExpr child value ih => exact ih fun m hm => h m (List.mem_cons_of_mem _ hm)
  | binaryOpr op lhs rhs ihl ihr =>
      have hself := h _ List.mem_cons_self
      have hl := ihl fun m hm => h m (List.mem_cons_of_mem _ (List.mem_append_left _ hm))
      have hr := ihr fun m hm => h m (List.mem_cons_of_mem _ (List.mem_append_right _ hm))
      rw [estimate] at hself
      rw [visit, estimate, hl, hr]
      cases hlhs : estimate lhs with
      | error e => rfl
      | ok a =>
          cases hrhs : estimate rhs with
          | error e => rfl
          | ok b =>
              rw [hlhs, hrhs] at hself
              exact congrArg Except.ok (visitBinExpr_of_lt (hself _ rfl))
  | vectorAccess lhs rhs ihl ihr => rfl
  | ifThenElse a b c iha ihb ihc =>
      have hself := h _ List.mem_cons_self
      have ha := iha fun m hm => h m (List.mem_cons_of_mem _
        (List.mem_append_left _ (List.mem_append_left _ hm)))
      have hb := ihb fun m hm => h m (List.mem_cons_of_mem _
        (List.mem_append_left _ (List.mem_append_right _ hm)))
      have hc := ihc fun m hm => h m (List.mem_cons_of_mem _ (List.mem_append_right _ hm))
      rw [estimate] at hself
      rw [visit, estimate, ha, hb, hc]
      cases hx : estimate a with
      | error e => rfl
      | ok x =>
          cases hy : estimate b with
          | error e => rfl
          | ok y =>
              cases hz : estimate c with
              | error e => rfl
              | ok z =>
                  rw [hx, hy, hz] at hself
                  exact congrArg Except.ok (Nat.mod_eq_of_lt (hself _ rfl))
  | forEach lhs rhs ihl ihr => rfl
  | unique child ih => rfl
  | bitslice child r l ih =>
      have hchild := ih fun m hm => h m (List.mem_cons_of_mem _ hm)
      cases hestimate : estimate child with
      | error e => rw [visit, hchild, estimate, hestimate]
      | ok u => rw [visit, hchild, estimate, hestimate]

end ComplexityEstimationVisitor

/-!
## The widths of constraints
-/

section Widths

open FixWidthVisitor

variable {variables_ vectors_ : Declarations} {n : Node}

theorem machineWidths_evalBinExpr {fst snd : StackEntry} (hfst : fst.1.MachineWidths)
    (hsnd : snd.1.MachineWidths) :
    (evalBinExpr fst snd).1.1.MachineWidths ∧ (evalBinExpr fst snd).2.1.MachineWidths := by
  unfold evalBinExpr
  split
  · exact ⟨hfst, hsnd⟩
  · split
    · exact ⟨hfst, hsnd⟩
    · exact ⟨hfst, hsnd⟩

/-- The variables and vectors that can be declared have at most 64 bits. -/
theorem machineWidths_of_builds
    (hvariables : forall id d, variables_ id = some d -> d.bitsize ≤ 64)
    (hvectors : forall id d, vectors_ id = some d -> d.bitsize ≤ 64)
    (h : Context.Builds variables_ vectors_ n) : n.MachineWidths := by
  have hwidth : forall bitsize, bitsize ≤ 64 -> bitsize < 2 ^ 31 := by
    intro bitsize hle
    omega
  induction n with
  | placeholder id => trivial
  | variableExpr id bitsize sign =>
      exact lt_trans (hwidth _ (hvariables id ⟨bitsize, sign⟩ h)) (by decide)
  | constant c => trivial
  | vectorExpr id bitsize sign =>
      exact lt_trans (hwidth _ (hvectors id ⟨bitsize, sign⟩ h)) (by decide)
  | unaryOpr op child ih => exact ih h
  | inside child collection ih =>
      rcases h with ⟨id, bitsize, sign, rfl, hid, _⟩
      exact ih hid
  | extendExpr child value ih => exact absurd h id
  | binaryOpr op lhs rhs ihl ihr => exact ⟨ihl h.left, ihr h.right⟩
  | vectorAccess lhs rhs ihl ihr =>
      rcases h with ⟨⟨id, bitsize, sign, rfl, hid⟩, hrhs⟩
      exact ⟨ihl hid, ihr hrhs⟩
  | ifThenElse a b c iha ihb ihc => exact ⟨iha h.left, ihb h.right.left, ihc h.right.right⟩
  | forEach lhs rhs ihl ihr => exact ⟨ihl h.left, ihr h.right⟩
  | unique child ih => exact ih h
  | bitslice child r l ih =>
      rcases h with ⟨id, bitsize, sign, rfl, hid, _, hr⟩
      exact ⟨ih hid, hwidth _ (le_of_lt (lt_of_lt_of_le hr (hvariables id _ hid)))⟩

theorem Node.MachineWidths.fixWidth (h : n.MachineWidths) :
    (FixWidthVisitor.fixWidth n).MachineWidths := by
  unfold FixWidthVisitor.fixWidth
  induction n with
  | placeholder id => trivial
  | variableExpr id bitsize sign => exact h
  | constant c => trivial
  | vectorExpr id bitsize sign => exact h
  | unaryOpr op child ih => exact ih h
  | inside child collection ih => exact ih h
  | extendExpr child value ih => exact ih h
  | binaryOpr op lhs rhs ihl ihr =>
      rw [visit, visitBinaryOpr_eq]
      exact machineWidths_evalBinExpr (ihl h.left) (ihr h.right)
  | vectorAccess lhs rhs ihl ihr => exact ⟨ihl h.left, ihr h.right⟩
  | ifThenElse a b c iha ihb ihc => exact ⟨iha h.left, ihb h.right.left, ihc h.right.right⟩
  | forEach lhs rhs ihl ihr => exact ⟨ihl h.left, ihr h.right⟩
  | unique child ih => exact ih h
  | bitslice child r l ih => exact ⟨ih h.left, h.right⟩

end Widths

/-!
## The complexity of a constraint
-/

open ComplexityEstimationVisitor in
theorem ConstraintManager.complexity_makeConstraint {mng mng' : ConstraintManager}
    {name : String} {c_id : Nat} {n : Node} {soft cover : Bool}
    (h : mng.makeConstraint name c_id n soft cover = .ok mng') {u : Nat}
    (hestimate : estimate n = .ok u) :
    exists c, mng'.constraints_ = mng.constraints_ ++ [c] ∧ c.expr_ = n ∧
      c.isVectorConstraint = false ∧ visit n = .ok c.complexity_ := by
  have hforEach : n.isForEach = false := by
    cases n with
    | forEach lhs rhs => cases hestimate
    | _ => rfl
  have hunique : n.isUnique = false := by
    cases n with
    | unique child => cases hestimate
    | _ => rfl
  unfold makeConstraint at h
  rw [hforEach, hunique, if_neg Bool.false_ne_true, if_neg Bool.false_ne_true] at h
  split at h
  · cases h
  · simp only at h
    split at h
    · cases h
    · split at h
      · cases h
      · split at h
        · cases h
        · next complexity_ hvisit =>
            cases h
            exact ⟨_, rfl, rfl, rfl, hvisit⟩

end Ir
end Crave
