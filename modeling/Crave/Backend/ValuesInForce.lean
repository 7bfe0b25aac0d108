import Crave.Backend.VariableCoverageSolver
import Crave.Backend.VariableDefaultSolver
import Mathlib.Order.CompletePartialOrder

/-!
# The values in force

A solution leaves the values of the referenced program variables behind.  The
module says when constraints hold of these values, how the solutions of several
partitions are put together, and what a solver establishes for its partition.
-/

namespace Crave
namespace Backend

open Foundation Ir MetaSMTVisitor

/-!
## References and their values
-/

namespace VariableContainer

def references (vcon : VariableContainer) : List (Nat × Nat) :=
  vcon.read_references ++ vcon.write_references

end VariableContainer

/-- The bits of a variable are those of the program variable behind it. -/
def RefersTo (vcon : VariableContainer) (m : Model SolverVar) (memory : Memory)
    (pair : Nat × Nat) : Prop :=
  BitVec.ofNat (vcon.declOf pair.1).bitsize (m (.terminal pair.1)) =
    BitVec.ofNat (vcon.declOf pair.1).bitsize (memory pair.2)

/-- Constraints hold of the program variables, for some values of the variables
that have no program variable behind them. -/
def InForce (vcon : VariableContainer) (memory : Memory) (cs : List UserConstraint) : Prop :=
  exists m, (forall pair, pair ∈ vcon.references -> RefersTo vcon m memory pair) ∧
    forall c, c ∈ cs -> NodeHolds m c.expr_

def locationOf (refs : List (Nat × Nat)) (id : Nat) : Option Nat :=
  (refs.find? fun pair => pair.1 == id).map Prod.snd

theorem locationOf_eq {refs : List (Nat × Nat)} (hnodup : (refs.map Prod.fst).Nodup)
    {pair : Nat × Nat} (h : pair ∈ refs) : locationOf refs pair.1 = some pair.2 := by
  induction refs with
  | nil => cases h
  | cons first rest ih =>
      rw [List.map_cons, List.nodup_cons] at hnodup
      unfold locationOf
      rcases List.mem_cons.mp h with rfl | hrest
      · simp
      · have hne : (first.1 == pair.1) = false := by
          rw [beq_eq_false_iff_ne]
          intro heq
          exact hnodup.1 (heq ▸ List.mem_map_of_mem hrest)
        rw [List.find?_cons, hne]
        exact ih hnodup.2 hrest

theorem locationOf_eq_none {refs : List (Nat × Nat)} {id : Nat}
    (h : id ∉ refs.map Prod.fst) : locationOf refs id = none := by
  unfold locationOf
  rw [Option.map_eq_none_iff, List.find?_eq_none]
  intro pair hpair heq
  exact h ((beq_iff_eq.mp heq) ▸ List.mem_map_of_mem hpair)

/-- The assignment that combines what was read back: read references have the
value from before, write references the one from after, and other variables the
value that the solvers report. -/
def assignment (vcon : VariableContainer) (before after : Memory) (read : Nat -> Nat) :
    Model SolverVar
  | .terminal id =>
      match locationOf vcon.read_references id with
      | some loc => before loc
      | none =>
          match locationOf vcon.write_references id with
          | some loc => after loc
          | none => read id
  | .selector _ => 0

section Assignment

variable {vcon : VariableContainer} {before after : Memory} {read : Nat -> Nat}

theorem assignment_read {pair : Nat × Nat} (h : pair ∈ vcon.read_references) :
    assignment vcon before after read (.terminal pair.1) = before pair.2 := by
  have hnodup : (vcon.read_references.map Prod.fst).Nodup :=
    (List.nodup_append.mp (List.nodup_append.mp vcon.ids_nodup).1).1
  simp only [assignment, locationOf_eq hnodup h]

theorem assignment_write {pair : Nat × Nat} (h : pair ∈ vcon.write_references) :
    assignment vcon before after read (.terminal pair.1) = after pair.2 := by
  have hids := List.nodup_append.mp (List.nodup_append.mp vcon.ids_nodup).1
  have hread : pair.1 ∉ vcon.read_references.map Prod.fst := by
    intro hmem
    exact hids.2.2 _ hmem _ (List.mem_map_of_mem h) rfl
  simp only [assignment, locationOf_eq_none hread, locationOf_eq hids.2.1 h]

theorem assignment_other {id : Nat} (h : id ∉ vcon.references.map Prod.fst) :
    assignment vcon before after read (.terminal id) = read id := by
  rw [VariableContainer.references, List.map_append, List.mem_append, not_or] at h
  simp only [assignment, locationOf_eq_none h.1, locationOf_eq_none h.2]

theorem refersTo_assignment (memory : Memory) (read : Nat -> Nat) {pair : Nat × Nat}
    (h : pair ∈ vcon.references) :
    RefersTo vcon (assignment vcon memory memory read) memory pair := by
  unfold RefersTo
  rcases List.mem_append.mp h with h | h
  · rw [assignment_read h]
  · rw [assignment_write h]

end Assignment

/-!
## Partitions and the values in force
-/

theorem InForce.mono {vcon : VariableContainer} {memory : Memory}
    {cs ds : List UserConstraint} (h : InForce vcon memory ds)
    (hsub : forall c, c ∈ cs -> c ∈ ds) : InForce vcon memory cs := by
  rcases h with ⟨m, hrefs, hholds⟩
  exact ⟨m, hrefs, fun c hc => hholds c (hsub c hc)⟩

/-- The model that gives the identifiers the given values. -/
def modelOf (values : Nat -> Nat) : Model SolverVar
  | .terminal id => values id
  | .selector _ => 0

theorem local_nodeHolds {variables_ : Declarations} {c : UserConstraint}
    (hc : c.Made variables_) :
    Local UserConstraint.support_vars_
      (fun values c => NodeHolds (modelOf values) c.expr_) c := by
  intro m m' hm
  refine nodeHolds_congr hc.declared fun id d hid _ => ?_
  rw [← hc.support] at hid
  exact congrArg (BitVec.ofNat d.bitsize) (hm id hid)

/-- What a value must be for the references to a variable. -/
def Allowed (vcon : VariableContainer) (memory : Memory) (id value : Nat) : Prop :=
  forall loc, (id, loc) ∈ vcon.references ->
    BitVec.ofNat (vcon.declOf id).bitsize value =
      BitVec.ofNat (vcon.declOf id).bitsize (memory loc)

theorem inForce_iff {vcon : VariableContainer} {memory : Memory} {cs : List UserConstraint}
    (hmade : forall c, c ∈ cs -> c.Made vcon.variables_) :
    InForce vcon memory cs ↔ exists values : Nat -> Nat,
      (forall id, Allowed vcon memory id (values id)) ∧
        forall c, c ∈ cs -> NodeHolds (modelOf values) c.expr_ := by
  constructor
  · rintro ⟨m, hrefs, hholds⟩
    refine ⟨fun id => m (.terminal id), fun id loc hloc => hrefs (id, loc) hloc, ?_⟩
    intro c hc
    have hcongr : NodeHolds (modelOf fun id => m (.terminal id)) c.expr_ ↔
        NodeHolds m c.expr_ :=
      nodeHolds_congr (hmade c hc).declared fun id d _ _ => rfl
    exact hcongr.mpr (hholds c hc)
  · rintro ⟨values, hallowed, hholds⟩
    exact ⟨modelOf values, fun pair hpair => hallowed pair.1 pair.2 hpair, hholds⟩

/-- Lists of constraints without a common variable can be checked one by one. -/
theorem inForce_flatten {vcon : VariableContainer} {memory : Memory}
    {parts : List (List UserConstraint)}
    (hmade : forall cs, cs ∈ parts -> forall c, c ∈ cs -> c.Made vcon.variables_)
    (hseparate : parts.Pairwise (Separate UserConstraint.support_vars_))
    (h : forall cs, cs ∈ parts -> InForce vcon memory cs) :
    InForce vcon memory parts.flatten := by
  have hflatten : forall c, c ∈ parts.flatten -> c.Made vcon.variables_ := by
    intro c hc
    rcases List.mem_flatten.mp hc with ⟨cs, hcs, hc⟩
    exact hmade cs hcs c hc
  have hallowed : exists values : Nat -> Nat,
      forall id, Allowed vcon memory id (values id) :=
    ⟨fun id => assignment vcon memory memory (fun _ => 0) (.terminal id),
      fun id loc hloc => refersTo_assignment memory _ hloc⟩
  rcases exists_glued (fun cs hcs c hc => local_nodeHolds (hmade cs hcs c hc)) hseparate
    hallowed (fun cs hcs => (inForce_iff (hmade cs hcs)).mp (h cs hcs)) with
    ⟨values, hvalues, hholds⟩
  refine (inForce_iff hflatten).mpr ⟨values, hvalues, fun c hc => ?_⟩
  rcases List.mem_flatten.mp hc with ⟨cs, hcs, hc⟩
  exact hholds cs hcs c hc

/-!
## What a solver establishes
-/

/-- The program variables behind the given variables are read or written, but
not both. -/
def Unwritten (vcon : VariableContainer) (support : Set Nat) : Prop :=
  forall r, r ∈ vcon.read_references -> r.1 ∈ support ->
    forall q, q ∈ vcon.write_references -> q.1 ∈ support -> r.2 ≠ q.2

theorem Unwritten.mono {vcon : VariableContainer} {s t : Set Nat} (h : Unwritten vcon t)
    (hsub : s ⊆ t) : Unwritten vcon s :=
  fun r hr hrs q hq hqs => h r hr (hsub hrs) q hq (hsub hqs)

/-- The program variables behind the given variables have the same values. -/
def SameAt (vcon : VariableContainer) (support : Set Nat) (before after : Memory) : Prop :=
  forall pair, pair ∈ vcon.references -> pair.1 ∈ support -> after pair.2 = before pair.2

/-- The program variables that are read for the given variables have the same values. -/
def SameReads (vcon : VariableContainer) (support : Set Nat) (before after : Memory) : Prop :=
  forall pair, pair ∈ vcon.read_references -> pair.1 ∈ support -> after pair.2 = before pair.2

/-- No program variable was written but those behind the given variables. -/
def WrittenOnly (vcon : VariableContainer) (support : Set Nat) (before after : Memory) : Prop :=
  forall loc, (forall q, q ∈ vcon.write_references -> q.1 ∈ support -> q.2 ≠ loc) ->
    after loc = before loc

section Written

variable {vcon : VariableContainer} {s t : Set Nat} {before between after : Memory}

theorem SameAt.symm (h : SameAt vcon s before after) : SameAt vcon s after before :=
  fun pair hpair hid => (h pair hpair hid).symm

theorem SameAt.mono (h : SameAt vcon t before after) (hsub : s ⊆ t) :
    SameAt vcon s before after :=
  fun pair hpair hid => h pair hpair (hsub hid)

theorem SameAt.reads (h : SameAt vcon s before after) : SameReads vcon s before after :=
  fun pair hpair hid => h pair (List.mem_append_left _ hpair) hid

theorem SameReads.refl (memory : Memory) : SameReads vcon s memory memory :=
  fun _ _ _ => rfl

theorem SameReads.mono (h : SameReads vcon t before after) (hsub : s ⊆ t) :
    SameReads vcon s before after :=
  fun pair hpair hid => h pair hpair (hsub hid)

theorem SameReads.trans (h : SameReads vcon s before between)
    (h' : SameReads vcon s between after) : SameReads vcon s before after :=
  fun pair hpair hid => (h' pair hpair hid).trans (h pair hpair hid)

theorem WrittenOnly.refl (memory : Memory) : WrittenOnly vcon s memory memory :=
  fun _ _ => rfl

theorem WrittenOnly.mono (h : WrittenOnly vcon s before after) (hsub : s ⊆ t) :
    WrittenOnly vcon t before after :=
  fun loc hloc => h loc fun q hq hqs => hloc q hq (hsub hqs)

theorem WrittenOnly.trans (h : WrittenOnly vcon s before between)
    (h' : WrittenOnly vcon s between after) : WrittenOnly vcon s before after :=
  fun loc hloc => (h' loc hloc).trans (h loc hloc)

theorem write_eq_of_location {p q : Nat × Nat} (hp : p ∈ vcon.write_references)
    (hq : q ∈ vcon.write_references) (h : p.2 = q.2) : p = q :=
  List.inj_on_of_nodup_map vcon.locations_nodup hp hq h

theorem WrittenOnly.sameAt (h : WrittenOnly vcon t before after)
    (hunwritten : Unwritten vcon (s ∪ t)) (hdisjoint : Disjoint s t) :
    SameAt vcon s before after := by
  intro pair hpair hid
  apply h
  intro q hq hqt heq
  rcases List.mem_append.mp hpair with hread | hwrite
  · exact hunwritten pair hread (Or.inl hid) q hq (Or.inr hqt) heq.symm
  · have hsame : pair = q := write_eq_of_location hwrite hq heq.symm
    rw [hsame] at hid
    exact Set.disjoint_left.mp hdisjoint hid hqt

theorem WrittenOnly.read (h : WrittenOnly vcon s before after)
    (hunwritten : Unwritten vcon s) {pair : Nat × Nat} (hpair : pair ∈ vcon.read_references)
    (hid : pair.1 ∈ s) : after pair.2 = before pair.2 :=
  h pair.2 fun q hq hqs heq => hunwritten pair hpair hid q hq hqs heq.symm

theorem WrittenOnly.sameReads (h : WrittenOnly vcon s before after)
    (hunwritten : Unwritten vcon s) : SameReads vcon s before after :=
  fun _ hpair hid => h.read hunwritten hpair hid

theorem writtenOnly_writeBack (solver_ : MetaSMTVisitor) (support : Finset Nat)
    (memory : Memory) :
    WrittenOnly vcon support memory
      (writeBack solver_ (vcon.restrict support).write_references memory) := by
  intro loc hloc
  apply writeBack_of_not_mem
  intro hmem
  rcases List.mem_map.mp hmem with ⟨q, hq, heq⟩
  rcases VariableContainer.mem_select.mp hq with ⟨hq, hid⟩
  exact hloc q hq hid heq

end Written

/-- The last model of a solver satisfies some constraints, the solver has met
their variables, and the memory holds the values of the model. -/
structure Settled (vcon : VariableContainer) (cs : List UserConstraint) (s : MetaSMTVisitor)
    (memory : Memory) : Prop where
  holds : forall c, c ∈ cs -> NodeHolds s.model c.expr_
  met : forall c, c ∈ cs -> forall id, id ∈ c.support_vars_ ->
    exists d, vcon.variables_ id = some d ∧ s.terminals_ id = some d.bitsize
  refs : forall c, c ∈ cs -> forall id, id ∈ c.support_vars_ ->
    forall loc, (id, loc) ∈ vcon.references -> RefersTo vcon s.model memory (id, loc)

section Settled

variable {vcon : VariableContainer} {cs : List UserConstraint} {s : MetaSMTVisitor}
  {before after memory : Memory}

theorem Settled.frame (h : Settled vcon cs s before) {support : Set Nat}
    (hsub : forall c, c ∈ cs -> forall id, id ∈ c.support_vars_ -> id ∈ support)
    (hsame : SameAt vcon support before after) : Settled vcon cs s after := by
  refine ⟨h.holds, h.met, fun c hc id hid loc hloc => ?_⟩
  have hrefs := h.refs c hc id hid loc hloc
  unfold RefersTo at hrefs ⊢
  rw [hrefs, hsame (id, loc) hloc (hsub c hc id hid)]

theorem Settled.mono {ds : List UserConstraint} (h : Settled vcon ds s memory)
    (hsub : forall c, c ∈ cs -> c ∈ ds) : Settled vcon cs s memory :=
  ⟨fun c hc => h.holds c (hsub c hc), fun c hc => h.met c (hsub c hc),
    fun c hc => h.refs c (hsub c hc)⟩

/-- Settled constraints hold in every assignment that takes the other variables from the
model. -/
theorem Settled.nodeHolds (h : Settled vcon cs s after) {read : Nat -> Nat}
    {c : UserConstraint} (hc : c ∈ cs) (hmade : c.Made vcon.variables_)
    (hbefore : forall pair, pair ∈ vcon.read_references -> pair.1 ∈ c.support_vars_ ->
      after pair.2 = before pair.2)
    (hread : forall id d, id ∈ c.support_vars_ -> vcon.variables_ id = some d ->
      BitVec.ofNat d.bitsize (read id) = BitVec.ofNat d.bitsize (s.model (.terminal id))) :
    NodeHolds (assignment vcon before after read) c.expr_ := by
  refine (nodeHolds_congr hmade.declared fun id d hid hd => ?_).mpr (h.holds c hc)
  rw [← hmade.support] at hid
  unfold Term.AgreeAt
  by_cases href : id ∈ vcon.references.map Prod.fst
  · rcases List.mem_map.mp href with ⟨pair, hpair, rfl⟩
    have hrefs := h.refs c hc pair.1 hid pair.2 hpair
    unfold RefersTo at hrefs
    rw [VariableContainer.variables_declOf hd] at hrefs
    rcases List.mem_append.mp hpair with hpair | hpair
    · rw [assignment_read hpair, hrefs, hbefore pair hpair hid]
    · rw [assignment_write hpair, hrefs]
  · rw [assignment_other href]
    exact hread id d hid hd

theorem Settled.inForce (hmade : forall c, c ∈ cs -> c.Made vcon.variables_)
    (h : Settled vcon cs s memory) : InForce vcon memory cs := by
  refine ⟨assignment vcon memory memory fun id => s.model (.terminal id),
    fun pair hpair => refersTo_assignment memory _ hpair, fun c hc => ?_⟩
  exact h.nodeHolds hc (hmade c hc) (fun _ _ _ => rfl) fun _ _ _ _ => rfl

/-- Constraints stay in force when the program variables of their variables keep
their values. -/
theorem InForce.frame (hmade : forall c, c ∈ cs -> c.Made vcon.variables_)
    (h : InForce vcon before cs) {support : Set Nat}
    (hsub : forall c, c ∈ cs -> forall id, id ∈ c.support_vars_ -> id ∈ support)
    (hsame : SameAt vcon support before after) : InForce vcon after cs := by
  rcases h with ⟨m, hrefs, hholds⟩
  refine ⟨assignment vcon after after fun id => m (.terminal id),
    fun pair hpair => refersTo_assignment after _ hpair, fun c hc => ?_⟩
  refine (nodeHolds_congr (hmade c hc).declared fun id d hid hd => ?_).mpr (hholds c hc)
  rw [← (hmade c hc).support] at hid
  by_cases href : id ∈ vcon.references.map Prod.fst
  · rcases List.mem_map.mp href with ⟨pair, hpair, rfl⟩
    have hbefore := hrefs pair hpair
    have hafter := refersTo_assignment after (fun id => m (.terminal id)) hpair
    unfold RefersTo at hbefore hafter
    rw [VariableContainer.variables_declOf hd] at hbefore hafter
    rw [hsame pair hpair (hsub c hc pair.1 hid)] at hafter
    exact hafter.trans hbefore.symm
  · unfold Term.AgreeAt
    rw [assignment_other href]

theorem declOf_restrict {support : Finset Nat} {id : Nat} (h : id ∈ support) :
    (vcon.restrict support).declOf id = vcon.declOf id := by
  simp only [VariableContainer.declOf, VariableContainer.restrict, if_pos h]

/-- The equations of the read references in the model of an instance. -/
theorem refersTo_of_satisfies {support : Finset Nat} {m : Model SolverVar}
    (h : Term.Satisfies m (referenceFormulas (vcon.restrict support) memory
      (vcon.restrict support).read_references))
    {pair : Nat × Nat} (hpair : pair ∈ vcon.read_references) (hid : pair.1 ∈ support) :
    RefersTo vcon m memory pair := by
  have hmem : pair ∈ (vcon.restrict support).read_references :=
    VariableContainer.mem_select.mpr ⟨hpair, hid⟩
  have hholds := h _ (List.mem_map_of_mem hmem)
  rw [holds_equalTrue, holds_formula, declOf_restrict hid] at hholds
  have hle := (vcon.supported _ _ (VariableContainer.variables_of_read hpair)).2
  exact (nodeHolds_equalConstant m pair.1 hle (memory pair.2)).mp hholds

/-- The equations hold in a model with the values of the read references. -/
theorem satisfies_of_refersTo {support : Finset Nat} {m : Model SolverVar}
    (h : forall pair, pair ∈ vcon.read_references -> pair.1 ∈ support ->
      RefersTo vcon m memory pair) :
    Term.Satisfies m (referenceFormulas (vcon.restrict support) memory
      (vcon.restrict support).read_references) := by
  intro f hf
  rcases List.mem_map.mp hf with ⟨pair, hpair, rfl⟩
  rcases VariableContainer.mem_select.mp hpair with ⟨hread, hid⟩
  rw [holds_equalTrue, holds_formula, declOf_restrict hid]
  have hle := (vcon.supported _ _ (VariableContainer.variables_of_read hread)).2
  exact (nodeHolds_equalConstant m pair.1 hle (memory pair.2)).mpr (h pair hread hid)

/-- A call that ends with a model of the constraints and of the values of the
read references, and writes the model back, settles the constraints. -/
theorem settled_of_model {support : Finset Nat}
    (hunwritten : Unwritten vcon support)
    (hsub : forall c, c ∈ cs -> c.support_vars_ ⊆ support)
    (hholds : forall c, c ∈ cs -> NodeHolds s.model c.expr_)
    (hmet : forall c, c ∈ cs -> forall id, id ∈ c.support_vars_ ->
      exists d, vcon.variables_ id = some d ∧ s.terminals_ id = some d.bitsize)
    (hrefs : Term.Satisfies s.model (referenceFormulas (vcon.restrict support) before
      (vcon.restrict support).read_references))
    (hafter : after = writeBack s (vcon.restrict support).write_references before) :
    Settled vcon cs s after := by
  refine ⟨hholds, hmet, fun c hc id hid loc hloc => ?_⟩
  have hsupport := hsub c hc hid
  rcases List.mem_append.mp hloc with hread | hwrite
  · have hsame : after loc = before loc := by
      rw [hafter]
      exact (writtenOnly_writeBack s support before).read hunwritten hread hsupport
    have hbits := refersTo_of_satisfies hrefs hread hsupport
    unfold RefersTo at hbits ⊢
    rw [hbits, hsame]
  · rcases hmet c hc id hid with ⟨d, hd, hterminal⟩
    have hmem : (id, loc) ∈ (vcon.restrict support).write_references :=
      VariableContainer.mem_select.mpr ⟨hwrite, hsupport⟩
    have hvalue : after loc = s.model (.terminal id) % 2 ^ d.bitsize := by
      rw [hafter, writeBack_of_mem (vcon.restrict support).locations_nodup hmem,
        MetaSMTVisitor.read, hterminal]
      rfl
    unfold RefersTo
    rw [VariableContainer.variables_declOf hd, hvalue]
    apply BitVec.eq_of_toNat_eq
    rw [BitVec.toNat_ofNat, BitVec.toNat_ofNat, Nat.mod_mod]

end Settled

end Backend
end Crave
