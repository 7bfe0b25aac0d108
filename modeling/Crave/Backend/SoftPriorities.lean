import Crave.Backend.BddSolvers
import Crave.Backend.GeneratorSoundness
import Crave.Foundation.Greedy

/-!
# Priorities of soft constraints

The soft constraints of a partition are tried from the newest to the oldest, and one is
accepted when it agrees with the hard constraints and with those accepted before it.
The names of the others are reported.
-/

namespace Crave
namespace Backend

open Foundation Ir MetaSMTVisitor

namespace MetaSMTVisitor

/-- The positions, counted from `i` on, of the flags that are not set. -/
def positions : Nat -> List Bool -> List Nat
  | _, [] => []
  | i, true :: flags => positions (i + 1) flags
  | i, false :: flags => i :: positions (i + 1) flags

theorem le_of_mem_positions {i j : Nat} {flags : List Bool} (h : j ∈ positions i flags) :
    i ≤ j := by
  induction flags generalizing i with
  | nil => cases h
  | cons b flags ih =>
      cases b with
      | true => exact Nat.le_of_succ_le (ih h)
      | false =>
          cases List.mem_cons.mp h with
          | inl heq => exact Nat.le_of_eq heq.symm
          | inr hmem => exact Nat.le_of_succ_le (ih hmem)

/-- With a sound and complete oracle the analysis makes the greedy choices. -/
theorem analyseSoftsFrom_choices {o : Oracle SolverVar} (hsound : o.Sound)
    (hcomplete : o.Complete) {base kept : List Formula} (i : Nat) (fs : List Formula)
    {s : MetaSMTVisitor} (hs : s.assertions = base ++ kept) (time : Nat) :
    (analyseSoftsFrom o i fs s time).1 = positions i
        (choices (fun gs => Term.Satisfiable (base ++ gs)) kept (fs.map equalTrue)) ∧
      (analyseSoftsFrom o i fs s time).2.1.assertions = base ++ kept ++
        keep (choices (fun gs => Term.Satisfiable (base ++ gs)) kept (fs.map equalTrue))
          (fs.map equalTrue) := by
  induction fs generalizing kept i s time with
  | nil =>
      constructor
      · rfl
      · show s.assertions = base ++ kept ++ []
        rw [hs, List.append_nil]
  | cons f rest ih =>
      simp only [analyseSoftsFrom, List.map_cons, choices]
      split
      · next m hm =>
          have hsat : Term.Satisfiable (base ++ (kept ++ [equalTrue f])) := by
            rw [← List.append_assoc, ← hs]
            exact ⟨m, hsound _ _ _ hm⟩
          have hs' : s.assertions ++ [equalTrue f] = base ++ (kept ++ [equalTrue f]) := by
            rw [hs, List.append_assoc]
          rw [if_pos hsat]
          have hrest := ih (i + 1) (s := { s with
            assertions := s.assertions ++ [equalTrue f], model := m }) hs' (time + 1)
          constructor
          · exact hrest.left
          · rw [hrest.right]
            simp only [keep, List.append_assoc, List.singleton_append]
      · next hnone =>
          have hunsat : ¬ Term.Satisfiable (base ++ (kept ++ [equalTrue f])) := by
            rw [← List.append_assoc, ← hs]
            exact (Oracle.eq_none_iff hsound hcomplete _ _).mp hnone
          rw [if_neg hunsat]
          have hrest := ih (i + 1) hs (time + 1)
          constructor
          · exact congrArg (i :: ·) hrest.left
          · exact hrest.right

end MetaSMTVisitor

namespace VariableDefaultSolver

/-!
## The names of the constraints that are rejected
-/

/-- The soft constraints of a partition in the order of the partition. -/
def softs (cp : ConstraintPartition) : List UserConstraint :=
  cp.constraints_.filter UserConstraint.soft_

theorem softNames_nil (cs : List UserConstraint) (cnt : Nat) : softNames cs [] cnt = [] := by
  cases cs <;> rfl

theorem softNames_of_not_soft {c : UserConstraint} (hsoft : ¬ c.soft_ = true)
    (rest : List UserConstraint) (result : List Nat) (cnt : Nat) :
    softNames (c :: rest) result cnt = softNames rest result cnt := by
  cases result with
  | nil => rw [softNames_nil, softNames_nil]
  | cons i result => rw [softNames, if_neg hsoft]

/-- A soft constraint whose position is not the next one of the list is passed over. -/
theorem softNames_of_later {c : UserConstraint} (hsoft : c.soft_ = true)
    (rest : List UserConstraint) {result : List Nat} {cnt : Nat}
    (hlater : forall i, i ∈ result -> cnt < i) :
    softNames (c :: rest) result cnt = softNames rest result (cnt + 1) := by
  cases result with
  | nil => rw [softNames_nil, softNames_nil]
  | cons i result =>
      have hne : i ≠ cnt := Nat.ne_of_gt (hlater i List.mem_cons_self)
      rw [softNames, if_pos hsoft, if_neg hne]

/-- The positions that were rejected lead back to the names of the constraints. -/
theorem softNames_positions (cs : List UserConstraint) {flags : List Bool} (cnt : Nat)
    (hlength : flags.length = (cs.filter UserConstraint.soft_).length) :
    softNames cs (positions cnt flags) cnt =
      (leave flags (cs.filter UserConstraint.soft_)).map UserConstraint.name_ := by
  induction cs generalizing flags cnt with
  | nil =>
      rw [List.length_eq_zero_iff.mp hlength]
      rfl
  | cons c rest ih =>
      by_cases hsoft : c.soft_ = true
      · rw [List.filter_cons_of_pos hsoft] at hlength ⊢
        cases flags with
        | nil => cases hlength
        | cons b flags =>
            have hrest := ih (cnt + 1) (Nat.succ.inj hlength)
            cases b with
            | true =>
                rw [positions, softNames_of_later hsoft rest, hrest]
                · rfl
                · intro i hi
                  exact le_of_mem_positions hi
            | false =>
                rw [positions, softNames, if_pos hsoft, if_pos rfl, hrest]
                rfl
      · rw [List.filter_cons_of_neg hsoft] at hlength ⊢
        rw [softNames_of_not_soft hsoft]
        exact ih cnt hlength

/-!
## The accepted constraints
-/

/-- What is asserted of a soft constraint that is accepted. -/
def softFormula (c : UserConstraint) : Formula :=
  equalTrue (formula c.expr_)

/-- The soft constraints agree with each other and with the hard ones. -/
def Agree (cp : ConstraintPartition) (cs : List UserConstraint) : Prop :=
  Term.Satisfiable (hardFormulas cp.constraints_ ++ cs.map softFormula)

theorem Agree.sublist {cp : ConstraintPartition} {cs ds : List UserConstraint}
    (hsub : cs.Sublist ds) (h : Agree cp ds) : Agree cp cs :=
  h.mono fun _ hf =>
    (List.Sublist.append_left (hsub.map softFormula) (hardFormulas cp.constraints_)).subset hf

/-- The greedy choices, from the first soft constraint of the partition on. -/
noncomputable def accepted (cp : ConstraintPartition) : List Bool :=
  choices (Agree cp) [] (softs cp)

theorem softFormulas_eq {cp : ConstraintPartition}
    (hexclusive : forall c, c ∈ cp.constraints_ -> (c.soft_ && c.cover_) = false) :
    (softFormulas cp.constraints_).map equalTrue = (softs cp).map softFormula := by
  have hfilter : cp.constraints_.filter (fun c => !c.cover_ && c.soft_) = softs cp := by
    apply List.filter_congr
    intro c hc
    have hboth := hexclusive c hc
    cases hsoft : c.soft_ with
    | true =>
        rw [hsoft, Bool.true_and] at hboth
        rw [hboth]
        rfl
    | false => exact Bool.and_false _
  rw [softFormulas, hfilter, List.map_map]
  rfl

variable {env : Environment} {vcon : VariableContainer} {cs : List UserConstraint}
  {cp : ConstraintPartition} {vs : VariableDefaultSolver} {time time' : Nat}

/-- Unless there is a contradiction the soft constraints are analysed. -/
theorem analyseConstraints_softs {vs vs' : VariableSolver} (hnone : vs'.contradictions_ = [])
    (h : analyseConstraints env vs time = .ok (vs', time')) :
    exists time₁, vs'.solver_ = (analyseSofts env.solver vs.solver_ time₁).2.1 ∧
      vs'.inactive_softs_ =
        softNames vs.constr_pttn_.constraints_ (analyseSofts env.solver vs.solver_ time₁).1 0 := by
  rcases bind_eq_ok.mp h with ⟨⟨contradictions_, time₁⟩, _, h⟩
  simp only at h
  split at h
  · cases h
    exact ⟨time₁, rfl, rfl⟩
  · next hne =>
      cases h
      exact absurd hnone hne

/-- What the analysis leaves in the solver and what it reports. -/
theorem accepted_of_new (hsound : env.Sound) (hcomplete : env.Complete)
    (hmade : forall c, c ∈ cp.constraints_ -> c.Made vcon.variables_)
    (hexclusive : forall c, c ∈ cp.constraints_ -> (c.soft_ && c.cover_) = false)
    (hsat : Term.Satisfiable (hardFormulas cp.constraints_))
    (hanalysis : env.bypass_constraint_analysis = false)
    (h : VariableDefaultSolver.new env vcon cp time = .ok (vs, time')) :
    vs.solver_.assertions =
        hardFormulas cp.constraints_ ++ (keep (accepted cp) (softs cp)).map softFormula ∧
      vs.solver_.softs_ = [] ∧
      vs.inactive_softs_ = (leave (accepted cp) (softs cp)).map UserConstraint.name_ := by
  rcases new_cases hmade h with ⟨_, support, _, ⟨hbypass, _⟩ | ⟨_, vs₂, hanalyse, hrandom⟩⟩
  · rw [hanalysis] at hbypass
    cases hbypass
  · have hbase := (setUpRandom_spec hrandom).left
    have hconsistent : vs₂.contradictions_ = [] := by
      apply (analyseConstraints_exact hsound hcomplete hmade rfl hanalyse).left.mpr
      exact (satisfiable_hardFormulas_iff cp.constraints_).mp hsat
    rcases analyseConstraints_softs hconsistent hanalyse with ⟨time₁, hsolver, hinactive⟩
    have hflags : choices (fun gs => Term.Satisfiable (hardFormulas cp.constraints_ ++ gs)) []
        ((softs cp).map softFormula) = accepted cp :=
      choices_map softFormula _ [] (softs cp)
    let s₁ := (loaded env vcon cp support).solver_
    have hbare : ({ s₁ with softs_ := [] } : MetaSMTVisitor).assertions =
        hardFormulas cp.constraints_ ++ [] := (List.append_nil _).symm
    have hchoices := analyseSoftsFrom_choices hsound hcomplete.solver 0
      (softFormulas cp.constraints_) hbare time₁
    rw [softFormulas_eq hexclusive, hflags, List.append_nil, keep_map] at hchoices
    have hsofts : s₁.softs_ = softFormulas cp.constraints_ := rfl
    rw [show (loaded env vcon cp support).solver_ = s₁ from rfl, analyseSofts,
      hsofts] at hsolver hinactive
    have hassertions : vs.solver_ = vs₂.solver_ := by rw [hbase]
    have hnames : vs.inactive_softs_ = vs₂.inactive_softs_ := by rw [hbase]
    refine ⟨?_, ?_, ?_⟩
    · rw [hassertions, hsolver]
      exact hchoices.right
    · rw [hassertions, hsolver]
      rcases analyseSoftsFrom_frame (o := env.solver) 0 (softFormulas cp.constraints_)
        { s₁ with softs_ := [] } time₁ with ⟨_, _, hframe, _⟩
      rw [hframe]
    · rw [hnames, hinactive, hchoices.left]
      exact softNames_positions cp.constraints_ 0 (length_choices [] (softs cp))

/-- The accepted soft constraints are the greedy ones from the newest to the oldest, so no
other choice that agrees with the hard constraints is lexicographically greater. The
rejected ones are reported by their names, and the solver stays satisfiable. -/
theorem soft_priorities (hsound : env.Sound) (hcomplete : env.Complete)
    (hmade : Generator.WellMade vcon cs)
    (hexclusive : forall c, c ∈ cs -> (c.soft_ && c.cover_) = false)
    (hcp : cp ∈ ConstraintPartitioner.partition cs)
    (hsat : Term.Satisfiable (hardFormulas cp.constraints_))
    (hanalysis : env.bypass_constraint_analysis = false)
    (h : VariableDefaultSolver.new env vcon cp time = .ok (vs, time')) :
    (softs cp).Pairwise (fun c d => c.id_ > d.id_) ∧
      vs.solver_.assertions =
        hardFormulas cp.constraints_ ++ (keep (accepted cp) (softs cp)).map softFormula ∧
      vs.solver_.softs_ = [] ∧
      vs.inactive_softs_ = (leave (accepted cp) (softs cp)).map UserConstraint.name_ ∧
      Term.Satisfiable vs.solver_.assertions ∧
      forall flags : List Bool, flags.length = (softs cp).length ->
        Agree cp (keep flags (softs cp)) ->
        flags = accepted cp ∨ List.Lex (fun a b => a < b) flags (accepted cp) := by
  have hmem : forall c, c ∈ cp.constraints_ -> c ∈ cs :=
    fun _ hc => Generator.mem_of_mem_partition hmade hcp hc
  have hnew := accepted_of_new hsound hcomplete (fun c hc => hmade.made c (hmem c hc))
    (fun c hc => hexclusive c (hmem c hc)) hsat hanalysis h
  have hdecreasing :=
    (ConstraintPartitioner.partition_isPartition cs hmade.ids).decreasing cp hcp
  have hnil : Agree cp [] := by
    show Term.Satisfiable (hardFormulas cp.constraints_ ++ [])
    rwa [List.append_nil]
  refine ⟨?_, hnew.left, hnew.right.left, hnew.right.right, ?_, ?_⟩
  · exact List.Pairwise.sublist List.filter_sublist hdecreasing
  · rw [hnew.left]
    exact consistent_choices hnil (softs cp)
  · intro flags hlength hagree
    exact le_choices (fun _ _ hsub hd => Agree.sublist hsub hd) hlength hagree

/-!
### Two soft constraints that conflict through a hard one
-/

def equalByteReference (value : Nat) : Node :=
  equalConstant 2 ⟨8, false⟩ (toConstantExpr ⟨8, false⟩ value)

/-- The variables 1 and 2 are equal.  The variable 1 should be 5, then the variable 2 should
be 6, and last the variable 2 should be 5. -/
def equalFive : List UserConstraint :=
  [byteConstraint 0 equalReference false false, byteConstraint 1 (equalByteReference 5) true false,
    byteConstraint 2 (equalByteReference 6) true false, byteConstraint 3 (equalByte 5) true false]

def cpEqualFive : ConstraintPartition :=
  (((ConstraintPartition.start (byteConstraint 0 equalReference false false)).absorb
    (byteConstraint 1 (equalByteReference 5) true false)).absorb
      (byteConstraint 2 (equalByteReference 6) true false)).absorb
        (byteConstraint 3 (equalByte 5) true false)

theorem partition_equalFive : ConstraintPartitioner.partition equalFive = [cpEqualFive] := by
  have hpass : ConstraintPartitioner.pass
      (ConstraintPartition.start (byteConstraint 0 equalReference false false)) equalFive.tail =
        (cpEqualFive, [], true) := by
    simp only [equalFive, List.tail_cons, ConstraintPartitioner.pass]
    rw [if_pos (by decide), if_pos (by decide), if_pos (by decide)]
    rfl
  have hmaximize : ConstraintPartitioner.maximizePartition
      (byteConstraint 0 equalReference false false) equalFive.tail = (cpEqualFive, []) := by
    rw [ConstraintPartitioner.maximizePartition, ConstraintPartitioner.saturate,
      dif_pos (by rw [hpass])]
    simp only [hpass]
    rw [ConstraintPartitioner.saturate, dif_neg (by exact Bool.false_ne_true)]
    rfl
  rw [equalFive, List.tail_cons] at hmaximize
  rw [equalFive, ConstraintPartitioner.partition, hmaximize, ConstraintPartitioner.partition]

theorem wellMade_equalFive : Generator.WellMade vconFive equalFive := by
  refine ⟨by decide, ?_⟩
  intro c hc
  simp only [equalFive, List.mem_cons, List.not_mem_nil, or_false] at hc
  rcases hc with rfl | rfl | rfl | rfl
  · exact ⟨⟨rfl, rfl⟩, rfl⟩
  · exact ⟨equalConstant_declared rfl _, rfl⟩
  · exact ⟨equalConstant_declared rfl _, rfl⟩
  · exact ⟨equalConstant_declared rfl _, rfl⟩

/-- Which of the soft constraints agree is read off the two bytes. -/
theorem agree_equalFive_iff (cs : List UserConstraint) :
    Agree cpEqualFive cs ↔
      exists m : Model SolverVar, NodeHolds m equalReference ∧
        forall c, c ∈ cs -> NodeHolds m c.expr_ := by
  constructor
  · rintro ⟨m, hm⟩
    refine ⟨m, ?_, ?_⟩
    · have hhard := hm _ (List.mem_append_left _ (List.mem_singleton_self _))
      rwa [holds_equalTrue, holds_formula] at hhard
    · intro c hc
      have hsoft := hm _ (List.mem_append_right _ (List.mem_map_of_mem hc))
      rwa [softFormula, holds_equalTrue, holds_formula] at hsoft
  · rintro ⟨m, hequal, hm⟩
    refine ⟨m, ?_⟩
    intro t ht
    rcases List.mem_append.mp ht with hhard | hsoft
    · rw [List.mem_singleton.mp hhard]
      rw [holds_equalTrue, holds_formula]
      exact hequal
    · rcases List.mem_map.mp hsoft with ⟨c, hc, rfl⟩
      rw [softFormula, holds_equalTrue, holds_formula]
      exact hm c hc

theorem nodeHolds_equalReference {m : Model SolverVar} (h : NodeHolds m equalReference) :
    BitVec.ofNat 8 (m (.terminal 1)) = BitVec.ofNat 8 (m (.terminal 2)) := by
  change Term.eval m (.binary .equal (.var (.terminal 1) 8) (.var (.terminal 2) 8)) = _ at h
  simp only [Term.eval, SizedBits.binary_mk, BinaryTag.apply, Option.some.injEq] at h
  exact eq_of_beq (SizedBits.ofBool_injective h)

theorem accepted_cpEqualFive : accepted cpEqualFive = [true, false, true] := by
  have hsofts : softs cpEqualFive =
      [byteConstraint 3 (equalByte 5) true false,
        byteConstraint 2 (equalByteReference 6) true false,
        byteConstraint 1 (equalByteReference 5) true false] := rfl
  have hfirst : Agree cpEqualFive ([] ++ [byteConstraint 3 (equalByte 5) true false]) := by
    rw [agree_equalFive_iff]
    exact ⟨fun _ => 5, by decide⟩
  have hsecond : ¬ Agree cpEqualFive ([] ++ [byteConstraint 3 (equalByte 5) true false] ++
      [byteConstraint 2 (equalByteReference 6) true false]) := by
    rw [agree_equalFive_iff]
    rintro ⟨m, hequal, hm⟩
    have hfive := (nodeHolds_equalConstant m 1 (d := ⟨8, false⟩) (by decide) 5).mp
      (hm _ (List.mem_cons_self))
    have hsix := (nodeHolds_equalConstant m 2 (d := ⟨8, false⟩) (by decide) 6).mp
      (hm _ (List.mem_cons_of_mem _ List.mem_cons_self))
    rw [← nodeHolds_equalReference hequal, hfive] at hsix
    exact absurd hsix (by decide)
  have hthird : Agree cpEqualFive ([] ++ [byteConstraint 3 (equalByte 5) true false] ++
      [byteConstraint 1 (equalByteReference 5) true false]) := by
    rw [agree_equalFive_iff]
    exact ⟨fun _ => 5, by decide⟩
  rw [accepted, hsofts, choices, if_pos hfirst, choices, if_neg hsecond, choices, if_pos hthird,
    choices]

/-- The soft constraint of the higher priority wins, the one that conflicts with it through
the hard constraint is reported, and the last one is accepted again. -/
theorem soft_priorities_five :
    exists (vs : VariableDefaultSolver) (time : Nat),
      VariableDefaultSolver.new envIdeal vconFive cpEqualFive 0 = .ok (vs, time) ∧
        vs.solver_.assertions = [equalTrue (formula equalReference),
          equalTrue (formula (equalByte 5)), equalTrue (formula (equalByteReference 5))] ∧
        vs.inactive_softs_ = [toString 2] ∧ Term.Satisfiable vs.solver_.assertions := by
  have hcp : cpEqualFive ∈ ConstraintPartitioner.partition equalFive := by
    rw [partition_equalFive]
    exact List.mem_singleton_self _
  have hfiled : forall id c, c ∈ cpEqualFive.singleVariableConstraintMap_ id ->
      c ∈ cpEqualFive.constraints_ ∧ c.isHard = true :=
    filed_of_collected (((ConstraintPartitioner.Collected.start _).absorb _).absorb _ |>.absorb _)
  have hsat : Term.Satisfiable (hardFormulas cpEqualFive.constraints_) := by
    rw [satisfiable_hardFormulas_iff]
    exact ⟨fun _ => 5, by decide⟩
  have hmade : forall c, c ∈ cpEqualFive.constraints_ -> c.Made vconFive.variables_ :=
    fun c hc => wellMade_equalFive.made c (Generator.mem_of_mem_partition wellMade_equalFive hcp hc)
  rcases @exists_defaultSolver envIdeal vconFive cpEqualFive (by decide +kernel) hmade hfiled 0
    with ⟨⟨vs, time⟩, hnew⟩
  have hpriorities := soft_priorities envIdeal_sound envIdeal_complete wellMade_equalFive
    (by decide) hcp hsat rfl hnew
  refine ⟨vs, time, hnew, ?_, ?_, hpriorities.right.right.right.right.left⟩
  · rw [hpriorities.right.left, accepted_cpEqualFive]
    rfl
  · rw [hpriorities.right.right.right.left, accepted_cpEqualFive]
    rfl

end VariableDefaultSolver

end Backend
end Crave
