import Crave.Backend.FailedPartitions
import Crave.Foundation.Interleaving
import Mathlib.Data.Fintype.Option
import Mathlib.Tactic.FinCases

/-!
# Solving all partitions in threads

`VariableGeneratorMT` starts a thread for each partition.  A thread that fails clears a flag
in common, on which no more threads are started and those that have not begun give up.  The
random numbers that a thread draws depend on what the others draw, so they are arbitrary.
-/

namespace Crave
namespace Backend

open Foundation Ir MetaSMTVisitor

namespace VariableGeneratorMT

open VariableDefaultSolver (Built Solvable)

/-- Where a thread is: the thread that calls `solve`, in the loop that starts the others or in
`joinAll`, or the thread of a partition. -/
inductive Thread where
  | starting (i : Nat)
  | creating (i : Nat)
  | joining (k : Nat)
  | returned (result : Bool)
  | entering (vs : VariableDefaultSolver)
  | solving (vs : VariableDefaultSolver)
  | writing (vs : VariableDefaultSolver) (refs : List (Nat × Nat))
  | failing (vs : VariableDefaultSolver)
  | leaving (vs : VariableDefaultSolver)
  | ended (vs : VariableDefaultSolver)

/-- What the threads have in common; the first `created` threads exist. -/
structure Shared (n : Nat) where
  memory : Memory
  result_ : Bool
  created : Nat
  ended : Finset (Fin n)

section Steps

variable {n : Nat} (env : Environment)

/-- The steps of the thread that calls `solve`. -/
inductive MainStep : Thread -> Shared n -> Thread -> Shared n -> Prop
  | again {i : Nat} {s : Shared n} (hi : i < n) (hresult : s.result_ = true) :
      MainStep (.starting i) s (.creating i) s
  | stop {i : Nat} {s : Shared n} (hi : i < n) (hresult : s.result_ = false) :
      MainStep (.starting i) s (.joining 0) s
  | all {i : Nat} {s : Shared n} (hi : n ≤ i) : MainStep (.starting i) s (.joining 0) s
  | create {i : Nat} {s : Shared n} :
      MainStep (.creating i) s (.starting (i + 1)) { s with created := s.created + 1 }
  | join {s : Shared n} {k : Fin n} (hk : k.val < s.created) (hended : k ∈ s.ended) :
      MainStep (.joining k) s (.joining (k + 1)) s
  | return_ {k : Nat} {s : Shared n} (hk : s.created ≤ k) :
      MainStep (.joining k) s (.returned s.result_) s

/-- The steps of the thread of a partition.  The flag is looked at once; the variables are
written one by one. -/
inductive PartitionStep (i : Fin n) : Thread -> Shared n -> Thread -> Shared n -> Prop
  | skip {vs : VariableDefaultSolver} {s : Shared n} (hresult : s.result_ = false) :
      PartitionStep i (.entering vs) s (.leaving vs) s
  | check {vs : VariableDefaultSolver} {s : Shared n} (hresult : s.result_ = true) :
      PartitionStep i (.entering vs) s (.solving vs) s
  | solve {vs vs' : VariableDefaultSolver} {s : Shared n} {random : Nat -> Nat} {w w' : World}
      (hmemory : w.memory = s.memory)
      (h : vs.solve { env with random := random } w = .ok (true, vs', w')) :
      PartitionStep i (.solving vs) s (.writing vs' vs'.var_ctn_.write_references) s
  | unsolvable {vs vs' : VariableDefaultSolver} {s : Shared n} {random : Nat -> Nat}
      {w w' : World} (hmemory : w.memory = s.memory)
      (h : vs.solve { env with random := random } w = .ok (false, vs', w')) :
      PartitionStep i (.solving vs) s (.failing vs') s
  | write {vs : VariableDefaultSolver} {pair : Nat × Nat} {rest : List (Nat × Nat)}
      {s : Shared n} :
      PartitionStep i (.writing vs (pair :: rest)) s (.writing vs rest)
        { s with memory := readInto vs.solver_ s.memory pair }
  | written {vs : VariableDefaultSolver} {s : Shared n} :
      PartitionStep i (.writing vs []) s (.leaving vs) s
  | fail {vs : VariableDefaultSolver} {s : Shared n} :
      PartitionStep i (.failing vs) s (.leaving vs) { s with result_ := false }
  | leave {vs : VariableDefaultSolver} {s : Shared n} :
      PartitionStep i (.leaving vs) s (.ended vs) { s with ended := insert i s.ended }

/-- The thread of a partition has to exist. -/
def step : ThreadStep (Option (Fin n)) Thread (Shared n)
  | none, t, s, t', s' => MainStep t s t' s'
  | some i, t, s, t', s' => i.val < s.created ∧ PartitionStep env i t s t' s'

def start (solvers_ : Fin n -> VariableDefaultSolver) (memory : Memory) :
    Pool (Option (Fin n)) Thread (Shared n) :=
  { threads := fun
      | none => .starting 0
      | some i => .entering (solvers_ i)
    shared :=
      { memory := memory
        result_ := true
        created := 0
        ended := ∅ } }

end Steps

/-!
## What a step changes
-/

section Changes

variable {env : Environment} {vcon : VariableContainer} {n : Nat}

/-- What the steps of the thread of a partition do to the others. -/
structure Changes (vcon : VariableContainer) (p : ConstraintPartition) (i : Fin n)
    (s s' : Shared n) : Prop where
  written : WrittenOnly vcon p.support_vars_ s.memory s'.memory
  flag : s.result_ = false -> s'.result_ = false
  created : s'.created = s.created
  ended : forall j, j ≠ i -> (j ∈ s'.ended ↔ j ∈ s.ended)
  kept : s.ended ⊆ s'.ended

theorem Changes.refl (vcon : VariableContainer) (p : ConstraintPartition) (i : Fin n)
    (s : Shared n) : Changes vcon p i s s :=
  { written := WrittenOnly.refl _
    flag := id
    created := rfl
    ended := fun _ _ => Iff.rfl
    kept := Finset.Subset.refl _ }

theorem writtenOnly_readInto {p : ConstraintPartition} {s : MetaSMTVisitor} {pair : Nat × Nat}
    (hpair : pair ∈ (vcon.restrict p.support_vars_).write_references) (memory : Memory) :
    WrittenOnly vcon p.support_vars_ memory (readInto s memory pair) := by
  intro loc hloc
  rcases VariableContainer.mem_select.mp hpair with ⟨hmem, hid⟩
  exact readInto_of_ne (hloc pair hmem hid).symm memory

theorem SameAt.readInto {support : Set Nat} {before after : Memory}
    (h : SameAt vcon support before after) (s : MetaSMTVisitor) (pair : Nat × Nat) :
    SameAt vcon support (readInto s before pair) (readInto s after pair) := by
  intro q hq hid
  by_cases hloc : q.2 = pair.2
  · rw [hloc, readInto_self, readInto_self, ← hloc, h q hq hid]
  · rw [readInto_of_ne hloc, readInto_of_ne hloc]
    exact h q hq hid

theorem SameAt.writeBack {support : Set Nat} {before after : Memory}
    (h : SameAt vcon support before after) (s : MetaSMTVisitor) (refs : List (Nat × Nat)) :
    SameAt vcon support (writeBack s refs before) (writeBack s refs after) := by
  induction refs generalizing before after with
  | nil => exact h
  | cons pair rest ih => exact ih (SameAt.readInto h s pair)

end Changes

/-!
## What holds of the threads
-/

section Invariant

variable (vcon : VariableContainer) {n : Nat} (ps : Fin n -> ConstraintPartition)
  (solvers_ : Fin n -> VariableDefaultSolver) (memory : Memory)

/-- What every thread knows. -/
structure Common (s : Shared n) : Prop where
  written : WrittenOnly vcon (supportOf (List.ofFn ps)) memory s.memory
  failed : s.result_ = false -> exists i, ¬ Solvable (solvers_ i) memory
  created_le : s.created ≤ n

def MainInv : Thread -> Shared n -> Prop
  | .starting i, s => s.created = i
  | .creating i, s => s.created = i ∧ i < n
  | .joining k, s =>
      (s.created = n ∨ s.result_ = false) ∧ forall j : Fin n, j.val < k -> j ∈ s.ended
  | .returned result, s =>
      (s.created = n ∨ s.result_ = false) ∧ (forall j : Fin n, j.val < s.created -> j ∈ s.ended) ∧
        s.result_ = result
  | _, _ => False

/-- The program variables of the partition are as before. -/
def Untouched (i : Fin n) (s : Shared n) : Prop :=
  SameAt vcon (ps i).support_vars_ memory s.memory

/-- The solver has found a solution for the values before. -/
structure Solved (i : Fin n) (vs : VariableDefaultSolver) : Prop where
  built : Built vcon (ps i) vs
  solvable : Solvable (solvers_ i) memory
  settled : Settled vcon (hards (ps i)) vs.solver_
    (writeBack vs.solver_ vs.var_ctn_.write_references memory)

/-- Nothing or everything has been written. -/
def Outcome (i : Fin n) (vs : VariableDefaultSolver) (s : Shared n) : Prop :=
  (Untouched vcon ps memory i s ∧ s.result_ = false) ∨
    (Solvable (solvers_ i) memory ∧ Settled vcon (hards (ps i)) vs.solver_ s.memory)

def PartitionInv (i : Fin n) : Thread -> Shared n -> Prop
  | .entering vs, s => vs = solvers_ i ∧ Untouched vcon ps memory i s ∧ i ∉ s.ended
  | .solving vs, s => vs = solvers_ i ∧ Untouched vcon ps memory i s ∧ i ∉ s.ended
  | .writing vs refs, s =>
      Solved vcon ps solvers_ memory i vs ∧
        (exists done, vs.var_ctn_.write_references = done ++ refs ∧
          SameAt vcon (ps i).support_vars_ (writeBack vs.solver_ done memory) s.memory) ∧
        i ∉ s.ended
  | .failing vs, s =>
      Built vcon (ps i) vs ∧ Untouched vcon ps memory i s ∧ ¬ Solvable (solvers_ i) memory ∧
        i ∉ s.ended
  | .leaving vs, s =>
      Built vcon (ps i) vs ∧ Outcome vcon ps solvers_ memory i vs s ∧ i ∉ s.ended
  | .ended vs, s =>
      Built vcon (ps i) vs ∧ Outcome vcon ps solvers_ memory i vs s ∧ i ∈ s.ended
  | _, _ => False

def inv (x : Option (Fin n)) (t : Thread) (s : Shared n) : Prop :=
  Common vcon ps solvers_ memory s ∧
    match x with
    | none => MainInv t s
    | some i =>
        PartitionInv vcon ps solvers_ memory i t s ∧
          (s.created ≤ i.val -> exists vs, t = .entering vs)

end Invariant

/-!
## Every interleaving
-/

section Interleaved

variable {env : Environment} {vcon : VariableContainer} {n : Nat}
  {ps : Fin n -> ConstraintPartition} {solvers_ : Fin n -> VariableDefaultSolver}
  {memory : Memory} {i j : Fin n} {t t' : Thread} {s s' : Shared n}

theorem mem_partitions (ps : Fin n -> ConstraintPartition) (i : Fin n) :
    ps i ∈ List.ofFn ps :=
  List.mem_ofFn.mpr ⟨i, rfl⟩

/-- What the thread of one partition writes, the others neither read nor write. -/
theorem Changes.sameAt (hps : Separated vcon (List.ofFn ps))
    (hunwritten : Unwritten vcon (supportOf (List.ofFn ps))) (hne : j ≠ i)
    (h : Changes vcon (ps i) i s s') : SameAt vcon (ps j).support_vars_ s.memory s'.memory := by
  apply h.written.sameAt
  · apply hunwritten.mono
    exact Set.union_subset (support_subset_supportOf (mem_partitions ps j))
      (support_subset_supportOf (mem_partitions ps i))
  · have hdisjoint := List.pairwise_ofFn.mp hps.disjoint
    rw [Finset.disjoint_coe]
    rcases lt_or_gt_of_ne hne with hlt | hgt
    · exact hdisjoint hlt
    · exact (hdisjoint hgt).symm

theorem Untouched.trans (h : Untouched vcon ps memory j s)
    (hsame : SameAt vcon (ps j).support_vars_ s.memory s'.memory) :
    Untouched vcon ps memory j s' :=
  fun pair hpair hid => (hsame pair hpair hid).trans (h pair hpair hid)

theorem changes_of_step (h : PartitionStep env i t s t' s')
    (hinv : PartitionInv vcon ps solvers_ memory i t s) : Changes vcon (ps i) i s s' := by
  cases h with
  | skip => exact Changes.refl vcon _ i s
  | check => exact Changes.refl vcon _ i s
  | solve => exact Changes.refl vcon _ i s
  | unsolvable => exact Changes.refl vcon _ i s
  | @write vs pair rest =>
      rcases hinv with ⟨hsolved, ⟨done, hrefs, -⟩, -⟩
      have hpair : pair ∈ (vcon.restrict (ps i).support_vars_).write_references := by
        rw [← hsolved.built.var_ctn, hrefs]
        exact List.mem_append_right _ List.mem_cons_self
      exact { Changes.refl vcon (ps i) i s with written := writtenOnly_readInto hpair s.memory }
  | written => exact Changes.refl vcon _ i s
  | fail => exact { Changes.refl vcon (ps i) i s with flag := fun _ => rfl }
  | leave =>
      exact
        { Changes.refl vcon (ps i) i s with
          ended := fun j hj => by rw [Finset.mem_insert, or_iff_right hj]
          kept := Finset.subset_insert i s.ended }

theorem running_of_step (h : PartitionStep env i t s t' s')
    (hinv : PartitionInv vcon ps solvers_ memory i t s) : i ∉ s.ended := by
  cases h with
  | skip => exact hinv.2.2
  | check => exact hinv.2.2
  | solve => exact hinv.2.2
  | unsolvable => exact hinv.2.2
  | write => exact hinv.2.2
  | written => exact hinv.2.2
  | fail => exact hinv.2.2.2
  | leave => exact hinv.2.2

section Stable

variable (hps : Separated vcon (List.ofFn ps))
  (hunwritten : Unwritten vcon (supportOf (List.ofFn ps)))

include hps hunwritten

theorem Outcome.other {vs : VariableDefaultSolver} (hne : j ≠ i) (h : Changes vcon (ps i) i s s')
    (houtcome : Outcome vcon ps solvers_ memory j vs s) :
    Outcome vcon ps solvers_ memory j vs s' := by
  have hsame := h.sameAt hps hunwritten hne
  rcases houtcome with ⟨huntouched, hflag⟩ | ⟨hsolvable, hsettled⟩
  · exact Or.inl ⟨huntouched.trans hsame, h.flag hflag⟩
  · refine Or.inr ⟨hsolvable, hsettled.frame (fun c hc id hid => ?_) hsame⟩
    exact hps.support _ (mem_partitions ps j) c (mem_hards.mp hc).1 hid

/-- The thread of a partition is not disturbed by the one of another. -/
theorem PartitionInv.other {u : Thread} (hne : j ≠ i) (h : Changes vcon (ps i) i s s')
    (hinv : PartitionInv vcon ps solvers_ memory j u s) :
    PartitionInv vcon ps solvers_ memory j u s' := by
  have hsame := h.sameAt hps hunwritten hne
  have hended := h.ended j hne
  cases u with
  | starting i => cases hinv
  | creating i => cases hinv
  | joining k => cases hinv
  | returned result => cases hinv
  | entering vs => exact ⟨hinv.1, hinv.2.1.trans hsame, fun h => hinv.2.2 (hended.mp h)⟩
  | solving vs => exact ⟨hinv.1, hinv.2.1.trans hsame, fun h => hinv.2.2 (hended.mp h)⟩
  | writing vs refs =>
      rcases hinv with ⟨hsolved, ⟨done, hrefs, hdone⟩, hrunning⟩
      refine ⟨hsolved, ⟨done, hrefs, fun pair hpair hid => ?_⟩, fun h => hrunning (hended.mp h)⟩
      exact (hsame pair hpair hid).trans (hdone pair hpair hid)
  | failing vs =>
      exact ⟨hinv.1, hinv.2.1.trans hsame, hinv.2.2.1, fun h => hinv.2.2.2 (hended.mp h)⟩
  | leaving vs =>
      exact ⟨hinv.1, hinv.2.1.other hps hunwritten hne h, fun h => hinv.2.2 (hended.mp h)⟩
  | ended vs =>
      exact ⟨hinv.1, hinv.2.1.other hps hunwritten hne h, hended.mpr hinv.2.2⟩

end Stable

/-- The thread that calls `solve` sees the flag cleared or threads that end. -/
theorem MainInv.other (hinv : MainInv t s) (hi : i.val < s.created) (hrunning : i ∉ s.ended)
    (h : Changes vcon (ps i) i s s') : MainInv t s' := by
  cases t with
  | starting k => exact h.created.trans hinv
  | creating k => exact ⟨h.created.trans hinv.1, hinv.2⟩
  | joining k =>
      rcases hinv with ⟨hcreated, hjoined⟩
      refine ⟨hcreated.imp h.created.trans h.flag, fun j hj => h.kept (hjoined j hj)⟩
  | returned result => exact absurd (hinv.2.1 i hi) hrunning
  | entering vs => cases hinv
  | solving vs => cases hinv
  | writing vs refs => cases hinv
  | failing vs => cases hinv
  | leaving vs => cases hinv
  | ended vs => cases hinv

theorem MainInv.own (hle : s.created ≤ n) (hinv : MainInv t s) (h : MainStep t s t' s') :
    MainInv t' s' := by
  cases h with
  | again hi => exact ⟨hinv, hi⟩
  | stop hi hresult => exact ⟨Or.inr hresult, fun j hj => absurd hj (Nat.not_lt_zero _)⟩
  | all hi =>
      have hcreated : s.created = n := Nat.le_antisymm hle (hi.trans_eq hinv.symm)
      exact ⟨Or.inl hcreated, fun j hj => absurd hj (Nat.not_lt_zero _)⟩
  | create => exact congrArg (· + 1) hinv.1
  | join hk hended =>
      refine ⟨hinv.1, fun j hj => ?_⟩
      rcases Nat.lt_succ_iff_lt_or_eq.mp hj with hlt | heq
      · exact hinv.2 j hlt
      · rwa [Fin.ext heq]
  | return_ hk => exact ⟨hinv.1, fun j hj => hinv.2 j (hj.trans_le hk), rfl⟩

/-- A step of the thread that calls `solve` changes nothing for the others. -/
theorem sameForPartitions (h : MainStep t s t' s') :
    s'.memory = s.memory ∧ s'.result_ = s.result_ ∧ s'.ended = s.ended := by
  cases h <;> exact ⟨rfl, rfl, rfl⟩

theorem created_le (h : MainStep t s t' s') : s.created ≤ s'.created := by
  cases h with
  | create => exact Nat.le_succ _
  | again => exact Nat.le_refl _
  | stop => exact Nat.le_refl _
  | all => exact Nat.le_refl _
  | join => exact Nat.le_refl _
  | return_ => exact Nat.le_refl _

theorem PartitionInv.main {u : Thread} (h : MainStep t s t' s')
    (hinv : PartitionInv vcon ps solvers_ memory j u s) :
    PartitionInv vcon ps solvers_ memory j u s' := by
  rcases sameForPartitions h with ⟨hmemory, hresult, hended⟩
  cases u with
  | starting i => cases hinv
  | creating i => cases hinv
  | joining k => cases hinv
  | returned result => cases hinv
  | entering vs => simpa only [PartitionInv, Untouched, hmemory, hended] using hinv
  | solving vs => simpa only [PartitionInv, Untouched, hmemory, hended] using hinv
  | writing vs refs => simpa only [PartitionInv, hmemory, hended] using hinv
  | failing vs => simpa only [PartitionInv, Untouched, hmemory, hended] using hinv
  | leaving vs =>
      simpa only [PartitionInv, Outcome, Untouched, hmemory, hresult, hended] using hinv
  | ended vs =>
      simpa only [PartitionInv, Outcome, Untouched, hmemory, hresult, hended] using hinv

theorem Common.main (hle : s.created ≤ n) (hinv : MainInv t s) (h : MainStep t s t' s')
    (hcommon : Common vcon ps solvers_ memory s) : Common vcon ps solvers_ memory s' := by
  rcases sameForPartitions h with ⟨hmemory, hresult, -⟩
  constructor
  · rw [hmemory]
    exact hcommon.written
  · rw [hresult]
    exact hcommon.failed
  · cases h with
    | create => exact hinv.1.trans_lt hinv.2
    | again => exact hle
    | stop => exact hle
    | all => exact hle
    | join => exact hle
    | return_ => exact hle

theorem Common.partition (hcommon : Common vcon ps solvers_ memory s)
    (hinv : PartitionInv vcon ps solvers_ memory i t s) (h : PartitionStep env i t s t' s') :
    Common vcon ps solvers_ memory s' := by
  have hchanges := changes_of_step h hinv
  constructor
  · exact hcommon.written.trans
      (hchanges.written.mono (support_subset_supportOf (mem_partitions ps i)))
  · intro hfalse
    cases h with
    | fail => exact ⟨i, hinv.2.2.1⟩
    | skip => exact hcommon.failed hfalse
    | check => exact hcommon.failed hfalse
    | solve => exact hcommon.failed hfalse
    | unsolvable => exact hcommon.failed hfalse
    | write => exact hcommon.failed hfalse
    | written => exact hcommon.failed hfalse
    | leave => exact hcommon.failed hfalse
  · rw [hchanges.created]
    exact hcommon.created_le

section Own

variable (hps : Separated vcon (List.ofFn ps))
  (hunwritten : Unwritten vcon (supportOf (List.ofFn ps)))
  (hbuilt : forall i, Built vcon (ps i) (solvers_ i))

include hps hunwritten hbuilt

/-- What the solver finds with the values that the thread sees, it finds with those before. -/
theorem solve_spec (hsound : env.Sound) (hcomplete : env.Complete)
    (hcommon : Common vcon ps solvers_ memory s) (huntouched : Untouched vcon ps memory i s)
    {random : Nat -> Nat} {w w' : World} {vs' : VariableDefaultSolver} {result : Bool}
    (hmemory : w.memory = s.memory)
    (h : (solvers_ i).solve { env with random := random } w = .ok (result, vs', w')) :
    Built vcon (ps i) vs' ∧ (result = true ↔ Solvable (solvers_ i) memory) ∧
      (result = true -> Solved vcon ps solvers_ memory i vs') := by
  have hbuilt' : Built vcon (ps i) vs' := (hbuilt i).solve h
  have hsame := (VariableGenerator.solvable_of_written hunwritten (mem_partitions ps i) (hbuilt i)
    hcommon.written).2
  have hsound' : ({ env with random := random } : Environment).Sound := hsound
  have hcomplete' : ({ env with random := random } : Environment).Complete :=
    ⟨hcomplete.solver, hcomplete.conflicts⟩
  have hiff := VariableDefaultSolver.solve_eq_true_iff (hbuilt i).ready hsound' hcomplete' h
  rw [hmemory, hsame] at hiff
  refine ⟨hbuilt', hiff, fun htrue => ⟨hbuilt', hiff.mp htrue, ?_⟩⟩
  rw [htrue] at h
  have hsettled := VariableGenerator.solver_settled (hbuilt i) hsound'
    (hps.support _ (mem_partitions ps i))
    (hunwritten.mono (support_subset_supportOf (mem_partitions ps i))) h
  have hworld := VariableDefaultSolver.world_solve (hbuilt i).ready h
  have hrefs : vs'.var_ctn_ = (solvers_ i).var_ctn_ :=
    hbuilt'.var_ctn.trans (hbuilt i).var_ctn.symm
  rw [hworld] at hsettled
  simp only [if_true, hmemory, ← hrefs] at hsettled
  refine hsettled.frame (fun c hc id hid => ?_) (SameAt.writeBack huntouched.symm _ _)
  exact hps.support _ (mem_partitions ps i) c (mem_hards.mp hc).1 hid

theorem PartitionInv.own (hsound : env.Sound) (hcomplete : env.Complete)
    (hcommon : Common vcon ps solvers_ memory s)
    (hinv : PartitionInv vcon ps solvers_ memory i t s) (h : PartitionStep env i t s t' s') :
    PartitionInv vcon ps solvers_ memory i t' s' := by
  cases h with
  | skip hresult =>
      rcases hinv with ⟨rfl, huntouched, hrunning⟩
      exact ⟨hbuilt i, Or.inl ⟨huntouched, hresult⟩, hrunning⟩
  | check => exact hinv
  | solve hmemory hsolve =>
      rcases hinv with ⟨rfl, huntouched, hrunning⟩
      have hspec := solve_spec hps hunwritten hbuilt hsound hcomplete hcommon huntouched hmemory
        hsolve
      exact ⟨hspec.2.2 rfl, ⟨[], rfl, huntouched⟩, hrunning⟩
  | unsolvable hmemory hsolve =>
      rcases hinv with ⟨rfl, huntouched, hrunning⟩
      have hspec := solve_spec hps hunwritten hbuilt hsound hcomplete hcommon huntouched hmemory
        hsolve
      exact ⟨hspec.1, huntouched, fun h => (nomatch hspec.2.1.mpr h), hrunning⟩
  | @write vs pair rest =>
      rcases hinv with ⟨hsolved, ⟨done, hrefs, hdone⟩, hrunning⟩
      refine ⟨hsolved, ⟨done ++ [pair], ?_, ?_⟩, hrunning⟩
      · rw [hrefs, List.append_assoc, List.singleton_append]
      · rw [writeBack, List.foldl_append]
        exact SameAt.readInto hdone vs.solver_ pair
  | written =>
      rcases hinv with ⟨hsolved, ⟨done, hrefs, hdone⟩, hrunning⟩
      rw [List.append_nil] at hrefs
      have hsettled := hsolved.settled
      rw [hrefs] at hsettled
      refine ⟨hsolved.built, Or.inr ⟨hsolved.solvable, hsettled.frame (fun c hc id hid => ?_) hdone⟩,
        hrunning⟩
      exact hps.support _ (mem_partitions ps i) c (mem_hards.mp hc).1 hid
  | fail => exact ⟨hinv.1, Or.inl ⟨hinv.2.1, rfl⟩, hinv.2.2.2⟩
  | leave => exact ⟨hinv.1, hinv.2.1, Finset.mem_insert_self i _⟩

theorem stable_inv (hsound : env.Sound) (hcomplete : env.Complete) :
    Pool.Stable (step env) (inv vcon ps solvers_ memory) := by
  constructor
  · rintro (_ | i) t s t' s' ⟨hcommon, hinv⟩ h
    · exact ⟨hcommon.main hcommon.created_le hinv h, hinv.own hcommon.created_le h⟩
    · refine ⟨hcommon.partition hinv.1 h.2,
        hinv.1.own hps hunwritten hbuilt hsound hcomplete hcommon h.2, fun hcreated => ?_⟩
      rw [(changes_of_step h.2 hinv.1).created] at hcreated
      exact absurd h.1 (Nat.not_lt.mpr hcreated)
  · rintro (_ | i) (_ | j) t u s t' s' hne ⟨hcommon, hinv⟩ ⟨-, hinv'⟩ h
    · exact absurd rfl hne
    · exact ⟨hcommon.main hcommon.created_le hinv h, hinv'.1.main h,
        fun hcreated => hinv'.2 ((created_le h).trans hcreated)⟩
    · exact ⟨hcommon.partition hinv.1 h.2,
        hinv'.other h.1 (running_of_step h.2 hinv.1) (changes_of_step h.2 hinv.1)⟩
    · have hji : j ≠ i := fun heq => hne (congrArg some heq)
      have hchanges := changes_of_step h.2 hinv.1
      refine ⟨hcommon.partition hinv.1 h.2, hinv'.1.other hps hunwritten hji hchanges,
        fun hcreated => hinv'.2 ?_⟩
      rwa [hchanges.created] at hcreated

end Own

/-!
### What `solve` returns
-/

theorem inv_start (vcon : VariableContainer) (ps : Fin n -> ConstraintPartition)
    (solvers_ : Fin n -> VariableDefaultSolver) (memory : Memory) :
    Pool.All (inv vcon ps solvers_ memory) (start solvers_ memory) := by
  have hcommon : Common vcon ps solvers_ memory (start solvers_ memory).shared :=
    { written := WrittenOnly.refl _
      failed := fun h => nomatch h
      created_le := Nat.zero_le n }
  rintro (_ | i)
  · exact ⟨hcommon, rfl⟩
  · exact ⟨hcommon, ⟨rfl, fun _ _ _ => rfl, Finset.notMem_empty i⟩, fun _ => ⟨_, rfl⟩⟩

/-- One after the other, the solvers succeed exactly when each of them can. -/
theorem solveFrom_eq_true_iff (hunwritten : Unwritten vcon (supportOf (List.ofFn ps)))
    (hsound : env.Sound) (hcomplete : env.Complete) {l l' : List VariableDefaultSolver}
    (hbuilt : forall vs, vs ∈ l -> exists p, p ∈ List.ofFn ps ∧ Built vcon p vs) {w w' : World}
    (hwritten : WrittenOnly vcon (supportOf (List.ofFn ps)) memory w.memory) {result : Bool}
    (h : VariableGenerator.solveFrom env l w = .ok (result, l', w')) :
    result = true ↔ forall vs, vs ∈ l -> Solvable vs memory := by
  induction l generalizing l' w with
  | nil =>
      cases h
      exact ⟨fun _ vs hvs => absurd hvs List.not_mem_nil, fun _ => rfl⟩
  | cons vs rest ih =>
      rcases hbuilt vs List.mem_cons_self with ⟨p, hp, hvs⟩
      rcases VariableGenerator.solveFrom_cons h with ⟨r, vs', w₁, hhead, hcases⟩
      have hhere := VariableDefaultSolver.solve_eq_true_iff hvs.ready hsound hcomplete hhead
      rw [(VariableGenerator.solvable_of_written hunwritten hp hvs hwritten).2] at hhere
      rcases hcases with ⟨rfl, rfl, -, -⟩ | ⟨rfl, rest', htail, -⟩
      · exact ⟨fun hfalse => (nomatch hfalse), fun hall => hhere.mpr (hall vs List.mem_cons_self)⟩
      · have hwritten₁ := hwritten.trans
          ((VariableGenerator.solver_spec hvs hhead).1.mono (support_subset_supportOf hp))
        have hrest := ih (fun u hu => hbuilt u (List.mem_cons_of_mem vs hu)) hwritten₁ htail
        rw [hrest, List.forall_mem_cons]
        exact ⟨fun hall => ⟨hhere.mp rfl, hall⟩, fun hall => hall.2⟩

/-- What a thread leaves behind. -/
def Left (vcon : VariableContainer) (ps : Fin n -> ConstraintPartition) (memory memory' : Memory)
    (i : Fin n) (t : Thread) : Prop :=
  exists vs, (t = .entering vs ∨ t = .ended vs) ∧ Built vcon (ps i) vs ∧
    (SameAt vcon (ps i).support_vars_ memory memory' ∨ InForce vcon memory' (hards (ps i)))

theorem exists_ended (hinv : PartitionInv vcon ps solvers_ memory i t s) (hended : i ∈ s.ended) :
    exists vs, t = .ended vs ∧ Built vcon (ps i) vs ∧ Outcome vcon ps solvers_ memory i vs s := by
  cases t with
  | starting i => cases hinv
  | creating i => cases hinv
  | joining k => cases hinv
  | returned result => cases hinv
  | entering vs => exact absurd hended hinv.2.2
  | solving vs => exact absurd hended hinv.2.2
  | writing vs refs => exact absurd hended hinv.2.2
  | failing vs => exact absurd hended hinv.2.2.2
  | leaving vs => exact absurd hended hinv.2.2
  | ended vs => exact ⟨vs, rfl, hinv.1, hinv.2.1⟩

theorem Outcome.left (hps : Separated vcon (List.ofFn ps)) {vs : VariableDefaultSolver}
    (h : Outcome vcon ps solvers_ memory i vs s) :
    SameAt vcon (ps i).support_vars_ memory s.memory ∨ InForce vcon s.memory (hards (ps i)) := by
  rcases h with ⟨huntouched, -⟩ | ⟨-, hsettled⟩
  · exact Or.inl huntouched
  · refine Or.inr (hsettled.inForce fun c hc => ?_)
    exact hps.made _ (mem_partitions ps i) c (mem_hards.mp hc).1

section Returned

variable {c : Pool (Option (Fin n)) Thread (Shared n)} {result : Bool}
  (hall : Pool.All (inv vcon ps solvers_ memory) c)
  (hreturned : c.threads none = .returned result)

include hall hreturned

theorem main_of_returned :
    (c.shared.created = n ∨ c.shared.result_ = false) ∧
      (forall j : Fin n, j.val < c.shared.created -> j ∈ c.shared.ended) ∧
        c.shared.result_ = result := by
  have hmain : MainInv (c.threads none) c.shared := (hall none).2
  rwa [hreturned] at hmain

/-- When `solve` succeeds, all threads have run and found solutions. -/
theorem settled_of_returned (htrue : result = true) (i : Fin n) :
    exists vs : VariableDefaultSolver, Solvable (solvers_ i) memory ∧
      Settled vcon (hards (ps i)) vs.solver_ c.shared.memory := by
  rcases main_of_returned hall hreturned with ⟨hcreated, hended, hresult⟩
  rw [htrue] at hresult
  have hcreated' : c.shared.created = n := hcreated.resolve_right (by rw [hresult]; exact nofun)
  have hi : i.val < c.shared.created := by
    rw [hcreated']
    exact i.isLt
  rcases exists_ended (hall (some i)).2.1 (hended i hi) with
    ⟨vs, -, -, ⟨-, hfalse⟩ | hsolved⟩
  · rw [hresult] at hfalse
    cases hfalse
  · exact ⟨vs, hsolved⟩

theorem returned_iff : result = true ↔ forall i, Solvable (solvers_ i) memory := by
  constructor
  · intro htrue i
    rcases settled_of_returned hall hreturned htrue i with ⟨vs, hsolvable, -⟩
    exact hsolvable
  · intro hsolvable
    by_contra hfalse
    rcases main_of_returned hall hreturned with ⟨-, -, hresult⟩
    rw [Bool.not_eq_true] at hfalse
    rcases (hall none).1.failed (hresult.trans hfalse) with ⟨i, hi⟩
    exact hi (hsolvable i)

theorem ended_of_returned (i : Fin n) (hi : i.val < c.shared.created) :
    exists vs, c.threads (some i) = .ended vs := by
  rcases main_of_returned hall hreturned with ⟨-, hended, -⟩
  rcases exists_ended (hall (some i)).2.1 (hended i hi) with ⟨vs, ht, -, -⟩
  exact ⟨vs, ht⟩

theorem left_of_returned (hps : Separated vcon (List.ofFn ps))
    (hbuilt : forall i, Built vcon (ps i) (solvers_ i)) (i : Fin n) :
    Left vcon ps memory c.shared.memory i (c.threads (some i)) := by
  rcases main_of_returned hall hreturned with ⟨-, hended, -⟩
  have hinv : PartitionInv vcon ps solvers_ memory i (c.threads (some i)) c.shared :=
    (hall (some i)).2.1
  by_cases hcreated : i.val < c.shared.created
  · rcases exists_ended hinv (hended i hcreated) with ⟨vs, ht, hvs, houtcome⟩
    exact ⟨vs, Or.inr ht, hvs, houtcome.left hps⟩
  · rcases (hall (some i)).2.2 (Nat.not_lt.mp hcreated) with ⟨vs, ht⟩
    rw [ht] at hinv
    rcases hinv with ⟨rfl, huntouched, -⟩
    exact ⟨solvers_ i, Or.inl ht, hbuilt i, Or.inl huntouched⟩

theorem inForce_of_returned (hps : Separated vcon (List.ofFn ps)) (htrue : result = true) :
    InForce vcon c.shared.memory ((List.ofFn ps).map hards).flatten := by
  have hmade : forall p, p ∈ List.ofFn ps -> forall u, u ∈ hards p -> u.Made vcon.variables_ :=
    fun p hp u hu => hps.made p hp u (mem_hards.mp hu).1
  apply inForce_flatten
  · intro cs hcs u hu
    rcases List.mem_map.mp hcs with ⟨p, hp, rfl⟩
    exact hmade p hp u hu
  · rw [List.pairwise_map]
    refine hps.disjoint.imp_of_mem fun {p q} hp hq hdisjoint => ?_
    rintro u hu v hv ⟨id, hidu, hidv⟩
    exact Finset.disjoint_left.mp hdisjoint (hps.support p hp u (mem_hards.mp hu).1 hidu)
      (hps.support q hq v (mem_hards.mp hv).1 hidv)
  · intro cs hcs
    rcases List.mem_map.mp hcs with ⟨p, hp, rfl⟩
    rcases List.mem_ofFn.mp hp with ⟨i, rfl⟩
    rcases settled_of_returned hall hreturned htrue i with ⟨vs, -, hsettled⟩
    exact hsettled.inForce (hmade _ hp)

end Returned

/-!
### Runs end
-/

/-- How many steps a thread can have left. -/
def rank (n : Nat) : Thread -> Nat
  | .starting i => 2 * (n - i) + n + 2
  | .creating i => 2 * (n - (i + 1)) + n + 3
  | .joining k => n - k + 1
  | .returned _ => 0
  | .entering vs => vs.var_ctn_.write_references.length + 4
  | .solving vs => vs.var_ctn_.write_references.length + 3
  | .writing _ refs => refs.length + 2
  | .failing _ => 2
  | .leaving _ => 1
  | .ended _ => 0

theorem rank_main (h : MainStep t s t' s') : rank n t' < rank n t := by
  cases h with
  | again hi => simp only [rank]; omega
  | stop hi => simp only [rank]; omega
  | all hi => simp only [rank]; omega
  | create => simp only [rank]; omega
  | join hk hended => simp only [rank]; omega
  | return_ hk => simp only [rank]; omega

theorem rank_partition (hbuilt : forall i, Built vcon (ps i) (solvers_ i))
    (hinv : PartitionInv vcon ps solvers_ memory i t s) (h : PartitionStep env i t s t' s') :
    rank n t' < rank n t := by
  cases h with
  | skip => simp only [rank]; omega
  | check => exact Nat.lt_succ_self _
  | solve hmemory hsolve =>
      rcases hinv with ⟨rfl, -, -⟩
      have hrefs := ((hbuilt i).solve hsolve).var_ctn.trans (hbuilt i).var_ctn.symm
      simp only [rank, hrefs]
      omega
  | unsolvable => simp only [rank]; omega
  | write => exact Nat.lt_succ_self _
  | written => exact Nat.lt_succ_self _
  | fail => exact Nat.lt_succ_self _
  | leave => exact Nat.lt_succ_self _

theorem rank_step (hbuilt : forall i, Built vcon (ps i) (solvers_ i)) (x : Option (Fin n))
    (hinv : inv vcon ps solvers_ memory x t s) (h : step env x t s t' s') :
    rank n t' < rank n t := by
  cases x with
  | none => exact rank_main h
  | some i => exact rank_partition hbuilt hinv.2.1 h.2

theorem exists_partitionStep (hbuilt : forall i, Built vcon (ps i) (solvers_ i))
    (hbdd : forall o, env.bdd = some o -> o.Complete)
    (hchecked : forall i, VariableDefaultSolver.Checked (solvers_ i))
    (hinv : PartitionInv vcon ps solvers_ memory i t s) (hrunning : i ∉ s.ended) :
    exists t' s', PartitionStep env i t s t' s' := by
  cases t with
  | starting i => cases hinv
  | creating i => cases hinv
  | joining k => cases hinv
  | returned result => cases hinv
  | entering vs =>
      cases hresult : s.result_ with
      | true => exact ⟨_, _, .check hresult⟩
      | false => exact ⟨_, _, .skip hresult⟩
  | solving vs =>
      rcases hinv with ⟨rfl, -, -⟩
      let w : World :=
        { memory := s.memory
          vectors := fun _ => []
          time := 0
          var_ID := 0
          constraint_ID := 0 }
      rcases (hchecked i).exists_solve (hbuilt i).ready hbdd w with ⟨result, vs', w', h⟩
      cases result with
      | true => exact ⟨_, _, @PartitionStep.solve _ env i _ _ s _ w _ rfl h⟩
      | false => exact ⟨_, _, @PartitionStep.unsolvable _ env i _ _ s _ w _ rfl h⟩
  | writing vs refs =>
      cases refs with
      | nil => exact ⟨_, _, .written⟩
      | cons pair rest => exact ⟨_, _, .write⟩
  | failing vs => exact ⟨_, _, .fail⟩
  | leaving vs => exact ⟨_, _, .leave⟩
  | ended vs => exact absurd hinv.2.2 hrunning

theorem exists_returned (hbuilt : forall i, Built vcon (ps i) (solvers_ i))
    (hbdd : forall o, env.bdd = some o -> o.Complete)
    (hchecked : forall i, VariableDefaultSolver.Checked (solvers_ i))
    {c : Pool (Option (Fin n)) Thread (Shared n)}
    (hall : Pool.All (inv vcon ps solvers_ memory) c)
    (hend : forall c', ¬ Pool.Step (step env) c c') :
    exists result, c.threads none = .returned result := by
  have hstuck : forall x t s, ¬ step env x (c.threads x) c.shared t s :=
    fun x t s h => hend _ (Pool.Step.thread h)
  have hmain : MainInv (c.threads none) c.shared := (hall none).2
  have hnone : forall t s, ¬ MainStep (c.threads none) c.shared t s := hstuck none
  cases ht : c.threads none with
  | starting i =>
      rw [ht] at hnone
      by_cases hi : i < n
      · cases hresult : c.shared.result_ with
        | true => exact absurd (.again hi hresult) (hnone _ _)
        | false => exact absurd (.stop hi hresult) (hnone _ _)
      · exact absurd (.all (Nat.not_lt.mp hi)) (hnone _ _)
  | creating i =>
      rw [ht] at hnone
      exact absurd .create (hnone _ _)
  | joining k =>
      rw [ht] at hnone
      by_cases hk : c.shared.created ≤ k
      · exact absurd (.return_ hk) (hnone _ _)
      · have hlt := Nat.not_le.mp hk
        let j : Fin n := ⟨k, hlt.trans_le (hall none).1.created_le⟩
        by_cases hended : j ∈ c.shared.ended
        · exact absurd (@MainStep.join n c.shared j hlt hended) (hnone _ _)
        · rcases exists_partitionStep hbuilt hbdd hchecked (hall (some j)).2.1 hended with
            ⟨t, s, h⟩
          exact absurd ⟨hlt, h⟩ (hstuck (some j) t s)
  | returned result => exact ⟨result, rfl⟩
  | entering vs =>
      rw [ht] at hmain
      cases hmain
  | solving vs =>
      rw [ht] at hmain
      cases hmain
  | writing vs refs =>
      rw [ht] at hmain
      cases hmain
  | failing vs =>
      rw [ht] at hmain
      cases hmain
  | leaving vs =>
      rw [ht] at hmain
      cases hmain
  | ended vs =>
      rw [ht] at hmain
      cases hmain

/-!
### `VariableGeneratorMT::solve`
-/

section Solve

variable (hps : Separated vcon (List.ofFn ps))
  (hunwritten : Unwritten vcon (supportOf (List.ofFn ps)))
  (hbuilt : forall i, Built vcon (ps i) (solvers_ i)) (hsound : env.Sound)
  (hcomplete : env.Complete)

include hps hunwritten hbuilt hsound hcomplete

theorem inv_run {c : Pool (Option (Fin n)) Thread (Shared n)}
    (hrun : Pool.Run (step env) (start solvers_ memory) c) :
    Pool.All (inv vcon ps solvers_ memory) c :=
  (stable_inv hps hunwritten hbuilt hsound hcomplete).run hrun
    (inv_start vcon ps solvers_ memory)

theorem exists_run_returned (hbdd : forall o, env.bdd = some o -> o.Complete)
    (hchecked : forall i, VariableDefaultSolver.Checked (solvers_ i))
    {c : Pool (Option (Fin n)) Thread (Shared n)}
    (hrun : Pool.Run (step env) (start solvers_ memory) c) :
    exists c' result, Pool.Run (step env) c c' ∧ c'.threads none = .returned result := by
  have hall := inv_run hps hunwritten hbuilt hsound hcomplete hrun
  have hstable : Pool.Stable (step env) (inv vcon ps solvers_ memory) :=
    stable_inv hps hunwritten hbuilt hsound hcomplete
  rcases Pool.exists_end hstable (fun x _ _ _ _ => rank_step hbuilt x) hall with
    ⟨c', hrest, hend⟩
  rcases exists_returned hbuilt hbdd hchecked (hstable.run hrest hall) hend with
    ⟨result, hreturned⟩
  exact ⟨c', result, hrest, hreturned⟩

/-- However the threads are interleaved, and whatever they draw, `solve` returns true exactly
when every partition can be solved, as the generator without threads does.  Then all hard
constraints are in force; otherwise every partition has all of its variables written or none.
Nothing else is written, and no thread goes on after that. -/
theorem solve_interleaved {c : Pool (Option (Fin n)) Thread (Shared n)} {result : Bool}
    (hrun : Pool.Run (step env) (start solvers_ memory) c)
    (hreturned : c.threads none = .returned result) :
    (result = true ↔ forall i, Solvable (solvers_ i) memory) ∧
      (result = true ->
        InForce vcon c.shared.memory ((List.ofFn ps).map hards).flatten) ∧
      (forall i, Left vcon ps memory c.shared.memory i (c.threads (some i))) ∧
      (forall i : Fin n, i.val < c.shared.created -> exists vs, c.threads (some i) = .ended vs) ∧
      WrittenOnly vcon (supportOf (List.ofFn ps)) memory c.shared.memory ∧
      forall w solvers' w' result', w.memory = memory ->
        VariableGenerator.solveFrom env (List.ofFn solvers_) w = .ok (result', solvers', w') ->
          result' = result := by
  have hall := inv_run hps hunwritten hbuilt hsound hcomplete hrun
  have hiff := returned_iff hall hreturned
  refine ⟨hiff, inForce_of_returned hall hreturned hps,
    left_of_returned hall hreturned hps hbuilt, ended_of_returned hall hreturned,
    (hall none).1.written, ?_⟩
  intro w solvers' w' result' hmemory hsolve
  have hmembers : forall vs, vs ∈ List.ofFn solvers_ ->
      exists p, p ∈ List.ofFn ps ∧ Built vcon p vs := by
    intro vs hvs
    rcases List.mem_ofFn.mp hvs with ⟨i, rfl⟩
    exact ⟨ps i, mem_partitions ps i, hbuilt i⟩
  have hwritten : WrittenOnly vcon (supportOf (List.ofFn ps)) memory w.memory := by
    rw [hmemory]
    exact WrittenOnly.refl _
  have hplain := solveFrom_eq_true_iff hunwritten hsound hcomplete hmembers hwritten hsolve
  rw [List.forall_mem_ofFn_iff, ← hiff] at hplain
  exact Bool.eq_iff_iff.mpr hplain

/-- The threads do not block each other: no run goes on forever, and where no thread can take
a step `solve` has returned. -/
theorem solve_returns (hbdd : forall o, env.bdd = some o -> o.Complete)
    (hchecked : forall i, VariableDefaultSolver.Checked (solvers_ i)) :
    (forall f : Nat -> Pool (Option (Fin n)) Thread (Shared n), f 0 = start solvers_ memory ->
        ¬ forall k, Pool.Step (step env) (f k) (f (k + 1))) ∧
      forall c, Pool.Run (step env) (start solvers_ memory) c ->
        (forall c', ¬ Pool.Step (step env) c c') ->
          exists result, c.threads none = .returned result := by
  constructor
  · intro f hstart
    apply Pool.no_infinite_run (stable_inv hps hunwritten hbuilt hsound hcomplete)
      (fun x _ _ _ _ => rank_step hbuilt x)
    rw [hstart]
    exact inv_start vcon ps solvers_ memory
  · intro c hrun hend
    exact exists_returned hbuilt hbdd hchecked
      (inv_run hps hunwritten hbuilt hsound hcomplete hrun) hend

end Solve

end Interleaved

/-!
### Two threads
-/

open VariableDefaultSolver (envIdeal envIdeal_sound envIdeal_complete byteConstraint)

theorem nodup_vconTwo : ([] ++ [1, 2]).Nodup := by
  decide

def vconTwo : VariableContainer :=
  VariableContainer.ofReferences ⟨8, false⟩ VariableContainer.byte_supported [] [1, 2]
    nodup_vconTwo

/-- The variable 1 is 5, the variable 2 is 6. -/
def cpTwo (i : Fin 2) : ConstraintPartition :=
  ConstraintPartition.start (byteConstraint i
    (equalConstant (i + 1) ⟨8, false⟩ (toConstantExpr ⟨8, false⟩ (i + 5))) false false)

theorem mem_cpTwo {i : Fin 2} {c : UserConstraint} (h : c ∈ (cpTwo i).constraints_) :
    c = byteConstraint i (equalConstant (i + 1) ⟨8, false⟩
      (toConstantExpr ⟨8, false⟩ (i + 5))) false false :=
  List.mem_singleton.mp h

theorem made_cpTwo (i : Fin 2) :
    forall c, c ∈ (cpTwo i).constraints_ -> c.Made vconTwo.variables_ := by
  intro c hc
  rw [mem_cpTwo hc]
  refine ⟨equalConstant_declared ?_ _, rfl⟩
  fin_cases i <;> rfl

theorem support_cpTwo (i : Fin 2) :
    forall c, c ∈ (cpTwo i).constraints_ -> c.support_vars_ ⊆ (cpTwo i).support_vars_ := by
  intro c hc
  rw [mem_cpTwo hc]
  exact Finset.Subset.refl _

theorem separated_cpTwo : Separated vconTwo (List.ofFn cpTwo) := by
  constructor
  · rw [List.pairwise_ofFn]
    intro i j hij
    have hne : i.val + 1 ≠ j.val + 1 := fun heq => absurd (Nat.succ_inj.mp heq) (Nat.ne_of_lt hij)
    exact Finset.disjoint_singleton.mpr hne
  · intro p hp
    rcases List.mem_ofFn.mp hp with ⟨i, rfl⟩
    exact support_cpTwo i
  · intro p hp
    rcases List.mem_ofFn.mp hp with ⟨i, rfl⟩
    exact made_cpTwo i

theorem unwritten_vconTwo (support : Set Nat) : Unwritten vconTwo support := by
  intro r hr
  cases hr

theorem exists_solver_cpTwo (i : Fin 2) :
    exists vs, Built vconTwo (cpTwo i) vs ∧ VariableDefaultSolver.Checked vs := by
  have hbuildable : Buildable envIdeal vconTwo (cpTwo i) := by
    fin_cases i <;> decide
  have hfiled : Filed (cpTwo i) :=
    VariableDefaultSolver.filed_of_collected (ConstraintPartitioner.Collected.start _)
  rcases exists_defaultSolver hbuildable (made_cpTwo i) hfiled 0 with ⟨⟨vs, time⟩, hnew⟩
  refine ⟨vs, VariableDefaultSolver.built_new (made_cpTwo i) (support_cpTwo i) hnew, ?_⟩
  exact VariableDefaultSolver.checked_of_analysisExact
    (VariableDefaultSolver.analysisExact_of_complete envIdeal_sound envIdeal_complete
      (made_cpTwo i)) (made_cpTwo i) hfiled hnew

theorem bdd_envIdeal (o : Oracle SolverVar) (ho : envIdeal.bdd = some o) : o.Complete := by
  cases ho

theorem solve_interleaved_two :
    exists (solvers_ : Fin 2 -> VariableDefaultSolver)
      (c : Pool (Option (Fin 2)) Thread (Shared 2)) (result : Bool),
      Pool.Run (step envIdeal) (start solvers_ fun _ => 0) c ∧
        c.threads none = .returned result ∧
        (result = true ↔ forall i, Solvable (solvers_ i) fun _ => 0) ∧
        (result = true ->
          InForce vconTwo c.shared.memory ((List.ofFn cpTwo).map hards).flatten) ∧
        (forall i, Left vconTwo cpTwo (fun _ => 0) c.shared.memory i (c.threads (some i))) ∧
        (forall i : Fin 2, i.val < c.shared.created ->
          exists vs, c.threads (some i) = .ended vs) ∧
        WrittenOnly vconTwo (supportOf (List.ofFn cpTwo)) (fun _ => 0) c.shared.memory ∧
        forall w solvers' w' result', (w.memory = fun _ => 0) ->
          VariableGenerator.solveFrom envIdeal (List.ofFn solvers_) w =
              .ok (result', solvers', w') ->
            result' = result := by
  choose solvers_ hbuilt hchecked using exists_solver_cpTwo
  have hunwritten := unwritten_vconTwo (supportOf (List.ofFn cpTwo))
  rcases exists_run_returned separated_cpTwo hunwritten hbuilt envIdeal_sound envIdeal_complete
    bdd_envIdeal hchecked (Relation.ReflTransGen.refl (a := start solvers_ fun _ => 0)) with
    ⟨c, result, hrun, hreturned⟩
  exact ⟨solvers_, c, result, hrun, hreturned,
    solve_interleaved separated_cpTwo hunwritten hbuilt envIdeal_sound envIdeal_complete hrun
      hreturned⟩

theorem solve_returns_two :
    exists solvers_ : Fin 2 -> VariableDefaultSolver,
      (forall f : Nat -> Pool (Option (Fin 2)) Thread (Shared 2),
          f 0 = start solvers_ (fun _ => 0) ->
            ¬ forall k, Pool.Step (step envIdeal) (f k) (f (k + 1))) ∧
        forall c, Pool.Run (step envIdeal) (start solvers_ fun _ => 0) c ->
          (forall c', ¬ Pool.Step (step envIdeal) c c') ->
            exists result, c.threads none = .returned result := by
  choose solvers_ hbuilt hchecked using exists_solver_cpTwo
  exact ⟨solvers_, solve_returns separated_cpTwo (unwritten_vconTwo _) hbuilt envIdeal_sound
    envIdeal_complete bdd_envIdeal hchecked⟩

end VariableGeneratorMT

end Backend
end Crave
