import Crave.Experimental.RepetitionMatches

/-!
# Hits of a transition bin

What a bin counts, compared with the matches of the transition that it was made for. The
runs of the bin are those over a chain of repetitions, with the bounds that are left of the
declared ones after their conversion to `int`, and the hits are counted modulo `2 ^ 32`.
-/

namespace Crave
namespace Experimental

open Foundation

universe u

variable {α : Type u}

open Repetition

/-!
## Bounds of type `int`
-/

/-- The state that the continue functions make of a repetition. -/
def Repetition.state (s : Repetition α) : FsmState α :=
  { type := s.type
    expr := s.expr
    minHit := (BitVec.ofNat 32 s.least).toInt
    maxHit := (BitVec.ofNat 32 s.most).toInt }

namespace FsmState

/-- The continue functions, one after the other. -/
def transition (chain : List (Repetition α)) : List (FsmState α) :=
  chain.foldl (fun node s =>
    addState node (BitVec.ofNat 32 s.least) (BitVec.ofNat 32 s.most) s.expr s.type) []

theorem foldl_addState {chain : List (Repetition α)} (node : List (FsmState α))
    (hchain : forall s, s ∈ chain -> s.Bounded ∧ s.most < 2 ^ 32) :
    chain.foldl (fun node s =>
      addState node (BitVec.ofNat 32 s.least) (BitVec.ofNat 32 s.most) s.expr s.type) node =
        node ++ chain.map Repetition.state := by
  induction chain generalizing node with
  | nil => simp
  | cons s rest ih =>
      rcases List.forall_mem_cons.mp hchain with ⟨⟨⟨hpos, hle⟩, hlt⟩, hrest⟩
      have hne : ¬ BitVec.ofNat 32 s.least ≤ 0 := by
        rw [BitVec.le_def, BitVec.toNat_ofNat]
        simp only [BitVec.ofNat_eq_ofNat, BitVec.toNat_ofNat, Nat.zero_mod]
        omega
      rw [List.foldl_cons, ih _ hrest, addState, if_neg hne]
      simp [Repetition.state]

theorem transition_eq {chain : List (Repetition α)}
    (hchain : forall s, s ∈ chain -> s.Bounded ∧ s.most < 2 ^ 32) :
    transition chain = chain.map Repetition.state := by
  rw [transition, foldl_addState [] hchain, List.nil_append]

/-- The repetitions that the comparisons with the bounds come to. -/
def repetition (s : FsmState α) : Repetition α :=
  { type := s.type
    expr := s.expr
    least := (max 1 s.minHit).toNat
    most := (max (max 1 s.minHit) s.maxHit).toNat }

theorem repetition_bounded (s : FsmState α) : s.repetition.Bounded := by
  show 1 ≤ (max 1 s.minHit).toNat ∧
    (max 1 s.minHit).toNat ≤ (max (max 1 s.minHit) s.maxHit).toNat
  omega

end FsmState

/-- What the bin counts of a declared repetition. -/
def Repetition.counted (s : Repetition α) : Repetition α :=
  s.state.repetition

theorem Repetition.counted_of_lt {s : Repetition α} (hbounded : s.Bounded)
    (h : s.most < 2 ^ 31) : s.counted = s := by
  rcases hbounded with ⟨hpos, hle⟩
  have hint : forall n : Nat, n < 2 ^ 31 -> (BitVec.ofNat 32 n).toInt = n := by
    intro n hn
    rw [BitVec.toInt_eq_toNat_cond, BitVec.toNat_ofNat]
    omega
  rcases s with ⟨type, expr, least, most⟩
  simp only [Repetition.counted, Repetition.state, FsmState.repetition,
    Repetition.mk.injEq, true_and] at hpos hle h ⊢
  rw [hint least (by omega), hint most h]
  omega

/-!
## The bin as a set of runs
-/

def Node.map {σ τ : Type u} (f : σ -> τ) (node : Node σ) : Node τ :=
  { prev := node.prev.map f
    state := f node.state
    succ := node.succ.map f }

theorem Node.succ?_map {σ τ : Type u} (f : σ -> τ) (node : Node σ) :
    (node.map f).succ? = node.succ?.map (Node.map f) := by
  unfold Node.succ? Node.map
  cases node.succ <;> rfl

/-- A run of the bin as one over the chain that it counts. -/
def Run.reading (r : Run α) : Reading α :=
  { state := r.state.map FsmState.repetition
    count := r.count.toNat }

/-- The counter is below the greater bound. -/
def Run.Counts (r : Run α) : Prop :=
  0 ≤ r.count ∧ r.count < max (max 1 r.state.state.minHit) r.state.state.maxHit

namespace TransitionBin

def machine (root : Node (FsmState α)) : RunMachine α (Run α) where
  start x := if root.state.expr x then some { state := root, count := 0 } else none
  step r x := (checkRun x r [] false).1
  done r x := (checkRun x r [] false).2

theorem checkRun_append (x : α) (r : Run α) (acc : List (Run α)) (hit : Bool) :
    checkRun x r acc hit =
      (acc ++ (checkRun x r [] false).1, hit || (checkRun x r [] false).2) := by
  simp only [checkRun, hitState, hardFail, softFail]
  split
  · split
    · simp
    · split
      · split <;> simp
      · split <;> simp
  · split
    · split
      · simp
      · split
        · split <;> simp
        · simp
    · simp

theorem foldl_checkRun (x : α) (rs : List (Run α)) (acc : List (Run α)) (hit : Bool) :
    rs.foldl (fun acc current => checkRun x current acc.1 acc.2) (acc, hit) =
      (acc ++ rs.flatMap (fun r => (checkRun x r [] false).1),
        hit || rs.any (fun r => (checkRun x r [] false).2)) := by
  induction rs generalizing acc hit with
  | nil => simp
  | cons r rs ih =>
      rw [List.foldl_cons]
      change rs.foldl _ (checkRun x r acc hit) = _
      rw [checkRun_append, ih]
      simp [Bool.or_assoc]

theorem calcHit_spec (bin : TransitionBin α) (x : α) :
    bin.calcHit x =
      { bin with
        runs := (machine bin.root).next bin.runs x
        hit_count_ := bin.hit_count_ +
          BitVec.ofNat 32 ((machine bin.root).hit bin.runs x).toNat } := by
  simp only [calcHit, foldl_checkRun, RunMachine.next, RunMachine.hit, machine]
  cases hroot : bin.root.state.expr x with
  | true =>
      rw [if_pos rfl, if_pos rfl, checkRun_append]
      simp only [Option.toList_some, List.flatMap_append, List.any_append, List.flatMap_cons,
        List.flatMap_nil, List.any_cons, List.any_nil, List.append_nil, Bool.or_false,
        Bool.false_or, List.nil_append]
      cases bin.runs.any (fun r => (checkRun x r [] false).2) || _ <;> simp [incrementHit]
  | false =>
      rw [if_neg Bool.false_ne_true, if_neg Bool.false_ne_true]
      simp only [Option.toList_none, List.append_nil, List.nil_append, Bool.false_or]
      cases bin.runs.any (fun r => (checkRun x r [] false).2) <;> simp [incrementHit]

theorem hit_count_sampleAll (bin : TransitionBin α) (samples : List α) :
    (bin.sampleAll samples).hit_count_ =
      bin.hit_count_ + BitVec.ofNat 32 ((machine bin.root).count bin.runs samples) := by
  induction samples generalizing bin with
  | nil => exact (BitVec.add_zero _).symm
  | cons x samples ih =>
      change ((bin.calcHit x).sampleAll samples).hit_count_ = _
      rw [ih, calcHit_spec]
      simp only [RunMachine.count]
      rw [BitVec.ofNat_add, BitVec.add_assoc]

theorem counts_start (root : Node (FsmState α)) :
    ({ state := root, count := 0 } : Run α).Counts := by
  show (0 : Int) ≤ 0 ∧ 0 < max (max 1 root.state.minHit) root.state.maxHit
  omega

theorem counts_succ {r : Run α} (h : r.Counts) :
    (r.count + 1 < r.state.state.minHit ↔
        ¬ r.reading.state.state.least ≤ r.reading.count + 1) ∧
      (r.count + 1 < max (max 1 r.state.state.minHit) r.state.state.maxHit ↔
        r.reading.count + 1 < r.reading.state.state.most) ∧
      (r.count + 1).toNat = r.reading.count + 1 := by
  rcases h with ⟨hnonneg, -⟩
  show (r.count + 1 < r.state.state.minHit ↔
      ¬ (max 1 r.state.state.minHit).toNat ≤ r.count.toNat + 1) ∧
    (r.count + 1 < max (max 1 r.state.state.minHit) r.state.state.maxHit ↔
      r.count.toNat + 1 < (max (max 1 r.state.state.minHit) r.state.state.maxHit).toNat) ∧
    (r.count + 1).toNat = r.count.toNat + 1
  omega

/-- The runs that a hit of the state leaves, and whether it is the last one. -/
theorem hitState_reading {r : Run α} (h : r.Counts) :
    (hitState r [] false).1.map Run.reading = r.reading.after ∧
      (hitState r [] false).2 =
        (decide (r.reading.state.state.least ≤ r.reading.count + 1) &&
          r.reading.state.succ.isEmpty) ∧
      forall r', r' ∈ (hitState r [] false).1 -> r'.Counts := by
  rcases counts_succ h with ⟨hmin, hmax, hcount⟩
  have hnonneg := h.left
  have hagain : ({ r with count := r.count + 1 } : Run α).reading =
      { r.reading with count := r.reading.count + 1 } := by
    unfold Run.reading
    rw [hcount]
    rfl
  have hsucc : r.reading.state.succ? = r.state.succ?.map (Node.map FsmState.repetition) :=
    Node.succ?_map _ _
  have hlast : r.reading.state.succ.isEmpty = r.state.succ?.isNone := by
    show (r.state.succ.map FsmState.repetition).isEmpty = _
    unfold Node.succ?
    cases r.state.succ <;> rfl
  have hnext : forall next : Node (FsmState α), ({ state := next, count := 0 } : Run α).reading =
      { state := next.map FsmState.repetition, count := 0 } := fun _ => rfl
  have hlater : r.count + 1 < max (max 1 r.state.state.minHit) r.state.state.maxHit ->
      ({ r with count := r.count + 1 } : Run α).Counts :=
    fun hlt => ⟨show 0 ≤ r.count + 1 by omega, hlt⟩
  unfold Reading.after
  rw [hsucc, hlast]
  simp only [hitState]
  by_cases hbelow : r.count + 1 < r.state.state.minHit
  · have hlt : r.count + 1 < max (max 1 r.state.state.minHit) r.state.state.maxHit := by omega
    rw [if_pos hbelow, if_pos (hmax.mp hlt), if_neg (hmin.mp hbelow),
      decide_eq_false (hmin.mp hbelow)]
    refine ⟨?_, rfl, ?_⟩
    · simp only [List.nil_append, List.map_cons, List.map_nil, List.append_nil, hagain]
    · intro r' hr'
      rw [List.mem_singleton.mp hr']
      exact hlater hlt
  · have hleast := not_not.mp (fun hnot => hbelow (hmin.mpr hnot))
    rw [if_neg hbelow, if_pos hleast, decide_eq_true hleast, Bool.true_and]
    by_cases hbetween : r.count + 1 < r.state.state.maxHit
    · have hlt : r.count + 1 < max (max 1 r.state.state.minHit) r.state.state.maxHit := by omega
      rw [if_pos ⟨not_lt.mp hbelow, hbetween⟩, if_pos (hmax.mp hlt)]
      cases r.state.succ? with
      | none =>
          refine ⟨?_, rfl, ?_⟩
          · simp only [List.nil_append, List.map_cons, List.map_nil, hagain, Option.map_none,
              Option.toList_none, List.append_nil]
          · intro r' hr'
            rw [List.mem_singleton.mp hr']
            exact hlater hlt
      | some next =>
          refine ⟨?_, rfl, ?_⟩
          · simp only [List.nil_append, List.singleton_append, List.map_cons, List.map_nil,
              hagain, hnext, Option.map_some, Option.toList_some]
          · intro r' hr'
            cases List.mem_cons.mp hr' with
            | inl heq =>
                rw [heq]
                exact hlater hlt
            | inr hrest =>
                rw [List.mem_singleton.mp hrest]
                exact counts_start next
    · have hge : ¬ r.count + 1 < max (max 1 r.state.state.minHit) r.state.state.maxHit := by
        omega
      rw [if_neg (fun h => hbetween h.right), if_neg (fun h => hge (hmax.mpr h))]
      cases r.state.succ? with
      | none => exact ⟨rfl, rfl, fun r' hr' => (nomatch hr')⟩
      | some next =>
          refine ⟨rfl, rfl, ?_⟩
          intro r' hr'
          rw [List.mem_singleton.mp hr']
          exact counts_start next

theorem checkRun_miss {r : Run α} {x : α} (hx : r.state.state.expr x = false) :
    checkRun x r [] false =
      (if Reading.survives r.reading.state x then [r] else [], false) := by
  have hsurvives : Reading.survives r.reading.state x =
      (r.state.state.type != .CONSEC ||
        r.state.prev.any fun p => p.type == .NON_CONSEC && !p.expr x) := by
    show (r.state.state.type != .CONSEC ||
      (r.state.prev.map FsmState.repetition).any fun p => p.type == .NON_CONSEC && !p.expr x) = _
    cases r.state.prev <;> rfl
  rw [hsurvives]
  unfold checkRun
  simp only [hx, Bool.false_eq_true, if_false]
  by_cases htype : r.state.state.type = .CONSEC
  · rw [if_pos htype, htype]
    unfold hardFail
    cases r.state.prev with
    | none => rfl
    | some p =>
        by_cases hkind : p.type = .NON_CONSEC
        · cases hagain : p.expr x with
          | true => simp [hkind, hagain]
          | false => simp [hkind, hagain]
        · simp [hkind]
  · rw [if_neg htype]
    simp [softFail, htype]

/-- The runs of the bin are those over the chain that it counts. -/
theorem refines_machine (root : Node (FsmState α)) :
    (machine root).Refines (Reading.machine (root.map FsmState.repetition)) Run.reading
      Run.Counts := by
  have hstep : forall (r : Run α) x, r.Counts ->
      (Reading.machine (root.map FsmState.repetition)).step r.reading x =
          ((machine root).step r x).map Run.reading ∧
        (forall r', r' ∈ (machine root).step r x -> r'.Counts) ∧
        (Reading.machine (root.map FsmState.repetition)).done r.reading x =
          (machine root).done r x := by
    intro r x hcounts
    rcases hitState_reading hcounts with ⟨hruns, hlast, hkeeps⟩
    have hexpr : r.reading.state.state.expr x = r.state.state.expr x := rfl
    simp only [machine, Reading.machine, hexpr]
    cases hx : r.state.state.expr x with
    | true =>
        have hhit : checkRun x r [] false = hitState r [] false := by
          unfold checkRun
          simp only [hx, if_true]
        rw [hhit, hruns, hlast]
        exact ⟨rfl, hkeeps, Bool.true_and _⟩
    | false =>
        rw [checkRun_miss hx]
        cases Reading.survives r.reading.state x with
        | true =>
            refine ⟨rfl, ?_, rfl⟩
            intro r' hr'
            rw [List.mem_singleton.mp hr']
            exact hcounts
        | false => exact ⟨rfl, fun r' hr' => absurd hr' List.not_mem_nil, rfl⟩
  exact
    { start := by
        intro x
        simp only [machine, Reading.machine]
        show (if root.state.expr x = true then _ else _) = _
        split <;> rfl
      starts := by
        intro x r hr
        simp only [machine, Option.ite_none_right_eq_some, Option.some.injEq] at hr
        rw [← hr.2]
        exact counts_start root
      step := fun r x hcounts => (hstep r x hcounts).1
      keeps := fun r x r' hcounts hr' => (hstep r x hcounts).2.1 r' hr'
      done := fun r x hcounts => (hstep r x hcounts).2.2 }

theorem runs_sampleAll (bin : TransitionBin α) (samples : List α) :
    (bin.sampleAll samples).runs = samples.foldl (machine bin.root).next bin.runs := by
  induction samples generalizing bin with
  | nil => rfl
  | cons x samples ih =>
      change ((bin.calcHit x).sampleAll samples).runs = _
      rw [ih, calcHit_spec]
      rfl

/-- The counter of a run stays below a bound of its state, so that it is within `int`. -/
theorem counts_sampleAll (root : FsmState α) (succ : List (FsmState α)) (samples : List α) :
    forall r, r ∈ ((new root succ).sampleAll samples).runs -> r.Counts := by
  rw [runs_sampleAll]
  exact (refines_machine ⟨none, root, succ⟩).runs (fun r hr => absurd hr List.not_mem_nil) samples

/-- The bin counts, modulo `2 ^ 32`, the positions at which a word ends that a run takes. -/
theorem hit_count_new (root : FsmState α) (succ : List (FsmState α)) (samples : List α) :
    ((new root succ).sampleAll samples).hit_count_.toNat =
      {n | TakenEndsAt root.repetition (succ.map FsmState.repetition) samples n}.ncard %
        2 ^ 32 := by
  have hcount : (machine (new root succ).root).count [] samples =
      {n | TakenEndsAt root.repetition (succ.map FsmState.repetition) samples n}.ncard := by
    rw [← (refines_machine (new root succ).root).count
      (fun r hr => absurd hr List.not_mem_nil) samples,
      List.map_nil, RunMachine.count_eq_ncard]
    congr 1
    ext n
    apply Reading.endsAt_iff_takenEndsAt
    intro s hs
    cases List.mem_cons.mp hs with
    | inl heq =>
        rw [heq]
        exact root.repetition_bounded
    | inr hrest =>
        rcases List.mem_map.mp hrest with ⟨t, -, rfl⟩
        exact t.repetition_bounded
  rw [hit_count_sampleAll]
  change ((0 : BitVec 32) + BitVec.ofNat 32 ((machine (new root succ).root).count []
    samples)).toNat = _
  rw [BitVec.ofNat_eq_ofNat, BitVec.zero_add, BitVec.toNat_ofNat, hcount]

/-!
## Hits and matches
-/

theorem finite_matchEndsAt (gap : Repetition α -> Repetition α -> α -> Prop)
    (root : Repetition α) (succ : List (Repetition α)) (samples : List α) :
    {n | MatchEndsAt gap root succ samples n}.Finite :=
  (Set.finite_lt_nat samples.length).subset fun _ h => h.1

theorem ncard_matchEndsAt_le (gap : Repetition α -> Repetition α -> α -> Prop)
    (root : Repetition α) (succ : List (Repetition α)) (samples : List α) :
    {n | MatchEndsAt gap root succ samples n}.ncard ≤ samples.length := by
  have hsub : {n | MatchEndsAt gap root succ samples n} ⊆
      (Finset.range samples.length : Set Nat) :=
    fun n h => Finset.mem_coe.mpr (Finset.mem_range.mpr h.1)
  have hle := Set.ncard_le_ncard hsub (Finset.finite_toSet _)
  rwa [Set.ncard_coe_finset, Finset.card_range] at hle

section Chain

variable {root : Repetition α} {succ : List (Repetition α)} {node : FsmState α}
  {rest : List (FsmState α)} {samples : List α}

theorem hit_count_transition (hbounded : forall s, s ∈ root :: succ -> s.Bounded ∧ s.most < 2 ^ 32)
    (hnodes : FsmState.transition (root :: succ) = node :: rest) :
    ((new node rest).sampleAll samples).hit_count_.toNat =
      {n | TakenEndsAt root.counted (succ.map Repetition.counted) samples n}.ncard %
        2 ^ 32 := by
  rw [FsmState.transition_eq hbounded, List.map_cons] at hnodes
  cases hnodes
  rw [hit_count_new, List.map_map]
  rfl

theorem counted_chain (hbounded : forall s, s ∈ root :: succ -> s.Bounded)
    (hint : forall s, s ∈ root :: succ -> s.most < 2 ^ 31) :
    root.counted = root ∧ succ.map Repetition.counted = succ := by
  refine ⟨counted_of_lt (hbounded _ List.mem_cons_self) (hint _ List.mem_cons_self), ?_⟩
  rw [List.map_congr_left fun s hs => counted_of_lt
    (hbounded s (List.mem_cons_of_mem root hs)) (hint s (List.mem_cons_of_mem root hs)),
    List.map_id']

theorem takenEndsAt_iff_matchEndsAt (hbounded : forall s, s ∈ root :: succ -> s.Bounded)
    (hsamples : ¬ Interrupted root succ samples) (n : Nat) :
    TakenEndsAt root succ samples n ↔ MatchEndsAt shortGap root succ samples n :=
  (Reading.endsAt_iff_takenEndsAt hbounded n).symm.trans
    (Reading.endsAt_iff_matchEndsAt hbounded hsamples n)

/-- Without a non-consecutive state the runs take the words of the chain. -/
theorem takenEndsAt_iff_of_kinds (hbounded : forall s, s ∈ root :: succ -> s.Bounded)
    (hkinds : forall s, s ∈ root :: succ -> s.type ≠ .NON_CONSEC) (n : Nat) :
    TakenEndsAt root succ samples n ↔ MatchEndsAt freeGap root succ samples n := by
  rw [takenEndsAt_iff_matchEndsAt hbounded (Reading.not_interrupted hkinds)]
  constructor
  · exact Reading.matchEndsAt_gap_mono fun p s y hp hkind => absurd hkind (hkinds p hp)
  · exact Reading.matchEndsAt_gap_mono fun p s y hp hkind => absurd hkind (hkinds p hp)

/-- The short gaps are gaps, so the counts of the matches agree, modulo a number, exactly when
every match can be read with short gaps and the number is not reached. -/
theorem ncard_shortGap_mod_eq_iff {modulus : Nat} (hpos : 0 < modulus) :
    {n | MatchEndsAt shortGap root succ samples n}.ncard % modulus =
        {n | MatchEndsAt freeGap root succ samples n}.ncard ↔
      (forall n, MatchEndsAt freeGap root succ samples n ->
        MatchEndsAt shortGap root succ samples n) ∧
        {n | MatchEndsAt freeGap root succ samples n}.ncard < modulus := by
  have hsub : {n | MatchEndsAt shortGap root succ samples n} ⊆
      {n | MatchEndsAt freeGap root succ samples n} :=
    fun n => Reading.matchEndsAt_gap_mono fun p s y _ _ hy => hy.left
  have hfinite := finite_matchEndsAt freeGap root succ samples
  constructor
  · intro h
    have hlt : {n | MatchEndsAt freeGap root succ samples n}.ncard < modulus := by
      rw [← h]
      exact Nat.mod_lt _ hpos
    have hle := Set.ncard_le_ncard hsub hfinite
    rw [Nat.mod_eq_of_lt (hle.trans_lt hlt)] at h
    exact ⟨(Set.eq_of_subset_of_ncard_le hsub h.ge hfinite).ge, hlt⟩
  · rintro ⟨hshort, hlt⟩
    rw [Set.Subset.antisymm hsub hshort]
    exact Nat.mod_eq_of_lt hlt

end Chain

/-- A chain of consecutive and goto states: the hit count is the number of samples at which
a match ends exactly when as many matches, modulo `2 ^ 32`, end with the bounds that the bin
counts with; with bounds of type `int`, exactly when it is below `2 ^ 32`. -/
theorem hit_count_consecutive_goto (root : Repetition α) (succ : List (Repetition α))
    (node : FsmState α) (rest : List (FsmState α)) (samples : List α)
    (hbounded : forall s, s ∈ root :: succ -> s.Bounded ∧ s.most < 2 ^ 32)
    (hkinds : forall s, s ∈ root :: succ -> s.type ≠ .NON_CONSEC)
    (hnodes : FsmState.transition (root :: succ) = node :: rest) :
    (((new node rest).sampleAll samples).hit_count_.toNat =
        {n | MatchEndsAt freeGap root succ samples n}.ncard ↔
      {n | MatchEndsAt freeGap root.counted (succ.map Repetition.counted) samples n}.ncard %
        2 ^ 32 = {n | MatchEndsAt freeGap root succ samples n}.ncard) ∧
    ((forall s, s ∈ root :: succ -> s.most < 2 ^ 31) ->
      (((new node rest).sampleAll samples).hit_count_.toNat =
          {n | MatchEndsAt freeGap root succ samples n}.ncard ↔
        {n | MatchEndsAt freeGap root succ samples n}.ncard < 2 ^ 32)) := by
  have hcounted : forall s, s ∈ root.counted :: succ.map Repetition.counted ->
      s.Bounded ∧ s.type ≠ .NON_CONSEC := by
    intro s hs
    rw [← List.map_cons] at hs
    rcases List.mem_map.mp hs with ⟨t, ht, rfl⟩
    exact ⟨t.state.repetition_bounded, hkinds t ht⟩
  have hends : {n | TakenEndsAt root.counted (succ.map Repetition.counted) samples n} =
      {n | MatchEndsAt freeGap root.counted (succ.map Repetition.counted) samples n} := by
    ext n
    exact takenEndsAt_iff_of_kinds (fun s hs => (hcounted s hs).1) (fun s hs => (hcounted s hs).2)
      n
  constructor
  · rw [hit_count_transition hbounded hnodes, hends]
  · intro hint
    rcases counted_chain (fun s hs => (hbounded s hs).1) hint with ⟨hroot, hsucc⟩
    rw [hit_count_transition hbounded hnodes, hends, hroot, hsucc]
    exact Nat.mod_eq_iff_lt (by decide)

theorem hit_count_consecutive_goto_test :
    {n | MatchEndsAt freeGap ⟨.CONSEC, (· == 0), 1, 1⟩
      [⟨.GOTO, (· == 1), 2, 4⟩, ⟨.CONSEC, (· == 0), 1, 1⟩]
      [0, 1, 0, 1, 2, 0, 0, 1, 0, 0, 0, 1] n}.ncard = 1 := by
  have hbounded : forall s, s ∈ [(⟨.CONSEC, (· == 0), 1, 1⟩ : Repetition Nat),
      ⟨.GOTO, (· == 1), 2, 4⟩, ⟨.CONSEC, (· == 0), 1, 1⟩] -> s.Bounded ∧ s.most < 2 ^ 32 := by
    simp [Repetition.Bounded]
  have hiff := (hit_count_consecutive_goto ⟨.CONSEC, (· == 0), 1, 1⟩
    [⟨.GOTO, (· == 1), 2, 4⟩, ⟨.CONSEC, (· == 0), 1, 1⟩] _ _
    [0, 1, 0, 1, 2, 0, 0, 1, 0, 0, 0, 1] hbounded (by simp)
    (FsmState.transition_eq hbounded)).right (by simp)
  refine (hiff.mpr (lt_of_le_of_lt (ncard_matchEndsAt_le _ _ _ _) (by decide))).symm.trans ?_
  decide +kernel

/-- `0 => 1 [* 1:4294967295] => 2`: the bound is stored as minus one. -/
theorem hit_count_bound_negative :
    ¬ forall (root : Repetition Nat) (succ : List (Repetition Nat)) (node : FsmState Nat)
        (rest : List (FsmState Nat)) (samples : List Nat),
      (forall s, s ∈ root :: succ -> s.Bounded ∧ s.most < 2 ^ 32) ->
      (forall s, s ∈ root :: succ -> s.type ≠ .NON_CONSEC) ->
      FsmState.transition (root :: succ) = node :: rest ->
        ((new node rest).sampleAll samples).hit_count_.toNat =
          {n | MatchEndsAt freeGap root succ samples n}.ncard := by
  intro hclaim
  have hbounded : forall s, s ∈ [(⟨.CONSEC, (· == 0), 1, 1⟩ : Repetition Nat),
      ⟨.CONSEC, (· == 1), 1, 4294967295⟩, ⟨.CONSEC, (· == 2), 1, 1⟩] ->
        s.Bounded ∧ s.most < 2 ^ 32 := by
    simp [Repetition.Bounded]
  have hcount := hclaim ⟨.CONSEC, (· == 0), 1, 1⟩
    [⟨.CONSEC, (· == 1), 1, 4294967295⟩, ⟨.CONSEC, (· == 2), 1, 1⟩] _ _ [0, 1, 1, 2] hbounded
    (by simp) (FsmState.transition_eq hbounded)
  have hnone : ((new (Repetition.state ⟨.CONSEC, (· == 0), 1, 1⟩)
      ([⟨.CONSEC, (· == 1), 1, 4294967295⟩, ⟨.CONSEC, (· == 2), 1, 1⟩].map
        Repetition.state)).sampleAll [0, 1, 1, 2]).hit_count_.toNat = 0 := by
    decide +kernel
  have hends : MatchEndsAt freeGap ⟨.CONSEC, (· == 0), 1, 1⟩
      [⟨.CONSEC, (· == 1), 1, 4294967295⟩, ⟨.CONSEC, (· == 2), 1, 1⟩] [0, 1, 1, 2] 3 := by
    have hrepeats : forall (s : Repetition Nat) x, s.expr x = true -> s.Repeats 1 [x] :=
      fun s x hx => repeats_succ_iff.mpr ⟨x, [], rfl, Or.inl ⟨hx, repeats_zero_iff.mpr rfl⟩⟩
    refine ⟨by decide, [], [0, 1, 1, 2], rfl, ⟨0, [1, 1, 2], rfl, rfl⟩, ?_⟩
    refine ⟨[], 1, [0], [1, 1, 2], rfl, Or.inl rfl, by decide, by decide, hrepeats _ 0 rfl, ?_⟩
    refine ⟨[], 2, [1, 1], [2], rfl, Or.inl rfl, by decide, by decide, ?_, ?_⟩
    · exact repeats_succ_iff.mpr ⟨1, [1], rfl, Or.inl ⟨rfl, hrepeats _ 1 rfl⟩⟩
    · exact ⟨[], 1, [2], [], rfl, Or.inl rfl, by decide, by decide, hrepeats _ 2 rfl, rfl⟩
  rw [hnone] at hcount
  exact (Set.ncard_pos (finite_matchEndsAt _ _ _ _)).mpr ⟨3, hends⟩ |>.ne hcount

/-!
## Non-consecutive chains
-/

/-- The hit count is the number of samples at which a match ends exactly when as many words
end, modulo `2 ^ 32`, that runs take with the bounds that the bin counts with.  With bounds of
type `int`, and unless a consecutive repetition is interrupted right behind a non-consecutive
state, that is when every match can be read with gaps that end at the next state too, and fewer
than `2 ^ 32` of them end. -/
theorem hit_count_non_consecutive (root : Repetition α) (succ : List (Repetition α))
    (node : FsmState α) (rest : List (FsmState α)) (samples : List α)
    (hbounded : forall s, s ∈ root :: succ -> s.Bounded ∧ s.most < 2 ^ 32)
    (hnodes : FsmState.transition (root :: succ) = node :: rest) :
    (((new node rest).sampleAll samples).hit_count_.toNat =
        {n | MatchEndsAt freeGap root succ samples n}.ncard ↔
      {n | TakenEndsAt root.counted (succ.map Repetition.counted) samples n}.ncard % 2 ^ 32 =
        {n | MatchEndsAt freeGap root succ samples n}.ncard) ∧
    ((forall s, s ∈ root :: succ -> s.most < 2 ^ 31) -> ¬ Interrupted root succ samples ->
      ((new node rest).sampleAll samples).hit_count_.toNat =
          {n | MatchEndsAt shortGap root succ samples n}.ncard % 2 ^ 32 ∧
        (((new node rest).sampleAll samples).hit_count_.toNat =
            {n | MatchEndsAt freeGap root succ samples n}.ncard ↔
          (forall n, MatchEndsAt freeGap root succ samples n ->
            MatchEndsAt shortGap root succ samples n) ∧
            {n | MatchEndsAt freeGap root succ samples n}.ncard < 2 ^ 32)) := by
  constructor
  · rw [hit_count_transition hbounded hnodes]
  · intro hint hsamples
    rcases counted_chain (fun s hs => (hbounded s hs).1) hint with ⟨hroot, hsucc⟩
    have htaken : {n | TakenEndsAt root succ samples n} =
        {n | MatchEndsAt shortGap root succ samples n} := by
      ext n
      exact takenEndsAt_iff_matchEndsAt (fun s hs => (hbounded s hs).1) hsamples n
    rw [hit_count_transition hbounded hnodes, hroot, hsucc, htaken]
    exact ⟨rfl, ncard_shortGap_mod_eq_iff (by decide)⟩

theorem hit_count_non_consecutive_test :
    {n | MatchEndsAt shortGap ⟨.CONSEC, (· == 1), 1, 1⟩
      [⟨.NON_CONSEC, (· == 2), 3, 6⟩, ⟨.CONSEC, (· == 5), 1, 1⟩]
      [1, 4, 3, 2, 3, 3, 2, 2, 3, 2, 3, 1, 5, 5, 5, 5, 5, 5] n}.ncard = 1 := by
  have hbounded : forall s, s ∈ [(⟨.CONSEC, (· == 1), 1, 1⟩ : Repetition Nat),
      ⟨.NON_CONSEC, (· == 2), 3, 6⟩, ⟨.CONSEC, (· == 5), 1, 1⟩] ->
        s.Bounded ∧ s.most < 2 ^ 32 := by
    simp [Repetition.Bounded]
  have hmod := ((hit_count_non_consecutive ⟨.CONSEC, (· == 1), 1, 1⟩
    [⟨.NON_CONSEC, (· == 2), 3, 6⟩, ⟨.CONSEC, (· == 5), 1, 1⟩] _ _
    [1, 4, 3, 2, 3, 3, 2, 2, 3, 2, 3, 1, 5, 5, 5, 5, 5, 5] hbounded
    (FsmState.transition_eq hbounded)).right (by simp) ?_).left
  · rw [Nat.mod_eq_of_lt (lt_of_le_of_lt (ncard_matchEndsAt_le _ _ _ _) (by decide))] at hmod
    refine hmod.symm.trans ?_
    decide +kernel
  · -- every consecutive state of the chain is passed with its first repetition
    rintro ⟨before, s, t, after, -, -, -, n, -, -, -, hchain, -, htype, -, -, -, -, hpos, hmax, -⟩
    have ht : t ∈ (before ++ [s]) ++ t :: after := by simp
    rw [← hchain] at ht
    simp only [List.mem_cons, List.not_mem_nil, or_false] at ht
    rcases ht with rfl | rfl | rfl
    · exact absurd hpos (by simp at hmax; omega)
    · cases htype
    · exact absurd hpos (by simp at hmax; omega)

/-- `1 [= 1] => 2 [* 2]`: a match ends with two samples that are 2. -/
theorem suffix_of_matches {w : List Nat}
    (h : Matches freeGap none [⟨.NON_CONSEC, (· == 1), 1, 1⟩, ⟨.CONSEC, (· == 2), 2, 2⟩] w) :
    [2, 2] <:+ w := by
  rcases h with ⟨pause, n, reps, -, rfl, -, -, -, -, gap, m, twice, -, rfl, -, hmin, hmax,
    htwice, rfl⟩
  have hm : m = 1 + 1 := Nat.le_antisymm hmax hmin
  have htwo : twice = [2, 2] := by
    rw [hm] at htwice
    rcases repeats_succ_iff.mp htwice with ⟨x, v, rfl, ⟨hx, hv⟩ | ⟨hsoft, -⟩⟩
    · rcases repeats_succ_iff.mp hv with ⟨y, u, rfl, ⟨hy, hu⟩ | ⟨hsoft, -⟩⟩
      · rw [repeats_zero_iff.mp hu, eq_of_beq hx, eq_of_beq hy]
      · exact absurd rfl hsoft
    · exact absurd rfl hsoft
  rw [htwo, List.append_nil]
  exact (List.suffix_append _ _).trans (List.suffix_append _ _)

/-- The 3 interrupts the two repetitions of 2, and the bin counts a hit at the end. -/
theorem hit_count_interrupted :
    ¬ forall (root : Repetition Nat) (succ : List (Repetition Nat)) (node : FsmState Nat)
        (rest : List (FsmState Nat)) (samples : List Nat),
      (forall s, s ∈ root :: succ -> s.Bounded ∧ s.most < 2 ^ 32) ->
      (exists s, s ∈ root :: succ ∧ s.type = .NON_CONSEC) ->
      FsmState.transition (root :: succ) = node :: rest ->
        ((new node rest).sampleAll samples).hit_count_.toNat =
          {n | MatchEndsAt freeGap root succ samples n}.ncard := by
  intro hclaim
  have hbounded : forall s, s ∈ [(⟨.NON_CONSEC, (· == 1), 1, 1⟩ : Repetition Nat),
      ⟨.CONSEC, (· == 2), 2, 2⟩] -> s.Bounded ∧ s.most < 2 ^ 32 := by
    simp [Repetition.Bounded]
  have hcount := hclaim ⟨.NON_CONSEC, (· == 1), 1, 1⟩ [⟨.CONSEC, (· == 2), 2, 2⟩] _ _
    [1, 2, 3, 2] hbounded ⟨_, List.mem_cons_self, rfl⟩ (FsmState.transition_eq hbounded)
  have hone : ((new (Repetition.state ⟨.NON_CONSEC, (· == 1), 1, 1⟩)
      ([⟨.CONSEC, (· == 2), 2, 2⟩].map Repetition.state)).sampleAll
        [1, 2, 3, 2]).hit_count_.toNat = 1 := by
    decide +kernel
  have hempty : {n | MatchEndsAt freeGap ⟨.NON_CONSEC, (· == 1), 1, 1⟩
      [⟨.CONSEC, (· == 2), 2, 2⟩] [1, 2, 3, 2] n} = ∅ := by
    apply Set.eq_empty_of_forall_notMem
    rintro n ⟨hn, pre, w, htake, -, hmatches⟩
    have hsuffix : [2, 2] <:+ List.take (n + 1) [1, 2, 3, 2] := by
      rw [htake]
      exact (suffix_of_matches hmatches).trans (List.suffix_append _ _)
    have hcases : n = 0 ∨ n = 1 ∨ n = 2 ∨ n = 3 := by
      simp only [List.length_cons, List.length_nil] at hn
      omega
    rcases hcases with rfl | rfl | rfl | rfl <;> revert hsuffix <;> decide
  rw [hone, hempty, Set.ncard_empty] at hcount
  cases hcount

end TransitionBin

end Experimental
end Crave
