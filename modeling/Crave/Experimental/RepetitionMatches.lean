import Crave.Foundation.RunMachine
import Crave.Experimental.CoverageBins

/-!
# Matches of a chain of repetitions

The words that a chain of repetitions describes, and those that runs over the chain take.
A run counts the repetitions of one state; a set of concurrent runs completes at the
positions at which a word ends that one of them takes.
-/

namespace Crave
namespace Experimental

open Foundation

universe u

variable {α : Type u}

/-- A statement of a transition: from `least` to `most` repetitions. -/
structure Repetition (α : Type u) where
  type : NodeType
  expr : α -> Bool
  least : Nat
  most : Nat

namespace Repetition

def Bounded (s : Repetition α) : Prop :=
  1 ≤ s.least ∧ s.least ≤ s.most

end Repetition

/-!
## The words of a transition
-/

namespace Repetition

/-- One repetition: the predicate holds at the end, and before it only a
non-consecutive kind lets other samples pass. -/
def Block (s : Repetition α) (w : List α) : Prop :=
  exists skipped x, w = skipped ++ [x] ∧ s.expr x = true ∧
    forall y, y ∈ skipped -> s.type ≠ .CONSEC ∧ s.expr y = false

def Repeats (s : Repetition α) (n : Nat) (w : List α) : Prop :=
  exists blocks : List (List α),
    blocks.length = n ∧ (forall b, b ∈ blocks -> s.Block b) ∧ w = blocks.flatten

/-- The samples that may follow the repetitions of a non-consecutive state, before
the next state begins. -/
def Pause (gap : Repetition α -> Repetition α -> α -> Prop) (prev : Option (Repetition α))
    (s : Repetition α) (w : List α) : Prop :=
  w = [] ∨ exists p, prev = some p ∧ p.type = .NON_CONSEC ∧ forall y, y ∈ w -> gap p s y

/-- The words that a chain of states matches, after the state `prev`. -/
def Matches (gap : Repetition α -> Repetition α -> α -> Prop) :
    Option (Repetition α) -> List (Repetition α) -> List α -> Prop
  | _, [], w => w = []
  | prev, s :: rest, w => exists pause n reps tail,
      w = pause ++ reps ++ tail ∧ Pause gap prev s pause ∧
        s.least ≤ n ∧ n ≤ s.most ∧ s.Repeats n reps ∧ Matches gap (some s) rest tail

/-- A gap ends before the next sample that satisfies the predicate that was
repeated. -/
def freeGap (s _ : Repetition α) (y : α) : Prop :=
  s.expr y = false

/-- A gap ends also at the first sample that satisfies the predicate of the next
state. -/
def shortGap (s t : Repetition α) (y : α) : Prop :=
  s.expr y = false ∧ t.expr y = false

end Repetition

open Repetition

def StartsWith (root : Repetition α) (w : List α) : Prop :=
  exists x v, w = x :: v ∧ root.expr x = true

/-- A word that starts at a sample of the first predicate ends at position `n`. -/
def WordEndsAt (words : List α -> Prop) (root : Repetition α) (samples : List α) (n : Nat) :
    Prop :=
  n < samples.length ∧ exists pre w,
    samples.take (n + 1) = pre ++ w ∧ StartsWith root w ∧ words w

def MatchEndsAt (gap : Repetition α -> Repetition α -> α -> Prop) (root : Repetition α)
    (succ : List (Repetition α)) (samples : List α) (n : Nat) : Prop :=
  WordEndsAt (Matches gap none (root :: succ)) root samples n

/-!
## The words that runs take
-/

namespace Repetition

/-- A sample that is no repetition and does not end a run: a consecutive state lets it pass
right behind a non-consecutive one, whose predicate it does not satisfy either. -/
def Passes (prev : Option (Repetition α)) (s : Repetition α) (y : α) : Prop :=
  s.expr y = false ∧ (s.type ≠ .CONSEC ∨ exists p,
    prev = some p ∧ p.type = .NON_CONSEC ∧ p.expr y = false)

/-- Repetitions of `s`, each behind samples that pass. -/
def Taken (prev : Option (Repetition α)) (s : Repetition α) : Nat -> List α -> Prop
  | 0, w => w = []
  | n + 1, w => exists skipped x rest, w = skipped ++ x :: rest ∧
      (forall y, y ∈ skipped -> Passes prev s y) ∧ s.expr x = true ∧ Taken prev s n rest

/-- The words that a run over the chain takes, after the state `prev`. -/
def Takes : Option (Repetition α) -> List (Repetition α) -> List α -> Prop
  | _, [], w => w = []
  | prev, s :: rest, w => exists n reps tail, w = reps ++ tail ∧
      s.least ≤ n ∧ n ≤ s.most ∧ Taken prev s n reps ∧ Takes (some s) rest tail

end Repetition

/-- A word that a run takes ends at position `n`. -/
def TakenEndsAt (root : Repetition α) (succ : List (Repetition α)) (samples : List α)
    (n : Nat) : Prop :=
  WordEndsAt (Takes none (root :: succ)) root samples n

/-!
## Runs over a chain
-/

/-- A run that has counted repetitions of a state. -/
structure Reading (α : Type u) where
  state : Node (Repetition α)
  count : Nat

namespace Reading

/-- Whether a run survives a sample that is no repetition. -/
def survives (node : Node (Repetition α)) (x : α) : Bool :=
  node.state.type != .CONSEC ||
    node.prev.any fun p => p.type == .NON_CONSEC && !p.expr x

/-- The repetition goes on, or the next state begins. -/
def after (r : Reading α) : List (Reading α) :=
  (if r.count + 1 < r.state.state.most then [{ r with count := r.count + 1 }] else []) ++
    (if r.state.state.least ≤ r.count + 1 then
      r.state.succ?.toList.map fun next => { state := next, count := 0 }
    else [])

def machine (root : Node (Repetition α)) : RunMachine α (Reading α) where
  start x := if root.state.expr x then some { state := root, count := 0 } else none
  step r x :=
    if r.state.state.expr x then r.after else if survives r.state x then [r] else []
  done r x :=
    r.state.state.expr x && decide (r.state.state.least ≤ r.count + 1) && r.state.succ.isEmpty

theorem succ?_eq_some {node next : Node (Repetition α)} :
    node.succ? = some next ↔ exists s rest,
      node.succ = s :: rest ∧ next = { prev := some node.state, state := s, succ := rest } := by
  unfold Node.succ?
  split
  · rename_i hempty
    simp [hempty]
  · rename_i s rest hcons
    constructor
    · intro h
      cases h
      exact ⟨s, rest, hcons, rfl⟩
    · rintro ⟨s', rest', hcons', rfl⟩
      rw [hcons] at hcons'
      cases hcons'
      rfl

theorem succ?_eq_none {node : Node (Repetition α)} :
    node.succ? = none ↔ node.succ = [] := by
  unfold Node.succ?
  split <;> simp_all

theorem survives_iff {node : Node (Repetition α)} {x : α} (hx : node.state.expr x = false) :
    survives node x = true ↔ Passes node.prev node.state x := by
  simp only [survives, Passes, hx, true_and, Bool.or_eq_true, bne_iff_ne, Option.any_eq_true,
    Bool.and_eq_true, beq_iff_eq, Bool.not_eq_true']

theorem mem_step {root : Node (Repetition α)} {r r' : Reading α} {x : α} :
    r' ∈ (machine root).step r x ↔
      (r.state.state.expr x = true ∧
        ((r.count + 1 < r.state.state.most ∧ r' = { r with count := r.count + 1 }) ∨
          (r.state.state.least ≤ r.count + 1 ∧ exists next,
            r.state.succ? = some next ∧ r' = { state := next, count := 0 }))) ∨
      (r.state.state.expr x = false ∧ r' = r ∧
        (r.state.state.type ≠ .CONSEC ∨ exists p,
          r.state.prev = some p ∧ p.type = .NON_CONSEC ∧ p.expr x = false)) := by
  change r' ∈ (if r.state.state.expr x then r.after
    else if survives r.state x then [r] else []) ↔ _
  cases hx : r.state.state.expr x with
  | true =>
      simp only [if_true, after, List.mem_append, Bool.true_eq_false, false_and, or_false,
        true_and]
      apply or_congr
      · split <;> simp [*]
      · split <;> simp [*, eq_comm]
  | false =>
      have hpasses := survives_iff hx
      rw [Passes, hx] at hpasses
      simp only [Bool.false_eq_true, if_false, false_and, false_or, true_and]
      simp only [true_and] at hpasses
      rw [← hpasses]
      split <;> simp [*]

theorem done_iff {root : Node (Repetition α)} {r : Reading α} {x : α} :
    (machine root).done r x = true ↔
      r.state.state.expr x = true ∧ r.state.state.least ≤ r.count + 1 ∧ r.state.succ = [] := by
  simp only [machine, Bool.and_eq_true, decide_eq_true_eq, List.isEmpty_iff, and_assoc]

end Reading

/-!
## What is left of a match
-/

namespace Repetition

variable {gap : Repetition α -> Repetition α -> α -> Prop}

theorem repeats_zero_iff {s : Repetition α} {w : List α} :
    s.Repeats 0 w ↔ w = [] := by
  constructor
  · rintro ⟨blocks, hlength, -, rfl⟩
    rw [List.length_eq_zero_iff] at hlength
    rw [hlength]
    rfl
  · rintro rfl
    exact ⟨[], rfl, by simp, rfl⟩

theorem repeats_succ_iff {s : Repetition α} {n : Nat} {w : List α} :
    s.Repeats (n + 1) w ↔ exists x v, w = x :: v ∧
      ((s.expr x = true ∧ s.Repeats n v) ∨
        (s.type ≠ .CONSEC ∧ s.expr x = false ∧ s.Repeats (n + 1) v)) := by
  constructor
  · rintro ⟨blocks, hlength, hblocks, rfl⟩
    cases blocks with
    | nil => cases hlength
    | cons b bs =>
        have hbs : forall b', b' ∈ bs -> s.Block b' :=
          fun b' hb' => hblocks b' (List.mem_cons_of_mem b hb')
        have hn : bs.length = n := by
          simpa using hlength
        rcases hblocks b List.mem_cons_self with ⟨skipped, x, rfl, hx, hskipped⟩
        cases skipped with
        | nil => exact ⟨x, bs.flatten, rfl, Or.inl ⟨hx, bs, hn, hbs, rfl⟩⟩
        | cons y ys =>
            have hy := hskipped y List.mem_cons_self
            have hblock : s.Block (ys ++ [x]) :=
              ⟨ys, x, rfl, hx, fun z hz => hskipped z (List.mem_cons_of_mem y hz)⟩
            refine ⟨y, (ys ++ [x]) ++ bs.flatten, by simp, Or.inr ⟨hy.1, hy.2, ?_⟩⟩
            exact ⟨(ys ++ [x]) :: bs, by simpa using hn,
              List.forall_mem_cons.mpr ⟨hblock, hbs⟩, by simp⟩
  · rintro ⟨x, v, rfl, ⟨hx, bs, hn, hbs, rfl⟩ | ⟨htype, hx, blocks, hlength, hblocks, rfl⟩⟩
    · have hblock : s.Block [x] := ⟨[], x, rfl, hx, by simp⟩
      exact ⟨[x] :: bs, by simpa using hn, List.forall_mem_cons.mpr ⟨hblock, hbs⟩, rfl⟩
    · cases blocks with
      | nil => cases hlength
      | cons b bs =>
          rcases List.forall_mem_cons.mp hblocks with ⟨⟨skipped, y, rfl, hy, hskipped⟩, hbs⟩
          have hblock : s.Block (x :: (skipped ++ [y])) :=
            ⟨x :: skipped, y, rfl, hy, List.forall_mem_cons.mpr ⟨⟨htype, hx⟩, hskipped⟩⟩
          exact ⟨(x :: (skipped ++ [y])) :: bs, hlength,
            List.forall_mem_cons.mpr ⟨hblock, hbs⟩, by simp⟩

theorem Repeats.skip {s : Repetition α} {n : Nat} {skipped w : List α}
    (htype : s.type ≠ .CONSEC) (hskipped : forall y, y ∈ skipped -> s.expr y = false)
    (h : s.Repeats (n + 1) w) :
    s.Repeats (n + 1) (skipped ++ w) := by
  induction skipped with
  | nil => exact h
  | cons y ys ih =>
      rcases List.forall_mem_cons.mp hskipped with ⟨hy, hys⟩
      exact repeats_succ_iff.mpr ⟨y, ys ++ w, rfl, Or.inr ⟨htype, hy, ih hys⟩⟩

theorem Repeats.snoc {s : Repetition α} {n : Nat} {w skipped : List α} {x : α}
    (h : s.Repeats n w) (hx : s.expr x = true)
    (hskipped : forall y, y ∈ skipped -> s.type ≠ .CONSEC ∧ s.expr y = false) :
    s.Repeats (n + 1) (w ++ skipped ++ [x]) := by
  rcases h with ⟨blocks, hlength, hblocks, rfl⟩
  refine ⟨blocks ++ [skipped ++ [x]], by simpa using hlength, ?_, by simp⟩
  intro b hb
  rcases List.mem_append.mp hb with hold | hnew
  · exact hblocks b hold
  · cases List.mem_singleton.mp hnew
    exact ⟨skipped, x, rfl, hx, hskipped⟩

theorem Repeats.ne_nil {s : Repetition α} {n : Nat} {w : List α} (h : s.Repeats (n + 1) w) :
    w ≠ [] := by
  rcases repeats_succ_iff.mp h with ⟨x, v, rfl, -⟩
  exact List.cons_ne_nil x v

end Repetition

/-- What a run at `node` with `count` repetitions has still to read. -/
def Remaining (gap : Repetition α -> Repetition α -> α -> Prop) (node : Node (Repetition α))
    (count : Nat)
    (w : List α) : Prop :=
  exists pause k reps tail,
    w = pause ++ reps ++ tail ∧ (pause = [] ∨ count = 0 ∧ Pause gap node.prev node.state pause) ∧
      node.state.least ≤ count + (k + 1) ∧ count + (k + 1) ≤ node.state.most ∧
        node.state.Repeats (k + 1) reps ∧ Matches gap (some node.state) node.succ tail

theorem matches_cons_iff {gap : Repetition α -> Repetition α -> α -> Prop}
    {prev : Option (Repetition α)} {s : Repetition α} {rest : List (Repetition α)} {w : List α}
    (hbounded : s.Bounded) :
    Matches gap prev (s :: rest) w ↔ Remaining gap ⟨prev, s, rest⟩ 0 w := by
  constructor
  · rintro ⟨pause, n, reps, tail, heq, hpause, hmin, hmax, hreps, htail⟩
    cases n with
    | zero =>
        exact absurd hbounded.1 (by omega)
    | succ k =>
        rw [← Nat.zero_add (k + 1)] at hmin hmax
        exact ⟨pause, k, reps, tail, heq, Or.inr ⟨rfl, hpause⟩, hmin, hmax, hreps, htail⟩
  · rintro ⟨pause, k, reps, tail, heq, hpause, hmin, hmax, hreps, htail⟩
    rw [Nat.zero_add] at hmin hmax
    refine ⟨pause, k + 1, reps, tail, heq, ?_, hmin, hmax, hreps, htail⟩
    rcases hpause with hempty | ⟨-, hpause⟩
    · exact Or.inl hempty
    · exact hpause

theorem not_remaining_nil {gap : Repetition α -> Repetition α -> α -> Prop}
    {node : Node (Repetition α)}
    {count : Nat} : ¬ Remaining gap node count [] := by
  rintro ⟨pause, k, reps, tail, heq, -, -, -, hreps, -⟩
  have hempty : reps = [] := by
    simp_all
  exact hreps.ne_nil hempty

/-- The sample counts: the repetition goes on, or the next state begins. -/
theorem remaining_hit {node : Node (Repetition α)} {count : Nat} {x : α} {w : List α}
    (hx : node.state.expr x = true) :
    Remaining shortGap node count (x :: w) ↔
      Remaining shortGap node (count + 1) w ∨
        (node.state.least ≤ count + 1 ∧ count + 1 ≤ node.state.most ∧
          Matches shortGap (some node.state) node.succ w) := by
  constructor
  · rintro ⟨pause, k, reps, tail, heq, hpause, hmin, hmax, hreps, htail⟩
    have hempty : pause = [] := by
      rcases hpause with hempty | ⟨-, hempty | ⟨p, -, -, hgap⟩⟩
      · exact hempty
      · exact hempty
      · cases pause with
        | nil => rfl
        | cons y ys =>
            cases heq
            have hy := (hgap x List.mem_cons_self).2
            rw [hx] at hy
            cases hy
    subst hempty
    rcases repeats_succ_iff.mp hreps with ⟨y, v, rfl, ⟨hy, hv⟩ | ⟨-, hy, -⟩⟩
    · cases heq
      cases k with
      | zero =>
          rw [repeats_zero_iff] at hv
          subst hv
          exact Or.inr ⟨hmin, hmax, htail⟩
      | succ k =>
          exact Or.inl ⟨[], k, v, tail, rfl, Or.inl rfl, by omega, by omega, hv, htail⟩
    · cases heq
      rw [hx] at hy
      cases hy
  · rintro (⟨pause, k, reps, tail, rfl, hpause, hmin, hmax, hreps, htail⟩ | ⟨hmin, hmax, htail⟩)
    · have hempty : pause = [] := by
        rcases hpause with hempty | ⟨hcount, -⟩
        · exact hempty
        · cases hcount
      subst hempty
      have hone : node.state.Repeats (k + 1 + 1) (x :: reps) :=
        repeats_succ_iff.mpr ⟨x, reps, rfl, Or.inl ⟨hx, hreps⟩⟩
      exact ⟨[], k + 1, x :: reps, tail, rfl, Or.inl rfl, by omega, by omega, hone, htail⟩
    · have hone : node.state.Repeats (0 + 1) [x] :=
        repeats_succ_iff.mpr ⟨x, [], rfl, Or.inl ⟨hx, repeats_zero_iff.mpr rfl⟩⟩
      exact ⟨[], 0, [x], w, rfl, Or.inl rfl, hmin, hmax, hone, htail⟩

theorem remaining_soft {node : Node (Repetition α)} {count : Nat} {x : α} {w : List α}
    (hx : node.state.expr x = false) (htype : node.state.type ≠ .CONSEC) :
    Remaining shortGap node count (x :: w) ↔ Remaining shortGap node count w := by
  constructor
  · rintro ⟨pause, k, reps, tail, heq, hpause, hmin, hmax, hreps, htail⟩
    cases pause with
    | nil =>
        rcases repeats_succ_iff.mp hreps with ⟨y, v, rfl, ⟨hy, -⟩ | ⟨-, -, hv⟩⟩
        · cases heq
          rw [hx] at hy
          cases hy
        · cases heq
          exact ⟨[], k, v, tail, rfl, Or.inl rfl, hmin, hmax, hv, htail⟩
    | cons y ys =>
        cases heq
        rcases hpause with hempty | ⟨hcount, hempty | ⟨p, hp, hkind, hgap⟩⟩
        · cases hempty
        · cases hempty
        · have hys : Pause shortGap node.prev node.state ys :=
            Or.inr ⟨p, hp, hkind, fun z hz => hgap z (List.mem_cons_of_mem x hz)⟩
          exact ⟨ys, k, reps, tail, rfl, Or.inr ⟨hcount, hys⟩, hmin, hmax, hreps, htail⟩
  · rintro ⟨pause, k, reps, tail, rfl, hpause, hmin, hmax, hreps, htail⟩
    have hpass : forall y, y ∈ x :: pause -> node.state.expr y = false := by
      refine List.forall_mem_cons.mpr ⟨hx, ?_⟩
      rcases hpause with rfl | ⟨-, rfl | ⟨p, -, -, hgap⟩⟩
      · simp
      · simp
      · exact fun y hy => (hgap y hy).2
    exact ⟨[], k, (x :: pause) ++ reps, tail, by simp, Or.inl rfl, hmin, hmax,
      hreps.skip htype hpass, htail⟩

/-- A consecutive state lets the sample pass only in a gap before its first
repetition. -/
theorem remaining_hard {node : Node (Repetition α)} {count : Nat} {x : α} {w : List α}
    (hx : node.state.expr x = false) (htype : node.state.type = .CONSEC) :
    Remaining shortGap node count (x :: w) ↔
      (count = 0 ∧ exists p, node.prev = some p ∧ p.type = .NON_CONSEC ∧ p.expr x = false) ∧
        Remaining shortGap node count w := by
  constructor
  · rintro ⟨pause, k, reps, tail, heq, hpause, hmin, hmax, hreps, htail⟩
    cases pause with
    | nil =>
        rcases repeats_succ_iff.mp hreps with ⟨y, v, rfl, ⟨hy, -⟩ | ⟨hsoft, -⟩⟩
        · cases heq
          rw [hx] at hy
          cases hy
        · exact absurd htype hsoft
    | cons y ys =>
        cases heq
        rcases hpause with hempty | ⟨hcount, hempty | ⟨p, hp, hkind, hgap⟩⟩
        · cases hempty
        · cases hempty
        · have hys : Pause shortGap node.prev node.state ys :=
            Or.inr ⟨p, hp, hkind, fun z hz => hgap z (List.mem_cons_of_mem x hz)⟩
          exact ⟨⟨hcount, p, hp, hkind, (hgap x List.mem_cons_self).1⟩,
            ys, k, reps, tail, rfl, Or.inr ⟨hcount, hys⟩, hmin, hmax, hreps, htail⟩
  · rintro ⟨⟨hcount, p, hp, hkind, hpx⟩, pause, k, reps, tail, rfl, hpause, hmin, hmax, hreps,
      htail⟩
    have hlonger : Pause shortGap node.prev node.state (x :: pause) := by
      refine Or.inr ⟨p, hp, hkind, List.forall_mem_cons.mpr ⟨⟨hpx, hx⟩, ?_⟩⟩
      rcases hpause with rfl | ⟨-, rfl | ⟨q, hq, -, hgap⟩⟩
      · simp
      · simp
      · rw [hp] at hq
        cases hq
        exact hgap
    exact ⟨x :: pause, k, reps, tail, by simp, Or.inr ⟨hcount, hlonger⟩, hmin, hmax, hreps,
      htail⟩

namespace Reading

/-- A consecutive repetition that has begun after a non-consecutive state is kept,
although the sample does not satisfy its predicate. -/
def Interrupts (r : Reading α) (x : α) : Prop :=
  r.state.state.type = .CONSEC ∧ 0 < r.count ∧ r.state.state.expr x = false ∧
    exists p, r.state.prev = some p ∧ p.type = .NON_CONSEC ∧ p.expr x = false

theorem completes_hit {root node : Node (Repetition α)} {count : Nat} {x : α}
    {w : List α} (hx : node.state.expr x = true) :
    (machine root).Completes { state := node, count := count } (x :: w) ↔
      (count + 1 < node.state.most ∧
          (machine root).Completes { state := node, count := count + 1 } w) ∨
        (node.state.least ≤ count + 1 ∧
          ((w = [] ∧ node.succ = []) ∨ exists next, node.succ? = some next ∧
            (machine root).Completes { state := next, count := 0 } w)) := by
  constructor
  · rintro (⟨hw, hdone⟩ | ⟨r', hstep, hrest⟩)
    · rcases done_iff.mp hdone with ⟨-, hmin, hsucc⟩
      exact Or.inr ⟨hmin, Or.inl ⟨hw, hsucc⟩⟩
    · rcases mem_step.mp hstep with
        ⟨-, ⟨hmax, rfl⟩ | ⟨hmin, next, hnext, rfl⟩⟩ | ⟨hfalse, -⟩
      · exact Or.inl ⟨hmax, hrest⟩
      · exact Or.inr ⟨hmin, Or.inr ⟨next, hnext, hrest⟩⟩
      · rw [show node.state.expr x = false from hfalse] at hx
        cases hx
  · rintro (⟨hmax, hrest⟩ | ⟨hmin, ⟨hw, hsucc⟩ | ⟨next, hnext, hrest⟩⟩)
    · exact Or.inr ⟨_, mem_step.mpr (Or.inl ⟨hx, Or.inl ⟨hmax, rfl⟩⟩), hrest⟩
    · exact Or.inl ⟨hw, done_iff.mpr ⟨hx, hmin, hsucc⟩⟩
    · exact Or.inr
        ⟨_, mem_step.mpr (Or.inl ⟨hx, Or.inr ⟨hmin, next, hnext, rfl⟩⟩), hrest⟩

theorem completes_miss {root : Node (Repetition α)} {r : Reading α} {x : α} {w : List α}
    (hx : r.state.state.expr x = false) :
    (machine root).Completes r (x :: w) ↔
      (r.state.state.type ≠ .CONSEC ∨ exists p,
          r.state.prev = some p ∧ p.type = .NON_CONSEC ∧ p.expr x = false) ∧
        (machine root).Completes r w := by
  constructor
  · rintro (⟨-, hdone⟩ | ⟨r', hstep, hrest⟩)
    · rcases done_iff.mp hdone with ⟨htrue, -⟩
      rw [hx] at htrue
      cases htrue
    · rcases mem_step.mp hstep with ⟨htrue, -⟩ | ⟨-, rfl, hkept⟩
      · rw [hx] at htrue
        cases htrue
      · exact ⟨hkept, hrest⟩
  · rintro ⟨hkept, hrest⟩
    exact Or.inr ⟨r, mem_step.mpr (Or.inr ⟨hx, rfl, hkept⟩), hrest⟩

theorem bounded_succ? {node next : Node (Repetition α)}
    (hbounded : forall s, s ∈ node.states -> s.Bounded)
    (hnext : node.succ? = some next) :
    forall s, s ∈ next.states -> s.Bounded := by
  rcases succ?_eq_some.mp hnext with ⟨t, rest, hsucc, rfl⟩
  intro s hs
  refine hbounded s (List.mem_cons_of_mem _ ?_)
  rw [hsucc]
  exact hs

/-- After the last repetition, the match ends or the next state begins. -/
theorem follows_iff {root : Node (Repetition α)} {node : Node (Repetition α)} {w : List α}
    (hbounded : forall s, s ∈ node.states -> s.Bounded)
    (hnext : forall next, node.succ? = some next ->
      ((machine root).Completes { state := next, count := 0 } w ↔ Remaining shortGap next 0 w)) :
    ((w = [] ∧ node.succ = []) ∨ exists next, node.succ? = some next ∧
        (machine root).Completes { state := next, count := 0 } w) ↔
      Matches shortGap (some node.state) node.succ w := by
  cases hsucc : node.succ with
  | nil =>
      have hnone := succ?_eq_none.mpr hsucc
      simp [hnone, Matches]
  | cons t rest =>
      have hsome : node.succ? = some ⟨some node.state, t, rest⟩ :=
        succ?_eq_some.mpr ⟨t, rest, hsucc, rfl⟩
      have hmatches : Matches shortGap (some node.state) (t :: rest) w ↔
          Remaining shortGap ⟨some node.state, t, rest⟩ 0 w :=
        matches_cons_iff (bounded_succ? hbounded hsome t List.mem_cons_self)
      rw [hsome]
      simp only [reduceCtorEq, and_false, false_or, Option.some.injEq, exists_eq_left']
      exact (hnext _ hsome).trans hmatches.symm

/-- As long as no repetition is interrupted, a run completes with exactly the words
that are left of the match. -/
theorem completes_iff_remaining {root : Node (Repetition α)} {w : List α}
    {node : Node (Repetition α)} {count : Nat}
    (hbounded : forall s, s ∈ node.states -> s.Bounded) (hcount : count < node.state.most)
    (hkept : forall v y z r', w = v ++ y :: z ->
      (machine root).Reads { state := node, count := count } v r' -> ¬ Interrupts r' y) :
    (machine root).Completes { state := node, count := count } w ↔
      Remaining shortGap node count w := by
  induction w generalizing node count with
  | nil =>
      constructor
      · intro hnever
        cases hnever
      · intro h
        exact absurd h not_remaining_nil
  | cons x w ih =>
      have hstate : node.state.Bounded := hbounded node.state List.mem_cons_self
      have hlater : forall r1, r1 ∈ (machine root).step { state := node, count := count } x ->
          forall v y z r', w = v ++ y :: z -> (machine root).Reads r1 v r' ->
            ¬ Interrupts r' y := by
        rintro r1 hstep v y z r' rfl hreads
        exact hkept (x :: v) y z r' rfl ⟨r1, hstep, hreads⟩
      cases hx : node.state.expr x with
      | true =>
          have hsame : count + 1 < node.state.most ->
              ((machine root).Completes { state := node, count := count + 1 } w ↔
                Remaining shortGap node (count + 1) w) := by
            intro hmax
            exact ih hbounded hmax
              (hlater _ (mem_step.mpr (Or.inl ⟨hx, Or.inl ⟨hmax, rfl⟩⟩)))
          have hfollows : node.state.least ≤ count + 1 ->
              (((w = [] ∧ node.succ = []) ∨ exists next, node.succ? = some next ∧
                (machine root).Completes { state := next, count := 0 } w) ↔
                  Matches shortGap (some node.state) node.succ w) := by
            intro hmin
            refine follows_iff hbounded ?_
            intro next hnext
            have hrest := bounded_succ? hbounded hnext
            have hpositive := hrest next.state List.mem_cons_self
            exact ih hrest (Nat.lt_of_lt_of_le hpositive.1 hpositive.2)
              (hlater _ (mem_step.mpr (Or.inl ⟨hx, Or.inr ⟨hmin, next, hnext, rfl⟩⟩)))
          rw [completes_hit hx, remaining_hit hx]
          constructor
          · rintro (⟨hmax, hrest⟩ | ⟨hmin, hrest⟩)
            · exact Or.inl ((hsame hmax).mp hrest)
            · exact Or.inr ⟨hmin, hcount, (hfollows hmin).mp hrest⟩
          · rintro (hrest | ⟨hmin, -, hrest⟩)
            · have hmax : count + 1 < node.state.most := by
                rcases hrest with ⟨pause, k, reps, tail, -, -, -, hmax, -⟩
                omega
              exact Or.inl ⟨hmax, (hsame hmax).mpr hrest⟩
            · exact Or.inr ⟨hmin, (hfollows hmin).mpr hrest⟩
      | false =>
          have hsame : (node.state.type ≠ .CONSEC ∨ exists p,
              node.prev = some p ∧ p.type = .NON_CONSEC ∧ p.expr x = false) ->
                ((machine root).Completes { state := node, count := count } w ↔
                  Remaining shortGap node count w) := by
            intro hstays
            exact ih hbounded hcount
              (hlater _ (mem_step.mpr (Or.inr ⟨hx, rfl, hstays⟩)))
          rw [completes_miss hx]
          by_cases htype : node.state.type = .CONSEC
          · rw [remaining_hard hx htype]
            constructor
            · rintro ⟨hstays, hrest⟩
              rcases hstays with hsoft | hprev
              · exact absurd htype hsoft
              · refine ⟨⟨?_, hprev⟩, (hsame (Or.inr hprev)).mp hrest⟩
                rcases Nat.eq_zero_or_pos count with hzero | hpos
                · exact hzero
                · exact absurd ⟨htype, hpos, hx, hprev⟩ (hkept [] x w _ rfl rfl)
            · rintro ⟨⟨-, hprev⟩, hrest⟩
              exact ⟨Or.inr hprev, (hsame (Or.inr hprev)).mpr hrest⟩
          · rw [remaining_soft hx htype]
            constructor
            · rintro ⟨-, hrest⟩
              exact (hsame (Or.inl htype)).mp hrest
            · intro hrest
              exact ⟨Or.inl htype, (hsame (Or.inl htype)).mpr hrest⟩

end Reading

namespace Reading

section Words

variable {root : Repetition α} {succ : List (Repetition α)} {samples : List α}

/-- The positions at which runs complete, from the words that a run completes with. -/
theorem endsAt_iff {words : List α -> Prop}
    (hwords : forall pre x w rest, samples = pre ++ (x :: w) ++ rest -> root.expr x = true ->
      ((machine ⟨none, root, succ⟩).Completes { state := ⟨none, root, succ⟩, count := 0 }
        (x :: w) ↔ words (x :: w))) (n : Nat) :
    (machine ⟨none, root, succ⟩).EndsAt samples n ↔ WordEndsAt words root samples n := by
  have hstart : forall x r, (machine ⟨none, root, succ⟩).start x = some r ↔
      root.expr x = true ∧ r = { state := ⟨none, root, succ⟩, count := 0 } := by
    intro x r
    simp only [machine, Option.ite_none_right_eq_some, Option.some.injEq]
    constructor
    · rintro ⟨hx, rfl⟩
      exact ⟨hx, rfl⟩
    · rintro ⟨hx, rfl⟩
      exact ⟨hx, rfl⟩
  have hsplit : forall pre x w, samples.take (n + 1) = pre ++ x :: w ->
      samples = pre ++ (x :: w) ++ samples.drop (n + 1) := by
    intro pre x w htake
    rw [← htake, List.take_append_drop]
  constructor
  · rintro ⟨hn, pre, x, w, r, htake, hr, hcompletes⟩
    rcases (hstart x r).mp hr with ⟨hx, rfl⟩
    exact ⟨hn, pre, x :: w, htake, ⟨x, w, rfl, hx⟩,
      (hwords _ _ _ _ (hsplit pre x w htake) hx).mp hcompletes⟩
  · rintro ⟨hn, pre, v, htake, ⟨x, w, rfl, hx⟩, hmatches⟩
    exact ⟨hn, pre, x, w, _, htake, (hstart x _).mpr ⟨hx, rfl⟩,
      (hwords _ _ _ _ (hsplit pre x w htake) hx).mpr hmatches⟩

end Words

/-- What a run that has counted `count` repetitions has still to take. -/
def Rest (node : Node (Repetition α)) (count : Nat) (w : List α) : Prop :=
  exists k reps tail, w = reps ++ tail ∧
    node.state.least ≤ count + (k + 1) ∧ count + (k + 1) ≤ node.state.most ∧
      Taken node.prev node.state (k + 1) reps ∧ Takes (some node.state) node.succ tail

theorem takes_cons_iff {prev : Option (Repetition α)} {s : Repetition α}
    {rest : List (Repetition α)} {w : List α} (hbounded : s.Bounded) :
    Takes prev (s :: rest) w ↔ Rest ⟨prev, s, rest⟩ 0 w := by
  constructor
  · rintro ⟨n, reps, tail, heq, hmin, hmax, hreps, htail⟩
    cases n with
    | zero => exact absurd hbounded.1 (by omega)
    | succ k =>
        rw [← Nat.zero_add (k + 1)] at hmin hmax
        exact ⟨k, reps, tail, heq, hmin, hmax, hreps, htail⟩
  · rintro ⟨k, reps, tail, heq, hmin, hmax, hreps, htail⟩
    rw [Nat.zero_add] at hmin hmax
    exact ⟨k + 1, reps, tail, heq, hmin, hmax, hreps, htail⟩

theorem not_rest_nil {node : Node (Repetition α)} {count : Nat} : ¬ Rest node count [] := by
  rintro ⟨k, reps, tail, heq, -, -, ⟨skipped, x, rest, rfl, -⟩, -⟩
  simp at heq

theorem rest_hit {node : Node (Repetition α)} {count : Nat} {x : α} {w : List α}
    (hx : node.state.expr x = true) :
    Rest node count (x :: w) ↔ Rest node (count + 1) w ∨
      (node.state.least ≤ count + 1 ∧ count + 1 ≤ node.state.most ∧
        Takes (some node.state) node.succ w) := by
  constructor
  · rintro ⟨k, reps, tail, heq, hmin, hmax, ⟨skipped, y, rest, rfl, hskipped, hy, hrest⟩, htail⟩
    cases skipped with
    | cons z zs =>
        cases heq
        have hz := (hskipped x List.mem_cons_self).1
        rw [hx] at hz
        cases hz
    | nil =>
        cases heq
        cases k with
        | zero =>
            cases hrest
            exact Or.inr ⟨hmin, hmax, htail⟩
        | succ k =>
            exact Or.inl ⟨k, rest, tail, rfl, by omega, by omega, hrest, htail⟩
  · rintro (⟨k, reps, tail, rfl, hmin, hmax, hreps, htail⟩ | ⟨hmin, hmax, htail⟩)
    · exact ⟨k + 1, x :: reps, tail, rfl, by omega, by omega,
        ⟨[], x, reps, rfl, by simp, hx, hreps⟩, htail⟩
    · exact ⟨0, [x], w, rfl, hmin, hmax, ⟨[], x, [], rfl, by simp, hx, rfl⟩, htail⟩

theorem rest_miss {node : Node (Repetition α)} {count : Nat} {x : α} {w : List α}
    (hx : node.state.expr x = false) :
    Rest node count (x :: w) ↔ Passes node.prev node.state x ∧ Rest node count w := by
  constructor
  · rintro ⟨k, reps, tail, heq, hmin, hmax, ⟨skipped, y, rest, rfl, hskipped, hy, hrest⟩, htail⟩
    cases skipped with
    | nil =>
        cases heq
        rw [hx] at hy
        cases hy
    | cons z zs =>
        cases heq
        rcases List.forall_mem_cons.mp hskipped with ⟨hz, hzs⟩
        exact ⟨hz, k, zs ++ y :: rest, tail, rfl, hmin, hmax, ⟨zs, y, rest, rfl, hzs, hy, hrest⟩,
          htail⟩
  · rintro ⟨hpasses, k, reps, tail, rfl, hmin, hmax, ⟨skipped, y, rest, rfl, hskipped, hy,
      hrest⟩, htail⟩
    exact ⟨k, x :: skipped ++ y :: rest, tail, by simp, hmin, hmax, ⟨x :: skipped, y, rest, rfl,
      List.forall_mem_cons.mpr ⟨hpasses, hskipped⟩, hy, hrest⟩, htail⟩

/-- A run completes with exactly the words that it has still to take. -/
theorem completes_iff_rest {root : Node (Repetition α)} {w : List α}
    {node : Node (Repetition α)} {count : Nat}
    (hbounded : forall s, s ∈ node.states -> s.Bounded) (hcount : count < node.state.most) :
    (machine root).Completes { state := node, count := count } w ↔ Rest node count w := by
  induction w generalizing node count with
  | nil =>
      constructor
      · intro hnever
        cases hnever
      · intro h
        exact absurd h not_rest_nil
  | cons x w ih =>
      cases hx : node.state.expr x with
      | true =>
          have hfollows : ((w = [] ∧ node.succ = []) ∨ exists next, node.succ? = some next ∧
              (machine root).Completes { state := next, count := 0 } w) ↔
                Takes (some node.state) node.succ w := by
            cases hsucc : node.succ with
            | nil =>
                rw [succ?_eq_none.mpr hsucc]
                simp [Takes]
            | cons t rest =>
                have hsome : node.succ? = some ⟨some node.state, t, rest⟩ :=
                  succ?_eq_some.mpr ⟨t, rest, hsucc, rfl⟩
                have hrest := bounded_succ? hbounded hsome
                have ht : t.Bounded := hrest t List.mem_cons_self
                rw [takes_cons_iff ht, ← ih hrest (Nat.lt_of_lt_of_le ht.1 ht.2), hsome]
                simp
          rw [completes_hit hx, rest_hit hx, hfollows]
          constructor
          · rintro (⟨hmax, hrest⟩ | ⟨hmin, hrest⟩)
            · exact Or.inl ((ih hbounded hmax).mp hrest)
            · exact Or.inr ⟨hmin, hcount, hrest⟩
          · rintro (hrest | ⟨hmin, -, hrest⟩)
            · have hmax : count + 1 < node.state.most := by
                rcases hrest with ⟨k, reps, tail, -, -, hmax, -⟩
                omega
              exact Or.inl ⟨hmax, (ih hbounded hmax).mpr hrest⟩
            · exact Or.inr ⟨hmin, hrest⟩
      | false =>
          rw [completes_miss hx, rest_miss hx, Passes]
          simp only [hx, true_and, ih hbounded hcount]

/-- The runs take the words of the chain, whatever the samples are. -/
theorem endsAt_iff_takenEndsAt {root : Repetition α} {succ : List (Repetition α)}
    {samples : List α} (hbounded : forall s, s ∈ root :: succ -> s.Bounded) (n : Nat) :
    (machine ⟨none, root, succ⟩).EndsAt samples n ↔ TakenEndsAt root succ samples n := by
  have hroot := hbounded root List.mem_cons_self
  apply endsAt_iff
  intro pre x w rest _ _
  rw [takes_cons_iff hroot]
  exact completes_iff_rest hbounded (Nat.lt_of_lt_of_le hroot.1 hroot.2)

end Reading

/-!
## Interrupted repetitions
-/

/-- Somewhere in the samples, a match has reached a consecutive state right after a
non-consecutive one, has some but not all of its repetitions, and meets a sample of
neither predicate. -/
def Interrupted (root : Repetition α) (succ : List (Repetition α)) (samples : List α) : Prop :=
  exists before s t after pre word pause n reps y post,
    root :: succ = (before ++ [s]) ++ t :: after ∧ s.type = .NON_CONSEC ∧ t.type = .CONSEC ∧
      samples = pre ++ (word ++ pause ++ reps) ++ y :: post ∧
        StartsWith root (word ++ pause ++ reps) ∧ Matches shortGap none (before ++ [s]) word ∧
          Pause shortGap (some s) t pause ∧ 0 < n ∧ n < t.most ∧ t.Repeats n reps ∧
            s.expr y = false ∧ t.expr y = false

theorem matches_snoc {gap : Repetition α -> Repetition α -> α -> Prop}
    {prev : Option (Repetition α)}
    {before : List (Repetition α)} {s : Repetition α} {word pause reps : List α} {n : Nat}
    (hword : Matches gap prev before word)
    (hpause : Pause gap (before.getLast?.or prev) s pause)
    (hmin : s.least ≤ n) (hmax : n ≤ s.most) (hreps : s.Repeats n reps) :
    Matches gap prev (before ++ [s]) (word ++ pause ++ reps) := by
  induction before generalizing prev word with
  | nil =>
      cases hword
      exact ⟨pause, n, reps, [], by simp, hpause, hmin, hmax, hreps, rfl⟩
  | cons b before ih =>
      rcases hword with ⟨pause', m, reps', tail, rfl, hpause', hmin', hmax', hreps', htail⟩
      have hlast : Pause gap (before.getLast?.or (some b)) s pause := by
        rw [List.getLast?_cons] at hpause
        cases hbefore : before.getLast? <;> simpa [hbefore] using hpause
      exact ⟨pause', m, reps', tail ++ pause ++ reps, by simp, hpause', hmin', hmax', hreps',
        ih htail hlast⟩

namespace Reading

/-- What a run has read since the sample that started it. -/
def Reached (root : Repetition α) (succ : List (Repetition α)) (r : Reading α) (w : List α) : Prop :=
  exists before word pause reps skipped,
    root :: succ = before ++ r.state.states ∧ r.state.prev = before.getLast? ∧
      r.count < r.state.state.most ∧ w = word ++ pause ++ reps ++ skipped ∧
        Matches shortGap none before word ∧ Pause shortGap r.state.prev r.state.state pause ∧
          r.state.state.Repeats r.count reps ∧
            forall y, y ∈ skipped -> r.state.state.type ≠ .CONSEC ∧ r.state.state.expr y = false

theorem reached_step {root : Repetition α} {succ : List (Repetition α)} {node : Node (Repetition α)}
    {r r' : Reading α} {w : List α} {x : α}
    (hbounded : forall s, s ∈ root :: succ -> s.Bounded)
    (hreached : Reached root succ r w) (hkept : ¬ Interrupts r x)
    (hstep : r' ∈ (machine node).step r x) :
    Reached root succ r' (w ++ [x]) := by
  rcases hreached with
    ⟨before, word, pause, reps, skipped, hchain, hprev, hcount, rfl, hword, hpause, hreps,
      hskipped⟩
  have hall : forall s, s ∈ r.state.states -> s.Bounded := by
    intro s hs
    refine hbounded s ?_
    rw [hchain]
    exact List.mem_append_right before hs
  have hstate : r.state.state.Bounded := hall r.state.state List.mem_cons_self
  rcases mem_step.mp hstep with
    ⟨hx, ⟨hmax, rfl⟩ | ⟨hmin, next, hnext, rfl⟩⟩ | ⟨hx, rfl, hstays⟩
  · exact ⟨before, word, pause, reps ++ skipped ++ [x], [], hchain, hprev, hmax, by simp, hword,
      hpause, hreps.snoc hx hskipped, by simp⟩
  · have hbefore : Matches shortGap none (before ++ [r.state.state])
        (word ++ pause ++ (reps ++ skipped ++ [x])) := by
      refine matches_snoc hword ?_ hmin hcount (hreps.snoc hx hskipped)
      rw [hprev] at hpause
      simpa using hpause
    have hfirst := bounded_succ? hall hnext next.state List.mem_cons_self
    rcases succ?_eq_some.mp hnext with ⟨t, rest, hsucc, rfl⟩
    refine ⟨before ++ [r.state.state], word ++ pause ++ (reps ++ skipped ++ [x]), [], [], [], ?_,
      by simp, Nat.lt_of_lt_of_le hfirst.1 hfirst.2, by simp, hbefore, Or.inl rfl,
      repeats_zero_iff.mpr rfl, by simp⟩
    rw [hchain]
    simp [Node.states, hsucc]
  · by_cases htype : r'.state.state.type = .CONSEC
    · rcases hstays with hsoft | ⟨p, hp, hkind, hpx⟩
      · exact absurd htype hsoft
      · have hzero : r'.count = 0 := by
          rcases Nat.eq_zero_or_pos r'.count with hzero | hpos
          · exact hzero
          · exact absurd ⟨htype, hpos, hx, p, hp, hkind, hpx⟩ hkept
        have hempty : reps = [] := by
          rw [hzero] at hreps
          exact repeats_zero_iff.mp hreps
        have hnone : skipped = [] := by
          cases skipped with
          | nil => rfl
          | cons y ys => exact absurd htype (hskipped y List.mem_cons_self).1
        subst hempty hnone
        have hlonger : Pause shortGap r'.state.prev r'.state.state (pause ++ [x]) := by
          refine Or.inr ⟨p, hp, hkind, ?_⟩
          intro y hy
          rcases List.mem_append.mp hy with hold | hlast
          · rcases hpause with rfl | ⟨q, hq, -, hgap⟩
            · cases hold
            · rw [hp] at hq
              cases hq
              exact hgap y hold
          · cases List.mem_singleton.mp hlast
            exact ⟨hpx, hx⟩
        exact ⟨before, word, pause ++ [x], [], [], hchain, hprev, hcount, by simp, hword, hlonger,
          hreps, by simp⟩
    · refine ⟨before, word, pause, reps, skipped ++ [x], hchain, hprev, hcount, by simp, hword,
        hpause, hreps, ?_⟩
      intro y hy
      rcases List.mem_append.mp hy with hold | hlast
      · exact hskipped y hold
      · cases List.mem_singleton.mp hlast
        exact ⟨htype, hx⟩

theorem interrupted_of_reached {root : Repetition α} {succ : List (Repetition α)} {r : Reading α}
    {pre v post : List α} {y : α} (hreached : Reached root succ r v)
    (hstart : v ≠ [] -> StartsWith root v) (h : Interrupts r y) :
    Interrupted root succ (pre ++ v ++ y :: post) := by
  rcases hreached with
    ⟨before, word, pause, reps, skipped, hchain, hprev, hcount, rfl, hword, hpause, hreps,
      hskipped⟩
  rcases h with ⟨htype, hpos, hy, p, hp, hkind, hpy⟩
  have hnone : skipped = [] := by
    cases skipped with
    | nil => rfl
    | cons z zs => exact absurd htype (hskipped z List.mem_cons_self).1
  subst hnone
  have hnonempty : reps ≠ [] := by
    rcases Nat.exists_eq_succ_of_ne_zero (Nat.ne_of_gt hpos) with ⟨n, hn⟩
    rw [hn] at hreps
    exact hreps.ne_nil
  have hlast : before.getLast? = some p := by
    rw [← hprev]
    exact hp
  rcases List.getLast?_eq_some_iff.mp hlast with ⟨front, rfl⟩
  rw [List.append_nil] at hstart ⊢
  rw [hp] at hpause
  exact ⟨front, p, r.state.state, r.state.succ, pre, word, pause, r.count, reps, y, post, hchain,
    hkind, htype, rfl, hstart (by simp [hnonempty]), hword, hpause, hpos, hcount, hreps, hpy, hy⟩

section Uninterrupted

variable {root : Repetition α} {succ : List (Repetition α)} {samples : List α}

theorem reached_of_reads (hbounded : forall s, s ∈ root :: succ -> s.Bounded)
    (hsamples : ¬ Interrupted root succ samples) {pre v rest : List α} {r : Reading α}
    (hsplit : samples = pre ++ v ++ rest) (hstart : v ≠ [] -> StartsWith root v)
    (hreads : (machine ⟨none, root, succ⟩).Reads { state := ⟨none, root, succ⟩, count := 0 } v r) :
    Reached root succ r v := by
  induction v using List.reverseRecOn generalizing r rest with
  | nil =>
      cases hreads
      have hroot := hbounded root List.mem_cons_self
      exact ⟨[], [], [], [], [], rfl, rfl, Nat.lt_of_lt_of_le hroot.1 hroot.2, rfl, rfl,
        Or.inl rfl, repeats_zero_iff.mpr rfl, by simp⟩
  | append_singleton v x ih =>
      rcases RunMachine.reads_snoc_iff.mp hreads with ⟨r', hreads', hstep⟩
      have hearlier : v ≠ [] -> StartsWith root v := by
        intro hv
        rcases hstart (by simp) with ⟨y, u, heq, hy⟩
        cases v with
        | nil => exact absurd rfl hv
        | cons z zs =>
            cases heq
            exact ⟨y, zs, rfl, hy⟩
      have hsplit' : samples = pre ++ v ++ x :: rest := by
        simpa using hsplit
      have hreached := ih hsplit' hearlier hreads'
      refine reached_step hbounded hreached ?_ hstep
      intro hinterrupts
      refine hsamples ?_
      rw [hsplit']
      exact interrupted_of_reached hreached hearlier hinterrupts

theorem completes_iff_matches (hbounded : forall s, s ∈ root :: succ -> s.Bounded)
    (hsamples : ¬ Interrupted root succ samples) {pre w rest : List α} {x : α}
    (hsplit : samples = pre ++ (x :: w) ++ rest) (hx : root.expr x = true) :
    (machine ⟨none, root, succ⟩).Completes { state := ⟨none, root, succ⟩, count := 0 } (x :: w) ↔
      Matches shortGap none (root :: succ) (x :: w) := by
  have hroot := hbounded root List.mem_cons_self
  have hmatches : Matches shortGap none (root :: succ) (x :: w) ↔
      Remaining shortGap ⟨none, root, succ⟩ 0 (x :: w) :=
    matches_cons_iff hroot
  rw [hmatches]
  refine completes_iff_remaining hbounded (Nat.lt_of_lt_of_le hroot.1 hroot.2) ?_
  intro v y z r hv hreads hinterrupts
  have hstart : v ≠ [] -> StartsWith root v := by
    intro hnonempty
    cases v with
    | nil => exact absurd rfl hnonempty
    | cons x' v =>
        cases hv
        exact ⟨x, v, rfl, hx⟩
  have hsplit' : samples = pre ++ v ++ y :: (z ++ rest) := by
    rw [hsplit, hv]
    simp
  have hreached := reached_of_reads hbounded hsamples hsplit' hstart hreads
  refine hsamples ?_
  rw [hsplit']
  exact interrupted_of_reached hreached hstart hinterrupts

/-- Without an interrupted repetition the runs take the words of the chain with short gaps. -/
theorem endsAt_iff_matchEndsAt (hbounded : forall s, s ∈ root :: succ -> s.Bounded)
    (hsamples : ¬ Interrupted root succ samples) (n : Nat) :
    (machine ⟨none, root, succ⟩).EndsAt samples n ↔
      MatchEndsAt shortGap root succ samples n :=
  endsAt_iff (fun _ _ _ _ hsplit hx => completes_iff_matches hbounded hsamples hsplit hx) n

end Uninterrupted

/-!
## Chains without non-consecutive states
-/

theorem not_interrupted {root : Repetition α} {succ : List (Repetition α)} {samples : List α}
    (hkinds : forall s, s ∈ root :: succ -> s.type ≠ .NON_CONSEC) :
    ¬ Interrupted root succ samples := by
  rintro ⟨before, s, t, after, -, -, -, -, -, -, -, hchain, htype, -⟩
  refine hkinds s ?_ htype
  rw [hchain]
  simp

/-- Only the gaps behind non-consecutive states of the chain count. -/
theorem matches_gap_mono {gap gap' : Repetition α -> Repetition α -> α -> Prop}
    {prev : Option (Repetition α)} {chain : List (Repetition α)} {w : List α}
    (hgap : forall p s y, p ∈ prev.toList ++ chain -> p.type = .NON_CONSEC -> gap p s y ->
      gap' p s y)
    (h : Matches gap prev chain w) : Matches gap' prev chain w := by
  induction chain generalizing prev w with
  | nil => exact h
  | cons s rest ih =>
      rcases h with ⟨pause, n, reps, tail, heq, hpause, hmin, hmax, hreps, htail⟩
      have hpause' : Pause gap' prev s pause := by
        rcases hpause with hempty | ⟨p, hp, hkind, hall⟩
        · exact Or.inl hempty
        · refine Or.inr ⟨p, hp, hkind, fun y hy => hgap p s y ?_ hkind (hall y hy)⟩
          rw [hp]
          exact List.mem_cons_self
      exact ⟨pause, n, reps, tail, heq, hpause', hmin, hmax, hreps,
        ih (fun p t y hmem => hgap p t y (List.mem_append_right _ hmem)) htail⟩

theorem matchEndsAt_gap_mono {gap gap' : Repetition α -> Repetition α -> α -> Prop}
    {root : Repetition α} {succ : List (Repetition α)} {samples : List α} {n : Nat}
    (hgap : forall p s y, p ∈ root :: succ -> p.type = .NON_CONSEC -> gap p s y -> gap' p s y)
    (h : MatchEndsAt gap root succ samples n) :
    MatchEndsAt gap' root succ samples n := by
  rcases h with ⟨hn, pre, w, htake, hstart, hmatches⟩
  exact ⟨hn, pre, w, htake, hstart, matches_gap_mono hgap hmatches⟩

end Reading

end Experimental
end Crave
