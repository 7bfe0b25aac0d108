import Mathlib.Data.List.Basic
import Mathlib.Data.Set.Card

/-!
# Sets of concurrent runs

A machine that keeps a list of runs. Every letter starts at most one new run, and
then each run forks, carries on or dies, and may complete. The letters at which
some run completes are counted, at most once each. This is an on-line recogniser:
the count is the number of positions at which an accepted factor of the input
ends.
-/

namespace Crave
namespace Foundation

universe u v

structure RunMachine (α : Type u) (ρ : Type v) where
  start : α -> Option ρ
  step : ρ -> α -> List ρ
  done : ρ -> α -> Bool

namespace RunMachine

variable {α : Type u} {ρ : Type v} (m : RunMachine α ρ)

/-- A run completes with the last letter of the word. -/
def Completes : ρ -> List α -> Prop
  | _, [] => False
  | r, x :: w => (w = [] ∧ m.done r x = true) ∨ exists r', r' ∈ m.step r x ∧ Completes r' w

def Reads (r : ρ) : List α -> ρ -> Prop
  | [], r' => r' = r
  | x :: w, r'' => exists r', r' ∈ m.step r x ∧ Reads r' w r''

def next (runs : List ρ) (x : α) : List ρ :=
  (runs ++ (m.start x).toList).flatMap fun r => m.step r x

def hit (runs : List ρ) (x : α) : Bool :=
  (runs ++ (m.start x).toList).any fun r => m.done r x

def count (runs : List ρ) : List α -> Nat
  | [] => 0
  | x :: w => (m.hit runs x).toNat + count (m.next runs x) w

def runs (xs : List α) : List ρ :=
  xs.foldl m.next []

/-- A factor of the input that some run accepts ends at this position. -/
def EndsAt (xs : List α) (n : Nat) : Prop :=
  n < xs.length ∧ exists pre x w r,
    xs.take (n + 1) = pre ++ x :: w ∧ m.start x = some r ∧ m.Completes r (x :: w)

variable {m}

/-!
## Words read by one run
-/

theorem reads_snoc_iff {r r'' : ρ} {w : List α} {x : α} :
    m.Reads r (w ++ [x]) r'' ↔ exists r', m.Reads r w r' ∧ r'' ∈ m.step r' x := by
  induction w generalizing r with
  | nil =>
      constructor
      · rintro ⟨r', hstep, rfl⟩
        exact ⟨r, rfl, hstep⟩
      · rintro ⟨r', rfl, hstep⟩
        exact ⟨r'', hstep, rfl⟩
  | cons y w ih =>
      constructor
      · rintro ⟨r1, hfirst, hrest⟩
        rcases ih.mp hrest with ⟨r', hreads, hstep⟩
        exact ⟨r', ⟨r1, hfirst, hreads⟩, hstep⟩
      · rintro ⟨r', ⟨r1, hfirst, hreads⟩, hstep⟩
        exact ⟨r1, hfirst, ih.mpr ⟨r', hreads, hstep⟩⟩

theorem completes_snoc_iff {r : ρ} {w : List α} {x : α} :
    m.Completes r (w ++ [x]) ↔ exists r', m.Reads r w r' ∧ m.done r' x = true := by
  induction w generalizing r with
  | nil =>
      constructor
      · rintro (⟨-, hdone⟩ | ⟨r', -, hnever⟩)
        · exact ⟨r, rfl, hdone⟩
        · cases hnever
      · rintro ⟨r', rfl, hdone⟩
        exact Or.inl ⟨rfl, hdone⟩
  | cons y w ih =>
      constructor
      · rintro (⟨hempty, -⟩ | ⟨r', hstep, hcompletes⟩)
        · simp at hempty
        · rcases ih.mp hcompletes with ⟨r'', hreads, hdone⟩
          exact ⟨r'', ⟨r', hstep, hreads⟩, hdone⟩
      · rintro ⟨r'', ⟨r', hstep, hrest⟩, hdone⟩
        exact Or.inr ⟨r', hstep, ih.mpr ⟨r'', hrest, hdone⟩⟩

/-!
## The list of runs
-/

theorem runs_snoc (xs : List α) (x : α) :
    m.runs (xs ++ [x]) = m.next (m.runs xs) x := by
  simp [runs]

theorem mem_next {rs : List ρ} {x : α} {r : ρ} :
    r ∈ m.next rs x ↔ exists r', (r' ∈ rs ∨ m.start x = some r') ∧ r ∈ m.step r' x := by
  simp only [next, List.mem_flatMap, List.mem_append, Option.mem_toList]

theorem hit_iff {rs : List ρ} {x : α} :
    m.hit rs x = true ↔
      exists r, (r ∈ rs ∨ m.start x = some r) ∧ m.done r x = true := by
  simp only [hit, List.any_eq_true, List.mem_append, Option.mem_toList]

theorem split_snoc {xs pre w : List α} {x y : α} (h : xs ++ [y] = pre ++ x :: w) :
    (pre = xs ∧ x = y ∧ w = []) ∨ exists v, w = v ++ [y] ∧ xs = pre ++ x :: v := by
  induction w using List.reverseRecOn with
  | nil =>
      rcases List.append_inj' h rfl with ⟨hxs, hlast⟩
      cases hlast
      exact Or.inl ⟨hxs.symm, rfl, rfl⟩
  | append_singleton v z _ =>
      have hsplit : xs ++ [y] = (pre ++ x :: v) ++ [z] := by
        simpa using h
      rcases List.append_inj' hsplit rfl with ⟨hxs, hlast⟩
      cases hlast
      exact Or.inr ⟨v, rfl, hxs⟩

/-- The runs in the list are those that a letter of the input started and that
read everything from that letter on. -/
theorem mem_runs {xs : List α} {r : ρ} :
    r ∈ m.runs xs ↔ exists pre x w r0,
      xs = pre ++ x :: w ∧ m.start x = some r0 ∧ m.Reads r0 (x :: w) r := by
  induction xs using List.reverseRecOn generalizing r with
  | nil =>
      simp [runs]
  | append_singleton xs y ih =>
      rw [runs_snoc, mem_next]
      constructor
      · rintro ⟨r', hold | hnew, hstep⟩
        · rcases ih.mp hold with ⟨pre, x, w, r0, rfl, hstart, hreads⟩
          exact ⟨pre, x, w ++ [y], r0, by simp, hstart,
            reads_snoc_iff (w := x :: w).mpr ⟨r', hreads, hstep⟩⟩
        · exact ⟨xs, y, [], r', rfl, hnew, ⟨r, hstep, rfl⟩⟩
      · rintro ⟨pre, x, w, r0, heq, hstart, hreads⟩
        rcases split_snoc heq with ⟨rfl, rfl, rfl⟩ | ⟨w, rfl, rfl⟩
        · rcases hreads with ⟨r', hstep, rfl⟩
          exact ⟨r0, Or.inr hstart, hstep⟩
        · rcases reads_snoc_iff (w := x :: w).mp hreads with ⟨r', hreads', hstep⟩
          exact ⟨r', Or.inl (ih.mpr ⟨pre, x, w, r0, rfl, hstart, hreads'⟩), hstep⟩

theorem hit_runs_iff {xs : List α} {x : α} :
    m.hit (m.runs xs) x = true ↔ m.EndsAt (xs ++ [x]) xs.length := by
  have htake : (xs ++ [x]).take (xs.length + 1) = xs ++ [x] := by
    simp
  rw [hit_iff]
  constructor
  · rintro ⟨r, hold | hnew, hdone⟩
    · rcases mem_runs.mp hold with ⟨pre, y, w, r0, rfl, hstart, hreads⟩
      refine ⟨by simp, pre, y, w ++ [x], r0, by rw [htake]; simp, hstart, ?_⟩
      exact completes_snoc_iff (w := y :: w).mpr ⟨r, hreads, hdone⟩
    · exact ⟨by simp, xs, x, [], r, htake, hnew, Or.inl ⟨rfl, hdone⟩⟩
  · rintro ⟨-, pre, y, w, r0, heq, hstart, hcompletes⟩
    rw [htake] at heq
    rcases split_snoc heq with ⟨rfl, rfl, rfl⟩ | ⟨w, rfl, rfl⟩
    · rcases completes_snoc_iff (w := []).mp hcompletes with ⟨r, rfl, hdone⟩
      exact ⟨r, Or.inr hstart, hdone⟩
    · rcases completes_snoc_iff (w := y :: w).mp hcompletes with ⟨r, hreads, hdone⟩
      exact ⟨r, Or.inl (mem_runs.mpr ⟨pre, y, w, r0, rfl, hstart, hreads⟩), hdone⟩

/-!
## Counting
-/

theorem count_snoc (rs : List ρ) (xs : List α) (x : α) :
    m.count rs (xs ++ [x]) = m.count rs xs + (m.hit (xs.foldl m.next rs) x).toNat := by
  induction xs generalizing rs with
  | nil => simp [count]
  | cons y xs ih => simp [count, ih, Nat.add_assoc]

theorem endsAt_lt {xs : List α} {n : Nat} (h : m.EndsAt xs n) :
    n < xs.length :=
  h.1

theorem endsAt_snoc_of_lt {xs : List α} {x : α} {n : Nat} (hn : n < xs.length) :
    m.EndsAt (xs ++ [x]) n ↔ m.EndsAt xs n := by
  have htake : (xs ++ [x]).take (n + 1) = xs.take (n + 1) :=
    List.take_append_of_le_length hn
  have hlength : n < (xs ++ [x]).length := by
    simp; omega
  simp only [EndsAt, htake, hlength, hn, true_and]

theorem finite_endsAt (xs : List α) :
    {n | m.EndsAt xs n}.Finite :=
  (Set.finite_lt_nat xs.length).subset fun _ h => endsAt_lt h

theorem endsAt_snoc (xs : List α) (x : α) :
    {n | m.EndsAt (xs ++ [x]) n} =
      if m.hit (m.runs xs) x then insert xs.length {n | m.EndsAt xs n}
      else {n | m.EndsAt xs n} := by
  ext n
  rcases Nat.lt_trichotomy n xs.length with hlt | rfl | hgt
  · have hne : n ≠ xs.length := Nat.ne_of_lt hlt
    cases m.hit (m.runs xs) x <;> simp [endsAt_snoc_of_lt hlt, hne]
  · have hnot : ¬ m.EndsAt xs xs.length := fun h => Nat.lt_irrefl _ (endsAt_lt h)
    cases hhit : m.hit (m.runs xs) x with
    | true =>
        have hends := hit_runs_iff.mp hhit
        simp [hends]
    | false =>
        have hends : ¬ m.EndsAt (xs ++ [x]) xs.length := by
          intro h
          rw [hit_runs_iff.mpr h] at hhit
          cases hhit
        simp [hends, hnot]
  · have hne : n ≠ xs.length := Nat.ne_of_gt hgt
    have hnot : ¬ m.EndsAt xs n := fun h => by
      have := endsAt_lt h
      omega
    have hnot' : ¬ m.EndsAt (xs ++ [x]) n := fun h => by
      have := endsAt_lt h
      simp at this
      omega
    cases m.hit (m.runs xs) x <;> simp [hnot, hnot', hne]

/-- The machine counts the positions at which an accepted factor ends. -/
theorem count_eq_ncard (xs : List α) :
    m.count [] xs = {n | m.EndsAt xs n}.ncard := by
  induction xs using List.reverseRecOn with
  | nil =>
      simp [count, EndsAt]
  | append_singleton xs x ih =>
      have hnew : xs.length ∉ {n | m.EndsAt xs n} :=
        fun h => Nat.lt_irrefl _ (endsAt_lt h)
      rw [count_snoc, ih, endsAt_snoc]
      change _ + (m.hit (m.runs xs) x).toNat = _
      cases m.hit (m.runs xs) x with
      | true =>
          rw [if_pos rfl, Set.ncard_insert_of_notMem hnew (finite_endsAt xs)]
          rfl
      | false =>
          rw [if_neg Bool.false_ne_true]
          rfl

/-!
## Refinement
-/

section Refinement

universe t

variable {σ : Type t} {m' : RunMachine α σ} {f : ρ -> σ} {P : ρ -> Prop}

/-- Runs of one machine stand for runs of another, as long as they keep a property. -/
structure Refines (m : RunMachine α ρ) (m' : RunMachine α σ) (f : ρ -> σ) (P : ρ -> Prop) :
    Prop where
  start : forall x, m'.start x = (m.start x).map f
  starts : forall x r, m.start x = some r -> P r
  step : forall r x, P r -> m'.step (f r) x = (m.step r x).map f
  keeps : forall r x r', P r -> r' ∈ m.step r x -> P r'
  done : forall r x, P r -> m'.done (f r) x = m.done r x

theorem Refines.next (h : Refines m m' f P) {rs : List ρ} (hrs : forall r, r ∈ rs -> P r)
    (x : α) :
    m'.next (rs.map f) x = (m.next rs x).map f ∧ (forall r, r ∈ m.next rs x -> P r) ∧
      m'.hit (rs.map f) x = m.hit rs x := by
  have hall : forall r, r ∈ rs ++ (m.start x).toList -> P r := by
    intro r hr
    cases List.mem_append.mp hr with
    | inl hold => exact hrs r hold
    | inr hnew => exact h.starts x r (Option.mem_toList.mp hnew)
  have hruns : rs.map f ++ (m'.start x).toList = (rs ++ (m.start x).toList).map f := by
    rw [h.start, List.map_append]
    cases m.start x <;> rfl
  unfold RunMachine.next RunMachine.hit
  rw [hruns]
  generalize rs ++ (m.start x).toList = runs at hall
  refine ⟨?_, ?_, ?_⟩
  · rw [List.flatMap_map, List.map_flatMap]
    exact List.flatMap_congr fun r hr => h.step r x (hall r hr)
  · intro r hr
    rcases List.mem_flatMap.mp hr with ⟨r', hr', hstep⟩
    exact h.keeps r' x r (hall r' hr') hstep
  · rw [List.any_map, Bool.eq_iff_iff, List.any_eq_true, List.any_eq_true]
    constructor
    · rintro ⟨r, hr, hdone⟩
      exact ⟨r, hr, (h.done r x (hall r hr)).symm.trans hdone⟩
    · rintro ⟨r, hr, hdone⟩
      exact ⟨r, hr, (h.done r x (hall r hr)).trans hdone⟩

theorem Refines.count (h : Refines m m' f P) {rs : List ρ} (hrs : forall r, r ∈ rs -> P r)
    (xs : List α) : m'.count (rs.map f) xs = m.count rs xs := by
  induction xs generalizing rs with
  | nil => rfl
  | cons x xs ih =>
      rcases h.next hrs x with ⟨hnext, hkeeps, hhit⟩
      unfold RunMachine.count
      rw [hhit, hnext, ih hkeeps]

theorem Refines.runs (h : Refines m m' f P) {rs : List ρ} (hrs : forall r, r ∈ rs -> P r)
    (xs : List α) : forall r, r ∈ xs.foldl m.next rs -> P r := by
  induction xs generalizing rs with
  | nil => exact hrs
  | cons x xs ih => exact ih (h.next hrs x).2.1

end Refinement

end RunMachine

end Foundation
end Crave
