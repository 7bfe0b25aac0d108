import Crave.Foundation.Components
import Crave.Ir.Constraint
import Mathlib.Data.Finset.Card
import Mathlib.Data.List.TakeWhile

/-!
# Partitioning of constraints

`ConstraintPartitioner` collects the enabled constraints of several managers
and divides the non-vector ones into partitions.  A partition starts with the
first constraint left and absorbs, in repeated passes over the rest, every
constraint that shares a variable with it.
-/

namespace Crave
namespace Ir

open Foundation

structure ConstraintPartition where
  constraints_ : List UserConstraint
  support_vars_ : Finset Nat
  singleVariableConstraintMap_ : Nat -> List UserConstraint

namespace ConstraintPartition

/-- In front of the first constraint whose identifier is not larger. -/
def insertConstraint (c : UserConstraint) : List UserConstraint -> List UserConstraint
  | [] => [c]
  | d :: rest => if d.id_ > c.id_ then d :: insertConstraint c rest else c :: d :: rest

/-- Hard constraints over a single variable are also filed under it. -/
def isSingleVariable (c : UserConstraint) : Bool :=
  c.isHard && c.support_vars_.card == 1

def add (cp : ConstraintPartition) (c : UserConstraint) : ConstraintPartition :=
  { cp with
    constraints_ := insertConstraint c cp.constraints_
    singleVariableConstraintMap_ := fun v =>
      if isSingleVariable c ∧ v ∈ c.support_vars_ then
        cp.singleVariableConstraintMap_ v ++ [c]
      else
        cp.singleVariableConstraintMap_ v }

/-- The partition that a constraint starts. -/
def start (c : UserConstraint) : ConstraintPartition :=
  add
    { constraints_ := []
      support_vars_ := c.support_vars_
      singleVariableConstraintMap_ := fun _ => [] } c

/-- Take in a constraint and its variables. -/
def absorb (cp : ConstraintPartition) (c : UserConstraint) : ConstraintPartition :=
  { cp.add c with support_vars_ := cp.support_vars_ ∪ c.support_vars_ }

end ConstraintPartition

namespace ConstraintPartitioner

open ConstraintPartition

/-- One pass over the list: what intersects is absorbed at once, the rest is
kept in order.  The flag tells whether anything was absorbed. -/
def pass : ConstraintPartition -> List UserConstraint ->
    ConstraintPartition × List UserConstraint × Bool
  | cp, [] => (cp, [], false)
  | cp, c :: rest =>
      if (cp.support_vars_ ∩ c.support_vars_).Nonempty then
        let (cp', rest', _) := pass (cp.absorb c) rest
        (cp', rest', true)
      else
        let (cp', rest', changed) := pass cp rest
        (cp', c :: rest', changed)

theorem length_pass (cp : ConstraintPartition) (lc : List UserConstraint) :
    (pass cp lc).2.1.length ≤ lc.length ∧
      ((pass cp lc).2.2 = true -> (pass cp lc).2.1.length < lc.length) := by
  induction lc generalizing cp with
  | nil => exact ⟨Nat.le_refl _, fun h => by cases h⟩
  | cons c rest ih =>
      unfold pass
      split
      · have h := (ih (cp.absorb c)).1
        exact ⟨Nat.le_succ_of_le h, fun _ => Nat.lt_succ_of_le h⟩
      · have h := ih cp
        exact ⟨Nat.succ_le_succ h.1, fun hc => Nat.succ_lt_succ (h.2 hc)⟩

/-- Passes until one absorbs nothing. -/
def saturate (cp : ConstraintPartition) (lc : List UserConstraint) :
    ConstraintPartition × List UserConstraint :=
  if h : (pass cp lc).2.2 = true then
    have := (length_pass cp lc).2 h
    saturate (pass cp lc).1 (pass cp lc).2.1
  else
    ((pass cp lc).1, (pass cp lc).2.1)
termination_by lc.length

def maximizePartition (c : UserConstraint) (lc : List UserConstraint) :
    ConstraintPartition × List UserConstraint :=
  saturate (start c) lc

theorem length_saturate (cp : ConstraintPartition) (lc : List UserConstraint) :
    (saturate cp lc).2.length ≤ lc.length := by
  rw [saturate]
  split
  · rename_i h
    have hlt := (length_pass cp lc).2 h
    exact Nat.le_trans (length_saturate _ _) (length_pass cp lc).1
  · exact (length_pass cp lc).1
termination_by lc.length

def partition : List UserConstraint -> List ConstraintPartition
  | [] => []
  | c :: lc =>
      have : (maximizePartition c lc).2.length < (c :: lc).length :=
        Nat.lt_succ_of_le (length_saturate _ _)
      (maximizePartition c lc).1 :: partition (maximizePartition c lc).2
termination_by lc => lc.length
decreasing_by exact Nat.lt_succ_of_le (length_saturate _ _)

end ConstraintPartitioner

/-- The collected constraints and the result of partitioning them. -/
structure ConstraintPartitioner where
  constraints_ : List UserConstraint
  partitions_ : List ConstraintPartition
  vec_constraints_ : List UserConstraint

namespace ConstraintPartitioner

def reset : ConstraintPartitioner :=
  { constraints_ := [], partitions_ := [], vec_constraints_ := [] }

def mergeConstraints (pttn : ConstraintPartitioner) (mng : ConstraintManager) :
    ConstraintPartitioner :=
  { pttn with
    constraints_ := pttn.constraints_ ++
      mng.enabled.filter fun c => !c.isVectorConstraint
    vec_constraints_ := pttn.vec_constraints_ ++
      mng.enabled.filter UserConstraint.isVectorConstraint }

def run (pttn : ConstraintPartitioner) : ConstraintPartitioner :=
  { pttn with
    constraints_ := []
    partitions_ := pttn.partitions_ ++ partition pttn.constraints_ }

/-!
## Invariant of a growing partition
-/

open ConstraintPartition

/-- What holds of a partition and its constraints at any time of its growth.
The partition is connected, its variables are those of its constraints, the
constraints stand in decreasing order and the single-variable map agrees. -/
structure Grown (cp : ConstraintPartition) : Prop where
  support : forall v, v ∈ cp.support_vars_ ↔
    exists c, c ∈ cp.constraints_ ∧ v ∈ c.support_vars_
  connected : forall c, c ∈ cp.constraints_ -> forall d, d ∈ cp.constraints_ ->
    Linked UserConstraint.support_vars_ cp.constraints_ c d
  single : forall v, (cp.singleVariableConstraintMap_ v).Perm
    (cp.constraints_.filter fun c => c.isHard && c.support_vars_ == {v})

theorem insertConstraint_perm (c : UserConstraint) (lc : List UserConstraint) :
    (insertConstraint c lc).Perm (c :: lc) := by
  induction lc with
  | nil => exact List.Perm.refl _
  | cons d rest ih =>
      unfold insertConstraint
      split
      · exact (ih.cons d).trans (List.Perm.swap c d rest)
      · exact List.Perm.refl _

theorem mem_insertConstraint (c d : UserConstraint) (lc : List UserConstraint) :
    d ∈ insertConstraint c lc ↔ d = c ∨ d ∈ lc := by
  rw [(insertConstraint_perm c lc).mem_iff, List.mem_cons]

/-- Constraints in strictly decreasing order of their identifiers. -/
def Decreasing (lc : List UserConstraint) : Prop :=
  lc.Pairwise fun c d => c.id_ > d.id_

theorem Decreasing.insertConstraint {lc : List UserConstraint} (h : Decreasing lc)
    {c : UserConstraint} (hnew : forall d, d ∈ lc -> d.id_ ≠ c.id_) :
    Decreasing (insertConstraint c lc) := by
  induction lc with
  | nil => exact List.pairwise_singleton _ _
  | cons d rest ih =>
      rcases List.pairwise_cons.mp h with ⟨hd, hrest⟩
      unfold ConstraintPartition.insertConstraint
      split
      · rename_i hgt
        refine List.pairwise_cons.mpr ⟨?_, ih hrest fun e he => ?_⟩
        · intro e he
          rcases (mem_insertConstraint c e rest).mp he with rfl | he
          · exact hgt
          · exact hd e he
        · exact hnew e (List.mem_cons_of_mem d he)
      · rename_i hle
        have hlt : d.id_ < c.id_ :=
          lt_of_le_of_ne (Nat.le_of_not_lt hle) (hnew d List.mem_cons_self)
        refine List.pairwise_cons.mpr ⟨?_, h⟩
        intro e he
        rcases List.mem_cons.mp he with rfl | he
        · exact hlt
        · exact lt_trans (hd e he) hlt

theorem isSingleVariable_iff (c : UserConstraint) (v : Nat) :
    (isSingleVariable c = true ∧ v ∈ c.support_vars_) ↔
      (c.isHard && c.support_vars_ == {v}) = true := by
  simp only [isSingleVariable, Bool.and_eq_true, beq_iff_eq]
  constructor
  · rintro ⟨⟨hhard, hcard⟩, hv⟩
    rcases Finset.card_eq_one.mp hcard with ⟨w, hw⟩
    rw [hw] at hv ⊢
    rw [Finset.mem_singleton.mp hv]
    exact ⟨hhard, rfl⟩
  · rintro ⟨hhard, hsupport⟩
    rw [hsupport]
    exact ⟨⟨hhard, Finset.card_singleton v⟩, Finset.mem_singleton_self v⟩

/-- Adding a constraint files it where the single-variable map promises it. -/
theorem single_add {cp : ConstraintPartition} (c : UserConstraint) (v : Nat)
    (h : (cp.singleVariableConstraintMap_ v).Perm
      (cp.constraints_.filter fun c => c.isHard && c.support_vars_ == {v})) :
    ((cp.add c).singleVariableConstraintMap_ v).Perm
      ((cp.add c).constraints_.filter fun c => c.isHard && c.support_vars_ == {v}) := by
  have hfilter := (insertConstraint_perm c cp.constraints_).filter
    fun c => c.isHard && c.support_vars_ == {v}
  refine List.Perm.trans ?_ hfilter.symm
  simp only [add]
  by_cases hc : isSingleVariable c = true ∧ v ∈ c.support_vars_
  · have hfile : (c.isHard && c.support_vars_ == {v}) = true :=
      (isSingleVariable_iff c v).mp hc
    rw [if_pos hc, List.filter_cons, if_pos hfile]
    exact (h.append_right [c]).trans (List.perm_append_singleton c _)
  · have hfile : ¬ (c.isHard && c.support_vars_ == {v}) = true :=
      fun hp => hc ((isSingleVariable_iff c v).mpr hp)
    rw [if_neg hc, List.filter_cons, if_neg hfile]
    exact h

theorem grown_start (c : UserConstraint) : Grown (start c) := by
  constructor
  · intro v
    simp [start, add, insertConstraint]
  · intro d hd e he
    have hd' : d = c := by simpa [start, add, insertConstraint] using hd
    have he' : e = c := by simpa [start, add, insertConstraint] using he
    rw [hd', he']
    exact Linked.refl _ _
  · intro v
    exact single_add c v (List.Perm.refl _)

theorem Grown.absorb {cp : ConstraintPartition} (h : Grown cp) {c : UserConstraint}
    (hshares : (cp.support_vars_ ∩ c.support_vars_).Nonempty) : Grown (cp.absorb c) := by
  have hmem : forall d, d ∈ (cp.absorb c).constraints_ ↔ d = c ∨ d ∈ cp.constraints_ :=
    fun d => mem_insertConstraint c d cp.constraints_
  constructor
  · intro v
    simp only [hmem]
    change v ∈ cp.support_vars_ ∪ c.support_vars_ ↔ _
    rw [Finset.mem_union, h.support]
    constructor
    · rintro (⟨d, hd, hv⟩ | hv)
      · exact ⟨d, Or.inr hd, hv⟩
      · exact ⟨c, Or.inl rfl, hv⟩
    · rintro ⟨d, rfl | hd, hv⟩
      · exact Or.inr hv
      · exact Or.inl ⟨d, hd, hv⟩
  · -- every constraint is linked to the new one through a neighbour of it
    rcases hshares with ⟨v, hv⟩
    rcases Finset.mem_inter.mp hv with ⟨hvcp, hvc⟩
    rcases (h.support v).mp hvcp with ⟨e, he, hve⟩
    have hlink : forall d, d ∈ (cp.absorb c).constraints_ ->
        Linked UserConstraint.support_vars_ (cp.absorb c).constraints_ d c := by
      intro d hd
      rcases (hmem d).mp hd with rfl | hd
      · exact Linked.refl _ _
      · refine ((h.connected d hd e he).mono fun x hx => (hmem x).mpr (Or.inr hx)).trans ?_
        exact Linked.of_shares ((hmem e).mpr (Or.inr he)) ((hmem c).mpr (Or.inl rfl))
          ⟨v, hve, hvc⟩
    intro d hd e' he'
    exact (hlink d hd).trans (hlink e' he').symm
  · intro v
    exact single_add c v (h.single v)

theorem absorb_perm (cp : ConstraintPartition) (c : UserConstraint)
    (lc : List UserConstraint) :
    ((cp.absorb c).constraints_ ++ lc).Perm (cp.constraints_ ++ c :: lc) :=
  ((insertConstraint_perm c cp.constraints_).append_right lc).trans
    List.perm_middle.symm

/-!
## A pass and the passes until nothing changes
-/

def ids (lc : List UserConstraint) : List Nat :=
  lc.map UserConstraint.id_

theorem pass_perm (cp : ConstraintPartition) (lc : List UserConstraint) :
    ((pass cp lc).1.constraints_ ++ (pass cp lc).2.1).Perm (cp.constraints_ ++ lc) := by
  induction lc generalizing cp with
  | nil => exact List.Perm.refl _
  | cons c rest ih =>
      unfold pass
      split
      · exact (ih (cp.absorb c)).trans (absorb_perm cp c rest)
      · exact (List.perm_middle.trans ((ih cp).cons c)).trans List.perm_middle.symm

theorem saturate_keeps {P : ConstraintPartition -> List UserConstraint -> Prop}
    (hpass : forall cp lc, P cp lc -> P (pass cp lc).1 (pass cp lc).2.1)
    {cp : ConstraintPartition} {lc : List UserConstraint} (h : P cp lc) :
    P (saturate cp lc).1 (saturate cp lc).2 := by
  rw [saturate]
  split
  · next hchanged =>
      have hlt := (length_pass cp lc).2 hchanged
      exact saturate_keeps hpass (hpass cp lc h)
  · exact hpass cp lc h
termination_by lc.length

theorem saturate_perm (cp : ConstraintPartition) (lc : List UserConstraint) :
    ((saturate cp lc).1.constraints_ ++ (saturate cp lc).2).Perm (cp.constraints_ ++ lc) :=
  saturate_keeps (P := fun cp' lc' => (cp'.constraints_ ++ lc').Perm (cp.constraints_ ++ lc))
    (fun cp' lc' h => (pass_perm cp' lc').trans h) (List.Perm.refl _)

theorem partition_perm (cs : List UserConstraint) :
    ((partition cs).flatMap ConstraintPartition.constraints_).Perm cs := by
  match cs with
  | [] =>
      rw [partition]
      exact List.Perm.refl _
  | c :: lc =>
      rw [partition, List.flatMap_cons]
      exact ((partition_perm _).append_left _).trans (saturate_perm (start c) lc)
termination_by cs.length
decreasing_by exact Nat.lt_succ_of_le (length_saturate _ _)

theorem grown_pass {cp : ConstraintPartition} (h : Grown cp) (lc : List UserConstraint) :
    Grown (pass cp lc).1 := by
  induction lc generalizing cp with
  | nil => exact h
  | cons c rest ih =>
      unfold pass
      split
      · rename_i hshares
        exact ih (h.absorb hshares)
      · exact ih h

theorem decreasing_pass {cp : ConstraintPartition} {lc : List UserConstraint}
    (h : Decreasing cp.constraints_) (hids : (ids (cp.constraints_ ++ lc)).Nodup) :
    Decreasing (pass cp lc).1.constraints_ := by
  induction lc generalizing cp with
  | nil => exact h
  | cons c rest ih =>
      unfold pass
      split
      · refine ih ?_ ?_
        · refine h.insertConstraint fun d hd heq => ?_
          simp only [ids, List.map_append, List.map_cons] at hids
          have hdisjoint := List.disjoint_of_nodup_append hids
          exact hdisjoint (List.mem_map_of_mem hd) (by rw [heq]; exact List.mem_cons_self)
        · exact ((absorb_perm cp c rest).map UserConstraint.id_).nodup_iff.mpr hids
      · refine ih h (hids.sublist ?_)
        exact (List.Sublist.append_left (List.sublist_cons_self c rest) _).map _

/-- What can become of a partition: one constraint starts it and others are absorbed. -/
inductive Collected : ConstraintPartition -> Prop where
  | start (c : UserConstraint) : Collected (start c)
  | absorb {cp : ConstraintPartition} (before : Collected cp) (c : UserConstraint) :
      Collected (cp.absorb c)

theorem collected_pass {cp : ConstraintPartition} (h : Collected cp)
    (lc : List UserConstraint) : Collected (pass cp lc).1 := by
  induction lc generalizing cp with
  | nil => exact h
  | cons c rest ih =>
      unfold pass
      split
      · exact ih (h.absorb c)
      · exact ih h

theorem collected_saturate {cp : ConstraintPartition} (h : Collected cp)
    (lc : List UserConstraint) : Collected (saturate cp lc).1 :=
  saturate_keeps (P := fun cp' _ => Collected cp') (fun _ lc' h' => collected_pass h' lc') h

theorem collected_of_mem_partition {cs : List UserConstraint} {cp : ConstraintPartition}
    (h : cp ∈ partition cs) : Collected cp := by
  match cs with
  | [] =>
      rw [partition] at h
      cases h
  | c :: lc =>
      rw [partition] at h
      cases List.mem_cons.mp h with
      | inl hfirst =>
          rw [hfirst]
          exact collected_saturate (Collected.start c) lc
      | inr hrest => exact collected_of_mem_partition hrest
termination_by cs.length
decreasing_by exact Nat.lt_succ_of_le (length_saturate _ _)

/-- A pass that absorbs nothing leaves constraints without a common variable. -/
theorem pass_unchanged {cp : ConstraintPartition} {lc : List UserConstraint}
    (h : (pass cp lc).2.2 ≠ true) :
    (pass cp lc).1 = cp ∧ (pass cp lc).2.1 = lc ∧
      forall c, c ∈ lc -> Disjoint cp.support_vars_ c.support_vars_ := by
  induction lc generalizing cp with
  | nil => exact ⟨rfl, rfl, fun c hc => absurd hc List.not_mem_nil⟩
  | cons c rest ih =>
      unfold pass at h ⊢
      split at h
      · exact absurd rfl h
      · rename_i hshares
        rw [if_neg hshares]
        rcases ih h with ⟨hcp, hrest, hdisjoint⟩
        refine ⟨hcp, congrArg (c :: ·) hrest, ?_⟩
        intro d hd
        rcases List.mem_cons.mp hd with rfl | hd
        · exact Finset.disjoint_iff_inter_eq_empty.mpr
            (Finset.not_nonempty_iff_eq_empty.mp hshares)
        · exact hdisjoint d hd

/-- A partition that has grown as far as it can, and what is left over. -/
structure Maximal (cp : ConstraintPartition) (lc : List UserConstraint)
    (result : ConstraintPartition × List UserConstraint) : Prop where
  grown : Grown result.1
  perm : (result.1.constraints_ ++ result.2).Perm (cp.constraints_ ++ lc)
  decreasing : Decreasing result.1.constraints_
  disjoint : forall c, c ∈ result.2 -> Disjoint result.1.support_vars_ c.support_vars_

theorem disjoint_saturate (cp : ConstraintPartition) (lc : List UserConstraint) :
    forall c, c ∈ (saturate cp lc).2 ->
      Disjoint (saturate cp lc).1.support_vars_ c.support_vars_ := by
  rw [saturate]
  split
  · next hchanged =>
      have hlt := (length_pass cp lc).2 hchanged
      exact disjoint_saturate _ _
  · next hchanged =>
      rcases pass_unchanged hchanged with ⟨hcp, hrest, hdisjoint⟩
      rw [hcp, hrest]
      exact hdisjoint
termination_by lc.length

theorem maximal_saturate {cp : ConstraintPartition} {lc : List UserConstraint}
    (hgrown : Grown cp) (hdecreasing : Decreasing cp.constraints_)
    (hids : (ids (cp.constraints_ ++ lc)).Nodup) : Maximal cp lc (saturate cp lc) := by
  have hkept := saturate_keeps
    (P := fun cp' lc' => Grown cp' ∧ Decreasing cp'.constraints_ ∧
      (ids (cp'.constraints_ ++ lc')).Nodup)
    (fun cp' lc' h => ⟨grown_pass h.left lc', decreasing_pass h.right.left h.right.right,
      ((pass_perm cp' lc').map UserConstraint.id_).nodup_iff.mpr h.right.right⟩)
    ⟨hgrown, hdecreasing, hids⟩
  constructor
  · exact hkept.left
  · exact saturate_perm cp lc
  · exact hkept.right.left
  · exact disjoint_saturate cp lc

theorem maximal_maximizePartition {c : UserConstraint} {lc : List UserConstraint}
    (hids : (ids (c :: lc)).Nodup) :
    Maximal (start c) lc (maximizePartition c lc) :=
  maximal_saturate (grown_start c) (List.pairwise_singleton _ _) hids

/-!
## The partitions are the connected components
-/

/-- What `partition` computes of a list of constraints. -/
structure IsPartition (cs : List UserConstraint) (ps : List ConstraintPartition) : Prop where
  components : Components UserConstraint.support_vars_ cs
    (ps.map ConstraintPartition.constraints_)
  disjoint : ps.Pairwise fun p q => Disjoint p.support_vars_ q.support_vars_
  support : forall p, p ∈ ps -> forall v, v ∈ p.support_vars_ ↔
    exists c, c ∈ p.constraints_ ∧ v ∈ c.support_vars_
  decreasing : forall p, p ∈ ps -> Decreasing p.constraints_
  single : forall p, p ∈ ps -> forall v, (p.singleVariableConstraintMap_ v).Perm
    (p.constraints_.filter fun c => c.isHard && c.support_vars_ == {v})

/-- Nothing that is left over touches the variables of the maximal partition,
so neither does any partition of what is left over. -/
theorem IsPartition.cons {c : UserConstraint} {lc : List UserConstraint}
    {result : ConstraintPartition × List UserConstraint} {ps : List ConstraintPartition}
    (hmax : Maximal (start c) lc result) (hrest : IsPartition result.2 ps) :
    IsPartition (c :: lc) (result.1 :: ps) := by
  have hdisjoint : forall q, q ∈ ps -> Disjoint result.1.support_vars_ q.support_vars_ := by
    intro q hq
    refine Finset.disjoint_left.mpr fun v hv hvq => ?_
    rcases (hrest.support q hq v).mp hvq with ⟨d, hd, hvd⟩
    have hleft : d ∈ result.2 :=
      (hrest.components.mem_iff d).mpr ⟨q.constraints_, List.mem_map_of_mem hq, hd⟩
    exact Finset.disjoint_left.mp (hmax.disjoint d hleft) hv hvd
  constructor
  · constructor
    · rw [List.map_cons, List.flatten_cons]
      exact (hrest.components.perm.append_left _).trans hmax.perm
    · rw [List.map_cons, List.pairwise_cons]
      refine ⟨?_, hrest.components.separate⟩
      intro p hp a ha b hb hshares
      rcases List.mem_map.mp hp with ⟨q, hq, rfl⟩
      rcases hshares with ⟨v, hva, hvb⟩
      exact Finset.disjoint_left.mp (hdisjoint q hq) ((hmax.grown.support v).mpr ⟨a, ha, hva⟩)
        ((hrest.support q hq v).mpr ⟨b, hb, hvb⟩)
    · intro p hp
      rw [List.map_cons] at hp
      rcases List.mem_cons.mp hp with rfl | hp
      · exact hmax.grown.connected
      · exact hrest.components.connected p hp
  · exact List.pairwise_cons.mpr ⟨hdisjoint, hrest.disjoint⟩
  · intro p hp
    rcases List.mem_cons.mp hp with rfl | hp
    · exact hmax.grown.support
    · exact hrest.support p hp
  · intro p hp
    rcases List.mem_cons.mp hp with rfl | hp
    · exact hmax.decreasing
    · exact hrest.decreasing p hp
  · intro p hp
    rcases List.mem_cons.mp hp with rfl | hp
    · exact hmax.grown.single
    · exact hrest.single p hp

theorem isPartition_nil : IsPartition [] [] := by
  refine ⟨Components.nil, List.Pairwise.nil, ?_, ?_, ?_⟩
  all_goals
    intro p hp
    exact absurd hp List.not_mem_nil

theorem partition_isPartition (cs : List UserConstraint) (hids : (ids cs).Nodup) :
    IsPartition cs (partition cs) := by
  match cs with
  | [] =>
      rw [partition]
      exact isPartition_nil
  | c :: lc =>
      have hmax := maximal_maximizePartition hids
      have hnodup : (ids (maximizePartition c lc).2).Nodup := by
        have hall := (hmax.perm.map UserConstraint.id_).nodup_iff.mpr hids
        rw [List.map_append] at hall
        exact (List.nodup_append.mp hall).2.1
      rw [partition]
      exact IsPartition.cons hmax (partition_isPartition _ hnodup)
termination_by cs.length
decreasing_by exact Nat.lt_succ_of_le (length_saturate _ _)

/-- After the constraints of any managers were merged, `run` divides them into
the connected components of the graph of constraints and variables. -/
theorem run_components
    (pttn : ConstraintPartitioner)
    (hfresh : pttn.partitions_ = [])
    (hids : (ids pttn.constraints_).Nodup) :
    pttn.run.constraints_ = [] ∧
      IsPartition pttn.constraints_ pttn.run.partitions_ ∧
      forall c, c ∈ pttn.constraints_ -> forall d,
        Linked UserConstraint.support_vars_ pttn.constraints_ c d ↔
          exists p, p ∈ pttn.run.partitions_ ∧ c ∈ p.constraints_ ∧ d ∈ p.constraints_ := by
  have hpartitions : pttn.run.partitions_ = partition pttn.constraints_ := by
    rw [run, hfresh, List.nil_append]
  have hparts := partition_isPartition pttn.constraints_ hids
  rw [hpartitions]
  constructor
  · rfl
  constructor
  · exact hparts
  · intro c hc d
    rw [hparts.components.linked_iff hc]
    constructor
    · rintro ⟨p, hp, hcp, hdp⟩
      rcases List.mem_map.mp hp with ⟨cp, hcp', rfl⟩
      exact ⟨cp, hcp', hcp, hdp⟩
    · rintro ⟨cp, hcp', hcp, hdp⟩
      exact ⟨cp.constraints_, List.mem_map_of_mem hcp', hcp, hdp⟩

/-- Hard constraints over the given variables, of two managers. -/
def comparison (c_id : Nat) (vars : Finset Nat) : UserConstraint :=
  { id_ := c_id
    expr_ := .constant { value := 1, bitsize := 1, sign := false }
    name_ := toString c_id
    support_vars_ := vars
    unique_ := none
    soft_ := false
    cover_ := false
    enabled_ := true
    complexity_ := 0 }

theorem run_components_merged :
    let cm1 : ConstraintManager :=
      { constraints_ := [comparison 1 {1, 2}, comparison 2 {3, 4}, comparison 3 {5}]
        constr_map_ := [("3", 2), ("2", 1), ("1", 0)]
        changed_ := true }
    let cm2 : ConstraintManager :=
      { constraints_ := [comparison 4 {1, 5}]
        constr_map_ := [("4", 0)]
        changed_ := true }
    let pttn := (reset.mergeConstraints cm1).mergeConstraints cm2
    IsPartition pttn.constraints_ pttn.run.partitions_ := by
  intro cm1 cm2 pttn
  exact (run_components pttn rfl (by decide)).2.1

example :
    (partition [comparison 1 {1, 2}, comparison 2 {3, 4}, comparison 3 {5},
      comparison 4 {1, 5}]).map (fun cp => ids cp.constraints_) = [[4, 3, 1], [2]] := by
  decide +kernel

end ConstraintPartitioner
end Ir
end Crave
