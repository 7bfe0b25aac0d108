import Crave.Backend.GeneratorSoundness
import Crave.Backend.VectorSoundness
import Crave.Backend.VectorUnique

/-!
# Vectors after a successful call

The solver of a vector has the constraints that are filed under the vector, and it runs
after the scalar variables have been solved. What it writes is still there when `next`
returns.
-/

namespace Crave
namespace Backend

open Foundation Ir

namespace VectorGenerator

/-!
## The constraints of a vector
-/

/-- The constraints that are filed under a vector. -/
def filed (vecs : List UserConstraint) (v : Nat) : List UserConstraint :=
  vecs.filter fun c => getVectorId c == v

/-- The keys increase, and every solver has the constraints of its key. -/
structure Grouped (vecs : List UserConstraint)
    (entries : List (Nat × Nat × List UserConstraint)) : Prop where
  increasing : (entries.map Prod.fst).Pairwise (· < ·)
  entry : forall e, e ∈ entries -> e.2.1 = e.1 ∧ e.2.2 = filed vecs e.1
  total : forall c, c ∈ vecs -> getVectorId c ∈ entries.map Prod.fst

section Insert

variable {v_id : Nat} {vc : UserConstraint} {solvers_ : List (Nat × VectorSolver)}

theorem keys_insertConstraint (key : Nat) :
    key ∈ (insertConstraint v_id vc solvers_).map Prod.fst ↔
      key = v_id ∨ key ∈ solvers_.map Prod.fst := by
  induction solvers_ with
  | nil => simp [insertConstraint]
  | cons pair rest ih =>
      unfold insertConstraint
      split
      · simp only [List.map_cons, List.mem_cons, ih]
        exact or_left_comm
      · next hnlt =>
          split
          · simp only [List.map_cons, List.mem_cons]
          · next hngt =>
              have hkey : pair.1 = v_id := Nat.le_antisymm (Nat.not_lt.mp hngt) (Nat.not_lt.mp hnlt)
              simp only [List.map_cons, List.mem_cons, hkey]
              exact or_self_left.symm

theorem increasing_insertConstraint (h : (solvers_.map Prod.fst).Pairwise (· < ·)) :
    ((insertConstraint v_id vc solvers_).map Prod.fst).Pairwise (· < ·) := by
  induction solvers_ with
  | nil => exact List.pairwise_singleton _ _
  | cons pair rest ih =>
      rw [List.map_cons, List.pairwise_cons] at h
      unfold insertConstraint
      split
      · next hlt =>
          rw [List.map_cons, List.pairwise_cons]
          constructor
          · intro key hkey
            cases (keys_insertConstraint key).mp hkey with
            | inl heq =>
                rw [heq]
                exact hlt
            | inr hmem => exact h.left key hmem
          · exact ih h.right
      · split
        · next hgt =>
            rw [List.map_cons, List.map_cons, List.pairwise_cons, List.pairwise_cons]
            constructor
            · intro key hkey
              cases List.mem_cons.mp hkey with
              | inl heq =>
                  rw [heq]
                  exact hgt
              | inr hmem => exact lt_trans hgt (h.left key hmem)
            · exact h
        · rw [List.map_cons, List.pairwise_cons]
          exact h

/-- An entry is an old one under another key, a new one, or an old one with one
constraint more. -/
theorem mem_insertConstraint (h : (solvers_.map Prod.fst).Pairwise (· < ·))
    {pair : Nat × VectorSolver} (hpair : pair ∈ insertConstraint v_id vc solvers_) :
    (pair.1 ≠ v_id ∧ pair ∈ solvers_) ∨
      (pair = (v_id, (VectorSolver.new v_id).addConstraint vc) ∧
        v_id ∉ solvers_.map Prod.fst) ∨
      exists vs, (v_id, vs) ∈ solvers_ ∧ pair = (v_id, vs.addConstraint vc) := by
  induction solvers_ with
  | nil =>
      cases List.mem_singleton.mp hpair
      exact Or.inr (Or.inl ⟨rfl, List.not_mem_nil⟩)
  | cons first rest ih =>
      rw [List.map_cons, List.pairwise_cons] at h
      unfold insertConstraint at hpair
      split at hpair
      · next hlt =>
          cases List.mem_cons.mp hpair with
          | inl heq =>
              rw [heq]
              exact Or.inl ⟨Nat.ne_of_lt hlt, List.mem_cons_self⟩
          | inr hmem =>
              rcases ih h.right hmem with hold | hnew | ⟨vs, hvs, heq⟩
              · exact Or.inl ⟨hold.left, List.mem_cons_of_mem first hold.right⟩
              · apply Or.inr
                apply Or.inl
                constructor
                · exact hnew.left
                · rw [List.map_cons, List.mem_cons, not_or]
                  exact ⟨Nat.ne_of_gt hlt, hnew.right⟩
              · exact Or.inr (Or.inr ⟨vs, List.mem_cons_of_mem first hvs, heq⟩)
      · next hnlt =>
          split at hpair
          · next hgt =>
              have habove : v_id ∉ (first :: rest).map Prod.fst := by
                intro hmem
                rw [List.map_cons] at hmem
                cases List.mem_cons.mp hmem with
                | inl heq => exact Nat.ne_of_lt hgt heq
                | inr hmem => exact Nat.lt_asymm hgt (h.left v_id hmem)
              cases List.mem_cons.mp hpair with
              | inl heq => exact Or.inr (Or.inl ⟨heq, habove⟩)
              | inr hmem =>
                  apply Or.inl
                  constructor
                  · intro heq
                    apply habove
                    rw [← heq]
                    exact List.mem_map_of_mem hmem
                  · exact hmem
          · next hngt =>
              have hkey : first.1 = v_id :=
                Nat.le_antisymm (Nat.not_lt.mp hngt) (Nat.not_lt.mp hnlt)
              cases List.mem_cons.mp hpair with
              | inl heq =>
                  apply Or.inr
                  apply Or.inr
                  refine ⟨first.2, ?_, ?_⟩
                  · rw [← hkey]
                    exact List.mem_cons_self
                  · rw [heq, hkey]
              | inr hmem =>
                  apply Or.inl
                  constructor
                  · have hlt := h.left pair.1 (List.mem_map_of_mem hmem)
                    rw [hkey] at hlt
                    exact Nat.ne_of_gt hlt
                  · exact List.mem_cons_of_mem first hmem

theorem map_fst_contents (solvers_ : List (Nat × VectorSolver)) :
    (contents solvers_).map Prod.fst = solvers_.map Prod.fst := by
  rw [contents, List.map_map]
  rfl

theorem filed_append (vecs : List UserConstraint) (vc : UserConstraint) (v : Nat) :
    filed (vecs ++ [vc]) v = if getVectorId vc = v then filed vecs v ++ [vc] else filed vecs v := by
  unfold filed
  rw [List.filter_append]
  split
  · next heq => rw [List.filter_cons_of_pos (by simpa using heq), List.filter_nil]
  · next hne =>
      rw [List.filter_cons_of_neg (by simpa using hne), List.filter_nil, List.append_nil]

theorem grouped_insertConstraint {vecs : List UserConstraint}
    (h : Grouped vecs (contents solvers_)) :
    Grouped (vecs ++ [vc]) (contents (insertConstraint (getVectorId vc) vc solvers_)) := by
  have hincreasing := h.increasing
  rw [map_fst_contents] at hincreasing
  have hentry : forall pair, pair ∈ solvers_ ->
      pair.2.vector_id_ = pair.1 ∧ pair.2.constraints_ = filed vecs pair.1 := by
    intro pair hpair
    exact h.entry (pair.1, pair.2.vector_id_, pair.2.constraints_) (List.mem_map_of_mem hpair)
  constructor
  · rw [map_fst_contents]
    exact increasing_insertConstraint hincreasing
  · intro e he
    rcases List.mem_map.mp he with ⟨pair, hpair, heq⟩
    rw [← heq]
    show pair.2.vector_id_ = pair.1 ∧ pair.2.constraints_ = filed (vecs ++ [vc]) pair.1
    rw [filed_append]
    rcases mem_insertConstraint hincreasing hpair with hold | hnew | ⟨vs, hvs, hadd⟩
    · rw [if_neg (fun hkey => hold.left hkey.symm)]
      exact hentry pair hold.right
    · -- no constraint was filed under the key before
      have hnone : filed vecs (getVectorId vc) = [] := by
        apply List.filter_eq_nil_iff.mpr
        intro c hc hkey
        apply hnew.right
        rw [← map_fst_contents, ← eq_of_beq hkey]
        exact h.total c hc
      rw [hnew.left, if_pos rfl, hnone]
      exact ⟨rfl, rfl⟩
    · have hvs' := hentry _ hvs
      rw [hadd, if_pos rfl]
      constructor
      · exact hvs'.left
      · show vs.constraints_ ++ [vc] = _
        rw [hvs'.right]
  · intro c hc
    rw [map_fst_contents, keys_insertConstraint]
    cases List.mem_append.mp hc with
    | inl hc =>
        apply Or.inr
        rw [← map_fst_contents]
        exact h.total c hc
    | inr hc =>
        rw [List.mem_singleton.mp hc]
        exact Or.inl rfl

theorem grouped_reset (vecs : List UserConstraint) :
    Grouped vecs (contents (reset vecs).vector_solvers_) := by
  induction vecs using List.reverseRecOn with
  | nil =>
      constructor
      · exact List.Pairwise.nil
      · intro e he
        cases he
      · intro c hc
        cases hc
  | append_singleton vecs vc ih =>
      unfold reset at ih ⊢
      rw [List.foldl_append]
      exact grouped_insertConstraint ih

end Insert

/-!
## The calls of the solvers
-/

section Solve

variable {env : Environment} {var_gen : List VariableSolver} {w w' : World}

/-- Every solver was called with success, and no other one has written its vector. -/
theorem exists_solve_of_solveFrom {solvers_ solvers' : List (Nat × VectorSolver)}
    (hnodup : (solvers_.map fun pair => pair.2.vector_id_).Nodup)
    (h : solveFrom env var_gen solvers_ w = .ok (true, solvers', w'))
    {pair : Nat × VectorSolver} (hpair : pair ∈ solvers_) :
    exists vs' w₁ w₂, pair.2.solve env var_gen w₁ = .ok (true, vs', w₂) ∧
      w.var_ID ≤ w₁.var_ID ∧ w'.vectors pair.2.vector_id_ = w₂.vectors pair.2.vector_id_ := by
  induction solvers_ generalizing solvers' w with
  | nil => cases hpair
  | cons first rest ih =>
      rw [List.map_cons, List.nodup_cons] at hnodup
      rcases bind_eq_ok.mp h with ⟨⟨result, vs', w₁⟩, hfirst, h⟩
      cases result with
      | false => cases h
      | true =>
          rcases bind_eq_ok.mp h with ⟨⟨result, rest', w₂⟩, hrest, h⟩
          cases h
          cases List.mem_cons.mp hpair with
          | inl heq =>
              rw [heq]
              refine ⟨vs', w, w₁, hfirst, Nat.le_refl _, ?_⟩
              exact (contents_solveFrom hrest).right.vectors first.2.vector_id_ hnodup.left
          | inr hmem =>
              rcases ih hnodup.right hrest hmem with ⟨vs₁, w₃, w₄, hsolve, hle, hvectors⟩
              have hle' := (VectorSolver.solve_frame hfirst).right.right.var_ID
              exact ⟨vs₁, w₃, w₄, hsolve, Nat.le_trans hle' hle, hvectors⟩

theorem Grouped.nodup {solvers_ : List (Nat × VectorSolver)} {vecs : List UserConstraint}
    (h : Grouped vecs (contents solvers_)) :
    (solvers_.map fun pair => pair.2.vector_id_).Nodup := by
  have hids : solvers_.map (fun pair => pair.2.vector_id_) = solvers_.map Prod.fst := by
    apply List.map_congr_left
    intro pair hpair
    exact (h.entry _ (List.mem_map_of_mem hpair)).left
  have hincreasing := h.increasing
  rw [map_fst_contents] at hincreasing
  rw [hids]
  exact hincreasing.imp fun hlt => Nat.ne_of_lt hlt

/-- In a successful call the solver of a vector was called, and nothing has written the vector
later on. -/
theorem exists_solve {vec_ids : List Nat} {g g' : VectorGenerator} {vecs : List UserConstraint}
    (hgrouped : Grouped vecs (contents g.vector_solvers_))
    (h : g.solve env var_gen vec_ids w = .ok (true, g', w')) {pair : Nat × VectorSolver}
    (hpair : pair ∈ g.vector_solvers_) :
    exists (vs' : VectorSolver) (w₁ w₂ : World),
      pair.2.solve env var_gen w₁ = .ok (true, vs', w₂) ∧ w.var_ID ≤ w₁.var_ID ∧
        w'.vectors pair.2.vector_id_ = w₂.vectors pair.2.vector_id_ := by
  rcases bind_eq_ok.mp h with ⟨⟨result, solvers', w₁⟩, hfrom, h⟩
  cases result with
  | false => cases h
  | true =>
      rcases bind_eq_ok.mp h with ⟨w₂, hgen, h⟩
      cases h
      rcases exists_solve_of_solveFrom hgrouped.nodup hfrom hpair with
        ⟨vs', w₃, w₄, hsolve, hle, hvectors⟩
      have hkeys : pair.2.vector_id_ ∈ solvers'.map Prod.fst := by
        have hkey : pair.2.vector_id_ = pair.1 :=
          (hgrouped.entry _ (List.mem_map_of_mem hpair)).left
        rw [← map_fst_contents, (contents_solveFrom hfrom).left, map_fst_contents, hkey]
        exact List.mem_map_of_mem hpair
      refine ⟨vs', w₃, w₄, hsolve, hle, ?_⟩
      rw [(genUnconstrained_frame hgen).right.right _ hkeys]
      exact hvectors

end Solve

end VectorGenerator

/-!
## Sizes
-/

/-- A size that the scalar constraints of the given partitions leave to a vector whose size is
the given variable: its value in a solution of the hard constraints of its partition, or the
default when no hard constraint reads it. -/
def SizeAllowed (vcon : VariableContainer) (memory : Memory) (ps : List ConstraintPartition)
    (size_var size : Nat) : Prop :=
  (exists p, p ∈ ps ∧ size_var ∈ p.support_vars_ ∧
      exists m, (forall pair, pair ∈ vcon.read_references -> RefersTo vcon m memory pair) ∧
        (forall c, c ∈ hards p -> NodeHolds m c.expr_) ∧
        size = m (.terminal size_var) % 2 ^ 32) ∨
    (forall p, p ∈ ps -> forall c, c ∈ hards p -> size_var ∉ c.support_vars_) ∧
      size = default_rand_vec_size

/-- Vectors are over integral types, and no program variable is behind their sizes. -/
def Environment.KnowsVectors (env : Environment) (vcon : VariableContainer) : Prop :=
  forall id vector, env.vectorBaseMap id = some vector ->
    vector.element.bitsize ≤ 64 ∧ vector.size_var ∉ vcon.references.map Prod.fst

/-- A solver of the scope has the constraint. Its constraints are about the elements of the
vector only, and for every size that is left to it every element is accessed in a copy. -/
def SolvedAlone (env : Environment) (vcon : VariableContainer) (memory : Memory)
    (scope : Scope) (c : UserConstraint) : Prop :=
  exists pair, pair ∈ scope.vectors ∧ c ∈ pair.2.constraints_ ∧
    forall vector, env.vectorBaseMap pair.2.vector_id_ = some vector ->
      Elementwise pair.2.vector_id_ vector.element pair.2.constraints_ ∧
        forall size, SizeAllowed vcon memory scope.partitions vector.size_var size ->
          size < 2 ^ 31 ∧ Covers pair.2.constraints_ size

/-- A solver of the scope has the `unique`, beside `foreach`es over the vector. For every size
that is left to the vector the widths of the elements are known when the `unique` is reached, and
a single element is accessed in a copy. -/
def UniqueAlone (env : Environment) (vcon : VariableContainer) (memory : Memory) (var_ID : Nat)
    (scope : Scope) (c : UserConstraint) : Prop :=
  exists pair, pair ∈ scope.vectors ∧ VectorSolver.Numbered pair.2 var_ID ∧
    exists before after, pair.2.constraints_ = before ++ c :: after ∧
      forall vector, env.vectorBaseMap pair.2.vector_id_ = some vector ->
        VectorSolver.ForeachOver pair.2.vector_id_ vector.element (before ++ after) ∧
          forall size, SizeAllowed vcon memory scope.partitions vector.size_var size ->
            VectorSolver.WidthsKnown vector.element before pair.2.vec_elements_ size ∧
              (size = 1 -> forall id, exists c', c' ∈ before ++ after ∧
                VectorSolver.OccursIn [id] id c')

namespace Generator

/-- The values after a call: those of the program variables, and those that are reported
for the other variables. -/
def finalValues (vcon : VariableContainer) (g : Generator) (w : World) : Values :=
  { scalar := fun id =>
      assignment vcon w.memory w.memory (fun id => (g.var_gen_.read id 0).2) (.terminal id)
    vector := w.vectors }

section Sound

variable {env : Environment} {vcon : VariableContainer} {ps : List ConstraintPartition}
  {g g' : Generator} {w w' : World}

theorem sizeAllowed_of_settled (hps : Separated vcon ps) {p : ConstraintPartition} (hp : p ∈ ps)
    {s : MetaSMTVisitor} {before after : Memory} (hs : Settled vcon (hards p) s after)
    (hwritten : WrittenOnly vcon (supportOf ps) before after)
    (hunwritten : Unwritten vcon (supportOf ps)) {size_var : Nat}
    (hid : size_var ∈ p.support_vars_) (href : size_var ∉ vcon.references.map Prod.fst) :
    SizeAllowed vcon before ps size_var ((s.read size_var).getD default_rand_vec_size % 2 ^ 32) := by
  cases hread : s.read size_var with
  | some value =>
      apply Or.inl
      refine ⟨p, hp, hid, assignment vcon before after fun id => (s.read id).getD 0, ?_, ?_, ?_⟩
      · intro pair hpair
        unfold RefersTo
        rw [assignment_read hpair]
      · intro c hc
        have hcp := (mem_hards.mp hc).left
        apply hs.nodeHolds hc (hps.made p hp c hcp)
        · intro pair hpair hidc
          exact hwritten.read hunwritten hpair ⟨p, hp, hps.support p hp c hcp hidc⟩
        · intro id d hidc hd
          rcases hs.met c hc id hidc with ⟨d', hd', hterminal⟩
          rw [hd] at hd'
          cases hd'
          exact ofNat_read hterminal
      · rw [assignment_other href, hread]
        rfl
  | none =>
      apply Or.inr
      constructor
      · -- a hard constraint would have made the variable known to the solver
        intro q hq c hc hidc
        have hcq := (mem_hards.mp hc).left
        have hsame : q = p := hps.eq_of_mem hq hp (hps.support q hq c hcq hidc) hid
        rw [hsame] at hc
        rcases hs.met c hc size_var hidc with ⟨d, hd, hterminal⟩
        rw [MetaSMTVisitor.read, hterminal] at hread
        cases hread
      · rfl

theorem sizeAllowed_of_solve (hsound : env.Sound) (hready : Ready vcon g)
    (hunwritten : Unwritten vcon (supportOf g.built.partitions))
    (h : solve env g w = (.ok true, g', w')) {vector : RandVec}
    (hsize : vector.size_var ∉ vcon.references.map Prod.fst) :
    SizeAllowed vcon w.memory g.built.partitions vector.size_var
      (vectorSize (g'.var_gen_.solvers_.map VariableDefaultSolver.toVariableSolver) vector) := by
  rcases settled_of_solve hsound hready hunwritten h with ⟨hsettled, hwritten⟩
  have hsettled' := settled_toVariableSolver hsettled
  unfold vectorSize
  by_cases hmem : exists p, p ∈ g.built.partitions ∧ vector.size_var ∈ p.support_vars_
  · rcases hmem with ⟨p, hp, hid⟩
    rcases Option.isSome_iff_exists.mp (hready.declared p hp _ hid) with ⟨d, hd⟩
    rcases VariableGenerator.readFrom_eq hready.separated hsettled' hp with ⟨vs, hs, hread⟩
    rw [hread vector.size_var d hid hd]
    exact sizeAllowed_of_settled hready.separated hp hs hwritten hunwritten hid hsize
  · apply Or.inr
    constructor
    · intro p hp c hc hid
      exact hmem ⟨p, hp, hready.separated.support p hp c (mem_hards.mp hc).left hid⟩
    · have hsolvers := hsettled'.imp fun _ _ hboth => hboth.left
      rw [VariableGenerator.readFrom_of_not_mem hsolvers fun p hp hid => hmem ⟨p, hp, hid⟩]
      rfl

/-- A successful call has called the solver of each vector with success, with a size that is
allowed. -/
theorem vector_solved_of_solve (hsound : env.Sound) (hready : Ready vcon g)
    (hunwritten : Unwritten vcon (supportOf g.built.partitions))
    (hknows : env.KnowsVectors vcon) (h : solve env g w = (.ok true, g', w'))
    {pair : Nat × VectorSolver} (hpair : pair ∈ g.built.vectors) :
    exists (var_gen : List VariableSolver) (vector : RandVec) (vs' : VectorSolver) (w₁ w₂ : World),
      env.vectorBaseMap pair.2.vector_id_ = some vector ∧
        SizeAllowed vcon w.memory g.built.partitions vector.size_var (vectorSize var_gen vector) ∧
        pair.2.solve env var_gen w₁ = .ok (true, vs', w₂) ∧ w.var_ID ≤ w₁.var_ID ∧
        w'.vectors pair.2.vector_id_ = w₂.vectors pair.2.vector_id_ := by
  rcases solve_true_cases h with ⟨var_gen_, w₁, vec_gen_, hvars, hvectors, hg'⟩
  rcases hready.vec_gen with ⟨vecs, hcontents⟩
  have hgrouped : VectorGenerator.Grouped vecs
      (VectorGenerator.contents g.vec_gen_.vector_solvers_) := by
    rw [hcontents]
    exact VectorGenerator.grouped_reset vecs
  rcases VectorGenerator.exists_solve hgrouped hvectors hpair with
    ⟨vs', w₂, w₃, hsolve, hle, hkept⟩
  rcases VectorSolver.solve_cases hsolve with ⟨vector, _, _, _, _, hvector, _⟩
  have hallowed := sizeAllowed_of_solve hsound hready hunwritten h (hknows _ vector hvector).right
  have hsolvers : g'.var_gen_.solvers_ = var_gen_.solvers_ := by rw [hg']
  rw [hsolvers] at hallowed
  have hvar_ID : w₁.var_ID = w.var_ID := by
    rcases bind_eq_ok.mp hvars with ⟨⟨r, solvers', w₄⟩, hfrom, hvars⟩
    cases hvars
    exact (VariableGenerator.solveFrom_spec hready.var_gen hfrom).2.2.2.1
  rw [hvar_ID] at hle
  exact ⟨_, vector, vs', w₂, w₃, hvector, hallowed, hsolve, hle, hkept⟩

/-- What is solved alone is true of the contents that a successful call leaves. -/
theorem bodyHolds_of_solve (hsound : env.Sound) (hready : Ready vcon g)
    (hunwritten : Unwritten vcon (supportOf g.built.partitions))
    (hknows : env.KnowsVectors vcon) (h : solve env g w = (.ok true, g', w'))
    {c : UserConstraint} (hhard : c.isHard = true)
    (halone : SolvedAlone env vcon w.memory g.built c) {v bitsize : Nat}
    {sign : Bool} {body : Node} (hexpr : c.expr_ = .forEach (.vectorExpr v bitsize sign) body)
    {values : Values} (hvalues : values.vector v = w'.vectors v) : values.BodyHolds v body := by
  rcases halone with ⟨pair, hpair, hc, halone⟩
  rcases vector_solved_of_solve hsound hready hunwritten hknows h hpair with
    ⟨var_gen, vector, vs', w₁, w₂, hvector, hallowed, hsolve, _, hkept⟩
  have hcond := halone vector hvector
  rcases exists_body (hcond.left c hc).right with ⟨body', hexpr', _⟩
  rw [hexpr] at hexpr'
  cases hexpr'
  have hsizes := hcond.right _ hallowed
  have hsoft : c.soft_ = false := by
    simp only [UserConstraint.isHard, Bool.and_eq_true, Bool.not_eq_true'] at hhard
    exact hhard.left
  apply VectorSolver.bodyHolds_of_solve hsound hvector (hknows _ vector hvector).left
    hcond.left hsizes.left hsizes.right hsolve hc hsoft hexpr
  rw [hvalues, hkept]

theorem getVectorId_of_built (hready : Ready vcon g) {pair : Nat × VectorSolver}
    (hpair : pair ∈ g.built.vectors) {c : UserConstraint} (hc : c ∈ pair.2.constraints_) :
    getVectorId c = pair.2.vector_id_ := by
  rcases hready.vec_gen with ⟨vecs, hcontents⟩
  have hentry := (VectorGenerator.grouped_reset vecs).entry
    (pair.1, pair.2.vector_id_, pair.2.constraints_) (by
      rw [← hcontents]
      exact List.mem_map_of_mem hpair)
  have hkey : pair.2.vector_id_ = pair.1 := hentry.left
  have hfiled : pair.2.constraints_ = VectorGenerator.filed vecs pair.1 := hentry.right
  rw [hfiled] at hc
  rw [hkey]
  exact eq_of_beq (List.mem_filter.mp hc).right

/-- What is unique alone is true of the contents that a successful call leaves. -/
theorem nodup_of_solve (hsound : env.Sound) (hready : Ready vcon g)
    (hunwritten : Unwritten vcon (supportOf g.built.partitions))
    (hknows : env.KnowsVectors vcon) (h : solve env g w = (.ok true, g', w'))
    {c : UserConstraint} (hmade : c.Made vcon.variables_) (hhard : c.isHard = true)
    {var_ID : Nat} (hvar_ID : var_ID ≤ w.var_ID)
    (halone : UniqueAlone env vcon w.memory var_ID g.built c) {v bitsize : Nat} {sign : Bool}
    (hexpr : c.expr_ = .unique (.vectorExpr v bitsize sign)) (hunique : c.isUnique = true) :
    (w'.vectors v).Nodup := by
  rcases halone with ⟨pair, hpair, hnumbered, before, after, hcs, halone⟩
  rcases vector_solved_of_solve hsound hready hunwritten hknows h hpair with
    ⟨var_gen, vector, vs', w₁, w₂, hvector, hallowed, hsolve, hle, hkept⟩
  have hcond := halone vector hvector
  have hsizes := hcond.right _ hallowed
  have hsoft : c.soft_ = false := by
    simp only [UserConstraint.isHard, Bool.and_eq_true, Bool.not_eq_true'] at hhard
    exact hhard.left
  have hv : v = pair.2.vector_id_ := by
    have hc : c ∈ pair.2.constraints_ := by
      rw [hcs]
      exact List.mem_append_right _ List.mem_cons_self
    rw [← getVectorId_of_built hready hpair hc, getVectorId, hmade.support, hexpr]
    rfl
  have hnumbered' := hnumbered.mono (Nat.le_trans hvar_ID hle)
  rw [hv, hkept]
  exact VectorSolver.nodup_of_solve hsound hvector hnumbered' hcs hunique hsoft hcond.left
    hsizes.left hsizes.right hsolve

end Sound

/-!
### One vector and one variable
-/

/-- Vector 2 with its size 1, and a variable that is declared after it. -/
def vconVectorFirst : VariableContainer :=
  { VariableContainer.ofReferences ⟨8, false⟩ VariableContainer.byte_supported [] [3] (by decide) with
    vector_variables := fun id => if id = 2 then some ⟨8, false⟩ else none }

/-- Every variable is one. -/
def envOne : Environment :=
  { Environment.simple (Oracle.ofModel fun _ => 1) id with
    vectorBaseMap := fun id =>
      if id = 2 then some { size_var := 1, element := ⟨8, false⟩ } else none }

def worldVectorFirst : World :=
  { memory := fun _ => 0, vectors := fun _ => [], time := 0, var_ID := 3, constraint_ID := 0 }

/-- `v[_i] == e` -/
def elementEqual (e : Node) : Node :=
  .binaryOpr .equalOpr (.vectorAccess (.vectorExpr 2 8 false) (.placeholder 0)) e

/-- `foreach(v, v[_i] == e)` -/
def allEqual (e : Node) : Node :=
  .forEach (.vectorExpr 2 8 false) (elementEqual e)

theorem envOne_knowsVectors : envOne.KnowsVectors vconVectorFirst := by
  intro id vector hvector
  simp only [envOne] at hvector
  split at hvector
  · cases hvector
    decide
  · cases hvector

/-- The generator with one `foreach`. -/
def made (e : Node) : Outcome Bool :=
  perform envOne vconVectorFirst Generator.new worldVectorFirst
    (.makeConstraint (some "c") (allEqual e) false false)

theorem used_made {e : Node} (he : Context.Builds vconVectorFirst.variables_
    vconVectorFirst.vector_variables (allEqual e)) :
    Used envOne vconVectorFirst (fun _ => True) (made e).2.1 (made e).2.2 :=
  .perform (.new worldVectorFirst) (.makeConstraint (some "c") (allEqual e) false false) he trivial
    _ rfl

theorem unwritten_vconVectorFirst (support : Set Nat) : Unwritten vconVectorFirst support := by
  intro r hr
  cases hr

end Generator

end Backend
end Crave
