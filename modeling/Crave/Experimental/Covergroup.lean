import Crave.Experimental.CoverageBins
import Crave.Ir.Evaluator

/-!
# Covergroups

All bins of a covergroup evaluate their expressions with one evaluator, one after the other.
What an evaluation leaves in it does not disturb the others as long as the expressions are
about the variables of the covergroup, which are assigned again for every sample.
-/

namespace Crave
namespace Experimental

open Ir

/-- `eval_.evaluate(expr) && eval_.result<bool>()` -/
def evaluated (stored : Ir.Node -> Nat) (expr : Ir.Node) (eval_ : Evaluator) :
    Except String Bool × Evaluator :=
  (eval_.holds stored expr, (eval_.evaluate stored expr).2)

/-- Carry on unless there was an exception. -/
def carryOn {β γ : Type} (v : Except String β × Evaluator)
    (f : β -> Evaluator -> Except String γ × Evaluator) : Except String γ × Evaluator :=
  match v with
  | (.error e, eval_) => (.error e, eval_)
  | (.ok b, eval_) => f b eval_

/-!
## Transition bins over expressions

The states of `CoverageBins`, with the expressions instead of predicates.
-/

structure ExprState where
  type : NodeType
  expr : Ir.Node
  minHit : Int
  maxHit : Int

structure ExprNode where
  prev : Option ExprState
  state : ExprState
  succ : List ExprState

namespace ExprNode

def succ? (node : ExprNode) : Option ExprNode :=
  match node.succ with
  | [] => none
  | s :: rest => some { prev := some node.state, state := s, succ := rest }

/-- The expressions that may be evaluated at a node and behind it. -/
def exprs (node : ExprNode) : List Ir.Node :=
  (node.prev.toList ++ node.state :: node.succ).map ExprState.expr

end ExprNode

structure ExprRun where
  state : ExprNode
  count : Int

structure ExprTransitionBin where
  root : ExprNode
  runs : List ExprRun
  hit_minimum_ : BitVec 32
  hit_count_ : BitVec 32

namespace ExprTransitionBin

def softFail (current : ExprRun) (resultRuns : List ExprRun) (hit : Bool) :
    List ExprRun × Bool :=
  (resultRuns ++ [current], hit)

def hitState (current : ExprRun) (resultRuns : List ExprRun) (hit : Bool) :
    List ExprRun × Bool :=
  let current := { current with count := current.count + 1 }
  let belowMin := current.count < current.state.state.minHit
  let betweenMinMax :=
    current.count ≥ current.state.state.minHit ∧ current.count < current.state.state.maxHit
  if belowMin then
    (resultRuns ++ [current], hit)
  else if betweenMinMax then
    match current.state.succ? with
    | none => (resultRuns ++ [current], true)
    | some succ => (resultRuns ++ [current] ++ [{ state := succ, count := 0 }], hit)
  else
    match current.state.succ? with
    | none => (resultRuns, true)
    | some succ => (resultRuns ++ [{ state := succ, count := 0 }], hit)

section Evaluation

variable (stored : Ir.Node -> Nat)

def hardFail (current : ExprRun) (resultRuns : List ExprRun) (hit : Bool) (eval_ : Evaluator) :
    Except String (List ExprRun × Bool) × Evaluator :=
  match current.state.prev with
  | none => (.ok (resultRuns, hit), eval_)
  | some prev =>
      if prev.type = .NON_CONSEC then
        carryOn (evaluated stored prev.expr eval_) fun hitAgain eval_ =>
          if !hitAgain then (.ok (resultRuns ++ [current], hit), eval_)
          else (.ok (resultRuns, hit), eval_)
      else
        (.ok (resultRuns, hit), eval_)

def checkRun (current : ExprRun) (acc : List ExprRun × Bool) (eval_ : Evaluator) :
    Except String (List ExprRun × Bool) × Evaluator :=
  carryOn (evaluated stored current.state.state.expr eval_) fun wasHit eval_ =>
    if wasHit then
      (.ok (hitState current acc.1 acc.2), eval_)
    else if current.state.state.type = .CONSEC then
      hardFail stored current acc.1 acc.2 eval_
    else
      (.ok (softFail current acc.1 acc.2), eval_)

def checkRuns : List ExprRun -> List ExprRun × Bool -> Evaluator ->
    Except String (List ExprRun × Bool) × Evaluator
  | [], acc, eval_ => (.ok acc, eval_)
  | current :: rest, acc, eval_ =>
      carryOn (checkRun stored current acc eval_) (checkRuns rest)

/-- The runs that are carried to the next sample, and whether there was a hit. -/
def advance (bin : ExprTransitionBin) (eval_ : Evaluator) :
    Except String (List ExprRun × Bool) × Evaluator :=
  carryOn (checkRuns stored bin.runs ([], false) eval_) fun pending eval_ =>
    carryOn (evaluated stored bin.root.state.expr eval_) fun starts eval_ =>
      if starts then checkRun stored { state := bin.root, count := 0 } pending eval_
      else (.ok pending, eval_)

/-- An exception leaves the bin as it is. -/
def calcHit (bin : ExprTransitionBin) (eval_ : Evaluator) :
    Except String Unit × ExprTransitionBin × Evaluator :=
  match advance stored bin eval_ with
  | (.error e, eval_) => (.error e, bin, eval_)
  | (.ok (runs, hit), eval_) =>
      let counted := if hit then { bin with hit_count_ := bin.hit_count_ + 1 } else bin
      (.ok (), { counted with runs := runs }, eval_)

end Evaluation

/-- The expressions that the bin may evaluate. -/
def exprs (bin : ExprTransitionBin) : List Ir.Node :=
  bin.root.exprs ++ bin.runs.flatMap fun r => r.state.exprs

end ExprTransitionBin

/-!
## Bins, coverpoints and covergroups
-/

structure Bin where
  bin_expr_ : Ir.Node
  hit_minimum_ : BitVec 32
  hit_count_ : BitVec 32

namespace Bin

def calcHit (stored : Ir.Node -> Nat) (bin : Bin) (eval_ : Evaluator) :
    Except String Unit × Bin × Evaluator :=
  match evaluated stored bin.bin_expr_ eval_ with
  | (.error e, eval_) => (.error e, bin, eval_)
  | (.ok hit, eval_) =>
      (.ok (), if hit then { bin with hit_count_ := bin.hit_count_ + 1 } else bin, eval_)

def covered (bin : Bin) : Bool :=
  bin.hit_minimum_ ≤ bin.hit_count_

end Bin

/-- A loop over bins or coverpoints.  After an exception the others stay as they are. -/
def calcHits {β : Type} (calcHit : β -> Evaluator -> Except String Unit × β × Evaluator) :
    List β -> Evaluator -> Except String Unit × List β × Evaluator
  | [], eval_ => (.ok (), [], eval_)
  | b :: rest, eval_ =>
      match calcHit b eval_ with
      | (.error e, b', eval_) => (.error e, b' :: rest, eval_)
      | (.ok (), b', eval_) =>
          match calcHits calcHit rest eval_ with
          | (result, rest', eval_) => (result, b' :: rest', eval_)

structure Coverpoint where
  simple_bins_ : List Bin
  transition_bins_ : List ExprTransitionBin

namespace Coverpoint

/-- The loop over `all_bins()`: the simple bins come first. -/
def calcHit (stored : Ir.Node -> Nat) (cp : Coverpoint) (eval_ : Evaluator) :
    Except String Unit × Coverpoint × Evaluator :=
  match calcHits (Bin.calcHit stored) cp.simple_bins_ eval_ with
  | (.error e, simple, eval_) => (.error e, { cp with simple_bins_ := simple }, eval_)
  | (.ok (), simple, eval_) =>
      match calcHits (ExprTransitionBin.calcHit stored) cp.transition_bins_ eval_ with
      | (result, transitions, eval_) =>
          (result, { simple_bins_ := simple, transition_bins_ := transitions }, eval_)

def covered (cp : Coverpoint) : Bool :=
  cp.simple_bins_.all Bin.covered &&
    cp.transition_bins_.all fun bin => decide (bin.hit_minimum_ ≤ bin.hit_count_)

def exprs (cp : Coverpoint) : List Ir.Node :=
  cp.simple_bins_.map Bin.bin_expr_ ++ cp.transition_bins_.flatMap ExprTransitionBin.exprs

end Coverpoint

/-- `crv_covergroup`, once it is built: the coverpoints and the variables among its children. -/
structure Covergroup where
  points_ : List Coverpoint
  vars_ : List Nat
  eval_ : Evaluator

namespace Covergroup

/-- The variables have the given values. -/
def sample (stored : Ir.Node -> Nat) (group : Covergroup) (values : Nat -> Constant) :
    Except String Unit × Covergroup :=
  let eval_ := group.vars_.foldl (fun eval_ v => eval_.assign v (values v)) group.eval_
  match calcHits (Coverpoint.calcHit stored) group.points_ eval_ with
  | (result, points, eval_) => (result, { group with points_ := points, eval_ := eval_ })

/-- One call of `sample` after the other, up to an exception. -/
def sampleAll (stored : Ir.Node -> Nat) : Covergroup -> List (Nat -> Constant) ->
    Except String Unit × Covergroup
  | group, [] => (.ok (), group)
  | group, values :: rest =>
      match group.sample stored values with
      | (.error e, group) => (.error e, group)
      | (.ok (), group) => sampleAll stored group rest

def uncovered_as_list (group : Covergroup) : List Ir.Node :=
  group.points_.flatMap fun cp =>
    (cp.simple_bins_.filter fun bin => !bin.covered).map Bin.bin_expr_

def covered (group : Covergroup) : Bool :=
  group.points_.all Coverpoint.covered

def exprs (group : Covergroup) : List Ir.Node :=
  group.points_.flatMap Coverpoint.exprs

end Covergroup

/-!
## What one evaluation sees
-/

open EvalVisitor

/-- The evaluator has these values for the variables. -/
def Sees (vars_ : List Nat) (values : Nat -> Constant) (eval_ : Evaluator) : Prop :=
  forall id, id ∈ vars_ -> eval_.assignments_ id = some (values id)

/-- The expression is about the variables of the covergroup. -/
structure Plain (vars_ : List Nat) (expr : Ir.Node) : Prop where
  support : forall id, id ∈ expr.supportVars -> id ∈ vars_
  free : PlaceholderFree expr

/-- The value of an expression for a sample, asked for as a truth value. -/
def answered (expr : Ir.Node) (values : Nat -> Constant) : Except String Bool :=
  match value (fun id => some (values id)) expr with
  | .error e => .error e
  | .ok entry => .ok (entry.2 && entry.1.value != 0)

/-- The predicate on samples of an expression. -/
def truth (expr : Ir.Node) (values : Nat -> Constant) : Bool :=
  match answered expr values with
  | .ok b => b
  | .error _ => false

/-- The call throws nothing, and its result has a property. -/
def Yields {β : Type} (vars_ : List Nat) (values : Nat -> Constant)
    (v : Except String β × Evaluator) (Q : β -> Prop) : Prop :=
  exists b eval_, v = (.ok b, eval_) ∧ Q b ∧ Sees vars_ values eval_

/-- The expressions can be evaluated for the sample. -/
def Usable (vars_ : List Nat) (values : Nat -> Constant)
    (exprs : List Ir.Node) : Prop :=
  forall e, e ∈ exprs -> Plain vars_ e ∧ exists b, answered e values = .ok b

section Sample

variable {stored : Ir.Node -> Nat} {vars_ : List Nat} {values : Nat -> Constant}
  {eval_ : Evaluator} {expr : Ir.Node} {exprs : List Ir.Node}

theorem sees_assign (eval_ : Evaluator) :
    Sees vars_ values (vars_.foldl (fun eval_ v => eval_.assign v (values v)) eval_) := by
  have hfold : forall (l : List Nat) (eval_ : Evaluator) (id : Nat),
      (l.foldl (fun eval_ v => eval_.assign v (values v)) eval_).assignments_ id =
        if id ∈ l then some (values id) else eval_.assignments_ id := by
    intro l
    induction l with
    | nil => intro eval_ id; rfl
    | cons v rest ih =>
        intro eval_ id
        rw [List.foldl_cons, ih]
        by_cases hrest : id ∈ rest
        · rw [if_pos hrest, if_pos (List.mem_cons_of_mem v hrest)]
        · rw [if_neg hrest]
          by_cases hid : id = v
          · rw [hid, if_pos List.mem_cons_self]
            exact Function.update_self ..
          · rw [if_neg (fun h => (List.mem_cons.mp h).elim hid hrest)]
            exact Function.update_of_ne hid ..
  intro id hid
  rw [hfold, if_pos hid]

theorem holds_of_sees (hplain : Plain vars_ expr) (hsees : Sees vars_ values eval_) :
    eval_.holds stored expr = answered expr values := by
  have hassigns : Assigns eval_.assignments_ values expr.supportVars :=
    fun id hid => hsees id (hplain.support id hid)
  rcases visit_eq_value stored hassigns with ⟨later, -, hvisit⟩
  unfold Evaluator.holds answered
  rw [Evaluator.answer_eq_visit hplain.free, hvisit]
  cases value (fun id => some (values id)) expr <;> rfl

theorem Sees.evaluate (hsees : Sees vars_ values eval_) (expr : Ir.Node) :
    Sees vars_ values (eval_.evaluate stored expr).2 :=
  fun id hid => Evaluator.extends_evaluate stored eval_ expr id _ (hsees id hid)

theorem yields_evaluated (husable : Usable vars_ values exprs) (hexpr : expr ∈ exprs)
    (hsees : Sees vars_ values eval_) :
    Yields vars_ values (evaluated stored expr eval_)
      fun b => b = truth expr values := by
  rcases husable expr hexpr with ⟨hplain, b, hb⟩
  refine ⟨b, (eval_.evaluate stored expr).2, ?_, ?_, hsees.evaluate expr⟩
  · unfold evaluated
    rw [holds_of_sees hplain hsees, hb]
  · unfold truth
    rw [hb]

theorem Yields.carryOn {β γ : Type} {v : Except String β × Evaluator} {Q : β -> Prop}
    {f : β -> Evaluator -> Except String γ × Evaluator} {R : γ -> Prop}
    (h : Yields vars_ values v Q)
    (hnext : forall b eval_, Q b -> Sees vars_ values eval_ -> Yields vars_ values (f b eval_) R) :
    Yields vars_ values (carryOn v f) R := by
  rcases h with ⟨b, eval_, rfl, hb, hsees⟩
  exact hnext b eval_ hb hsees

theorem Yields.pure {β : Type} {b : β} {Q : β -> Prop} (hb : Q b)
    (hsees : Sees vars_ values eval_) : Yields vars_ values (.ok b, eval_) Q :=
  ⟨b, eval_, rfl, hb, hsees⟩

end Sample

/-!
## Bins over predicates
-/

def ExprState.reads (s : ExprState) : FsmState (Nat -> Constant) :=
  { type := s.type, expr := truth s.expr, minHit := s.minHit, maxHit := s.maxHit }

def ExprNode.reads (node : ExprNode) : Node (FsmState (Nat -> Constant)) :=
  { prev := node.prev.map ExprState.reads
    state := node.state.reads
    succ := node.succ.map ExprState.reads }

def ExprRun.reads (r : ExprRun) : Run (Nat -> Constant) :=
  { state := r.state.reads, count := r.count }

def ExprTransitionBin.reads (bin : ExprTransitionBin) : TransitionBin (Nat -> Constant) :=
  { root := bin.root.reads
    runs := bin.runs.map ExprRun.reads
    hit_minimum_ := bin.hit_minimum_
    hit_count_ := bin.hit_count_ }

/-- A simple bin that sees a sample alone. -/
def Bin.sampled (values : Nat -> Constant) (bin : Bin) : Bin :=
  if truth bin.bin_expr_ values then { bin with hit_count_ := bin.hit_count_ + 1 } else bin

/-- The runs and the hit are those of the bin over predicates, and only known expressions are
evaluated for the runs. -/
def RunsRead (exprs : List Ir.Node) (acc : List ExprRun × Bool)
    (acc' : List (Run (Nat -> Constant)) × Bool) : Prop :=
  (forall r, r ∈ acc.1 -> r.state.exprs ⊆ exprs) ∧
    (acc.1.map ExprRun.reads, acc.2) = acc'

section Transitions

variable {stored : Ir.Node -> Nat} {vars_ : List Nat} {values : Nat -> Constant}
  {exprs : List Ir.Node} {eval_ : Evaluator} {current : ExprRun} {acc : List ExprRun × Bool}
  {acc' : List (Run (Nat -> Constant)) × Bool}

theorem reads_succ? (node : ExprNode) :
    node.reads.succ? = node.succ?.map ExprNode.reads := by
  unfold Node.succ? ExprNode.succ? ExprNode.reads
  cases node.succ <;> rfl

theorem exprs_succ? {node next : ExprNode} (h : node.succ? = some next) :
    next.exprs ⊆ node.exprs := by
  unfold ExprNode.succ? at h
  split at h
  · cases h
  · next s rest hsucc =>
      cases h
      unfold ExprNode.exprs
      rw [hsucc]
      exact List.map_subset _ (List.subset_append_right _ _)

theorem state_mem_exprs (node : ExprNode) : node.state.expr ∈ node.exprs :=
  List.mem_map_of_mem (List.mem_append_right _ List.mem_cons_self)

theorem prev_mem_exprs {node : ExprNode} {prev : ExprState} (h : node.prev = some prev) :
    prev.expr ∈ node.exprs := by
  refine List.mem_map_of_mem (List.mem_append_left _ ?_)
  rw [h]
  exact List.mem_singleton.mpr rfl

theorem RunsRead.append (hacc : RunsRead exprs acc acc') {rs : List ExprRun}
    (hrs : forall r, r ∈ rs -> r.state.exprs ⊆ exprs) (hit : Bool) :
    RunsRead exprs (acc.1 ++ rs, hit)
      (acc'.1 ++ rs.map ExprRun.reads, hit) := by
  rcases hacc with ⟨hexprs, rfl⟩
  refine ⟨fun r hr => ?_, by rw [List.map_append]⟩
  rcases List.mem_append.mp hr with hold | hnew
  · exact hexprs r hold
  · exact hrs r hnew

theorem RunsRead.snoc (hacc : RunsRead exprs acc acc')
    (hcurrent : current.state.exprs ⊆ exprs) (hit : Bool) :
    RunsRead exprs (acc.1 ++ [current], hit)
      (acc'.1 ++ [current.reads], hit) :=
  hacc.append (by simpa using hcurrent) hit

theorem RunsRead.hit (hacc : RunsRead exprs acc acc') (hit : Bool) :
    RunsRead exprs (acc.1, hit) (acc'.1, hit) := by
  rcases hacc with ⟨hexprs, rfl⟩
  exact ⟨hexprs, rfl⟩

theorem runsRead_hitState (hacc : RunsRead exprs acc acc')
    (hcurrent : current.state.exprs ⊆ exprs) :
    RunsRead exprs (ExprTransitionBin.hitState current acc.1 acc.2)
      (TransitionBin.hitState current.reads acc'.1 acc'.2) := by
  have hflag : acc'.2 = acc.2 := by rw [← hacc.2]
  have hsucc : current.reads.state.succ? =
      current.state.succ?.map ExprNode.reads := reads_succ? current.state
  have hcount : current.reads.count = current.count := rfl
  have hmin : current.reads.state.state.minHit = current.state.state.minHit := rfl
  have hmax : current.reads.state.state.maxHit = current.state.state.maxHit := rfl
  have hagain : ({ current with count := current.count + 1 } : ExprRun).state.exprs ⊆ exprs :=
    hcurrent
  have hnext : forall next, current.state.succ? = some next ->
      ({ state := next, count := 0 } : ExprRun).state.exprs ⊆ exprs :=
    fun next h => List.Subset.trans (exprs_succ? h) hcurrent
  unfold ExprTransitionBin.hitState TransitionBin.hitState
  simp only [hsucc, hflag, hcount, hmin, hmax]
  split_ifs with hbelow hbetween
  · exact hacc.snoc hagain acc.2
  · cases hs : current.state.succ? with
    | none => exact hacc.snoc hagain true
    | some next =>
        have hstays := hacc.snoc hagain acc.2
        exact hstays.snoc (hnext next hs) acc.2
  · cases hs : current.state.succ? with
    | none => exact hacc.hit true
    | some next => exact hacc.snoc (hnext next hs) acc.2

variable (husable : Usable vars_ values exprs) (hsees : Sees vars_ values eval_)

include husable hsees

theorem yields_hardFail (hacc : RunsRead exprs acc acc')
    (hcurrent : current.state.exprs ⊆ exprs) :
    Yields vars_ values (ExprTransitionBin.hardFail stored current acc.1 acc.2 eval_)
      fun runs => RunsRead exprs runs
        (TransitionBin.hardFail values current.reads acc'.1 acc'.2) := by
  have hflag : acc'.2 = acc.2 := by rw [← hacc.2]
  have hprev : current.reads.state.prev =
      current.state.prev.map ExprState.reads := rfl
  unfold ExprTransitionBin.hardFail TransitionBin.hardFail
  rw [hprev, hflag]
  cases hp : current.state.prev with
  | none => exact Yields.pure (hacc.hit acc.2) hsees
  | some prev =>
      have htype : prev.reads.type = prev.type := rfl
      simp only [Option.map, htype]
      by_cases hnon : prev.type = .NON_CONSEC
      · rw [if_pos hnon, if_pos hnon]
        have hexpr : prev.expr ∈ exprs := hcurrent (prev_mem_exprs hp)
        refine (yields_evaluated husable hexpr hsees).carryOn fun hitAgain eval_ hb hsees => ?_
        have hpred : prev.reads.expr values = hitAgain := hb.symm
        rw [hpred]
        cases hitAgain with
        | false => exact Yields.pure (hacc.snoc hcurrent acc.2) hsees
        | true => exact Yields.pure (hacc.hit acc.2) hsees
      · rw [if_neg hnon, if_neg hnon]
        exact Yields.pure (hacc.hit acc.2) hsees

theorem yields_checkRun (hacc : RunsRead exprs acc acc')
    (hcurrent : current.state.exprs ⊆ exprs) :
    Yields vars_ values (ExprTransitionBin.checkRun stored current acc eval_)
      fun runs => RunsRead exprs runs
        (TransitionBin.checkRun values current.reads acc'.1 acc'.2) := by
  have hflag : acc'.2 = acc.2 := by rw [← hacc.2]
  have htype : current.reads.state.state.type = current.state.state.type := rfl
  have hexpr : current.state.state.expr ∈ exprs := hcurrent (state_mem_exprs current.state)
  refine (yields_evaluated husable hexpr hsees).carryOn fun wasHit eval_ hb hsees => ?_
  have hpred : current.reads.state.state.expr values = wasHit := hb.symm
  unfold TransitionBin.checkRun
  rw [hpred, htype]
  cases wasHit with
  | true => exact Yields.pure (runsRead_hitState hacc hcurrent) hsees
  | false =>
      by_cases hconsec : current.state.state.type = .CONSEC
      · rw [if_pos hconsec]
        simp only [Bool.false_eq_true, if_false, if_pos hconsec]
        exact yields_hardFail husable hsees hacc hcurrent
      · rw [if_neg hconsec]
        simp only [Bool.false_eq_true, if_false, if_neg hconsec]
        refine Yields.pure ?_ hsees
        unfold TransitionBin.softFail
        rw [hflag]
        exact hacc.snoc hcurrent acc.2

theorem yields_checkRuns {rs : List ExprRun} (hrs : forall r, r ∈ rs -> r.state.exprs ⊆ exprs)
    (hacc : RunsRead exprs acc acc') :
    Yields vars_ values (ExprTransitionBin.checkRuns stored rs acc eval_)
      fun runs => RunsRead exprs runs
        ((rs.map ExprRun.reads).foldl
          (fun acc current => TransitionBin.checkRun values current acc.1 acc.2) acc') := by
  induction rs generalizing acc acc' eval_ with
  | nil => exact Yields.pure hacc hsees
  | cons current rest ih =>
      have hcurrent := hrs current List.mem_cons_self
      have hrest : forall r, r ∈ rest -> r.state.exprs ⊆ exprs :=
        fun r hr => hrs r (List.mem_cons_of_mem current hr)
      exact (yields_checkRun husable hsees hacc hcurrent).carryOn
        fun acc eval_ hacc hsees => ih hsees hrest hacc

theorem yields_advance {bin : ExprTransitionBin} (hbin : bin.exprs ⊆ exprs) :
    Yields vars_ values (bin.advance stored eval_) fun runs =>
      let pending := bin.reads.runs.foldl
        (fun acc current => TransitionBin.checkRun values current acc.1 acc.2) ([], false)
      RunsRead exprs runs
        (if bin.reads.root.state.expr values then
          TransitionBin.checkRun values { state := bin.reads.root, count := 0 }
            pending.1 pending.2
        else pending) := by
  have hroot : bin.root.exprs ⊆ exprs :=
    List.Subset.trans (List.subset_append_left _ _) hbin
  have hruns : forall r, r ∈ bin.runs -> r.state.exprs ⊆ exprs := by
    intro r hr e he
    exact hbin (List.mem_append_right _ (List.mem_flatMap.mpr ⟨r, hr, he⟩))
  have hnone : RunsRead exprs ([], false) ([], false) := ⟨fun _ h => (nomatch h), rfl⟩
  refine (yields_checkRuns husable hsees hruns hnone).carryOn fun pending eval_ hpending hsees => ?_
  have hexpr : bin.root.state.expr ∈ exprs := hroot (state_mem_exprs bin.root)
  refine (yields_evaluated husable hexpr hsees).carryOn fun starts eval_ hb hsees => ?_
  have hpred : bin.reads.root.state.expr values = starts := hb.symm
  rw [hpred]
  cases starts with
  | true => exact yields_checkRun husable hsees hpending hroot
  | false => exact Yields.pure hpending hsees

end Transitions

/-!
## One sample
-/

/-- The loop or the bin throws nothing, and what it leaves has a property. -/
def Updates {β : Type} (vars_ : List Nat) (values : Nat -> Constant)
    (v : Except String Unit × β × Evaluator) (Q : β -> Prop) : Prop :=
  exists b eval_, v = (.ok (), b, eval_) ∧ Q b ∧ Sees vars_ values eval_

section Updates

variable {stored : Ir.Node -> Nat} {vars_ : List Nat} {values : Nat -> Constant}
  {exprs : List Ir.Node} {eval_ : Evaluator}

theorem updates_calcHits {β γ : Type}
    {calcHit : β -> Evaluator -> Except String Unit × β × Evaluator}
    {P : β -> Prop} {reads : β -> γ} {next : γ -> γ}
    (hstep : forall b eval_, P b -> Sees vars_ values eval_ ->
      Updates vars_ values (calcHit b eval_) fun b' => reads b' = next (reads b) ∧ P b')
    {l : List β} (hl : forall b, b ∈ l -> P b) (hsees : Sees vars_ values eval_) :
    Updates vars_ values (calcHits calcHit l eval_) fun l' =>
      l'.map reads = (l.map reads).map next ∧ forall b, b ∈ l' -> P b := by
  induction l generalizing eval_ with
  | nil => exact ⟨[], eval_, rfl, ⟨rfl, hl⟩, hsees⟩
  | cons b rest ih =>
      rcases hstep b eval_ (hl b List.mem_cons_self) hsees with
        ⟨b', eval₁, hb, ⟨hreads, hP⟩, hsees₁⟩
      rcases ih (fun c hc => hl c (List.mem_cons_of_mem b hc)) hsees₁ with
        ⟨rest', eval₂, hrest, ⟨hmap, hall⟩, hsees₂⟩
      refine ⟨b' :: rest', eval₂, ?_, ⟨?_, ?_⟩, hsees₂⟩
      · simp only [calcHits, hb, hrest]
      · rw [List.map_cons, hreads, hmap]
        rfl
      · intro c hc
        rcases List.mem_cons.mp hc with rfl | hc
        · exact hP
        · exact hall c hc

variable (husable : Usable vars_ values exprs) (hsees : Sees vars_ values eval_)

include husable hsees

/-- A bin with expressions does what the bin over their predicates does. -/
theorem updates_transition {bin : ExprTransitionBin} (hbin : bin.exprs ⊆ exprs) :
    Updates vars_ values (bin.calcHit stored eval_) fun bin' =>
      bin'.reads = bin.reads.calcHit values ∧ bin'.exprs ⊆ exprs := by
  rcases yields_advance husable hsees hbin with
    ⟨⟨runs, hit⟩, eval₁, hadvance, ⟨hexprs, hnext⟩, hsees₁⟩
  refine ⟨{ (if hit then { bin with hit_count_ := bin.hit_count_ + 1 } else bin) with
    runs := runs }, eval₁, ?_, ⟨?_, ?_⟩, hsees₁⟩
  · unfold ExprTransitionBin.calcHit
    rw [hadvance]
  · unfold TransitionBin.calcHit
    simp only [← hnext]
    cases hit <;> rfl
  · have hroot : bin.root.exprs ⊆ exprs :=
      List.Subset.trans (List.subset_append_left _ _) hbin
    intro e he
    rcases List.mem_append.mp he with hold | hnew
    · apply hroot
      cases hit <;> exact hold
    · rcases List.mem_flatMap.mp hnew with ⟨r, hr, he⟩
      exact hexprs r hr he

theorem updates_simple {bin : Bin} (hbin : bin.bin_expr_ ∈ exprs) :
    Updates vars_ values (bin.calcHit stored eval_) fun bin' =>
      bin' = bin.sampled values ∧ bin'.bin_expr_ ∈ exprs := by
  rcases yields_evaluated husable hbin hsees with ⟨hit, eval₁, hevaluated, rfl, hsees₁⟩
  refine ⟨_, eval₁, ?_, ⟨rfl, ?_⟩, hsees₁⟩
  · unfold Bin.calcHit
    rw [hevaluated]
    rfl
  · unfold Bin.sampled
    split <;> exact hbin

end Updates

/-!
## Bins that count on their own
-/

/-- The bins of a coverpoint, each of which sees the samples alone. -/
structure BinsAlone where
  simple_bins_ : List Bin
  transition_bins_ : List (TransitionBin (Nat -> Constant))

namespace BinsAlone

def sample (values : Nat -> Constant) (bins : BinsAlone) : BinsAlone :=
  { simple_bins_ := bins.simple_bins_.map (Bin.sampled values)
    transition_bins_ := bins.transition_bins_.map fun bin => bin.calcHit values }

/-- Each bin after all samples. -/
def counted (samples : List (Nat -> Constant)) (bins : BinsAlone) : BinsAlone :=
  { simple_bins_ := bins.simple_bins_.map fun bin =>
      { bin with
        hit_count_ := bin.hit_count_ + BitVec.ofNat 32 (samples.countP (truth bin.bin_expr_)) }
    transition_bins_ := bins.transition_bins_.map fun bin => bin.sampleAll samples }

def covered (bins : BinsAlone) : Bool :=
  bins.simple_bins_.all Bin.covered && bins.transition_bins_.all TransitionBin.covered

def uncovered (bins : BinsAlone) : List Ir.Node :=
  (bins.simple_bins_.filter fun bin => !bin.covered).map Bin.bin_expr_

theorem foldl_sample (samples : List (Nat -> Constant)) (bins : BinsAlone) :
    samples.foldl (fun bins values => bins.sample values) bins = bins.counted samples := by
  induction samples generalizing bins with
  | nil =>
      unfold counted
      simp [TransitionBin.sampleAll]
  | cons values rest ih =>
      rw [List.foldl_cons, ih]
      unfold counted sample
      simp only [List.map_map]
      congr 1
      apply List.map_congr_left
      intro bin _
      unfold Bin.sampled
      by_cases htrue : truth bin.bin_expr_ values = true
      · simp only [Function.comp, if_pos htrue, List.countP_cons]
        rw [BitVec.ofNat_add, BitVec.add_assoc, BitVec.add_comm 1]
        rfl
      · simp only [Function.comp, if_neg htrue, List.countP_cons]
        rfl

end BinsAlone

def Coverpoint.reads (cp : Coverpoint) : BinsAlone :=
  { simple_bins_ := cp.simple_bins_
    transition_bins_ := cp.transition_bins_.map ExprTransitionBin.reads }

theorem Coverpoint.covered_reads (cp : Coverpoint) : cp.reads.covered = cp.covered := by
  unfold BinsAlone.covered Coverpoint.covered Coverpoint.reads
  rw [List.all_map]
  rfl

section Samples

variable {stored : Ir.Node -> Nat} {vars_ : List Nat} {values : Nat -> Constant}
  {exprs : List Ir.Node} {eval_ : Evaluator}

theorem updates_coverpoint (husable : Usable vars_ values exprs)
    (hsees : Sees vars_ values eval_) {cp : Coverpoint} (hcp : cp.exprs ⊆ exprs) :
    Updates vars_ values (cp.calcHit stored eval_) fun cp' =>
      cp'.reads = cp.reads.sample values ∧ cp'.exprs ⊆ exprs := by
  have hsimple : forall b, b ∈ cp.simple_bins_ -> b.bin_expr_ ∈ exprs :=
    fun b hb => hcp (List.mem_append_left _ (List.mem_map_of_mem hb))
  have htransition : forall b, b ∈ cp.transition_bins_ -> b.exprs ⊆ exprs :=
    fun b hb e he => hcp (List.mem_append_right _ (List.mem_flatMap.mpr ⟨b, hb, he⟩))
  have hbin : forall (b : Bin) eval_, b.bin_expr_ ∈ exprs -> Sees vars_ values eval_ ->
      Updates vars_ values (b.calcHit stored eval_) fun b' =>
        id b' = (id b).sampled values ∧ b'.bin_expr_ ∈ exprs :=
    fun b eval_ hb hsees => updates_simple husable hsees hb
  have hcalcHit : forall (b : ExprTransitionBin) eval_, b.exprs ⊆ exprs ->
      Sees vars_ values eval_ -> Updates vars_ values (b.calcHit stored eval_) fun b' =>
        b'.reads = b.reads.calcHit values ∧ b'.exprs ⊆ exprs :=
    fun b eval_ hb hsees => updates_transition husable hsees hb
  rcases updates_calcHits hbin hsimple hsees with
    ⟨simple, eval₁, hcall₁, ⟨hmap₁, hexprs₁⟩, hsees₁⟩
  rcases @updates_calcHits vars_ values eval₁ _ _ (ExprTransitionBin.calcHit stored) _
    ExprTransitionBin.reads (fun bin => bin.calcHit values) hcalcHit _ htransition hsees₁ with
    ⟨transitions, eval₂, hcall₂, ⟨hmap₂, hexprs₂⟩, hsees₂⟩
  rw [List.map_id, List.map_id] at hmap₁
  refine ⟨{ simple_bins_ := simple, transition_bins_ := transitions }, eval₂, ?_, ⟨?_, ?_⟩,
    hsees₂⟩
  · simp only [Coverpoint.calcHit, hcall₁, hcall₂]
  · unfold Coverpoint.reads BinsAlone.sample
    rw [hmap₁, hmap₂]
  · intro e he
    rcases List.mem_append.mp he with he | he
    · rcases List.mem_map.mp he with ⟨b, hb, rfl⟩
      exact hexprs₁ b hb
    · rcases List.mem_flatMap.mp he with ⟨b, hb, he⟩
      exact hexprs₂ b hb he

theorem sample_reads {group : Covergroup}
    (hpoints : forall cp, cp ∈ group.points_ -> cp.exprs ⊆ exprs)
    (husable : Usable group.vars_ values exprs) :
    exists group', group.sample stored values = (.ok (), group') ∧
      group'.points_.map Coverpoint.reads =
        (group.points_.map Coverpoint.reads).map (BinsAlone.sample values) ∧
      group'.vars_ = group.vars_ ∧ forall cp, cp ∈ group'.points_ -> cp.exprs ⊆ exprs := by
  have hstep : forall cp eval_, cp.exprs ⊆ exprs -> Sees group.vars_ values eval_ ->
      Updates group.vars_ values (Coverpoint.calcHit stored cp eval_) fun cp' =>
        cp'.reads = cp.reads.sample values ∧ cp'.exprs ⊆ exprs :=
    fun cp eval_ hcp hsees => updates_coverpoint husable hsees hcp
  rcases updates_calcHits hstep hpoints (sees_assign group.eval_) with
    ⟨points, eval_, hcall, ⟨hmap, hexprs⟩, -⟩
  refine ⟨{ group with points_ := points, eval_ := eval_ }, ?_, hmap, rfl, hexprs⟩
  simp only [Covergroup.sample, hcall]

theorem sampleAll_reads {group : Covergroup} {samples : List (Nat -> Constant)}
    (hpoints : forall cp, cp ∈ group.points_ -> cp.exprs ⊆ exprs)
    (husable : forall values, values ∈ samples -> Usable group.vars_ values exprs) :
    exists group', group.sampleAll stored samples = (.ok (), group') ∧
      group'.points_.map Coverpoint.reads =
        (group.points_.map Coverpoint.reads).map
          fun bins => samples.foldl (fun bins values => bins.sample values) bins := by
  induction samples generalizing group with
  | nil => exact ⟨group, rfl, (List.map_id _).symm⟩
  | cons values rest ih =>
      rcases @sample_reads stored _ _ _ hpoints (husable values List.mem_cons_self) with
        ⟨group₁, hsample, hmap₁, hvars, hpoints₁⟩
      have hrest : forall values, values ∈ rest -> Usable group₁.vars_ values exprs := by
        intro values hvalues
        rw [hvars]
        exact husable values (List.mem_cons_of_mem _ hvalues)
      rcases ih hpoints₁ hrest with ⟨group₂, hall, hmap₂⟩
      refine ⟨group₂, ?_, ?_⟩
      · unfold Covergroup.sampleAll
        rw [hsample]
        exact hall
      · rw [hmap₂, hmap₁, List.map_map]
        rfl

end Samples

namespace Covergroup

theorem covered_eq (group : Covergroup) :
    group.covered = (group.points_.map Coverpoint.reads).all BinsAlone.covered := by
  unfold covered
  rw [List.all_map]
  congr 1
  funext cp
  exact (Coverpoint.covered_reads cp).symm

theorem uncovered_eq (group : Covergroup) :
    group.uncovered_as_list = (group.points_.map Coverpoint.reads).flatMap BinsAlone.uncovered := by
  unfold uncovered_as_list
  rw [List.flatMap_map]
  rfl

/-- Over all samples of a covergroup, no bin is disturbed by what the others evaluate: it counts
as if it had an evaluator of its own that holds nothing but the values of the sample. -/
theorem sampleAll_counts (stored : Ir.Node -> Nat) (group : Covergroup)
    (samples : List (Nat -> Constant))
    (husable : forall values, values ∈ samples -> Usable group.vars_ values group.exprs) :
    exists group', group.sampleAll stored samples = (.ok (), group') ∧
      group'.points_.map Coverpoint.reads =
        group.points_.map (fun cp => cp.reads.counted samples) ∧
      group'.covered = group.points_.all (fun cp => (cp.reads.counted samples).covered) ∧
      group'.uncovered_as_list =
        group.points_.flatMap fun cp => (cp.reads.counted samples).uncovered := by
  have hpoints : forall cp, cp ∈ group.points_ -> cp.exprs ⊆ group.exprs :=
    fun cp hcp e he => List.mem_flatMap.mpr ⟨cp, hcp, he⟩
  rcases @sampleAll_reads stored _ _ _ hpoints husable with ⟨group', hall, hmap⟩
  simp only [BinsAlone.foldl_sample, List.map_map] at hmap
  refine ⟨group', hall, hmap, ?_, ?_⟩
  · rw [covered_eq, hmap, List.all_map]
    rfl
  · rw [uncovered_eq, hmap, List.flatMap_map]
    rfl

/-- `x == 5` for a variable `x` of eight bits. -/
def isFive : Ir.Node :=
  .binaryOpr .equalOpr (.variableExpr 1 8 false) (.constant ⟨5, 8, false⟩)

/-- A bin for 5, and one for 5 two times in a row. -/
def fives : Covergroup :=
  { points_ :=
      [{ simple_bins_ := [{ bin_expr_ := isFive, hit_minimum_ := 1, hit_count_ := 0 }]
         transition_bins_ :=
          [{ root :=
              { prev := none
                state := { type := .CONSEC, expr := isFive, minHit := 2, maxHit := 2 }
                succ := [] }
             runs := []
             hit_minimum_ := 1
             hit_count_ := 0 }] }]
    vars_ := [1]
    eval_ := Evaluator.new }

theorem plain_isFive : Plain [1] isFive := by
  constructor
  · intro id hid
    simpa [isFive, Ir.Node.supportVars] using hid
  · intro id hid
    simp [isFive, Ir.Node.subterms] at hid

theorem usable_fives (values : Nat -> Constant) : Usable fives.vars_ values fives.exprs := by
  intro e he
  have hfive : e = isFive := by
    rcases List.mem_cons.mp he with rfl | he
    · rfl
    · exact List.mem_singleton.mp he
  rw [hfive]
  exact ⟨plain_isFive, _, rfl⟩

/-- The samples 5, 5 and 6. -/
def fiveFiveSix : List (Nat -> Constant) :=
  [fun _ => ⟨5, 8, false⟩, fun _ => ⟨5, 8, false⟩, fun _ => ⟨6, 8, false⟩]

theorem sampleAll_counts_fives :
    exists group', fives.sampleAll (fun _ => 0) fiveFiveSix = (.ok (), group') ∧
      group'.points_.map Coverpoint.reads =
        fives.points_.map (fun cp => cp.reads.counted fiveFiveSix) ∧
      group'.covered = fives.points_.all (fun cp => (cp.reads.counted fiveFiveSix).covered) ∧
      group'.uncovered_as_list =
        fives.points_.flatMap fun cp => (cp.reads.counted fiveFiveSix).uncovered :=
  sampleAll_counts (fun _ => 0) fives fiveFiveSix fun values _ => usable_fives values

/-- The bin for 5 is hit twice, the other one once. -/
example : fives.points_.map (fun cp => (cp.reads.counted fiveFiveSix).covered) = [true] := by
  decide

end Covergroup

end Experimental
end Crave
