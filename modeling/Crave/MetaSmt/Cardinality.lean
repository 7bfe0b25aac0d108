import Crave.Backend.MetaSMTVisitor
import Crave.Foundation.CardinalityTableau
import Crave.Foundation.Oracle
import Crave.Foundation.PredicateTerm
import Mathlib.Data.List.GetD

/-!
# Cardinality constraints

A cardinality constraint compares the number of true predicates in a vector with a number.
Simple ones become a conjunction; the others are built as a tableau of which two rows are
kept.  Every cell of the tableau is asserted to equal a new variable.
-/

namespace Crave
namespace MetaSmt

open Foundation Backend

/-- What has been asserted in a context, the number of new predicates, and the number of
calls of the solver. -/
structure DirectSolver_Context where
  assertions : List Formula
  size : Nat
  time : Nat

namespace DirectSolver_Context

def new_variable (ctx : DirectSolver_Context) : Formula × DirectSolver_Context :=
  (.var (.selector ctx.size) 1, { ctx with size := ctx.size + 1 })

def assertion (e : Formula) (ctx : DirectSolver_Context) : DirectSolver_Context :=
  { ctx with assertions := ctx.assertions ++ [e] }

def solve (o : Oracle SolverVar) (assumptions : List Formula) (ctx : DirectSolver_Context) :
    Option (Model SolverVar) × DirectSolver_Context :=
  (o.check ctx.time (ctx.assertions ++ assumptions), { ctx with time := ctx.time + 1 })

end DirectSolver_Context

inductive CardinalityTag where
  | lt
  | le
  | eq
  | ge
  | gt
deriving DecidableEq, Repr

namespace cardinality

def allOf (ps : List Formula) : Formula :=
  ps.foldl (fun res p => .binary .and res p) Term.true

def noneOf (ps : List Formula) : Formula :=
  ps.foldl (fun res p => .binary .and res (.unary .not p)) Term.true

def cardinality_simplify (ps : List Formula) (cardinality : Nat) : CardinalityTag -> Option Formula
  | .eq =>
      if cardinality = 0 then some (noneOf ps)
      else if cardinality = ps.length then some (allOf ps)
      else if cardinality = 1 ∧ ps.length = 2 then
        some (.binary .bvxor (ps.getD 0 Term.false) (ps.getD 1 Term.false))
      else if ps.length < cardinality then some Term.false
      else none
  | .gt =>
      if ps.length ≤ cardinality then some Term.false
      else if ps.length = cardinality + 1 then some (allOf ps)
      else none
  | .ge =>
      if ps.length < cardinality then some Term.false
      else if cardinality = 0 then some Term.true
      else if ps.length = cardinality then some (allOf ps)
      else none
  | .lt =>
      if ps.length < cardinality then some Term.true
      else if cardinality = 0 then some Term.false
      else if cardinality = 1 then some (noneOf ps)
      else none
  | .le =>
      if ps.length ≤ cardinality then some Term.true
      else if cardinality = 0 then some (noneOf ps)
      else none

/-- The first cell is not given a variable. -/
def formula (n : Nat) (r : Formula) (ctx : DirectSolver_Context) :
    Formula × DirectSolver_Context :=
  if 0 < n then
    let (p, ctx) := ctx.new_variable
    (p, ctx.assertion (.binary .equal p r))
  else
    (r, ctx)

def constant (b : Bool) : Formula :=
  if b then Term.true else Term.false

section Rails

variable (ps : List Formula) (lt eq gt : Bool)

/-- The cell in row `v` and column `u`, below the row `prev` and behind the cells `row`. -/
def cell (v u : Nat) (prev row : List Formula) : Formula :=
  match u, v with
  | 0, 0 => constant eq
  | 0, v + 1 => .ite (ps.getD v Term.false) (constant gt) (prev.getD 0 Term.false)
  | u + 1, 0 => .ite (ps.getD u Term.false) (row.getD u Term.false) (constant lt)
  | u + 1, v + 1 =>
      .ite (ps.getD (u + v + 1) Term.false) (row.getD u Term.false) (prev.getD (u + 1) Term.false)

/-- The first cells of row `v`. -/
def rail (v : Nat) (prev : List Formula) :
    Nat -> DirectSolver_Context -> List Formula × DirectSolver_Context
  | 0, ctx => ([], ctx)
  | u + 1, ctx =>
      let (row, ctx) := rail v prev u ctx
      let (p, ctx) := formula (u + v) (cell ps lt eq gt v u prev row) ctx
      (row ++ [p], ctx)

/-- The row before row `v`. -/
def rails (rail_size : Nat) : Nat -> DirectSolver_Context -> List Formula × DirectSolver_Context
  | 0, ctx => ([], ctx)
  | v + 1, ctx =>
      let (prev, ctx) := rails rail_size v ctx
      rail ps lt eq gt v prev rail_size ctx

def cardinality_any (cardinality : Nat) (ctx : DirectSolver_Context) :
    Formula × DirectSolver_Context :=
  let (row, ctx) :=
    rails ps lt eq gt (cardinality + 1) (ps.length - cardinality + 1) ctx
  (row.getD cardinality Term.false, ctx)

end Rails

end cardinality

open cardinality

section Evaluate

variable (ps : List Formula) (cardinality : Nat) (ctx : DirectSolver_Context)

def cardinality_eq : Formula × DirectSolver_Context :=
  match cardinality_simplify ps cardinality .eq with
  | some r => (r, ctx)
  | none => cardinality_any ps false true false cardinality ctx

def cardinality_leq : Formula × DirectSolver_Context :=
  match cardinality_simplify ps cardinality .le with
  | some r => (r, ctx)
  | none => cardinality_any ps true true false cardinality ctx

def cardinality_geq : Formula × DirectSolver_Context :=
  match cardinality_simplify ps cardinality .ge with
  | some r => (r, ctx)
  | none => cardinality_any ps false true true cardinality ctx

def cardinality_lt : Formula × DirectSolver_Context :=
  match cardinality_simplify ps cardinality .lt with
  | some r => (r, ctx)
  | none =>
      let (f, ctx) := cardinality_geq ps cardinality ctx
      (.unary .not f, ctx)

def cardinality_gt : Formula × DirectSolver_Context :=
  match cardinality_simplify ps cardinality .gt with
  | some r => (r, ctx)
  | none =>
      let (f, ctx) := cardinality_leq ps cardinality ctx
      (.unary .not f, ctx)

/-- `evaluate` of a cardinality constraint, with the default encoding. -/
def evaluateCardinality : CardinalityTag -> Formula × DirectSolver_Context
  | .lt => cardinality_lt ps cardinality ctx
  | .le => cardinality_leq ps cardinality ctx
  | .eq => cardinality_eq ps cardinality ctx
  | .ge => cardinality_geq ps cardinality ctx
  | .gt => cardinality_gt ps cardinality ctx

end Evaluate

/-!
## Contexts that grow
-/

def MadeBefore (size : Nat) : SolverVar -> Prop
  | .terminal _ => True
  | .selector k => k < size

theorem MadeBefore.mono {size size' : Nat} (hsize : size ≤ size') (v : SolverVar)
    (h : MadeBefore size v) : MadeBefore size' v := by
  cases v with
  | terminal id => trivial
  | selector k => exact Nat.lt_of_lt_of_le h hsize

namespace DirectSolver_Context

/-- The assertions are about the variables that have been made. -/
def Closed (ctx : DirectSolver_Context) : Prop :=
  forall t, t ∈ ctx.assertions -> t.NamesIn (MadeBefore ctx.size)

/-- More has been asserted, about new variables only. -/
structure Extends (ctx ctx' : DirectSolver_Context) : Prop where
  kept : forall t, t ∈ ctx.assertions -> t ∈ ctx'.assertions
  size : ctx.size ≤ ctx'.size
  conservative : Term.Conservative (MadeBefore ctx.size) ctx.assertions ctx'.assertions

variable {ctx ctx' ctx'' : DirectSolver_Context}

theorem Extends.refl (ctx : DirectSolver_Context) : ctx.Extends ctx :=
  { kept := fun _ ht => ht
    size := Nat.le_refl _
    conservative := Term.Conservative.refl _ _ }

theorem Extends.trans (h : ctx.Extends ctx') (h' : ctx'.Extends ctx'') : ctx.Extends ctx'' :=
  { kept := fun t ht => h'.kept t (h.kept t ht)
    size := h.size.trans h'.size
    conservative := h.conservative.trans h'.conservative (MadeBefore.mono h.size) }

theorem Extends.satisfies (h : ctx.Extends ctx') {m : Model SolverVar}
    (hm : Term.Satisfies m ctx'.assertions) : Term.Satisfies m ctx.assertions :=
  hm.mono h.kept

/-- The formula is about the variables that have been made, and it is the truth value of the
function in every model of the assertions. -/
structure Gives (ctx : DirectSolver_Context) (f : Formula) (value : Model SolverVar -> Bool) :
    Prop where
  names : f.NamesIn (MadeBefore ctx.size)
  width : f.width = some 1
  denotes : forall m, Term.Satisfies m ctx.assertions -> f.Denotes m (value m)

theorem Gives.mono {f : Formula} {value : Model SolverVar -> Bool} (h : ctx.Gives f value)
    (hext : ctx.Extends ctx') : ctx'.Gives f value :=
  { names := h.names.mono (MadeBefore.mono hext.size)
    width := h.width
    denotes := fun m hm => h.denotes m (hext.satisfies hm) }

theorem Gives.congr {f : Formula} {value value' : Model SolverVar -> Bool} (h : ctx.Gives f value)
    (hvalue : forall m, value m = value' m) : ctx.Gives f value' :=
  { names := h.names
    width := h.width
    denotes := fun m hm => hvalue m ▸ h.denotes m hm }

theorem gives_constant (ctx : DirectSolver_Context) (b : Bool) :
    ctx.Gives (cardinality.constant b) fun _ => b := by
  cases b with
  | false =>
      exact
        { names := fun _ _ hv => nomatch hv
          width := rfl
          denotes := fun _ _ => Term.denotes_false }
  | true =>
      exact
        { names := fun _ _ hv => nomatch hv
          width := rfl
          denotes := fun _ _ => Term.denotes_true }

theorem Gives.not {f : Formula} {value : Model SolverVar -> Bool} (h : ctx.Gives f value) :
    ctx.Gives (.unary .not f) fun m => !value m :=
  { names := h.names
    width := h.width
    denotes := fun m hm => (h.denotes m hm).not }

theorem Gives.and {f g : Formula} {value value' : Model SolverVar -> Bool}
    (hf : ctx.Gives f value) (hg : ctx.Gives g value') :
    ctx.Gives (.binary .and f g) fun m => value m && value' m :=
  { names := fun v w hv => (List.mem_append.mp hv).elim (hf.names v w) (hg.names v w)
    width := by rw [Term.width, hf.width, hg.width]; rfl
    denotes := fun m hm => (hf.denotes m hm).and (hg.denotes m hm) }

theorem Gives.xor {f g : Formula} {value value' : Model SolverVar -> Bool}
    (hf : ctx.Gives f value) (hg : ctx.Gives g value') :
    ctx.Gives (.binary .bvxor f g) fun m => value m ^^ value' m :=
  { names := fun v w hv => (List.mem_append.mp hv).elim (hf.names v w) (hg.names v w)
    width := by rw [Term.width, hf.width, hg.width]; rfl
    denotes := fun m hm => (hf.denotes m hm).xor (hg.denotes m hm) }

theorem Gives.ite {c f g : Formula} {choice value value' : Model SolverVar -> Bool}
    (hc : ctx.Gives c choice) (hf : ctx.Gives f value) (hg : ctx.Gives g value') :
    ctx.Gives (.ite c f g) fun m => if choice m then value m else value' m :=
  { names := fun v w hv => (List.mem_append.mp hv).elim
      (fun hleft => (List.mem_append.mp hleft).elim (hc.names v w) (hf.names v w)) (hg.names v w)
    width := by rw [Term.width, hc.width, hf.width, hg.width]; rfl
    denotes := fun m hm => (hc.denotes m hm).ite (hf.denotes m hm) (hg.denotes m hm) }

/-- A formula is built, which may extend the context. -/
structure Builds (ctx : DirectSolver_Context) (result : Formula × DirectSolver_Context)
    (value : Model SolverVar -> Bool) : Prop where
  ext : ctx.Extends result.2
  closed : result.2.Closed
  gives : result.2.Gives result.1 value

theorem Builds.congr {result : Formula × DirectSolver_Context}
    {value value' : Model SolverVar -> Bool} (h : ctx.Builds result value)
    (hvalue : forall m, value m = value' m) : ctx.Builds result value' :=
  { h with gives := h.gives.congr hvalue }

theorem Builds.not {result : Formula × DirectSolver_Context} {value : Model SolverVar -> Bool}
    (h : ctx.Builds result value) :
    ctx.Builds (.unary .not result.1, result.2) fun m => !value m :=
  { ext := h.ext
    closed := h.closed
    gives := h.gives.not }

theorem builds_of_gives (hclosed : ctx.Closed) {f : Formula} {value : Model SolverVar -> Bool}
    (h : ctx.Gives f value) : ctx.Builds (f, ctx) value :=
  { ext := Extends.refl ctx
    closed := hclosed
    gives := h }

/-- A new variable that is asserted to equal a formula has its value. -/
theorem builds_formula (hclosed : ctx.Closed) {r : Formula} {value : Model SolverVar -> Bool}
    (h : ctx.Gives r value) (n : Nat) : ctx.Builds (cardinality.formula n r ctx) value := by
  rw [cardinality.formula]
  split
  · have hnew : ¬ MadeBefore ctx.size (.selector ctx.size) := Nat.lt_irrefl _
    have hself : MadeBefore (ctx.size + 1) (.selector ctx.size) := Nat.lt_succ_self _
    constructor
    · exact
        { kept := fun t ht => List.mem_append_left _ ht
          size := Nat.le_succ _
          conservative := Term.conservative_define hclosed h.names h.width hnew }
    · intro t ht
      rcases List.mem_append.mp ht with hold | hdefinition
      · exact (hclosed t hold).mono (MadeBefore.mono (Nat.le_succ _))
      · rw [List.mem_singleton.mp hdefinition]
        intro v w hv
        rcases List.mem_cons.mp hv with heq | hr
        · cases heq
          exact hself
        · exact MadeBefore.mono (Nat.le_succ _) v (h.names v w hr)
    · constructor
      · intro v w hv
        cases List.mem_singleton.mp hv
        exact hself
      · rfl
      · intro m hm
        have hold : Term.Satisfies m ctx.assertions :=
          hm.mono fun t ht => List.mem_append_left _ ht
        have hdefinition : Term.Holds m (.binary .equal (.var (.selector ctx.size) 1) r) :=
          hm _ (List.mem_append_right _ (List.mem_singleton.mpr rfl))
        have hvar := Term.denotes_var m (.selector ctx.size)
        have hequal := (hvar.equal (h.denotes m hold)).holds_iff.mp hdefinition
        rwa [beq_iff_eq.mp hequal] at hvar
  · exact builds_of_gives hclosed h

end DirectSolver_Context

namespace cardinality

open DirectSolver_Context

variable {ps : List Formula} {lt eq gt : Bool} {ctx ctx' : DirectSolver_Context}

def Made (ctx : DirectSolver_Context) (ps : List Formula) : Prop :=
  forall p, p ∈ ps -> p.NamesIn (MadeBefore ctx.size) ∧ p.width = some 1

def valueOf (ps : List Formula) (m : Model SolverVar) (i : Nat) : Bool :=
  decide (Term.Holds m (ps.getD i Term.false))

theorem Made.mono (h : Made ctx ps) (hext : ctx.Extends ctx') : Made ctx' ps :=
  fun p hp => ⟨(h p hp).1.mono (MadeBefore.mono hext.size), (h p hp).2⟩

theorem Made.gives (h : Made ctx ps) (i : Nat) :
    ctx.Gives (ps.getD i Term.false) fun m => valueOf ps m i := by
  by_cases hi : i < ps.length
  · have hp := h _ (List.getElem_mem hi)
    have hget : ps.getD i Term.false = ps.get ⟨i, hi⟩ := List.getD_eq_getElem _ _ hi
    simp only [valueOf, hget]
    exact
      { names := hp.1
        width := hp.2
        denotes := fun m _ => Term.denotes_decide hp.2 m }
  · have hget : ps.getD i Term.false = Term.false := List.getD_eq_default _ _ (Nat.le_of_not_lt hi)
    simp only [valueOf, hget]
    exact (gives_constant ctx false).congr fun m => rfl

/-- A row of the tableau, up to a column. -/
def GivesRow (ctx : DirectSolver_Context) (ps : List Formula) (lt eq gt : Bool) (v n : Nat)
    (row : List Formula) : Prop :=
  forall u, u < n -> ctx.Gives (row.getD u Term.false) fun m => tableau lt eq gt (valueOf ps m) v u

theorem gives_cell (hps : Made ctx ps) {v u : Nat} {prev row : List Formula}
    (hprev : forall v', v = v' + 1 -> GivesRow ctx ps lt eq gt v' (u + 1) prev)
    (hrow : GivesRow ctx ps lt eq gt v u row) :
    ctx.Gives (cell ps lt eq gt v u prev row) fun m => tableau lt eq gt (valueOf ps m) v u := by
  cases u with
  | zero =>
      cases v with
      | zero => exact (gives_constant ctx eq).congr fun m => by rw [tableau]
      | succ v =>
          have hup := hprev v rfl 0 (Nat.succ_pos 0)
          exact ((hps.gives v).ite (gives_constant ctx gt) hup).congr fun m => by rw [tableau]
  | succ u =>
      have hleft := hrow u (Nat.lt_succ_self u)
      cases v with
      | zero =>
          exact ((hps.gives u).ite hleft (gives_constant ctx lt)).congr fun m => by rw [tableau]
      | succ v =>
          have hup := hprev v rfl (u + 1) (Nat.lt_succ_self _)
          exact ((hps.gives (u + v + 1)).ite hleft hup).congr fun m => by rw [tableau]

theorem rail_spec (hclosed : ctx.Closed) (hps : Made ctx ps) {v n : Nat} {prev : List Formula}
    (hprev : forall v', v = v' + 1 -> GivesRow ctx ps lt eq gt v' n prev) :
    exists row ctx', rail ps lt eq gt v prev n ctx = (row, ctx') ∧ row.length = n ∧
      ctx.Extends ctx' ∧ ctx'.Closed ∧ GivesRow ctx' ps lt eq gt v n row := by
  induction n with
  | zero =>
      refine ⟨[], ctx, rfl, rfl, Extends.refl ctx, hclosed, ?_⟩
      exact fun u hu => absurd hu (Nat.not_lt_zero u)
  | succ n ih =>
      rcases ih (fun v' hv' u hu => hprev v' hv' u (Nat.lt_succ_of_lt hu)) with
        ⟨row, ctx₁, hrail, hlength, hext, hclosed₁, hrow⟩
      have hprev₁ : forall v', v = v' + 1 -> GivesRow ctx₁ ps lt eq gt v' (n + 1) prev :=
        fun v' hv' u hu => (hprev v' hv' u hu).mono hext
      have hcell := builds_formula hclosed₁ (gives_cell (hps.mono hext) hprev₁ hrow) (n + v)
      refine ⟨_, _, by rw [rail, hrail], ?_, hext.trans hcell.ext, hcell.closed, ?_⟩
      · rw [List.length_append, hlength, List.length_singleton]
      · intro u hu
        rcases Nat.lt_succ_iff_lt_or_eq.mp hu with hlt | heq
        · have hget : (row ++ [(formula (n + v) (cell ps lt eq gt v n prev row) ctx₁).1]).getD u
              Term.false = row.getD u Term.false := by
            rw [List.getD_append _ _ _ _ (hlength.symm ▸ hlt)]
          rw [hget]
          exact (hrow u hlt).mono hcell.ext
        · have hget : (row ++ [(formula (n + v) (cell ps lt eq gt v n prev row) ctx₁).1]).getD u
              Term.false = (formula (n + v) (cell ps lt eq gt v n prev row) ctx₁).1 := by
            rw [heq, ← hlength, List.getD_append_right _ _ _ _ (Nat.le_refl _), Nat.sub_self]
            rfl
          rw [hget, heq]
          exact hcell.gives

theorem rails_spec (hclosed : ctx.Closed) (hps : Made ctx ps) (rail_size v : Nat) :
    exists row ctx', rails ps lt eq gt rail_size v ctx = (row, ctx') ∧ ctx.Extends ctx' ∧
      ctx'.Closed ∧ forall v', v = v' + 1 -> GivesRow ctx' ps lt eq gt v' rail_size row := by
  induction v with
  | zero => exact ⟨[], ctx, rfl, Extends.refl ctx, hclosed, fun v' hv' => nomatch hv'⟩
  | succ v ih =>
      rcases ih with ⟨prev, ctx₁, hrails, hext, hclosed₁, hprev⟩
      rcases rail_spec hclosed₁ (hps.mono hext) hprev with
        ⟨row, ctx₂, hrail, -, hext₂, hclosed₂, hrow⟩
      refine ⟨row, ctx₂, by rw [rails, hrails]; exact hrail, hext.trans hext₂, hclosed₂, ?_⟩
      intro v' hv'
      cases hv'
      exact hrow

/-- The tableau compares the number of true predicates with the cardinality. -/
theorem builds_cardinality_any (hclosed : ctx.Closed) (hps : Made ctx ps) {cardinality : Nat}
    (hle : cardinality ≤ ps.length) :
    ctx.Builds (cardinality_any ps lt eq gt cardinality ctx) fun m =>
      compareCount lt eq gt (countTrue (valueOf ps m) ps.length) cardinality := by
  rcases rails_spec hclosed hps (cardinality + 1) (ps.length - cardinality + 1) with
    ⟨row, ctx', hrails, hext, hclosed', hrow⟩
  rw [cardinality_any, hrails]
  have hsum : cardinality + (ps.length - cardinality) = ps.length := Nat.add_sub_cancel' hle
  refine
    { ext := hext
      closed := hclosed'
      gives := (hrow _ rfl cardinality (Nat.lt_succ_self _)).congr fun m => ?_ }
  rw [tableau_eq, hsum]

/-!
## Simple constraints
-/

theorem take_succ {n : Nat} (hn : n < ps.length) :
    ps.take (n + 1) = ps.take n ++ [ps.getD n Term.false] := by
  rw [List.take_add_one, List.getElem?_eq_getElem hn, List.getD_eq_getElem _ _ hn]
  rfl

abbrev numberTrue (ps : List Formula) (m : Model SolverVar) : Nat :=
  ps.countP fun p => decide (Term.Holds m p)

theorem countTrue_valueOf (m : Model SolverVar) {n : Nat} (hn : n ≤ ps.length) :
    countTrue (valueOf ps m) n = numberTrue (ps.take n) m := by
  induction n with
  | zero => rfl
  | succ n ih =>
      rw [countTrue_succ, ih (Nat.le_of_succ_le hn), take_succ hn, numberTrue, numberTrue,
        List.countP_append, List.countP_singleton]
      rfl

theorem countTrue_length (m : Model SolverVar) :
    countTrue (valueOf ps m) ps.length = numberTrue ps m := by
  rw [countTrue_valueOf m (Nat.le_refl _), List.take_length]

theorem gives_allOf (hps : Made ctx ps) :
    ctx.Gives (allOf ps) fun m => decide (numberTrue ps m = ps.length) := by
  have htake : forall n, n ≤ ps.length -> ctx.Gives (allOf (ps.take n)) fun m =>
      decide (countTrue (valueOf ps m) n = n) := by
    intro n
    induction n with
    | zero => exact fun _ => (gives_constant ctx true).congr fun m => rfl
    | succ n ih =>
        intro hn
        have hand := (ih (Nat.le_of_succ_le hn)).and (hps.gives n)
        rw [take_succ hn, allOf, List.foldl_append]
        refine hand.congr fun m => ?_
        have hle : countTrue (valueOf ps m) n ≤ n := Nat.count_le _
        rw [countTrue_succ]
        cases valueOf ps m n with
        | true => simp
        | false => simp; omega
  have hall := htake ps.length (Nat.le_refl _)
  rw [List.take_length] at hall
  exact hall.congr fun m => by rw [countTrue_length]

theorem gives_noneOf (hps : Made ctx ps) :
    ctx.Gives (noneOf ps) fun m => decide (numberTrue ps m = 0) := by
  have htake : forall n, n ≤ ps.length -> ctx.Gives (noneOf (ps.take n)) fun m =>
      decide (countTrue (valueOf ps m) n = 0) := by
    intro n
    induction n with
    | zero => exact fun _ => (gives_constant ctx true).congr fun m => rfl
    | succ n ih =>
        intro hn
        have hand := (ih (Nat.le_of_succ_le hn)).and (hps.gives n).not
        rw [take_succ hn, noneOf, List.foldl_append]
        refine hand.congr fun m => ?_
        rw [countTrue_succ]
        cases valueOf ps m n with
        | true => simp
        | false => simp
  have hnone := htake ps.length (Nat.le_refl _)
  rw [List.take_length] at hnone
  exact hnone.congr fun m => by rw [countTrue_length]

theorem gives_xor (hps : Made ctx ps) (hlength : ps.length = 2) :
    ctx.Gives (.binary .bvxor (ps.getD 0 Term.false) (ps.getD 1 Term.false)) fun m =>
      decide (numberTrue ps m = 1) := by
  refine ((hps.gives 0).xor (hps.gives 1)).congr fun m => ?_
  rw [← countTrue_length, hlength, countTrue_succ, countTrue_succ]
  cases valueOf ps m 0 <;> cases valueOf ps m 1 <;> rfl

/-- What a cardinality constraint says. -/
def compare : CardinalityTag -> Nat -> Nat -> Bool
  | .lt, n, k => decide (n < k)
  | .le, n, k => decide (n ≤ k)
  | .eq, n, k => decide (n = k)
  | .ge, n, k => decide (k ≤ n)
  | .gt, n, k => decide (k < n)

theorem numberTrue_le (m : Model SolverVar) : numberTrue ps m ≤ ps.length :=
  List.countP_le_length

theorem gives_simplify (hps : Made ctx ps) {k : Nat} {tag : CardinalityTag} {f : Formula}
    (hf : cardinality_simplify ps k tag = some f) :
    ctx.Gives f fun m => compare tag (numberTrue ps m) k := by
  have hle : forall m, numberTrue ps m ≤ ps.length := numberTrue_le
  cases tag with
  | lt =>
      simp only [cardinality_simplify] at hf
      split at hf
      · next hlarge =>
          cases hf
          refine (gives_constant ctx true).congr fun m => ?_
          exact (decide_eq_true (Nat.lt_of_le_of_lt (hle m) hlarge)).symm
      · split at hf
        · next hzero =>
            cases hf
            refine (gives_constant ctx false).congr fun m => ?_
            rw [hzero]
            rfl
        · split at hf
          · next hone =>
              cases hf
              refine (gives_noneOf hps).congr fun m => ?_
              rw [hone]
              exact decide_eq_decide.mpr Nat.lt_one_iff.symm
          · cases hf
  | le =>
      simp only [cardinality_simplify] at hf
      split at hf
      · next hlarge =>
          cases hf
          refine (gives_constant ctx true).congr fun m => ?_
          exact (decide_eq_true ((hle m).trans hlarge)).symm
      · split at hf
        · next hzero =>
            cases hf
            refine (gives_noneOf hps).congr fun m => ?_
            rw [hzero]
            exact decide_eq_decide.mpr Nat.le_zero.symm
        · cases hf
  | eq =>
      simp only [cardinality_simplify] at hf
      split at hf
      · next hzero =>
          cases hf
          refine (gives_noneOf hps).congr fun m => ?_
          rw [hzero, compare]
      · split at hf
        · next hall =>
            cases hf
            refine (gives_allOf hps).congr fun m => ?_
            rw [hall, compare]
        · split at hf
          · next hone =>
              cases hf
              refine (gives_xor hps hone.2).congr fun m => ?_
              rw [hone.1, compare]
          · split at hf
            · next hlarge =>
                cases hf
                refine (gives_constant ctx false).congr fun m => ?_
                exact (decide_eq_false (Nat.ne_of_lt (Nat.lt_of_le_of_lt (hle m) hlarge))).symm
            · cases hf
  | ge =>
      simp only [cardinality_simplify] at hf
      split at hf
      · next hlarge =>
          cases hf
          refine (gives_constant ctx false).congr fun m => ?_
          exact (decide_eq_false (Nat.not_le.mpr (Nat.lt_of_le_of_lt (hle m) hlarge))).symm
      · split at hf
        · next hzero =>
            cases hf
            refine (gives_constant ctx true).congr fun m => ?_
            rw [hzero]
            exact (decide_eq_true (Nat.zero_le (numberTrue ps m))).symm
        · split at hf
          · next hall =>
              cases hf
              refine (gives_allOf hps).congr fun m => ?_
              have hiff : numberTrue ps m = k ↔ k ≤ numberTrue ps m :=
                Nat.le_antisymm_iff.trans (and_iff_right (hall ▸ hle m))
              rw [hall]
              exact decide_eq_decide.mpr hiff
          · cases hf
  | gt =>
      simp only [cardinality_simplify] at hf
      split at hf
      · next hlarge =>
          cases hf
          refine (gives_constant ctx false).congr fun m => ?_
          exact (decide_eq_false (Nat.not_lt.mpr ((hle m).trans hlarge))).symm
      · split at hf
        · next hall =>
            cases hf
            refine (gives_allOf hps).congr fun m => ?_
            have hiff : numberTrue ps m = k + 1 ↔ k < numberTrue ps m :=
              Nat.le_antisymm_iff.trans (and_iff_right (hall ▸ hle m))
            rw [hall]
            exact decide_eq_decide.mpr hiff
        · cases hf

theorem compareCount_eq (n k : Nat) : compareCount false true false n k = compare .eq n k := by
  rw [compareCount, compare]
  split
  · next hlt => exact (decide_eq_false (Nat.ne_of_lt hlt)).symm
  · split
    · next heq => exact (decide_eq_true heq).symm
    · next hne => exact (decide_eq_false hne).symm

theorem compareCount_le (n k : Nat) : compareCount true true false n k = compare .le n k := by
  rw [compareCount, compare]
  split
  · next hlt => exact (decide_eq_true (Nat.le_of_lt hlt)).symm
  · next hge =>
      split
      · next heq => exact (decide_eq_true (Nat.le_of_eq heq)).symm
      · next hne => exact (decide_eq_false fun hle => hge (Nat.lt_of_le_of_ne hle hne)).symm

theorem compareCount_ge (n k : Nat) : compareCount false true true n k = compare .ge n k := by
  rw [compareCount, compare]
  split
  · next hlt => exact (decide_eq_false (Nat.not_le.mpr hlt)).symm
  · next hge =>
      have hle := Nat.le_of_not_lt hge
      split <;> exact (decide_eq_true hle).symm

/-- The assertions of the source: the tableau is built for numbers between zero and the number
of predicates only. -/
theorem precondition_of_not_simplified {k : Nat} {tag : CardinalityTag}
    (htag : tag = .eq ∨ tag = .le ∨ tag = .ge) (h : cardinality_simplify ps k tag = none) :
    0 < k ∧ k < ps.length := by
  rcases htag with rfl | rfl | rfl <;> simp only [cardinality_simplify] at h <;>
    split_ifs at h <;> omega

section Evaluated

variable (hclosed : ctx.Closed) (hps : Made ctx ps) (k : Nat)

include hclosed hps

theorem builds_cardinality_eq :
    ctx.Builds (cardinality_eq ps k ctx) fun m => compare .eq (numberTrue ps m) k := by
  rw [cardinality_eq]
  cases hsimplify : cardinality_simplify ps k .eq with
  | some f => exact builds_of_gives hclosed (gives_simplify hps hsimplify)
  | none =>
      have hany := @builds_cardinality_any ps false true false ctx hclosed hps k
        (precondition_of_not_simplified (Or.inl rfl) hsimplify).right.le
      exact hany.congr fun m => by rw [countTrue_length, compareCount_eq]

theorem builds_cardinality_leq :
    ctx.Builds (cardinality_leq ps k ctx) fun m => compare .le (numberTrue ps m) k := by
  rw [cardinality_leq]
  cases hsimplify : cardinality_simplify ps k .le with
  | some f => exact builds_of_gives hclosed (gives_simplify hps hsimplify)
  | none =>
      have hany := @builds_cardinality_any ps true true false ctx hclosed hps k
        (precondition_of_not_simplified (Or.inr (Or.inl rfl)) hsimplify).right.le
      exact hany.congr fun m => by rw [countTrue_length, compareCount_le]

theorem builds_cardinality_geq :
    ctx.Builds (cardinality_geq ps k ctx) fun m => compare .ge (numberTrue ps m) k := by
  rw [cardinality_geq]
  cases hsimplify : cardinality_simplify ps k .ge with
  | some f => exact builds_of_gives hclosed (gives_simplify hps hsimplify)
  | none =>
      have hany := @builds_cardinality_any ps false true true ctx hclosed hps k
        (precondition_of_not_simplified (Or.inr (Or.inr rfl)) hsimplify).right.le
      exact hany.congr fun m => by rw [countTrue_length, compareCount_ge]

theorem builds_cardinality_lt :
    ctx.Builds (cardinality_lt ps k ctx) fun m => compare .lt (numberTrue ps m) k := by
  rw [cardinality_lt]
  cases hsimplify : cardinality_simplify ps k .lt with
  | some f => exact builds_of_gives hclosed (gives_simplify hps hsimplify)
  | none =>
      refine (builds_cardinality_geq hclosed hps k).not.congr fun m => ?_
      rw [compare, compare, ← decide_not, decide_eq_decide]
      exact Nat.not_le

theorem builds_cardinality_gt :
    ctx.Builds (cardinality_gt ps k ctx) fun m => compare .gt (numberTrue ps m) k := by
  rw [cardinality_gt]
  cases hsimplify : cardinality_simplify ps k .gt with
  | some f => exact builds_of_gives hclosed (gives_simplify hps hsimplify)
  | none =>
      refine (builds_cardinality_leq hclosed hps k).not.congr fun m => ?_
      rw [compare, compare, ← decide_not, decide_eq_decide]
      exact Nat.not_le

theorem builds_evaluateCardinality (tag : CardinalityTag) :
    ctx.Builds (evaluateCardinality ps k ctx tag) fun m => compare tag (numberTrue ps m) k := by
  cases tag with
  | lt => exact builds_cardinality_lt hclosed hps k
  | le => exact builds_cardinality_leq hclosed hps k
  | eq => exact builds_cardinality_eq hclosed hps k
  | ge => exact builds_cardinality_geq hclosed hps k
  | gt => exact builds_cardinality_gt hclosed hps k

end Evaluated

end cardinality

namespace DirectSolver_Context

/-- To assume a formula that has been built, beside others, is to look for a model of the
assertions before in which it has the value. -/
theorem Builds.satisfiable_iff {ctx : DirectSolver_Context}
    {result : Formula × DirectSolver_Context} {value : Model SolverVar -> Bool}
    (h : ctx.Builds result value)
    (hvalue : forall m m', (forall v, MadeBefore ctx.size v -> m v = m' v) -> value m = value m')
    {query : List Formula} (hquery : forall t, t ∈ query -> t.NamesIn (MadeBefore ctx.size)) :
    Term.Satisfiable (result.2.assertions ++ result.1 :: query) ↔
      exists m, Term.Satisfies m (ctx.assertions ++ query) ∧ value m = true := by
  constructor
  · rintro ⟨m, hm⟩
    have hassertions : Term.Satisfies m result.2.assertions :=
      hm.mono fun t ht => List.mem_append_left _ ht
    refine ⟨m, (Term.satisfies_append m _ _).mpr ⟨h.ext.satisfies hassertions, ?_⟩, ?_⟩
    · exact hm.mono fun t ht => List.mem_append_right _ (List.mem_cons_of_mem _ ht)
    · exact (h.gives.denotes m hassertions).holds_iff.mp
        (hm _ (List.mem_append_right _ List.mem_cons_self))
  · rintro ⟨m, hm, htrue⟩
    rcases (Term.satisfies_append m _ _).mp hm with ⟨hassertions, hrest⟩
    rcases h.ext.conservative m hassertions with ⟨m', hsame, hm'⟩
    refine ⟨m', (Term.satisfies_append m' _ _).mpr ⟨hm', ?_⟩⟩
    intro t ht
    rcases List.mem_cons.mp ht with rfl | ht
    · rw [(h.gives.denotes m' hm').holds_iff, hvalue m' m hsame]
      exact htrue
    · exact ((hquery t ht).holds_iff hsame).mpr (hrest t ht)

end DirectSolver_Context

namespace cardinality

variable {ps : List Formula} {ctx : DirectSolver_Context}

theorem numberTrue_congr (hps : Made ctx ps) {m m' : Model SolverVar}
    (hm : forall v, MadeBefore ctx.size v -> m v = m' v) : numberTrue ps m = numberTrue ps m' := by
  apply List.countP_congr
  intro p hp
  rw [decide_eq_true_iff, decide_eq_true_iff]
  exact (hps p hp).1.holds_iff hm

/-- A cardinality constraint can be assumed, beside other formulas, exactly when the
assertions before it have a model in which the number of true predicates compares with the
cardinality as the constraint says.  The variables that it takes are new: every model from
before is, on the variables made before, one of the new assertions. -/
theorem cardinality_exact (tag : CardinalityTag) (hclosed : ctx.Closed) (hps : Made ctx ps)
    (k : Nat) :
    (forall query : List Formula, (forall t, t ∈ query -> t.NamesIn (MadeBefore ctx.size)) ->
        (Term.Satisfiable ((evaluateCardinality ps k ctx tag).2.assertions ++
            (evaluateCardinality ps k ctx tag).1 :: query) ↔
          exists m, Term.Satisfies m (ctx.assertions ++ query) ∧
            compare tag (numberTrue ps m) k = true)) ∧
      forall m, Term.Satisfies m ctx.assertions ->
        exists m', (forall v, MadeBefore ctx.size v -> m' v = m v) ∧
          Term.Satisfies m' (evaluateCardinality ps k ctx tag).2.assertions := by
  have hbuilds := builds_evaluateCardinality hclosed hps k tag
  constructor
  · intro query hquery
    apply hbuilds.satisfiable_iff _ hquery
    intro m m' hm
    rw [numberTrue_congr hps hm]
  · exact hbuilds.ext.conservative

/-- Three predicates, and the context in which they have been made. -/
def threePredicates : List Formula :=
  (List.range 3).map fun k => .var (.selector k) 1

def threeContext : DirectSolver_Context :=
  { assertions := [], size := 3, time := 0 }

theorem cardinality_exact_two :
    (Term.Satisfiable ((evaluateCardinality threePredicates 2 threeContext .eq).2.assertions ++
        (evaluateCardinality threePredicates 2 threeContext .eq).1 ::
          [.var (.selector 0) 1]) ↔
      exists m, Term.Satisfies m (threeContext.assertions ++ [.var (.selector 0) 1]) ∧
        compare .eq (numberTrue threePredicates m) 2 = true) ∧
      exists m', (forall v, MadeBefore 3 v -> m' v = 1) ∧
        Term.Satisfies m' (evaluateCardinality threePredicates 2 threeContext .eq).2.assertions := by
  have hvar : forall k, k < 3 -> (Term.var (SolverVar.selector k) 1).NamesIn (MadeBefore 3) := by
    intro k hk v w hv
    cases List.mem_singleton.mp hv
    exact hk
  have hclosed : threeContext.Closed := by
    intro t ht
    cases ht
  have hmade : Made threeContext threePredicates := by
    intro p hp
    rcases List.mem_map.mp hp with ⟨k, hk, rfl⟩
    exact ⟨hvar k (List.mem_range.mp hk), rfl⟩
  have htwo := cardinality_exact .eq hclosed hmade 2
  refine ⟨htwo.left _ ?_, htwo.right (fun _ => 1) ?_⟩
  · intro t ht
    rw [List.mem_singleton.mp ht]
    exact hvar 0 (by decide)
  · intro t ht
    cases ht

end cardinality

end MetaSmt
end Crave
