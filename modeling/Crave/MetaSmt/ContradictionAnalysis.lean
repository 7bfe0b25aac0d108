import Crave.Backend.BddSolvers
import Crave.Foundation.ConflictEnumeration
import Crave.MetaSmt.Cardinality

/-!
# Analysis of contradictions

Every constraint is implied by a selector.  When the selectors cannot all be on, as few of
them as possible are switched off with a cardinality constraint, and the conflicts of each
one that is off are collected in turn.
-/

namespace Crave
namespace MetaSmt

open Foundation Backend
open cardinality hiding formula

/-- `std::map<unsigned, BooleanType>`, in the order of the keys. -/
abbrev VarMap :=
  List (Nat × Formula)

namespace VarMap

/-- A key that is there keeps its value. -/
def insert (si : Nat × Formula) : VarMap -> VarMap
  | [] => [si]
  | entry :: rest =>
      if si.1 < entry.1 then si :: entry :: rest
      else if si.1 = entry.1 then entry :: rest
      else entry :: insert si rest

def erase (vars : VarMap) (key : Nat) : VarMap :=
  vars.filter fun entry => entry.1 ≠ key

end VarMap

def read_value (m : Model SolverVar) (p : Formula) : Bool :=
  decide (Term.Holds m p)

/-- The loop over `j`: the number of predicates that have to hold goes down from below `k`
until there is a model. -/
def relax (o : Oracle SolverVar) (sv : List Formula) (custom_c : Formula) :
    Nat -> DirectSolver_Context -> Option (Model SolverVar) × DirectSolver_Context
  | 0, ctx => (none, ctx)
  | k + 1, ctx =>
      let (card, ctx) := cardinality_eq sv k ctx
      let (answer, ctx) := ctx.solve o [.binary .and card custom_c]
      match answer with
      | some m => (some m, ctx)
      | none => relax o sv custom_c k ctx

/-- The selectors that are off in the model. -/
def switchedOff (m : Model SolverVar) (enable_vars : VarMap) : VarMap :=
  enable_vars.filter fun si => !read_value m si.2

/-- The other ones. -/
def customEnab (m : Model SolverVar) (enable_vars : VarMap) : VarMap :=
  (switchedOff m enable_vars).foldl (fun custom_enab si => custom_enab.erase si.1) enable_vars

theorem customEnab_eq (m : Model SolverVar) (enable_vars : VarMap) :
    customEnab m enable_vars = enable_vars.filter fun entry =>
      entry.1 ∉ (switchedOff m enable_vars).map Prod.fst := by
  rw [customEnab]
  generalize switchedOff m enable_vars = conflicting
  induction conflicting generalizing enable_vars with
  | nil => simp
  | cons si rest ih =>
      rw [List.foldl_cons, ih, VarMap.erase, List.filter_filter, List.map_cons]
      apply List.filter_congr
      intro entry _
      rw [Bool.eq_iff_iff]
      simp [and_comm]

theorem length_customEnab_lt {m : Model SolverVar} {enable_vars : VarMap} {si : Nat × Formula}
    (h : si ∈ switchedOff m enable_vars) :
    (customEnab m enable_vars).length < enable_vars.length := by
  rw [customEnab_eq]
  apply List.length_filter_lt_length_iff_exists.mpr
  refine ⟨si, List.mem_of_mem_filter h, ?_⟩
  simp only [decide_eq_true_eq, not_not]
  exact List.mem_map_of_mem h

/-- The conflicts of which the constraints in `confl_vars` are a part, while those in
`enable_vars` can be switched off. -/
def analyze_multiple_conflict (o : Oracle SolverVar) (c : Formula)
    (enable_vars confl_vars : VarMap) (ctx : DirectSolver_Context) :
    List (List Nat) × DirectSolver_Context :=
  let custom_c := confl_vars.foldl (fun custom_c si => .binary .and custom_c si.2) c
  let (answer, ctx) := ctx.solve o [custom_c]
  match answer with
  | none => ([confl_vars.map Prod.fst], ctx)
  | some _ =>
      match relax o (enable_vars.map Prod.snd) custom_c enable_vars.length ctx with
      | (none, ctx) => ([], ctx)
      | (some m, ctx) =>
          (switchedOff m enable_vars).attach.foldl
            (fun state si =>
              have : (customEnab m enable_vars).length < enable_vars.length :=
                length_customEnab_lt si.2
              let (results, ctx) := analyze_multiple_conflict o c (customEnab m enable_vars)
                (confl_vars.insert si.1) state.2
              (state.1 ++ results, ctx))
            ([], ctx)
termination_by enable_vars.length

/-!
## Maps of selectors
-/

namespace VarMap

def keys (vars : VarMap) : Finset Nat :=
  (vars.map Prod.fst).toFinset

/-- The entries are in the order of the keys, and every key has its own predicate. -/
structure Keyed (pred : Nat -> Formula) (vars : VarMap) : Prop where
  sorted : vars.Pairwise fun entry entry' => entry.1 < entry'.1
  entries : forall entry, entry ∈ vars -> entry.2 = pred entry.1

variable {pred : Nat -> Formula} {vars : VarMap} {si : Nat × Formula}

theorem mem_keys {key : Nat} : key ∈ vars.keys ↔ exists entry, entry ∈ vars ∧ entry.1 = key := by
  rw [keys, List.mem_toFinset, List.mem_map]

theorem Keyed.nodup (h : Keyed pred vars) : (vars.map Prod.fst).Nodup :=
  List.pairwise_map.mpr (h.sorted.imp fun hlt => Nat.ne_of_lt hlt)

theorem Keyed.filter (h : Keyed pred vars) (test : Nat × Formula -> Bool) :
    Keyed pred (vars.filter test) :=
  { sorted := h.sorted.filter test
    entries := fun entry hentry => h.entries entry (List.mem_of_mem_filter hentry) }

theorem mem_insert (hsi : si.2 = pred si.1)
    (h : forall entry, entry ∈ vars -> entry.2 = pred entry.1) (entry : Nat × Formula) :
    entry ∈ vars.insert si ↔ entry = si ∨ entry ∈ vars := by
  induction vars with
  | nil => simp [insert]
  | cons first rest ih =>
      have hrest := ih fun entry' hentry' => h entry' (List.mem_cons_of_mem _ hentry')
      rw [insert]
      split
      · exact List.mem_cons
      · split
        · next heq =>
            have hfirst : si = first :=
              Prod.ext heq (by rw [hsi, h first List.mem_cons_self, heq])
            rw [hfirst]
            simp
        · rw [List.mem_cons, hrest, List.mem_cons]
          exact or_left_comm

theorem Keyed.insert (h : Keyed pred vars) (hsi : si.2 = pred si.1) :
    Keyed pred (vars.insert si) := by
  constructor
  · rcases h with ⟨hsorted, hentries⟩
    induction vars with
    | nil => exact List.pairwise_singleton _ _
    | cons first rest ih =>
        rcases List.pairwise_cons.mp hsorted with ⟨hfirst, hrest⟩
        have hentriesRest : forall entry, entry ∈ rest -> entry.2 = pred entry.1 :=
          fun entry hentry => hentries entry (List.mem_cons_of_mem _ hentry)
        rw [VarMap.insert]
        split
        · next hlt =>
            refine List.pairwise_cons.mpr ⟨fun entry hentry => ?_, hsorted⟩
            rcases List.mem_cons.mp hentry with rfl | hentry
            · exact hlt
            · exact hlt.trans (hfirst entry hentry)
        · next hge =>
            split
            · exact hsorted
            · next hne =>
                refine List.pairwise_cons.mpr ⟨fun entry hentry => ?_, ih hrest hentriesRest⟩
                rcases (mem_insert hsi hentriesRest entry).mp hentry with rfl | hentry
                · omega
                · exact hfirst entry hentry
  · intro entry hentry
    rcases (mem_insert hsi h.entries entry).mp hentry with rfl | hentry
    · exact hsi
    · exact h.entries entry hentry

theorem Keyed.keys_insert (h : Keyed pred vars) (hsi : si.2 = pred si.1) :
    (vars.insert si).keys = Insert.insert si.1 vars.keys := by
  ext key
  rw [Finset.mem_insert, mem_keys, mem_keys]
  constructor
  · rintro ⟨entry, hentry, rfl⟩
    rcases (mem_insert hsi h.entries entry).mp hentry with rfl | hentry
    · exact Or.inl rfl
    · exact Or.inr ⟨entry, hentry, rfl⟩
  · rintro (rfl | ⟨entry, hentry, rfl⟩)
    · exact ⟨si, (mem_insert hsi h.entries si).mpr (Or.inl rfl), rfl⟩
    · exact ⟨entry, (mem_insert hsi h.entries entry).mpr (Or.inr hentry), rfl⟩

end VarMap

/-!
## Relaxing
-/

/-- A context that has grown from the one of the implications. -/
structure Grown (base ctx : DirectSolver_Context) : Prop where
  ext : base.Extends ctx
  closed : ctx.Closed

theorem Grown.solve {base ctx : DirectSolver_Context} (h : Grown base ctx) (o : Oracle SolverVar)
    (query : List Formula) : Grown base (ctx.solve o query).2 :=
  { ext :=
      { kept := h.ext.kept
        size := h.ext.size
        conservative := h.ext.conservative }
    closed := h.closed }

section Relaxing

variable {base ctx : DirectSolver_Context} {sv : List Formula} {custom_c : Formula}
  {value : Model SolverVar -> Bool}

/-- The value is the same in models that agree about the variables before. -/
def Local (base : DirectSolver_Context) (value : Model SolverVar -> Bool) : Prop :=
  forall m m', (forall v, MadeBefore base.size v -> m v = m' v) -> value m = value m'

def Candidate (base : DirectSolver_Context) (value : Model SolverVar -> Bool)
    (m : Model SolverVar) : Prop :=
  Term.Satisfies m base.assertions ∧ value m = true

/-- The constraints taken for sure can be assumed exactly when there is a candidate. -/
theorem satisfiable_custom_iff (hgrown : Grown base ctx) (hvalue : Local base value)
    (hcustom : base.Gives custom_c value) :
    Term.Satisfiable (ctx.assertions ++ [custom_c]) ↔ exists m, Candidate base value m := by
  constructor
  · rintro ⟨m, hm⟩
    rcases (Term.satisfies_append m _ _).mp hm with ⟨hassertions, hquery⟩
    have hbase := hgrown.ext.satisfies hassertions
    exact ⟨m, hbase, (hcustom.denotes m hbase).holds_iff.mp (hquery _ List.mem_cons_self)⟩
  · rintro ⟨m, hbase, htrue⟩
    rcases hgrown.ext.conservative m hbase with ⟨m', hsame, hm'⟩
    refine ⟨m', (Term.satisfies_append m' _ _).mpr ⟨hm', fun t ht => ?_⟩⟩
    rw [List.mem_singleton.mp ht, (hcustom.denotes m' (hgrown.ext.satisfies hm')).holds_iff,
      hvalue m' m hsame]
    exact htrue

section Round

variable (hgrown : Grown base ctx) (hvalue : Local base value)
  (hcustom : base.Gives custom_c value) (hsv : Made base sv) (k : Nat)

include hgrown hcustom hsv

theorem builds_round :
    ctx.Builds (.binary .and (cardinality_eq sv k ctx).1 custom_c, (cardinality_eq sv k ctx).2)
      fun m => compare .eq (numberTrue sv m) k && value m := by
  have hcard := builds_cardinality_eq hgrown.closed (hsv.mono hgrown.ext) k
  exact
    { ext := hcard.ext
      closed := hcard.closed
      gives := hcard.gives.and ((hcustom.mono hgrown.ext).mono hcard.ext) }

theorem grown_round : Grown base (cardinality_eq sv k ctx).2 :=
  { ext := hgrown.ext.trans (builds_round hgrown hcustom hsv k).ext
    closed := (builds_round hgrown hcustom hsv k).closed }

theorem candidate_of_round {m : Model SolverVar}
    (h : Term.Satisfies m ((cardinality_eq sv k ctx).2.assertions ++
      [.binary .and (cardinality_eq sv k ctx).1 custom_c])) :
    Candidate base value m ∧ numberTrue sv m = k := by
  rcases (Term.satisfies_append m _ _).mp h with ⟨hassertions, hquery⟩
  have hround := ((builds_round hgrown hcustom hsv k).gives.denotes m hassertions).holds_iff.mp
    (hquery _ List.mem_cons_self)
  rcases Bool.and_eq_true_iff.mp hround with ⟨hcompare, htrue⟩
  exact ⟨⟨(grown_round hgrown hcustom hsv k).ext.satisfies hassertions, htrue⟩,
    of_decide_eq_true hcompare⟩

include hvalue

theorem satisfiable_round {m : Model SolverVar} (h : Candidate base value m)
    (hcount : numberTrue sv m = k) :
    Term.Satisfiable ((cardinality_eq sv k ctx).2.assertions ++
      [.binary .and (cardinality_eq sv k ctx).1 custom_c]) := by
  rcases (grown_round hgrown hcustom hsv k).ext.conservative m h.1 with ⟨m', hsame, hm'⟩
  refine ⟨m', (Term.satisfies_append m' _ _).mpr ⟨hm', fun t ht => ?_⟩⟩
  rw [List.mem_singleton.mp ht,
    ((builds_round hgrown hcustom hsv k).gives.denotes m' hm').holds_iff, hvalue m' m hsame,
    numberTrue_congr hsv hsame, hcount, h.2]
  exact Bool.and_eq_true_iff.mpr ⟨decide_eq_true rfl, rfl⟩

end Round

/-- What the loop finds among the candidates with fewer than `k` true predicates: one with
as many of them as possible. -/
structure Found (base : DirectSolver_Context) (sv : List Formula)
    (value : Model SolverVar -> Bool) (k : Nat) (answer : Option (Model SolverVar)) : Prop where
  most : forall m, answer = some m -> Candidate base value m ∧ numberTrue sv m < k ∧
    forall m', Candidate base value m' -> numberTrue sv m' < k ->
      numberTrue sv m' ≤ numberTrue sv m
  none : answer = none -> forall m, Candidate base value m -> k ≤ numberTrue sv m

theorem relax_spec {o : Oracle SolverVar} (hsound : o.Sound) (hcomplete : o.Complete)
    (hvalue : Local base value) (hcustom : base.Gives custom_c value) (hsv : Made base sv) {k : Nat}
    (hgrown : Grown base ctx) :
    Found base sv value k (relax o sv custom_c k ctx).1 ∧
      Grown base (relax o sv custom_c k ctx).2 := by
  induction k generalizing ctx with
  | zero =>
      refine ⟨⟨fun m hm => ?_, fun _ m _ => Nat.zero_le _⟩, hgrown⟩
      cases hm
  | succ k ih =>
      have hround := (grown_round hgrown hcustom hsv k).solve o
        [.binary .and (cardinality_eq sv k ctx).1 custom_c]
      rw [relax]
      cases hanswer : ((cardinality_eq sv k ctx).2.solve o
          [.binary .and (cardinality_eq sv k ctx).1 custom_c]).1 with
      | some m =>
          simp only [hanswer]
          refine ⟨⟨fun m' hm' => ?_, fun hnone => nomatch hnone⟩, hround⟩
          cases hm'
          rcases candidate_of_round hgrown hcustom hsv k (hsound _ _ _ hanswer) with
            ⟨hcandidate, hcount⟩
          refine ⟨hcandidate, hcount ▸ Nat.lt_succ_self k, fun m'' _ hlt => ?_⟩
          rw [hcount]
          exact Nat.le_of_lt_succ hlt
      | none =>
          have hexcluded : forall m, Candidate base value m -> numberTrue sv m ≠ k :=
            fun m hm hcount =>
              hcomplete _ _ (satisfiable_round hgrown hvalue hcustom hsv k hm hcount) hanswer
          have hrest := ih hround
          simp only [hanswer]
          refine ⟨⟨fun m hm => ?_, fun hnone m hm => ?_⟩, hrest.2⟩
          · rcases hrest.1.most m hm with ⟨hcandidate, hlt, hmost⟩
            refine ⟨hcandidate, Nat.lt_succ_of_lt hlt, fun m' hm' hlt' => ?_⟩
            exact hmost m' hm' (Nat.lt_of_le_of_ne (Nat.le_of_lt_succ hlt') (hexcluded m' hm'))
          · exact Nat.lt_of_le_of_ne (hrest.1.none hnone m hm) (hexcluded m hm).symm

end Relaxing

/-!
## Conflicts of selectors
-/

/-- What is common to the calls: the predicate of every key. -/
def Consistent (base : DirectSolver_Context) (pred : Nat -> Formula) (s : Finset Nat) : Prop :=
  exists m, Term.Satisfies m base.assertions ∧ forall key, key ∈ s -> Term.Holds m (pred key)

theorem Consistent.mono {base : DirectSolver_Context} {pred : Nat -> Formula} (s t : Finset Nat)
    (hsub : s ⊆ t) (h : Consistent base pred t) : Consistent base pred s := by
  rcases h with ⟨m, hm, hkeys⟩
  exact ⟨m, hm, fun key hkey => hkeys key (hsub hkey)⟩

theorem foldl_results {α β σ : Type} [DecidableEq α] (round : α -> σ -> List β × σ)
    (inv : σ -> Prop) (good : α -> List β -> Prop) {l : List α} (hnodup : l.Nodup)
    (hround : forall a, a ∈ l -> forall s, inv s -> good a (round a s).1 ∧ inv (round a s).2)
    (acc : List β) {s : σ} (hs : inv s) :
    exists (results : α -> List β) (s' : σ),
      l.foldl (fun state a => (state.1 ++ (round a state.2).1, (round a state.2).2)) (acc, s) =
          (acc ++ l.flatMap results, s') ∧
        (forall a, a ∈ l -> good a (results a)) ∧ inv s' := by
  induction l generalizing acc s with
  | nil =>
      refine ⟨fun _ => [], s, ?_, fun a ha => absurd ha List.not_mem_nil, hs⟩
      rw [List.flatMap_nil, List.append_nil, List.foldl_nil]
  | cons a rest ih =>
      rcases List.nodup_cons.mp hnodup with ⟨hfresh, hrest⟩
      rcases hround a List.mem_cons_self s hs with ⟨hgood, hinv⟩
      rcases ih hrest (fun b hb => hround b (List.mem_cons_of_mem a hb)) (acc ++ (round a s).1) hinv
        with ⟨results, s', hfold, hresults, hs'⟩
      have hother : forall b, b ∈ rest -> Function.update results a (round a s).1 b = results b :=
        fun b hb => Function.update_of_ne (ne_of_mem_of_not_mem hb hfresh) _ _
      refine ⟨Function.update results a (round a s).1, s', ?_, fun b hb => ?_, hs'⟩
      · rw [List.foldl_cons, hfold, List.flatMap_cons, Function.update_self, List.append_assoc,
          List.flatMap_congr hother]
      · rcases List.mem_cons.mp hb with rfl | hb
        · rw [Function.update_self]
          exact hgood
        · rw [hother b hb]
          exact hresults b hb

section Enumeration

variable {o : Oracle SolverVar} {base ctx : DirectSolver_Context} {pred : Nat -> Formula}
  {enable_vars confl_vars : VarMap}

/-- The constraints taken for sure. -/
def customC (confl_vars : VarMap) : Formula :=
  confl_vars.foldl (fun custom_c si => .binary .and custom_c si.2) Term.true

/-- One call, after the check of the constraints taken for sure. -/
theorem analyze_multiple_conflict_eq (ctx : DirectSolver_Context) :
    analyze_multiple_conflict o Term.true enable_vars confl_vars ctx =
      match (ctx.solve o [customC confl_vars]).1 with
      | none => ([confl_vars.map Prod.fst], (ctx.solve o [customC confl_vars]).2)
      | some _ =>
          match relax o (enable_vars.map Prod.snd) (customC confl_vars) enable_vars.length
            (ctx.solve o [customC confl_vars]).2 with
          | (none, ctx) => ([], ctx)
          | (some m, ctx) =>
              (switchedOff m enable_vars).foldl
                (fun state si =>
                  (state.1 ++ (analyze_multiple_conflict o Term.true (customEnab m enable_vars)
                      (confl_vars.insert si) state.2).1,
                    (analyze_multiple_conflict o Term.true (customEnab m enable_vars)
                      (confl_vars.insert si) state.2).2))
                ([], ctx) := by
  rw [analyze_multiple_conflict]
  simp only [customC]
  split
  · rfl
  · split
    · rfl
    · simp only [List.foldl_subtype, List.unattach_attach]

/-!
### The selectors that are on and off
-/

def allHold (confl_vars : VarMap) (m : Model SolverVar) : Bool :=
  confl_vars.all fun si => read_value m si.2

theorem allHold_iff (hconfl : VarMap.Keyed pred confl_vars) (m : Model SolverVar) :
    allHold confl_vars m = true ↔ forall key, key ∈ confl_vars.keys -> Term.Holds m (pred key) := by
  rw [allHold, List.all_eq_true]
  constructor
  · intro h key hkey
    rcases VarMap.mem_keys.mp hkey with ⟨entry, hentry, rfl⟩
    rw [← hconfl.entries entry hentry]
    exact of_decide_eq_true (h entry hentry)
  · intro h entry hentry
    rw [read_value, hconfl.entries entry hentry]
    exact decide_eq_true (h entry.1 (VarMap.mem_keys.mpr ⟨entry, hentry, rfl⟩))

def PredMade (base : DirectSolver_Context) (pred : Nat -> Formula) (s : Finset Nat) : Prop :=
  forall key, key ∈ s -> (pred key).NamesIn (MadeBefore base.size) ∧ (pred key).width = some 1

theorem PredMade.made {vars : VarMap} (h : PredMade base pred vars.keys)
    (hvars : VarMap.Keyed pred vars) : Made base (vars.map Prod.snd) := by
  intro p hp
  rcases List.mem_map.mp hp with ⟨entry, hentry, rfl⟩
  rw [hvars.entries entry hentry]
  exact h entry.1 (VarMap.mem_keys.mpr ⟨entry, hentry, rfl⟩)

theorem gives_customC (hconfl : VarMap.Keyed pred confl_vars)
    (hmade : PredMade base pred confl_vars.keys) :
    base.Gives (customC confl_vars) (allHold confl_vars) := by
  have hall := gives_allOf (hmade.made hconfl)
  rw [allOf, List.foldl_map] at hall
  refine hall.congr fun m => ?_
  rw [Bool.eq_iff_iff, decide_eq_true_iff, List.countP_eq_length, allHold, List.all_eq_true]
  constructor
  · intro h entry hentry
    exact h entry.2 (List.mem_map_of_mem hentry)
  · intro h p hp
    rcases List.mem_map.mp hp with ⟨entry, hentry, rfl⟩
    exact h entry hentry

theorem local_allHold (hconfl : VarMap.Keyed pred confl_vars)
    (hmade : PredMade base pred confl_vars.keys) : Local base (allHold confl_vars) := by
  intro m m' hm
  rw [Bool.eq_iff_iff, allHold_iff hconfl, allHold_iff hconfl]
  constructor
  · intro h key hkey
    exact ((hmade key hkey).1.holds_iff hm).mp (h key hkey)
  · intro h key hkey
    exact ((hmade key hkey).1.holds_iff hm).mpr (h key hkey)

theorem exists_candidate_iff (hconfl : VarMap.Keyed pred confl_vars) :
    (exists m, Candidate base (allHold confl_vars) m) ↔
      Consistent base pred confl_vars.keys := by
  constructor
  · rintro ⟨m, hm, htrue⟩
    exact ⟨m, hm, (allHold_iff hconfl m).mp htrue⟩
  · rintro ⟨m, hm, hkeys⟩
    exact ⟨m, hm, (allHold_iff hconfl m).mpr hkeys⟩

theorem numberTrue_add_length (m : Model SolverVar) (enable_vars : VarMap) :
    numberTrue (enable_vars.map Prod.snd) m + (switchedOff m enable_vars).length =
      enable_vars.length := by
  have hsplit := List.length_eq_countP_add_countP (l := enable_vars)
    fun si : Nat × Formula => read_value m si.2
  rw [hsplit, numberTrue, List.countP_map, switchedOff, ← List.countP_eq_length_filter]
  have hother : forall si : Nat × Formula, decide (¬ read_value m si.2 = true) =
      !read_value m si.2 := fun si => by cases read_value m si.2 <;> rfl
  simp only [hother]
  rfl

theorem card_switchedOff (henable : VarMap.Keyed pred enable_vars) (m : Model SolverVar) :
    (switchedOff m enable_vars).keys.card = (switchedOff m enable_vars).length := by
  have hnodup : ((switchedOff m enable_vars).map Prod.fst).Nodup := (henable.filter _).nodup
  rw [VarMap.keys, List.toFinset_card_of_nodup hnodup, List.length_map]

theorem mem_switchedOff (henable : VarMap.Keyed pred enable_vars) {m : Model SolverVar}
    {key : Nat} : key ∈ (switchedOff m enable_vars).keys ↔
      key ∈ enable_vars.keys ∧ ¬ Term.Holds m (pred key) := by
  rw [VarMap.mem_keys, VarMap.mem_keys]
  constructor
  · rintro ⟨entry, hentry, rfl⟩
    rcases List.mem_filter.mp hentry with ⟨hmem, hoff⟩
    rw [← henable.entries entry hmem]
    exact ⟨⟨entry, hmem, rfl⟩, of_decide_eq_false (Bool.not_eq_eq_eq_not.mp hoff)⟩
  · rintro ⟨⟨entry, hmem, rfl⟩, hoff⟩
    rw [← henable.entries entry hmem] at hoff
    have hread : read_value m entry.2 = false := decide_eq_false hoff
    exact ⟨entry, List.mem_filter.mpr ⟨hmem, by rw [hread]; rfl⟩, rfl⟩

theorem keys_customEnab (m : Model SolverVar) (enable_vars : VarMap) :
    (customEnab m enable_vars).keys = enable_vars.keys \ (switchedOff m enable_vars).keys := by
  ext key
  rw [customEnab_eq, Finset.mem_sdiff, VarMap.mem_keys, VarMap.mem_keys, VarMap.keys,
    List.mem_toFinset]
  constructor
  · rintro ⟨entry, hentry, rfl⟩
    rcases List.mem_filter.mp hentry with ⟨hmem, hon⟩
    exact ⟨⟨entry, hmem, rfl⟩, of_decide_eq_true hon⟩
  · rintro ⟨⟨entry, hmem, rfl⟩, hon⟩
    exact ⟨entry, List.mem_filter.mpr ⟨hmem, decide_eq_true hon⟩, rfl⟩

section Relaxed

variable (henable : VarMap.Keyed pred enable_vars) (hconfl : VarMap.Keyed pred confl_vars)
  (hcontradicts : Contradicts (Consistent base pred) enable_vars.keys confl_vars.keys)

include henable hconfl hcontradicts

theorem numberTrue_lt {m : Model SolverVar} (hm : Candidate base (allHold confl_vars) m) :
    numberTrue (enable_vars.map Prod.snd) m < enable_vars.length := by
  refine lt_of_le_of_ne ((numberTrue_le m).trans_eq (List.length_map _)) fun hall => ?_
  apply hcontradicts.inconsistent
  refine ⟨m, hm.1, fun key hkey => ?_⟩
  rcases Finset.mem_union.mp hkey with hsure | hother
  · exact (allHold_iff hconfl m).mp hm.2 key hsure
  · by_contra hoff
    have hnone : (switchedOff m enable_vars).length = 0 := by
      have hsum := numberTrue_add_length m enable_vars
      omega
    have hkeyOff := (mem_switchedOff henable).mpr ⟨hother, hoff⟩
    rw [List.eq_nil_of_length_eq_zero hnone] at hkeyOff
    cases hkeyOff

theorem relaxes_of_found {m : Model SolverVar}
    (hfound : Found base (enable_vars.map Prod.snd) (allHold confl_vars) enable_vars.length
      (some m)) :
    Relaxes (Consistent base pred) enable_vars.keys confl_vars.keys
      (switchedOff m enable_vars).keys := by
  rcases hfound.most m rfl with ⟨hm, hlt, hmost⟩
  constructor
  · intro key hkey
    exact ((mem_switchedOff henable).mp hkey).1
  · refine ⟨m, hm.1, fun key hkey => ?_⟩
    rcases Finset.mem_union.mp hkey with hsure | hother
    · exact (allHold_iff hconfl m).mp hm.2 key hsure
    · rcases Finset.mem_sdiff.mp hother with ⟨hmem, hon⟩
      by_contra hoff
      exact hon ((mem_switchedOff henable).mpr ⟨hmem, hoff⟩)
  · rintro off' _ hcard ⟨m', hm', hkeys⟩
    have hcandidate : Candidate base (allHold confl_vars) m' :=
      ⟨hm', (allHold_iff hconfl m').mpr fun key hkey => hkeys key (Finset.mem_union_left _ hkey)⟩
    have hsub : (switchedOff m' enable_vars).keys ⊆ off' := by
      intro key hkey
      rcases (mem_switchedOff henable).mp hkey with ⟨hmem, hoff⟩
      by_contra hkept
      exact hoff (hkeys key (Finset.mem_union_right _ (Finset.mem_sdiff.mpr ⟨hmem, hkept⟩)))
    have hfewer := Finset.card_le_card hsub
    have hle := hmost m' hcandidate (numberTrue_lt henable hconfl hcontradicts hcandidate)
    have hsum := numberTrue_add_length m enable_vars
    have hsum' := numberTrue_add_length m' enable_vars
    rw [card_switchedOff henable] at hcard hfewer
    omega

end Relaxed

/-- The results enumerate the conflicts, and the numbers of the constraints of a conflict
ascend. -/
structure Reports (base : DirectSolver_Context) (pred : Nat -> Formula) (enable confl : Finset Nat)
    (results : List (List Nat)) : Prop where
  enumerates : Enumerates (Consistent base pred) enable confl (results.map List.toFinset)
  ascending : forall r, r ∈ results -> r.Pairwise (· < ·)

/-- The results of the selectors that are off, one after the other. -/
theorem reports_flatMap (henable : VarMap.Keyed pred enable_vars) {m : Model SolverVar}
    (hoff : Relaxes (Consistent base pred) enable_vars.keys confl_vars.keys
      (switchedOff m enable_vars).keys) {results : Nat × Formula -> List (List Nat)}
    (hresults : forall si, si ∈ switchedOff m enable_vars ->
      Reports base pred (enable_vars.keys \ (switchedOff m enable_vars).keys)
        (insert si.1 confl_vars.keys) (results si)) :
    Reports base pred enable_vars.keys confl_vars.keys
      ((switchedOff m enable_vars).flatMap results) := by
  have hentry : forall si, si ∈ switchedOff m enable_vars -> (si.1, pred si.1) = si :=
    fun si hsi => Prod.ext rfl (henable.entries si (List.mem_of_mem_filter hsi)).symm
  constructor
  · have hflat : ((switchedOff m enable_vars).flatMap results).map List.toFinset =
        ((switchedOff m enable_vars).map Prod.fst).flatMap fun key =>
          (results (key, pred key)).map List.toFinset := by
      rw [List.map_flatMap, List.flatMap_map]
      apply List.flatMap_congr
      intro si hsi
      rw [hentry si hsi]
    have hnodup : ((switchedOff m enable_vars).map Prod.fst).Nodup := (henable.filter _).nodup
    rw [hflat]
    refine Enumerates.relaxed hnodup hoff fun key hkey => ?_
    rcases List.mem_map.mp hkey with ⟨si, hsi, rfl⟩
    rw [hentry si hsi]
    exact (hresults si hsi).enumerates
  · intro r hr
    rcases List.mem_flatMap.mp hr with ⟨si, hsi, hr⟩
    exact (hresults si hsi).ascending r hr

theorem PredMade.branch (hmade : PredMade base pred (enable_vars.keys ∪ confl_vars.keys))
    (hconfl : VarMap.Keyed pred confl_vars) {m : Model SolverVar} {si : Nat × Formula}
    (hsi : si.1 ∈ enable_vars.keys) (hentry : si.2 = pred si.1) :
    PredMade base pred ((customEnab m enable_vars).keys ∪ (confl_vars.insert si).keys) := by
  intro key hmem
  apply hmade
  rw [keys_customEnab, hconfl.keys_insert hentry] at hmem
  rcases Finset.mem_union.mp hmem with hkept | hsure
  · exact Finset.mem_union_left _ (Finset.mem_sdiff.mp hkept).1
  · rcases Finset.mem_insert.mp hsure with rfl | hsure
    · exact Finset.mem_union_left _ hsi
    · exact Finset.mem_union_right _ hsure

theorem analyze_multiple_conflict_spec (hsound : o.Sound) (hcomplete : o.Complete)
    (henable : VarMap.Keyed pred enable_vars) (hconfl : VarMap.Keyed pred confl_vars)
    (hmade : PredMade base pred (enable_vars.keys ∪ confl_vars.keys))
    (hcontradicts : Contradicts (Consistent base pred) enable_vars.keys confl_vars.keys)
    (hgrown : Grown base ctx) :
    Reports base pred enable_vars.keys confl_vars.keys
        (analyze_multiple_conflict o Term.true enable_vars confl_vars ctx).1 ∧
      Grown base (analyze_multiple_conflict o Term.true enable_vars confl_vars ctx).2 := by
  induction hn : enable_vars.length using Nat.strong_induction_on
    generalizing enable_vars confl_vars ctx with
  | h n ih =>
      have hmadeEnable : PredMade base pred enable_vars.keys :=
        fun key hkey => hmade key (Finset.mem_union_left _ hkey)
      have hmadeConfl : PredMade base pred confl_vars.keys :=
        fun key hkey => hmade key (Finset.mem_union_right _ hkey)
      have hgives := gives_customC hconfl hmadeConfl
      have hlocal := local_allHold hconfl hmadeConfl
      have hchecked := hgrown.solve o [customC confl_vars]
      have hsat := satisfiable_custom_iff hgrown hlocal hgives
      rw [exists_candidate_iff hconfl] at hsat
      rw [analyze_multiple_conflict_eq]
      cases hanswer : (ctx.solve o [customC confl_vars]).1 with
      | none =>
          have hinconsistent : ¬ Consistent base pred confl_vars.keys :=
            fun h => hcomplete _ _ (hsat.mpr h) hanswer
          refine ⟨⟨Enumerates.conflict hinconsistent, fun r hr => ?_⟩, hchecked⟩
          rw [List.mem_singleton.mp hr]
          exact List.pairwise_map.mpr hconfl.sorted
      | some m₀ =>
          have hconsistent := hsat.mp ⟨m₀, hsound _ _ _ hanswer⟩
          have hrelax := @relax_spec base _ _ _ _ o hsound hcomplete hlocal hgives
            (hmadeEnable.made henable) enable_vars.length hchecked
          simp only
          split
          · next ctx' hnone =>
              -- a model with fewer selectors on was there
              rw [hnone] at hrelax
              rcases (exists_candidate_iff hconfl).mpr hconsistent with ⟨m, hm⟩
              exact absurd (numberTrue_lt henable hconfl hcontradicts hm)
                (Nat.not_lt.mpr (hrelax.1.none rfl m hm))
          · next m ctx' hsome =>
              rw [hsome] at hrelax
              have hoff := relaxes_of_found henable hconfl hcontradicts hrelax.1
              have hnodup : (switchedOff m enable_vars).Nodup :=
                (henable.filter _).nodup.of_map
              have henab : VarMap.Keyed pred (customEnab m enable_vars) := by
                rw [customEnab_eq]
                exact henable.filter _
              have hround : forall si, si ∈ switchedOff m enable_vars -> forall ctx,
                  Grown base ctx ->
                    Reports base pred (enable_vars.keys \ (switchedOff m enable_vars).keys)
                        (insert si.1 confl_vars.keys) (analyze_multiple_conflict o Term.true
                          (customEnab m enable_vars) (confl_vars.insert si) ctx).1 ∧
                      Grown base (analyze_multiple_conflict o Term.true
                          (customEnab m enable_vars) (confl_vars.insert si) ctx).2 := by
                intro si hsi ctx hctx
                have hentry := henable.entries si (List.mem_of_mem_filter hsi)
                have hkey : si.1 ∈ (switchedOff m enable_vars).keys :=
                  VarMap.mem_keys.mpr ⟨si, hsi, rfl⟩
                have hbranch := hoff.contradicts Consistent.mono hcontradicts hkey
                rw [← keys_customEnab, ← hconfl.keys_insert hentry] at hbranch ⊢
                exact ih _ (hn ▸ length_customEnab_lt hsi) henab (hconfl.insert hentry)
                  (hmade.branch hconfl (hoff.subset hkey) hentry) hbranch hctx rfl
              rcases foldl_results _ (Grown base) _ hnodup hround [] hrelax.2 with
                ⟨results, ctx'', hfold, hresults, hgrown''⟩
              rw [hfold, List.nil_append]
              exact ⟨reports_flatMap henable hoff hresults, hgrown''⟩

end Enumeration

/-- The enumeration of the conflicts of constraints that have been asserted with a selector
each. -/
def enumerateConflicts (o : Oracle SolverVar) (time : Nat) (assertions : List Formula)
    (s : List (Nat × Formula)) : List (List Nat) :=
  (analyze_multiple_conflict o Term.true s []
    { assertions := assertions
      size := s.length
      time := time }).1

/-!
## Conflicts of expressions
-/

open Ir MetaSMTVisitor
open VariableDefaultSolver (AnalysisExact envIdeal byteConstraint equalByte equalReference vconFive)

section Expressions

variable {ns : List Node}

def selector (k : Nat) : Formula :=
  .var (.selector k) 1

/-- The expressions at the chosen positions can hold together. -/
def HoldTogether (ns : List Node) (chosen : Nat -> Prop) : Prop :=
  exists m : Model SolverVar, forall k n, ns[k]? = some n -> chosen k -> NodeHolds m n

/-- The context of the implications. -/
def implied (ns : List Node) (time : Nat) : DirectSolver_Context :=
  { assertions := implications 0 ns
    size := ns.length
    time := time }

theorem mem_implications {t : Formula} :
    t ∈ implications 0 ns ↔ exists k n, ns[k]? = some n ∧
      t = .binary .implies (selector k) (formula n) := by
  rw [implications, List.mem_map]
  constructor
  · rintro ⟨⟨n, k⟩, hzip, rfl⟩
    exact ⟨k, n, List.mem_zipIdx_iff_getElem?.mp hzip, rfl⟩
  · rintro ⟨k, n, hget, rfl⟩
    exact ⟨(n, k), List.mem_zipIdx_iff_getElem?.mpr hget, rfl⟩

theorem namesIn_formula (n : Node) (size : Nat) : (formula n).NamesIn (MadeBefore size) := by
  unfold formula
  cases htr : translate n with
  | error e => exact fun v w hv => nomatch hv
  | ok entry =>
      intro v w hv
      rcases atoms_translate htr (v, w) hv with ⟨id, bitsize, sign, -, heq⟩
      cases heq
      trivial

theorem namesIn_selector {k size : Nat} (h : k < size) :
    (selector k).NamesIn (MadeBefore size) := by
  intro v w hv
  cases List.mem_singleton.mp hv
  exact h

theorem closed_implied (ns : List Node) (time : Nat) : (implied ns time).Closed := by
  intro t ht
  rcases mem_implications.mp ht with ⟨k, n, hget, rfl⟩
  have hk : k < ns.length := (List.getElem?_eq_some_iff.mp hget).1
  intro v w hv
  rcases List.mem_append.mp hv with hleft | hright
  · exact namesIn_selector hk v w hleft
  · exact namesIn_formula n _ v w hright

/-- Switching the chosen selectors on and the others off. -/
def switching (s : Finset Nat) (m : Model SolverVar) : Model SolverVar
  | .terminal id => m (.terminal id)
  | .selector k => if k ∈ s then 1 else 0

theorem nodeHolds_switching (s : Finset Nat) (m : Model SolverVar) (n : Node) :
    NodeHolds (switching s m) n ↔ NodeHolds m n := by
  unfold NodeHolds
  cases htr : translate n with
  | error e => exact Iff.rfl
  | ok entry =>
      apply Term.holds_congr
      intro v w hv
      rcases atoms_translate htr (v, w) hv with ⟨id, bitsize, sign, -, heq⟩
      cases heq
      rfl

theorem denotes_switching (s : Finset Nat) (m : Model SolverVar) (k : Nat) :
    (selector k).Denotes (switching s m) (decide (k ∈ s)) := by
  have h := Term.denotes_var (switching s m) (.selector k)
  have hbit : (switching s m (.selector k)).testBit 0 = decide (k ∈ s) := by
    simp only [switching]
    split
    · next hmem => exact (decide_eq_true hmem).symm
    · next hmem => exact (decide_eq_false hmem).symm
  rwa [hbit] at h

/-- Selectors can be on together exactly when their expressions can hold together. -/
theorem consistent_iff (hwidth : forall n, n ∈ ns -> (formula n).width = some 1) (time : Nat)
    (s : Finset Nat) :
    Consistent (implied ns time) selector s ↔ HoldTogether ns fun k => k ∈ s := by
  constructor
  · rintro ⟨m, hm, hkeys⟩
    refine ⟨m, fun k n hget hk => ?_⟩
    have himplies := hm _ (mem_implications.mpr ⟨k, n, hget, rfl⟩)
    exact (holds_formula m n).mp ((holds_implies (hkeys k hk)).mp himplies)
  · rintro ⟨m, hm⟩
    refine ⟨switching s m, fun t ht => ?_, fun k hk => ?_⟩
    · rcases mem_implications.mp ht with ⟨k, n, hget, rfl⟩
      have hmem : n ∈ ns := List.mem_of_getElem? hget
      have hformula := Term.denotes_decide (hwidth n hmem) (switching s m)
      have himplies : Term.Denotes (switching s m) (.binary .implies (selector k) (formula n))
          (!decide (k ∈ s) || decide (Term.Holds (switching s m) (formula n))) :=
        (denotes_switching s m k).binary hformula (by
          cases decide (k ∈ s) <;> cases decide (Term.Holds (switching s m) (formula n)) <;> rfl)
      apply himplies.holds_iff.mpr
      by_cases hk : k ∈ s
      · have hholds : Term.Holds (switching s m) (formula n) :=
          (holds_formula _ n).mpr ((nodeHolds_switching s m n).mpr (hm k n hget hk))
        rw [decide_eq_true hholds, Bool.or_true]
      · rw [decide_eq_false hk]
        rfl
    · exact (denotes_switching s m k).holds_iff.mpr (decide_eq_true hk)

/-- The expressions at the positions cannot hold together, but without any one of them they
can. -/
structure MinimalContradiction (ns : List Node) (r : List Nat) : Prop where
  ascending : r.Pairwise (· < ·)
  within : forall k, k ∈ r -> k < ns.length
  contradictory : ¬ HoldTogether ns fun k => k ∈ r
  minimal : forall k, k ∈ r -> HoldTogether ns fun k' => k' ∈ r ∧ k' ≠ k

theorem holdTogether_all : (HoldTogether ns fun _ => True) ↔
    exists m : Model SolverVar, forall n, n ∈ ns -> NodeHolds m n := by
  constructor
  · rintro ⟨m, hm⟩
    refine ⟨m, fun n hn => ?_⟩
    rcases List.mem_iff_getElem?.mp hn with ⟨k, hk⟩
    exact hm k n hk trivial
  · rintro ⟨m, hm⟩
    exact ⟨m, fun k n hget _ => hm n (List.mem_of_getElem? hget)⟩

theorem MinimalContradiction.of_isConflict
    (hwidth : forall n, n ∈ ns -> (formula n).width = some 1) {time : Nat} {r : List Nat}
    (hascending : r.Pairwise (· < ·)) (hwithin : forall k, k ∈ r -> k < ns.length)
    (h : IsConflict (Consistent (implied ns time) selector) r.toFinset) :
    MinimalContradiction ns r := by
  have hmem : forall k, k ∈ r.toFinset ↔ k ∈ r := fun k => List.mem_toFinset
  constructor
  · exact hascending
  · exact hwithin
  · have hno := h.inconsistent
    rw [consistent_iff hwidth] at hno
    simpa only [hmem] using hno
  · intro k hk
    have hyes := h.minimal k ((hmem k).mpr hk)
    rw [consistent_iff hwidth] at hyes
    simpa only [Finset.mem_erase, hmem, and_comm] using hyes

theorem assertImplications_map {i : Nat} {s s' : MetaSMTVisitor}
    {result_map : List (Nat × Formula)} (h : assertImplications i ns s = .ok (result_map, s')) :
    result_map = (ns.zipIdx i).map fun p => (p.2, selector p.2) := by
  induction ns generalizing i s result_map with
  | nil =>
      cases h
      rfl
  | cons n rest ih =>
      simp only [assertImplications] at h
      split at h
      · cases h
      · split at h
        · cases h
        · next hrest =>
            cases h
            rw [ih hrest]
            rfl

/-- The selectors of the expressions, by their positions. -/
def selectorMap (ns : List Node) : VarMap :=
  (ns.zipIdx 0).map fun p => (p.2, selector p.2)

theorem fst_selectorMap (ns : List Node) :
    (selectorMap ns).map Prod.fst = List.range ns.length := by
  rw [selectorMap, List.map_map, List.range_eq_range', ← List.zipIdx_map_snd 0 ns]
  rfl

theorem keyed_selectorMap (ns : List Node) : VarMap.Keyed selector (selectorMap ns) := by
  constructor
  · have hrange : (List.range ns.length).Pairwise (· < ·) := List.pairwise_lt_range
    rw [← fst_selectorMap] at hrange
    exact List.pairwise_map.mp hrange
  · intro entry hentry
    rcases List.mem_map.mp hentry with ⟨p, -, rfl⟩
    rfl

theorem keys_selectorMap (ns : List Node) :
    (selectorMap ns).keys = Finset.range ns.length := by
  ext key
  rw [VarMap.keys, fst_selectorMap, List.mem_toFinset, List.mem_range, Finset.mem_range]

section Enumerated

variable {o : Oracle SolverVar} (hsound : o.Sound) (hcomplete : o.Complete)
  (hwidth : forall n, n ∈ ns -> (formula n).width = some 1)

include hsound hcomplete hwidth

/-- Of expressions that cannot hold together, minimal contradictions are found. -/
theorem enumerateConflicts_spec (time : Nat) (hno : ¬ HoldTogether ns fun _ => True) :
    enumerateConflicts o time (implications 0 ns) (selectorMap ns) ≠ [] ∧
      (enumerateConflicts o time (implications 0 ns) (selectorMap ns)).Nodup ∧
      forall r, r ∈ enumerateConflicts o time (implications 0 ns) (selectorMap ns) ->
        MinimalContradiction ns r := by
  have hlength : (selectorMap ns).length = ns.length := by
    rw [selectorMap, List.length_map, List.length_zipIdx]
  have hempty : VarMap.Keyed selector [] :=
    { sorted := List.Pairwise.nil
      entries := fun entry hentry => absurd hentry List.not_mem_nil }
  have hmade : PredMade (implied ns time) selector
      ((selectorMap ns).keys ∪ VarMap.keys []) := by
    intro key hkey
    rw [keys_selectorMap] at hkey
    rcases Finset.mem_union.mp hkey with hkey | hkey
    · exact ⟨namesIn_selector (Finset.mem_range.mp hkey), rfl⟩
    · cases hkey
  have hcontradicts : Contradicts (Consistent (implied ns time) selector) (selectorMap ns).keys
      (VarMap.keys []) := by
    constructor
    · exact Finset.disjoint_empty_right _
    · intro hall
      apply hno
      rcases (consistent_iff hwidth time _).mp hall with ⟨m, hm⟩
      refine ⟨m, fun k n hget _ => hm k n hget (Finset.mem_union_right _ ?_)⟩
      rw [keys_selectorMap]
      exact Finset.mem_range.mpr (List.getElem?_eq_some_iff.mp hget).1
    · intro key hkey
      cases hkey
  have hbase : Grown (implied ns time) (implied ns time) :=
    { ext := DirectSolver_Context.Extends.refl _
      closed := closed_implied ns time }
  have hreports := (analyze_multiple_conflict_spec hsound hcomplete (keyed_selectorMap ns) hempty
    hmade hcontradicts hbase).1
  have hctx : enumerateConflicts o time (implications 0 ns) (selectorMap ns) =
      (analyze_multiple_conflict o Term.true (selectorMap ns) [] (implied ns time)).1 := by
    rw [enumerateConflicts, hlength, implied]
  rw [hctx]
  refine ⟨fun hnil => ?_, ?_, fun r hr => ?_⟩
  · apply hreports.enumerates.ne_nil Consistent.mono hcontradicts
    rw [hnil, List.map_nil]
  · exact (hreports.enumerates.nodup Consistent.mono hcontradicts).of_map
  · rcases hreports.enumerates.conflicts Consistent.mono hcontradicts r.toFinset
      (List.mem_map_of_mem hr) with ⟨hconflict, -, hsub⟩
    refine MinimalContradiction.of_isConflict hwidth (hreports.ascending r hr) (fun k hk => ?_)
      hconflict
    have hkey := hsub (List.mem_toFinset.mpr hk)
    rw [keys_selectorMap] at hkey
    rcases Finset.mem_union.mp hkey with hkey | hkey
    · cases hkey
    · exact Finset.mem_range.mp hkey

end Enumerated

/-- What the analysis of contradictions is for. -/
structure Analysed (ns : List Node) (results : List (List Nat)) : Prop where
  eq_nil_iff : results = [] ↔ HoldTogether ns fun _ => True
  nodup : results.Nodup
  minimal : forall r, r ∈ results -> MinimalContradiction ns r

theorem minimalContradiction_single (hlength : ns.length = 1)
    (hno : ¬ HoldTogether ns fun _ => True) : MinimalContradiction ns [0] := by
  constructor
  · exact List.pairwise_singleton _ _
  · intro k hk
    rw [List.mem_singleton.mp hk, hlength]
    exact Nat.one_pos
  · rintro ⟨m, hm⟩
    apply hno
    refine ⟨m, fun k n hget _ => hm k n hget (List.mem_singleton.mpr ?_)⟩
    have hk := (List.getElem?_eq_some_iff.mp hget).1
    exact Nat.lt_one_iff.mp (hlength ▸ hk)
  · intro k hk
    refine ⟨fun _ => 0, fun k' n _ hk' => ?_⟩
    exact absurd ((List.mem_singleton.mp hk'.1).trans (List.mem_singleton.mp hk).symm) hk'.2

section Analysis

variable {variables_ : Declarations} {env : Environment} {time time' : Nat}

theorem analyseContradiction_spec (hsound : env.Sound) (hcomplete : env.solver.Complete)
    (henv : env.analyze_multiple_conflict = enumerateConflicts env.solver)
    (hns : forall n, n ∈ ns -> n.DeclaredIn variables_)
    (hwidth : forall n, n ∈ ns -> (formula n).width = some 1) {results : List (List Nat)}
    (h : analyseContradiction env ns time = .ok (results, time')) : Analysed ns results := by
  unfold analyseContradiction at h
  split at h
  · cases h
  · next result_map s hspec =>
      have hwithin := (standard_new env.check variables_).right
      rcases assertImplications_spec hns hwithin hspec with ⟨hmap, hassertions⟩
      have hassertions' : s.assertions = implications 0 ns := hassertions
      have hselectors : result_map = selectorMap ns := assertImplications_map hspec
      have hall : Term.Satisfiable (implications 0 ns ++ Term.true :: selectors 0 ns) ↔
          HoldTogether ns fun _ => True := by
        rw [satisfiable_selectors_iff, holdTogether_all]
      rw [analyze_conflicts, hmap, hassertions'] at h
      split at h
      · next m hm =>
          cases h
          exact
            { eq_nil_iff := ⟨fun _ => hall.mp ⟨m, hsound _ _ _ hm⟩, fun _ => rfl⟩
              nodup := List.nodup_nil
              minimal := fun r hr => absurd hr List.not_mem_nil }
      · next hnone =>
          have hno := mt hall.mpr ((Oracle.eq_none_iff hsound hcomplete _ _).mp hnone)
          split at h
          · next hlength =>
              cases h
              rw [hselectors, selectorMap, List.length_map, List.length_zipIdx] at hlength
              exact
                { eq_nil_iff := ⟨fun hnil => (nomatch hnil), fun hyes => absurd hyes hno⟩
                  nodup := List.nodup_singleton _
                  minimal := fun r hr => by
                    rw [List.mem_singleton.mp hr]
                    exact minimalContradiction_single hlength hno }
          · cases h
            rw [henv, hselectors]
            rcases enumerateConflicts_spec hsound hcomplete hwidth (time + 1) hno with
              ⟨hne, hnodup, hminimal⟩
            exact
              { eq_nil_iff := ⟨fun hnil => absurd hnil hne, fun hyes => absurd hyes hno⟩
                nodup := hnodup
                minimal := hminimal }

/-!
### Conflicts of a partition
-/

/-- The name of a hard constraint, as they are numbered by the analysis. -/
def nameOf (cp : ConstraintPartition) (i : Nat) : String :=
  (((hards cp).map UserConstraint.name_)[i]?).getD ""

variable {cp : ConstraintPartition}

theorem analyseHards_cases {contradictions_ : List (List String)}
    (h : VariableDefaultSolver.analyseHards env cp time = .ok (contradictions_, time')) :
    exists results, contradictions_ = results.map (fun r => r.map (nameOf cp)) ∧
      analyseContradiction env ((hards cp).map UserConstraint.expr_) time =
        .ok (results, time') := by
  rcases bind_eq_ok.mp h with ⟨⟨results, time₁⟩, hanalyse, h⟩
  cases h
  exact ⟨results, rfl, hanalyse⟩

section Hards

variable (hsound : env.Sound) (hcomplete : env.solver.Complete)
  (henv : env.analyze_multiple_conflict = enumerateConflicts env.solver)
  (hcs : forall c, c ∈ cp.constraints_ -> c.Made variables_)
  (hwidth : forall c, c ∈ hards cp -> (formula c.expr_).width = some 1)

include hsound hcomplete henv hcs hwidth

theorem analysed_hards {results : List (List Nat)}
    (h : analyseContradiction env ((hards cp).map UserConstraint.expr_) time =
      .ok (results, time')) :
    Analysed ((hards cp).map UserConstraint.expr_) results := by
  refine @analyseContradiction_spec _ variables_ _ _ _ hsound hcomplete henv (fun n hn => ?_)
    (fun n hn => ?_) _ h
  · rcases List.mem_map.mp hn with ⟨c, hc, rfl⟩
    exact (hcs c (List.mem_of_mem_filter hc)).declared
  · rcases List.mem_map.mp hn with ⟨c, hc, rfl⟩
    exact hwidth c hc

/-- With this enumeration, the solvers of a partition know whether its hard constraints have
a model. -/
theorem analysisExact_of_enumeration : AnalysisExact env cp := by
  intro time contradictions_ time' h
  rcases analyseHards_cases h with ⟨results, rfl, hanalyse⟩
  have hanalysed := analysed_hards hsound hcomplete henv hcs hwidth hanalyse
  rw [List.map_eq_nil_iff, hanalysed.eq_nil_iff, holdTogether_all,
    VariableDefaultSolver.satisfiable_hardFormulas_iff]
  constructor
  · rintro ⟨m, hm⟩
    exact ⟨m, fun c hc hhard =>
      hm _ (List.mem_map_of_mem (List.mem_filter.mpr ⟨hc, hhard⟩))⟩
  · rintro ⟨m, hm⟩
    refine ⟨m, fun n hn => ?_⟩
    rcases List.mem_map.mp hn with ⟨c, hc, rfl⟩
    rcases List.mem_filter.mp hc with ⟨hc, hhard⟩
    exact hm c hc hhard

/-- The contradictions that are reported are minimal sets of hard constraints that cannot
hold together, each is reported once, and there is none exactly when all hard constraints can
hold together. -/
theorem contradictions_minimal {contradictions_ : List (List String)}
    (h : VariableDefaultSolver.analyseHards env cp time = .ok (contradictions_, time')) :
    exists results, contradictions_ = results.map (fun r => r.map (nameOf cp)) ∧
      Analysed ((hards cp).map UserConstraint.expr_) results := by
  rcases analyseHards_cases h with ⟨results, hresults, hanalyse⟩
  exact ⟨results, hresults, analysed_hards hsound hcomplete henv hcs hwidth hanalyse⟩

end Hards

end Analysis

noncomputable def envEnumerating : Environment :=
  { envIdeal with analyze_multiple_conflict := enumerateConflicts Oracle.ideal }

/-- The variable 1 is 5, is 6, and equals the reference. -/
def cpFiveSix : ConstraintPartition :=
  ((ConstraintPartition.start (byteConstraint 0 (equalByte 5) false false)).absorb
    (byteConstraint 1 (equalByte 6) false false)).absorb
      (byteConstraint 2 equalReference false false)

theorem mem_cpFiveSix {c : UserConstraint} (h : c ∈ cpFiveSix.constraints_) :
    exists c_id n, c = byteConstraint c_id n false false ∧
      (n = equalReference ∨ exists value, n = equalByte value) := by
  have hlist : cpFiveSix.constraints_ =
      [byteConstraint 2 equalReference false false, byteConstraint 1 (equalByte 6) false false,
        byteConstraint 0 (equalByte 5) false false] := rfl
  rw [hlist] at h
  simp only [List.mem_cons, List.not_mem_nil, or_false] at h
  rcases h with h | h | h
  · exact ⟨_, _, h, Or.inl rfl⟩
  · exact ⟨_, _, h, Or.inr ⟨6, rfl⟩⟩
  · exact ⟨_, _, h, Or.inr ⟨5, rfl⟩⟩

theorem declared_cpFiveSix {n : Node}
    (h : n = equalReference ∨ exists value, n = equalByte value) :
    n.DeclaredIn vconFive.variables_ := by
  rcases h with rfl | ⟨value, rfl⟩
  · exact ⟨rfl, rfl⟩
  · exact equalConstant_declared rfl _

theorem width_cpFiveSix {n : Node}
    (h : n = equalReference ∨ exists value, n = equalByte value) :
    (formula n).width = some 1 := by
  rcases h with rfl | ⟨value, rfl⟩
  · rfl
  · rfl

theorem contradictions_minimal_five_six :
    exists contradictions_ time',
      VariableDefaultSolver.analyseHards envEnumerating cpFiveSix 0 =
          .ok (contradictions_, time') ∧
        exists results, contradictions_ = results.map (fun r => r.map (nameOf cpFiveSix)) ∧
          Analysed ((hards cpFiveSix).map UserConstraint.expr_) results := by
  have htaken : forall n, n ∈ (hards cpFiveSix).map UserConstraint.expr_ ->
      Taken envEnumerating.check vconFive.variables_ n := by
    intro n hn
    have hsorted : isTranslatable n = true ∧ SortCheck.strict.accepts n = true := by
      revert n
      decide
    rcases List.mem_map.mp hn with ⟨c, hc, rfl⟩
    rcases mem_cpFiveSix (List.mem_of_mem_filter hc) with ⟨c_id, n, rfl, hshape⟩
    exact ⟨hsorted.left, hsorted.right, declared_cpFiveSix hshape⟩
  rcases exists_assertImplications htaken 0 (standard_new envEnumerating.check _) with
    ⟨⟨result_map, s⟩, hs⟩
  have hanalyse : exists contradictions_ time',
      VariableDefaultSolver.analyseHards envEnumerating cpFiveSix 0 =
        .ok (contradictions_, time') := by
    have hlist : cpFiveSix.constraints_.filter UserConstraint.isHard = hards cpFiveSix := rfl
    simp only [VariableDefaultSolver.analyseHards, analyseContradiction, hlist, hs]
    exact ⟨_, _, rfl⟩
  rcases hanalyse with ⟨contradictions_, time', hanalyse⟩
  refine ⟨contradictions_, time', hanalyse,
    @contradictions_minimal vconFive.variables_ envEnumerating _ _ _ Oracle.ideal_sound
      Oracle.ideal_complete rfl (fun c hc => ?_) (fun c hc => ?_) _ hanalyse⟩
  · rcases mem_cpFiveSix hc with ⟨c_id, n, rfl, hn⟩
    exact
      { declared := declared_cpFiveSix hn
        support := rfl }
  · rcases mem_cpFiveSix (List.mem_of_mem_filter hc) with ⟨c_id, n, rfl, hn⟩
    exact width_cpFiveSix hn

end Expressions

end MetaSmt
end Crave
