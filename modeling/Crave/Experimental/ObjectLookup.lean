import Crave.Experimental.ObjectNaming

/-!
# Lookup of objects

The invariant behind the names: a counter is the number of the children that live,
a name has no dot, a full name is that of the parent followed by the name, and the
map of the objects has every child under its full name.
-/

namespace Crave
namespace Experimental
namespace Hierarchy

/-!
## Labels and counts
-/

theorem label_of_objects (s : Hierarchy) : s.label = Option.map Object.label ∘ s.objects :=
  rfl

theorem label_update {s s' : Hierarchy} {i : Nat} {o : Option Object}
    (h : s'.objects = Function.update s.objects i o) :
    s'.label = Function.update s.label i (o.map Object.label) := by
  rw [label_of_objects, label_of_objects, h, Function.comp_update]

/-- Changing an object without its label first changes no label. -/
theorem label_update_update {s s' : Hierarchy} {p i : Nat} {parent changed : Object}
    {o : Option Object} (hparent : s.objects p = some parent)
    (hchanged : changed.label = parent.label)
    (h : s'.objects = Function.update (Function.update s.objects p (some changed)) i o) :
    s'.label = Function.update s.label i (o.map Object.label) := by
  have hp : s.label p = some changed.label := by
    rw [hchanged, label, hparent]
    rfl
  rw [label_of_objects, h, Function.comp_update, Function.comp_update, ← label_of_objects]
  show Function.update (Function.update s.label p (some changed.label)) i _ = _
  rw [← hp, Function.update_eq_self]

theorem isChildAs_eq_true {label : Nat -> Option Label} {p i : Nat} {name : String} :
    isChildAs label p name i = true ↔
      exists l, label i = some l ∧ l.parent_ = some p ∧ l.orig_name_ = name := by
  simp [isChildAs, Option.any_eq_true]

theorem count_of_insert {s s' : Hierarchy} {l : Label}
    (hlabel : s'.label = Function.update s.label s.next (some l)) (hnext : s'.next = s.next + 1)
    (p : Nat) (name : String) :
    s'.count p name =
      s.count p name + if l.parent_ = some p ∧ l.orig_name_ = name then 1 else 0 := by
  have hsame : (Finset.range s.next).filter (fun i => isChildAs s'.label p name i = true) =
      (Finset.range s.next).filter (fun i => isChildAs s.label p name i = true) := by
    apply Finset.filter_congr
    intro i hi
    have hne : i ≠ s.next := Nat.ne_of_lt (Finset.mem_range.mp hi)
    simp [isChildAs, hlabel, Function.update_of_ne hne]
  have hself : isChildAs s'.label p name s.next = true ↔
      l.parent_ = some p ∧ l.orig_name_ = name := by
    simp [isChildAs, hlabel]
  rw [count, hnext, Finset.range_add_one, Finset.filter_insert, hsame]
  by_cases hl : l.parent_ = some p ∧ l.orig_name_ = name
  · rw [if_pos (hself.mpr hl), if_pos hl, Finset.card_insert_of_notMem (by simp)]
    rfl
  · rw [if_neg (fun h => hl (hself.mp h)), if_neg hl]
    rfl

theorem count_of_erase {s s' : Hierarchy} {i : Nat} {l : Label}
    (hlabel : s'.label = Function.update s.label i none) (hnext : s'.next = s.next)
    (hi : s.label i = some l) (hlt : i < s.next) (p : Nat) (name : String) :
    s'.count p name + (if l.parent_ = some p ∧ l.orig_name_ = name then 1 else 0) =
      s.count p name := by
  have hsame : (Finset.range s.next).filter (fun j => isChildAs s'.label p name j = true) =
      ((Finset.range s.next).filter fun j => isChildAs s.label p name j = true).erase i := by
    ext j
    rw [Finset.mem_erase, Finset.mem_filter, Finset.mem_filter]
    by_cases hj : j = i
    · subst hj
      simp [isChildAs, hlabel]
    · simp [isChildAs, hlabel, hj]
  have hself : isChildAs s.label p name i = true ↔
      l.parent_ = some p ∧ l.orig_name_ = name := by
    simp [isChildAs, hi]
  rw [count, hnext, hsame]
  by_cases hl : l.parent_ = some p ∧ l.orig_name_ = name
  · rw [if_pos hl]
    apply Finset.card_erase_add_one
    simp [hlt, hself.mpr hl]
  · rw [if_neg hl, Finset.erase_eq_of_notMem]
    · rfl
    · intro hmem
      exact hl (hself.mp (Finset.mem_filter.mp hmem).right)

/-- A child of an object is counted under the name it was constructed with. -/
theorem count_pos {s : Hierarchy} {p i : Nat} {l : Label} (h : s.IsChild p i l)
    (hlt : i < s.next) : 0 < s.count p l.orig_name_ := by
  apply Finset.card_pos.mpr
  exists i
  simp only [Finset.mem_filter, Finset.mem_range]
  exact ⟨hlt, isChildAs_eq_true.mpr ⟨l, h.left, h.right, rfl⟩⟩

theorem count_eq_zero {s : Hierarchy} {p : Nat} (h : forall i l, ¬ s.IsChild p i l)
    (name : String) : s.count p name = 0 := by
  apply Finset.card_eq_zero.mpr
  apply Finset.filter_eq_empty_iff.mpr
  intro i _ hi
  cases isChildAs_eq_true.mp hi with
  | intro l hl => exact h i l ⟨hl.left, hl.right.left⟩

/-!
## Dots
-/

theorem dot_notMem_toString (k : Nat) : '.' ∉ (toString k).toList := by
  intro h
  have hdigit : Char.isDigit '.' = true := by
    apply Nat.isDigit_of_mem_toDigits (b := 10) (n := k) (by decide) (by decide)
    simpa using h
  exact absurd hdigit (by decide)

theorem dot_notMem_append {name : String} {k : Nat} (h : '.' ∉ name.toList) :
    '.' ∉ (name ++ toString k).toList := by
  rw [String.toList_append, List.mem_append]
  intro hor
  cases hor with
  | inl hname => exact h hname
  | inr hk => exact dot_notMem_toString k hk

theorem append_dot_inj {u v x y : List Char} (hx : '.' ∉ x) (hy : '.' ∉ y)
    (h : u ++ '.' :: x = v ++ '.' :: y) : u = v ∧ x = y := by
  rcases List.append_eq_append_iff.mp h with ⟨w, hv, hw⟩ | ⟨w, hu, hw⟩
  · cases w with
    | nil =>
        simp at hv hw
        exact ⟨hv.symm, hw⟩
    | cons c w =>
        injection hw with hc hw
        exact absurd (by rw [hw]; simp) hx
  · cases w with
    | nil =>
        simp at hu hw
        exact ⟨hu, hw.symm⟩
    | cons c w =>
        injection hw with hc hw
        exact absurd (by rw [hw]; simp) hy

theorem fullname_inj {p q a b : String} (ha : '.' ∉ a.toList) (hb : '.' ∉ b.toList)
    (h : p ++ ("." ++ a) = q ++ ("." ++ b)) : p = q ∧ a = b := by
  have hlists : p.toList ++ '.' :: a.toList = q.toList ++ '.' :: b.toList := by
    have := congrArg String.toList h
    simpa [String.toList_append] using this
  have hinj := append_dot_inj ha hb hlists
  exact ⟨String.toList_inj.mp hinj.left, String.toList_inj.mp hinj.right⟩

theorem fullname_ne {p a b : String} (hb : '.' ∉ b.toList) : p ++ ("." ++ a) ≠ b := by
  intro h
  apply hb
  rw [← h]
  simp [String.toList_append]

/-!
## The invariant
-/

/-- An object under construction is the child of the one below it on the stack. -/
def Stacked (s : Hierarchy) : List Nat -> Prop
  | [] => True
  | i :: below =>
      i < s.next ∧ (forall l, s.label i = some l -> l.parent_ = some (below.headD root)) ∧
        Stacked s below

structure Invariant (s : Hierarchy) : Prop where
  root : exists l, s.label root = some l ∧ l.parent_ = none
  older : forall i l, s.label i = some l -> i < s.next
  parent : forall p i l, s.IsChild p i l -> exists q, s.label p = some q
  counters : forall p o name, s.objects p = some o ->
    (o.local_name_map_ name).getD 0 = s.count p name
  bounded : forall p name, s.count p name < 2 ^ 32
  distinct : s.DistinctNames
  dotless : forall p i l, s.IsChild p i l -> '.' ∉ l.name_.toList
  fullname : forall p i l, s.IsChild p i l ->
    (p = Hierarchy.root ∧ l.fullname_ = l.name_) ∨
      exists r q, s.IsChild r p q ∧ l.fullname_ = q.fullname_ ++ ("." ++ l.name_)
  stack : s.Stacked s.crv_obj_stack
  registered : forall p i l, s.IsChild p i l -> s.crv_obj_map l.fullname_ = some i

namespace Invariant

variable {s s' : Hierarchy}

theorem lookupFinds (h : s.Invariant) : s.LookupFinds := by
  intro p i a ha
  constructor
  · exact h.registered p i a ha
  · intro q j b hb hname
    have hi := h.registered p i a ha
    rw [← hname, h.registered q j b hb] at hi
    exact Option.some.inj hi

theorem label_next (h : s.Invariant) : s.label s.next = none := by
  cases hl : s.label s.next with
  | none => rfl
  | some l => exact absurd (h.older s.next l hl) (Nat.lt_irrefl _)

theorem not_isChild_next (h : s.Invariant) (i : Nat) (l : Label) : ¬ s.IsChild s.next i l := by
  intro hchild
  cases h.parent s.next i l hchild with
  | intro q hq => rw [h.label_next] at hq; cases hq

section Insert

variable {inserted : Label} {p i : Nat} {l : Label}

theorem label_insert (h : s.Invariant)
    (hlabel : s'.label = Function.update s.label s.next (some inserted))
    (hl : s.label i = some l) : s'.label i = some l := by
  rw [hlabel, Function.update_of_ne (Nat.ne_of_lt (h.older i l hl)), hl]

theorem older_insert (h : s.Invariant)
    (hlabel : s'.label = Function.update s.label s.next (some inserted))
    (hnext : s'.next = s.next + 1) (hl : s'.label i = some l) : i < s'.next := by
  rw [hnext]
  by_cases hi : i = s.next
  · rw [hi]
    exact Nat.lt_succ_self _
  · rw [hlabel, Function.update_of_ne hi] at hl
    exact Nat.lt_succ_of_lt (h.older i l hl)

theorem isChild_insert (h : s.Invariant)
    (hlabel : s'.label = Function.update s.label s.next (some inserted)) :
    s'.IsChild p i l ↔
      (inserted.parent_ = some p ∧ i = s.next ∧ l = inserted) ∨ s.IsChild p i l := by
  rw [IsChild, hlabel]
  by_cases hi : i = s.next
  · rw [hi, Function.update_self]
    constructor
    · intro hl
      cases hl.left
      exact Or.inl ⟨hl.right, rfl, rfl⟩
    · intro hl
      cases hl with
      | inl hself =>
          rw [hself.right.right]
          exact ⟨rfl, hself.left⟩
      | inr hold =>
          have hnone := hold.left
          rw [h.label_next] at hnone
          cases hnone
  · rw [Function.update_of_ne hi]
    constructor
    · exact Or.inr
    · intro hl
      cases hl with
      | inl hself => exact absurd hself.right.left hi
      | inr hold => exact hold

theorem isChild_insert_copy (h : s.Invariant) {o : Object}
    (hlabel : s'.label = Function.update s.label s.next (some o.copy.label)) :
    s'.IsChild p i l ↔ s.IsChild p i l := by
  rw [h.isChild_insert hlabel]
  constructor
  · intro hl
    cases hl with
    | inl hself => cases hself.left
    | inr hold => exact hold
  · exact Or.inr

theorem isChild_erase {object : Nat} (hlabel : s'.label = Function.update s.label object none) :
    s'.IsChild p i l ↔ i ≠ object ∧ s.IsChild p i l := by
  rw [IsChild, hlabel]
  by_cases hi : i = object
  · rw [hi, Function.update_self]
    constructor
    · intro hl
      cases hl.left
    · intro hl
      exact absurd rfl hl.left
  · rw [Function.update_of_ne hi]
    constructor
    · intro hl
      exact ⟨hi, hl⟩
    · intro hl
      exact hl.right

end Insert

theorem new : Hierarchy.new.Invariant := by
  have hlabel : forall i l, Hierarchy.new.label i = some l ->
      i = Hierarchy.root ∧ l = Object.root.label := by
    intro i l hl
    by_cases hi : i = Hierarchy.root
    · subst hi
      exact ⟨rfl, (Option.some.inj hl).symm⟩
    · simp [label, Hierarchy.new, Function.update_of_ne hi] at hl
  have hchild : forall p i l, ¬ Hierarchy.new.IsChild p i l := by
    intro p i l h
    have hparent := h.right
    rw [(hlabel i l h.left).right] at hparent
    cases hparent
  constructor
  · exists Object.root.label
  · intro i l hl
    rw [(hlabel i l hl).left]
    exact Nat.zero_lt_one
  · intro p i l h
    exact absurd h (hchild p i l)
  · intro p o name ho
    rw [count_eq_zero (hchild p)]
    by_cases hp : p = Hierarchy.root
    · subst hp
      cases ho
      rfl
    · simp [Hierarchy.new, Function.update_of_ne hp] at ho
  · intro p name
    rw [count_eq_zero (hchild p)]
    exact Nat.two_pow_pos 32
  · intro p i j a b ha
    exact absurd ha (hchild p i a)
  · intro p i l h
    exact absurd h (hchild p i l)
  · intro p i l h
    exact absurd h (hchild p i l)
  · trivial
  · intro p i l h
    exact absurd h (hchild p i l)

theorem stacked_tail {stack : List Nat} (h : s.Stacked stack) : s.Stacked stack.tail := by
  cases stack with
  | nil => trivial
  | cons i below => exact h.right.right

theorem stacked_of_label (hnext : s.next ≤ s'.next)
    (hlabel : forall i l, i < s.next -> s'.label i = some l -> s.label i = some l) :
    forall {stack : List Nat}, s.Stacked stack -> s'.Stacked stack
  | [], _ => trivial
  | i :: _, h =>
      ⟨Nat.lt_of_lt_of_le h.left hnext, fun l hl => h.right.left l (hlabel i l h.left hl),
        stacked_of_label hnext hlabel h.right.right⟩

theorem of_objects_eq (h : s.Invariant) (hobjects : s'.objects = s.objects)
    (hmap : s'.crv_obj_map = s.crv_obj_map) (hnext : s.next ≤ s'.next)
    (hstack : s.Stacked s'.crv_obj_stack) : s'.Invariant := by
  have hlabel : s'.label = s.label := by
    rw [label_of_objects, hobjects, ← label_of_objects]
  have hchild : forall {p i l}, s'.IsChild p i l ↔ s.IsChild p i l := by
    intro p i l
    rw [IsChild, IsChild, hlabel]
  have hcount : forall p name, s'.count p name = s.count p name := by
    intro p name
    apply congrArg Finset.card
    ext i
    simp only [Finset.mem_filter, Finset.mem_range, hlabel]
    constructor
    · intro hi
      cases isChildAs_eq_true.mp hi.right with
      | intro l hl => exact ⟨h.older i l hl.left, hi.right⟩
    · intro hi
      exact ⟨Nat.lt_of_lt_of_le hi.left hnext, hi.right⟩
  constructor
  · rw [hlabel]
    exact h.root
  · intro i l hl
    rw [hlabel] at hl
    exact Nat.lt_of_lt_of_le (h.older i l hl) hnext
  · intro p i l hl
    rw [hlabel]
    exact h.parent p i l (hchild.mp hl)
  · intro p o name ho
    rw [hobjects] at ho
    rw [hcount]
    exact h.counters p o name ho
  · intro p name
    rw [hcount]
    exact h.bounded p name
  · intro p i j a b ha hb
    exact h.distinct p i j a b (hchild.mp ha) (hchild.mp hb)
  · intro p i l hl
    exact h.dotless p i l (hchild.mp hl)
  · intro p i l hl
    cases h.fullname p i l (hchild.mp hl) with
    | inl hroot => exact Or.inl hroot
    | inr hdeep =>
        rcases hdeep with ⟨r, q, hq, hname⟩
        exact Or.inr ⟨r, q, hchild.mpr hq, hname⟩
  · apply stacked_of_label hnext _ hstack
    intro i l _ hl
    rwa [hlabel] at hl
  · intro p i l hl
    rw [hmap]
    exact h.registered p i l (hchild.mp hl)

theorem copy {object : Nat} (h : s.Invariant) (hcopy : s.copy object = some s') :
    s'.Invariant := by
  rcases copy_cases hcopy with ⟨other, hother, hobjects, hstack, hmap, hnext⟩
  have hlabel := label_update hobjects
  have hchild : forall {p i l}, s'.IsChild p i l ↔ s.IsChild p i l := h.isChild_insert_copy hlabel
  have hkept : forall {i l}, s.label i = some l -> s'.label i = some l := h.label_insert hlabel
  have hcount : forall p name, s'.count p name = s.count p name := by
    intro p name
    exact count_of_insert hlabel hnext p name
  constructor
  · cases h.root with
    | intro l hl => exact ⟨l, hkept hl.left, hl.right⟩
  · intro i l hl
    exact h.older_insert hlabel hnext hl
  · intro p i l hl
    cases h.parent p i l (hchild.mp hl) with
    | intro q hq => exact ⟨q, hkept hq⟩
  · intro p o name ho
    rw [hcount]
    by_cases hp : p = s.next
    · subst hp
      rw [hobjects, Function.update_self] at ho
      cases ho
      rw [count_eq_zero h.not_isChild_next]
      rfl
    · rw [hobjects, Function.update_of_ne hp] at ho
      exact h.counters p o name ho
  · intro p name
    rw [hcount]
    exact h.bounded p name
  · intro p i j a b ha hb
    exact h.distinct p i j a b (hchild.mp ha) (hchild.mp hb)
  · intro p i l hl
    exact h.dotless p i l (hchild.mp hl)
  · intro p i l hl
    cases h.fullname p i l (hchild.mp hl) with
    | inl hroot => exact Or.inl hroot
    | inr hdeep =>
        rcases hdeep with ⟨r, q, hq, hname⟩
        exact Or.inr ⟨r, q, hchild.mpr hq, hname⟩
  · rw [hstack]
    apply stacked_of_label (by rw [hnext]; exact Nat.le_succ _) _ h.stack
    intro i l hi hl
    rwa [hlabel, Function.update_of_ne (Nat.ne_of_lt hi)] at hl
  · intro p i l hl
    rw [hmap]
    exact h.registered p i l (hchild.mp hl)

/-!
### Construction
-/

theorem stackName_cons (h : s.Invariant) :
    forall {below : List Nat} {i : Nat} {fullname : String}, s.Stacked (i :: below) ->
      stackName s.objects (i :: below) = some fullname ->
        exists l, s.IsChild (below.headD Hierarchy.root) i l ∧ fullname = l.fullname_ ++ "."
  | below, i, fullname, hstack, hname => by
      simp only [stackName, Option.bind_eq_bind, Option.bind_eq_some_iff] at hname
      rcases hname with ⟨path, hpath, o, ho, hname⟩
      cases hname
      have hl : s.label i = some o.label := by
        rw [label, ho]
        rfl
      have hchild : s.IsChild (below.headD Hierarchy.root) i o.label :=
        ⟨hl, hstack.right.left o.label hl⟩
      refine ⟨o.label, hchild, ?_⟩
      cases below with
      | nil =>
          cases hpath
          cases h.fullname _ i _ hchild with
          | inl hroot => rw [hroot.right, String.empty_append]; rfl
          | inr hdeep =>
              rcases hdeep with ⟨r, q, hq, _⟩
              cases h.root with
              | intro l hroot =>
                  have hparent := hq.right
                  rw [Option.some.inj (hq.left.symm.trans hroot.left), hroot.right] at hparent
                  cases hparent
      | cons j below =>
          cases stackName_cons h hstack.right.right hpath with
          | intro q hq =>
              cases h.fullname _ i _ hchild with
              | inl hroot =>
                  cases h.root with
                  | intro l hl =>
                      have hparent := hq.left.right
                      rw [List.headD_cons] at hroot
                      rw [hroot.left] at hq
                      rw [Option.some.inj (hq.left.left.symm.trans hl.left), hl.right] at hparent
                      cases hparent
              | inr hdeep =>
                  rcases hdeep with ⟨r, q', hq', hname⟩
                  have hsame : q' = q := Option.some.inj (hq'.left.symm.trans hq.left.left)
                  rw [hname, hq.right, hsame, String.append_assoc, String.append_assoc,
                    String.append_assoc]
                  rfl

theorem path_cases (h : s.Invariant) {path : String}
    (hpath : stackName s.objects s.crv_obj_stack = some path) :
    (s.parent = Hierarchy.root ∧ path = "") ∨
      exists r q, s.IsChild r s.parent q ∧ path = q.fullname_ ++ "." := by
  have hstack := h.stack
  rw [Hierarchy.parent]
  cases hs : s.crv_obj_stack with
  | nil =>
      rw [hs] at hpath
      cases hpath
      exact Or.inl ⟨rfl, rfl⟩
  | cons i below =>
      rw [hs] at hpath hstack
      cases stackName_cons h hstack hpath with
      | intro q hq => exact Or.inr ⟨_, q, hq⟩

/-- The next name under a parent gives a full name that no object has. -/
theorem fullname_unused (h : s.Invariant) {path name : String}
    (hpath : stackName s.objects s.crv_obj_stack = some path) (hdot : '.' ∉ name.toList)
    (hunused : forall i l, s.IsChild s.parent i l -> l.name_ ≠ name) {p i : Nat} {l : Label}
    (hl : s.IsChild p i l) : l.fullname_ ≠ path ++ name := by
  intro hsame
  cases h.path_cases hpath with
  | inl hroot =>
      rw [hroot.right, String.empty_append] at hsame
      cases h.fullname p i l hl with
      | inl htop =>
          rw [htop.left, ← hroot.left] at hl
          exact hunused i l hl (htop.right.symm.trans hsame)
      | inr hdeep =>
          rcases hdeep with ⟨r, q, _, hname⟩
          exact fullname_ne hdot (hname.symm.trans hsame)
  | inr hpath =>
      rcases hpath with ⟨r, q, hq, hpath⟩
      rw [hpath, String.append_assoc] at hsame
      cases h.fullname p i l hl with
      | inl htop => exact fullname_ne (h.dotless p i l hl) (hsame.symm.trans htop.right)
      | inr hdeep =>
          rcases hdeep with ⟨r', q', hq', hname⟩
          have hinj := fullname_inj (h.dotless p i l hl) hdot (hname.symm.trans hsame)
          have hp := h.registered r' p q' hq'
          rw [hinj.left, h.registered r s.parent q hq] at hp
          rw [← Option.some.inj hp] at hl
          exact hunused i l hl hinj.right

theorem checkName_eq (h : s.Invariant) {p : Nat} {parent : Object} {name : String}
    (hparent : s.objects p = some parent) (hlt : s.count p name + 1 < 2 ^ 32) :
    parent.checkName name =
      (if s.count p name = 0 ∧ parent.local_name_map_ name = none then name
        else name ++ toString (s.count p name),
        s.count p name + 1) := by
  have hcount := h.counters p parent name hparent
  cases hk : parent.local_name_map_ name with
  | none =>
      have hzero : s.count p name = 0 := by
        rw [← hcount, hk]
        rfl
      simp [Object.checkName, hk, hzero]
  | some k =>
      have hk' : k = s.count p name := by
        rw [← hcount, hk]
        rfl
      rw [← hk'] at hlt ⊢
      have hmod := Nat.mod_eq_of_lt hlt
      simp only [Object.checkName, hk, hmod, reduceCtorEq, and_false, if_false]

/-- The label of the next object, and what becomes of the rest. -/
theorem construct_label (h : s.Invariant) {address : Nat} {top : ObjectName} {parent : Object}
    (haddress : s.crv_name_stack.head? = some address) (htop : s.names address = some top)
    (hparent : s.objects s.parent = some parent) (hlt : s.count s.parent top.name_ + 1 < 2 ^ 32)
    (hconstruct : s.construct = some s') :
    exists path name,
      stackName s.objects s.crv_obj_stack = some path ∧
        name =
            (if s.count s.parent top.name_ = 0 ∧ parent.local_name_map_ top.name_ = none then
              top.name_
            else top.name_ ++ toString (s.count s.parent top.name_)) ∧
          s'.label =
              Function.update s.label s.next
                (some ⟨some s.parent, top.name_, name, path ++ name⟩) ∧
            s'.crv_obj_stack = s.next :: s.crv_obj_stack ∧
              s'.crv_obj_map = Function.update s.crv_obj_map (path ++ name) (some s.next) ∧
                s'.next = s.next + 1 ∧
                  forall p o n, s'.objects p = some o ->
                    (o.local_name_map_ n).getD 0 =
                      s.count p n + if s.parent = p ∧ top.name_ = n then 1 else 0 := by
  rcases construct_cases hconstruct with
    ⟨address', top', parent', path, haddress', htop', hparent', hpath, hobjects, hstack, hmap,
      hnext⟩
  cases Option.some.inj (haddress.symm.trans haddress')
  cases Option.some.inj (htop.symm.trans htop')
  cases Option.some.inj (hparent.symm.trans hparent')
  have hcheck := h.checkName_eq hparent hlt
  refine ⟨path, (parent.checkName top.name_).1, hpath, by rw [hcheck], ?_, hstack, hmap, hnext, ?_⟩
  · exact label_update_update hparent (Object.label_addChild _ _ _) hobjects
  intro p o n ho
  by_cases hp : p = s.next
  · have hne : s.parent ≠ p := by
      intro hself
      have hsome : s.label s.next = some parent.label := by
        rw [← hp, ← hself, label, hparent]
        rfl
      rw [h.label_next] at hsome
      cases hsome
    rw [if_neg (fun hself => hne hself.left), hp, count_eq_zero h.not_isChild_next]
    rw [hobjects, hp, Function.update_self] at ho
    cases ho
    rfl
  · rw [hobjects, Function.update_of_ne hp] at ho
    by_cases hpp : p = s.parent
    · rw [hpp, Function.update_self] at ho
      cases ho
      rw [hpp]
      by_cases hn : n = top.name_
      · rw [hn]
        simp [Object.addChild, hcheck]
      · simp only [Object.addChild, Function.update_of_ne hn]
        rw [h.counters s.parent parent n hparent, if_neg (fun hl => hn hl.right.symm)]
        rfl
    · rw [Function.update_of_ne hpp] at ho
      rw [if_neg (fun hl => hpp hl.left.symm)]
      exact h.counters p o n ho

theorem construct (h : s.Invariant) (hmeets : s.Meets .construct)
    (hconstruct : s.construct = some s') : s'.Invariant := by
  rcases construct_cases hconstruct with ⟨address, top, parent, _, haddress, htop, hparent, _⟩
  rcases hmeets address top parent haddress htop hparent with ⟨hdot, hlt, hunused⟩
  rcases h.construct_label haddress htop hparent hlt hconstruct with
    ⟨path, name, hpath, hname, hlabel, hstack, hmap, hnext, hcounters⟩
  have hnameDot : '.' ∉ name.toList := by
    rw [hname]
    split
    · exact hdot
    · exact dot_notMem_append hdot
  have hnameUnused : forall i l, s.IsChild s.parent i l -> l.name_ ≠ name := by
    intro i l hl
    have hne := hunused i l hl
    rw [hname]
    split at hne
    · next hzero => rwa [if_pos hzero]
    · next hzero => rwa [if_neg hzero]
  let l : Label := ⟨some s.parent, top.name_, name, path ++ name⟩
  have hkept : forall {i a}, s.label i = some a -> s'.label i = some a := h.label_insert hlabel
  have hchild : forall {p i a}, s'.IsChild p i a ->
      (p = s.parent ∧ i = s.next ∧ a = l) ∨ s.IsChild p i a := by
    intro p i a ha
    cases (h.isChild_insert hlabel).mp ha with
    | inl hself => exact Or.inl ⟨(Option.some.inj hself.left).symm, hself.right⟩
    | inr hold => exact Or.inr hold
  have hcount := count_of_insert hlabel hnext
  constructor
  · cases h.root with
    | intro r hr => exact ⟨r, hkept hr.left, hr.right⟩
  · intro i a ha
    exact h.older_insert hlabel hnext ha
  · intro p i a ha
    cases hchild ha with
    | inl hself =>
        rw [hself.left]
        exists parent.label
        apply hkept
        rw [label, hparent]
        rfl
    | inr hold =>
        cases h.parent p i a hold with
        | intro q hq => exact ⟨q, hkept hq⟩
  · intro p o n ho
    rw [hcount, hcounters p o n ho]
    simp
  · intro p n
    rw [hcount]
    split
    · next hl =>
        rw [← Option.some.inj hl.left, ← hl.right]
        exact hlt
    · exact h.bounded p n
  · intro p i j a b ha hb hab
    cases hchild ha with
    | inl hself =>
        rcases hself with ⟨hp, hi, rfl⟩
        cases hchild hb with
        | inl hself' => rw [hi, hself'.right.left]
        | inr hold =>
            rw [hp] at hold
            exact absurd hab.symm (hnameUnused j b hold)
    | inr hold =>
        cases hchild hb with
        | inl hself' =>
            rcases hself' with ⟨hp, hj, rfl⟩
            rw [hp] at hold
            exact absurd hab (hnameUnused i a hold)
        | inr hold' => exact h.distinct p i j a b hold hold' hab
  · intro p i a ha
    cases hchild ha with
    | inl hself =>
        rw [hself.right.right]
        exact hnameDot
    | inr hold => exact h.dotless p i a hold
  · intro p i a ha
    cases hchild ha with
    | inl hself =>
        rcases hself with ⟨hp, _, rfl⟩
        rw [hp]
        cases h.path_cases hpath with
        | inl hroot =>
            left
            constructor
            · exact hroot.left
            · show path ++ name = name
              rw [hroot.right, String.empty_append]
        | inr hdeep =>
            rcases hdeep with ⟨r, q, hq, hpath⟩
            right
            exists r, q
            constructor
            · exact ⟨hkept hq.left, hq.right⟩
            · show path ++ name = _
              rw [hpath, String.append_assoc]
    | inr hold =>
        cases h.fullname p i a hold with
        | inl hroot => exact Or.inl hroot
        | inr hdeep =>
            rcases hdeep with ⟨r, q, hq, hname⟩
            exact Or.inr ⟨r, q, ⟨hkept hq.left, hq.right⟩, hname⟩
  · rw [hstack]
    constructor
    · rw [hnext]
      exact Nat.lt_succ_self _
    constructor
    · intro a ha
      rw [hlabel, Function.update_self] at ha
      cases ha
      rfl
    · apply stacked_of_label (by rw [hnext]; exact Nat.le_succ _) _ h.stack
      intro i a hi ha
      rwa [hlabel, Function.update_of_ne (Nat.ne_of_lt hi)] at ha
  · intro p i a ha
    rw [hmap]
    cases hchild ha with
    | inl hself =>
        rw [hself.right.right, hself.right.left]
        exact Function.update_self _ _ _
    | inr hold =>
        rw [Function.update_of_ne (h.fullname_unused hpath hnameDot hnameUnused hold)]
        exact h.registered p i a hold

/-!
### Destruction
-/

/-- The counters after the removal of a child; the condition keeps the counter of
another name from being erased. -/
theorem remove_child_counter (h : s.Invariant) {p i : Nat} {parent this : Object}
    (hparent : s.objects p = some parent) (hthis : s.IsChild p i this.label)
    (herase : this.name_ = this.orig_name_ ∨ 1 < s.count p this.orig_name_ ∨
      s.count p this.name_ = 0) (name : String) :
    ((parent.remove_child i this).local_name_map_ name).getD 0 +
        (if this.orig_name_ = name then 1 else 0) = s.count p name := by
  have hpos : 0 < s.count p this.orig_name_ := count_pos hthis (h.older i _ hthis.left)
  have hcount : ((parent.local_name_map_ this.orig_name_).getD 0 + (2 ^ 32 - 1)) % 2 ^ 32 =
      s.count p this.orig_name_ - 1 := by
    rw [h.counters p parent _ hparent]
    have hlt := h.bounded p this.orig_name_
    omega
  have hupdated : (Function.update parent.local_name_map_ this.orig_name_
        (some (s.count p this.orig_name_ - 1)) name).getD 0 +
      (if this.orig_name_ = name then 1 else 0) = s.count p name := by
    by_cases hname : this.orig_name_ = name
    · subst hname
      rw [Function.update_self, if_pos rfl, Option.getD_some]
      exact Nat.sub_add_cancel hpos
    · rw [Function.update_of_ne (Ne.symm hname), if_neg hname]
      exact h.counters p parent name hparent
  simp only [Object.remove_child, hcount]
  split
  · next hzero =>
      by_cases hname : name = this.name_
      · rw [← hupdated, hname, Function.update_self]
        rw [hname] at hupdated
        have hcase : this.name_ = this.orig_name_ ∨ s.count p this.name_ = 0 := by
          cases herase with
          | inl hsame => exact Or.inl hsame
          | inr hor =>
              cases hor with
              | inl hmore => omega
              | inr hnone => exact Or.inr hnone
        cases hcase with
        | inl hsame => rw [hsame, Function.update_self, hzero]; rfl
        | inr hnone =>
            rw [hnone] at hupdated
            rw [Nat.eq_zero_of_add_eq_zero_right hupdated]
            rfl
      · rw [Function.update_of_ne hname]
        exact hupdated
  · exact hupdated

/-- Of the objects, only the destroyed one and the counters of its parent change. -/
theorem destroy_objects (h : s.Invariant) {object : Nat} (hmeets : s.Meets (.destroy object))
    (hdestroy : s.destroy object = some s') :
    object ≠ Hierarchy.root ∧ exists l, s.label object = some l ∧
      s'.label = Function.update s.label object none ∧ s'.next = s.next ∧
        s'.crv_obj_stack = s.crv_obj_stack ∧
          s'.crv_obj_map = Function.update s.crv_obj_map l.fullname_ none ∧
            forall p o name, s'.objects p = some o ->
              (o.local_name_map_ name).getD 0 +
                  (if l.parent_ = some p ∧ l.orig_name_ = name then 1 else 0) =
                s.count p name := by
  rcases destroy_cases hdestroy with ⟨hroot, this, hthis, hstack, hnext, hmap, hcases⟩
  constructor
  · exact hroot
  have hl : s.label object = some this.label := by
    rw [label, hthis]
    rfl
  have hcondition := hmeets this.label hl
  exists this.label
  rcases hcases with ⟨hnone, hobjects⟩ | ⟨p, parent, hp, hparent, hobjects⟩
  · refine ⟨hl, label_update hobjects, hnext, hstack, hmap, ?_⟩
    intro q o name ho
    by_cases hq : q = object
    · rw [hobjects, hq, Function.update_self] at ho
      cases ho
    · rw [hobjects, Function.update_of_ne hq] at ho
      rw [if_neg, h.counters q o name ho]
      · rfl
      · intro hl
        exact absurd (hnone.symm.trans hl.left) (by simp)
  · refine ⟨hl, ?_, hnext, hstack, hmap, ?_⟩
    · exact label_update_update hparent (Object.label_remove_child _ _ _) hobjects
    intro q o name ho
    by_cases hq : q = object
    · rw [hobjects, hq, Function.update_self] at ho
      cases ho
    · rw [hobjects, Function.update_of_ne hq] at ho
      have hlp : this.label.parent_ = some p := hp
      rw [hlp] at hcondition
      by_cases hqp : q = p
      · rw [hqp, Function.update_self] at ho
        cases ho
        have hcounter := h.remove_child_counter hparent ⟨hl, hp⟩ hcondition.right name
        rw [hqp, ← hcounter]
        simp [hp, Object.label]
      · rw [Function.update_of_ne hqp] at ho
        rw [if_neg, h.counters q o name ho]
        · rfl
        · intro hl
          exact hqp (Option.some.inj (hl.left.symm.trans hlp))

theorem destroy (h : s.Invariant) {object : Nat} (hmeets : s.Meets (.destroy object))
    (hdestroy : s.destroy object = some s') : s'.Invariant := by
  rcases h.destroy_objects hmeets hdestroy with
    ⟨hroot, l, hl, hlabel, hnext, hstack, hmap, hcounters⟩
  have hcondition := hmeets l hl
  have hchild : forall {p i a}, s'.IsChild p i a -> i ≠ object ∧ s.IsChild p i a :=
    (isChild_erase hlabel).mp
  have hkept : forall {i a}, i ≠ object -> s.label i = some a -> s'.label i = some a := by
    intro i a hi ha
    rw [hlabel, Function.update_of_ne hi, ha]
  have hcount := count_of_erase hlabel hnext hl (h.older object l hl)
  -- the parent of a child that stays is not the destroyed object
  have hparent : forall {p i a}, s'.IsChild p i a -> p ≠ object := by
    intro p i a ha hp
    cases hparent_ : l.parent_ with
    | none =>
        cases h.fullname p i a (hchild ha).right with
        | inl htop => exact hroot (hp.symm.trans htop.left)
        | inr hdeep =>
            rcases hdeep with ⟨r, q, hq, _⟩
            have hqp := hq.right
            rw [hp] at hq
            rw [Option.some.inj (hq.left.symm.trans hl), hparent_] at hqp
            cases hqp
    | some q =>
        rw [hparent_] at hcondition
        rw [hp] at ha
        exact hcondition.left i a (hchild ha).right
  constructor
  · cases h.root with
    | intro r hr => exact ⟨r, hkept (Ne.symm hroot) hr.left, hr.right⟩
  · intro i a ha
    rw [hnext]
    by_cases hi : i = object
    · rw [hlabel, hi, Function.update_self] at ha
      cases ha
    · rw [hlabel, Function.update_of_ne hi] at ha
      exact h.older i a ha
  · intro p i a ha
    cases h.parent p i a (hchild ha).right with
    | intro q hq => exact ⟨q, hkept (hparent ha) hq⟩
  · intro p o name ho
    have hcounter := hcounters p o name ho
    rw [← hcount p name] at hcounter
    exact Nat.add_right_cancel hcounter
  · intro p name
    exact Nat.lt_of_le_of_lt (Nat.le.intro (hcount p name)) (h.bounded p name)
  · intro p i j a b ha hb
    exact h.distinct p i j a b (hchild ha).right (hchild hb).right
  · intro p i a ha
    exact h.dotless p i a (hchild ha).right
  · intro p i a ha
    cases h.fullname p i a (hchild ha).right with
    | inl htop => exact Or.inl htop
    | inr hdeep =>
        rcases hdeep with ⟨r, q, hq, hname⟩
        exact Or.inr ⟨r, q, ⟨hkept (hparent ha) hq.left, hq.right⟩, hname⟩
  · rw [hstack]
    apply stacked_of_label (Nat.le_of_eq hnext.symm) _ h.stack
    intro i a _ ha
    by_cases hi : i = object
    · rw [hlabel, hi, Function.update_self] at ha
      cases ha
    · rwa [hlabel, Function.update_of_ne hi] at ha
  · intro p i a ha
    have hold := hchild ha
    have hne : a.fullname_ ≠ l.fullname_ := by
      intro hname
      cases hparent_ : l.parent_ with
      | none =>
          rw [hparent_] at hcondition
          exact hcondition p i a hold.right hname
      | some q => exact hold.left ((h.lookupFinds q object l ⟨hl, hparent_⟩).right p i a hold.right
          hname)
    rw [hmap, Function.update_of_ne hne]
    exact h.registered p i a hold.right

end Invariant

/-!
## Runs
-/

theorem Invariant.perform {s s' : Hierarchy} (h : s.Invariant) {op : Operation}
    (hmeets : s.Meets op) (hperform : s.perform op = some s') : s'.Invariant := by
  cases op with
  | name c =>
      cases hperform
      exact h.of_objects_eq rfl rfl (Nat.le_succ _) h.stack
  | copyName name =>
      rcases copyName_cases hperform with ⟨hobjects, hmap, hnext, hstack⟩
      apply h.of_objects_eq hobjects hmap (by rw [hnext]; exact Nat.le_succ _)
      rw [hstack]
      exact h.stack
  | destroyName name =>
      rcases destroyName_cases hperform with ⟨hobjects, hmap, hnext, hstack⟩
      apply h.of_objects_eq hobjects hmap (Nat.le_of_eq hnext.symm)
      cases hstack with
      | inl hsame =>
          rw [hsame]
          exact h.stack
      | inr htail =>
          rw [htail]
          exact Invariant.stacked_tail h.stack
  | construct => exact h.construct hmeets hperform
  | copy object => exact h.copy hperform
  | destroy object => exact h.destroy hmeets hperform

theorem Reached.invariant {s : Hierarchy} (h : Reached s) : s.Invariant := by
  induction h with
  | new => exact Invariant.new
  | step op _ meets h ih => exact ih.perform meets h

/-- The condition on the name is exact: without it, the next child shares its name. -/
theorem distinctNames_construct_iff {s s' : Hierarchy} (h : s.Invariant) {address : Nat}
    {top : ObjectName} {parent : Object} (haddress : s.crv_name_stack.head? = some address)
    (htop : s.names address = some top) (hparent : s.objects s.parent = some parent)
    (hdot : '.' ∉ top.name_.toList) (hlt : s.count s.parent top.name_ + 1 < 2 ^ 32)
    (hconstruct : s.construct = some s') :
    s'.DistinctNames ↔ s.Unused s.parent parent top.name_ := by
  rcases h.construct_label haddress htop hparent hlt hconstruct with
    ⟨path, name, _, hname, hlabel, _⟩
  constructor
  · intro hdistinct i l hl
    have hne : i ≠ s.next := Nat.ne_of_lt (h.older i l hl.left)
    have hold : s'.IsChild s.parent i l := by
      rw [IsChild, hlabel, Function.update_of_ne hne]
      exact hl
    have hnew : s'.IsChild s.parent s.next ⟨some s.parent, top.name_, name, path ++ name⟩ := by
      rw [IsChild, hlabel, Function.update_self]
      exact ⟨rfl, rfl⟩
    have hnames : l.name_ ≠ name := fun hl => hne (hdistinct _ _ _ _ _ hold hnew hl)
    rw [hname] at hnames
    split
    · next hzero => rwa [if_pos hzero] at hnames
    · next hzero => rwa [if_neg hzero] at hnames
  · intro hunused
    have hmeets : s.Meets .construct := by
      intro address' top' parent' haddress' htop' hparent'
      cases Option.some.inj (haddress.symm.trans haddress')
      cases Option.some.inj (htop.symm.trans htop')
      cases Option.some.inj (hparent.symm.trans hparent')
      exact ⟨hdot, hlt, hunused⟩
    exact (h.construct hmeets hconstruct).distinct

/-!
### Checked runs
-/

/-- Whether an operation meets the condition, over the addresses given out so far. -/
def allowed (s : Hierarchy) : Operation -> Bool
  | .construct =>
      match s.crv_name_stack.head?.bind s.names, s.objects s.parent with
      | some top, some parent =>
          !top.name_.toList.contains '.' && s.count s.parent top.name_ + 1 < 2 ^ 32 &&
            (List.range s.next).all fun i => (s.label i).all fun l =>
              l.parent_ ≠ some s.parent ||
                if s.count s.parent top.name_ = 0 ∧ parent.local_name_map_ top.name_ = none then
                  l.name_ ≠ top.name_
                else l.name_ ≠ top.name_ ++ toString (s.count s.parent top.name_)
      | _, _ => true
  | .destroy object =>
      (s.label object).all fun l =>
        match l.parent_ with
        | none =>
            (List.range s.next).all fun i => (s.label i).all fun a =>
              a.parent_.isNone || a.fullname_ ≠ l.fullname_
        | some p =>
            ((List.range s.next).all fun i => (s.label i).all fun a => a.parent_ ≠ some object) &&
              (l.name_ = l.orig_name_ || 1 < s.count p l.orig_name_ || s.count p l.name_ = 0)
  | _ => true

theorem all_labels {s : Hierarchy} (h : s.Invariant) {f : Label -> Bool}
    (hall : ((List.range s.next).all fun i => (s.label i).all f) = true) {i : Nat} {l : Label}
    (hl : s.label i = some l) : f l = true := by
  have hi := List.all_eq_true.mp hall i (List.mem_range.mpr (h.older i l hl))
  rw [hl] at hi
  exact hi

theorem meets_of_allowed {s : Hierarchy} (h : s.Invariant) {op : Operation}
    (hallowed : s.allowed op = true) : s.Meets op := by
  cases op with
  | construct =>
      intro address top parent haddress htop hparent
      simp only [allowed, haddress, Option.bind_some, htop, hparent, Bool.and_eq_true,
        Bool.not_eq_true', decide_eq_true_eq] at hallowed
      rcases hallowed with ⟨⟨hdot, hlt⟩, hall⟩
      refine ⟨by simpa using hdot, hlt, ?_⟩
      intro i l hl
      have hi := all_labels h hall hl.left
      rw [hl.right] at hi
      split at hi <;> simp_all
  | destroy object =>
      intro l hl
      simp only [allowed, hl, Option.all_some] at hallowed
      cases hparent : l.parent_ with
      | none =>
          rw [hparent] at hallowed
          intro p i a ha
          have hi := all_labels h hallowed ha.left
          rw [ha.right] at hi
          simpa using hi
      | some p =>
          rw [hparent] at hallowed
          simp only [Bool.and_eq_true] at hallowed
          constructor
          · intro i a ha
            have hi := all_labels h hallowed.left ha.left
            simp [ha.right] at hi
          · simpa [or_assoc] using hallowed.right
  | name c => trivial
  | copyName name => trivial
  | destroyName name => trivial
  | copy object => trivial

/-- Runs an operation only when it is allowed. -/
def checkedRun (s : Hierarchy) : List Operation -> Option Hierarchy
  | [] => some s
  | op :: ops =>
      if s.allowed op then
        match s.perform op with
        | some s' => checkedRun s' ops
        | none => none
      else none

theorem Reached.checkedRun : forall {ops : List Operation} {s s' : Hierarchy}, Reached s ->
    s.checkedRun ops = some s' -> s.run ops = some s' ∧ Reached s'
  | [], s, s', hs, h => by
      cases h
      exact ⟨rfl, hs⟩
  | op :: ops, s, s', hs, h => by
      rw [Hierarchy.checkedRun] at h
      split at h
      · next hallowed =>
          cases hperform : s.perform op with
          | none => rw [hperform] at h; cases h
          | some s'' =>
              rw [hperform] at h
              have hnext := hs.step op (meets_of_allowed hs.invariant hallowed) hperform
              have hrest := Reached.checkedRun hnext h
              refine ⟨?_, hrest.right⟩
              rw [run, hperform]
              exact hrest.left
      · cases h

/-- In a run whose operations meet the condition, children of one object have
different names and every child is found under its full name, and only it. -/
theorem names_unique {s : Hierarchy} (h : Reached s) : s.DistinctNames ∧ s.LookupFinds :=
  ⟨h.invariant.distinct, h.invariant.lookupFinds⟩

/-- An object with two children called `v`, the younger one destroyed and made again,
and a copy of the object, which has to stay. -/
theorem names_unique_nested :
    let ops : List Operation :=
      [.name "o", .construct, .name "v", .construct, .destroyName 3, .name "v", .construct,
        .destroyName 5, .destroy 6, .name "v", .construct, .destroyName 7, .destroyName 1,
        .copy 2]
    exists s, new.run ops = some s ∧ s.find "o.v1" = some 8 ∧ s.DistinctNames ∧ s.LookupFinds := by
  intro ops
  have hfind : (new.checkedRun ops).any (fun s => s.find "o.v1" = some 8) = true := by
    decide +kernel
  cases hs : new.checkedRun ops with
  | none => rw [hs] at hfind; cases hfind
  | some s =>
      rw [hs] at hfind
      have hrun := Reached.checkedRun Reached.new hs
      exact ⟨s, hrun.left, of_decide_eq_true hfind, names_unique hrun.right⟩

end Hierarchy
end Experimental
end Crave
