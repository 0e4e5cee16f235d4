import RelStore.Arrangement
import RelStore.Proofs.KeyOrder
import RelStore.Proofs.Outcome
import RelStore.Proofs.Sorting.Elements

/-!
# Sorted rows

Sort keys order rows lexicographically (`compareRows`). Rows that they rank (`Rankable`), which have
under each key values that can be compared and on which the order of values is a total preorder, are
sorted: the outcome has the same rows, in ascending order, and rows that tie on all keys stand as
they stood (`Arranged`). There is only one such outcome, so sorting by some keys can be done key by
key, the last one first (`sortRows_arranged`), and fewer rows come out in the order in which they
stand among all (`Arranged.sublist`).
-/

namespace RelStore

open Sql (Direction SortKey)
open Std (OrientedCmp ReflCmp TransCmp)

/-- Rows that have been sorted are the same rows, whatever the keys make of them. -/
theorem sortRows_perm {keys : List SortKey} {rows sorted : List Row}
    (h : sortRows keys rows = .ok sorted) : sorted.Perm rows := by
  unfold sortRows at h
  split at h
  · cases h
    exact .refl _
  · dsimp only at h
    split at h
    · cases h
      have hranked : ((rankRows keys true rows).map (·.1)).Perm (rows.zipIdx.map (·.1)) :=
        (Sorting.stableSort_perm _ rows.zipIdx).map (·.1)
      rwa [List.zipIdx_map_fst] at hranked
    · cases h

/-! ## The order of rows -/

/-- The order of two rows under a sort key. -/
def Sql.SortKey.compare (key : SortKey) (a b : Row) : Ordering :=
  key.direction.compare (key.valueIn a) (key.valueIn b)

/-- The order of two rows under sort keys, of which a later one decides where the earlier ones
tie. -/
def compareRows (keys : List SortKey) (a b : Row) : Ordering :=
  match keys with
  | [] => .eq
  | key :: keys => (key.compare a b).then (compareRows keys a b)

/-- Whether two rows tie on all of some sort keys. -/
def ties (keys : List SortKey) (a b : Row) : Bool := compareRows keys a b == .eq

/-- Comparing two rows under a key the other way round gives the opposite answer. -/
theorem Sql.SortKey.compare_swap (key : SortKey) (a b : Row) :
    key.compare a b = (key.compare b a).swap := by
  unfold compare Direction.compare
  cases key.direction <;> rw [Value.compare_swap]

instance (keys : List SortKey) : OrientedCmp (compareRows keys) where
  eq_swap {a b} := by
    induction keys with
    | nil => rfl
    | cons key keys ih =>
      rw [compareRows, compareRows, Ordering.swap_then, ← ih, ← key.compare_swap]

/-- Every row compares equal to itself. -/
theorem compareRows_self (keys : List SortKey) (a : Row) : compareRows keys a a = .eq :=
  ReflCmp.compare_self

/-- Rows are compared by the earlier ones of some keys and then by the later ones. -/
theorem compareRows_append (keys others : List SortKey) (a b : Row) :
    compareRows (keys ++ others) a b = (compareRows keys a b).then (compareRows others a b) := by
  induction keys with
  | nil => rfl
  | cons key keys ih => rw [List.cons_append, compareRows, compareRows, ih, Ordering.then_assoc]

/-- Rows tie on some keys when they tie on the first one and on the others. -/
theorem ties_cons (key : SortKey) (keys : List SortKey) (a b : Row) :
    ties (key :: keys) a b = (ties [key] a b && ties keys a b) := by
  unfold ties
  rw [compareRows, compareRows, compareRows, Ordering.then_eq]
  cases key.compare a b <;> cases compareRows keys a b <;> rfl

/-- Every row ties with itself. -/
theorem ties_self (keys : List SortKey) (a : Row) : ties keys a a = true :=
  beq_iff_eq.mpr (compareRows_self keys a)

/-! ## Arranged rows -/

/-- What sorting rows comes to. -/
structure Arranged (keys : List SortKey) (rows sorted : List Row) : Prop where
  /-- The rows are the same. -/
  perm : sorted.Perm rows
  /-- No row comes after a later one. -/
  ascending : sorted.Pairwise fun a b => (compareRows keys a b).isLE = true
  /-- Rows that tie stand as they stood. -/
  stable : ∀ row ∈ rows, sorted.filter (ties keys row) = rows.filter (ties keys row)

/-- Where rows that tie are related in their order, so are any two that tie. -/
theorem pairwise_of_filter_ties {keys : List SortKey} {related : Row → Row → Prop} {rows : List Row}
    (hrows : ∀ row ∈ rows, (rows.filter (ties keys row)).Pairwise related) :
    rows.Pairwise fun a b => ties keys a b = true → related a b := by
  induction rows with
  | nil => exact .nil
  | cons row rows ih =>
    obtain ⟨hrow, hrest⟩ := List.forall_mem_cons.mp hrows
    rw [List.filter_cons_of_pos (ties_self keys row)] at hrow
    refine List.pairwise_cons.mpr ⟨fun b hb hties => ?_, ih fun a ha => ?_⟩
    · exact (List.pairwise_cons.mp hrow).1 b (List.mem_filter.mpr ⟨hb, hties⟩)
    · exact (hrest a ha).sublist ((List.sublist_cons_self row rows).filter _)

/-- Sorted rows with the same rows that tie, in the same order, are the same. -/
theorem eq_of_arranged {keys : List SortKey} {xs ys : List Row} (hperm : xs.Perm ys)
    (hxs : xs.Pairwise fun a b => (compareRows keys a b).isLE = true)
    (hys : ys.Pairwise fun a b => (compareRows keys a b).isLE = true)
    (hties : ∀ row ∈ xs, xs.filter (ties keys row) = ys.filter (ties keys row)) : xs = ys := by
  induction xs generalizing ys with
  | nil => exact (List.nil_perm.mp hperm).symm
  | cons x xs ih =>
    cases ys with
    | nil => exact absurd hperm.symm (List.not_perm_nil_cons x xs)
    | cons y ys =>
      -- Neither of the two heads comes after the other one, so that they tie.
      have hxy : ties keys x y = true := by
        refine beq_iff_eq.mpr ?_
        rcases List.mem_cons.mp (hperm.mem_iff.mp List.mem_cons_self) with rfl | hx
        · exact ReflCmp.compare_self
        · rcases List.mem_cons.mp (hperm.mem_iff.mpr List.mem_cons_self) with rfl | hy
          · exact ReflCmp.compare_self
          · exact OrientedCmp.isLE_antisymm ((List.pairwise_cons.mp hxs).1 y hy)
              ((List.pairwise_cons.mp hys).1 x hx)
      have hhead := hties x List.mem_cons_self
      rw [List.filter_cons_of_pos (ties_self keys x), List.filter_cons_of_pos hxy] at hhead
      obtain ⟨rfl, -⟩ := List.cons.inj hhead
      refine congrArg (x :: ·) (ih hperm.cons_inv hxs.of_cons hys.of_cons fun row hrow => ?_)
      have hrest := hties row (List.mem_cons_of_mem x hrow)
      rw [List.filter_cons, List.filter_cons] at hrest
      split at hrest
      · exact (List.cons.inj hrest).2
      · exact hrest

/-- Rows can be arranged in one way only. -/
theorem Arranged.unique {keys : List SortKey} {rows xs ys : List Row} (hxs : Arranged keys rows xs)
    (hys : Arranged keys rows ys) : xs = ys := by
  refine eq_of_arranged (hxs.perm.trans hys.perm.symm) hxs.ascending hys.ascending ?_
  intro row hrow
  have hmem := hxs.perm.mem_iff.mp hrow
  rw [hxs.stable row hmem, hys.stable row hmem]

/-- Rows arranged by some keys and then by another one are arranged by this one and the others. -/
theorem Arranged.cons {key : SortKey} {keys : List SortKey} {rows halfway sorted : List Row}
    (hfirst : Arranged keys rows halfway) (hsecond : Arranged [key] halfway sorted) :
    Arranged (key :: keys) rows sorted := by
  have hclass (row : Row) (hrow : row ∈ halfway) :
      (sorted.filter (ties [key] row)).Pairwise
        fun a b => (compareRows keys a b).isLE = true := by
    rw [hsecond.stable row hrow]
    exact hfirst.ascending.sublist List.filter_sublist
  have hsame := pairwise_of_filter_ties fun row hrow =>
    hclass row (hsecond.perm.mem_iff.mp hrow)
  refine ⟨hsecond.perm.trans hfirst.perm, ?_, fun row hrow => ?_⟩
  · refine (hsecond.ascending.and hsame).imp fun {a b} ⟨hle, hrest⟩ => ?_
    rw [compareRows, compareRows, Ordering.then_eq] at hle
    rw [compareRows, Ordering.isLE_then_iff_or]
    rcases Ordering.isLE_iff_eq_lt_or_eq_eq.mp hle with hlt | heq
    · exact .inl hlt
    · refine .inr ⟨heq, hrest ?_⟩
      rw [ties, compareRows, compareRows, heq]
      rfl
  · have hboth (list : List Row) : list.filter (ties (key :: keys) row) =
        (list.filter (ties keys row)).filter (ties [key] row) := by
      rw [List.filter_filter]
      exact List.filter_congr fun other _ => ties_cons key keys row other
    have hswap (list : List Row) : (list.filter (ties keys row)).filter (ties [key] row) =
        (list.filter (ties [key] row)).filter (ties keys row) := by
      rw [List.filter_filter, List.filter_filter]
      exact List.filter_congr fun other _ => Bool.and_comm _ _
    rw [hboth, hboth, hswap, hsecond.stable row (hfirst.perm.mem_iff.mpr hrow), ← hswap,
      hfirst.stable row hrow]

/-! ## Rows that sort keys rank -/

/-- Sort keys rank rows: the values that the rows have under each key lie in a set on which any two
values can be compared and the order of values is a total preorder. -/
def Rankable (keys : List SortKey) (rows : List Row) : Prop :=
  ∀ key ∈ keys, ∃ values : Set Value, Value.TotalPreorderOn values ∧
    (∀ a ∈ values, ∀ b ∈ values, a.isComparable b = true) ∧ ∀ row ∈ rows, key.valueIn row ∈ values

section

variable {keys : List SortKey} {rows : List Row}

/-- Fewer keys rank the rows, too, in whatever order the rows are. -/
theorem Rankable.of_subset {others : List SortKey} {moved : List Row} (hrank : Rankable keys rows)
    (hkeys : others ⊆ keys) (hmoved : moved ⊆ rows) : Rankable others moved := by
  intro key hkey
  obtain ⟨values, order, hcomparable, hvalues⟩ := hrank key (hkeys hkey)
  exact ⟨values, order, hcomparable, fun row hrow => hvalues row (hmoved hrow)⟩

/-- Keys rank rows if under each key all values belong to one column type. -/
theorem Rankable.of_types
    (htyped : ∀ key ∈ keys, ∃ type : DataType, ∀ row ∈ rows, key.valueIn row ∈ type.keys) :
    Rankable keys rows := by
  intro key hkey
  obtain ⟨type, hvalues⟩ := htyped key hkey
  exact ⟨type.keys, type.keys_totalPreorder, fun a ha b hb => type.isComparable_of_mem_keys ha hb,
    hvalues⟩

/-- Rows that are ranked can be compared. -/
theorem Rankable.compareRows?_eq (hrank : Rankable keys rows) {a b : Row} (ha : a ∈ rows)
    (hb : b ∈ rows) : compareRows? keys a b = some (compareRows keys a b) := by
  induction keys with
  | nil => rfl
  | cons key keys ih =>
    obtain ⟨values, -, hcomparable, hvalues⟩ := hrank key List.mem_cons_self
    have hrest := ih (hrank.of_subset (List.subset_cons_self key keys) (List.Subset.refl rows))
    rw [compareRows?, if_pos (hcomparable _ (hvalues a ha) _ (hvalues b hb)), compareRows,
      SortKey.compare]
    cases key.direction.compare (key.valueIn a) (key.valueIn b) with
    | lt => rfl
    | eq => exact hrest
    | gt => rfl

/-- The order of rows under a key is transitive on rows that it ranks. -/
theorem Rankable.transCmp_key {key : SortKey} {values : Set Value}
    (order : Value.TotalPreorderOn values) (hvalues : ∀ row ∈ rows, key.valueIn row ∈ values) :
    TransCmp fun a b : {row // row ∈ rows} => key.compare a b := by
  have hpulled : TransCmp fun a b : {row // row ∈ rows} =>
      (key.valueIn a).compare (key.valueIn b) := {
    eq_swap := Value.compare_swap _ _
    isLE_trans := fun {a b c} => @order.isLE_trans ⟨_, hvalues a a.2⟩ ⟨_, hvalues b b.2⟩
      ⟨_, hvalues c c.2⟩ }
  cases hdirection : key.direction with
  | ascending =>
    simp only [SortKey.compare, hdirection, Direction.compare]
    exact hpulled
  | descending =>
    simp only [SortKey.compare, hdirection, Direction.compare, ← Value.compare_swap]
    exact hpulled.opposite

/-- The order of rows is transitive on rows that the keys rank. -/
theorem Rankable.transCmp (hrank : Rankable keys rows) :
    TransCmp fun a b : {row // row ∈ rows} => compareRows keys a b := by
  induction keys with
  | nil => exact { eq_swap := rfl, isLE_trans := fun _ _ => rfl }
  | cons key keys ih =>
    obtain ⟨values, order, -, hvalues⟩ := hrank key List.mem_cons_self
    have hkey := transCmp_key order hvalues
    have hrest := ih (hrank.of_subset (List.subset_cons_self key keys) (List.Subset.refl rows))
    exact (inferInstance : TransCmp (compareLex
      (fun a b : {row // row ∈ rows} => key.compare a b)
      fun a b : {row // row ∈ rows} => compareRows keys a b))

/-- Rows that tie with the same row tie. -/
theorem Rankable.compareRows_eq_of_ties (hrank : Rankable keys rows) {row a b : Row}
    (hrow : row ∈ rows) (ha : a ∈ rows) (hb : b ∈ rows) (hra : ties keys row a = true)
    (hrb : ties keys row b = true) : compareRows keys a b = .eq := by
  have order := hrank.transCmp
  have har : compareRows keys a row = .eq := OrientedCmp.eq_symm (beq_iff_eq.mp hra)
  exact @TransCmp.eq_trans _ _ order ⟨a, ha⟩ ⟨row, hrow⟩ ⟨b, hb⟩ har (beq_iff_eq.mp hrb)

/-- The order of rows with their places: of rows that tie the one with the lower place comes
first. -/
def PlacedBefore (keys : List SortKey) (rows : List Row) (a b : Row × Nat) : Prop :=
  a.1 ∈ rows ∧ b.1 ∈ rows ∧
    (compareRows keys a.1 b.1 = .lt ∨ compareRows keys a.1 b.1 = .eq ∧ a.2 < b.2)

/-- Rows with their places are strictly ordered. -/
theorem Rankable.isStrictOrder (hrank : Rankable keys rows) :
    IsStrictOrder (Row × Nat) (PlacedBefore keys rows) where
  irrefl a := by
    rintro ⟨-, -, hlt | ⟨-, hlt⟩⟩
    · rw [compareRows_self] at hlt
      cases hlt
    · exact Nat.lt_irrefl _ hlt
  trans a b c := by
    rintro ⟨ha, hb, hab⟩ ⟨-, hc, hbc⟩
    refine ⟨ha, hc, ?_⟩
    have order := hrank.transCmp
    have step (x y z : {row // row ∈ rows})
        (hxy : compareRows keys x y = .lt ∨ compareRows keys x y = .eq ∧ a.2 < b.2)
        (hyz : compareRows keys y z = .lt ∨ compareRows keys y z = .eq ∧ b.2 < c.2) :
        compareRows keys x z = .lt ∨ compareRows keys x z = .eq ∧ a.2 < c.2 := by
      rcases hxy with hxy | ⟨hxy, hplace⟩
      · rcases hyz with hyz | ⟨hyz, -⟩
        · exact .inl (order.lt_trans hxy hyz)
        · exact .inl (order.lt_of_lt_of_eq hxy hyz)
      · rcases hyz with hyz | ⟨hyz, hplace'⟩
        · exact .inl (order.lt_of_eq_of_lt hxy hyz)
        · exact .inr ⟨order.eq_trans hxy hyz, Nat.lt_trans hplace hplace'⟩
    exact step ⟨a.1, ha⟩ ⟨b.1, hb⟩ ⟨c.1, hc⟩ hab hbc

/-- The places of rows ascend. -/
theorem pairwise_zipIdx (rows : List Row) : rows.zipIdx.Pairwise fun a b => a.2 < b.2 := by
  rw [← List.pairwise_map (f := Prod.snd) (R := (· < ·)), List.zipIdx_map_snd]
  exact List.pairwise_lt_range' 1

/-- Rows with their places are sorted by the keys that rank them, whatever is taken of rows that
cannot be compared. -/
theorem Rankable.rankRows_sorted (hrank : Rankable keys rows) (unknown : Bool) :
    (rankRows keys unknown rows).Pairwise (PlacedBefore keys rows) ∧
      (rankRows keys unknown rows).Perm rows.zipIdx := by
  have order := hrank.isStrictOrder
  refine Sorting.stableSort_sorted ((pairwise_zipIdx rows).imp_of_mem fun {a b} ha hb hplace => ?_)
  have ha := List.fst_mem_of_mem_zipIdx ha
  have hb := List.fst_mem_of_mem_zipIdx hb
  have hprecedes : precedes keys unknown b.1 a.1 = (compareRows keys b.1 a.1 == .lt) := by
    rw [precedes, hrank.compareRows?_eq hb ha]
  rw [Sorting.Decides, hprecedes]
  split
  · next hlt => exact ⟨hb, ha, .inl (beq_iff_eq.mp hlt)⟩
  · next hnot =>
    -- The later row does not come first, so it comes last or ties.
    refine ⟨ha, hb, ?_⟩
    rw [beq_iff_eq, ← OrientedCmp.gt_iff_lt] at hnot
    cases hcompare : compareRows keys a.1 b.1 with
    | lt => exact .inl rfl
    | eq => exact .inr ⟨rfl, hplace⟩
    | gt => exact absurd hcompare hnot

/-- Rows sorted with their places are arranged. -/
theorem arranged_of_placed {ranked : List (Row × Nat)}
    (hsorted : ranked.Pairwise (PlacedBefore keys rows)) (hperm : ranked.Perm rows.zipIdx)
    (hrank : Rankable keys rows) : Arranged keys rows (ranked.map (·.1)) := by
  have hfst : rows.zipIdx.map (·.1) = rows := List.zipIdx_map_fst 0 rows
  refine ⟨?_, ?_, fun row hrow => ?_⟩
  · have hmap := hperm.map (·.1)
    rwa [hfst] at hmap
  · refine List.pairwise_map.mpr (hsorted.imp fun {a b} hab => ?_)
    obtain ⟨-, -, hlt | ⟨heq, -⟩⟩ := hab
    · rw [hlt]
      rfl
    · rw [heq]
      rfl
  · -- Among rows that tie with a row, the places alone decide.
    have hclass : (ranked.filter (ties keys row ∘ Prod.fst)).Pairwise fun a b => a.2 < b.2 := by
      refine (hsorted.filter _).imp_of_mem fun {a b} ha hb hab => ?_
      obtain ⟨ha', hb', hlt | ⟨-, hplace⟩⟩ := hab
      · rw [hrank.compareRows_eq_of_ties hrow ha' hb' (List.mem_filter.mp ha).2
          (List.mem_filter.mp hb).2] at hlt
        cases hlt
      · exact hplace
    have heq : ranked.filter (ties keys row ∘ Prod.fst) =
        rows.zipIdx.filter (ties keys row ∘ Prod.fst) := by
      refine List.Perm.eq_of_pairwise ?_ hclass ((pairwise_zipIdx rows).filter _)
        (hperm.filter _)
      exact fun a b _ _ hab hba => absurd hab (Nat.lt_asymm hba)
    conv_rhs => rw [← hfst]
    rw [List.filter_map, List.filter_map, heq]

/-- Rows that the keys rank are sorted without an error, and the outcome is arranged. -/
theorem Rankable.exists_sortRows (hrank : Rankable keys rows) :
    ∃ sorted, sortRows keys rows = .ok sorted ∧ Arranged keys rows sorted := by
  cases keys with
  | nil =>
    refine ⟨rows, rfl, .refl _, ?_, fun _ _ => rfl⟩
    exact List.pairwise_of_forall fun _ _ => rfl
  | cons key keys =>
    obtain ⟨htrue, hpermTrue⟩ := hrank.rankRows_sorted true
    obtain ⟨hfalse, hpermFalse⟩ := hrank.rankRows_sorted false
    -- A strict order leaves one way to sort, so nothing hangs on rows that cannot be compared.
    have hsame : rankRows (key :: keys) true rows = rankRows (key :: keys) false rows := by
      have order := hrank.isStrictOrder
      refine List.Perm.eq_of_pairwise ?_ htrue hfalse (hpermTrue.trans hpermFalse.symm)
      exact fun a b _ _ hab hba => absurd hba (asymm_of _ hab)
    refine ⟨(rankRows (key :: keys) true rows).map (·.1), ?_,
      arranged_of_placed htrue hpermTrue hrank⟩
    rw [sortRows, List.isEmpty_cons, if_neg Bool.false_ne_true]
    dsimp only
    rw [if_pos (by rw [hsame])]

/-! ## Fewer rows -/

/-- No row before the first of those that tie with each other ties with any of them. -/
theorem Rankable.filter_ties_eq_nil {before rest : List Row} {x row : Row}
    (hrank : Rankable keys (before ++ x :: rest)) (hfirst : ∀ a ∈ before, ties keys x a = false)
    (hrow : row ∈ before ++ x :: rest) (hties : ties keys row x = true) :
    before.filter (ties keys row) = [] := by
  refine List.filter_eq_nil_iff.mpr fun a ha hrowTies => ?_
  have heq := hrank.compareRows_eq_of_ties hrow (List.mem_append_right _ List.mem_cons_self)
    (List.mem_append_left _ ha) hties hrowTies
  have hnot := hfirst a ha
  rw [ties, heq] at hnot
  cases hnot

/-- The first of arranged rows stands before all that tie with it, and without it the others are
arranged. -/
theorem Arranged.uncons {x : Row} {sorted : List Row} (h : Arranged keys rows (x :: sorted))
    (hrank : Rankable keys rows) :
    ∃ before rest, rows = before ++ x :: rest ∧ (∀ a ∈ before, ties keys x a = false) ∧
      Arranged keys (before ++ rest) sorted := by
  have hstable := h.stable x (h.perm.mem_iff.mp List.mem_cons_self)
  rw [List.filter_cons_of_pos (ties_self keys x)] at hstable
  obtain ⟨before, rest, rfl, hbefore, -, -⟩ := List.filter_eq_cons_iff.mp hstable.symm
  have hfirst : ∀ a ∈ before, ties keys x a = false :=
    fun a ha => Bool.eq_false_iff.mpr (hbefore a ha)
  refine ⟨before, rest, rfl, hfirst, ?_, h.ascending.of_cons, fun row hrow => ?_⟩
  · exact (h.perm.trans List.perm_middle).cons_inv
  · have hmem : row ∈ before ++ x :: rest :=
      List.perm_middle.mem_iff.mpr (List.mem_cons_of_mem x hrow)
    have hsame := h.stable row hmem
    rw [List.filter_append, List.filter_cons, List.filter_cons] at hsame
    rw [List.filter_append]
    cases hties : ties keys row x with
    | false =>
      rw [hties] at hsame
      exact hsame
    | true =>
      -- No row before the first one ties with it, so that it comes first here as there.
      rw [hties, hrank.filter_ties_eq_nil hfirst hmem hties] at hsame
      rw [hrank.filter_ties_eq_nil hfirst hmem hties]
      exact (List.cons.inj hsame).2

/-- Rows that tie with a row stand as they stood when they are arranged, also without the row. -/
theorem Arranged.filter_ties {all sorted : List Row} (h : Arranged keys rows sorted)
    (hrank : Rankable keys all) (hsub : rows ⊆ all) {row : Row} (hrow : row ∈ all) :
    sorted.filter (ties keys row) = rows.filter (ties keys row) := by
  cases hclass : rows.filter (ties keys row) with
  | nil => exact (hclass ▸ h.perm.filter (ties keys row)).eq_nil
  | cons first others =>
    obtain ⟨hmem, hties⟩ := List.mem_filter.mp (hclass ▸ List.mem_cons_self)
    have hback : ties keys first row = true :=
      beq_iff_eq.mpr (OrientedCmp.eq_symm (beq_iff_eq.mp hties))
    -- What ties with the row is what ties with one of the rows that are arranged.
    have hsame : ∀ b ∈ rows, ties keys row b = ties keys first b := by
      intro b hb
      refine Bool.eq_iff_iff.mpr ⟨fun hrb => ?_, fun hfb => ?_⟩
      · exact beq_iff_eq.mpr (hrank.compareRows_eq_of_ties hrow (hsub hmem) (hsub hb) hties hrb)
      · exact beq_iff_eq.mpr (hrank.compareRows_eq_of_ties (hsub hmem) hrow (hsub hb) hback hfb)
    rw [← hclass, List.filter_congr hsame,
      List.filter_congr fun b hb => hsame b (h.perm.mem_iff.mp hb), h.stable first hmem]

/-- A row that comes after none and stands before all that tie with it comes first when it is
arranged with the others. -/
theorem Arranged.of_first {before rest : List Row} {x : Row} {sorted : List Row}
    (h : Arranged keys (before ++ rest) sorted) (hrank : Rankable keys (before ++ x :: rest))
    (hle : ∀ a ∈ before ++ rest, (compareRows keys x a).isLE = true)
    (hfirst : ∀ a ∈ before, ties keys x a = false) :
    Arranged keys (before ++ x :: rest) (x :: sorted) := by
  refine ⟨(h.perm.cons x).trans List.perm_middle.symm, ?_, fun row hrow => ?_⟩
  · exact List.pairwise_cons.mpr ⟨fun a ha => hle a (h.perm.mem_iff.mp ha), h.ascending⟩
  · have hsub : before ++ rest ⊆ before ++ x :: rest :=
      ((List.sublist_cons_self x rest).append_left before).subset
    have hothers := h.filter_ties hrank hsub hrow
    rw [List.filter_append, List.filter_cons, List.filter_cons, hothers, List.filter_append]
    cases hties : ties keys row x with
    | false => rfl
    | true =>
      rw [hrank.filter_ties_eq_nil hfirst hrow hties]
      rfl

/-- Some of the rows, in their order, are arranged to some of the arranged rows, in theirs. -/
theorem Arranged.sublist {sorted fewer sortedFewer : List Row} (h : Arranged keys rows sorted)
    (hfewer : Arranged keys fewer sortedFewer) (hrank : Rankable keys rows)
    (hsub : fewer.Sublist rows) : sortedFewer.Sublist sorted := by
  -- The induction is on the arranged rows; the first of them is one of the fewer rows or not.
  induction sorted generalizing rows fewer sortedFewer with
  | nil =>
    rw [List.nil_perm.mp h.perm, List.sublist_nil] at hsub
    rw [hsub] at hfewer
    rw [hfewer.perm.eq_nil]
  | cons x sorted ih =>
    obtain ⟨before, rest, rfl, hfirst, hothers⟩ := h.uncons hrank
    have hless : (before ++ rest).Sublist (before ++ x :: rest) :=
      (List.sublist_cons_self x rest).append_left before
    have hrankOthers := hrank.of_subset (List.Subset.refl keys) hless.subset
    obtain ⟨front, back, rfl, hfront, hback⟩ := List.sublist_append_iff.mp hsub
    rcases List.sublist_cons_iff.mp hback with hback | ⟨later, rfl, hlater⟩
    · exact (ih hothers hfewer hrankOthers (hfront.append hback)).cons x
    · -- The first row is one of the fewer, too, and comes first among them.
      have hsubOthers : (front ++ later).Sublist (before ++ rest) := hfront.append hlater
      obtain ⟨sortedOthers, -, hsortedOthers⟩ :=
        (hrankOthers.of_subset (List.Subset.refl keys) hsubOthers.subset).exists_sortRows
      have hle : ∀ a ∈ front ++ later, (compareRows keys x a).isLE = true := fun a ha =>
        (List.pairwise_cons.mp h.ascending).1 a (hothers.perm.mem_iff.mpr (hsubOthers.subset ha))
      have hwith := hsortedOthers.of_first
        (hrank.of_subset (List.Subset.refl keys) hsub.subset) hle
        fun a ha => hfirst a (hfront.subset ha)
      rw [hfewer.unique hwith]
      exact (ih hothers hsortedOthers hrankOthers hsubOthers).cons_cons x

/-- Arranged rows have NULL first under an ascending key and last under a descending one, as far as
they tie on the keys before it. -/
theorem Arranged.nulls {sorted : List Row} (hsorted : Arranged keys rows sorted)
    {earlier later : List SortKey} {key : SortKey} (hkeys : keys = earlier ++ key :: later) :
    sorted.Pairwise fun a b => compareRows earlier a b = .eq →
      match key.direction with
      | .ascending => (key.valueIn b).isNull = true → (key.valueIn a).isNull = true
      | .descending => (key.valueIn a).isNull = true → (key.valueIn b).isNull = true := by
  refine hsorted.ascending.imp fun {a b} hle heq => ?_
  have null_of {v w : Value} (hvw : (v.compare w).isLE = true) (hw : w.isNull = true) :
      v.isNull = true := by
    by_contra hv
    rw [Value.isNull_of_isLE hvw (Bool.eq_false_iff.mpr hv)] at hw
    cases hw
  rw [hkeys, compareRows_append, heq, Ordering.eq_then, compareRows] at hle
  have hkey := Ordering.isLE_left_of_isLE_then hle
  rw [SortKey.compare] at hkey
  cases hdirection : key.direction with
  | ascending =>
    rw [hdirection] at hkey
    exact null_of hkey
  | descending =>
    rw [hdirection, Direction.compare, ← Value.compare_swap] at hkey
    exact null_of hkey

/-- Sorting rows that the keys rank succeeds. The outcome has the same rows in ascending order of
the keys, NULL first under an ascending key and last under a descending one, and rows that tie stand
as they stood; it is also what comes of sorting by all keys but the first one and then by this
one. -/
theorem sortRows_arranged (keys : List SortKey) (rows : List Row) (hrank : Rankable keys rows) :
    ∃ sorted, sortRows keys rows = .ok sorted ∧ Arranged keys rows sorted ∧
      (∀ earlier key later, keys = earlier ++ key :: later → sorted.Pairwise fun a b =>
        compareRows earlier a b = .eq →
          match key.direction with
          | .ascending => (key.valueIn b).isNull = true → (key.valueIn a).isNull = true
          | .descending => (key.valueIn a).isNull = true → (key.valueIn b).isNull = true) ∧
      ∀ key others, keys = key :: others →
        (do sortRows [key] (← sortRows others rows)) = .ok sorted := by
  obtain ⟨sorted, hsort, harranged⟩ := hrank.exists_sortRows
  refine ⟨sorted, hsort, harranged, fun _ _ _ hkeys => harranged.nulls hkeys, ?_⟩
  rintro key others rfl
  obtain ⟨halfway, hfirst, hhalfway⟩ :=
    (hrank.of_subset (List.subset_cons_self key others) (List.Subset.refl rows)).exists_sortRows
  obtain ⟨outcome, hsecond, houtcome⟩ :=
    (hrank.of_subset (by simp : [key] ⊆ key :: others) hhalfway.perm.subset).exists_sortRows
  have hsame : outcome = sorted := (hhalfway.cons houtcome).unique harranged
  rw [hfirst, Outcome.ok_bind, hsecond, hsame]

/-- Rows are sorted by truth values in descending order, found under the qualified name or the bare
one, and then by texts; the row without a truth value comes last, and rows that tie are not
exchanged. -/
theorem sortRows_arranged_flags :
    let keys : List SortKey := [⟨"t.flag", .descending⟩, ⟨"name", .ascending⟩]
    let down : Row := [(("flag" : Text), .bool false), (("name" : Text), .string "x")]
    let qualified : Row := [(("t.flag" : Text), .bool true), (("name" : Text), .string "y")]
    let lacking : Row := [(("name" : Text), .string "x")]
    let up : Row := [(("flag" : Text), .bool true), (("name" : Text), .string "x")]
    let bare : Row := [(("flag" : Text), .bool true), (("name" : Text), .string "y")]
    Rankable keys [down, qualified, lacking, up, bare] ∧
      sortRows keys [down, qualified, lacking, up, bare] =
        .ok [up, qualified, bare, down, lacking] := by
  intro keys down qualified lacking up bare
  have hrank : Rankable keys [down, qualified, lacking, up, bare] := by
    refine Rankable.of_types ?_
    simp only [keys, List.forall_mem_cons, List.not_mem_nil, false_imp_iff, implies_true, and_true]
    exact ⟨⟨.boolean, ⟨rfl, nofun⟩, ⟨rfl, nofun⟩, ⟨rfl, nofun⟩, ⟨rfl, nofun⟩, ⟨rfl, nofun⟩⟩,
      ⟨.string, ⟨rfl, nofun⟩, ⟨rfl, nofun⟩, ⟨rfl, nofun⟩, ⟨rfl, nofun⟩, ⟨rfl, nofun⟩⟩⟩
  obtain ⟨sorted, hsort, harranged, -, -⟩ := sortRows_arranged keys _ hrank
  have hexpected : Arranged keys [down, qualified, lacking, up, bare]
      [up, qualified, bare, down, lacking] := ⟨by decide, by decide, by decide⟩
  exact ⟨hrank, by rw [hsort, harranged.unique hexpected]⟩

end

end RelStore
