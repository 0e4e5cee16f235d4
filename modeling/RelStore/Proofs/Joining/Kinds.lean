import Mathlib.Data.List.Perm.Basic
import RelStore.Joining
import RelStore.Proofs.Table.Targets

/-!
# The kinds of a join

A joined row is made of a row of each side, or of a row of one side alone (`Origin`). The three
kinds of a join of the same two sides make the same pairs, the left kind in the order of the left
rows and the right kind in the order of the right ones, and an outer join adds one row for each row
of its side that has no partner (`origins`). For every kind, the rows made are those of its origins,
in order, and there are none just when two values cannot be compared or a row that is carried over
has a column whose name is no text (`join_kindsAgree`).
-/

namespace RelStore

open Sql (JoinColumn JoinKind)

/-- What a joined row is made of. The rows come with their positions, so that equal rows are told
apart. -/
inductive Origin where
  /-- A row of each side. -/
  | pair (l r : Row × Nat)
  /-- A row of the left side that has no partner. -/
  | leftOnly (l : Row × Nat)
  /-- A row of the right side that has no partner. -/
  | rightOnly (r : Row × Nat)

namespace Origin

/-- The left and the right row, if there are both. -/
def pair? : Origin → Option ((Row × Nat) × (Row × Nat))
  | pair l r => some (l, r)
  | _ => none

/-- The rows of an origin. -/
def rows : Origin → List Row
  | pair l r => [l.1, r.1]
  | leftOnly l => [l.1]
  | rightOnly r => [r.1]

/-- All columns of the rows have texts for names. -/
def Named (origin : Origin) : Prop :=
  ∀ row ∈ origin.rows, ∀ name ∈ row.names, ∃ text, name = .text text

/-- The joined row of an origin. Where the rows of the right side are kept, these come first. -/
def joined (left right : JoinSide) (kind : JoinKind) : Origin → Row
  | pair l r =>
    match kind with
    | .inner | .left => combine l.1 left.table (some r.1) right.table
    | .right => combine r.1 right.table (some l.1) left.table
  | leftOnly l => combine l.1 left.table none right.table
  | rightOnly r => combine r.1 right.table none left.table

/-- An origin with the sides exchanged. -/
def swap : Origin → Origin
  | pair l r => pair r l
  | leftOnly l => rightOnly l
  | rightOnly r => leftOnly r

/-- The pairs of a left row with its partners, in the order of the right rows. -/
def ofLeft (left right : JoinSide) (l : Row × Nat) : List Origin :=
  (right.rows.zipIdx.filter fun r => partners left right l.1 r.1).map (pair l)

/-- The pairs of a right row with its partners, in the order of the left rows. -/
def ofRight (left right : JoinSide) (r : Row × Nat) : List Origin :=
  (left.rows.zipIdx.filter fun l => partners left right l.1 r.1).map (pair · r)

/-- The pairs of a row or, if there are none, what stands for the row alone. -/
def orAlone (alone : List Origin) : List Origin → List Origin
  | [] => alone
  | pairs => pairs

end Origin

/-- The origins of the rows that a join makes: for each row of the left side its pairs, or itself
where left rows are kept and it has none; where right rows are kept, the same for each row of the
right side. -/
def origins (left right : JoinSide) : JoinKind → List Origin
  | .inner => left.rows.zipIdx.flatMap (Origin.ofLeft left right)
  | .left => left.rows.zipIdx.flatMap fun l =>
    Origin.orAlone [.leftOnly l] (Origin.ofLeft left right l)
  | .right => right.rows.zipIdx.flatMap fun r =>
    Origin.orAlone [.rightOnly r] (Origin.ofRight left right r)

/-- The values that a join compares in two rows can be compared. -/
def ComparableIn (left right : JoinSide) (l r : Row) : Prop :=
  ∀ a b, joinKey? l left.column = some a → joinKey? r right.column = some b →
    a.isComparable b = true

/-- The values that a join compares can all be compared. -/
def Comparable (left right : JoinSide) : Prop :=
  ∀ l ∈ left.rows, ∀ r ∈ right.rows, ComparableIn left right l r

/-- What the kinds of a join make of two sides. -/
structure KindsAgree (left right : JoinSide) : Prop where
  /-- Each kind makes the rows of its origins, provided that all comparisons can be made and the
  rows that are carried over have texts for names. -/
  joined : ∀ kind rows, join kind left right = .ok rows ↔
    Comparable left right ∧ (∀ origin ∈ origins left right kind, origin.Named) ∧
      rows = (origins left right kind).map (Origin.joined left right kind)
  /-- A join that fails has come upon values that cannot be compared or upon a name that is no
  text. -/
  failed : ∀ kind error, join kind left right = .error error →
    error = .unwritableInteger ∧ ¬Comparable left right ∨
      ∃ origin ∈ origins left right kind, ¬origin.Named
  /-- The pairs are the same for any two kinds, each as often as for the other. -/
  pairs : ∀ kind other, ((origins left right kind).filterMap Origin.pair?).Perm
    ((origins left right other).filterMap Origin.pair?)
  /-- The inner kind lists what the left one does without the rows that have no partner. -/
  inner : origins left right .inner =
    (origins left right .left).filter fun origin => origin.pair?.isSome

/-! ## Exchanging the sides -/

/-- Values that can be compared can be so with the sides exchanged. -/
theorem Comparable.swap {left right : JoinSide} (h : Comparable left right) :
    Comparable right left := by
  intro r hr l hl b a hb ha
  rw [Value.isComparable_comm]
  exact h l hl r hr a b ha hb

/-- Being partners does not depend on the order of the sides. -/
theorem partners_swap (left right : JoinSide) (l r : Row) :
    partners right left r l = partners left right l r := by
  unfold partners
  cases joinKey? l left.column with
  | none => cases joinKey? r right.column <;> rfl
  | some a =>
    cases joinKey? r right.column with
    | none => rfl
    | some b =>
      dsimp only
      rw [Operator.eq_holds, Operator.eq_holds, Value.sameKey_comm]

namespace Origin

/-- The pairs of a right row are those of a left row of the exchanged sides. -/
theorem ofRight_eq_swap (left right : JoinSide) (r : Row × Nat) :
    ofRight left right r = (ofLeft right left r).map swap := by
  unfold ofRight ofLeft
  rw [List.map_map]
  simp only [partners_swap left right]
  rfl

/-- Exchanging the sides goes through the choice between the pairs of a row and the row alone. -/
theorem map_orAlone (f : Origin → Origin) (alone pairs : List Origin) :
    (orAlone alone pairs).map f = orAlone (alone.map f) (pairs.map f) := by
  cases pairs <;> rfl

/-- Exchanging the sides does not change the rows but for their order. -/
theorem named_swap (origin : Origin) : origin.swap.Named ↔ origin.Named := by
  cases origin with
  | pair l r =>
    simp [Named, swap, rows, and_comm]
  | leftOnly l => rfl
  | rightOnly r => rfl

/-- Where the right rows are kept, the joined row is that of the exchanged sides. -/
theorem joined_swap (left right : JoinSide) (origin : Origin) :
    origin.swap.joined left right .right = origin.joined right left .left := by
  cases origin <;> rfl

end Origin

/-- Keeping the right rows is keeping the left rows with the sides exchanged. -/
theorem origins_right (left right : JoinSide) :
    origins left right .right = (origins right left .left).map Origin.swap := by
  rw [origins, origins, List.map_flatMap]
  refine congrArg (right.rows.zipIdx.flatMap ·) (funext fun r => ?_)
  rw [Origin.map_orAlone, Origin.ofRight_eq_swap]
  rfl

/-! ## The origins of the left rows -/

/-- What holds of all rows with their positions, and is about the rows alone, holds of all rows. -/
theorem forall_mem_zipIdx {rows : List Row} {P : Row → Prop} :
    (∀ l ∈ rows.zipIdx, P l.1) ↔ ∀ row ∈ rows, P row := by
  have hrows : rows.zipIdx.map Prod.fst = rows := List.zipIdx_map_fst 0 rows
  rw [← List.forall_mem_map, hrows]

/-- The kind that lists the left rows, keeping those without a partner or not. -/
def leftKind (keepUnmatched : Bool) : JoinKind := if keepUnmatched then .left else .inner

section

variable {left right : JoinSide} {keepUnmatched : Bool}

/-- The origins that come from the left rows, one row after the other. -/
theorem origins_leftKind : origins left right (leftKind keepUnmatched) =
    left.rows.zipIdx.flatMap fun l =>
      Origin.orAlone (if keepUnmatched then [.leftOnly l] else []) (Origin.ofLeft left right l) := by
  cases keepUnmatched with
  | true => rfl
  | false =>
    refine congrArg (left.rows.zipIdx.flatMap ·) (funext fun l => ?_)
    cases Origin.ofLeft left right l <;> rfl

/-- A left row has pairs, one for each partner, or it stands alone if it is kept. -/
theorem forall_mem_origins {P : Origin → Prop} :
    (∀ origin ∈ origins left right (leftKind keepUnmatched), P origin) ↔
      ∀ l ∈ left.rows.zipIdx,
        (∀ r ∈ right.rows.zipIdx, partners left right l.1 r.1 = true → P (.pair l r)) ∧
        (keepUnmatched = true → right.rows.any (partners left right l.1) = false →
          P (.leftOnly l)) := by
  rw [origins_leftKind, List.forall_mem_flatMap]
  refine forall₂_congr fun l _ => ?_
  have hpairs : (∀ origin ∈ Origin.ofLeft left right l, P origin) ↔
      ∀ r ∈ right.rows.zipIdx, partners left right l.1 r.1 = true → P (.pair l r) := by
    simp only [Origin.ofLeft, List.forall_mem_map, List.mem_filter, and_imp]
  have halone : right.rows.any (partners left right l.1) = false ↔
      Origin.ofLeft left right l = [] := by
    rw [List.any_eq_false, Origin.ofLeft, List.map_eq_nil_iff, List.filter_eq_nil_iff]
    exact forall_mem_zipIdx.symm
  rw [← hpairs, halone]
  cases Origin.ofLeft left right l with
  | nil => cases keepUnmatched <;> simp [Origin.orAlone]
  | cons first rest => simp [Origin.orAlone]

/-- The rows that a join makes of a left row are those of its origins. -/
theorem joinRow_eq_map (l : Row × Nat) :
    joinRow left right keepUnmatched l.1 =
      (Origin.orAlone (if keepUnmatched then [.leftOnly l] else [])
        (Origin.ofLeft left right l)).map (Origin.joined left right (leftKind keepUnmatched)) := by
  have hpartners : right.rows.filter (partners left right l.1) =
      (right.rows.zipIdx.filter fun r => partners left right l.1 r.1).map Prod.fst := by
    conv_lhs => rw [← List.zipIdx_map_fst 0 right.rows]
    rw [List.filter_map]
    rfl
  unfold joinRow Origin.ofLeft
  rw [hpartners]
  cases right.rows.zipIdx.filter fun r => partners left right l.1 r.1 with
  | nil => cases keepUnmatched <;> rfl
  | cons r rest =>
    rw [List.map_cons, List.map_cons]
    dsimp only [Origin.orAlone]
    rw [← List.map_cons, ← List.map_cons, List.map_map, List.map_map]
    cases keepUnmatched <;> rfl

/-! ## What a join comes upon -/

/-- A row can be carried over when its columns have texts for names. -/
theorem carryFault?_eq_none_iff {row : Row} :
    carryFault? row = none ↔ ∀ name ∈ row.names, ∃ text, name = .text text := by
  rw [carryFault?, List.findSome?_eq_none_iff]
  refine forall₂_congr fun name _ => ?_
  cases name with
  | text name => exact iff_of_true rfl ⟨name, rfl⟩
  | _ => exact iff_of_false nofun nofun

/-- Two partners can be joined when the columns of both have texts for names. -/
theorem carryFault?_append {l r : Row × Nat} :
    carryFault? (l.1 ++ r.1) = none ↔ (Origin.pair l r).Named := by
  have hnames : Mapping.names (l.1 ++ r.1) = Mapping.names l.1 ++ Mapping.names r.1 :=
    List.map_append
  rw [carryFault?_eq_none_iff, hnames, List.forall_mem_append]
  simp [Origin.Named, Origin.rows]

/-- A row can be carried over alone when its columns have texts for names. -/
theorem carryFault?_leftOnly {l : Row × Nat} :
    carryFault? l.1 = none ↔ (Origin.leftOnly l).Named := by
  rw [carryFault?_eq_none_iff]
  simp [Origin.Named, Origin.rows]

/-- Nothing is wrong with two rows when they can be compared and, if they are partners, joined. -/
theorem pairFault?_eq_none_iff {l r : Row} : pairFault? left right l r = none ↔
    ComparableIn left right l r ∧
      (partners left right l r = true → carryFault? (l ++ r) = none) := by
  unfold pairFault? ComparableIn
  cases hl : joinKey? l left.column with
  | none => simp [partners, hl]
  | some a =>
    cases hr : joinKey? r right.column with
    | none => simp [partners, hr]
    | some b => cases hcomparable : a.isComparable b <;> simp [hcomparable]

/-- What is wrong with two rows is that they cannot be compared, or they are partners and cannot be
joined. -/
theorem pairFault?_eq_some {l r : Row} {error : Error}
    (h : pairFault? left right l r = some error) :
    error = .unwritableInteger ∧ ¬ComparableIn left right l r ∨
      partners left right l r = true ∧ carryFault? (l ++ r) ≠ none := by
  unfold pairFault? at h
  split at h
  · next a b hl hr =>
    split at h
    · next hcomparable =>
      rw [Bool.not_eq_true'] at hcomparable
      refine .inl ⟨(Option.some.inj h).symm, fun hall => ?_⟩
      rw [hall a b hl hr] at hcomparable
      cases hcomparable
    · split at h
      · next hpartners => exact .inr ⟨hpartners, by rw [h]; nofun⟩
      · cases h
  · cases h

/-- The rows to carry over have texts for names when the partners of every row have, and so has
every row that is kept alone. -/
theorem forall_named_iff :
    (∀ origin ∈ origins left right (leftKind keepUnmatched), origin.Named) ↔
      ∀ l ∈ left.rows,
        (∀ r ∈ right.rows, partners left right l r = true → carryFault? (l ++ r) = none) ∧
        (keepUnmatched = true → right.rows.any (partners left right l) = false →
          carryFault? l = none) := by
  rw [forall_mem_origins, ← forall_mem_zipIdx]
  refine forall₂_congr fun l _ => and_congr ?_ ?_
  · rw [← forall_mem_zipIdx]
    simp only [carryFault?_append]
  · rw [carryFault?_leftOnly]

/-- A join comes upon no fault when all comparisons can be made and the rows to carry over have
texts for names. -/
theorem joinFault?_eq_none_iff : joinFault? left right keepUnmatched = none ↔
    Comparable left right ∧
      ∀ origin ∈ origins left right (leftKind keepUnmatched), origin.Named := by
  rw [joinFault?, List.findSome?_eq_none_iff, forall_named_iff, Comparable, ← forall₂_and]
  refine forall₂_congr fun l _ => ?_
  have hpairs : right.rows.findSome? (pairFault? left right l) = none ↔
      (∀ r ∈ right.rows, ComparableIn left right l r) ∧
        ∀ r ∈ right.rows, partners left right l r = true → carryFault? (l ++ r) = none := by
    rw [List.findSome?_eq_none_iff, ← forall₂_and]
    exact forall₂_congr fun r _ => pairFault?_eq_none_iff
  rw [← and_assoc, ← hpairs]
  cases right.rows.findSome? (pairFault? left right l) with
  | some fault => simp
  | none => simp

variable (keepUnmatched) in
/-- A join that comes upon a fault has values that cannot be compared or a row to carry over with a
name that is no text. -/
theorem joinFault?_eq_some {error : Error} (h : joinFault? left right keepUnmatched = some error) :
    error = .unwritableInteger ∧ ¬Comparable left right ∨
      ∃ origin ∈ origins left right (leftKind keepUnmatched), ¬origin.Named := by
  by_cases hnamed : ∀ origin ∈ origins left right (leftKind keepUnmatched), origin.Named
  · left
    rw [forall_named_iff] at hnamed
    obtain ⟨l, hl, h⟩ := List.exists_of_findSome?_eq_some h
    split at h
    · next fault hfault =>
      cases h
      obtain ⟨r, hr, hpair⟩ := List.exists_of_findSome?_eq_some hfault
      rcases pairFault?_eq_some hpair with ⟨rfl, hcomparable⟩ | ⟨hpartners, hcarry⟩
      · exact ⟨rfl, fun hall => hcomparable (hall l hl r hr)⟩
      · exact absurd ((hnamed l hl).1 r hr hpartners) hcarry
    · split at h
      · next hkept =>
        rw [Bool.and_eq_true, Bool.not_eq_true'] at hkept
        rw [(hnamed l hl).2 hkept.1 hkept.2] at h
        cases h
      · cases h
  · push Not at hnamed
    exact .inr hnamed

/-- The rows that a join makes of the left rows are those of the origins. -/
theorem flatMap_joinRow_eq_map : left.rows.flatMap (joinRow left right keepUnmatched) =
    (origins left right (leftKind keepUnmatched)).map
      (Origin.joined left right (leftKind keepUnmatched)) := by
  have hrows : left.rows.zipIdx.map Prod.fst = left.rows := List.zipIdx_map_fst 0 left.rows
  rw [origins_leftKind, List.map_flatMap]
  conv_lhs => rw [← hrows, List.flatMap_map]
  exact congrArg (left.rows.zipIdx.flatMap ·) (funext joinRow_eq_map)

variable (keepUnmatched) in
/-- A join that lists the left rows makes the rows of its origins. -/
theorem joinLeft_eq_ok_iff {rows : List Row} :
    joinLeft left right keepUnmatched = .ok rows ↔
      Comparable left right ∧
        (∀ origin ∈ origins left right (leftKind keepUnmatched), origin.Named) ∧
        rows = (origins left right (leftKind keepUnmatched)).map
          (Origin.joined left right (leftKind keepUnmatched)) := by
  rw [← and_assoc, ← joinFault?_eq_none_iff, ← flatMap_joinRow_eq_map, joinLeft]
  cases joinFault? left right keepUnmatched with
  | some fault => simp
  | none => simp [eq_comm]

/-- A join that lists the left rows fails with the fault that it comes upon. -/
theorem joinLeft_eq_error {error : Error} (h : joinLeft left right keepUnmatched = .error error) :
    joinFault? left right keepUnmatched = some error := by
  unfold joinLeft at h
  split at h
  · next fault hfault =>
    cases h
    exact hfault
  · cases h

end

/-! ## The pairs of the kinds -/

/-- Choosing elements and mapping them is putting together one list or none for each. -/
theorem map_filter_eq_flatMap {α β : Type} (p : α → Bool) (f : α → β) (xs : List α) :
    (xs.filter p).map f = xs.flatMap fun x => if p x then [f x] else [] := by
  induction xs with
  | nil => rfl
  | cons x xs ih =>
    rw [List.filter_cons, List.flatMap_cons, ← ih]
    split <;> rfl

/-- The pairs of related elements of two lists are the same, whether they are listed by the elements
of the one or by those of the other. -/
theorem flatMap_filter_perm {α : Type} (rel : α → α → Bool) (xs ys : List α) :
    (xs.flatMap fun x => (ys.filter (rel x)).map fun y => (x, y)).Perm
      (ys.flatMap fun y => (xs.filter fun x => rel x y).map fun x => (x, y)) := by
  induction xs with
  | nil => simp
  | cons x xs ih =>
    have hcons (y : α) : (((x :: xs).filter fun x => rel x y).map fun x => (x, y)) =
        (if rel x y then [(x, y)] else []) ++ (xs.filter fun x => rel x y).map fun x => (x, y) := by
      rw [List.filter_cons]
      split <;> rfl
    rw [List.flatMap_cons, map_filter_eq_flatMap]
    simp only [hcons]
    exact (ih.append_left _).trans (List.flatMap_append_perm ys _ _)

/-- The pairs of a left row come from its partners alone. -/
theorem filterMap_ofLeft (left right : JoinSide) (l : Row × Nat) :
    (Origin.ofLeft left right l).filterMap Origin.pair? =
      (right.rows.zipIdx.filter fun r => partners left right l.1 r.1).map fun r => (l, r) := by
  rw [Origin.ofLeft, List.filterMap_map]
  exact congrFun List.filterMap_eq_map _

/-- Where a row without partners is kept alone, no pair is added. -/
theorem filterMap_orAlone {alone : List Origin} (halone : alone.filterMap Origin.pair? = [])
    (pairs : List Origin) :
    (Origin.orAlone alone pairs).filterMap Origin.pair? = pairs.filterMap Origin.pair? := by
  cases pairs with
  | nil => exact halone
  | cons => rfl

/-- The pairs of the kinds that list the left rows are those of each left row in turn. -/
theorem pairs_leftKind (left right : JoinSide) (keepUnmatched : Bool) :
    (origins left right (leftKind keepUnmatched)).filterMap Origin.pair? =
      left.rows.zipIdx.flatMap fun l =>
        (right.rows.zipIdx.filter fun r => partners left right l.1 r.1).map fun r => (l, r) := by
  rw [origins_leftKind, List.filterMap_flatMap]
  refine congrArg (left.rows.zipIdx.flatMap ·) (funext fun l => ?_)
  rw [filterMap_orAlone (by cases keepUnmatched <;> rfl), filterMap_ofLeft]

/-- The pairs of the kind that lists the right rows are those of each right row in turn. -/
theorem pairs_right (left right : JoinSide) :
    (origins left right .right).filterMap Origin.pair? =
      right.rows.zipIdx.flatMap fun r =>
        (left.rows.zipIdx.filter fun l => partners left right l.1 r.1).map fun l => (l, r) := by
  rw [origins, List.filterMap_flatMap]
  refine congrArg (right.rows.zipIdx.flatMap ·) (funext fun r => ?_)
  rw [filterMap_orAlone rfl, Origin.ofRight, List.filterMap_map]
  exact congrFun List.filterMap_eq_map _

/-- Every kind makes the same pairs as the inner one. -/
theorem pairs_perm_inner (left right : JoinSide) (kind : JoinKind) :
    ((origins left right kind).filterMap Origin.pair?).Perm
      ((origins left right .inner).filterMap Origin.pair?) := by
  have hinner := pairs_leftKind left right false
  have hleft := pairs_leftKind left right true
  rw [leftKind, if_neg Bool.false_ne_true] at hinner
  rw [leftKind, if_pos rfl, ← hinner] at hleft
  cases kind with
  | inner => rfl
  | left => rw [hleft]
  | right =>
    rw [hinner, pairs_right]
    exact (flatMap_filter_perm (fun l r : Row × Nat => partners left right l.1 r.1) _ _).symm

/-- The inner kind lists the origins of the left one that are pairs. -/
theorem origins_inner_eq_filter (left right : JoinSide) : origins left right .inner =
    (origins left right .left).filter fun origin => origin.pair?.isSome := by
  rw [origins, origins, List.filter_flatMap]
  refine congrArg (left.rows.zipIdx.flatMap ·) (funext fun l => ?_)
  have hpairs : (Origin.ofLeft left right l).filter (fun origin => origin.pair?.isSome) =
      Origin.ofLeft left right l := by
    rw [List.filter_eq_self, Origin.ofLeft, List.forall_mem_map]
    exact fun r _ => rfl
  conv_lhs => rw [← hpairs]
  cases Origin.ofLeft left right l <;> rfl

/-! ## The three kinds -/

/-- Comparisons that can be made can be made with the sides exchanged. -/
theorem comparable_comm {left right : JoinSide} : Comparable right left ↔ Comparable left right :=
  ⟨Comparable.swap, Comparable.swap⟩

/-- Whatever rows are joined, and on whatever columns, the three kinds of a join make the same pairs
of rows, and the outer ones lose no row of their side. -/
theorem join_kindsAgree (left right : JoinSide) : KindsAgree left right := by
  refine ⟨fun kind rows => ?_, fun kind error h => ?_, fun kind other => ?_,
    origins_inner_eq_filter left right⟩
  · cases kind with
    | inner => exact joinLeft_eq_ok_iff false
    | left => exact joinLeft_eq_ok_iff true
    | right =>
      -- The rows to keep are those of the left side once the sides are exchanged.
      rw [origins_right, List.forall_mem_map, List.map_map, ← comparable_comm]
      simp only [Origin.named_swap, Function.comp_def, Origin.joined_swap]
      exact joinLeft_eq_ok_iff true
  · cases kind with
    | inner => exact joinFault?_eq_some false (joinLeft_eq_error h)
    | left => exact joinFault?_eq_some true (joinLeft_eq_error h)
    | right =>
      rw [← comparable_comm, origins_right]
      refine (joinFault?_eq_some true (joinLeft_eq_error h)).imp_right ?_
      rintro ⟨origin, horigin, hnamed⟩
      exact ⟨origin.swap, List.mem_map_of_mem horigin, hnamed ∘ origin.named_swap.mp⟩
  · exact (pairs_perm_inner left right kind).trans (pairs_perm_inner left right other).symm

/-- Where an integer without a text is to be compared with a text, no kind of join makes the row
that an outer one would keep. -/
theorem join_incomparable :
    let left : JoinSide := ⟨[[(.text "n", .int (tenTo digitLimit))]], "a", ⟨none, "n"⟩⟩
    let right : JoinSide := ⟨[[(.text "s", .string "x")]], "b", ⟨none, "s"⟩⟩
    (origins left right .left).length = 1 ∧ (origins left right .right).length = 1 ∧
      ∀ kind, join kind left right = .error .unwritableInteger := by
  intro left right
  refine ⟨by decide +kernel, by decide +kernel, fun kind => ?_⟩
  cases kind <;> decide +kernel

end RelStore
