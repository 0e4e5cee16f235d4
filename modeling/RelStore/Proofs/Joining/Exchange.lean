import RelStore.Proofs.Joining.Kinds
import RelStore.Proofs.Joining.Filtering

/-!
# Exchanging the operands of a join

The condition of a join compares a column of the joined table with a column of a table before it. If
the operand of the joined table is qualified, it may be written on either side of the equals sign
(`Sql.Join.on_comm`). A bare operand stays where it is written, and on the left side it is looked
for in the rows joined so far, none of which has a column of the name
(`Database.notMem_names_of_joinTables`): the join then finds no partners and keeps only rows that
stand alone (`LosesPartners`).
-/

namespace RelStore

open Sql (Join JoinColumn JoinKind Select)

/-! ## Bare names of joined rows -/

/-- A row brings just its own bare names into a joined row. -/
theorem mem_names_joinedEntries {row : Row} {table : Text} {name : ColumnName}
    (hname : name.Plain) :
    name ∈ Mapping.names (joinedEntries row table) ↔ name ∈ row.names := by
  rw [← Mapping.isSome_get?_iff, ← Mapping.isSome_get?_iff, get?_joinedEntries row table hname]

/-- The bare names of a joined row are those of the rows of which it is made. -/
theorem mem_names_combine {l : Row} {r? : Option Row} {leftTable rightTable : Text}
    {name : ColumnName} (hname : name.Plain) :
    name ∈ (combine l leftTable r? rightTable).names ↔
      name ∈ l.names ∨ ∃ r, r? = some r ∧ name ∈ r.names := by
  have hstart : name ∈ (Mapping.ofList (joinedEntries l leftTable)).names ↔ name ∈ l.names := by
    rw [Mapping.ofList, Mapping.mem_names_putAll, mem_names_joinedEntries hname]
    exact or_iff_left List.not_mem_nil
  cases r? with
  | none =>
    refine hstart.trans (or_iff_left ?_).symm
    rintro ⟨r, hr, -⟩
    cases hr
  | some r =>
    have hcombine : combine l leftTable (some r) rightTable =
        (Mapping.ofList (joinedEntries l leftTable)).putAll (joinedEntries r rightTable) := rfl
    rw [hcombine, Mapping.mem_names_putAll, hstart, mem_names_joinedEntries hname, or_comm]
    refine or_congr_right ⟨fun h => ⟨r, rfl, h⟩, ?_⟩
    rintro ⟨_, heq, h⟩
    exact Option.some.inj heq ▸ h

/-- What holds of the bare names of all rows that are joined holds of those of the joined rows. -/
theorem names_of_mem_traceTables (kind : ColumnName → Prop) {base : Text}
    {joined : List (Join × Table)} {rows : List Traced}
    (hrows : ∀ t ∈ rows, ∀ name ∈ t.row.names, name.Plain → kind name)
    (hjoined : ∀ item ∈ joined, ∀ row ∈ item.2.liveRows, ∀ name ∈ row.names,
      name.Plain → kind name) {t : Traced} (ht : t ∈ traceTables base rows joined) :
    ∀ name ∈ t.row.names, name.Plain → kind name := by
  induction joined generalizing rows with
  | nil => exact hrows t ht
  | cons first rest ih =>
    obtain ⟨clause, table⟩ := first
    obtain ⟨htable, hrest⟩ := List.forall_mem_cons.mp hjoined
    refine ih (fun next hnext name hmem hname => ?_) hrest ht
    have hright : ∀ r ∈ (TracedSide.ofTable clause table).rows, ∀ name ∈ r.row.names,
        name.Plain → kind name := by
      rw [TracedSide.ofTable, List.forall_mem_map]
      exact htable
    -- The row is made of a row of each side, or of one side alone.
    obtain ⟨first, second, hsides, l, hl, r?, hr?, rfl⟩ := Traced.mem_traceJoin hnext
    have hboth : (∀ t ∈ first.rows, ∀ name ∈ t.row.names, name.Plain → kind name) ∧
        ∀ t ∈ second.rows, ∀ name ∈ t.row.names, name.Plain → kind name := by
      rcases hsides with ⟨rfl, rfl⟩ | ⟨rfl, rfl⟩
      · exact ⟨hrows, hright⟩
      · exact ⟨hright, hrows⟩
    rcases (mem_names_combine hname).mp hmem with hown | ⟨row, hrow, hother⟩
    · exact hboth.1 l hl name hown hname
    · obtain ⟨r, hr, rfl⟩ := Option.map_eq_some_iff.mp hrow
      exact hboth.2 r (hr? r hr) name hother hname

/-! ## Joins without partners -/

/-- The rows that a join keeps when no two rows are partners. -/
def unmatchedRows (kind : JoinKind) (left right : JoinSide) : List Row :=
  match kind with
  | .inner => []
  | .left => left.rows.map fun l => combine l left.table none right.table
  | .right => right.rows.map fun r => combine r right.table none left.table

section

variable {left right : JoinSide} {keepUnmatched : Bool}

/-- A left row without a partner stands alone if it is kept. -/
theorem joinRow_of_not_partners {l : Row} (h : ∀ r ∈ right.rows, partners left right l r = false) :
    joinRow left right keepUnmatched l =
      if keepUnmatched then [combine l left.table none right.table] else [] := by
  have hnone : right.rows.filter (partners left right l) = [] :=
    List.filter_eq_nil_iff.mpr fun r hr => ne_true_of_eq_false (h r hr)
  rw [joinRow, hnone]

/-- The joined row of a left row and a partner is one of those that the left row makes. -/
theorem combine_mem_joinRow {l r : Row} (hr : r ∈ right.rows)
    (h : partners left right l r = true) :
    combine l left.table (some r) right.table ∈ joinRow left right keepUnmatched l := by
  have hmem : r ∈ right.rows.filter (partners left right l) := List.mem_filter.mpr ⟨hr, h⟩
  unfold joinRow
  split
  · next hnil =>
    rw [hnil] at hmem
    cases hmem
  · exact List.mem_map_of_mem hmem

/-- Where no two rows are partners, the left rows stand alone if they are kept. -/
theorem flatMap_joinRow_of_not_partners
    (h : ∀ l ∈ left.rows, ∀ r ∈ right.rows, partners left right l r = false) :
    left.rows.flatMap (joinRow left right keepUnmatched) =
      unmatchedRows (leftKind keepUnmatched) left right := by
  rw [List.flatMap_congr fun l hl => joinRow_of_not_partners (h l hl)]
  cases keepUnmatched with
  | false => exact List.flatMap_eq_nil_iff.mpr fun l _ => rfl
  | true => exact (List.map_eq_flatMap).symm

/-- The rows that a join makes of its left rows are those of each, one after the other. -/
theorem eq_flatMap_of_joinLeft {rows : List Row}
    (h : joinLeft left right keepUnmatched = .ok rows) :
    rows = left.rows.flatMap (joinRow left right keepUnmatched) := by
  unfold joinLeft at h
  split at h
  · cases h
  · exact (Except.ok.inj h).symm

/-- A join that lists the left rows makes the rows that stand alone when no two rows are partners,
and only then if the right rows have a bare name that no left row has. -/
theorem eq_unmatchedRows_iff {rows : List Row}
    (hjoin : joinLeft left right keepUnmatched = .ok rows) {name : ColumnName} (hname : name.Plain)
    (hleft : ∀ l ∈ left.rows, name ∉ l.names) (hright : ∀ r ∈ right.rows, name ∈ r.names) :
    rows = unmatchedRows (leftKind keepUnmatched) left right ↔
      ∀ l ∈ left.rows, ∀ r ∈ right.rows, partners left right l r = false := by
  have hrows := eq_flatMap_of_joinLeft hjoin
  constructor
  · intro heq l hl r hr
    rw [← Bool.not_eq_true]
    intro hpartners
    -- The joined row of the two has a name that no row has which stands alone.
    have hmem : combine l left.table (some r) right.table ∈ rows := by
      rw [hrows]
      exact List.mem_flatMap.mpr ⟨l, hl, combine_mem_joinRow hr hpartners⟩
    have hhas : name ∈ (combine l left.table (some r) right.table).names :=
      (mem_names_combine hname).mpr (.inr ⟨r, rfl, hright r hr⟩)
    rw [heq] at hmem
    cases keepUnmatched with
    | false => cases hmem
    | true =>
      obtain ⟨other, hother, halone⟩ := List.mem_map.mp hmem
      rw [← halone, mem_names_combine hname] at hhas
      rcases hhas with hown | ⟨_, hnone, -⟩
      · exact hleft other hother hown
      · cases hnone
  · intro hnone
    rw [hrows, flatMap_joinRow_of_not_partners hnone]

/-- A join in which no two rows have both of the columns that are compared has no partners; it meets
no fault if the join of the same rows on other columns meets none. -/
theorem joinLeft_of_keyless {rows : List Row}
    (hjoin : joinLeft left right keepUnmatched = .ok rows) {x y : JoinColumn}
    (hkeyless : ∀ l ∈ left.rows, ∀ r ∈ right.rows, joinKey? l x = none ∨ joinKey? r y = none) :
    (∀ l ∈ left.rows, ∀ r ∈ right.rows,
      partners { left with column := x } { right with column := y } l r = false) ∧
    joinLeft { left with column := x } { right with column := y } keepUnmatched =
      .ok (unmatchedRows (leftKind keepUnmatched) left right) := by
  have hpartners : ∀ l ∈ left.rows, ∀ r ∈ right.rows,
      partners { left with column := x } { right with column := y } l r = false := by
    intro l hl r hr
    unfold partners
    dsimp only
    rcases hkeyless l hl r hr with hnone | hnone
    · rw [hnone]
    · rw [hnone]
      cases joinKey? l x <;> rfl
  have hcomparable : Comparable { left with column := x } { right with column := y } := by
    intro l hl r hr a b ha hb
    rcases hkeyless l hl r hr with hnone | hnone
    · exact absurd (hnone.symm.trans ha) (Option.some_ne_none a).symm
    · exact absurd (hnone.symm.trans hb) (Option.some_ne_none b).symm
  -- The rows to carry over alone were carried over before, alone or with a partner.
  have hnamed := ((joinLeft_eq_ok_iff keepUnmatched).mp hjoin).2.1
  have hfault : joinFault? { left with column := x } { right with column := y } keepUnmatched =
      none := by
    refine joinFault?_eq_none_iff.mpr ⟨hcomparable, forall_named_iff.mpr fun l hl => ⟨?_, ?_⟩⟩
    · intro r hr htrue
      rw [hpartners l hl r hr] at htrue
      cases htrue
    · intro hkept _
      obtain ⟨hpair, halone⟩ := forall_named_iff.mp hnamed l hl
      cases hany : right.rows.any (partners left right l) with
      | false => exact halone hkept hany
      | true =>
        obtain ⟨r, hr, htrue⟩ := List.any_eq_true.mp hany
        have hboth := carryFault?_eq_none_iff.mp (hpair r hr htrue)
        refine carryFault?_eq_none_iff.mpr fun name hname => hboth name ?_
        rw [Mapping.names, List.map_append]
        exact List.mem_append_left _ hname
  refine ⟨hpartners, ?_⟩
  have hrows : ({ left with column := x } : JoinSide).rows.flatMap
      (joinRow { left with column := x } { right with column := y } keepUnmatched) =
        unmatchedRows (leftKind keepUnmatched) left right :=
    flatMap_joinRow_of_not_partners hpartners
  rw [joinLeft, hfault, hrows]

end

/-- What a join makes of two sides when it compares a column that no left row has: nothing has a
partner, and the rows that it keeps stand alone. -/
theorem join_of_keyless {kind : JoinKind} {left right : JoinSide} {rows : List Row}
    (hjoin : join kind left right = .ok rows) {x : JoinColumn}
    (hkeyless : ∀ l ∈ left.rows, joinKey? l x = none) (y : JoinColumn) :
    (∀ l ∈ left.rows, ∀ r ∈ right.rows,
      partners { left with column := x } { right with column := y } l r = false) ∧
    join kind { left with column := x } { right with column := y } =
      .ok (unmatchedRows kind left right) := by
  cases kind with
  | inner => exact joinLeft_of_keyless hjoin fun l hl r _ => .inl (hkeyless l hl)
  | left => exact joinLeft_of_keyless hjoin fun l hl r _ => .inl (hkeyless l hl)
  | right =>
    -- The right rows are listed, and the left ones are looked for.
    obtain ⟨hpartners, hrows⟩ :=
      joinLeft_of_keyless hjoin fun r _ l hl => .inr (hkeyless l hl)
    refine ⟨fun l hl r hr => ?_, hrows⟩
    rw [← partners_swap]
    exact hpartners r hr l hl

/-- A join of two sides of which no two rows are partners keeps the rows that stand alone. -/
theorem join_of_not_partners {kind : JoinKind} {left right : JoinSide} {rows : List Row}
    (hjoin : join kind left right = .ok rows)
    (h : ∀ l ∈ left.rows, ∀ r ∈ right.rows, partners left right l r = false) :
    rows = unmatchedRows kind left right := by
  cases kind with
  | inner => exact (eq_flatMap_of_joinLeft hjoin).trans (flatMap_joinRow_of_not_partners h)
  | left => exact (eq_flatMap_of_joinLeft hjoin).trans (flatMap_joinRow_of_not_partners h)
  | right =>
    have hswapped : ∀ r ∈ right.rows, ∀ l ∈ left.rows, partners right left r l = false := by
      intro r hr l hl
      rw [partners_swap]
      exact h l hl r hr
    exact (eq_flatMap_of_joinLeft hjoin).trans (flatMap_joinRow_of_not_partners hswapped)

/-! ## Operands -/

namespace Sql

/-- A query with a join between joins that come before it and after it. -/
def Select.joining (query : Select) (before : List Join) (join : Join) (after : List Join) :
    Select :=
  { query with joins := before ++ join :: after }

/-- The parts of a reference make it up. -/
theorem JoinColumn.reference_ofReference (reference : Text) :
    (JoinColumn.ofReference reference).reference = reference := by
  rw [ofReference]
  cases hsplit : splitQualified? reference with
  | none => rfl
  | some parts => exact (eq_qualify_of_splitQualified? hsplit).symm

/-- An operand that is qualified by the joined table may be written on either side, if the other one
is not. -/
theorem Join.on_comm (kind : JoinKind) {table : Text} {a b : JoinColumn}
    (ha : a.table = some table) (hb : b.table ≠ some table) :
    Join.on kind table a b = Join.on kind table b a := by
  rw [Join.on, if_pos ⟨ha, hb⟩, Join.on, if_neg fun h => hb h.1]

/-- An operand that is not qualified by the joined table stays on the left if it stands there. -/
theorem Join.on_eq (kind : JoinKind) {table : Text} {a : JoinColumn} (ha : a.table ≠ some table)
    (b : JoinColumn) : Join.on kind table a b = ⟨kind, table, a, b⟩ :=
  if_neg fun h => ha h.1

end Sql

namespace Database

/-- A reference that belongs to a table is qualified by no other one. -/
theorem ofReference_table_ne {table : Table} {reference name : Text}
    (h : belongsTo table reference = true) (hne : table.name ≠ name) :
    (JoinColumn.ofReference reference).table ≠ some name := by
  rw [belongsTo] at h
  rw [JoinColumn.ofReference]
  cases hsplit : splitQualified? reference with
  | none => exact (Option.some_ne_none name).symm
  | some parts =>
    rw [hsplit] at h
    obtain ⟨hqualifier, -⟩ := Bool.and_eq_true_iff.mp h
    intro heq
    exact hne ((beq_iff_eq.mp hqualifier).symm.trans (Option.some.inj heq))

/-- A qualified reference that belongs to a table is qualified by it. -/
theorem ofReference_table_eq {table : Table} {reference : Text}
    (h : belongsTo table reference = true)
    (hqualified : (splitQualified? reference).isSome = true) :
    (JoinColumn.ofReference reference).table = some table.name := by
  obtain ⟨⟨qualifier, column⟩, hsplit⟩ := Option.isSome_iff_exists.mp hqualified
  unfold belongsTo at h
  rw [hsplit] at h
  obtain ⟨hqualifier, -⟩ := Bool.and_eq_true_iff.mp h
  rw [JoinColumn.ofReference, hsplit]
  exact congrArg some (beq_iff_eq.mp hqualifier)

/-- A reference that belongs to one of some tables passes their check. -/
theorem checkColumn_of_belongsTo {tables : List Table} {table : Table} (htable : table ∈ tables)
    {reference : Text} (h : belongsTo table reference = true) :
    checkColumn tables reference = .ok () := by
  unfold belongsTo at h
  unfold checkColumn
  dsimp only
  split at h
  · next qualifier column hsplit =>
    obtain ⟨hqualifier, hcolumn⟩ := Bool.and_eq_true_iff.mp h
    refine if_pos (List.any_eq_true.mpr ⟨table, htable, ?_⟩)
    rw [hcolumn, Bool.and_true, beq_iff_eq, beq_iff_eq.mp hqualifier]
  · exact if_pos (List.any_eq_true.mpr ⟨table, htable, h⟩)

/-! ## Queries that differ in one join -/

/-- Checks that are passed do not count. -/
theorem forM_of_passed {α : Type} {check : α → Except Error Unit} {xs ys zs : List α}
    (h : ∀ y ∈ ys, check y = .ok ()) :
    (xs ++ (ys ++ zs)).forM check = (xs ++ zs).forM check := by
  have hys : (ys ++ zs).forM check = zs.forM check := by
    induction ys with
    | nil => rfl
    | cons y ys ih =>
      obtain ⟨hy, hrest⟩ := List.forall_mem_cons.mp h
      have hcons : (y :: ys ++ zs).forM check = (check y >>= fun _ => (ys ++ zs).forM check) := rfl
      rw [hcons, hy, Outcome.ok_bind, ih hrest]
  induction xs with
  | nil => exact hys
  | cons x xs ih =>
    exact congrArg (fun rest => check x >>= fun _ => rest) ih

/-- Joins are carried out one after the other. -/
theorem joinTables_append (base : Text) (rows : List Row) (before after : List (Join × Table)) :
    joinTables base rows (before ++ after) =
      (joinTables base rows before >>= fun rows => joinTables base rows after) := by
  induction before generalizing rows with
  | nil => rfl
  | cons first rest ih =>
    obtain ⟨clause, table⟩ := first
    rw [List.cons_append, joinTables, joinTables, bind_assoc]
    exact congrArg (_ >>= ·) (funext ih)

variable {db : Database} {query : Select} {base table : Table} {before after : List Join}
  {done : List (Join × Table)}

variable (before after) in
/-- Queries that differ in one join with the same table work on the same rows, if the join makes the
same of the rows joined before. -/
theorem selectRows_joining_congr {x y : Join} (rest : List (Join × Table))
    (hjoin : ∀ conditions start rows, base.select conditions = .ok start →
      joinTables query.table start done = .ok rows →
      join x.kind ⟨rows, query.table, x.left⟩ ⟨table.liveRows, x.table, x.right⟩ =
        join y.kind ⟨rows, query.table, y.left⟩ ⟨table.liveRows, y.table, y.right⟩) :
    selectRows base (done ++ (x, table) :: rest) (query.joining before x after) =
      selectRows base (done ++ (y, table) :: rest) (query.joining before y after) := by
  have hjoins {conditions : List Condition} {start : List Row}
      (hstart : base.select conditions = .ok start) :
      joinTables query.table start (done ++ (x, table) :: rest) =
        joinTables query.table start (done ++ (y, table) :: rest) := by
    rw [joinTables_append, joinTables_append]
    cases hrows : joinTables query.table start done with
    | error e => rfl
    | ok rows =>
      rw [Outcome.ok_bind, Outcome.ok_bind, joinTables, joinTables,
        hjoin conditions start rows hstart hrows]
  unfold selectRows Select.joining
  dsimp only
  split
  · cases hstart : base.select query.conditions with
    | error e => rfl
    | ok start => exact hjoins hstart
  · cases hstart : base.select [] with
    | error e => rfl
    | ok start => rw [Outcome.ok_bind, Outcome.ok_bind, hjoins hstart]

/-- The references of a join stand among the others of a query. -/
theorem exists_references_joining (query : Select) (before after : List Join) :
    ∃ earlier later, ∀ join, references (query.joining before join after) =
      earlier ++ ([join.left.reference, join.right.reference] ++ later) := by
  refine ⟨before.flatMap fun join => [join.left.reference, join.right.reference],
    (after.flatMap fun join => [join.left.reference, join.right.reference]) ++
      query.conditions.map (·.column) ++ query.sortKeys.map (·.column) ++ query.columns.getD [],
    fun join => ?_⟩
  rw [references, Select.joining]
  dsimp only
  rw [List.flatMap_append, List.flatMap_cons]
  simp only [List.append_assoc]

/-- Queries that differ in one join with the same table have the same answer, if the references of
the join pass their checks and the join makes the same of the rows joined before. -/
theorem runSelect_joining_congr {x y : Join} (hbase : db.table query.table = .ok base)
    (hdone : (before.mapM fun join => do return (join, ← db.table join.table)) = .ok done)
    (hx : db.table x.table = .ok table) (hy : db.table y.table = .ok table)
    (hchecked : ∀ tables, base :: done.map Prod.snd ++ [table] ⊆ tables →
      ∀ r ∈ [x.left.reference, x.right.reference, y.left.reference, y.right.reference],
        checkColumn tables r = .ok ())
    (hjoin : ∀ conditions start rows, base.select conditions = .ok start →
      joinTables query.table start done = .ok rows →
      join x.kind ⟨rows, query.table, x.left⟩ ⟨table.liveRows, x.table, x.right⟩ =
        join y.kind ⟨rows, query.table, y.left⟩ ⟨table.liveRows, y.table, y.right⟩) :
    db.runSelect (query.joining before x after) = db.runSelect (query.joining before y after) := by
  have hmap {z : Join} (hz : db.table z.table = .ok table) :
      ((before ++ z :: after).mapM fun join => do return (join, ← db.table join.table)) =
        (fun rest => done ++ (z, table) :: rest) <$>
          (after.mapM fun join => do return (join, ← db.table join.table)) := by
    rw [List.mapM_append, hdone, List.mapM_cons, hz]
    cases after.mapM fun join => do return (join, ← db.table join.table) <;> rfl
  unfold runSelect Select.joining
  dsimp only
  rw [hbase, Outcome.ok_bind, Outcome.ok_bind, hmap hx, hmap hy]
  cases after.mapM fun join => do return (join, ← db.table join.table) with
  | error e => rfl
  | ok rest =>
    have hok (z : Join) : (fun rest => done ++ (z, table) :: rest) <$>
        (.ok rest : Except Error (List (Join × Table))) = .ok (done ++ (z, table) :: rest) := rfl
    have hempty (z : Join) : (before ++ z :: after).isEmpty = false := by
      rw [List.isEmpty_eq_false_iff]
      exact List.append_ne_nil_of_right_ne_nil before (List.cons_ne_nil z after)
    have hrows := selectRows_joining_congr before after rest hjoin
    obtain ⟨earlier, later, hreferences⟩ := exists_references_joining query before after
    have hsnd (z : Join) : (done ++ (z, table) :: rest).map Prod.snd =
        done.map Prod.snd ++ table :: rest.map Prod.snd := by
      rw [List.map_append, List.map_cons]
    have hsub : base :: done.map Prod.snd ++ [table] ⊆
        base :: (done.map Prod.snd ++ table :: rest.map Prod.snd) := by
      rw [List.append_cons (done.map Prod.snd), List.cons_append]
      exact List.cons_subset_cons base (List.subset_append_left _ _)
    have hpassed := hchecked _ hsub
    simp only [List.forall_mem_cons] at hpassed
    obtain ⟨hxl, hxr, hyl, hyr, -⟩ := hpassed
    simp only [Select.joining] at hrows hreferences
    rw [hok, hok, Outcome.ok_bind, Outcome.ok_bind, hempty, hempty, hsnd, hsnd, hreferences,
      hreferences, hrows, forM_of_passed (by simp [hxl, hxr]),
      forM_of_passed (by simp [hyl, hyr])]

/-! ## The exchange -/

/-- What a join of two sides becomes when the columns that it compares change sides and no left row
has the column of the right side. -/
structure LosesPartners (kind : JoinKind) (left right : JoinSide) : Prop where
  /-- No two rows are partners any more. -/
  not_partners : ∀ l ∈ left.rows, ∀ r ∈ right.rows,
    partners { left with column := right.column } { right with column := left.column } l r = false
  /-- The join keeps the rows that stand alone. -/
  rows_eq : ∀ rows, join kind left right = .ok rows →
    join kind { left with column := right.column } { right with column := left.column } =
      .ok (unmatchedRows kind left right)
  /-- Unless it keeps right rows, these are the rows of the join as it was just when no two rows
  were partners. -/
  same_iff : kind ≠ .right → ∀ rows, join kind left right = .ok rows →
    (rows = unmatchedRows kind left right ↔
      ∀ l ∈ left.rows, ∀ r ∈ right.rows, partners left right l r = false)

/-- A bare operand on the left side is the column of a name. -/
theorem ofReference_of_plain {reference : Text} (h : Plain reference) :
    JoinColumn.ofReference reference = ⟨none, reference⟩ := by
  rw [JoinColumn.ofReference, splitQualified?_of_plain h]

/-- A join loses its partners when the operands of its condition change sides, if the joined table
has a bare name that no left row has. -/
theorem losesPartners_of_bare {kind : JoinKind} {left right : JoinSide} {name : Text}
    (hname : Plain name) (hcolumn : right.column = .ofReference name)
    (hleft : ∀ l ∈ left.rows, .text name ∉ l.names)
    (hright : ∀ r ∈ right.rows, .text name ∈ r.names) : LosesPartners kind left right := by
  have hkeyless : ∀ l ∈ left.rows, joinKey? l right.column = none := by
    intro l hl
    rw [hcolumn, ofReference_of_plain hname, joinKey?, Option.bind_none]
    exact Option.not_isSome_iff_eq_none.mp fun h => hleft l hl (Mapping.isSome_get?_iff.mp h)
  refine ⟨fun l hl r _ => ?_, fun rows hjoin => (join_of_keyless hjoin hkeyless left.column).2, ?_⟩
  · unfold partners
    dsimp only
    rw [hkeyless l hl]
  · intro hkind rows hjoin
    have hname : (ColumnName.text name).Plain := hname
    cases kind with
    | inner => exact eq_unmatchedRows_iff hjoin hname hleft hright
    | left => exact eq_unmatchedRows_iff hjoin hname hleft hright
    | right => exact absurd rfl hkind

section

variable (hbase : db.table query.table = .ok base)
  (hdone : (before.mapM fun join => do return (join, ← db.table join.table)) = .ok done)
include hbase hdone

/-- A bare name that no table joined so far has is in no row joined so far. -/
theorem notMem_names_of_joinTables (hsound : db.Sound) {name : Text} (hname : Plain name)
    (hnone : ∀ other ∈ base :: done.map Prod.snd, other.schema.hasColumn name = false)
    {conditions : List Condition} {start rows : List Row}
    (hstart : base.select conditions = .ok start)
    (hrows : joinTables query.table start done = .ok rows) :
    ∀ row ∈ rows, .text name ∉ row.names := by
  obtain ⟨-, hfound⟩ := joined_eq_ok hdone
  have hlive {table : Table} {own : Text} (htable : db.table own = .ok table)
      (hnot : table.schema.hasColumn name = false) : ∀ row ∈ table.liveRows,
      ∀ column ∈ row.names, column.Plain → column ≠ .text name := by
    rintro row hrow _ hmem - rfl
    rw [((hsound.consistent htable).fits_live hrow).mem_names_iff, hnot] at hmem
    cases hmem
  obtain ⟨hbaseNot, hdoneNot⟩ := List.forall_mem_cons.mp hnone
  rw [joinTables_eq_traced hrows, List.forall_mem_map]
  intro t ht hmem
  refine names_of_mem_traceTables (· ≠ .text name) ?_ ?_ ht _ hmem hname rfl
  · rw [List.forall_mem_map]
    exact fun row hrow => hlive hbase hbaseNot row (Table.mem_liveRows_of_select hstart hrow)
  · exact fun item hitem => hlive (hfound item hitem) (hdoneNot _ (List.mem_map_of_mem hitem))

/-- The tables joined so far have the names that the query and its joins say. -/
theorem name_mem_of_mem {table : Table} (htable : table ∈ base :: done.map Prod.snd) :
    table.name ∈ query.table :: before.map (·.table) := by
  obtain ⟨hjoins, hfound⟩ := joined_eq_ok hdone
  rcases List.mem_cons.mp htable with rfl | hmem
  · rw [(table_eq_ok hbase).2]
    exact List.mem_cons_self
  · obtain ⟨item, hitem, rfl⟩ := List.mem_map.mp hmem
    rw [(table_eq_ok (hfound item hitem)).2, ← hjoins, List.map_map]
    exact List.mem_cons_of_mem _ (List.mem_map_of_mem hitem)

end

/-- In a reachable database, the two operands of a join of different tables, of which one names a
column of the joined table and the other a column of a table before it, may be exchanged if the
first one is qualified. If it is a bare name that none of the tables before has, the join loses its
partners when this operand is written first; the query then has the same answer if there were no
partners to lose. -/
theorem Reachable.join_exchange (h : db.Reachable) (hbase : db.table query.table = .ok base)
    (hdone : (before.mapM fun join => do return (join, ← db.table join.table)) = .ok done)
    {name : Text} (htable : db.table name = .ok table)
    (hdistinct : (query.table :: (before.map (·.table) ++ name :: after.map (·.table))).Nodup)
    {a b : Text} (ha : belongsTo table a = true)
    (hown : splitQualified? a = none →
      ∀ other ∈ base :: done.map Prod.snd, other.schema.hasColumn a = false)
    {earlier : Table} (hearlier : earlier ∈ base :: done.map Prod.snd)
    (hb : belongsTo earlier b = true) (kind : JoinKind) :
    let written : Join := .on kind name (.ofReference b) (.ofReference a)
    let exchanged : Join := .on kind name (.ofReference a) (.ofReference b)
    ((splitQualified? a).isSome = true →
      db.runSelect (query.joining before exchanged after) =
        db.runSelect (query.joining before written after)) ∧
    (splitQualified? a = none →
      (∀ conditions start rows, base.select conditions = .ok start →
        joinTables query.table start done = .ok rows →
        LosesPartners kind ⟨rows, query.table, .ofReference b⟩
          ⟨table.liveRows, name, .ofReference a⟩) ∧
      ((∀ conditions start rows, base.select conditions = .ok start →
        joinTables query.table start done = .ok rows →
        let left : JoinSide := ⟨rows, query.table, .ofReference b⟩
        let right : JoinSide := ⟨table.liveRows, name, .ofReference a⟩
        (∃ joined, join kind left right = .ok joined) ∧
          ∀ l ∈ left.rows, ∀ r ∈ right.rows, partners left right l r = false) →
        db.runSelect (query.joining before exchanged after) =
          db.runSelect (query.joining before written after))) := by
  intro written exchanged
  have hsound := h.sound
  have hname := (table_eq_ok htable).2
  have hne : earlier.name ≠ name := by
    rw [← List.cons_append] at hdistinct
    have happart := (List.nodup_append'.mp hdistinct).2.2
    exact fun heq => happart (name_mem_of_mem hbase hdone hearlier)
      (heq ▸ List.mem_cons_self)
  have hbNot := ofReference_table_ne hb hne
  have hwritten : written = ⟨kind, name, .ofReference b, .ofReference a⟩ :=
    Join.on_eq kind hbNot _
  refine ⟨fun hqualified => ?_, fun hbare => ?_⟩
  · have haTable : (JoinColumn.ofReference a).table = some name := by
      rw [ofReference_table_eq ha hqualified, hname]
    have hsame : exchanged = written := Join.on_comm kind haTable hbNot
    rw [hsame]
  -- The bare name is a column of the joined table and of none before it.
  have hplain : Plain a := plain_of_splitQualified? hbare
  have hcolumn : table.schema.hasColumn a = true := by
    rw [belongsTo, hbare] at ha
    exact ha
  have hloses {conditions : List Condition} {start rows : List Row}
      (hstart : base.select conditions = .ok start)
      (hrows : joinTables query.table start done = .ok rows) :
      LosesPartners kind ⟨rows, query.table, .ofReference b⟩
        ⟨table.liveRows, name, .ofReference a⟩ := by
    refine losesPartners_of_bare hplain rfl
      (notMem_names_of_joinTables hbase hdone hsound hplain (hown hbare) hstart hrows) ?_
    intro row hrow
    exact ((hsound.consistent htable).fits_live hrow).mem_names_iff.mpr hcolumn
  refine ⟨fun conditions start rows => hloses, fun halone => ?_⟩
  have hexchanged : exchanged = ⟨kind, name, .ofReference a, .ofReference b⟩ := by
    refine Join.on_eq kind ?_ _
    rw [ofReference_of_plain hplain]
    exact (Option.some_ne_none name).symm
  have hchecked : ∀ tables, base :: done.map Prod.snd ++ [table] ⊆ tables →
      ∀ r ∈ [a, b, b, a], checkColumn tables r = .ok () := by
    intro tables hsub
    have hcheckA := checkColumn_of_belongsTo
      (hsub (List.mem_append_right _ (List.mem_singleton_self table))) ha
    have hcheckB := checkColumn_of_belongsTo (hsub (List.mem_append_left _ hearlier)) hb
    simp only [List.forall_mem_cons, hcheckA, hcheckB, true_and]
    exact List.forall_mem_nil _
  rw [hexchanged, hwritten]
  refine runSelect_joining_congr hbase hdone htable htable ?_ fun _ start rows hstart hrows => ?_
  · simp only [JoinColumn.reference_ofReference]
    exact hchecked
  · obtain ⟨⟨joined, hjoin⟩, hnone⟩ := halone _ start rows hstart hrows
    rw [(hloses hstart hrows).rows_eq joined hjoin, hjoin, join_of_not_partners hjoin hnone]

/-- A table of one column with one row, in which there is the integer 1. -/
def single (name column : Text) : Table where
  schema := ⟨name, [.define (.text column) .int false false false false], List.nodup_singleton _⟩
  treeOrder := 4
  rows := [some [(.text column, .int 1)]]
  indexes := []
  counters := []

/-- Two such tables, of which the columns have different names. -/
def singles : Database := ⟨defaultName, .default, [single "a" "x", single "b" "y"]⟩

/-- Four statements make the two tables. -/
theorem singles_reachable : singles.Reachable := by
  have hparse : (["CREATE TABLE a (x INT)", "CREATE TABLE b (y INT)", "INSERT INTO a VALUES (1)",
      "INSERT INTO b VALUES (1)"] : List Text).mapM Sql.parse =
      .ok [.createTable "a" (single "a" "x").schema.columns,
        .createTable "b" (single "b" "y").schema.columns, .insert "a" [] [[.int 1]],
        .insert "b" [] [[.int 1]]] := rfl
  exact (written_of_performAll hparse rfl).reachable

/-- The join of the two tables finds the partners if the column of the second one is qualified, in
either order, and if it is bare and comes second. If it is bare and comes first, the join loses its
partners. -/
theorem join_exchange_singles :
    let query : Select := ⟨"a", none, [], [], [], none⟩
    let on (left right : Text) : Join := .on .inner "b" (.ofReference left) (.ofReference right)
    let row : Row := [(.text "x", .int 1), (.text "a.x", .int 1), (.text "y", .int 1),
      (.text "b.y", .int 1)]
    Sql.parse "SELECT * FROM a JOIN b ON y = a.x" =
      .ok (.select (query.joining [] (on "y" "a.x") [])) ∧
    singles.runSelect (query.joining [] (on "b.y" "a.x") []) =
      singles.runSelect (query.joining [] (on "a.x" "b.y") []) ∧
    LosesPartners .inner ⟨(single "a" "x").liveRows, "a", .ofReference "a.x"⟩
      ⟨(single "b" "y").liveRows, "b", .ofReference "y"⟩ ∧
    (singles.execute "SELECT * FROM a JOIN b ON a.x = y").1.rows = some [row] ∧
    (singles.execute "SELECT * FROM a JOIN b ON y = a.x").1.rows = some [] := by
  intro query on row
  have hbase : singles.table query.table = .ok (single "a" "x") := rfl
  have hdone : (([] : List Join).mapM fun join => do return (join, ← singles.table join.table)) =
      .ok [] := rfl
  have htable : singles.table "b" = .ok (single "b" "y") := rfl
  have hdistinct : (query.table :: (([] : List Join).map (·.table) ++
      ("b" : Text) :: ([] : List Join).map (·.table))).Nodup := by decide
  have hqualified : belongsTo (single "b" "y") "b.y" = true := rfl
  have hbare : belongsTo (single "b" "y") "y" = true := rfl
  have hother : belongsTo (single "a" "x") "a.x" = true := rfl
  obtain ⟨hsame, -⟩ := singles_reachable.join_exchange hbase hdone htable hdistinct hqualified
    nofun List.mem_cons_self hother .inner
  obtain ⟨-, hloses⟩ := singles_reachable.join_exchange hbase hdone htable hdistinct hbare
    (fun _ => by decide) List.mem_cons_self hother .inner
  have hstart : (single "a" "x").select [] = .ok (single "a" "x").liveRows := by decide +kernel
  refine ⟨rfl, hsame rfl, (hloses rfl).1 [] _ _ hstart rfl, ?_, ?_⟩
  · decide +kernel
  · decide +kernel

end Database

end RelStore
