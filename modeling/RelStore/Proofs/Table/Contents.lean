import RelStore.Proofs.Table.Selection
import RelStore.Proofs.Table.Uniqueness

/-!
# Operations told by the live rows

What an operation does to the live rows of a table, and whether it is refused, depends on the live
rows and not on where they stand. The targets of a statement are the positions of the rows for which
its conditions hold (`Consistent.targets_eq`); new values and deletions there change the list of
live rows one by one (`liveRows_assignAll`, `liveRows_deleteAll`), which a compaction leaves
(`liveRows_compact`); and the checks of unique indexes
ask for live rows with the same key (`Consistent.conflicts_iff_liveRows`,
`Consistent.updateConflicts_positionsOf`, `Consistent.buildTree_eq`).
-/

namespace RelStore.Table

open BTree (sameKey)

variable {table : Table}

/-! ## Positions of rows -/

/-- The positions of the live rows of some kind, in order. -/
def positionsOf (table : Table) (keep : Row → Bool) : List Nat :=
  (table.live.filter fun item => keep item.2).map Prod.fst

/-- The positions of rows of a kind are those at which there is one. -/
theorem mem_positionsOf {keep : Row → Bool} {p : Nat} :
    p ∈ table.positionsOf keep ↔ ∃ row, table.row? p = some row ∧ keep row = true :=
  mem_filter_live_iff

/-- The position of a row is one of rows of a kind when the row is of the kind. -/
theorem mem_positionsOf_of_row? {keep : Row → Bool} {p : Nat} {row : Row}
    (hrow : table.row? p = some row) : p ∈ table.positionsOf keep ↔ keep row = true := by
  rw [mem_positionsOf, hrow]
  simp

/-- No position of rows of a kind comes twice. -/
theorem nodup_positionsOf (table : Table) (keep : Row → Bool) : (table.positionsOf keep).Nodup :=
  (table.filter_live_ascending _).imp Nat.ne_of_lt

/-- The rows at the positions of rows of a kind are the live rows of the kind. -/
theorem filterMap_row?_positionsOf (table : Table) (keep : Row → Bool) :
    (table.positionsOf keep).filterMap table.row? = table.liveRows.filter keep := by
  rw [positionsOf, filterMap_row?_live, ← map_snd_live, List.filter_map]
  rfl

/-- There are as many positions of rows of a kind as live rows of the kind. -/
theorem length_positionsOf (table : Table) (keep : Row → Bool) :
    (table.positionsOf keep).length = (table.liveRows.filter keep).length := by
  rw [positionsOf, List.length_map, ← map_snd_live, List.filter_map, List.length_map]
  rfl

/-- The targets of a statement are the positions of the rows for which its conditions hold, if these
can be told. -/
theorem Consistent.targets_eq (h : table.Consistent) {conditions bare : List Condition}
    (hbare : table.bareConditions conditions = .ok bare)
    (hliterals : ∀ c ∈ conditions, c.value ≠ .float .nan) :
    table.targets conditions = (fun _ => table.positionsOf (·.matches bare)) <$>
      Condition.select bare id table.liveRows := by
  have hall : (table.live.all fun item => bare.all (Condition.applies · item.2)) =
      table.liveRows.all fun row => bare.all (Condition.applies · row) := by
    rw [← map_snd_live, List.all_map]
    rfl
  rw [h.targets_eq_scan hbare hliterals, scan, Condition.select, Condition.select, hall]
  dsimp only [id]
  split <;> rfl

/-! ## Changes row by row -/

/-- The live rows of a list are the one at its first position, if there is one, and those of the
rest of the list. -/
theorem filterMap_id_eq (rows : List (Option Row)) :
    rows.filterMap id = (rowAt rows 0).toList ++ rows.tail.filterMap id := by
  cases rows with
  | nil => rfl
  | cons row? rest => cases row? <;> rfl

/-- The positions of the rest of a list are one less. -/
theorem rowAt_tail (rows : List (Option Row)) (p : Nat) :
    rowAt rows.tail p = rowAt rows (p + 1) := by
  cases rows <;> rfl

/-- Where every position has what a change makes of its row, so has the list of live rows. -/
theorem filterMap_id_of_rowAt {rows others : List (Option Row)} {change : Row → Option Row}
    (h : ∀ p, rowAt others p = (rowAt rows p).bind change) :
    others.filterMap id = (rows.filterMap id).filterMap change := by
  induction rows generalizing others with
  | nil =>
    -- No position has a row, so the list has none.
    rw [List.filterMap_nil, List.filterMap_nil, List.filterMap_eq_nil_iff]
    intro row? hmem
    obtain ⟨p, hp⟩ := List.mem_iff_getElem?.mp hmem
    have hnone := h p
    rw [rowAt, hp] at hnone
    exact hnone
  | cons first rest ih =>
    have hrest : others.tail.filterMap id = (rest.filterMap id).filterMap change := by
      refine ih fun p => ?_
      rw [rowAt_tail, h]
      rfl
    have hfirst : ((rowAt (first :: rest) 0).toList).filterMap change =
        ((rowAt (first :: rest) 0).bind change).toList := by
      cases rowAt (first :: rest) 0 with
      | none => rfl
      | some row =>
        rw [Option.toList_some, List.filterMap_cons, Option.bind_some]
        cases change row <;> rfl
    rw [filterMap_id_eq others, filterMap_id_eq (first :: rest), List.filterMap_append, hfirst,
      ← h, hrest, List.tail_cons]

/-- After new values have been assigned to the rows of a kind, each of these has them. -/
theorem liveRows_assignAll (table : Table) (assigned : Row) (keep : Row → Bool) :
    (table.assignAll assigned (table.positionsOf keep)).2.liveRows =
      table.liveRows.map fun row => if keep row then row.putAll assigned else row := by
  have hrows := row?_assignAll table assigned (table.nodup_positionsOf keep)
  have hchange : ∀ p, rowAt (table.assignAll assigned (table.positionsOf keep)).2.rows p =
      (rowAt table.rows p).bind fun row =>
        some (if keep row then row.putAll assigned else row) := by
    intro p
    rw [← row?_eq, ← row?_eq, hrows]
    cases hrow : table.row? p with
    | none => simp
    | some row =>
      simp only [mem_positionsOf_of_row? hrow, Option.bind_some, Option.map_some]
      split <;> rfl
  rw [liveRows, filterMap_id_of_rowAt hchange, List.filterMap_eq_map']
  rfl

/-- After the rows of a kind have been deleted, the others are left. -/
theorem liveRows_deleteAll (table : Table) (keep : Row → Bool) :
    (table.deleteAll (table.positionsOf keep)).2.liveRows =
      table.liveRows.filter fun row => !keep row := by
  have hchange : ∀ p, rowAt (table.deleteAll (table.positionsOf keep)).2.rows p =
      (rowAt table.rows p).bind fun row => if keep row then none else some row := by
    intro p
    rw [← row?_eq, ← row?_eq, row?_deleteAll]
    cases hrow : table.row? p with
    | none => simp
    | some row => simp only [mem_positionsOf_of_row? hrow, Option.bind_some]
  rw [liveRows, filterMap_id_of_rowAt hchange, liveRows]
  induction table.rows.filterMap id with
  | nil => rfl
  | cons row rest ih =>
    rw [List.filterMap_cons, List.filter_cons, ih]
    cases keep row <;> rfl

/-- A compaction leaves the live rows, the order of trees and the counters. -/
theorem liveRows_compact (table : Table) : table.compact.2.liveRows = table.liveRows ∧
    table.compact.2.treeOrder = table.treeOrder ∧ table.compact.2.counters = table.counters := by
  unfold compact
  dsimp only
  split
  · exact ⟨rfl, rfl, rfl⟩
  · exact ⟨liveRows_of_rows rfl, rfl, rfl⟩

/-! ## Checks of unique indexes -/

/-- A new row conflicts with a unique index when a live row has the same key other than NULL. -/
theorem Consistent.conflicts_iff_liveRows (h : table.Consistent) {index : Index}
    (hindex : index ∈ table.indexes) {row : Row} (hrow : row.Fits table.schema) :
    index.conflicts row = true ↔ index.unique = true ∧ (row.cell index.column).isNull = false ∧
      ∃ other ∈ table.liveRows,
        sameKey (row.cell index.column) (other.cell index.column) = true := by
  rw [h.conflicts_iff hindex hrow]
  refine and_congr_right fun _ => and_congr_right fun _ => ?_
  constructor
  · rintro ⟨p, other, hother, hsame⟩
    exact ⟨other, mem_liveRows_iff.mpr ⟨p, hother⟩, hsame⟩
  · rintro ⟨other, hother, hsame⟩
    obtain ⟨p, hp⟩ := mem_liveRows_iff.mp hother
    exact ⟨p, other, hp, hsame⟩

/-- New values for the rows of a kind conflict with a unique index when their key is not NULL and
goes to two rows, or to one while a row of another kind has it. -/
theorem Consistent.updateConflicts_positionsOf (h : table.Consistent) {index : Index}
    (hindex : index ∈ table.indexes) {column : Column} (hcolumn : column ∈ table.schema.columns)
    (hname : column.name = .text index.column) {key : Value} (hkey : key ∈ column.type.keys)
    (keep : Row → Bool) :
    table.updateConflicts (table.positionsOf keep) index key = true ↔
      index.unique = true ∧ key.isNull = false ∧ (table.liveRows.filter keep).length ≠ 0 ∧
        (1 < (table.liveRows.filter keep).length ∨ ∃ row ∈ table.liveRows,
          keep row = false ∧ sameKey key (row.cell index.column) = true) := by
  have hothers : (∃ q row, q ∉ table.positionsOf keep ∧ table.row? q = some row ∧
      sameKey key (row.cell index.column) = true) ↔
      ∃ row ∈ table.liveRows, keep row = false ∧
        sameKey key (row.cell index.column) = true := by
    constructor
    · rintro ⟨q, row, hq, hrow, hsame⟩
      refine ⟨row, mem_liveRows_iff.mpr ⟨q, hrow⟩, ?_, hsame⟩
      exact Bool.eq_false_iff.mpr fun hkeep => hq ((mem_positionsOf_of_row? hrow).mpr hkeep)
    · rintro ⟨row, hmem, hkeep, hsame⟩
      obtain ⟨q, hrow⟩ := mem_liveRows_iff.mp hmem
      refine ⟨q, row, fun hq => ?_, hrow, hsame⟩
      rw [(mem_positionsOf_of_row? hrow).mp hq] at hkeep
      cases hkeep
  rw [h.updateConflicts_iff hindex hcolumn hname hkey, hothers, ← length_positionsOf, ne_eq,
    ← List.length_eq_zero_iff]

/-- Goes through rows whose keys come to those of the rows seen: in a unique index, a key other than
NULL that comes a second time is an error. -/
def checkKeys (column : Text) (unique : Bool) (seen : List Row) : List Row → Except Error Unit
  | [] => .ok ()
  | row :: rest =>
    let key := row.cell column
    if unique && !key.isNull && seen.any fun other => sameKey key (other.cell column) then
      .error (.ofDuplicate column key)
    else checkKeys column unique (row :: seen) rest

/-- With a row at a position that was free, the rows are this one and those before. -/
theorem exists_update_iff {rows : Nat → Option Row} {p : Nat} (hp : rows p = none)
    (row other : Row) :
    (∃ q, Function.update rows p (some row) q = some other) ↔
      other = row ∨ ∃ q, rows q = some other := by
  constructor
  · rintro ⟨q, hq⟩
    rw [Function.update_apply] at hq
    split at hq
    · exact .inl (Option.some.inj hq).symm
    · exact .inr ⟨q, hq⟩
  · rintro (rfl | ⟨q, hq⟩)
    · exact ⟨p, Function.update_self ..⟩
    · have hne : q ≠ p := fun heq => Option.some_ne_none other (hq.symm.trans (heq ▸ hp))
      exact ⟨q, by rw [Function.update_of_ne hne, hq]⟩

/-- Adding rows to a tree that covers the rows seen is refused as the check of their keys says. -/
theorem foldlM_buildTree {type : DataType} {column : Text} (unique : Bool)
    {rows : Nat → Option Row} {tree : BTree Nat} (hcovers : Covers type column rows tree)
    {seen : List Row} (hseen : ∀ row, row ∈ seen ↔ ∃ p, rows p = some row)
    {items : List (Nat × Row)} (hfree : ∀ item ∈ items, rows item.1 = none)
    (hnodup : (items.map Prod.fst).Nodup)
    (hcells : ∀ item ∈ items, item.2.cell column ∈ type.keys) :
    (fun _ => ()) <$> items.foldlM (fun tree (position, row) =>
      let key := row.cell column
      if unique && !key.isNull && tree.has key then .error (.ofDuplicate column key)
      else .ok (tree.insert key position)) tree =
      checkKeys column unique seen (items.map Prod.snd) := by
  -- The induction is on the rows to come; each joins the rows seen.
  induction items generalizing rows tree seen with
  | nil => rfl
  | cons item rest ih =>
    obtain ⟨p, row⟩ := item
    obtain ⟨hp, hrestFree⟩ := List.forall_mem_cons.mp hfree
    obtain ⟨hnot, hrestNodup⟩ := List.nodup_cons.mp hnodup
    obtain ⟨hcell, hrestCells⟩ := List.forall_mem_cons.mp hcells
    have hhas : tree.has (row.cell column) =
        seen.any fun other => sameKey (row.cell column) (other.cell column) := by
      rw [Bool.eq_iff_iff, hcovers.has_iff hcell, List.any_eq_true]
      constructor
      · rintro ⟨q, other, hother, hsame⟩
        exact ⟨other, (hseen other).mpr ⟨q, hother⟩, hsame⟩
      · rintro ⟨other, hother, hsame⟩
        obtain ⟨q, hq⟩ := (hseen other).mp hother
        exact ⟨q, other, hq, hsame⟩
    rw [List.foldlM_cons, List.map_cons, checkKeys]
    dsimp only
    rw [hhas]
    split
    · rfl
    · refine ih (hcovers.insert hp hcell) (fun other => ?_) (fun later hlater => ?_) hrestNodup
        hrestCells
      · rw [List.mem_cons, hseen, exists_update_iff hp]
      · have hne : later.1 ≠ p := ne_of_mem_of_not_mem (List.mem_map_of_mem hlater) hnot
        rw [Function.update_of_ne hne]
        exact hrestFree later hlater

/-- Whether an index can be built, and if not, which key comes twice, is told by the live rows. -/
theorem Consistent.buildTree_eq (h : table.Consistent) {reference : ColumnName} {column : Text}
    (hcolumn : table.schema.columnName reference = .ok column) (degree : BTree.Order)
    (unique : Bool) :
    (fun _ => ()) <$> buildTree degree column unique table.live =
      checkKeys column unique [] table.liveRows := by
  obtain ⟨definition, hmem, hname⟩ := Schema.exists_column_of_columnName hcolumn
  have hempty : Covers definition.type column (fun _ => none) (.empty degree) := .empty degree
  rw [← map_snd_live]
  refine foldlM_buildTree unique hempty (fun row => ?_) (fun _ _ => rfl)
    (table.live_ascending.imp Nat.ne_of_lt) fun item hitem => ?_
  · simp
  · exact h.cell_mem hmem hname item.1 item.2 (mem_live_iff.mp hitem)

end RelStore.Table
