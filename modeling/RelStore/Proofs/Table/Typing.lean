import RelStore.Proofs.Table.Replay

/-!
# Well-typed rows

Whatever is done to a table, its live rows are well-typed (`Table.run_wellTyped`): they have the
columns of the table in order, and in each a value of the type of the column or NULL
(`DataType.Takes`), and no NULL where the column refuses it. For the columns of a reachable table
take the cells of its live rows as they are (`Reachable.admits`), and a column takes as it is only
what may stand in it (`Column.Admits.takes`).
-/

namespace RelStore

/-- A row has just the given columns, in order, each with a value that may stand in it: one of its
type or NULL, and not NULL if the column refuses NULL or is the primary key. -/
def Row.WellTyped (columns : List Column) (row : Row) : Prop :=
  List.Forall₂ (fun (column : Column) (entry : ColumnName × Value) =>
    entry.1 = column.name ∧ column.type.Takes entry.2 ∧
      (column.notNull = true ∨ column.primaryKey = true → entry.2 ≠ .null)) columns row

/-- A column takes as it is only what may stand in it. -/
theorem Column.Admits.takes {column : Column} {v : Value} (h : column.Admits v) :
    column.type.Takes v ∧ (column.notNull = true ∨ column.primaryKey = true → v ≠ .null) := by
  refine ⟨coerce_takes h.coerce_eq, fun hconstraint hnull => ?_⟩
  have hrefuses : column.notNull = true := hconstraint.elim id column.notNull_of_primaryKey
  have hnot := h.notNull hrefuses
  rw [hnull] at hnot
  exact absurd hnot Bool.noConfusion

/-- A row that fits a schema is well-typed if the columns take its cells as they are. -/
theorem Row.Fits.wellTyped {schema : Schema} {row : Row} (hfits : row.Fits schema)
    (hadmitted : row.Admitted schema) : row.WellTyped schema.columns := by
  unfold Row.WellTyped
  rw [hfits.eq_map, List.forall₂_map_right_iff, List.forall₂_same]
  intro column hcolumn
  exact ⟨rfl, (hadmitted column hcolumn).takes⟩

namespace Table

/-- Whatever operations are carried out on a new table, it keeps its columns and its live rows are
well-typed. -/
theorem run_wellTyped {name : Text} {columns : List Column} {treeOrder : Int} {created : Table}
    (hcreate : create name columns treeOrder = .ok created) (operations : List Operation) :
    (created.run operations).schema.columns = columns ∧
      ∀ row ∈ (created.run operations).liveRows, row.WellTyped columns := by
  obtain ⟨hconsistent, -, hcolumns⟩ := Consistent.of_create hcreate
  have hschema : (created.run operations).schema.columns = columns := by
    rw [hconsistent.schema_run operations, hcolumns]
  have hreachable : (created.run operations).Reachable :=
    ⟨name, columns, treeOrder, created, operations, hcreate, rfl⟩
  refine ⟨hschema, fun row hrow => ?_⟩
  obtain ⟨hfits, hadmitted⟩ := hreachable.replayable row hrow
  rw [← hschema]
  exact hfits.wellTyped hadmitted

/-- A table with a column of each type, of which the first one is the primary key. -/
def mixed : Table where
  schema := ⟨"mixed", [.define (.text "id") .int true false false false,
    .define (.text "x") .float false false false false,
    .define (.text "on") .boolean false false false false,
    .define (.text "s") .string false false true false], by decide⟩
  treeOrder := 4
  rows := []
  indexes := [⟨"idx_mixed_id", "id", true, .empty .default⟩]
  counters := []

/-- The row that stays has been converted cell by cell. An infinite float, a row without its primary
key and a float that is not a number are refused. -/
theorem run_wellTyped_mixed :
    let table := mixed.run [
      .insert [(.text "id", .value (.string " 7 ")), (.text "x", .value (.int 2)),
        (.text "on", .value (.string "TRUE")), (.text "s", .value (.bool false))],
      .insert [(.text "id", .value (.int 8)), (.text "x", .value (.float (.infinite false))),
        (.text "s", .value (.string ""))],
      .insert [(.text "x", .value .null), (.text "s", .value (.string ""))],
      .update [("x", .value (.float .nan))] []]
    table.liveRows = [[(.text "id", .int 7), (.text "x", .float (.ofInt 2)),
      (.text "on", .bool true), (.text "s", .string "false")]] ∧
    ∀ row ∈ table.liveRows, row.WellTyped mixed.schema.columns := by
  intro table
  refine ⟨by decide +kernel, ?_⟩
  exact (run_wellTyped (rfl : create "mixed" mixed.schema.columns 4 = .ok mixed) _).2

end Table

end RelStore
