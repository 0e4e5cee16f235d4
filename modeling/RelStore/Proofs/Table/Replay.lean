import RelStore.Proofs.References
import RelStore.Proofs.Table.Admission
import RelStore.Proofs.Table.Uniqueness

/-!
# Rows that are inserted anew

The rows of a table can be inserted into a new table of the same columns (`Table.replay`). Each is
stored as it was, except that a NULL in a column that counts up takes the next number
(`Table.replay_refills`). Without such a NULL the replay succeeds (`Table.exists_replay`): the cells
pass their checks since the columns take them as they are, and unique indexes refuse none since no
two of the rows share a key.
-/

namespace RelStore

open BTree (sameKey)

/-- Every column of a schema can be referred to by its name: a text without dots that is not
empty. -/
def Schema.Referable (schema : Schema) : Prop :=
  ∀ column ∈ schema.columns, ∃ name, column.name = .text name ∧ name ≠ [] ∧ RelStore.Plain name

/-- The name of a column without dots refers to the column. -/
theorem Schema.columnName_of_plain {schema : Schema} {column : Column}
    (hcolumn : column ∈ schema.columns) {name : Text} (hname : column.name = .text name)
    (hplain : RelStore.Plain name) : schema.columnName (.text name) = .ok name := by
  have hhas : schema.hasColumn (.text name) = true := hname ▸ hasColumn_name hcolumn
  rw [columnName, bareName, splitQualified?_of_plain hplain]
  exact if_pos hhas

/-- A row that fits is made of the cells of the columns. -/
theorem Row.Fits.eq_map {schema : Schema} {row : Row} (h : row.Fits schema) :
    row = schema.columns.map fun column => (column.name, row.cell column.name) := by
  have hnodup := h.nodup_names
  have hself : row = row.names.map fun name => (name, row.cell name) := by
    have hentry : ∀ entry ∈ row,
        ((fun name => (name, row.cell name)) ∘ Prod.fst) entry = entry := by
      rintro ⟨name, v⟩ hmem
      have hget : Mapping.get? row name = some v := Mapping.get?_of_mem hnodup hmem
      rw [Function.comp_apply, Row.cell, hget]
      rfl
    rw [Mapping.names, List.map_map, List.map_congr_left hentry, List.map_id']
  have hnames : row.names = schema.columns.map Column.name := h.names_eq
  rw [hnames, List.map_map] at hself
  exact hself

/-- Rows that fit are the same when their cells are. -/
theorem Row.Fits.ext {schema : Schema} {row other : Row} (h : row.Fits schema)
    (hother : other.Fits schema)
    (hcells : ∀ column ∈ schema.columns, row.cell column.name = other.cell column.name) :
    row = other := by
  have hentries : ∀ column ∈ schema.columns,
      (column.name, row.cell column.name) = (column.name, other.cell column.name) :=
    fun column hcolumn => by rw [hcells column hcolumn]
  calc row = schema.columns.map fun column => (column.name, row.cell column.name) := h.eq_map
    _ = schema.columns.map fun column => (column.name, other.cell column.name) :=
        List.map_congr_left hentries
    _ = other := hother.eq_map.symm

/-- A row that is inserted anew is stored as it was, but for a NULL in a column that counts up. -/
def Row.Refills (schema : Schema) (row stored : Row) : Prop :=
  ∀ column ∈ schema.columns,
    if column.autoIncrement && (row.cell column.name).isNull then
      (stored.cell column.name).isNull = false
    else stored.cell column.name = row.cell column.name

/-- No cell of a row is a NULL in a column that counts up. -/
def Row.Counted (schema : Schema) (row : Row) : Prop :=
  ∀ column ∈ schema.columns, column.autoIncrement = true → (row.cell column.name).isNull = false

instance (schema : Schema) (row : Row) : Decidable (row.Counted schema) :=
  inferInstanceAs (Decidable (∀ column ∈ schema.columns, column.autoIncrement = true →
    (row.cell column.name).isNull = false))

/-- A row is stored as it was just when no cell is a NULL in a column that counts up. -/
theorem Row.Refills.eq_iff {schema : Schema} {row stored : Row} (h : row.Refills schema stored)
    (hrow : row.Fits schema) (hstored : stored.Fits schema) :
    stored = row ↔ row.Counted schema := by
  constructor
  · rintro rfl column hcolumn hauto
    have hcell := h column hcolumn
    split at hcell
    · exact hcell
    · next hnot =>
      rw [hauto, Bool.true_and] at hnot
      exact Bool.eq_false_iff.mpr hnot
  · intro hcounted
    refine hstored.ext hrow fun column hcolumn => ?_
    have hcell := h column hcolumn
    split at hcell
    · next hboth =>
      obtain ⟨hauto, hnull⟩ := Bool.and_eq_true_iff.mp hboth
      rw [hcounted column hcolumn hauto] at hnull
      cases hnull
    · exact hcell

namespace Table

/-- Inserts rows one after the other, each of which must succeed. -/
def replay (table : Table) (rows : List Row) : Except Error Table :=
  rows.foldlM (fun table row => Prod.snd <$> table.insert row) table

variable {table : Table}

/-! ## One row -/

/-- Cells under names of columns that can be referred to stay under them when they are renamed, after
those that have been renamed before. -/
theorem foldlM_rename (hreferable : table.schema.Referable) {cells : Mapping ColumnName Cell}
    (hnames : ∀ name ∈ cells.names, name ∈ table.schema.columnNames)
    {renamed : Mapping ColumnName Cell} (hnodup : (Mapping.names (renamed ++ cells)).Nodup) :
    (cells.foldlM (fun renamed (reference, cell) => do
      let column ← table.schema.columnName reference
      return renamed.put ↑column cell) renamed : Except Error _) = .ok (renamed ++ cells) := by
  induction cells generalizing renamed with
  | nil =>
    rw [List.append_nil]
    rfl
  | cons entry rest ih =>
    obtain ⟨name, cell⟩ := entry
    obtain ⟨column, hcolumn, rfl⟩ := List.mem_map.mp (hnames name List.mem_cons_self)
    obtain ⟨text, htext, -, hplain⟩ := hreferable column hcolumn
    have hnew : ColumnName.text text ∉ Mapping.names renamed := by
      rw [Mapping.names, List.map_append, List.nodup_append'] at hnodup
      exact fun hmem => hnodup.2.2 hmem (htext ▸ List.mem_cons_self)
    rw [htext] at hnodup ⊢
    have hnodupRest : (Mapping.names ((renamed ++ [(.text text, cell)]) ++ rest)).Nodup := by
      rw [List.append_assoc]
      exact hnodup
    have hrest := ih (fun name hname => hnames name (List.mem_cons_of_mem _ hname)) hnodupRest
    rw [List.append_assoc] at hrest
    rw [List.foldlM_cons]
    dsimp only
    rw [Schema.columnName_of_plain hcolumn htext hplain, Outcome.ok_bind,
      Mapping.put_of_notMem hnew]
    exact hrest

/-- Cells under names without dots stay under their names. -/
theorem bareNames_of_referable (hreferable : table.schema.Referable)
    {cells : Mapping ColumnName Cell}
    (hnames : ∀ name ∈ cells.names, name ∈ table.schema.columnNames)
    (hnodup : cells.names.Nodup) : table.bareNames cells = .ok cells :=
  foldlM_rename hreferable hnames hnodup

/-- For a column a stored row offers its cell. -/
theorem offeredFor_of_stored {row : Row} (hfits : row.Fits table.schema) {column : Column}
    (hcolumn : column ∈ table.schema.columns) :
    offeredFor (row.mapValues .value) column = .ok (row.cell column.name) := by
  rw [offeredFor, Mapping.get?_mapValues, hfits.get?_name hcolumn]
  rfl

/-- The cell that is made anew from a stored one is the same, but for a NULL in a column that counts
up. -/
theorem newCell_of_stored {row : Row} (hfits : row.Fits table.schema)
    (hadmitted : row.Admitted table.schema) {column : Column}
    (hcolumn : column ∈ table.schema.columns)
    (hcounted : ¬(column.autoIncrement && (row.cell column.name).isNull) = true) :
    table.newCell (row.mapValues .value) column = .ok (row.cell column.name) := by
  obtain ⟨hcoerce, hnotNull⟩ := hadmitted column hcolumn
  have hallowed : ¬(column.notNull && (row.cell column.name).isNull) = true := by
    intro hboth
    obtain ⟨hrefuses, hnull⟩ := Bool.and_eq_true_iff.mp hboth
    rw [hnotNull hrefuses] at hnull
    cases hnull
  rw [newCell, offeredFor_of_stored hfits hcolumn, Outcome.ok_bind, if_neg hcounted]
  exact Outcome.unless_eq_ok.mpr ⟨hallowed, hcoerce⟩

/-- A cell that is made anew from a NULL in a column that counts up is not NULL. -/
theorem newCell_of_null {row : Row} (hfits : row.Fits table.schema) {column : Column}
    (hcolumn : column ∈ table.schema.columns)
    (hnull : (column.autoIncrement && (row.cell column.name).isNull) = true) {v : Value}
    (h : table.newCell (row.mapValues .value) column = .ok v) : v.isNull = false := by
  rw [newCell, offeredFor_of_stored hfits hcolumn, Outcome.ok_bind, if_pos hnull] at h
  obtain ⟨-, hcoerce⟩ := Outcome.unless_eq_ok.mp h
  exact (coerce_idempotent hcoerce).2

section

variable (hreferable : table.schema.Referable) {row : Row} (hfits : row.Fits table.schema)
include hreferable hfits

/-- A row that is inserted anew comes under the names of its columns. -/
theorem bareNames_of_row :
    table.bareNames (row.mapValues .value) = .ok (row.mapValues .value) := by
  have hnames : Mapping.names (row.mapValues Cell.value) = table.schema.columnNames :=
    (Mapping.names_mapValues _ row).trans hfits.names_eq
  refine bareNames_of_referable hreferable (fun name hname => ?_) ?_
  · rw [hnames] at hname
    exact hname
  · rw [hnames]
    exact table.schema.nodup_columnNames

variable (hadmitted : row.Admitted table.schema)
include hadmitted

/-- A row that is inserted anew is stored at the next position as it was, but for a NULL in a column
that counts up. -/
theorem insert_refills {stored : Row} {next : Table} (h : table.insert row = .ok (stored, next)) :
    row.Refills table.schema stored ∧ stored.Fits table.schema ∧
      ∃ counters, next = { table.append stored with counters := counters } := by
  obtain ⟨hstored, -, hnext⟩ := insertCells_eq_ok h
  refine ⟨fun column hcolumn => ?_, hstored, hnext⟩
  obtain ⟨bare, hbare, h⟩ := Outcome.bind_eq_ok.mp h
  obtain ⟨new, hnew, h⟩ := Outcome.bind_eq_ok.mp h
  rw [bareNames_of_row hreferable hfits] at hbare
  cases hbare
  have hsame : new = stored := by
    split at h
    · cases h
    · exact congrArg Prod.fst (Except.ok.inj h)
  rw [hsame] at hnew
  have hcell := (newRow_eq_ok hnew).2 column hcolumn
  split
  · next hnull => exact newCell_of_null hfits hcolumn hnull hcell
  · next hcounted =>
    rw [newCell_of_stored hfits hadmitted hcolumn hcounted] at hcell
    exact (Except.ok.inj hcell).symm

/-- A row without a NULL in a column that counts up is inserted anew as it was, if no unique index
holds one of its keys. -/
theorem insert_of_counted (hcounted : row.Counted table.schema)
    (hnone : table.indexes.find? (·.conflicts row) = none) :
    ∃ next, table.insert row = .ok (row, next) := by
  have hnew : table.newRow (row.mapValues .value) = .ok row := by
    have hcells : List.Forall₂ (fun (column : Column) (entry : ColumnName × Value) =>
        (do return (column.name, ← table.newCell (row.mapValues .value) column) :
          Except Error (ColumnName × Value)) = .ok entry) table.schema.columns
        (table.schema.columns.map fun column => (column.name, row.cell column.name)) := by
      rw [List.forall₂_map_right_iff, List.forall₂_same]
      intro column hcolumn
      have hkept : ¬(column.autoIncrement && (row.cell column.name).isNull) = true := by
        intro hboth
        obtain ⟨hauto, hnull⟩ := Bool.and_eq_true_iff.mp hboth
        rw [hcounted column hcolumn hauto] at hnull
        cases hnull
      rw [newCell_of_stored hfits hadmitted hcolumn hkept]
      rfl
    rw [← hfits.eq_map] at hcells
    exact Outcome.mapM_eq_ok.mpr hcells
  rw [insert, insertCells, bareNames_of_row hreferable hfits, Outcome.ok_bind, hnew,
    Outcome.ok_bind, hnone]
  exact ⟨_, rfl⟩

end

/-! ## All rows -/

/-- Rows that can be inserted anew into a table: they fit its schema, and its columns take their
cells as they are. -/
def Replayable (schema : Schema) (rows : List Row) : Prop :=
  ∀ row ∈ rows, row.Fits schema ∧ row.Admitted schema

/-- A replay that succeeds has stored the rows as they were, but for NULLs in columns that count
up. -/
theorem replay_refills (hreferable : table.schema.Referable) {rows : List Row}
    (hrows : Replayable table.schema rows) {next : Table} (h : table.replay rows = .ok next) :
    next.schema = table.schema ∧ ∃ stored, next.rows = table.rows ++ stored.map some ∧
      List.Forall₂ (fun row new => row.Refills table.schema new ∧ new.Fits table.schema)
        rows stored := by
  induction rows generalizing table with
  | nil =>
    cases h
    exact ⟨rfl, [], by rw [List.map_nil, List.append_nil], .nil⟩
  | cons row rest ih =>
    obtain ⟨⟨hfits, hadmitted⟩, hrest⟩ := List.forall_mem_cons.mp hrows
    rw [replay, List.foldlM_cons] at h
    obtain ⟨mid, hmid, h⟩ := Outcome.bind_eq_ok.mp h
    obtain ⟨⟨new, after⟩, hinsert, hafter⟩ := Outcome.map_eq_ok.mp hmid
    obtain rfl : after = mid := hafter
    obtain ⟨hrefills, hnewFits, counters, heq⟩ := insert_refills hreferable hfits hadmitted hinsert
    have hmidSchema : after.schema = table.schema := by
      rw [heq]
      rfl
    have hmidRows : after.rows = table.rows ++ [some new] := by
      rw [heq]
      rfl
    rw [← hmidSchema] at hreferable hrest
    obtain ⟨hschema, stored, hstored, hall⟩ := ih hreferable hrest h
    rw [hmidSchema] at hschema hall
    rw [hmidRows] at hstored
    refine ⟨hschema, new :: stored, ?_, .cons ⟨hrefills, hnewFits⟩ hall⟩
    rw [hstored, List.map_cons, List.append_assoc, List.singleton_append]

/-- Rows of which no two share a key in the column of a unique index can be replayed, if none has a
NULL in a column that counts up. -/
theorem exists_replay (hconsistent : table.Consistent) (hreferable : table.schema.Referable)
    {before rows : List Row} (hbefore : table.rows = before.map some)
    (hrows : Replayable table.schema rows)
    (hcounted : ∀ row ∈ rows, row.Counted table.schema)
    (hapart : ∀ outline ∈ table.outlines, outline.2.2 = true →
      ¬Shares (rowAt ((before ++ rows).map some)) outline.2.1) :
    ∃ next, table.replay rows = .ok next := by
  induction rows generalizing table before with
  | nil => exact ⟨table, rfl⟩
  | cons row rest ih =>
    obtain ⟨⟨hfits, hadmitted⟩, hrest⟩ := List.forall_mem_cons.mp hrows
    obtain ⟨hrowCounted, hrestCounted⟩ := List.forall_mem_cons.mp hcounted
    have hlength : table.rows.length = before.length := by rw [hbefore, List.length_map]
    have hnone : table.indexes.find? (·.conflicts row) = none := by
      refine List.find?_eq_none.mpr fun index hindex hconflict => ?_
      obtain ⟨hunique, hnull, p, other, hother, hsame⟩ :=
        (hconsistent.conflicts_iff hindex hfits).mp hconflict
      have houtline : index.outline ∈ table.outlines := List.mem_map_of_mem hindex
      refine hapart index.outline houtline hunique ⟨before.length, p, row, other, ?_, ?_, ?_, hnull,
        hsame⟩
      · rw [row?_eq] at hother
        exact hlength ▸ (Nat.ne_of_lt (lt_length_of_rowAt hother)).symm
      · rw [rowAt_map_some, List.getElem?_append_right (Nat.le_refl _), Nat.sub_self]
        rfl
      · rw [row?_eq, hbefore, rowAt_map_some] at hother
        obtain ⟨hp, -⟩ := List.getElem?_eq_some_iff.mp hother
        rw [rowAt_map_some, List.getElem?_append_left hp, hother]
    obtain ⟨next, hinsert⟩ := insert_of_counted hreferable hfits hadmitted hrowCounted hnone
    obtain ⟨-, -, counters, rfl⟩ := insert_refills hreferable hfits hadmitted hinsert
    have hnext := (hconsistent.append hfits).with_counters counters
    have hnextRows : (table.append row).rows = (before ++ [row]).map some := by
      rw [append, hbefore, List.map_append]
      rfl
    rw [List.append_cons] at hapart
    have houtlines := table.outlines_append row
    obtain ⟨last, hlast⟩ := ih hnext hreferable hnextRows hrest hrestCounted fun outline houtline =>
      hapart outline (houtlines ▸ houtline)
    refine ⟨last, ?_⟩
    rw [replay, List.foldlM_cons, hinsert]
    exact hlast

/-- The live rows of a reachable table can be inserted anew. -/
theorem Reachable.replayable (h : table.Reachable) : Replayable table.schema table.liveRows := by
  intro row hrow
  exact ⟨h.consistent.fits_live hrow, h.admits row hrow⟩

end Table

end RelStore
