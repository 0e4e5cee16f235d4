import RelStore.Proofs.Coercion
import RelStore.Proofs.KeyOrder
import RelStore.Proofs.Mapping
import RelStore.Proofs.Outcome

/-!
# Rows that fit their schema

Conversion to a column type leaves NULL or a value of the type (`coerce_takes`), and in particular
no float that is infinite or not a number. So a row of a table has the columns of the schema in order,
each with a key of the column's type (`Row.Fits`): new rows fit (`Table.newRow_fits`), and so do
rows to which new values have been assigned (`Row.Fits.putAll`).
-/

namespace RelStore

/-! ## Converted values -/

/-- What may stand in a column of a type: NULL or a value of the type. A float is a finite one. -/
inductive DataType.Takes : DataType → Value → Prop where
  /-- NULL may stand in every column. -/
  | null (type : DataType) : Takes type .null
  /-- An integer. -/
  | int (n : Int) : Takes .int (.int n)
  /-- A finite float. -/
  | float (negative : Bool) (mantissa exponent : Nat)
      (canonical : Binary64.Canonical mantissa exponent) :
      Takes .float (.float (.finite negative mantissa exponent canonical))
  /-- A truth value. -/
  | boolean (b : Bool) : Takes .boolean (.bool b)
  /-- A text. -/
  | string (s : Text) : Takes .string (.string s)

/-- A finite float may stand in a column of floats. -/
theorem DataType.takes_float {x : Binary64} (h : x.isFinite = true) :
    DataType.float.Takes (.float x) := by
  cases x with
  | finite negative mantissa exponent canonical => exact .float negative mantissa exponent canonical
  | infinite negative => exact absurd h Bool.false_ne_true
  | nan => exact absurd h Bool.false_ne_true

/-- What may stand in a column is a key of its type. -/
theorem DataType.Takes.mem_keys {type : DataType} {v : Value} (h : type.Takes v) :
    v ∈ type.keys := by
  cases h with
  | null => exact type.null_mem_keys
  | _ => exact ⟨rfl, nofun⟩

/-- A value converted to a column type may stand in a column of the type. -/
theorem coerce_takes {type : DataType} {v w : Value} (h : coerce type v = .ok w) :
    type.Takes w := by
  rcases coerce_eq_ok_iff.mp h with ⟨-, rfl⟩ | ⟨-, -, hconverted⟩
  · exact .null type
  · -- The type decides into what the value has been made.
    cases type with
    | int =>
      obtain ⟨n, -, rfl⟩ := Option.map_eq_some_iff.mp hconverted
      exact .int n
    | float =>
      obtain ⟨x, hx, rfl⟩ := Option.map_eq_some_iff.mp hconverted
      exact DataType.takes_float (Value.isFinite_of_toFloat? hx)
    | boolean =>
      obtain ⟨b, -, rfl⟩ := Option.map_eq_some_iff.mp hconverted
      exact .boolean b
    | string =>
      obtain rfl : Value.string v.render = w := Option.some.inj hconverted
      exact .string _

/-- A value converted to a column type is a key of the type. -/
theorem coerce_mem_keys {type : DataType} {v w : Value} (h : coerce type v = .ok w) :
    w ∈ type.keys := (coerce_takes h).mem_keys

/-! ## Columns by name -/

namespace Schema

variable {schema : Schema}

/-- No two columns have the same name. -/
theorem nodup_columnNames (schema : Schema) : schema.columnNames.Nodup := by
  have hdistinct := schema.distinct
  have hmap : schema.columns.map (·.name.canonical) =
      schema.columnNames.map ColumnName.canonical := by
    rw [columnNames, List.map_map]
    rfl
  rw [hmap] at hdistinct
  exact hdistinct.of_map _

/-- Columns of the same name are the same. -/
theorem column_eq_of_name {column other : Column} (hcolumn : column ∈ schema.columns)
    (hother : other ∈ schema.columns) (hname : column.name = other.name) : column = other :=
  List.inj_on_of_nodup_map schema.nodup_columnNames hcolumn hother hname

/-- A column that is found by a name has the name. -/
theorem column?_eq_some {name : ColumnName} {column : Column}
    (h : schema.column? name = some column) : column ∈ schema.columns ∧ column.name = name :=
  ⟨List.mem_of_find?_eq_some h, by simpa using List.find?_some h⟩

/-- Every column is found by its name. -/
theorem column?_name {column : Column} (h : column ∈ schema.columns) :
    schema.column? column.name = some column := by
  cases hfind : schema.column? column.name with
  | none =>
    have hnot := List.find?_eq_none.mp hfind column h
    exact absurd (beq_self_eq_true _) hnot
  | some other =>
    obtain ⟨hother, hname⟩ := column?_eq_some hfind
    rw [column_eq_of_name hother h hname]

/-- A schema has every one of its columns. -/
theorem hasColumn_name {column : Column} (h : column ∈ schema.columns) :
    schema.hasColumn column.name = true := by
  rw [hasColumn, column?_name h]
  rfl

/-- A reference is a bare column name, or one that is qualified by the table. -/
theorem columnName_eq_ok {reference : ColumnName} {name : Text}
    (h : schema.columnName reference = .ok name) :
    ∃ text, reference = .text text ∧ schema.hasColumn name = true ∧
      (splitQualified? text = none ∧ text = name ∨
        splitQualified? text = some (schema.table, name)) := by
  unfold columnName at h
  split at h
  · next text =>
    unfold bareName at h
    dsimp only at h
    split at h
    · next hsplit =>
      split at h
      · next hhas =>
        cases h
        exact ⟨_, rfl, hhas, .inl ⟨hsplit, rfl⟩⟩
      · cases h
    · next table bare hsplit =>
      split at h
      · next hboth =>
        obtain ⟨rfl, hhas⟩ := hboth
        cases h
        exact ⟨_, rfl, hhas, .inr hsplit⟩
      · cases h
  · cases h

/-- The name that a reference leads to is the name of a column. -/
theorem exists_column_of_columnName {reference : ColumnName} {name : Text}
    (h : schema.columnName reference = .ok name) :
    ∃ column ∈ schema.columns, column.name = .text name := by
  obtain ⟨_, -, hhas, -⟩ := columnName_eq_ok h
  obtain ⟨column, hcolumn⟩ := Option.isSome_iff_exists.mp hhas
  exact ⟨column, column?_eq_some hcolumn⟩

end Schema

/-! ## Rows -/

/-- A row has the columns of a schema in order, each with a key of the column's type. -/
structure Row.Fits (schema : Schema) (row : Row) : Prop where
  /-- The names are those of the columns. -/
  names_eq : row.names = schema.columnNames
  /-- The cell of every column is a key of its type. -/
  cell_mem : ∀ column ∈ schema.columns, row.cell column.name ∈ column.type.keys

/-- No name comes twice in a row that fits. -/
theorem Row.Fits.nodup_names {schema : Schema} {row : Row} (h : row.Fits schema) :
    row.names.Nodup :=
  h.names_eq ▸ schema.nodup_columnNames

/-- A row that fits has an entry for every column. -/
theorem Row.Fits.get?_name {schema : Schema} {row : Row} (h : row.Fits schema) {column : Column}
    (hcolumn : column ∈ schema.columns) :
    Mapping.get? row column.name = some (row.cell column.name) := by
  have hmem : column.name ∈ row.names := by
    rw [h.names_eq]
    exact List.mem_map_of_mem hcolumn
  obtain ⟨v, hv⟩ := Option.isSome_iff_exists.mp (Mapping.isSome_get?_iff.mpr hmem)
  rw [Row.cell, hv]
  rfl

/-- What a row that fits has under a name is the cell of the column of the name. -/
theorem Row.Fits.get?_eq_some_iff {schema : Schema} {row : Row} (h : row.Fits schema)
    {name : ColumnName} {v : Value} :
    Mapping.get? row name = some v ↔ schema.hasColumn name = true ∧ v = row.cell name := by
  constructor
  · intro hget
    have hmem : name ∈ row.names := by
      rw [← Mapping.isSome_get?_iff, hget]
      rfl
    rw [h.names_eq, Schema.columnNames, List.mem_map] at hmem
    obtain ⟨column, hcolumn, rfl⟩ := hmem
    refine ⟨Schema.hasColumn_name hcolumn, ?_⟩
    rw [Row.cell, hget]
    rfl
  · rintro ⟨hhas, rfl⟩
    obtain ⟨column, hfound⟩ := Option.isSome_iff_exists.mp hhas
    obtain ⟨hcolumn, rfl⟩ := Schema.column?_eq_some hfound
    exact h.get?_name hcolumn

/-- The cell of a column whose name is a text is a key of its type. -/
theorem Row.Fits.cell_mem_of_name {schema : Schema} {row : Row} (hrow : row.Fits schema)
    {column : Column} (hcolumn : column ∈ schema.columns) {name : Text}
    (hname : column.name = .text name) : row.cell name ∈ column.type.keys := by
  have hcell := hrow.cell_mem column hcolumn
  rw [hname] at hcell
  exact hcell

namespace Table

/-- Every cell of a new row is made for its column. -/
theorem newRow_eq_ok {table : Table} {cells : Mapping ColumnName Cell} {row : Row}
    (h : table.newRow cells = .ok row) :
    row.names = table.schema.columnNames ∧
      ∀ column ∈ table.schema.columns, table.newCell cells column = .ok (row.cell column.name) := by
  -- Column by column, the entry has the name of the column and the cell made for it.
  have hall : List.Forall₂ (fun (column : Column) (entry : ColumnName × Value) =>
      column.name = entry.1 ∧ table.newCell cells column = .ok entry.2)
      table.schema.columns row := by
    refine (Outcome.mapM_eq_ok.mp h).imp fun column entry hentry => ?_
    obtain ⟨v, hv, hentry⟩ := Outcome.bind_eq_ok.mp hentry
    cases hentry
    exact ⟨rfl, hv⟩
  have hnames : row.names = table.schema.columnNames := by
    rw [Mapping.names, Schema.columnNames, eq_comm, ← List.forall₂_eq_eq_eq,
      List.forall₂_map_left_iff, List.forall₂_map_right_iff]
    exact hall.imp fun _ _ h => h.1
  refine ⟨hnames, fun column hcolumn => ?_⟩
  obtain ⟨i, hi, rfl⟩ := List.mem_iff_getElem.mp hcolumn
  have hi' : i < row.length := hall.length_eq ▸ hi
  obtain ⟨hname, hcell⟩ := hall.get hi hi'
  rw [List.get_eq_getElem, List.get_eq_getElem] at hname hcell
  -- The names are distinct, so the entry at the place of the column is found by its name.
  have hget : Mapping.get? row table.schema.columns[i].name = some row[i].2 := by
    refine Mapping.get?_of_mem (hnames ▸ table.schema.nodup_columnNames) ?_
    rw [hname]
    exact List.getElem_mem hi'
  rw [Row.cell, hget]
  exact hcell

/-- A new row fits the schema of its table. -/
theorem newRow_fits {table : Table} {cells : Mapping ColumnName Cell} {row : Row}
    (h : table.newRow cells = .ok row) : row.Fits table.schema := by
  obtain ⟨hnames, hcells⟩ := newRow_eq_ok h
  refine ⟨hnames, fun column hcolumn => ?_⟩
  have hcell := hcells column hcolumn
  -- Whatever was offered, the conversion to the type of the column comes last.
  unfold newCell at hcell
  obtain ⟨offered, -, hrest⟩ := Outcome.bind_eq_ok.mp hcell
  exact coerce_mem_keys (Outcome.unless_eq_ok.mp hrest).2

end Table

/-! ## Assigned values -/

/-- New values for some columns of a schema, each a key of the column's type. -/
structure Row.Assigns (schema : Schema) (assigned : Row) : Prop where
  /-- No column is assigned twice. -/
  nodup : assigned.names.Nodup
  /-- Every value is for a column and a key of its type. -/
  exists_column : ∀ entry ∈ assigned, ∃ column ∈ schema.columns,
    column.name = entry.1 ∧ entry.2 ∈ column.type.keys

/-- The values of an update are for columns of the table. -/
theorem Table.assignments_assigns {table : Table} {cells : Mapping Text Cell} {assigned : Row}
    (h : table.assignments cells = .ok assigned) : assigned.Assigns table.schema := by
  have hnil : Row.Assigns table.schema [] := ⟨List.nodup_nil, by simp⟩
  -- Each step puts a converted value under the name of a column.
  refine Outcome.foldlM_invariant (Row.Assigns table.schema) ?_ hnil h
  rintro previous ⟨reference, cell⟩ - next ⟨hnodup, hcolumns⟩ hnext
  obtain ⟨name, -, hnext⟩ := Outcome.bind_eq_ok.mp hnext
  split at hnext
  · cases hnext
  · next column hcolumn =>
    obtain ⟨hmem, hname⟩ := Schema.column?_eq_some hcolumn
    obtain ⟨v, -, hnext⟩ := Outcome.bind_eq_ok.mp hnext
    obtain ⟨-, hnext⟩ := Outcome.unless_eq_ok.mp hnext
    obtain ⟨w, hw, hnext⟩ := Outcome.bind_eq_ok.mp hnext
    cases hnext
    refine ⟨Mapping.nodup_names_put hnodup _ _, fun entry hentry => ?_⟩
    rcases Mapping.mem_put hentry with rfl | hentry
    · exact ⟨column, hmem, hname, coerce_mem_keys hw⟩
    · exact hcolumns entry hentry

namespace Row

variable {schema : Schema} {row assigned : Row}

/-- After an assignment a cell is the new value, if there is one. -/
theorem cell_putAll (row : Row) (h : assigned.Assigns schema) (column : ColumnName) :
    cell (row.putAll assigned) column = (assigned.get? column).getD (row.cell column) := by
  rw [cell, Mapping.get?_putAll row h.nodup]
  cases assigned.get? column <;> rfl

/-- A row that fits does so after an assignment. -/
theorem Fits.putAll (hrow : row.Fits schema) (h : assigned.Assigns schema) :
    Fits schema (row.putAll assigned) := by
  constructor
  · rw [Mapping.names_putAll row, hrow.names_eq]
    intro entry hentry
    obtain ⟨column, hcolumn, hname, -⟩ := h.exists_column entry hentry
    rw [hrow.names_eq, ← hname]
    exact List.mem_map_of_mem hcolumn
  · intro column hcolumn
    rw [cell_putAll row h]
    cases hget : Mapping.get? assigned column.name with
    | none => exact hrow.cell_mem column hcolumn
    | some v =>
      obtain ⟨other, hother, hname, hv⟩ := h.exists_column _ (Mapping.mem_of_get? hget)
      rw [← Schema.column_eq_of_name hother hcolumn hname]
      exact hv

end Row

end RelStore
