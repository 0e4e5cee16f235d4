import RelStore.Proofs.Database.History
import RelStore.Proofs.Table.Remaking
import RelStore.Snapshot

/-!
# Loading a snapshot that was taken

The snapshot of a table gives back its columns (`toColumns_ofColumns`) and offers its rows as they
are (`loadRow_ofRow`). So loading the snapshot of a database makes its tables anew, one after the
other (`Database.ofSnapshot_toSnapshot`).
-/

namespace RelStore

namespace Snapshot

/-! ## Columns -/

/-- The type of a name is found under the name. -/
theorem ofName?_name (type : DataType) : DataType.ofName? type.name = some type := by
  cases type <;> rfl

/-- A column is defined by its own flags. -/
theorem define_flags (column : Column) :
    Column.define column.name column.type column.primaryKey column.unique column.notNull
      column.autoIncrement = column := by
  obtain ⟨name, type, primaryKey, unique, notNull, autoIncrement, hunique, hnotNull⟩ := column
  cases primaryKey with
  | false => rfl
  | true =>
    obtain rfl : unique = true := hunique rfl
    obtain rfl : notNull = true := hnotNull rfl
    rfl

/-- A column whose name is a text that is not empty comes back from its snapshot. -/
theorem toColumn?_ofColumn {column : Column} {name : Text} (hname : column.name = .text name)
    (hnonempty : name ≠ []) : toColumn? (ofColumn column) = .ok (some column) := by
  have htruthy : (Json.string name).isTruthy = true := by
    cases name with
    | nil => exact absurd rfl hnonempty
    | cons c rest => rfl
  have hnameMember : (ofColumn column).member? "name" = some (.string name) := by
    have hmember : (ofColumn column).member? "name" = some (.ofColumnName column.name) := rfl
    rw [hmember, hname]
    rfl
  have htype : (ofColumn column).member? "type" = some (.string column.type.name) := rfl
  have hhead : columnHead (ofColumn column) = .ok (.string name, column.type) := by
    rw [columnHead, hnameMember, htype]
    dsimp only [Option.getD_some]
    rw [if_neg (by rw [htruthy]; exact Bool.noConfusion), ofName?_name]
    rfl
  have hflags : Column.define (.text name) column.type (flag (ofColumn column) "primaryKey")
      (flag (ofColumn column) "unique") (flag (ofColumn column) "notNull")
      (flag (ofColumn column) "autoIncrement") = column := by
    have hdefine := define_flags column
    rw [hname] at hdefine
    exact hdefine
  have hobject : toColumn? (ofColumn column) = (do
      let head ← columnHead (ofColumn column)
      return head.1.toColumnName?.map fun name =>
        .define name head.2 (flag (ofColumn column) "primaryKey") (flag (ofColumn column) "unique")
          (flag (ofColumn column) "notNull") (flag (ofColumn column) "autoIncrement")) := rfl
  rw [hobject, hhead, Outcome.ok_bind]
  exact congrArg (fun column => Except.ok (some column)) hflags

/-- Columns with names that are texts and not empty come back from the snapshot of their table. -/
theorem toColumns_ofColumns {columns : List Column} (table shown : Text)
    (hnamed : ∀ column ∈ columns, ∃ name, column.name = .text name ∧ name ≠ []) :
    toColumns table (.object [("name", .string shown),
      ("columns", .array (columns.map ofColumn))]) = .ok columns := by
  have hitems : (columns.map ofColumn).mapM toColumn? = .ok (columns.map some) := by
    refine Outcome.mapM_eq_ok.mpr ?_
    rw [List.forall₂_map_left_iff, List.forall₂_map_right_iff, List.forall₂_same]
    intro column hcolumn
    obtain ⟨name, hname, hnonempty⟩ := hnamed column hcolumn
    exact toColumn?_ofColumn hname hnonempty
  have hall : (columns.map some).mapM id = some (columns.map id) :=
    Outcome.mapM_map fun _ _ => rfl
  have hcolumns : toColumns table (.object [("name", .string shown),
      ("columns", .array (columns.map ofColumn))]) =
      (columns.map ofColumn).mapM toColumn? >>= namedColumns table := rfl
  rw [hcolumns, hitems, Outcome.ok_bind, namedColumns, hall, List.map_id]

/-! ## Rows -/

/-- A value comes back from its JSON form. -/
theorem toCell_ofValue (v : Value) : (Json.ofValue v).toCell = .value v := by
  cases v <;> rfl

/-- A row under names that are texts is inserted as it is. -/
theorem loadRow_ofRow {table next : Table} {row : Row}
    (htexts : ∀ name ∈ row.names, ∃ text, name = .text text) :
    loadRow table (Json.ofRow row) = .ok next ↔ Prod.snd <$> table.insert row = .ok next := by
  have hcells : ((row.map fun (entry : ColumnName × Value) =>
      (entry.1.memberName, Json.ofValue entry.2)).map fun (member : Text × Json) =>
        (ColumnName.text member.1, member.2.toCell)) = row.mapValues Cell.value := by
    rw [List.map_map, Mapping.mapValues]
    refine List.map_congr_left fun entry hentry => ?_
    obtain ⟨name, v⟩ := entry
    obtain ⟨text, htext⟩ := htexts name (List.mem_map_of_mem hentry)
    obtain rfl : name = .text text := htext
    rw [Function.comp_apply, toCell_ofValue]
    rfl
  have hload : loadRow table (Json.ofRow row) =
      (Prod.snd <$> table.insert row).mapError .statement := by
    rw [Table.insert, ← hcells]
    unfold loadRow Json.ofRow
    dsimp only
    generalize table.insertCells _ = outcome
    cases outcome <;> rfl
  rw [hload]
  cases table.insert row with
  | error error =>
    constructor
    · intro h
      cases h
    · intro h
      cases h
  | ok outcome => exact ⟨fun h => congrArg Except.ok (Except.ok.inj h),
      fun h => congrArg Except.ok (Except.ok.inj h)⟩

/-- Rows under names that are texts are inserted as they are. -/
theorem foldlM_loadRow {table next : Table} {rows : List Row}
    (htexts : ∀ row ∈ rows, ∀ name ∈ row.names, ∃ text, name = .text text) :
    (rows.map Json.ofRow).foldlM loadRow table = .ok next ↔ table.replay rows = .ok next := by
  induction rows generalizing table with
  | nil => exact ⟨fun h => congrArg Except.ok (Except.ok.inj h),
      fun h => congrArg Except.ok (Except.ok.inj h)⟩
  | cons row rest ih =>
    obtain ⟨hrow, hrest⟩ := List.forall_mem_cons.mp htexts
    rw [List.map_cons, List.foldlM_cons, Table.replay, List.foldlM_cons, Outcome.bind_eq_ok,
      Outcome.bind_eq_ok]
    exact exists_congr fun mid => and_congr (loadRow_ofRow hrow) (ih hrest)

/-! ## Tables -/

/-- A new table that has taken the last place is replaced there. -/
theorem setTable_append {db : Database} {created filled : Table}
    (hname : created.name = filled.name) (hnew : filled.name ∉ db.tableNames) :
    ({ db with tables := db.tables ++ [created] } : Database).setTable filled =
      { db with tables := db.tables ++ [filled] } := by
  have hkept : ∀ old ∈ db.tables, (if old.name == filled.name then filled else old) = old := by
    intro old hold
    refine if_neg fun heq => hnew ?_
    rw [← beq_iff_eq.mp heq]
    exact List.mem_map_of_mem hold
  have hlast : (if created.name == filled.name then filled else created) = filled :=
    if_pos (beq_iff_eq.mpr hname)
  have htables : ((db.tables ++ [created]).map fun old =>
      if old.name == filled.name then filled else old) = db.tables ++ [filled] := by
    rw [List.map_append, List.map_congr_left hkept, List.map_id', List.map_singleton, hlast]
  rw [Database.setTable, htables]

/-- Loading the snapshot of a table is creating it from its columns and filling it with its rows. -/
theorem loadTable_ofTable_eq (db : Database) (table : Table) :
    loadTable db table.name (ofTable table) = (do
      let columns ← toColumns table.name (.object [("name", .string table.name),
        ("columns", .array (table.schema.columns.map ofColumn))])
      match db.createTable table.name columns with
      | .error error => throw (.statement error)
      | .ok (created, db) =>
        return db.setTable
          (← (table.liveRows.map Json.ofRow).foldlM loadRow created).restoreCounters) := rfl

/-- A table of a snapshot is created from its columns and filled with its rows. -/
theorem loadTable_eq {db : Database} {table created : Table}
    (hreferable : table.schema.Referable)
    (hcreate : db.createTable table.name table.schema.columns =
      .ok (created, { db with tables := db.tables ++ [created] })) :
    loadTable db table.name (ofTable table) = (do
      let filled ← (table.liveRows.map Json.ofRow).foldlM loadRow created
      return ({ db with tables := db.tables ++ [created] } : Database).setTable
        filled.restoreCounters) := by
  have hcolumns : toColumns table.name (.object [("name", .string table.name),
      ("columns", .array (table.schema.columns.map ofColumn))]) = .ok table.schema.columns := by
    refine toColumns_ofColumns _ _ fun column hcolumn => ?_
    obtain ⟨name, hname, hnonempty, -⟩ := hreferable column hcolumn
    exact ⟨name, hname, hnonempty⟩
  rw [loadTable_ofTable_eq, hcolumns, Outcome.ok_bind, hcreate]

/-- A table of a snapshot is made anew and takes the last place. -/
theorem loadTable_ofTable {db next : Database} {table : Table} (hreachable : table.Reachable)
    (hreferable : table.schema.Referable) (hnew : table.name ∉ db.tableNames) :
    loadTable db table.name (ofTable table) = .ok next ↔
      ∃ made, table.remade db.order = .ok made ∧
        next = { db with tables := db.tables ++ [made] } := by
  obtain ⟨created, hcreated⟩ := Table.exists_create_of_referable hreferable db.order
  have hcreate : db.createTable table.name table.schema.columns =
      .ok (created, { db with tables := db.tables ++ [created] }) := by
    refine Outcome.unless_eq_ok.mpr ⟨fun hsome => hnew ?_, ?_⟩
    · obtain ⟨old, hold, hname⟩ := List.find?_isSome.mp hsome
      exact List.mem_map.mpr ⟨old, hold, beq_iff_eq.mp hname⟩
    · rw [hcreated]
      rfl
  have htexts : ∀ row ∈ table.liveRows, ∀ name ∈ row.names, ∃ text, name = .text text := by
    intro row hrow name hname
    rw [(hreachable.replayable row hrow).1.names_eq] at hname
    obtain ⟨column, hcolumn, rfl⟩ := List.mem_map.mp hname
    obtain ⟨text, htext, -, -⟩ := hreferable column hcolumn
    exact ⟨text, htext⟩
  have hplaced : ∀ made, table.remade db.order = .ok made →
      ({ db with tables := db.tables ++ [created] } : Database).setTable made =
        { db with tables := db.tables ++ [made] } := by
    intro made hmade
    obtain ⟨-, hschema, -⟩ := hreachable.remade_refills hreferable hmade
    have hname : made.name = table.name := congrArg Schema.table hschema
    have hcreatedName : created.name = table.name := Table.name_of_create hcreated
    exact setTable_append (hcreatedName.trans hname.symm) (hname ▸ hnew)
  rw [loadTable_eq hreferable hcreate, Outcome.bind_eq_ok]
  constructor
  · rintro ⟨filled, hfilled, hnext⟩
    have hmade : table.remade db.order = .ok filled.restoreCounters :=
      (Table.remade_eq_ok hcreated).mpr ⟨filled, (foldlM_loadRow htexts).mp hfilled, rfl⟩
    refine ⟨filled.restoreCounters, hmade, ?_⟩
    rw [← hplaced _ hmade]
    exact (Except.ok.inj hnext).symm
  · rintro ⟨made, hmade, rfl⟩
    obtain ⟨filled, hfilled, rfl⟩ := (Table.remade_eq_ok hcreated).mp hmade
    exact ⟨filled, (foldlM_loadRow htexts).mpr hfilled, congrArg Except.ok (hplaced _ hmade)⟩

/-- The tables of a snapshot are made anew and take the last places in their order. -/
theorem foldlM_loadTable {db next : Database} {tables : List Table}
    (hreachable : ∀ table ∈ tables, table.Reachable)
    (hreferable : ∀ table ∈ tables, table.schema.Referable)
    (hnodup : (db.tableNames ++ tables.map Table.name).Nodup) :
    (tables.map fun table => (table.name, ofTable table)).foldlM
      (fun db (entry : Text × Json) => loadTable db entry.1 entry.2) db = .ok next ↔
      ∃ made, List.Forall₂ (fun table new => table.remade db.order = .ok new) tables made ∧
        next = { db with tables := db.tables ++ made } := by
  induction tables generalizing db with
  | nil =>
    have hsame : ({ db with tables := db.tables ++ [] } : Database) = db := by
      rw [List.append_nil]
    constructor
    · intro h
      exact ⟨[], .nil, by rw [hsame]; exact (Except.ok.inj h).symm⟩
    · rintro ⟨made, hmade, rfl⟩
      rw [List.forall₂_nil_left_iff.mp hmade, hsame]
      rfl
  | cons table rest ih =>
    obtain ⟨htable, hrest⟩ := List.forall_mem_cons.mp hreachable
    obtain ⟨htableNamed, hrestNamed⟩ := List.forall_mem_cons.mp hreferable
    have hnew : table.name ∉ db.tableNames := by
      rw [List.nodup_append'] at hnodup
      exact fun hmem => hnodup.2.2 hmem List.mem_cons_self
    rw [List.map_cons, List.append_cons] at hnodup
    -- A table that is made anew keeps the name, so the names stay different.
    have hafter : ∀ made, table.remade db.order = .ok made →
        (({ db with tables := db.tables ++ [made] } : Database).tableNames ++
          rest.map Table.name).Nodup := by
      intro made hmade
      obtain ⟨-, hschema, -⟩ := htable.remade_refills htableNamed hmade
      have hname : made.name = table.name := congrArg Schema.table hschema
      rw [Database.tableNames, List.map_append, List.map_singleton, hname]
      exact hnodup
    rw [List.map_cons, List.foldlM_cons, Outcome.bind_eq_ok]
    constructor
    · rintro ⟨mid, hmid, h⟩
      obtain ⟨made, hmade, rfl⟩ := (loadTable_ofTable htable htableNamed hnew).mp hmid
      obtain ⟨later, hlater, rfl⟩ := (ih hrest hrestNamed (hafter made hmade)).mp h
      refine ⟨made :: later, .cons hmade hlater, ?_⟩
      rw [List.append_cons db.tables made later]
    · rintro ⟨all, hall, rfl⟩
      obtain ⟨made, later, hmade, hlater, rfl⟩ := List.forall₂_cons_left_iff.mp hall
      refine ⟨_, (loadTable_ofTable htable htableNamed hnew).mpr ⟨made, hmade, rfl⟩, ?_⟩
      refine (ih hrest hrestNamed (hafter made hmade)).mpr ⟨later, hlater, ?_⟩
      rw [List.append_cons db.tables made later]

end Snapshot

/-! ## Databases -/

/-- The snapshot of a database is loaded by making its tables anew in their order. -/
theorem Database.ofSnapshot_toSnapshot {db fresh restored : Database} {name : Text} {order : Int}
    (hsound : db.Sound) (hreferable : ∀ table ∈ db.tables, table.schema.Referable)
    (hfresh : create name order = .ok fresh) :
    ofSnapshot db.toSnapshot name order = .ok restored ↔
      ∃ made, List.Forall₂ (fun table new => table.remade fresh.order = .ok new) db.tables made ∧
        restored = { fresh with tables := made } := by
  have hnone := tables_of_create hfresh
  have hload : ofSnapshot db.toSnapshot name order =
      (db.tables.map fun table => (table.name, Snapshot.ofTable table)).foldlM
        (fun db (entry : Text × Json) => Snapshot.loadTable db entry.1 entry.2) fresh := by
    rw [ofSnapshot, createFor, hfresh]
    rfl
  have hnodup : (fresh.tableNames ++ db.tables.map Table.name).Nodup := by
    rw [tableNames, hnone]
    exact hsound.nodup
  rw [hload, Snapshot.foldlM_loadTable hsound.reachable hreferable hnodup, hnone]
  exact Iff.rfl

end RelStore
