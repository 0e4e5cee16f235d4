import RelStore.Proofs.Database.Actions
import RelStore.Proofs.Sql.WellRead

/-!
# Histories of a database

A database is reachable when an empty one becomes it by statements and by operations on its tables,
of which each may fail (`Database.Reachable`). They are carried out step by step, and what has been
changed by one that fails stays changed. Whatever happens to a sound database, it is one of four
changes (`Database.Change`): nothing, operations on one table, a new table or a table less. These
keep it sound, so the tables of a reachable database have different names and are reachable
(`Reachable.sound`).
-/

namespace RelStore

namespace Database

variable {db next : Database}

/-! ## Tables by name -/

/-- A table is added under a name that no table has. -/
theorem createTable_eq_ok {name : Text} {columns : List Column} {table : Table}
    (h : db.createTable name columns = .ok (table, next)) :
    name ∉ db.tableNames ∧ Table.create name columns db.order.degree = .ok table ∧
      next = { db with tables := db.tables ++ [table] } := by
  obtain ⟨hnew, h⟩ := Outcome.unless_eq_ok.mp h
  obtain ⟨created, hcreated, h⟩ := Outcome.bind_eq_ok.mp h
  cases h
  refine ⟨fun hmem => hnew ?_, hcreated, rfl⟩
  obtain ⟨old, hold, hname⟩ := List.mem_map.mp hmem
  exact List.find?_isSome.mpr ⟨old, hold, beq_iff_eq.mpr hname⟩

/-- A table is dropped by leaving out the one of its name. -/
theorem dropTable_eq_ok {name : Text} (h : db.dropTable name = .ok next) :
    next = { db with tables := db.tables.filter fun table => table.name != name } := by
  obtain ⟨_, -, h⟩ := Outcome.bind_eq_ok.mp h
  exact (Except.ok.inj h).symm

/-! ## Changes -/

/-- What may become of a database whose new tables have columns of some kind. -/
inductive Change (kind : List Column → Prop) (db : Database) : Database → Prop where
  /-- It stays as it is. -/
  | none : Change kind db db
  /-- Operations are carried out on a table. -/
  | alter {name : Text} {table : Table} (htable : db.table name = .ok table)
      (operations : List Table.Operation) : Change kind db (db.setTable (table.run operations))
  /-- A table is added. -/
  | create {name : Text} {columns : List Column} {table : Table} {next : Database}
      (hcolumns : kind columns) (hcreate : db.createTable name columns = .ok (table, next)) :
      Change kind db next
  /-- A table is dropped. -/
  | drop {name : Text} {next : Database} (hdrop : db.dropTable name = .ok next) :
      Change kind db next

/-- Rows that are appended until one fails are appended by insertions. -/
theorem exists_run_of_insertRows (columns : List Text) {table : Table} (h : table.Consistent)
    (rows : List (List Value)) :
    ∃ operations, (insertRows columns table rows).2.1 = table.run operations := by
  induction rows generalizing table with
  | nil => exact ⟨[], rfl⟩
  | cons values rest ih =>
    rw [insertRows]
    split
    · exact ⟨[], rfl⟩
    · next row after hinsert =>
      obtain ⟨cells, -, hinsert⟩ := Outcome.bind_eq_ok.mp hinsert
      have happly : table.apply (.insert (cells.mapValues .value)) = .ok after :=
        Outcome.map_eq_ok.mpr ⟨_, hinsert, rfl⟩
      obtain ⟨operations, hoperations⟩ := ih (h.of_apply happly).1
      refine ⟨.insert (cells.mapValues .value) :: operations, ?_⟩
      rw [Table.run_cons, h.run_of_apply happly, ← hoperations]

/-- An operation that succeeds on a table is a change. -/
theorem Sound.change_of_apply {kind : List Column → Prop} (h : db.Sound) {name : Text}
    {table after : Table} {operation : Table.Operation} (htable : db.table name = .ok table)
    (happly : table.apply operation = .ok after) : Change kind db (db.setTable after) := by
  rw [← (h.consistent htable).run_of_apply happly]
  exact .alter htable [operation]

/-- An insertion that is carried out is a change, also where it stops at a row that fails. -/
theorem Sound.change_of_runInsert {kind : List Column → Prop} (h : db.Sound) {name : Text}
    {columns : List Text} {rows : List (List Value)} {result : Result}
    (hrun : db.runInsert name columns rows = .ok (result, next)) : Change kind db next := by
  obtain ⟨table, htable, hrun⟩ := Outcome.bind_eq_ok.mp hrun
  obtain ⟨operations, hoperations⟩ :=
    exists_run_of_insertRows columns (h.consistent htable) rows
  generalize insertRows columns table rows = outcome at hrun hoperations
  obtain ⟨inserted, after, error?⟩ := outcome
  dsimp only at hoperations
  subst hoperations
  dsimp only at hrun
  split at hrun
  · next heq =>
    cases heq
    cases hrun
    exact .alter htable operations
  · cases hrun
  · next heq =>
    cases heq
    cases hrun
    exact .alter htable operations

/-- A statement that is carried out is one of the changes. -/
theorem Sound.change_of_run {kind : List Column → Prop} (h : db.Sound) {statement : Sql.Statement}
    {result : Result} (hkind : ∀ name columns, statement = .createTable name columns → kind columns)
    (hrun : db.run statement = .ok (result, next)) : Change kind db next := by
  cases statement with
  | select query =>
    obtain ⟨_, -, hrun⟩ := Outcome.bind_eq_ok.mp hrun
    cases hrun
    exact .none
  | insert name columns rows => exact h.change_of_runInsert hrun
  | update name assignments conditions =>
    obtain ⟨table, htable, hrun⟩ := Outcome.bind_eq_ok.mp hrun
    obtain ⟨⟨rows, after⟩, hupdate, hrun⟩ := Outcome.bind_eq_ok.mp hrun
    cases hrun
    have happly : table.apply (.update (assignments.mapValues .value) conditions) = .ok after :=
      Outcome.map_eq_ok.mpr ⟨_, hupdate, rfl⟩
    exact h.change_of_apply htable happly
  | delete name conditions =>
    obtain ⟨table, htable, hrun⟩ := Outcome.bind_eq_ok.mp hrun
    obtain ⟨⟨rows, after⟩, hdelete, hrun⟩ := Outcome.bind_eq_ok.mp hrun
    cases hrun
    have happly : table.apply (.delete conditions) = .ok after :=
      Outcome.map_eq_ok.mpr ⟨_, hdelete, rfl⟩
    exact h.change_of_apply htable happly
  | createTable name columns =>
    obtain ⟨⟨table, after⟩, hcreate, hrun⟩ := Outcome.bind_eq_ok.mp hrun
    cases hrun
    exact .create (hkind name columns rfl) hcreate
  | createIndex name tableName column unique =>
    obtain ⟨table, htable, hrun⟩ := Outcome.bind_eq_ok.mp hrun
    obtain ⟨after, hcreate, hrun⟩ := Outcome.bind_eq_ok.mp hrun
    cases hrun
    have happly : table.apply (.createIndex name column unique) = .ok after := hcreate
    exact h.change_of_apply htable happly
  | dropTable name =>
    obtain ⟨after, hdrop, hrun⟩ := Outcome.bind_eq_ok.mp hrun
    cases hrun
    exact .drop hdrop

/-- A text that is carried out as a statement is one of the changes. -/
theorem Sound.change_execute {kind : List Column → Prop} (h : db.Sound) {text : Text}
    (hkind : ∀ name columns, Sql.parse text = .ok (.createTable name columns) → kind columns) :
    Change kind db (db.execute text).2 := by
  rw [h.execute_eq text]
  cases hrun : (do db.run (← Sql.parse text) : Except Error (Result × Database)) with
  | error error => exact .none
  | ok outcome =>
    obtain ⟨result, next⟩ := outcome
    obtain ⟨statement, hparse, hrun⟩ := Outcome.bind_eq_ok.mp hrun
    refine h.change_of_run (fun name columns heq => hkind name columns ?_) hrun
    rw [hparse, heq]

/-! ## Reachable databases -/

/-- An operation on a database. -/
inductive Operation where
  /-- Carry out a statement given as text. -/
  | execute (text : Text)
  /-- Add a table without rows. -/
  | createTable (name : Text) (columns : List Column)
  /-- Drop a table. -/
  | dropTable (name : Text)
  /-- Carry out an operation on a table. -/
  | alter (name : Text) (operation : Table.Operation)

/-- A database after an operation. What one that fails has changed until then stays changed. -/
def step (db : Database) : Operation → Database
  | .execute text => (db.execute text).2
  | .createTable name columns => ((createTableM name columns).on db).2
  | .dropTable name => ((dropTableM name).on db).2
  | .alter name operation => ((onTable name operation.action).on db).2

/-- A database has come to be from an empty one. -/
def Reachable (db : Database) : Prop :=
  ∃ name order fresh, ∃ operations : List Operation,
    create name order = .ok fresh ∧ operations.foldl step fresh = db

/-- A database has come to be from an empty one by statements given as texts. -/
def Written (db : Database) : Prop :=
  ∃ name order fresh texts, create name order = .ok fresh ∧ (fresh.executeAll texts).2 = db

/-- Every operation is one of the changes. -/
theorem Sound.change_step (h : db.Sound) (operation : Operation) :
    Change (fun _ => True) db (db.step operation) := by
  cases operation with
  | execute text => exact h.change_execute fun _ _ _ => trivial
  | createTable name columns =>
    rw [step, createTableM_on]
    cases hcreate : db.createTable name columns with
    | error error => exact .none
    | ok outcome => exact .create trivial hcreate
  | dropTable name =>
    rw [step, dropTableM_on]
    cases hdrop : db.dropTable name with
    | error error => exact .none
    | ok next => exact .drop hdrop
  | alter name operation =>
    rw [step]
    cases htable : db.table name with
    | error error =>
      rw [onTable_on_error htable]
      exact .none
    | ok table =>
      rw [onTable_on_ok htable]
      exact .alter htable [operation]

/-- What statements bring about can be brought about. -/
theorem Written.reachable (h : db.Written) : db.Reachable := by
  obtain ⟨name, order, fresh, texts, hfresh, rfl⟩ := h
  refine ⟨name, order, fresh, texts.map .execute, hfresh, ?_⟩
  clear hfresh
  induction texts generalizing fresh with
  | nil => rfl
  | cons text rest ih => exact ih _

/-- What statements make of the empty database is written, if they are given as texts. -/
theorem written_of_performAll {texts : List Text} {statements : List Sql.Statement}
    (hparse : texts.mapM Sql.parse = .ok statements) (h : empty.performAll statements = db) :
    db.Written :=
  ⟨defaultName, 4, empty, texts, rfl, (executeAll_eq_performAll hparse empty).trans h⟩

/-- A database with a table in the place of the one of its name has the same names. -/
theorem tableNames_setTable (db : Database) (table : Table) :
    (db.setTable table).tableNames = db.tableNames := by
  rw [tableNames, tableNames, setTable, List.map_map]
  refine List.map_congr_left fun old _ => ?_
  rw [Function.comp_apply]
  split
  · next heq => exact (beq_iff_eq.mp heq).symm
  · rfl

/-- The tables of a database in which one has been replaced are this one and old ones. -/
theorem mem_setTable {table other : Table} (h : other ∈ (db.setTable table).tables) :
    other = table ∨ other ∈ db.tables := by
  obtain ⟨old, hold, heq⟩ := List.mem_map.mp h
  split at heq
  · exact .inl heq.symm
  · exact .inr (heq ▸ hold)

/-- Changes keep the names of tables different and their tables reachable. -/
theorem Sound.of_change {kind : List Column → Prop} (h : db.Sound) (hchange : Change kind db next) :
    next.Sound := by
  cases hchange with
  | none => exact h
  | alter htable operations =>
    obtain ⟨hmem, -⟩ := table_eq_ok htable
    refine ⟨by rw [tableNames_setTable]; exact h.nodup, fun other hother => ?_⟩
    rcases mem_setTable hother with rfl | hother
    · exact (h.reachable _ hmem).run operations
    · exact h.reachable other hother
  | create _ hcreate =>
    obtain ⟨hnew, hcreated, rfl⟩ := createTable_eq_ok hcreate
    constructor
    · rw [tableNames, List.map_append, List.nodup_append']
      refine ⟨h.nodup, List.nodup_singleton _, fun name hname hnamed => hnew ?_⟩
      rw [← Table.name_of_create hcreated, ← List.mem_singleton.mp hnamed]
      exact hname
    · intro other hother
      rcases List.mem_append.mp hother with hother | hother
      · exact h.reachable other hother
      · rw [List.mem_singleton.mp hother]
        exact ⟨_, _, _, _, [], hcreated, rfl⟩
  | drop hdrop =>
    obtain rfl := dropTable_eq_ok hdrop
    refine ⟨h.nodup.sublist (List.filter_sublist.map _), fun other hother => ?_⟩
    exact h.reachable other (List.mem_of_mem_filter hother)

/-- An empty database has no tables. -/
theorem tables_of_create {name : Text} {order : Int} {fresh : Database}
    (h : create name order = .ok fresh) : fresh.tables = [] := by
  unfold create at h
  split at h
  · cases h
  · split at h
    · cases h
    · cases h
      rfl

/-- An empty database is sound. -/
theorem Sound.of_create {name : Text} {order : Int} {fresh : Database}
    (h : create name order = .ok fresh) : fresh.Sound := by
  have hnone := tables_of_create h
  refine ⟨?_, ?_⟩
  · rw [tableNames, hnone]
    exact List.nodup_nil
  · rw [hnone]
    exact List.forall_mem_nil _

/-- What holds of empty databases and is kept by all changes holds of reachable databases. -/
theorem Reachable.induction (inv : Database → Prop)
    (hcreate : ∀ {name order fresh}, create name order = .ok fresh → inv fresh)
    (hchange : ∀ {db next}, inv db → Change (fun _ => True) db next → inv next)
    (h : db.Reachable) : inv db := by
  obtain ⟨name, order, fresh, operations, hfresh, rfl⟩ := h
  have hstart : inv fresh := hcreate hfresh
  have hsound : fresh.Sound := .of_create hfresh
  clear hfresh
  -- The induction is on the operations, from any sound database that has the property.
  induction operations generalizing fresh with
  | nil => exact hstart
  | cons operation rest ih =>
    have hstep := hsound.change_step operation
    exact ih _ (hchange hstart hstep) (hsound.of_change hstep)

/-- The tables of a reachable database have different names and are reachable. -/
theorem Reachable.sound (h : db.Reachable) : db.Sound :=
  h.induction Sound Sound.of_create Sound.of_change

/-- What holds of empty databases and is kept by statements holds of written databases. -/
theorem Written.induction (inv : Database → Prop)
    (hcreate : ∀ {name order fresh}, create name order = .ok fresh → inv fresh)
    (hexecute : ∀ {db : Database} (text : Text), inv db → inv (db.execute text).2)
    (h : db.Written) : inv db := by
  obtain ⟨name, order, fresh, texts, hfresh, rfl⟩ := h
  have hstart : inv fresh := hcreate hfresh
  clear hfresh
  induction texts generalizing fresh with
  | nil => exact hstart
  | cons text rest ih => exact ih _ (hexecute text hstart)

/-- The columns of all tables are of some kind. -/
def Columned (kind : Column → Prop) (db : Database) : Prop :=
  ∀ table ∈ db.tables, ∀ column ∈ table.schema.columns, kind column

/-- Columns stay of a kind when new tables have columns of the kind. -/
theorem Columned.of_change {kind : Column → Prop} (h : db.Columned kind) (hsound : db.Sound)
    (hchange : Change (fun columns => ∀ column ∈ columns, kind column) db next) :
    next.Columned kind := by
  cases hchange with
  | none => exact h
  | alter htable operations =>
    obtain ⟨hmem, -⟩ := table_eq_ok htable
    intro other hother
    rcases mem_setTable hother with rfl | hother
    · rw [(hsound.reachable _ hmem).consistent.schema_run operations]
      exact h _ hmem
    · exact h other hother
  | create hcolumns hcreate =>
    obtain ⟨-, hcreated, rfl⟩ := createTable_eq_ok hcreate
    intro other hother
    rcases List.mem_append.mp hother with hother | hother
    · exact h other hother
    · rw [List.mem_singleton.mp hother, (Table.Consistent.of_create hcreated).2.2]
      exact hcolumns
  | drop hdrop =>
    obtain rfl := dropTable_eq_ok hdrop
    exact fun other hother => h other (List.mem_of_mem_filter hother)

/-- The columns of a written database have names that are texts and not empty. -/
theorem Written.named (h : db.Written) : db.Columned Sql.Named := by
  refine (h.induction (fun db => db.Sound ∧ db.Columned Sql.Named) (fun hcreate => ?_) ?_).2
  · refine ⟨.of_create hcreate, ?_⟩
    rw [Columned, tables_of_create hcreate]
    exact List.forall_mem_nil _
  · rintro db text ⟨hsound, hnamed⟩
    have hchange : Change (fun columns => ∀ column ∈ columns, Sql.Named column) db
        (db.execute text).2 := hsound.change_execute fun _ _ hparse => Sql.parse_wellRead hparse
    exact ⟨hsound.of_change hchange, hnamed.of_change hsound hchange⟩

/-- A table with two columns of integers. -/
def pairs (name : Text) (rows : List Row) : Table where
  schema := ⟨name, [.define (.text "id") .int false false false false,
    .define (.text "k") .int false false false false], by decide⟩
  treeOrder := 4
  rows := rows.map some
  indexes := []
  counters := []

/-- Two tables of the same columns, of which only the first one has a row. -/
def twins : Database :=
  ⟨defaultName, .default, [pairs "a" [[(.text "id", .int 1), (.text "k", .int 5)]], pairs "b" []]⟩

/-- Three statements make the two tables. -/
theorem twins_reachable : twins.Reachable := by
  have hparse : (["CREATE TABLE a (id INT, k INT)", "CREATE TABLE b (id INT, k INT)",
      "INSERT INTO a VALUES (1, 5)"] : List Text).mapM Sql.parse =
      .ok [.createTable "a" (pairs "a" []).schema.columns,
        .createTable "b" (pairs "b" []).schema.columns, .insert "a" [] [[.int 1, .int 5]]] := rfl
  exact (written_of_performAll hparse rfl).reachable

/-- Two tables of the same columns. In a join by the second column, two rows of the second table are
partners of the first row of the first one, and all other rows have none. -/
def uneven : Database :=
  ⟨defaultName, .default,
    [pairs "a" [[(.text "id", .int 1), (.text "k", .int 5)],
      [(.text "id", .int 2), (.text "k", .int 6)], [(.text "id", .int 3), (.text "k", .int 7)]],
    pairs "b" [[(.text "id", .int 1), (.text "k", .int 5)],
      [(.text "id", .int 2), (.text "k", .int 5)], [(.text "id", .int 3), (.text "k", .int 9)]]]⟩

/-- Four statements make the two tables. -/
theorem uneven_reachable : uneven.Reachable := by
  have hparse : (["CREATE TABLE a (id INT, k INT)", "CREATE TABLE b (id INT, k INT)",
      "INSERT INTO a VALUES (1, 5), (2, 6), (3, 7)",
      "INSERT INTO b VALUES (1, 5), (2, 5), (3, 9)"] : List Text).mapM Sql.parse =
      .ok [.createTable "a" (pairs "a" []).schema.columns,
        .createTable "b" (pairs "b" []).schema.columns,
        .insert "a" [] [[.int 1, .int 5], [.int 2, .int 6], [.int 3, .int 7]],
        .insert "b" [] [[.int 1, .int 5], [.int 2, .int 5], [.int 3, .int 9]]] := rfl
  exact (written_of_performAll hparse rfl).reachable

end Database

end RelStore
