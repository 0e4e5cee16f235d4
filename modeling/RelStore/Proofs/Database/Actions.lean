import RelStore.Database
import RelStore.Proofs.Table.History

/-!
# Statements on sound databases are all or nothing

A statement as a function returns the changed database or an error (`Database.run`). The tables of a
sound database have different names and are reachable (`Database.Sound`). On such a database a
statement that is carried out step by step ends as this function says, and one that fails leaves the
database as it was (`Sound.runM_on`): an action on a table that is all or nothing is so on the
database, as a table that has not changed takes its own place. The exception is an insertion. It
ends in an error behind rows that it has appended, if the error has no kind, and these rows stay
(`insertM_on`). Either way the result and the database are those of the function
(`Sound.execute_eq`).
-/

namespace RelStore.Database

open Sql (Statement)

/-! ## Statements as functions -/

/-- Appends rows until one fails: the rows appended, the table with them, and the error if any. -/
def insertRows (columns : List Text) (table : Table) :
    List (List Value) → List Row × Table × Option Error
  | [] => ([], table, none)
  | values :: rest =>
    match (do table.insert (← rowOfValues table columns values) : Except Error (Row × Table)) with
    | .error error => ([], table, some error)
    | .ok (row, table) =>
      let (rows, table, error) := insertRows columns table rest
      (row :: rows, table, error)

/-- Carries out an insertion. -/
def runInsert (db : Database) (name : Text) (columns : List Text)
    (rows : List (List Value)) : Except Error (Result × Database) := do
  let table ← db.table name
  let names := table.schema.columnNames
  match insertRows columns table rows with
  | (inserted, table, none) =>
    let message : Text := "Inserted " ++ .ofNat inserted.length ++ " row(s)"
    return (.ofRows message inserted names, db.setTable table)
  | ([], _, some error) => throw error
  | (inserted, table, some error) =>
    let result : Result :=
      if error.kind?.isSome then .ofPartialInsert error inserted names else .ofError error
    return (result, db.setTable table)

/-- The result of an update. -/
def updated (rows : List Row) (table : Table) : Result :=
  .ofRows ("Updated " ++ .ofNat rows.length ++ " row(s)" : Text) rows table.schema.columnNames

/-- The result of a deletion. -/
def deleted (rows : List Row) (table : Table) : Result :=
  .ofRows ("Deleted " ++ .ofNat rows.length ++ " row(s)" : Text) rows table.schema.columnNames

/-- Carries out a statement. -/
def run (db : Database) : Statement → Except Error (Result × Database)
  | .select query => do return (← db.runSelect query, db)
  | .insert name columns rows => db.runInsert name columns rows
  | .update name assignments conditions => do
    let (rows, table) ← (← db.table name).update assignments conditions
    return (updated rows table, db.setTable table)
  | .delete name conditions => do
    let (rows, table) ← (← db.table name).delete conditions
    return (deleted rows table, db.setTable table)
  | .createTable name columns => do
    let (_, db) ← db.createTable name columns
    return (.done ("Table \"" ++ name ++ "\" created successfully"), db)
  | .createIndex name tableName column unique => do
    let table ← (← db.table tableName).createIndex name column unique
    return (.done ("Index \"" ++ name ++ "\" created on " ++ tableName ++ "(" ++ column ++ ")"),
      db.setTable table)
  | .dropTable name => do
    let db ← db.dropTable name
    return (.done ("Table \"" ++ name ++ "\" dropped successfully"), db)

/-! ## Sound databases -/

/-- The tables of a database have different names and are reachable. -/
structure Sound (db : Database) : Prop where
  /-- No two tables have the same name. -/
  nodup : db.tableNames.Nodup
  /-- Every table is reachable. -/
  reachable : ∀ table ∈ db.tables, table.Reachable

variable {db : Database} {name : Text} {table : Table} {columns : List Text}

/-- A table that is found by a name is one of the database and has the name. -/
theorem table_eq_ok (h : db.table name = .ok table) : table ∈ db.tables ∧ table.name = name := by
  unfold Database.table at h
  split at h
  · next found hfound =>
    cases h
    exact ⟨List.mem_of_find?_eq_some hfound, by simpa using List.find?_some hfound⟩
  · cases h

/-- A table takes its own place. -/
theorem Sound.setTable_self (h : db.Sound) (htable : db.table name = .ok table) :
    db.setTable table = db := by
  obtain ⟨hmem, -⟩ := table_eq_ok htable
  have hself : ∀ old ∈ db.tables, (if old.name == table.name then table else old) = old := by
    intro old hold
    split
    · next heq => exact (List.inj_on_of_nodup_map h.nodup hold hmem (beq_iff_eq.mp heq)).symm
    · rfl
  have htables : (db.tables.map fun old => if old.name == table.name then table else old) =
      db.tables := by
    rw [List.map_congr_left hself, List.map_id']
  rw [setTable, htables]

/-- The tables of a sound database are consistent. -/
theorem Sound.consistent (h : db.Sound) (htable : db.table name = .ok table) : table.Consistent :=
  (h.reachable _ (table_eq_ok htable).1).consistent

/-! ## Actions on one table -/

section

variable {α : Type} {act : Action Table α}

/-- An action on a table that is missing changes nothing. -/
theorem onTable_on_error {error : Error} (h : db.table name = .error error) :
    (onTable name act).on db = (.error error, db) := by
  rw [onTable, Action.on_of, h]

/-- The table that an action leaves takes its place, also when the action fails. -/
theorem onTable_on_ok (h : db.table name = .ok table) :
    (onTable name act).on db = ((act.on table).1, db.setTable (act.on table).2) := by
  rw [onTable, Action.on_of, h]

/-- What is all or nothing on a table of a database is so on the database. -/
theorem Sound.onTable_on (h : db.Sound) {f : Table → Except Error (α × Table)}
    (hact : ∀ table, table.Consistent → act.on table = Action.settled table (f table)) :
    (onTable name act).on db =
      Action.settled db (db.table name >>= fun table => (fun (a, next) => (a, db.setTable next)) <$>
        f table) := by
  cases htable : db.table name with
  | error error => exact onTable_on_error htable
  | ok table =>
    rw [onTable_on_ok htable, hact table (h.consistent htable), Outcome.ok_bind]
    cases f table with
    | error error => exact congrArg (Except.error error, ·) (h.setTable_self htable)
    | ok outcome => rfl

end

/-- An update of a table is all or nothing. -/
theorem updateM_on (h : table.Consistent) (assignments : Mapping Text Value)
    (conditions : List Condition) :
    (updateM assignments conditions).on table =
      Action.settled table ((fun (rows, next) => (updated rows next, next)) <$>
        table.update assignments conditions) := by
  rw [updateM, Action.on_bind, h.updateCellsM_on, Table.update]
  cases table.updateCells (assignments.mapValues .value) conditions <;> rfl

/-- A deletion from a table is all or nothing. -/
theorem deleteM_on (h : table.Consistent) (conditions : List Condition) :
    (deleteM conditions).on table =
      Action.settled table ((fun (rows, next) => (deleted rows next, next)) <$>
        table.delete conditions) := by
  rw [deleteM, Action.on_bind, h.deleteM_on]
  cases table.delete conditions <;> rfl

/-! ## Tables made and dropped -/

/-- A table is made before it is added. -/
theorem createTableM_on (db : Database) (name : Text) (columns : List Column) :
    (createTableM name columns).on db =
      Action.settled db ((fun outcome => ((), outcome.2)) <$> db.createTable name columns) := by
  rw [createTableM, Action.on_get_bind, createTable]
  cases (db.table? name).isSome with
  | true => rfl
  | false =>
    rw [if_neg Bool.false_ne_true, if_neg Bool.false_ne_true, map_bind]
    exact Action.on_lift_bind_settled fun table _ => rfl

/-- A table is found before it is dropped. -/
theorem dropTableM_on (db : Database) (name : Text) :
    (dropTableM name).on db =
      Action.settled db ((fun next => ((), next)) <$> db.dropTable name) := by
  rw [dropTableM, Action.on_get_bind, dropTable, map_bind]
  exact Action.on_lift_bind_settled fun table _ => rfl

/-! ## Insertions -/

/-- The insertion of one row is all or nothing. -/
theorem insertRowM_on (h : table.Consistent) (columns : List Text) (values : List Value) :
    (insertRowM columns values).on table =
      Action.settled table (do table.insert (← rowOfValues table columns values)) := by
  rw [insertRowM, Action.on_get_bind]
  exact Action.on_lift_bind_settled fun row _ => h.insertCellsM_on (row.mapValues .value)

/-- Rows are appended until one fails, and those before it stay. -/
theorem insertRowsM_on (h : table.Consistent) (columns : List Text) (rows : List (List Value)) :
    (insertRowsM columns rows).on table =
      (.ok ((insertRows columns table rows).1, (insertRows columns table rows).2.2),
        (insertRows columns table rows).2.1) := by
  induction rows generalizing table with
  | nil => rfl
  | cons values rest ih =>
    rw [insertRowsM, insertRows, Action.on_observing_bind, insertRowM_on h]
    cases hinsert : (do table.insert (← rowOfValues table columns values) :
        Except Error (Row × Table)) with
    | error error => rfl
    | ok outcome =>
      obtain ⟨row, next⟩ := outcome
      obtain ⟨cells, -, hcells⟩ := Outcome.bind_eq_ok.mp hinsert
      have happly : table.apply (.insert (cells.mapValues .value)) = .ok next :=
        Outcome.map_eq_ok.mpr ⟨_, hcells, rfl⟩
      exact Action.on_bind_of_ok (ih (h.of_apply happly).1) _

/-- Rows of which the first one fails leave the table. -/
theorem eq_of_insertRows_nil {rows : List (List Value)} {next : Table} {error? : Option Error}
    (h : insertRows columns table rows = ([], next, error?)) : next = table := by
  cases rows with
  | nil =>
    cases h
    rfl
  | cons values rest =>
    rw [insertRows] at h
    split at h <;> cases h
    rfl

/-- What the insertion of rows ends in that have been appended until one fails. -/
def insertionOutcome (names : List ColumnName) : List Row → Option Error → Except Error Result
  | inserted, none =>
    .ok (.ofRows ("Inserted " ++ .ofNat inserted.length ++ " row(s)" : Text) inserted names)
  | [], some error => .error error
  | inserted, some error =>
    if error.kind?.isSome then .ok (.ofPartialInsert error inserted names) else .error error

/-- An insertion leaves the rows that it has appended, whatever it ends in. -/
theorem insertM_on (h : table.Consistent) {rows : List (List Value)} {inserted : List Row}
    {next : Table} {error? : Option Error}
    (hrows : insertRows columns table rows = (inserted, next, error?)) :
    (insertM columns rows).on table =
      (insertionOutcome table.schema.columnNames inserted error?, next) := by
  have hall := insertRowsM_on h columns rows
  rw [hrows] at hall
  rw [insertM, Action.on_get_bind]
  refine (Action.on_bind_of_ok hall _).trans ?_
  cases error? with
  | none => rfl
  | some error =>
    cases inserted with
    | nil => rfl
    | cons row rest =>
      dsimp only [insertionOutcome]
      split <;> rfl

/-! ## Statements -/

/-- A statement other than an insertion is all or nothing. -/
theorem Sound.runM_on (h : db.Sound) {statement : Statement}
    (hinsert : ∀ name columns rows, statement ≠ .insert name columns rows) :
    (runM statement).on db = Action.settled db (db.run statement) := by
  cases statement with
  | insert name columns rows => exact absurd rfl (hinsert name columns rows)
  | select query =>
    rw [runM, run, Action.on_get_bind]
    cases db.runSelect query <;> rfl
  | update name assignments conditions =>
    rw [runM, run, h.onTable_on fun table htable => updateM_on htable assignments conditions]
    refine congrArg (Action.settled db) (bind_congr fun table => ?_)
    cases table.update assignments conditions <;> rfl
  | delete name conditions =>
    rw [runM, run, h.onTable_on fun table htable => deleteM_on htable conditions]
    refine congrArg (Action.settled db) (bind_congr fun table => ?_)
    cases table.delete conditions <;> rfl
  | createTable name columns =>
    rw [runM, run, Action.on_bind, createTableM_on]
    cases db.createTable name columns <;> rfl
  | createIndex name tableName column unique =>
    rw [runM, run, Action.on_bind,
      h.onTable_on fun table _ => table.createIndexM_on name column unique]
    cases db.table tableName with
    | error error => rfl
    | ok table =>
      rw [Outcome.ok_bind, Outcome.ok_bind]
      cases table.createIndex name column unique <;> rfl
  | dropTable name =>
    rw [runM, run, Action.on_bind, dropTableM_on]
    cases db.dropTable name <;> rfl

/-- A query reports its answer and leaves the database. -/
theorem perform_select (db : Database) (query : Sql.Select) :
    db.perform (.select query) = (match db.runSelect query with
      | .ok result => result
      | .error error => .ofError error, db) := by
  rw [perform, runM, Action.on_get_bind]
  cases db.runSelect query <;> rfl

/-- The result and the database after a statement, from the outcome of a computation. -/
def reported (db : Database) : Except Error (Result × Database) → Result × Database
  | .ok outcome => outcome
  | .error error => (.ofError error, db)

/-- An insertion reports and leaves what the function says: rows that it has appended before an
error without a kind are in the table, and the error is all that is reported. -/
theorem Sound.perform_insert (h : db.Sound) (name : Text) (columns : List Text)
    (rows : List (List Value)) :
    db.perform (.insert name columns rows) = db.reported (db.runInsert name columns rows) := by
  rw [perform, runM, runInsert]
  cases htable : db.table name with
  | error error =>
    rw [onTable_on_error htable]
    rfl
  | ok table =>
    rw [onTable_on_ok htable, Outcome.ok_bind]
    cases hrows : insertRows columns table rows with
    | mk inserted outcome =>
      obtain ⟨next, error?⟩ := outcome
      rw [insertM_on (h.consistent htable) hrows]
      cases error? with
      | none => rfl
      | some error =>
        cases inserted with
        | nil =>
          rw [eq_of_insertRows_nil hrows]
          exact congrArg (Result.ofError error, ·) (h.setTable_self htable)
        | cons row rest =>
          dsimp only [insertionOutcome]
          cases error.kind?.isSome <;> rfl

/-- A statement reports and leaves what the function says. -/
theorem Sound.perform_eq (h : db.Sound) (statement : Statement) :
    db.perform statement = db.reported (db.run statement) := by
  cases statement with
  | insert name columns rows => exact h.perform_insert name columns rows
  | select _ | update _ _ _ | delete _ _ | createTable _ _ | createIndex _ _ _ _ | dropTable _ =>
    rw [perform, h.runM_on (by simp)]
    cases db.run _ <;> rfl

/-- A text reports and leaves what its statement does. -/
theorem execute_eq_perform {text : Text} {statement : Statement}
    (h : Sql.parse text = .ok statement) (db : Database) :
    db.execute text = db.perform statement := by
  rw [execute, h]

/-- A database after some statements, one after the other. -/
def performAll (db : Database) (statements : List Statement) : Database :=
  statements.foldl (fun db statement => (db.perform statement).2) db

/-- Texts leave what their statements do. -/
theorem executeAll_eq_performAll {texts : List Text} {statements : List Statement}
    (h : texts.mapM Sql.parse = .ok statements) (db : Database) :
    (db.executeAll texts).2 = db.performAll statements := by
  induction texts generalizing db statements with
  | nil =>
    cases h
    rfl
  | cons text rest ih =>
    rw [List.mapM_cons] at h
    obtain ⟨statement, hparse, h⟩ := Outcome.bind_eq_ok.mp h
    obtain ⟨later, hlater, h⟩ := Outcome.bind_eq_ok.mp h
    cases h
    have hexecute : (db.executeAll (text :: rest)).2 = ((db.execute text).2.executeAll rest).2 :=
      rfl
    rw [hexecute, execute_eq_perform hparse, ih hlater]
    rfl

/-- A text reports and leaves what the function says. -/
theorem Sound.execute_eq (h : db.Sound) (text : Text) :
    db.execute text = db.reported (do db.run (← Sql.parse text)) := by
  rw [execute]
  cases Sql.parse text with
  | error error => rfl
  | ok statement => exact h.perform_eq statement

end RelStore.Database
