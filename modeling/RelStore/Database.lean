import RelStore.Arrangement
import RelStore.Joining
import RelStore.Result
import RelStore.Sql.Parser
import RelStore.Table.Actions

/-!
# Databases

A database is a list of tables in the order of their creation. `Database.execute` carries out one
statement given as text, step by step (`Database.runM`), and answers with a result; errors are
results too. The database after a failure is the one that the steps before it have left.
-/

namespace RelStore

open Sql (Join Select Statement)

/-- A database. -/
structure Database where
  /-- The name of the database. -/
  name : Text
  /-- The order of the indexes of its tables. -/
  order : BTree.Order
  /-- The tables in the order of their creation. -/
  tables : List Table

/-- Why no database can be made. -/
inductive ConfigError where
  /-- The name is blank. -/
  | blankName
  /-- No index has this order. -/
  | treeOrder (order : Int)
  deriving DecidableEq

/-- The wording of a fault in the settings of a database. -/
def ConfigError.message : ConfigError → Text
  | blankName => "Database name cannot be empty"
  | treeOrder order => "btree_order must be between 3 and 1024, got " ++ .ofInt order

namespace Database

/-- The name that a database has when none is given. -/
def defaultName : Text := "main"

/-- The database without tables. -/
def empty : Database := ⟨defaultName, .default, []⟩

/-- A database without tables of a name and an order. -/
def create (name : Text) (order : Int) : Except ConfigError Database :=
  if name.strip.isEmpty then .error .blankName
  else
    match BTree.Order.ofInt? order with
    | none => .error (.treeOrder order)
    | some order => .ok ⟨name, order, []⟩

/-- The table of a name. -/
def table? (db : Database) (name : Text) : Option Table :=
  db.tables.find? fun table => table.name == name

/-- The table of a name, or the error that it is missing. -/
def table (db : Database) (name : Text) : Except Error Table :=
  match db.table? name with
  | some table => .ok table
  | none => .error (.tableNotFound name)

/-- The names of the tables in the order of their creation. -/
def tableNames (db : Database) : List Text := db.tables.map Table.name

/-- A database in which a table has taken the place of the one of its name. -/
def setTable (db : Database) (table : Table) : Database :=
  { db with tables := db.tables.map fun old => if old.name == table.name then table else old }

/-- Adds a table without rows; also returns the table. -/
def createTable (db : Database) (name : Text) (columns : List Column) :
    Except Error (Table × Database) := do
  if (db.table? name).isSome then throw (.tableExists name)
  let table ← Table.create name columns db.order.degree
  return (table, { db with tables := db.tables ++ [table] })

/-- Drops a table with its indexes. -/
def dropTable (db : Database) (name : Text) : Except Error Database := do
  let _ ← db.table name
  return { db with tables := db.tables.filter fun table => table.name != name }

/-- The row that a list of values stands for: values for the named columns, or for the first columns
of the table when no columns are named. -/
def rowOfValues (table : Table) (columns : List Text) (values : List Value) : Except Error Row :=
  if columns.isEmpty then
    let names := table.schema.columnNames
    if names.length < values.length then .error (.valueCount names.length values.length)
    else .ok (.ofList (names.zip values))
  else if values.length ≠ columns.length then .error (.valueCount columns.length values.length)
  else .ok (.ofList ((columns.map .text).zip values))

/-- Checks that a reference leads to a column of one of some tables. -/
def checkColumn (tables : List Table) (reference : Text) : Except Error Unit :=
  let found :=
    match splitQualified? reference with
    | some (name, column) =>
      tables.any fun table => table.name == name && table.schema.hasColumn column
    | none => tables.any fun table => table.schema.hasColumn reference
  if found then .ok () else .error (.columnNotFound reference none)

/-- Whether a reference leads to a column of a table by its bare name or by the table's name. -/
def belongsTo (table : Table) (reference : Text) : Bool :=
  match splitQualified? reference with
  | some (name, column) => name == table.name && table.schema.hasColumn column
  | none => table.schema.hasColumn reference

/-- The references of a query in the order in which they are checked. -/
def references (query : Select) : List Text :=
  (query.joins.flatMap fun join => [join.left.reference, join.right.reference]) ++
    query.conditions.map (·.column) ++ query.sortKeys.map (·.column) ++ query.columns.getD []

/-- Joins rows with one table after the other. -/
def joinTables (base : Text) (rows : List Row) : List (Join × Table) → Except Error (List Row)
  | [] => .ok rows
  | (clause, table) :: rest => do
    let joined ←
      join clause.kind ⟨rows, base, clause.left⟩ ⟨table.liveRows, clause.table, clause.right⟩
    joinTables base joined rest

/-- The rows of a query before they are sorted. The conditions choose among the rows of the base
table when they concern no other, and among the joined rows otherwise. -/
def selectRows (base : Table) (joined : List (Join × Table)) (query : Select) :
    Except Error (List Row) := do
  if query.conditions.all fun condition => belongsTo base condition.column then
    joinTables query.table (← base.select query.conditions) joined
  else
    Condition.select query.conditions id (← joinTables query.table (← base.select []) joined)

/-- The names of the cells in some rows, in the order in which they first occur. -/
def namesOf (rows : List Row) : List ColumnName :=
  (Mapping.ofList (rows.flatMap fun row => row.names.map fun name => (name, ()))).names

/-- Carries out a query. When several of its tables are missing, the error is about the first one in
the order of the query, beginning with the base table. That is a choice: the tables of a query are a
set, whose order may be any. -/
def runSelect (db : Database) (query : Select) : Except Error Result := do
  let base ← db.table query.table
  let joined ← query.joins.mapM fun join => do return (join, ← db.table join.table)
  (references query).forM (checkColumn (base :: joined.map (·.2)))
  let rows ← selectRows base joined query
  let rows := limitRows (query.limit.map Int.ofNat) (← sortRows query.sortKeys rows)
  match query.columns with
  | some columns => return .ofRows none (project columns rows) (columns.map .text)
  | none =>
    if query.joins.isEmpty then return .ofRows none rows base.schema.columnNames
    else return .ofRows none rows (namesOf rows)

/-! ## Statements -/

/-- Carries out an action on the table of a name. The table that it leaves takes the place of the
one of its name, also when it fails. -/
def onTable {α : Type} (name : Text) (act : Action Table α) : Action Database α := .of fun db =>
  match db.table name with
  | .error error => (.error error, db)
  | .ok table =>
    let (outcome, table) := act.on table
    (outcome, db.setTable table)

/-- Adds a table without rows, after it has been made. -/
def createTableM (name : Text) (columns : List Column) : Action Database Unit := do
  let db ← get
  if (db.table? name).isSome then throw (.tableExists name)
  let table ← Table.create name columns db.order.degree
  modify fun db => { db with tables := db.tables ++ [table] }

/-- Drops a table with its indexes. -/
def dropTableM (name : Text) : Action Database Unit := do
  let _ ← (← get).table name
  modify fun db => { db with tables := db.tables.filter fun table => table.name != name }

/-- Appends the row that a list of values stands for. -/
def insertRowM (columns : List Text) (values : List Value) : Action Table Row := do
  let row ← rowOfValues (← get) columns values
  Table.insertCellsM (row.mapValues .value)

/-- Appends rows until one fails. Gives the rows appended, and the error if any. -/
def insertRowsM (columns : List Text) : List (List Value) → Action Table (List Row × Option Error)
  | [] => return ([], none)
  | values :: rest => do
    match ← observing (insertRowM columns values) with
    | .error error => return ([], some error)
    | .ok row =>
      let (rows, error) ← insertRowsM columns rest
      return (row :: rows, error)

/-- Carries out an insertion into a table. A failure behind the first row is a result that reports
the rows before it, if its error has a kind; otherwise it stays a failure, and the rows stay in the
table. -/
def insertM (columns : List Text) (rows : List (List Value)) : Action Table Result := do
  let names := (← get).schema.columnNames
  match ← insertRowsM columns rows with
  | (inserted, none) =>
    let message : Text := "Inserted " ++ .ofNat inserted.length ++ " row(s)"
    return .ofRows message inserted names
  | ([], some error) => throw error
  | (inserted, some error) =>
    if error.kind?.isSome then return .ofPartialInsert error inserted names else throw error

/-- Carries out an update of a table. -/
def updateM (assignments : Mapping Text Value) (conditions : List Condition) :
    Action Table Result := do
  let rows ← Table.updateCellsM (assignments.mapValues .value) conditions
  let message : Text := "Updated " ++ .ofNat rows.length ++ " row(s)"
  return .ofRows message rows (← get).schema.columnNames

/-- Carries out a deletion from a table. -/
def deleteM (conditions : List Condition) : Action Table Result := do
  let rows ← Table.deleteM conditions
  let message : Text := "Deleted " ++ .ofNat rows.length ++ " row(s)"
  return .ofRows message rows (← get).schema.columnNames

/-- Carries out a statement. -/
def runM : Statement → Action Database Result
  | .select query => do (← get).runSelect query
  | .insert name columns rows => onTable name (insertM columns rows)
  | .update name assignments conditions => onTable name (updateM assignments conditions)
  | .delete name conditions => onTable name (deleteM conditions)
  | .createTable name columns => do
    createTableM name columns
    return .done ("Table \"" ++ name ++ "\" created successfully")
  | .createIndex name tableName column unique => do
    onTable tableName (Table.createIndexM name column unique)
    return .done ("Index \"" ++ name ++ "\" created on " ++ tableName ++ "(" ++ column ++ ")")
  | .dropTable name => do
    dropTableM name
    return .done ("Table \"" ++ name ++ "\" dropped successfully")

/-- Carries out a statement. An error is a result too; the database is the one that the statement
has left. -/
def perform (db : Database) (statement : Statement) : Result × Database :=
  match (runM statement).on db with
  | (.ok result, db) => (result, db)
  | (.error error, db) => (.ofError error, db)

/-- Carries out a statement given as text. -/
def execute (db : Database) (text : Text) : Result × Database :=
  match Sql.parse text with
  | .ok statement => db.perform statement
  | .error error => (.ofError error, db)

/-- Carries out statements one after the other. -/
def executeAll (db : Database) (texts : List Text) : List Result × Database :=
  match texts with
  | [] => ([], db)
  | text :: rest =>
    let (result, db) := db.execute text
    let (results, db) := db.executeAll rest
    (result :: results, db)

end Database

end RelStore
