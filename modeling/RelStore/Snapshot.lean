import RelStore.Database
import RelStore.Json.Reader
import RelStore.Json.Writer

/-!
# Snapshots

A snapshot is the JSON form of a database: an object that maps each table name to the columns of the
table and its live rows. Loading makes each table anew and inserts its rows in order; then the
counters move up past the stored numbers, so that later rows do not collide with the loaded ones.
-/

namespace RelStore

/-- A value as JSON. -/
def Json.ofValue : Value → Json
  | .null => .null
  | .int n => .int n
  | .float x => .float x
  | .bool b => .bool b
  | .string s => .string s

/-- A row as a JSON object. -/
def Json.ofRow (row : Row) : Json :=
  .object (row.map fun (name, v) => (name.memberName, Json.ofValue v))

/-- The name of a column as JSON. -/
def Json.ofColumnName : ColumnName → Json
  | .text name => .string name
  | .int n => .int n
  | .float x => .float x
  | .bool b => .bool b

/-- The column name that a JSON value is. Lists and objects are none. -/
def Json.toColumnName? : Json → Option ColumnName
  | .string name => some (.text name)
  | .int n => some (.int n)
  | .float x => some (.float x)
  | .bool b => some (.bool b)
  | .null | .array _ | .object _ => none

/-- What a JSON value offers for a column. Lists and objects are no cell values. -/
def Json.toCell : Json → Cell
  | .null => .value .null
  | .int n => .value (.int n)
  | .float x => .value (.float x)
  | .bool b => .value (.bool b)
  | .string s => .value (.string s)
  | json => .unsupported json.shown

namespace Snapshot

/-- The definition of a column as JSON. -/
def ofColumn (column : Column) : Json :=
  .object [
    ("name", .ofColumnName column.name),
    ("type", .string column.type.name),
    ("primaryKey", .bool column.primaryKey),
    ("unique", .bool column.unique),
    ("notNull", .bool column.notNull),
    ("autoIncrement", .bool column.autoIncrement)]

/-- A table as JSON: its columns and its live rows. -/
def ofTable (table : Table) : Json :=
  .object [
    ("schema", .object [
      ("name", .string table.name),
      ("columns", .array (table.schema.columns.map ofColumn))]),
    ("rows", .array (table.liveRows.map Json.ofRow))]

/-- Why a snapshot cannot be loaded. -/
inductive Fault where
  /-- No database can be made with these settings. -/
  | config (error : ConfigError)
  /-- The text is no JSON. -/
  | notJson (fault : Json.Fault)
  /-- The snapshot is no object. -/
  | notMapping
  /-- The entry of a table is no object with a schema and rows. -/
  | malformedEntry (table : Text)
  /-- The schema has no columns. -/
  | noColumns
  /-- A column has no name; the column as messages show it. -/
  | unnamedColumn (shown : Text)
  /-- A column has a type that does not exist; the type as messages show it. -/
  | unknownType (shown : Text)
  /-- A schema, a list of columns or rows, or the name of a column is of a kind that cannot be. -/
  | wrongKind
  /-- A column or a row is no object. -/
  | notObject
  /-- A table cannot be made, or a row cannot be inserted. -/
  | statement (error : Error)

/-- The items of a JSON value that is gone through in order. An object is gone through by its names
and a text by its characters; numbers, truth values and null have no items. -/
def items? : Json → Option (List Json)
  | .array items => some items
  | .object members => some (members.map fun (name, _) => .string name)
  | .string s => some (s.map fun c => .string [c])
  | _ => none

/-- Whether a member of an object is given and counts as true. -/
def flag (column : Json) (name : Text) : Bool :=
  ((column.member? name).map Json.isTruthy).getD false

/-- The name and the type of a column of a snapshot. A column without a type holds texts. -/
def columnHead (column : Json) : Except Fault (Json × DataType) := do
  let name := (column.member? "name").getD .null
  if !name.isTruthy then throw (.unnamedColumn column.shown)
  match (column.member? "type").getD (.string DataType.string.name) with
  | .string typeName =>
    match DataType.ofName? typeName with
    | some type => return (name, type)
    | none => throw (.unknownType typeName)
  | other => throw (.unknownType other.displayed)

/-- The column of a snapshot, unless its name is none. -/
def toColumn? (column : Json) : Except Fault (Option Column) :=
  match column with
  | .object _ => do
    let (name, type) ← columnHead column
    return name.toColumnName?.map fun name =>
      .define name type (flag column "primaryKey") (flag column "unique") (flag column "notNull")
        (flag column "autoIncrement")
  | _ => throw .notObject

/-- The columns of a table, in which a name that is none comes to light with the names that come
twice. -/
def namedColumns (table : Text) (columns : List (Option Column)) : Except Fault (List Column) :=
  match columns.mapM id with
  | some columns => .ok columns
  | none =>
    match Schema.define table ((columns.takeWhile Option.isSome).filterMap id) with
    | .ok _ => .error .wrongKind
    | .error error => .error (.statement error)

/-- The columns of a schema of a snapshot. -/
def toColumns (table : Text) (schema : Json) : Except Fault (List Column) := do
  match schema with
  | .object _ =>
    match schema.member? "columns" with
    | none => throw .noColumns
    | some columns =>
      match items? columns with
      | none => throw .wrongKind
      | some items => namedColumns table (← items.mapM toColumn?)
  | _ => throw .wrongKind

/-- A table with a row of a snapshot inserted. -/
def loadRow (table : Table) (row : Json) : Except Fault Table :=
  match row with
  | .object members =>
    match table.insertCells (members.map fun (name, value) => (↑name, value.toCell)) with
    | .ok (_, table) => .ok table
    | .error error => .error (.statement error)
  | _ => .error .notObject

/-- A database with a table of a snapshot added. -/
def loadTable (db : Database) (name : Text) (entry : Json) : Except Fault Database := do
  match entry.member? "schema", entry.member? "rows" with
  | some schema, some rows =>
    let columns ← toColumns name schema
    match db.createTable name columns with
    | .error error => throw (.statement error)
    | .ok (table, db) =>
      match items? rows with
      | none => throw .wrongKind
      | some rows => return db.setTable (← rows.foldlM loadRow table).restoreCounters
  | _, _ => throw (.malformedEntry name)

end Snapshot

namespace Database

/-- The snapshot of a database. -/
def toSnapshot (db : Database) : Json :=
  .object (db.tables.map fun table => (table.name, Snapshot.ofTable table))

/-- The snapshot of a database as text. -/
def serialize (db : Database) : Except Error Text :=
  match db.toSnapshot.text? with
  | some text => .ok text
  | none => .error .unwritableInteger

/-- A database without tables of a name and an order, for a snapshot to be loaded into. -/
def createFor (name : Text) (order : Int) : Except Snapshot.Fault Database :=
  (create name order).mapError .config

/-- Loads a snapshot into a database. -/
def load (db : Database) (snapshot : Json) : Except Snapshot.Fault Database :=
  match snapshot with
  | .object entries => entries.foldlM (fun db (name, entry) => Snapshot.loadTable db name entry) db
  | _ => .error .notMapping

/-- The database of a snapshot, with a name and an order of its own. -/
def ofSnapshot (snapshot : Json) (name : Text) (order : Int) :
    Except Snapshot.Fault Database := do
  (← createFor name order).load snapshot

/-- The database of a snapshot as text. -/
def deserialize (text name : Text) (order : Int) : Except Snapshot.Fault Database := do
  let db ← createFor name order
  match Json.parse text with
  | .error fault => throw (.notJson fault)
  | .ok snapshot => db.load snapshot

/-- The lines of a file with one line feed after each, whether the file ends its lines with carriage
returns, line feeds or both. -/
def unifyLines : Text → Text
  | .char '\r' :: .char '\n' :: rest => '\n' :: unifyLines rest
  | .char '\r' :: rest => '\n' :: unifyLines rest
  | c :: rest => c :: unifyLines rest
  | [] => []

/-- The database of a snapshot file of some content. -/
def ofFile (content : Text) : Except Snapshot.Fault Database :=
  deserialize (unifyLines content) defaultName BTree.Order.default.degree

end Database

/-- The wording of a fault. Faults that concern the kind or the depth of a value have none. -/
def Snapshot.Fault.message? : Snapshot.Fault → Option Text
  | config error => some error.message
  | notJson (.malformed problem line column position) =>
    some ("Snapshot is not valid JSON: " ++ Json.malformedMessage problem line column position)
  | notJson (.limit (.integerTooLong digits)) => some (integerTooLongMessage digits)
  | notMapping => some "Snapshot must be a mapping of table name to table data"
  | malformedEntry table => some ("Malformed snapshot entry for table " ++ table)
  | unnamedColumn shown => some ("Column entry without a name: " ++ shown)
  | unknownType shown => some ("Unknown column type in snapshot: " ++ shown)
  | statement error => some error.message
  | notJson (.limit (.tooDeep _)) | noColumns | wrongKind | notObject => none

end RelStore
