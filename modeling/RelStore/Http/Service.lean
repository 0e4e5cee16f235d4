import RelStore.Http.Connection
import RelStore.Snapshot

/-!
# The service of a database

Clients send statements and ask for the tables, the description of a table, and a snapshot. Answers
are JSON. A failed statement is answered with its result under the status of a bad request.
-/

namespace RelStore

/-- A column as a description of a table shows it. -/
def Column.description (column : Column) : Json :=
  .object [
    ("name", .ofColumnName column.name),
    ("type", .string column.type.name),
    ("constraints", .array (column.constraints.map .string))]

/-- An index as a description of a table shows it. -/
def Index.description (index : Index) : Json :=
  .object [
    ("name", .string index.name),
    ("column", .string index.column),
    ("unique", .bool index.unique)]

/-- The description of a table: its columns, its indexes and the number of its rows. -/
def Table.description (table : Table) : Json :=
  .object [
    ("name", .string table.name),
    ("columns", .array (table.schema.columns.map Column.description)),
    ("indexes", .array (table.indexes.map Index.description)),
    ("rowCount", .int table.rowCount)]

/-- An object of the members that have a value. -/
def Json.ofPresent (members : List (Text × Option Json)) : Json :=
  .object (members.filterMap fun (name, value) => value.map fun value => (name, value))

/-- A result as JSON; what does not apply is left out. No time is measured, so the time is zero. -/
def Result.toJson (result : Result) : Json :=
  .ofPresent [
    ("success", some (.bool result.success)),
    ("executionTimeMs", some (.float (.zero false))),
    ("message", result.message.map .string),
    ("error", result.kind.map fun kind => .string kind.name),
    ("rows", result.rows.map fun rows => .array (rows.map Json.ofRow)),
    ("rowCount", result.rowCount.map fun count => .int count),
    ("columns", result.columns.map fun columns => .array (columns.map Json.ofColumnName))]

namespace Http

/-- A response of a status with a JSON value, unless the value cannot be written. -/
def jsonReply (status : Int) (payload : Json) : Except Text Reply :=
  if payload.isWritable then .ok (.response ((Response.ofStatus status []).withJson payload))
  else .error unwritableIntegerMessage

/-- A response that says why a request has failed. -/
def errorReply (status : Int) (message : Text) : Except Text Reply :=
  .ok (.response (.ofError status message))

/-- Carries out the statement of a request. -/
def answerQuery (request : Request) (db : Database) : Except Text Reply × Database :=
  match request.jsonError? with
  | some message => (errorReply 400 ("Request body is not valid JSON: " ++ message), db)
  | none =>
    let missing := (errorReply 400 "Missing 'sql' in request body", db)
    match request.field? "sql" with
    | some (.string sql) =>
      if sql.strip.isEmpty then missing
      else
        let (result, db) := db.execute sql
        (jsonReply (if result.success then 200 else 400) result.toJson, db)
    | _ => missing

/-- Lists the tables. -/
def answerTables (_ : Request) (db : Database) : Except Text Reply × Database :=
  (jsonReply 200 (.object [("tables", .array (db.tableNames.map .string))]), db)

/-- Describes a table. Names that are no texts name no table, and lists and objects cannot even be
looked up. -/
def describeTable (name : Json) (db : Database) : Except Text Reply :=
  let unknown := errorReply 404 ("Table \"" ++ name.displayed ++ "\" does not exist")
  if !name.isTruthy then errorReply 400 "Missing 'name' parameter"
  else
    match name with
    | .string text =>
      match db.table? text with
      | some table => jsonReply 200 table.description
      | none => unknown
    | .array _ => .error "unhashable type: 'list'"
    | .object _ => .error "unhashable type: 'dict'"
    | _ => unknown

/-- Describes the table that a request names. -/
def answerTableInfo (request : Request) (db : Database) : Except Text Reply × Database :=
  (describeTable ((request.field? "name").getD .null) db, db)

/-- Sends a snapshot. -/
def answerSnapshot (_ : Request) (db : Database) : Except Text Reply × Database :=
  (jsonReply 200 db.toSnapshot, db)

/-- The routes of the service. -/
def routes : List (Route Database) :=
  [⟨"POST", "/query", answerQuery⟩,
   ⟨"GET", "/tables", answerTables⟩,
   ⟨"GET", "/tables/info", answerTableInfo⟩,
   ⟨"GET", "/snapshot", answerSnapshot⟩]

end Http

end RelStore
