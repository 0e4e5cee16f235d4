import RelStore.BTree.Basic
import RelStore.Coercion
import RelStore.Predicate

/-!
# Tables

A table is the one source of its rows, constraints and indexes. Rows are appended and keep their
position; a deleted row leaves its position empty, so the entries of the indexes stay valid. Every
unique column gets a unique index when the table is made. `Table.compact` renumbers the rows.

The operations that change a table are functions here, which return the changed table or an error.
`RelStore.Table.Actions` carries the same operations out step by step, with the table that a failure
leaves.
-/

namespace RelStore

/-- A named index on a column. -/
structure Index where
  /-- The name, which no other index of the table has. -/
  name : Text
  /-- The column whose values are the keys. -/
  column : Text
  /-- Whether no two rows may share a key other than NULL. -/
  unique : Bool
  /-- The positions of the rows by key. -/
  tree : BTree Nat

/-- A table. -/
structure Table where
  /-- The name and the columns. -/
  schema : Schema
  /-- The order that the trees of new indexes get. -/
  treeOrder : Int
  /-- The rows by position; deleted rows leave an empty position. -/
  rows : List (Option Row)
  /-- The indexes in the order of their creation. -/
  indexes : List Index
  /-- The last number given to each column that counts up, in column order. -/
  counters : Mapping ColumnName Nat

/-- What a new row or an update offers for a column. -/
inductive Cell where
  /-- A value. -/
  | value (v : Value)
  /-- Something that no column can hold, known by what messages show of it. -/
  | unsupported (shown : Text)
  deriving DecidableEq

/-- The value that is offered for a column of a type. -/
def Cell.valueFor (type : DataType) : Cell → Except Error Value
  | value v => .ok v
  | unsupported shown => .error (.notCoercible shown type.name)

namespace Schema

/-- The first name in a list that has come before, in the list or among the ones seen. -/
def firstRepeated? (seen : List ColumnName) : List ColumnName → Option ColumnName
  | [] => none
  | name :: rest =>
    if seen.contains name.canonical then some name
    else firstRepeated? (name.canonical :: seen) rest

/-- The schema of a table name and columns, unless two columns share a name. -/
def define (table : Text) (columns : List Column) : Except Error Schema :=
  if distinct : (columns.map (·.name.canonical)).Nodup then .ok ⟨table, columns, distinct⟩
  else
    let repeated := firstRepeated? [] (columns.map Column.name)
    .error (.duplicateColumn (repeated.getD (.text [])) table)

/-- The bare name of the column that a text refers to, which may be qualified by the table. -/
def bareName (schema : Schema) (reference : Text) : Except Error Text :=
  let missing : Except Error Text := .error (.columnNotFound reference (some schema.table))
  match splitQualified? reference with
  | none => if schema.hasColumn reference then .ok reference else missing
  | some (table, name) =>
    if table = schema.table ∧ schema.hasColumn name then .ok name else missing

/-- The bare name of the column that a name refers to. Only texts refer to columns. -/
def columnName (schema : Schema) : ColumnName → Except Error Text
  | .text reference => schema.bareName reference
  | name => .error (.nameNotText name)

end Schema

namespace Index

/-- An index with a row's position added under its key. -/
def link (index : Index) (row : Row) (position : Nat) : Index :=
  { index with tree := index.tree.insert (row.cell index.column) position }

/-- An index with a row's position taken out from under its key. -/
def unlink (index : Index) (row : Row) (position : Nat) : Index :=
  { index with tree := index.tree.erase (row.cell index.column) position }

/-- Whether a unique index holds a row's key already. -/
def conflicts (index : Index) (row : Row) : Bool :=
  index.unique && !(row.cell index.column).isNull && index.tree.has (row.cell index.column)

end Index

namespace Table

/-- The name of a table. -/
def name (table : Table) : Text := table.schema.table

/-- The row at a position, if there is one. -/
def row? (table : Table) (position : Nat) : Option Row := (table.rows[position]?).join

/-- The rows that are not deleted, each with its position. -/
def live (table : Table) : List (Nat × Row) :=
  table.rows.zipIdx.filterMap fun (row, position) => row.map fun row => (position, row)

/-- The rows that are not deleted, in order. -/
def liveRows (table : Table) : List Row := table.rows.filterMap id

/-- How many rows are not deleted: all positions less the empty ones. -/
def rowCount (table : Table) : Nat := table.rows.length - table.rows.countP Option.isNone

/-- The first index on a column. -/
def findIndex? (table : Table) (column : Text) : Option Index :=
  table.indexes.find? fun index => index.column == column

/-- The index tree over some rows. In a unique index, a key other than NULL that comes a second time
is an error. -/
def buildTree (order : BTree.Order) (column : Text) (unique : Bool) (rows : List (Nat × Row)) :
    Except Error (BTree Nat) :=
  rows.foldlM (fun tree (position, row) =>
    let key := row.cell column
    if unique && !key.isNull && tree.has key then .error (.ofDuplicate column key)
    else .ok (tree.insert key position)) (BTree.empty order)

/-- Adds an index over the rows of a table. -/
def createIndex (table : Table) (name : Text) (reference : ColumnName) (unique : Bool) :
    Except Error Table := do
  if table.indexes.any (·.name == name) then throw (.indexExists name)
  let column ← table.schema.columnName reference
  match BTree.Order.ofInt? table.treeOrder with
  | none => throw (.treeOrder table.treeOrder)
  | some order =>
    let tree ← buildTree order column unique table.live
    return { table with indexes := table.indexes ++ [⟨name, column, unique, tree⟩] }

/-- The name of the index that a unique column gets with its table. -/
def indexNameFor (table : Text) (column : ColumnName) : Text :=
  "idx_" ++ table ++ "_" ++ column.shown

/-- A table without rows, with an index for every unique column and a counter for every column that
counts up. -/
def create (name : Text) (columns : List Column) (treeOrder : Int) : Except Error Table := do
  let schema ← Schema.define name columns
  let counters := (columns.filter (·.autoIncrement)).map fun column => (column.name, 0)
  (columns.filter (·.unique)).foldlM
    (fun table column => table.createIndex (indexNameFor name column.name) column.name true)
    ⟨schema, treeOrder, [], [], counters⟩

/-- The cells of a new row by bare column names. -/
def bareNames (table : Table) (cells : Mapping ColumnName Cell) :
    Except Error (Mapping ColumnName Cell) :=
  cells.foldlM (fun renamed (reference, cell) => do
    let column ← table.schema.columnName reference
    return renamed.put ↑column cell) []

/-- The value that some cells offer for a column: NULL when there is none. -/
def offeredFor (cells : Mapping ColumnName Cell) (column : Column) : Except Error Value :=
  match cells.get? column.name with
  | none => .ok .null
  | some cell => cell.valueFor column.type

/-- The value that a new row has in a column: the offered one, or the next number of the counter
where none or NULL is offered; then the value is converted to the type of the column. -/
def newCell (table : Table) (cells : Mapping ColumnName Cell) (column : Column) :
    Except Error Value := do
  let offered ← offeredFor cells column
  let v : Value :=
    if column.autoIncrement && offered.isNull then
      .int (((table.counters.get? column.name).getD 0 + 1 : Nat) : Int)
    else offered
  if column.notNull && v.isNull then throw (.nullRefused column.name)
  coerce column.type v

/-- Whether a new row takes the next number of a column's counter. -/
def takesNumber (cells : Mapping ColumnName Cell) (column : ColumnName) : Bool :=
  match cells.get? column with
  | none => true
  | some (.value v) => v.isNull
  | some (.unsupported _) => false

/-- The new row of some cells, with a value in every column of the table. -/
def newRow (table : Table) (cells : Mapping ColumnName Cell) : Except Error Row :=
  table.schema.columns.mapM fun column => do return (column.name, ← table.newCell cells column)

/-- The counters after a new row has taken its numbers from them. -/
def countersAfter (table : Table) (cells : Mapping ColumnName Cell) : Mapping ColumnName Nat :=
  table.counters.map fun (column, count) =>
    (column, if takesNumber cells column then count + 1 else count)

/-- A table with a row at a new position, under its keys in all indexes. -/
def append (table : Table) (row : Row) : Table :=
  { table with
    rows := table.rows ++ [some row]
    indexes := table.indexes.map (·.link row table.rows.length) }

/-- Appends a row of cells; also returns the row as it is stored. -/
def insertCells (table : Table) (cells : Mapping ColumnName Cell) :
    Except Error (Row × Table) := do
  let cells ← table.bareNames cells
  let row ← table.newRow cells
  match table.indexes.find? (·.conflicts row) with
  | some index => throw (.ofDuplicate index.column (row.cell index.column))
  | none => return (row, { table.append row with counters := table.countersAfter cells })

/-- Appends a row; also returns the row as it is stored. -/
def insert (table : Table) (row : Row) : Except Error (Row × Table) :=
  table.insertCells (row.mapValues .value)

/-- Whether a literal compares with the values of a column type as these do with each other, so that
an index finds what a scan would find. -/
def sameOrdering (v : Value) : DataType → Bool
  | .int | .float => v.isNull || v.isNumeric
  | .boolean =>
    match v with
    | .null | .bool _ => true
    | _ => false
  | .string =>
    match v with
    | .null | .string _ => true
    | _ => false

/-- The positions of the live rows for which conditions hold, found by going through all rows. -/
def scan (table : Table) (conditions : List Condition) : Except Error (List Nat) := do
  return (← Condition.select conditions (·.2) table.live).map (·.1)

/-- The positions under a key of an index that hold a row, in order. -/
def lookUp (table : Table) (index : Index) (key : Value) : List Nat :=
  ((index.tree.search key).filter fun position => (table.row? position).isSome).mergeSort

/-- The conditions of a statement with bare column names. -/
def bareConditions (table : Table) (conditions : List Condition) : Except Error (List Condition) :=
  conditions.mapM fun condition => do
    return { condition with column := ← table.schema.columnName condition.column }

/-- The positions of the rows that a statement is about, in order. A lone `=` on a column with an
index is looked up in the index when the literal orders like the column; all else is a scan. -/
def targets (table : Table) (conditions : List Condition) : Except Error (List Nat) := do
  let conditions ← table.bareConditions conditions
  match conditions with
  | [⟨column, .eq, v, _⟩] =>
    match table.findIndex? column, table.schema.column? column with
    | some index, some definition =>
      if sameOrdering v definition.type then return table.lookUp index v
      else table.scan conditions
    | _, _ => table.scan conditions
  | _ => table.scan conditions

/-- The rows for which conditions hold. -/
def select (table : Table) (conditions : List Condition) : Except Error (List Row) := do
  return (← table.targets conditions).filterMap table.row?

/-- The rows for which `column operator v` holds, the operator given as text in any case. -/
def selectWhere (table : Table) (column operator : Text) (v : Value) :
    Except Error (List Row) :=
  let text : Text := if operator = "<>" then "!=" else operator.upper
  match Operator.ofText? text with
  | some operator => table.select [⟨column, operator, v, none⟩]
  | none => .error (.unknownOperator text)

/-- The new values of an update by bare column names, converted to the types of the columns. -/
def assignments (table : Table) (cells : Mapping Text Cell) : Except Error Row :=
  cells.foldlM (fun assigned (reference, cell) => do
    let name ← table.schema.columnName reference
    match table.schema.column? name with
    | none => throw (.columnNotFound reference (some table.name))
    | some column =>
      let v ← cell.valueFor column.type
      if column.notNull && v.isNull then throw (.nullRefused name)
      return assigned.put ↑name (← coerce column.type v)) []

/-- Whether giving a new key to the target rows would put it twice into a unique index. -/
def updateConflicts (table : Table) (targets : List Nat) (index : Index) (key : Value) : Bool :=
  index.unique && !key.isNull && !targets.isEmpty &&
    (1 < targets.length || (index.tree.search key).any fun position =>
      !targets.contains position && (table.row? position).isSome)

/-- A table with new values assigned to the row at a position, and that row. -/
def assignAt (table : Table) (assigned : Row) (position : Nat) : Option (Row × Table) :=
  (table.row? position).map fun previous =>
    let row := previous.putAll assigned
    (row, { table with
      rows := table.rows.set position (some row)
      indexes := table.indexes.map fun index =>
        if assigned.has index.column then (index.unlink previous position).link row position
        else index })

/-- Assigns new values to the rows at some positions; also returns these rows. -/
def assignAll (table : Table) (assigned : Row) : List Nat → List Row × Table
  | [] => ([], table)
  | position :: rest =>
    match table.assignAt assigned position with
    | none => assignAll table assigned rest
    | some (row, table) =>
      let (rows, table) := assignAll table assigned rest
      (row :: rows, table)

/-- The column of the first unique index into which assigning new values to the target rows would
put a key twice, with the key. -/
def updateConflict? (table : Table) (assigned : Row) (targets : List Nat) : Option (Text × Value) :=
  table.indexes.findSome? fun index =>
    (assigned.get? index.column).bind fun key =>
      if table.updateConflicts targets index key then some (index.column, key) else none

/-- Assigns what some cells offer to the rows for which conditions hold; also returns these rows. -/
def updateCells (table : Table) (cells : Mapping Text Cell) (conditions : List Condition) :
    Except Error (List Row × Table) := do
  let assigned ← table.assignments cells
  let targets ← table.targets conditions
  match table.updateConflict? assigned targets with
  | some (column, key) => throw (.ofDuplicate column key)
  | none => return table.assignAll assigned targets

/-- Assigns new values to the rows for which conditions hold; also returns these rows. -/
def update (table : Table) (values : Mapping Text Value) (conditions : List Condition) :
    Except Error (List Row × Table) :=
  table.updateCells (values.mapValues .value) conditions

/-- A table without the row at a position, and that row. -/
def deleteAt (table : Table) (position : Nat) : Option (Row × Table) :=
  (table.row? position).map fun row =>
    (row, { table with
      rows := table.rows.set position none
      indexes := table.indexes.map (·.unlink row position) })

/-- Deletes the rows at some positions; also returns these rows. -/
def deleteAll (table : Table) : List Nat → List Row × Table
  | [] => ([], table)
  | position :: rest =>
    match table.deleteAt position with
    | none => deleteAll table rest
    | some (row, table) =>
      let (rows, table) := deleteAll table rest
      (row :: rows, table)

/-- Deletes the rows for which conditions hold; also returns these rows. -/
def delete (table : Table) (conditions : List Condition) : Except Error (List Row × Table) := do
  return table.deleteAll (← table.targets conditions)

/-- The greatest integer among the live values of a column, or a given number if that is greater. -/
def greatest (table : Table) (column : ColumnName) (least : Nat) : Nat :=
  table.liveRows.foldl (fun best row =>
    match row.cell column with
    | .int n => max best n.toNat
    | _ => best) least

/-- Moves every counter up to the greatest integer that its column holds. -/
def restoreCounters (table : Table) : Table :=
  { table with
    counters := table.counters.map fun (column, count) => (column, table.greatest column count) }

/-- An index built anew over rows. -/
def rebuild (index : Index) (rows : List Row) : Index :=
  rows.zipIdx.foldl (fun index (row, position) => index.link row position)
    { index with tree := index.tree.clear }

/-- Drops the empty positions and builds the indexes anew; also returns how many positions were
dropped. -/
def compact (table : Table) : Nat × Table :=
  let rows := table.liveRows
  let dropped := table.rows.length - rows.length
  if dropped = 0 then (0, table)
  else (dropped, { table with
    rows := rows.map some
    indexes := table.indexes.map (rebuild · rows) })

end Table

end RelStore
