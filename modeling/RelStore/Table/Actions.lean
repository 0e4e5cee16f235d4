import RelStore.BTree.Comparing
import RelStore.Table

/-!
# Operations on tables step by step

The operations that change a table, as actions on it: what is read is read by the functions of
`Table`, and every change is made at its place, to the rows, to the counters and to one index after
the other. A change that fails, since a key cannot be compared with those of an index, leaves the
changes before it.
-/

namespace RelStore

namespace Index

/-- Carries out an action on the tree of an index. -/
def onTree {α : Type} (act : Action (BTree Nat) α) : Action Index α :=
  .within Index.tree (fun tree index => { index with tree }) act

/-- Adds a row's position under its key. -/
def linkM (row : Row) (position : Nat) : Action Index Unit := do
  onTree (BTree.insertM (row.cell (← get).column) position)

/-- Takes a row's position out from under its key. -/
def unlinkM (row : Row) (position : Nat) : Action Index Unit := do
  onTree (BTree.eraseM (row.cell (← get).column) position)

/-- Moves a row's position to its new key, if the column is assigned to. -/
def relinkM (assigned previous row : Row) (position : Nat) : Action Index Unit := do
  if assigned.has (← get).column then
    unlinkM previous position
    linkM row position

/-- Builds an index anew over rows. -/
def rebuildM (rows : List Row) : Action Index Unit := do
  modify fun index => { index with tree := index.tree.clear }
  rows.zipIdx.forM fun (row, position) => linkM row position

end Index

namespace Table

/-- Carries out an action on the indexes of a table, one after the other. -/
def onIndexes (act : Action Index Unit) : Action Table Unit :=
  .within Table.indexes (fun indexes table => { table with indexes }) (.each act)

/-- Puts a row, or none, at a position. -/
def putRow (position : Nat) (row? : Option Row) (table : Table) : Table :=
  { table with rows := table.rows.set position row? }

/-- Appends a row of cells after all checks: the row first, then its numbers, then its key in every
index. Gives the row as it is stored. -/
def insertCellsM (cells : Mapping ColumnName Cell) : Action Table Row := do
  let table ← get
  let cells ← table.bareNames cells
  let row ← table.newRow cells
  match table.indexes.find? (·.conflicts row) with
  | some index => throw (.ofDuplicate index.column (row.cell index.column))
  | none =>
    modify fun table => { table with rows := table.rows ++ [some row] }
    modify fun table => { table with counters := table.countersAfter cells }
    onIndexes (Index.linkM row table.rows.length)
    return row

/-- Assigns new values to the rows at some positions, each with its keys before the next one. Gives
these rows. -/
def assignAllM (assigned : Row) : List Nat → Action Table (List Row)
  | [] => return []
  | position :: rest => do
    match (← get).row? position with
    | none => assignAllM assigned rest
    | some previous =>
      let row := previous.putAll assigned
      modify (putRow position (some row))
      onIndexes (Index.relinkM assigned previous row position)
      return row :: (← assignAllM assigned rest)

/-- Assigns what some cells offer to the rows for which conditions hold, after all checks. Gives
these rows. -/
def updateCellsM (cells : Mapping Text Cell) (conditions : List Condition) :
    Action Table (List Row) := do
  let table ← get
  let assigned ← table.assignments cells
  let targets ← table.targets conditions
  match table.updateConflict? assigned targets with
  | some (column, key) => throw (.ofDuplicate column key)
  | none => assignAllM assigned targets

/-- Deletes the rows at some positions, each from all indexes before it goes itself. Gives these
rows. -/
def deleteAllM : List Nat → Action Table (List Row)
  | [] => return []
  | position :: rest => do
    match (← get).row? position with
    | none => deleteAllM rest
    | some row =>
      onIndexes (Index.unlinkM row position)
      modify (putRow position none)
      return row :: (← deleteAllM rest)

/-- Deletes the rows for which conditions hold. Gives these rows. -/
def deleteM (conditions : List Condition) : Action Table (List Row) := do
  deleteAllM (← (← get).targets conditions)

/-- Adds an index over the rows of a table. Its tree is built before the table gets it. -/
def createIndexM (name : Text) (reference : ColumnName) (unique : Bool) : Action Table Unit := do
  let table ← get
  if table.indexes.any (·.name == name) then throw (.indexExists name)
  let column ← table.schema.columnName reference
  match BTree.Order.ofInt? table.treeOrder with
  | none => throw (.treeOrder table.treeOrder)
  | some order =>
    let tree ← buildTree order column unique table.live
    modify fun table => { table with indexes := table.indexes ++ [⟨name, column, unique, tree⟩] }

/-- Drops the empty positions and then builds the indexes anew. -/
def compactM : Action Table Unit := do
  let rows := (← get).liveRows
  if (← get).rows.length = rows.length then return ()
  modify fun table => { table with rows := rows.map some }
  onIndexes (Index.rebuildM rows)

end Table

end RelStore
