import RelStore.Error
import RelStore.Sql.Statement

/-!
# Joins of row lists

Two lists of rows are joined by comparing every row of the one with every row of the other. A joined
row carries each cell under its bare column name, where the later side wins, and under its name
qualified by the table. An unmatched row that an outer join keeps has no cells of the other side.

A join fails where two values cannot be compared, and where a row is to be carried over that has a
column whose name is no text (`joinFault?`).
-/

namespace RelStore

open Sql (JoinColumn JoinKind)

/-- One side of a join. -/
structure JoinSide where
  /-- The rows. -/
  rows : List Row
  /-- The table that qualifies the bare names of the rows. -/
  table : Text
  /-- The column that is compared. -/
  column : JoinColumn

/-- The value that a row has in the compared column: under the qualified name, or else under the
bare one. -/
def joinKey? (row : Row) (column : JoinColumn) : Option Value :=
  match column.table.bind fun table => row.get? ↑(qualify table column.column) with
  | some v => some v
  | none => row.get? column.column

/-- The bare names in a row for which the row has a qualified name too. -/
def qualifiedNames (row : Row) : List Text :=
  row.names.filterMap fun
    | .text name => (splitQualified? name).map (·.2)
    | _ => none

/-- The entries that a row brings into a joined row: each of its own, and after each bare name that
no qualified name stands for, the same cell under the name qualified by the table. -/
def joinedEntries (row : Row) (table : Text) : List (ColumnName × Value) :=
  row.flatMap fun (name, v) =>
    match name with
    | .text bare =>
      if bare.contains '.' || (qualifiedNames row).contains bare then [(name, v)]
      else [(name, v), (.text (qualify table bare), v)]
    | _ => [(name, v)]

/-- Puts a left row and, when there is one, a right row into a joined row. -/
def combine (left : Row) (leftTable : Text) (right : Option Row) (rightTable : Text) : Row :=
  let start := Mapping.ofList (joinedEntries left leftTable)
  match right with
  | none => start
  | some right => start.putAll (joinedEntries right rightTable)

/-- Whether two rows are partners: both have their column, and the values are equal. -/
def partners (left right : JoinSide) (l r : Row) : Bool :=
  match joinKey? l left.column, joinKey? r right.column with
  | some a, some b => Operator.holds .eq a b
  | _, _ => false

/-- The joined rows of one left row: one for each partner, or else, if unmatched rows are kept, one
without a right side. -/
def joinRow (left right : JoinSide) (keepUnmatched : Bool) (l : Row) : List Row :=
  match right.rows.filter (partners left right l) with
  | [] => if keepUnmatched then [combine l left.table none right.table] else []
  | matched => matched.map fun r => combine l left.table (some r) right.table

/-- What keeps a row from being carried over into a joined row, if anything does. -/
def carryFault? (row : Row) : Option Error :=
  row.names.findSome? fun
    | .text _ => none
    | name => some (.nameNotText name)

/-- What keeps two rows from being compared or, if they are partners, from being joined. -/
def pairFault? (left right : JoinSide) (l r : Row) : Option Error :=
  match joinKey? l left.column, joinKey? r right.column with
  | some a, some b =>
    if !a.isComparable b then some .unwritableInteger
    else if partners left right l r then carryFault? (l ++ r)
    else none
  | _, _ => none

/-- The first fault that a join comes upon, if any. -/
def joinFault? (left right : JoinSide) (keepUnmatched : Bool) : Option Error :=
  left.rows.findSome? fun l =>
    match right.rows.findSome? (pairFault? left right l) with
    | some fault => some fault
    | none =>
      if keepUnmatched && !right.rows.any (partners left right l) then carryFault? l else none

/-- The joined rows of two sides, in the order of the left rows and then of their partners. -/
def joinLeft (left right : JoinSide) (keepUnmatched : Bool) : Except Error (List Row) :=
  match joinFault? left right keepUnmatched with
  | some fault => .error fault
  | none => .ok (left.rows.flatMap (joinRow left right keepUnmatched))

/-- Joins two sides. Keeping the right rows is keeping the left rows with the sides exchanged. -/
def join (kind : JoinKind) (left right : JoinSide) : Except Error (List Row) :=
  match kind with
  | .inner => joinLeft left right false
  | .left => joinLeft left right true
  | .right => joinLeft right left true

end RelStore
