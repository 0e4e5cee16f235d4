import RelStore.Predicate
import RelStore.Schema

/-!
# Statements

The seven kinds of statements, as values. A join keeps the two references of its condition in parts,
the right one belonging to the joined table.
-/

namespace RelStore.Sql

/-- Which rows without a partner a join keeps. -/
inductive JoinKind where
  /-- None. -/
  | inner
  /-- Those of the left side. -/
  | left
  /-- Those of the right side. -/
  | right
  deriving DecidableEq

/-- The keyword of a kind of join. -/
def JoinKind.text : JoinKind → Text
  | inner => "INNER"
  | left => "LEFT"
  | right => "RIGHT"

/-- The kind of join of a keyword. -/
def JoinKind.ofText? (text : Text) : Option JoinKind :=
  [inner, left, right].find? (·.text == text)

/-- One side of the condition of a join. -/
structure JoinColumn where
  /-- The table that the column was qualified with. -/
  table : Option Text
  /-- The bare column name. -/
  column : Text
  deriving DecidableEq

namespace JoinColumn

/-- The parts of a reference to a column. -/
def ofReference (reference : Text) : JoinColumn :=
  match splitQualified? reference with
  | some (table, column) => ⟨some table, column⟩
  | none => ⟨none, reference⟩

/-- The reference of which a column has the parts. -/
def reference (column : JoinColumn) : Text :=
  column.table.elim column.column (qualify · column.column)

end JoinColumn

/-- A join with a table, on the equality of two columns. -/
structure Join where
  /-- The kind of join. -/
  kind : JoinKind
  /-- The joined table. -/
  table : Text
  /-- The column of the rows joined so far. -/
  left : JoinColumn
  /-- The column of the joined table. -/
  right : JoinColumn
  deriving DecidableEq

/-- The join with a table on two columns as they are written around the equals sign. They change
sides when only the left one is qualified by the joined table. -/
def Join.on (kind : JoinKind) (table : Text) (a b : JoinColumn) : Join :=
  if a.table = some table ∧ b.table ≠ some table then ⟨kind, table, b, a⟩ else ⟨kind, table, a, b⟩

/-- The direction of a sort. -/
inductive Direction where
  /-- From the least to the greatest. -/
  | ascending
  /-- From the greatest to the least. -/
  | descending
  deriving DecidableEq

/-- The keyword of a direction. -/
def Direction.text : Direction → Text
  | ascending => "ASC"
  | descending => "DESC"

/-- The direction of a keyword. -/
def Direction.ofText? (text : Text) : Option Direction :=
  [ascending, descending].find? (·.text == text)

/-- A sort key. -/
structure SortKey where
  /-- The reference to the column. -/
  column : Text
  /-- The direction. -/
  direction : Direction
  deriving DecidableEq

/-- A query. -/
structure Select where
  /-- The base table. -/
  table : Text
  /-- The columns asked for, or all. -/
  columns : Option (List Text)
  /-- The joins in order. -/
  joins : List Join
  /-- The conditions on the rows. -/
  conditions : List Condition
  /-- The sort keys, the first one deciding first. -/
  sortKeys : List SortKey
  /-- The greatest number of rows. -/
  limit : Option Nat
  deriving DecidableEq

/-- A statement. -/
inductive Statement where
  /-- Asks for rows. -/
  | select (query : Select)
  /-- Adds rows, given by values for the named columns or for the first columns of the table. -/
  | insert (table : Text) (columns : List Text) (rows : List (List Value))
  /-- Assigns values to columns of the rows for which conditions hold. -/
  | update (table : Text) (assignments : Mapping Text Value) (conditions : List Condition)
  /-- Deletes the rows for which conditions hold. -/
  | delete (table : Text) (conditions : List Condition)
  /-- Makes a table. -/
  | createTable (table : Text) (columns : List Column)
  /-- Makes an index. -/
  | createIndex (name table column : Text) (unique : Bool)
  /-- Drops a table. -/
  | dropTable (table : Text)
  deriving DecidableEq

end RelStore.Sql
