import RelStore.Error
import RelStore.Sorting.Basic
import RelStore.Sql.Statement

/-!
# Sorting, limiting and projecting rows

Rows are sorted by a list of keys, of which a later one decides where the earlier ones tie; rows
that tie on all keys keep their order. Two rows cannot be compared when a key asks for the text of
an integer that is too long to be written; a sort whose outcome hangs on such a comparison fails.
-/

namespace RelStore

open Sql (Direction SortKey)

/-- The order of two values under a direction. -/
def Sql.Direction.compare (direction : Direction) (a b : Value) : Ordering :=
  match direction with
  | .ascending => a.compare b
  | .descending => (a.compare b).swap

/-- The value by which a sort key ranks a row. A column that the row lacks counts as NULL. -/
def Sql.SortKey.valueIn (key : SortKey) (row : Row) : Value :=
  (row.resolve? key.column).getD .null

/-- The order of two rows under sort keys, if they can be compared. -/
def compareRows? : List SortKey → Row → Row → Option Ordering
  | [], _, _ => some .eq
  | key :: keys, a, b =>
    if (key.valueIn a).isComparable (key.valueIn b) then
      match key.direction.compare (key.valueIn a) (key.valueIn b) with
      | .eq => compareRows? keys a b
      | order => some order
    else none

/-- Whether a row comes before another one under sort keys; `unknown` when the two cannot be
compared. -/
def precedes (keys : List SortKey) (unknown : Bool) (a b : Row) : Bool :=
  match compareRows? keys a b with
  | some order => order == .lt
  | none => unknown

/-- Rows with their places in the order of sort keys, rows that cannot be compared taken as
`unknown` says. -/
def rankRows (keys : List SortKey) (unknown : Bool) (rows : List Row) : List (Row × Nat) :=
  Sorting.stableSort (fun a b => precedes keys unknown a.1 b.1) rows.zipIdx

/-- Rows in the order of sort keys. It must be the same whatever is taken of rows that cannot be
compared. So it is the two orders that tell a failure and not the comparisons: a sort that compares
two such rows, but whose outcome does not hang on it, succeeds here. -/
def sortRows (keys : List SortKey) (rows : List Row) : Except Error (List Row) :=
  if keys.isEmpty then .ok rows
  else
    let ranked := rankRows keys true rows
    if ranked.map (·.2) = (rankRows keys false rows).map (·.2) then .ok (ranked.map (·.1))
    else .error .unwritableInteger

/-- The first rows up to a limit; a negative limit tells how many rows to leave out at the end. -/
def limitRows (limit : Option Int) (rows : List Row) : List Row :=
  match limit with
  | none => rows
  | some n => if 0 ≤ n then rows.take n.toNat else rows.take (rows.length - n.natAbs)

/-- The cells of a row to which some references lead, under these references. References that lead
nowhere are left out. -/
def projectRow (columns : List Text) (row : Row) : Row :=
  .ofList (columns.filterMap fun column => (row.resolve? column).map fun v => (↑column, v))

/-- The named columns of rows. -/
def project (columns : List Text) (rows : List Row) : List Row := rows.map (projectRow columns)

end RelStore
