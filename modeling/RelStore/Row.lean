import RelStore.ColumnName
import RelStore.Mapping
import RelStore.Text.Splitting
import RelStore.Value

/-!
# Rows and column references

A row is a mapping from column names to values. A statement refers to a column by its name, or by a
table name and a column name with a dot between them; only the last dot counts, so the name of a
table may itself hold dots.
-/

namespace RelStore

/-- A row: the cells of the columns, in order. -/
abbrev Row := Mapping ColumnName Value

/-- What stands before and after the last dot of a name that has one. -/
def splitQualified? (name : Text) : Option (Text × Text) := name.splitLast? '.'

/-- A table name and a column name with a dot between them. -/
def qualify (table column : Text) : Text := table ++ "." ++ column

namespace Row

/-- The value of a column; a missing one counts as NULL. -/
def cell (row : Row) (column : ColumnName) : Value := (row.get? column).getD .null

/-- The value to which a reference leads: the entry of just this name, or else the entry under the
bare column name. -/
def resolve? (row : Row) (reference : Text) : Option Value :=
  match row.get? reference with
  | some v => some v
  | none => (splitQualified? reference).bind fun (_, column) => row.get? column

end Row

end RelStore
