import RelStore.Error
import RelStore.Row

/-!
# Results of statements

A result tells whether a statement was carried out, and as far as they apply its message, the kind
of its error, rows, their number, and the columns in the order in which to show them.
-/

namespace RelStore

/-- The result of a statement. -/
structure Result where
  /-- Whether the statement was carried out. -/
  success : Bool
  /-- What was done, or why it was not. -/
  message : Option Text := none
  /-- The rows asked for or touched. -/
  rows : Option (List Row) := none
  /-- The number of rows. -/
  rowCount : Option Nat := none
  /-- The columns of the rows in order. -/
  columns : Option (List ColumnName) := none
  /-- The kind of the error. -/
  kind : Option ErrorKind := none
  deriving DecidableEq

namespace Result

/-- The result of a statement that answers with a message only. -/
def done (message : Text) : Result := { success := true, message := some message }

/-- The result of a statement that answers with rows. -/
def ofRows (message : Option Text) (rows : List Row) (columns : List ColumnName) : Result where
  success := true
  message := message
  rows := some rows
  rowCount := some rows.length
  columns := some columns

/-- The message of an error, which tells the errors without a kind from the others. -/
def errorMessage (error : Error) : Text :=
  match error.kind? with
  | some _ => error.message
  | none => "Internal error: " ++ error.message

/-- The result of a statement that failed without a trace. -/
def ofError (error : Error) : Result where
  success := false
  message := some (errorMessage error)
  kind := error.kind?

/-- The result of an insertion that stopped after some rows. -/
def ofPartialInsert (error : Error) (rows : List Row) (columns : List ColumnName) : Result where
  success := false
  message := some (error.message ++ " (" ++ Text.ofNat rows.length ++
    " row(s) inserted before the failure)")
  rows := some rows
  rowCount := some rows.length
  columns := some columns
  kind := error.kind?

end Result

end RelStore
