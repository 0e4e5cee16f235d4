import RelStore.Error
import RelStore.Schema
import RelStore.Text.Case

/-!
# Coercion to column types

A value that is put into a column is first converted to the type of the column, or refused. NULL
passes through unchanged, and so does a value that is of the type already. An integer that is too
long to be written can only stay an integer: its text is needed to store it as a text and to refuse
it.
-/

namespace RelStore

/-- The integer that a value stands for: floats lose their fraction, and texts are read as an
integer or else as a float. -/
def Value.toInt? : Value → Option Int
  | .int n => some n
  | .float x => x.truncate?
  | .string s =>
    match readInteger? s with
    | some n => some n
    | none => (readFloat? s).bind Binary64.truncate?
  | .null | .bool _ => none

/-- The finite float that a value stands for: integers are rounded to the nearest float, and texts
are read. -/
def Value.toFloat? : Value → Option Binary64
  | .int n => some (.ofInt n) |>.filter Binary64.isFinite
  | .float x => some x |>.filter Binary64.isFinite
  | .string s => (readFloat? s).filter Binary64.isFinite
  | .null | .bool _ => none

/-- The truth value that a value stands for: one and zero of either number type, and the words for
them in any case, with blanks around them. -/
def Value.toBool? : Value → Option Bool
  | .bool b => some b
  | .int n => if n = 1 then some true else if n = 0 then some false else none
  | .float x =>
    match x.toInt? with
    | some n => if n = 1 then some true else if n = 0 then some false else none
    | none => none
  | .string s =>
    let word := s.strip.lower
    if word = "true" ∨ word = "1" then some true
    else if word = "false" ∨ word = "0" then some false
    else none
  | .null => none

/-- The value of a column type that a value stands for, if it stands for one. -/
def Value.toType? : DataType → Value → Option Value
  | .int, v => v.toInt?.map .int
  | .float, v => v.toFloat?.map .float
  | .boolean, v => v.toBool?.map .bool
  | .string, v => some (.string v.render)

/-- A column type as a refused value is told. -/
def DataType.noun : DataType → Text
  | .int => "integer"
  | .float => "float"
  | .boolean => "boolean"
  | .string => "string"

/-- A value converted to a column type. -/
def coerce (type : DataType) (v : Value) : Except Error Value :=
  if v.isNull then .ok v
  else if type ≠ .int ∧ !v.isWritable then .error .unwritableInteger
  else
    match v.toType? type with
    | some converted => .ok converted
    | none => .error (.notCoercible v.render type.noun)

end RelStore
