import RelStore.ColumnName
import RelStore.Json.Value
import RelStore.Number.Decimal
import RelStore.Text.Quoted

/-!
# Writing of JSON

`Json.text` writes a value on one line, with a space after every comma and colon, in ASCII:
characters beyond it are written by their 16-bit units. A value that holds an integer of too many
digits is not written (`Json.text?`). `Json.shown` is the form in which messages show a value, with
words for null and the truth values and with quoted texts.
-/

namespace RelStore

/-- A 16-bit unit as an escape. -/
def escapedUnit (unit : Nat) : Text := "\\u" ++ Text.hexDigits 4 unit

/-- A code point as it is written in a JSON text. -/
def escapedPoint (c : CodePoint) : Text :=
  if c = '"' ∨ c = '\\' then ['\\', c]
  else if c = '\n' then "\\n"
  else if c = '\r' then "\\r"
  else if c = '\t' then "\\t"
  else if c.code = 8 then "\\b"
  else if c.code = 12 then "\\f"
  else if 0x20 ≤ c.code ∧ c.code < 0x7F then [c]
  else if c.code < 0x10000 then escapedUnit c.code
  else
    let n := c.code - 0x10000
    escapedUnit (0xD800 + n / 0x400) ++ escapedUnit (0xDC00 + n % 0x400)

/-- A text as a JSON string. -/
def jsonString (s : Text) : Text := "\"" ++ s.flatMap escapedPoint ++ "\""

/-- A float as a JSON number; the infinities and `nan` have names of their own. -/
def jsonFloat (x : Binary64) : Text :=
  match x with
  | .finite .. => x.text
  | .infinite negative => if negative then "-Infinity" else "Infinity"
  | .nan => "NaN"

/-- The name of a member for the cell of a column. -/
def ColumnName.memberName : ColumnName → Text
  | .text name => name
  | .int n => .ofInt n
  | .float x => jsonFloat x
  | .bool b => if b then "true" else "false"

namespace Json

mutual

/-- Whether a value holds no integer of too many digits. -/
def isWritable : Json → Bool
  | int n => RelStore.isWritable n
  | array items => itemsWritable items
  | object members => membersWritable members
  | null | bool _ | float _ | string _ => true

/-- Whether no item of a list holds an integer of too many digits. -/
def itemsWritable : List Json → Bool
  | [] => true
  | item :: items => isWritable item && itemsWritable items

/-- Whether no member of an object holds an integer of too many digits. -/
def membersWritable : List (Text × Json) → Bool
  | [] => true
  | (_, value) :: members => isWritable value && membersWritable members

end

mutual

/-- A value as JSON text. -/
def text : Json → Text
  | null => "null"
  | bool b => if b then "true" else "false"
  | int n => .ofInt n
  | float x => jsonFloat x
  | string s => jsonString s
  | array [] => "[]"
  | array (item :: items) => "[" ++ text item ++ textOfItems items ++ "]"
  | object [] => "\x7b\x7d"
  | object ((name, value) :: members) =>
    "\x7b" ++ jsonString name ++ ": " ++ text value ++ textOfMembers members ++ "\x7d"

/-- The items after the first one of a list. -/
def textOfItems : List Json → Text
  | [] => ""
  | item :: items => ", " ++ text item ++ textOfItems items

/-- The members after the first one of an object. -/
def textOfMembers : List (Text × Json) → Text
  | [] => ""
  | (name, value) :: members =>
    ", " ++ jsonString name ++ ": " ++ text value ++ textOfMembers members

end

/-- A value as JSON text, if all its integers can be written. -/
def text? (json : Json) : Option Text := if json.isWritable then some json.text else none

mutual

/-- A value as messages show it. -/
def shown : Json → Text
  | null => "None"
  | bool b => if b then "True" else "False"
  | int n => .ofInt n
  | float x => x.text
  | string s => Text.quoted s
  | array [] => "[]"
  | array (item :: items) => "[" ++ shown item ++ shownItems items ++ "]"
  | object [] => "\x7b\x7d"
  | object ((name, value) :: members) =>
    "\x7b" ++ Text.quoted name ++ ": " ++ shown value ++ shownMembers members ++ "\x7d"

/-- The items after the first one of a list. -/
def shownItems : List Json → Text
  | [] => ""
  | item :: items => ", " ++ shown item ++ shownItems items

/-- The members after the first one of an object. -/
def shownMembers : List (Text × Json) → Text
  | [] => ""
  | (name, value) :: members =>
    ", " ++ Text.quoted name ++ ": " ++ shown value ++ shownMembers members

end

/-- A value as messages name it: texts stand for themselves. -/
def displayed : Json → Text
  | string s => s
  | json => json.shown

end Json

end RelStore
