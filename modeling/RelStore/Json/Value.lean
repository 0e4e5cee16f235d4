import RelStore.Mapping
import RelStore.Number.Decimal

/-!
# JSON values

Snapshots and messages to and from clients are JSON. Integers and floats are kept apart, and the
members of an object keep their order.
-/

namespace RelStore

/-- A JSON value. -/
inductive Json where
  /-- The null value. -/
  | null
  /-- A truth value. -/
  | bool (b : Bool)
  /-- A number written without fraction and exponent. -/
  | int (n : Int)
  /-- Any other number. -/
  | float (x : Binary64)
  /-- A text. -/
  | string (s : Text)
  /-- A list of values. -/
  | array (items : List Json)
  /-- Named values in order. -/
  | object (members : List (Text × Json))

namespace Json

/-- The value of a member of an object; other values have no members. -/
def member? (json : Json) (name : Text) : Option Json :=
  match json with
  | object members => Mapping.get? members name
  | _ => none

/-- Whether a value counts as given: null, false, zero and everything empty do not. -/
def isTruthy : Json → Bool
  | null => false
  | bool b => b
  | int n => n != 0
  | float x => x.units? != some 0
  | string s => !s.isEmpty
  | array items => !items.isEmpty
  | object members => !members.isEmpty

end Json

end RelStore
