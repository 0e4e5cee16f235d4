import RelStore.Number.Decimal

/-!
# Cell values

A cell holds NULL, an integer of any size, a float, a truth value or a text. `Value.render` is the
text by which a value is stored in a string column and shown in messages. `Value.compare` is the one
order that indexes, conditions and sorting share; `Value.isComparable` tells to which values it
applies.
-/

namespace RelStore

/-- A cell value. -/
inductive Value where
  /-- The absent value. -/
  | null
  /-- An integer of any size. -/
  | int (n : Int)
  /-- A floating-point number. -/
  | float (x : Binary64)
  /-- A truth value. -/
  | bool (b : Bool)
  /-- A text. -/
  | string (s : Text)
  deriving DecidableEq

namespace Value

/-- Whether a value is NULL. -/
def isNull : Value → Bool
  | null => true
  | _ => false

/-- Whether a value is an integer or a float. -/
def isNumeric : Value → Bool
  | int _ | float _ => true
  | _ => false

/-- The text of a value. A float equal to an integer is written as that integer. -/
def render : Value → Text
  | null => "null"
  | int n => .ofInt n
  | float x =>
    match x.toInt? with
    | some n => .ofInt n
    | none => x.text
  | bool b => if b then "true" else "false"
  | string s => s

/-- The place of a numeric value on the number line. -/
def point? : Value → Option Point
  | int n => some (.ofInt n)
  | float x => x.point?
  | _ => none

/-- The order of truth values, `false` before `true`. -/
def compareBool : Bool → Bool → Ordering
  | false, true => .lt
  | true, false => .gt
  | _, _ => .eq

/-- The order of numbers by their places. A number without a place ties with all. -/
def comparePoints : Option Point → Option Point → Ordering
  | some p, some q => p.compare q
  | _, _ => .eq

/-- The order of values. NULL comes before everything else. Numbers compare by size, an integer with
a float exactly, and the float that is not a number with none: it ties with every number. Texts
compare by code points and `false` comes before `true`. Values of different kinds compare by their
text. -/
def compare : Value → Value → Ordering
  | null, null => .eq
  | null, _ => .lt
  | _, null => .gt
  | string s, string t => s.compare t
  | bool a, bool b => compareBool a b
  | a, b =>
    if a.isNumeric && b.isNumeric then comparePoints a.point? b.point?
    else a.render.compare b.render

/-- Whether the order of two values is that of their texts. -/
def comparesByText : Value → Value → Bool
  | null, _ | _, null | string _, string _ | bool _, bool _ => false
  | a, b => !(a.isNumeric && b.isNumeric)

/-- Whether a value has a text that can be written. -/
def isWritable : Value → Bool
  | int n => RelStore.isWritable n
  | _ => true

/-- Whether two values can be compared: where their texts decide, both must have one. -/
def isComparable (a b : Value) : Bool := !comparesByText a b || (a.isWritable && b.isWritable)

end Value

end RelStore
