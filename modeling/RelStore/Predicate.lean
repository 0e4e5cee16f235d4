import RelStore.Error
import RelStore.Pattern
import RelStore.Row

/-!
# Conditions

A `WHERE` list is a list of conditions that compare a column with a literal. The list is folded
strictly from left to right: each condition says how the next one is joined to all before it, and
there is no precedence.

All conditions of a list are tried on every row. Where one of them needs the text of an integer that
is too long to be written, the rows cannot be told apart (`Condition.select`).
-/

namespace RelStore

/-- The operator of a condition. -/
inductive Operator where
  /-- The values are equal. -/
  | eq
  /-- The values differ. -/
  | ne
  /-- The column value is greater. -/
  | gt
  /-- The column value is less. -/
  | lt
  /-- The column value is not less. -/
  | ge
  /-- The column value is not greater. -/
  | le
  /-- The column text matches a pattern. -/
  | like
  deriving DecidableEq

namespace Operator

/-- The text of an operator. -/
def text : Operator → Text
  | eq => "="
  | ne => "!="
  | gt => ">"
  | lt => "<"
  | ge => ">="
  | le => "<="
  | like => "LIKE"

/-- The operator of a text. -/
def ofText? (text : Text) : Option Operator :=
  [eq, ne, gt, lt, ge, le, like].find? (·.text == text)

/-- Whether `a operator b` holds of two values. NULL equals NULL; every other condition on a NULL is
false, `NULL != x` among them. `LIKE` holds of texts only. -/
def holds (operator : Operator) (a b : Value) : Bool :=
  if a.isNull || b.isNull then operator == eq && a.isNull && b.isNull
  else
    match operator with
    | like =>
      match a, b with
      | .string text, .string pattern => Pattern.like text pattern
      | _, _ => false
    | eq => a.compare b == .eq
    | ne => a.compare b != .eq
    | gt => a.compare b == .gt
    | lt => a.compare b == .lt
    | ge => a.compare b != .lt
    | le => a.compare b != .gt

/-- Whether it can be told if `a operator b` holds. Only a comparison can fail. -/
def applies (operator : Operator) (a b : Value) : Bool := operator == like || a.isComparable b

end Operator

/-- How a condition is joined to the conditions before it. -/
inductive Connector where
  /-- Both must hold. -/
  | and
  /-- One of them must hold. -/
  | or
  deriving DecidableEq

/-- A condition on a row. -/
structure Condition where
  /-- The reference to the column. -/
  column : Text
  /-- The operator. -/
  operator : Operator
  /-- The literal on the right of the operator. -/
  value : Value
  /-- How the next condition is joined to this one and those before it. -/
  connector : Option Connector
  deriving DecidableEq

namespace Condition

/-- The value that a condition is about. A column that the row lacks counts as NULL. -/
def subject (condition : Condition) (row : Row) : Value :=
  (row.resolve? condition.column).getD .null

/-- Whether a condition holds of a row. -/
def holds (condition : Condition) (row : Row) : Bool :=
  condition.operator.holds (condition.subject row) condition.value

/-- Whether it can be told if a condition holds of a row. -/
def applies (condition : Condition) (row : Row) : Bool :=
  condition.operator.applies (condition.subject row) condition.value

/-- Folds conditions into a result, `connector` joining the first of them. -/
def foldFrom (row : Row) (result : Bool) (connector : Option Connector) : List Condition → Bool
  | [] => result
  | condition :: rest =>
    let joined :=
      match connector with
      | some .or => result || condition.holds row
      | some .and | none => result && condition.holds row
    foldFrom row joined condition.connector rest

end Condition

/-- Whether a list of conditions holds of a row; the empty list does. -/
def Row.matches (row : Row) : List Condition → Bool
  | [] => true
  | first :: rest => Condition.foldFrom row (first.holds row) first.connector rest

/-- The items whose rows some conditions hold of. -/
def Condition.select {α : Type} (conditions : List Condition) (rowOf : α → Row) (items : List α) :
    Except Error (List α) :=
  if items.all fun item => conditions.all (·.applies (rowOf item)) then
    .ok (items.filter fun item => (rowOf item).matches conditions)
  else .error .unwritableInteger

end RelStore
