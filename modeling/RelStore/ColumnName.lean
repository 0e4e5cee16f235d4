import RelStore.Number.Decimal

/-!
# Names of columns

Statements name columns by texts. A snapshot may also name a column by a number or by a truth value;
no reference leads to such a column, but it has its cell in every row. Names are the same when they
are equal as values: `true`, `1` and `1.0` are one name.
-/

namespace RelStore

/-- The name of a column. -/
inductive ColumnName where
  /-- A text. -/
  | text (name : Text)
  /-- An integer. -/
  | int (n : Int)
  /-- A float. -/
  | float (x : Binary64)
  /-- A truth value. -/
  | bool (b : Bool)
  deriving DecidableEq

namespace ColumnName

instance : Coe Text ColumnName := ⟨text⟩

/-- The one form of all names that are the same: truth values count as integers, and so do floats
that are equal to one. -/
def canonical : ColumnName → ColumnName
  | bool b => int (if b then 1 else 0)
  | float x =>
    match x.toInt? with
    | some n => int n
    | none => float x
  | name => name

/-- A name as messages show it. -/
def shown : ColumnName → Text
  | text name => name
  | int n => .ofInt n
  | float x => x.text
  | bool b => if b then "True" else "False"

/-- The word for the kind of a name. -/
def kind : ColumnName → Text
  | text _ => "str"
  | int _ => "int"
  | float _ => "float"
  | bool _ => "bool"

end ColumnName

end RelStore
