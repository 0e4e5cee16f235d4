import RelStore.ColumnName
import RelStore.Mapping

/-!
# Table schemas

A column has a name, a type and constraint flags; a schema is the name of a table with its columns
in order. Two rules hold by construction: a primary key is unique and not null, and the columns of a
schema have different names.
-/

namespace RelStore

/-- The type of the values in a column. -/
inductive DataType where
  /-- Integers of any size. -/
  | int
  /-- Finite floating-point numbers. -/
  | float
  /-- Truth values. -/
  | boolean
  /-- Texts. -/
  | string
  deriving DecidableEq

namespace DataType

/-- The name of a type in schemas and snapshots. -/
def name : DataType → Text
  | int => "int"
  | float => "float"
  | boolean => "boolean"
  | string => "string"

/-- The type of a name. -/
def ofName? (name : Text) : Option DataType :=
  [int, float, boolean, string].find? (·.name == name)

end DataType

/-- The definition of a column. -/
structure Column where
  /-- The name, which no other column of the table has. -/
  name : ColumnName
  /-- The type of the cells. -/
  type : DataType
  /-- Whether the column identifies the rows. -/
  primaryKey : Bool
  /-- Whether no two rows share a value other than NULL. -/
  unique : Bool
  /-- Whether NULL is refused. -/
  notNull : Bool
  /-- Whether a missing value is filled in by counting up. -/
  autoIncrement : Bool
  /-- A primary key is unique. -/
  unique_of_primaryKey : primaryKey = true → unique = true
  /-- A primary key is not null. -/
  notNull_of_primaryKey : primaryKey = true → notNull = true
  deriving DecidableEq

namespace Column

/-- The column of the given flags, to which a primary key adds the two that it implies. -/
def define (name : ColumnName) (type : DataType) (primaryKey unique notNull autoIncrement : Bool) :
    Column where
  name := name
  type := type
  primaryKey := primaryKey
  unique := primaryKey || unique
  notNull := primaryKey || notNull
  autoIncrement := autoIncrement
  unique_of_primaryKey := fun h => by simp [h]
  notNull_of_primaryKey := fun h => by simp [h]

/-- The constraints of a column, by the words that introduce them in a definition. -/
def constraints (column : Column) : List Text :=
  let labels : List (Bool × Text) :=
    [(column.primaryKey, "PRIMARY KEY"), (column.unique, "UNIQUE"), (column.notNull, "NOT NULL"),
      (column.autoIncrement, "AUTO_INCREMENT")]
  (labels.filter (·.1)).map (·.2)

end Column

/-- A table name with the columns of the table in order. -/
structure Schema where
  /-- The name of the table. -/
  table : Text
  /-- The columns in order. -/
  columns : List Column
  /-- No two columns have the same name. -/
  distinct : (columns.map (·.name.canonical)).Nodup
  deriving DecidableEq

namespace Schema

/-- The names of the columns in order. -/
def columnNames (schema : Schema) : List ColumnName := schema.columns.map Column.name

/-- The column of a name. -/
def column? (schema : Schema) (name : ColumnName) : Option Column :=
  schema.columns.find? fun column => column.name == name

/-- Whether a schema has a column of a name. -/
def hasColumn (schema : Schema) (name : ColumnName) : Bool := (schema.column? name).isSome

end Schema

end RelStore
