import RelStore.ColumnName
import RelStore.Number.Reading
import RelStore.Sql.Token
import RelStore.Text.Quoted
import RelStore.Value

/-!
# Errors of statements

An error is named by its cause; `Error.message` words it. Most causes belong to one of the kinds
that a failed statement reports (`Error.kind?`). The causes without a kind concern limits of the
store itself.
-/

namespace RelStore

open Sql (Token)

/-- What a statement should have gone on with. -/
inductive Sought where
  /-- A given keyword or symbol. -/
  | keyword (text : Text)
  /-- The name of a column. -/
  | columnName
  /-- The name of a table. -/
  | tableName
  /-- The name of an index. -/
  | indexName
  /-- The type of a column. -/
  | columnType
  /-- The length of a text column. -/
  | length
  /-- A literal. -/
  | value
  /-- An operator of a condition. -/
  | operator
  /-- The number of rows of a limit. -/
  | limit
  /-- What a `CREATE` statement creates. -/
  | creatable
  deriving DecidableEq

/-- What was sought, as messages name it. -/
def Sought.describe : Sought → Text
  | keyword text => "'" ++ text ++ "'"
  | columnName => "column name"
  | tableName => "table name"
  | indexName => "index name"
  | columnType => "column type"
  | length => "length"
  | value => "value"
  | operator => "comparison operator"
  | limit => "non-negative integer after LIMIT"
  | creatable => "TABLE or INDEX after CREATE"

/-- What makes a text no statement. -/
inductive SyntaxProblem where
  /-- The text holds no token. -/
  | emptyStatement
  /-- A character begins no token. -/
  | strayCharacter (c : CodePoint)
  /-- A literal lacks its closing quote. -/
  | unterminatedString
  /-- Something else stands where a part of the statement is due. -/
  | expected (sought : Sought) (found : Token)
  /-- A token follows the end of the statement. -/
  | trailing (found : Token)
  /-- A token is no constraint of a column. -/
  | unknownConstraint (found : Token)
  deriving DecidableEq

/-- The wording of a problem, without its place. -/
def SyntaxProblem.message : SyntaxProblem → Text
  | emptyStatement => "Empty statement"
  | strayCharacter c => "Unexpected character '" ++ [c] ++ "'"
  | unterminatedString => "Unterminated string literal"
  | expected sought found => "Expected " ++ sought.describe ++ " but got " ++ found.describe
  | trailing found => "Unexpected token " ++ found.describe
  | unknownConstraint found => "Unknown column constraint " ++ found.describe

/-- The kind under which a failed statement is reported. -/
inductive ErrorKind where
  /-- The text is no statement. -/
  | syntaxError
  /-- The text begins with no known command. -/
  | unknownCommand
  /-- A table is missing. -/
  | tableNotFound
  /-- A table name is taken. -/
  | tableAlreadyExists
  /-- A column is missing. -/
  | columnNotFound
  /-- A column is defined twice. -/
  | duplicateColumn
  /-- An index name is taken. -/
  | indexAlreadyExists
  /-- NULL is put where it is refused. -/
  | nullConstraintViolation
  /-- A value is put a second time where it may occur once. -/
  | uniqueConstraintViolation
  /-- A value does not fit the type of its column. -/
  | typeCoercionError
  /-- A row has the wrong number of values. -/
  | valueCountMismatch
  deriving DecidableEq

/-- The name of a kind in results. -/
def ErrorKind.name : ErrorKind → Text
  | syntaxError => "SyntaxError"
  | unknownCommand => "UnknownCommand"
  | tableNotFound => "TableNotFound"
  | tableAlreadyExists => "TableAlreadyExists"
  | columnNotFound => "ColumnNotFound"
  | duplicateColumn => "DuplicateColumn"
  | indexAlreadyExists => "IndexAlreadyExists"
  | nullConstraintViolation => "NullConstraintViolation"
  | uniqueConstraintViolation => "UniqueConstraintViolation"
  | typeCoercionError => "TypeCoercionError"
  | valueCountMismatch => "ValueCountMismatch"

/-- Why a statement, or an operation on a table, fails. -/
inductive Error where
  /-- The text is no statement because of a problem at a place. -/
  | malformed (problem : SyntaxProblem) (position : Nat)
  /-- The text begins with no known command. -/
  | unknownCommand (text : Text)
  /-- There is no table of this name. -/
  | tableNotFound (table : Text)
  /-- There is a table of this name already. -/
  | tableExists (table : Text)
  /-- There is no such column, in the given table or in any of a statement. -/
  | columnNotFound (column : Text) (table : Option Text)
  /-- A table would have two columns of this name. -/
  | duplicateColumn (column : ColumnName) (table : Text)
  /-- The table has an index of this name already. -/
  | indexExists (index : Text)
  /-- The column refuses NULL. -/
  | nullRefused (column : ColumnName)
  /-- The column would hold this value twice. -/
  | duplicateValue (column : Text) (value : Value)
  /-- What the text shows is no value of the type. -/
  | notCoercible (shown typeName : Text)
  /-- A row has `actual` values for `expected` columns. -/
  | valueCount (expected actual : Nat)
  /-- A text holds an integer of too many digits to be read. -/
  | integerTooLong (digits : Nat)
  /-- An integer has too many digits to be written where its text is needed. -/
  | unwritableInteger
  /-- A column whose name is no text is looked for by its name. -/
  | nameNotText (column : ColumnName)
  /-- No index has this order. -/
  | treeOrder (order : Int)
  /-- No condition has this operator. -/
  | unknownOperator (text : Text)
  deriving DecidableEq

namespace Error

/-- That a column would hold a value twice. The error shows the value, which a too long integer does
not let it do. -/
def ofDuplicate (column : Text) (value : Value) : Error :=
  if value.isWritable then duplicateValue column value else unwritableInteger

/-- The kind of an error. The limits of the store have none. -/
def kind? : Error → Option ErrorKind
  | malformed .. => some .syntaxError
  | unknownCommand _ => some .unknownCommand
  | tableNotFound _ => some .tableNotFound
  | tableExists _ => some .tableAlreadyExists
  | columnNotFound .. => some .columnNotFound
  | duplicateColumn .. => some .duplicateColumn
  | indexExists _ => some .indexAlreadyExists
  | nullRefused _ => some .nullConstraintViolation
  | duplicateValue .. => some .uniqueConstraintViolation
  | notCoercible .. => some .typeCoercionError
  | valueCount .. => some .valueCountMismatch
  | integerTooLong _ | unwritableInteger | nameNotText _ | treeOrder _ | unknownOperator _ => none

/-- The wording of an error. -/
def message : Error → Text
  | malformed problem position => problem.message ++ " at position " ++ .ofNat position
  | unknownCommand text => "Unknown command: " ++ text
  | tableNotFound table => "Table \"" ++ table ++ "\" does not exist"
  | tableExists table => "Table \"" ++ table ++ "\" already exists"
  | columnNotFound column none => "Column \"" ++ column ++ "\" does not exist"
  | columnNotFound column (some table) =>
    "Column \"" ++ column ++ "\" does not exist in table \"" ++ table ++ "\""
  | duplicateColumn column table =>
    "Column \"" ++ column.shown ++ "\" is defined more than once in table \"" ++ table ++ "\""
  | indexExists index => "Index \"" ++ index ++ "\" already exists"
  | nullRefused column => "Column \"" ++ column.shown ++ "\" cannot be null"
  | duplicateValue column value =>
    "Duplicate value \"" ++ value.render ++ "\" for unique column \"" ++ column ++ "\""
  | notCoercible shown typeName => "Invalid " ++ typeName ++ " value: " ++ shown
  | valueCount expected actual =>
    "Expected " ++ .ofNat expected ++ " value(s) but got " ++ .ofNat actual
  | integerTooLong digits => integerTooLongMessage digits
  | unwritableInteger => unwritableIntegerMessage
  | nameNotText column => "argument of type '" ++ column.kind ++ "' is not iterable"
  | treeOrder order => "B-Tree order must be between 3 and 1024, got " ++ .ofInt order
  | unknownOperator text => text.quoted ++ " is not a valid Operator"

end Error

end RelStore
