import RelStore.Sql.Parser

/-!
# Writing of statements

`Statement.text` writes a statement in one canonical way: keywords in upper case, the clauses of a
query in the order of the grammar, every optional keyword in place, and texts between single quotes
with a backslash before each quote and each backslash. It goes through the list of lexemes of the
statement, which are then set side by side with one blank between them, but none after an opening
parenthesis and none before a closing one or a comma.

`parse` reads such a text back when the names are words and no float occurs.
-/

namespace RelStore.Sql

/-- A unit of a statement to be written. -/
inductive Lexeme where
  /-- A keyword, a name or a number. -/
  | word (text : Text)
  /-- A symbol. -/
  | symbol (text : Text)
  /-- A literal for a text. -/
  | literal (meant : Text)
  deriving DecidableEq

/-- A code point as it is written in a literal. -/
def quotedPoint (c : CodePoint) : Text := if c = '\'' ∨ c = '\\' then ['\\', c] else [c]

namespace Lexeme

/-- A lexeme as it is written. -/
def written : Lexeme → Text
  | word text | symbol text => text
  | literal meant => "'" ++ meant.flatMap quotedPoint ++ "'"

/-- Whether a blank stands between two lexemes. -/
def isApart (before after : Lexeme) : Bool :=
  before != symbol "(" && after != symbol ")" && after != symbol ","

/-- Lexemes set side by side. -/
def setSideBySide : List Lexeme → Text
  | [] => []
  | [last] => last.written
  | first :: second :: rest =>
    let between : Text := if isApart first second then " " else ""
    first.written ++ between ++ setSideBySide (second :: rest)

/-- The lexemes of items with commas between them. -/
def listed : List (List Lexeme) → List Lexeme
  | [] => []
  | [last] => last
  | first :: rest => first ++ symbol "," :: listed rest

/-- The lexemes of items between parentheses. -/
def parenthesized (items : List (List Lexeme)) : List Lexeme :=
  symbol "(" :: listed items ++ [symbol ")"]

/-- The lexeme of a value. -/
def ofValue : Value → Lexeme
  | .null => word "NULL"
  | .int n => word (.ofInt n)
  | .float x => word x.text
  | .bool b => word (if b then "TRUE" else "FALSE")
  | .string s => literal s

/-- The lexeme of an operator. -/
def ofOperator : Operator → Lexeme
  | .like => word "LIKE"
  | operator => symbol operator.text

/-- The lexemes of a connector. -/
def ofConnector : Option Connector → List Lexeme
  | some .and => [word "AND"]
  | some .or => [word "OR"]
  | none => []

/-- The lexemes of a condition with its connector. -/
def ofCondition (condition : Condition) : List Lexeme :=
  [word condition.column, ofOperator condition.operator, ofValue condition.value] ++
    ofConnector condition.connector

/-- The lexemes of conditions, which are left out when there are none. -/
def ofConditions (conditions : List Condition) : List Lexeme :=
  if conditions.isEmpty then [] else word "WHERE" :: conditions.flatMap ofCondition

/-- The lexemes of a join. -/
def ofJoin (join : Join) : List Lexeme :=
  [word join.kind.text, word "JOIN", word join.table, word "ON", word join.left.reference,
    symbol "=", word join.right.reference]

/-- The lexemes of sort keys, which are left out when there are none. -/
def ofSortKeys (keys : List SortKey) : List Lexeme :=
  if keys.isEmpty then []
  else [word "ORDER", word "BY"] ++ listed (keys.map fun key =>
    [word key.column, word key.direction.text])

/-- The lexemes of a limit, if there is one. -/
def ofLimit : Option Nat → List Lexeme
  | some n => [word "LIMIT", word (.ofNat n)]
  | none => []

/-- The lexemes of a query. -/
def ofSelect (query : Select) : List Lexeme :=
  word "SELECT" :: query.columns.elim [symbol "*"] (fun names => listed (names.map ([word ·]))) ++
    [word "FROM", word query.table] ++ query.joins.flatMap ofJoin ++
    ofConditions query.conditions ++ ofSortKeys query.sortKeys ++ ofLimit query.limit

/-- The keyword of a column type. -/
def ofType : DataType → Lexeme
  | .int => word "INT"
  | .float => word "FLOAT"
  | .boolean => word "BOOLEAN"
  | .string => word "STRING"

/-- The lexemes of the definition of a column. -/
def ofColumn (column : Column) : List Lexeme :=
  [word column.name.shown, ofType column.type] ++
    (if column.primaryKey then [word "PRIMARY", word "KEY"] else []) ++
    (if column.unique then [word "UNIQUE"] else []) ++
    (if column.notNull then [word "NOT", word "NULL"] else []) ++
    (if column.autoIncrement then [word "AUTO_INCREMENT"] else [])

/-- The lexemes of an assignment. -/
def ofAssignment (column : Text) (v : Value) : List Lexeme :=
  [word column, symbol "=", ofValue v]

/-- The lexemes of a statement. -/
def ofStatement : Statement → List Lexeme
  | .select query => ofSelect query
  | .insert table columns rows =>
    [word "INSERT", word "INTO", word table] ++
      (if columns.isEmpty then [] else parenthesized (columns.map ([word ·]))) ++
      word "VALUES" :: listed (rows.map fun row => parenthesized (row.map ([ofValue ·])))
  | .update table assignments conditions =>
    [word "UPDATE", word table, word "SET"] ++
      listed (assignments.map fun (column, v) => ofAssignment column v) ++
      ofConditions conditions
  | .delete table conditions =>
    [word "DELETE", word "FROM", word table] ++ ofConditions conditions
  | .createTable table columns =>
    [word "CREATE", word "TABLE", word table] ++ parenthesized (columns.map ofColumn)
  | .createIndex name table column unique =>
    word "CREATE" :: (if unique then [word "UNIQUE"] else []) ++
      [word "INDEX", word name, word "ON", word table] ++ parenthesized [[word column]]
  | .dropTable table => [word "DROP", word "TABLE", word table]

end Lexeme

/-- A statement as text. -/
def Statement.text (statement : Statement) : Text :=
  Lexeme.setSideBySide (Lexeme.ofStatement statement)

end RelStore.Sql
