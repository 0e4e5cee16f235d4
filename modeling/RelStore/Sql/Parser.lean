import RelStore.Number.Reading
import RelStore.Sql.Scan
import RelStore.Sql.Statement

/-!
# Reading of statements

`parse` reads one statement, with or without a semicolon at its end. The reader goes down the
grammar

- `SELECT columns FROM t [[INNER|LEFT|RIGHT] JOIN t ON a = b] [WHERE ...] [ORDER BY ...] [LIMIT n]`
- `INSERT INTO t [(columns)] VALUES (values), ...`
- `UPDATE t SET column = value, ... [WHERE ...]`
- `DELETE FROM t [WHERE ...]`
- `CREATE TABLE t (column type constraints, ...)`
- `CREATE [UNIQUE] INDEX name ON t (column)`
- `DROP TABLE t`

by functions that take the tokens ahead and return what they have read with the tokens after it. A
function that reads a list takes a bound on its length; the number of tokens ahead is one.
-/

namespace RelStore.Sql

/-- The token ahead. -/
def peek : List Token → Token
  | [] => .endOfInput 0
  | token :: _ => token

/-- The tokens after the one ahead; the end of the text stays ahead. -/
def advance : List Token → List Token
  | [] => []
  | token :: rest => if token.kind = .eof then token :: rest else rest

/-- Whether one of some keywords or symbols is ahead. -/
def ahead (texts : List Text) (tokens : List Token) : Bool := (peek tokens).isAmong texts

/-- The error that something else than the token ahead is due. -/
def expected {α : Type} (sought : Sought) (tokens : List Token) : Except Error α :=
  .error (.malformed (.expected sought (peek tokens)) (peek tokens).position)

/-- Passes over a keyword or symbol. -/
def takeKeyword (text : Text) (tokens : List Token) : Except Error (List Token) :=
  if ahead [text] tokens then .ok (advance tokens) else expected (.keyword text) tokens

/-- Reads a word. -/
def takeWord (sought : Sought) (tokens : List Token) : Except Error (Text × List Token) :=
  if (peek tokens).kind = .word then .ok ((peek tokens).text, advance tokens)
  else expected sought tokens

/-- Reads more items after commas. -/
def takeMore {α : Type} (item : List Token → Except Error (α × List Token)) :
    Nat → List Token → Except Error (List α × List Token)
  | 0, tokens => .ok ([], tokens)
  | bound + 1, tokens =>
    if ahead [","] tokens then do
      let (first, tokens) ← item (advance tokens)
      let (others, tokens) ← takeMore item bound tokens
      return (first :: others, tokens)
    else .ok ([], tokens)

/-- Reads one or more items with commas between them. -/
def takeList {α : Type} (item : List Token → Except Error (α × List Token))
    (tokens : List Token) : Except Error (List α × List Token) := do
  let (first, tokens) ← item tokens
  let (others, tokens) ← takeMore item tokens.length tokens
  return (first :: others, tokens)

/-- Reads a list between parentheses. -/
def takeParenthesized {α : Type} (item : List Token → Except Error (α × List Token))
    (tokens : List Token) : Except Error (List α × List Token) := do
  let tokens ← takeKeyword "(" tokens
  let (items, tokens) ← takeList item tokens
  let tokens ← takeKeyword ")" tokens
  return (items, tokens)

/-- Whether a text is one or more ASCII digits. -/
def isNumeral (cs : Text) : Bool := !cs.isEmpty && cs.all CodePoint.isDigit

/-- The number of a numeral, unless it has too many digits. -/
def numeral (cs : Text) : Except Error Nat :=
  if cs.length ≤ digitLimit then .ok (ofDigits (cs.map CodePoint.digitValue))
  else .error (.integerTooLong cs.length)

/-- Whether a text without sign is written like a float: digits with a point among or around them,
and an exponent without sign. -/
def isFloatNumeral (cs : Text) : Bool :=
  let whole := cs.takeWhile CodePoint.isDigit
  let afterWhole := cs.dropWhile CodePoint.isDigit
  let (fraction, afterFraction) :=
    match afterWhole with
    | .char '.' :: rest => (rest.takeWhile CodePoint.isDigit, rest.dropWhile CodePoint.isDigit)
    | _ => ([], afterWhole)
  let exponentFits :=
    match afterFraction with
    | [] => true
    | e :: exponent => (e == 'e' || e == 'E') && isNumeral exponent
  !(whole.isEmpty && fraction.isEmpty) && exponentFits

/-- The value of a bare word: a keyword, an integer, a float, or else the word as a text. -/
def valueOfWord (word : Text) : Except Error Value :=
  let (negative, body) := takeSign word
  let upper := word.map CodePoint.toUpper
  if upper = "TRUE" then .ok (.bool true)
  else if upper = "FALSE" then .ok (.bool false)
  else if upper = "NULL" then .ok .null
  else if isNumeral body then (numeral body).map fun n => .int (signed negative n)
  else if isFloatNumeral body then .ok ((readFloat? word).elim (.string word) .float)
  else .ok (.string word)

/-- Reads a literal. -/
def takeValue (tokens : List Token) : Except Error (Value × List Token) :=
  match (peek tokens).kind with
  | .string => .ok (.string (peek tokens).value, advance tokens)
  | .word => (valueOfWord (peek tokens).text).map fun v => (v, advance tokens)
  | .symbol | .eof => expected .value tokens

/-- The operator of a token. -/
def operatorOf? (token : Token) : Option Operator :=
  if token.kind = .string then none
  else if token.upper = "<>" then some .ne
  else Operator.ofText? token.upper

/-- The connector of a token. -/
def connectorOf? (token : Token) : Option Connector :=
  if token.isAmong ["AND"] then some .and else if token.isAmong ["OR"] then some .or else none

/-- Reads conditions joined by connectors. -/
def takeConditions : Nat → List Token → Except Error (List Condition × List Token)
  | 0, tokens => .ok ([], tokens)
  | bound + 1, tokens => do
    let (column, tokens) ← takeWord .columnName tokens
    match operatorOf? (peek tokens) with
    | none => expected .operator tokens
    | some operator =>
      let (v, tokens) ← takeValue (advance tokens)
      match connectorOf? (peek tokens) with
      | none => return ([⟨column, operator, v, none⟩], tokens)
      | some connector =>
        let (others, tokens) ← takeConditions bound (advance tokens)
        return (⟨column, operator, v, some connector⟩ :: others, tokens)

/-- Reads the conditions after `WHERE`. -/
def takeWhere (tokens : List Token) : Except Error (List Condition × List Token) := do
  let tokens ← takeKeyword "WHERE" tokens
  takeConditions (tokens.length + 1) tokens

/-- Reads the conditions after `WHERE` if there are any. -/
def takeWhereIfAny (tokens : List Token) : Except Error (List Condition × List Token) :=
  if ahead ["WHERE"] tokens then takeWhere tokens else .ok ([], tokens)

/-- Reads a join. -/
def takeJoin (tokens : List Token) : Except Error (Join × List Token) := do
  let named := JoinKind.ofText? (peek tokens).upper
  let tokens := if ahead ["INNER", "LEFT", "RIGHT"] tokens then advance tokens else tokens
  let tokens ← takeKeyword "JOIN" tokens
  let (table, tokens) ← takeWord .tableName tokens
  let tokens ← takeKeyword "ON" tokens
  let (left, tokens) ← takeWord .columnName tokens
  let tokens ← takeKeyword "=" tokens
  let (right, tokens) ← takeWord .columnName tokens
  return (.on (named.getD .inner) table (.ofReference left) (.ofReference right), tokens)

/-- Reads a sort key. -/
def takeSortKey (tokens : List Token) : Except Error (SortKey × List Token) := do
  let (column, tokens) ← takeWord .columnName tokens
  if ahead ["ASC", "DESC"] tokens then
    return (⟨column, (Direction.ofText? (peek tokens).upper).getD .ascending⟩, advance tokens)
  else return (⟨column, .ascending⟩, tokens)

/-- Reads the sort keys after `ORDER BY`. -/
def takeOrderBy (tokens : List Token) : Except Error (List SortKey × List Token) := do
  let tokens ← takeKeyword "ORDER" tokens
  let tokens ← takeKeyword "BY" tokens
  takeList takeSortKey tokens

/-- Reads the number after `LIMIT`. -/
def takeLimit (tokens : List Token) : Except Error (Nat × List Token) := do
  let tokens ← takeKeyword "LIMIT" tokens
  let token := peek tokens
  if token.kind = .word ∧ isNumeral token.text then
    return (← numeral token.text, advance tokens)
  else expected .limit tokens

/-- Whether a statement may end here. -/
def atEnd (tokens : List Token) : Bool := (peek tokens).kind == .eof || ahead [";"] tokens

/-- Reads the clauses of a query in any order. A join is added to the joins before it; each other
clause takes the place of an earlier one of its kind. -/
def takeClauses : Nat → Select → List Token → Except Error (Select × List Token)
  | 0, query, tokens => .ok (query, tokens)
  | bound + 1, query, tokens =>
    if atEnd tokens then .ok (query, tokens)
    else if ahead ["INNER", "LEFT", "RIGHT", "JOIN"] tokens then do
      let (join, tokens) ← takeJoin tokens
      takeClauses bound { query with joins := query.joins ++ [join] } tokens
    else if ahead ["WHERE"] tokens then do
      let (conditions, tokens) ← takeWhere tokens
      takeClauses bound { query with conditions := conditions } tokens
    else if ahead ["ORDER"] tokens then do
      let (sortKeys, tokens) ← takeOrderBy tokens
      takeClauses bound { query with sortKeys := sortKeys } tokens
    else if ahead ["LIMIT"] tokens then do
      let (limit, tokens) ← takeLimit tokens
      takeClauses bound { query with limit := some limit } tokens
    else .ok (query, tokens)

/-- Reads the columns that a query asks for. -/
def takeColumns (tokens : List Token) : Except Error (Option (List Text) × List Token) :=
  if ahead ["*"] tokens then .ok (none, advance tokens)
  else (takeList (takeWord .columnName) tokens).map fun (columns, tokens) => (some columns, tokens)

/-- Reads a query. -/
def takeSelect (tokens : List Token) : Except Error (Statement × List Token) := do
  let tokens ← takeKeyword "SELECT" tokens
  let (columns, tokens) ← takeColumns tokens
  let tokens ← takeKeyword "FROM" tokens
  let (table, tokens) ← takeWord .tableName tokens
  let (query, tokens) ← takeClauses tokens.length ⟨table, columns, [], [], [], none⟩ tokens
  return (.select query, tokens)

/-- Reads an insertion of rows. -/
def takeInsert (tokens : List Token) : Except Error (Statement × List Token) := do
  let tokens ← takeKeyword "INSERT" tokens
  let tokens ← takeKeyword "INTO" tokens
  let (table, tokens) ← takeWord .tableName tokens
  let (columns, tokens) ←
    if ahead ["("] tokens then takeParenthesized (takeWord .columnName) tokens
    else pure ([], tokens)
  let tokens ← takeKeyword "VALUES" tokens
  let (rows, tokens) ← takeList (takeParenthesized takeValue) tokens
  return (.insert table columns rows, tokens)

/-- Reads an assignment. -/
def takeAssignment (tokens : List Token) : Except Error ((Text × Value) × List Token) := do
  let (column, tokens) ← takeWord .columnName tokens
  let tokens ← takeKeyword "=" tokens
  let (v, tokens) ← takeValue tokens
  return ((column, v), tokens)

/-- Reads an update of rows. -/
def takeUpdate (tokens : List Token) : Except Error (Statement × List Token) := do
  let tokens ← takeKeyword "UPDATE" tokens
  let (table, tokens) ← takeWord .tableName tokens
  let tokens ← takeKeyword "SET" tokens
  let (assignments, tokens) ← takeList takeAssignment tokens
  let (conditions, tokens) ← takeWhereIfAny tokens
  return (.update table (.ofList assignments) conditions, tokens)

/-- Reads a deletion of rows. -/
def takeDelete (tokens : List Token) : Except Error (Statement × List Token) := do
  let tokens ← takeKeyword "DELETE" tokens
  let tokens ← takeKeyword "FROM" tokens
  let (table, tokens) ← takeWord .tableName tokens
  let (conditions, tokens) ← takeWhereIfAny tokens
  return (.delete table conditions, tokens)

/-- The column type of a word; unknown words name the type of texts. -/
def typeOfWord (word : Text) : DataType :=
  if word = "INT" ∨ word = "INTEGER" then .int
  else if word = "FLOAT" ∨ word = "DOUBLE" ∨ word = "REAL" then .float
  else if word = "BOOL" ∨ word = "BOOLEAN" then .boolean
  else .string

/-- Reads the constraints of a column into the column. -/
def takeConstraints : Nat → Column → List Token → Except Error (Column × List Token)
  | 0, column, tokens => .ok (column, tokens)
  | bound + 1, column, tokens =>
    let ⟨name, type, primaryKey, unique, notNull, autoIncrement, _, _⟩ := column
    if atEnd tokens || ahead [",", ")"] tokens then .ok (column, tokens)
    else
      let word := (peek tokens).upper
      if word = "PRIMARY" then do
        let tokens ← takeKeyword "KEY" (advance tokens)
        takeConstraints bound (.define name type true unique notNull autoIncrement) tokens
      else if word = "UNIQUE" then
        takeConstraints bound (.define name type primaryKey true notNull autoIncrement)
          (advance tokens)
      else if word = "NOT" then do
        let tokens ← takeKeyword "NULL" (advance tokens)
        takeConstraints bound (.define name type primaryKey unique true autoIncrement) tokens
      else if word = "AUTO_INCREMENT" ∨ word = "AUTOINCREMENT" then
        takeConstraints bound (.define name type primaryKey unique notNull true) (advance tokens)
      else .error (.malformed (.unknownConstraint (peek tokens)) (peek tokens).position)

/-- Passes over the length of a text type, if there is one. -/
def skipLength (typeName : Text) (tokens : List Token) : Except Error (List Token) :=
  if typeName = "VARCHAR" && ahead ["("] tokens then do
    let (_, tokens) ← takeWord .length (advance tokens)
    takeKeyword ")" tokens
  else .ok tokens

/-- Reads the definition of a column. -/
def takeColumn (tokens : List Token) : Except Error (Column × List Token) := do
  let (name, tokens) ← takeWord .columnName tokens
  let typeName := (peek tokens).upper
  let (_, tokens) ← takeWord .columnType tokens
  let tokens ← skipLength typeName tokens
  takeConstraints tokens.length (.define name (typeOfWord typeName) false false false false) tokens

/-- Reads the creation of a table after `CREATE`. -/
def takeCreateTable (tokens : List Token) : Except Error (Statement × List Token) := do
  let tokens ← takeKeyword "TABLE" tokens
  let (table, tokens) ← takeWord .tableName tokens
  let (columns, tokens) ← takeParenthesized takeColumn tokens
  return (.createTable table columns, tokens)

/-- Reads the creation of an index after `CREATE`. -/
def takeCreateIndex (tokens : List Token) : Except Error (Statement × List Token) := do
  let unique := ahead ["UNIQUE"] tokens
  let tokens ← takeKeyword "INDEX" (if unique then advance tokens else tokens)
  let (name, tokens) ← takeWord .indexName tokens
  let tokens ← takeKeyword "ON" tokens
  let (table, tokens) ← takeWord .tableName tokens
  let tokens ← takeKeyword "(" tokens
  let (column, tokens) ← takeWord .columnName tokens
  let tokens ← takeKeyword ")" tokens
  return (.createIndex name table column unique, tokens)

/-- Reads the creation of a table or an index. -/
def takeCreate (tokens : List Token) : Except Error (Statement × List Token) := do
  let tokens ← takeKeyword "CREATE" tokens
  if ahead ["TABLE"] tokens then takeCreateTable tokens
  else if ahead ["INDEX", "UNIQUE"] tokens then takeCreateIndex tokens
  else expected .creatable tokens

/-- Reads the dropping of a table. -/
def takeDrop (tokens : List Token) : Except Error (Statement × List Token) := do
  let tokens ← takeKeyword "DROP" tokens
  let tokens ← takeKeyword "TABLE" tokens
  let (table, tokens) ← takeWord .tableName tokens
  return (.dropTable table, tokens)

/-- Reads a statement by its first word. -/
def takeStatement (tokens : List Token) : Except Error (Statement × List Token) :=
  let first := peek tokens
  match first.kind with
  | .eof => .error (.malformed .emptyStatement first.position)
  | .word =>
    if first.upper = "SELECT" then takeSelect tokens
    else if first.upper = "INSERT" then takeInsert tokens
    else if first.upper = "UPDATE" then takeUpdate tokens
    else if first.upper = "DELETE" then takeDelete tokens
    else if first.upper = "CREATE" then takeCreate tokens
    else if first.upper = "DROP" then takeDrop tokens
    else .error (.unknownCommand first.text)
  | .string | .symbol => .error (.unknownCommand first.text)

/-- Checks that nothing follows a statement but a semicolon. -/
def finish (tokens : List Token) : Except Error Unit :=
  let tokens := if ahead [";"] tokens then advance tokens else tokens
  if (peek tokens).kind = .eof then .ok ()
  else .error (.malformed (.trailing (peek tokens)) (peek tokens).position)

/-- The statement of a list of tokens. -/
def parseTokens (tokens : List Token) : Except Error Statement := do
  let (statement, tokens) ← takeStatement tokens
  finish tokens
  return statement

/-- The statement of a text. -/
def parse (text : Text) : Except Error Statement := do
  parseTokens (← scan text)

end RelStore.Sql
