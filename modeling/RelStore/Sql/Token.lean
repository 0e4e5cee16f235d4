import RelStore.Text.Basic

/-!
# SQL tokens

A statement is read as a list of words, string literals and symbols, closed by a token for the end
of the text. Each token keeps its text and the place where it starts, counted in characters.
-/

namespace RelStore.Sql

/-- The kind of a token. -/
inductive TokenKind where
  /-- A name, a keyword or a number. -/
  | word
  /-- A literal in quotes. -/
  | string
  /-- An operator or a punctuation mark. -/
  | symbol
  /-- The end of the text. -/
  | eof
  deriving DecidableEq

/-- A token. -/
structure Token where
  /-- The kind of the token. -/
  kind : TokenKind
  /-- The token as it is written, with its quotes if it has any. -/
  text : Text
  /-- How many characters stand before the token. -/
  position : Nat
  /-- The text that a literal denotes; for other tokens, the token as it is written. -/
  value : Text
  deriving DecidableEq

namespace Token

/-- The token for the end of a text. -/
def endOfInput (position : Nat) : Token := ⟨.eof, [], position, []⟩

/-- The text of a token for comparison with keywords, which words may write in any case. Words are
ASCII. -/
def upper (token : Token) : Text :=
  match token.kind with
  | .word => token.text.map CodePoint.toUpper
  | _ => token.text

/-- A token as messages name it. -/
def describe (token : Token) : Text :=
  match token.kind with
  | .eof => "end of input"
  | _ => "'" ++ token.text ++ "'"

/-- Whether a token is one of some keywords or symbols. -/
def isAmong (token : Token) (texts : List Text) : Bool :=
  match token.kind with
  | .word | .symbol => texts.contains token.upper
  | .string | .eof => false

end Token

end RelStore.Sql
