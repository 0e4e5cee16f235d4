import RelStore.Error
import RelStore.Text.Blank

/-!
# Scanning of statements

`scan` cuts a text into tokens. White space separates tokens and is dropped. A word is a run of
ASCII letters, digits, low lines and dots, with a sign before it if a digit follows the sign. A
literal stands between quotes of one kind, and a backslash in it makes the next character stand for
itself.
-/

namespace RelStore.Sql

/-- Whether a character can be part of a word. -/
def isWordChar (c : CodePoint) : Bool := c.isAlphanum || c == '_' || c == '.'

/-- Whether two characters make up one symbol. -/
def isPairSymbol (a b : CodePoint) : Bool :=
  (a == '!' && b == '=') || (a == '>' && b == '=') || (a == '<' && (b == '=' || b == '>'))

/-- Whether a character is a symbol by itself. -/
def isSymbol (c : CodePoint) : Bool := ("(),*=<>;" : Text).contains c

/-- The rest of a literal after its opening quote, as it is written and as it is meant, and the
text after it. -/
def takeQuoted (quote : CodePoint) : Text → Option (Text × Text × Text)
  | [] => none
  | .char '\\' :: c :: rest =>
    (takeQuoted quote rest).map fun (written, meant, after) =>
      ('\\' :: c :: written, c :: meant, after)
  | c :: rest =>
    if c = quote then some ([c], [], rest)
    else
      (takeQuoted quote rest).map fun (written, meant, after) => (c :: written, c :: meant, after)

/-- The characters before a word: a sign that is followed by a digit, or none. -/
def takeWordSign : Text → Text × Text
  | c :: d :: rest =>
    if (c == '+' || c == '-') && d.isDigit then ([c], d :: rest) else ([], c :: d :: rest)
  | cs => ([], cs)

/-- A token that means what is written. -/
def plainToken (kind : TokenKind) (written : Text) (position : Nat) : Token :=
  ⟨kind, written, position, written⟩

/-- The token at the start of a text that begins at a position with the character `c`, and the text
after the token. -/
def takeToken (position : Nat) (c : CodePoint) (rest : Text) : Except Error (Token × Text) :=
  if c = '\'' ∨ c = '"' then
    match takeQuoted c rest with
    | none => .error (.malformed .unterminatedString position)
    | some (written, meant, after) =>
      .ok (⟨.string, c :: written, position, meant⟩, after)
  else if rest.head?.any (isPairSymbol c) then
    .ok (plainToken .symbol (c :: rest.take 1) position, rest.drop 1)
  else if isSymbol c then .ok (plainToken .symbol [c] position, rest)
  else
    let (sign, body) := takeWordSign (c :: rest)
    match body.takeWhile isWordChar with
    | [] => .error (.malformed (.strayCharacter c) position)
    | word => .ok (plainToken .word (sign ++ word) position, body.dropWhile isWordChar)

/-- The tokens of a text that begins at a position. Every token takes at least one character, so as
many steps as there are characters suffice. -/
def scanFrom : Nat → Nat → Text → Except Error (List Token)
  | 0, position, _ => .ok [.endOfInput position]
  | steps + 1, position, cs =>
    let start := position + (cs.takeWhile Text.isBlank).length
    match cs.dropWhile Text.isBlank with
    | [] => .ok [.endOfInput start]
    | c :: rest => do
      let (token, after) ← takeToken start c rest
      return token :: (← scanFrom steps (start + token.text.length) after)

/-- The tokens of a text. -/
def scan (text : Text) : Except Error (List Token) := scanFrom (text.length + 1) 0 text

end RelStore.Sql
