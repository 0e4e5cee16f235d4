import RelStore.Json.Value
import RelStore.Number.Reading

/-!
# Reading of JSON

`Json.parse` reads one value with blanks around it. Besides the numbers of JSON it accepts `NaN`,
`Infinity` and `-Infinity`; a name that an object repeats keeps its first place and its last value.
Two escapes that form a surrogate pair are one character, and a surrogate that stands alone is kept
as such. A malformed text is told with the place where that shows, counted in code points. Two
limits are set to well-formed texts: on the digits of an integer and on the nesting of values.

The readers take the text ahead and return what they have read with the text after it. They tell a
place by the text that lies ahead there. The readers of nested values take a bound on their steps;
twice the number of code points is enough.
-/

namespace RelStore.Json

/-- What is wrong at a place of a text. -/
inductive Problem where
  /-- No value begins here. -/
  | noValue
  /-- No name of a member begins here. -/
  | noName
  /-- A colon is missing after a name. -/
  | noColon
  /-- A comma is missing after an item or a member. -/
  | noComma
  /-- Something follows the value. -/
  | extraData
  /-- The string that begins here has no end. -/
  | unterminated
  /-- A string holds a control character. -/
  | controlCharacter
  /-- A backslash begins no escape. -/
  | badEscape
  /-- An escape lacks its four hexadecimal digits. -/
  | badUnicodeEscape
  /-- The text begins with a mark of byte order. -/
  | byteOrderMark
  deriving DecidableEq

/-- The wording of a problem. -/
def Problem.message : Problem → Text
  | noValue => "Expecting value"
  | noName => "Expecting property name enclosed in double quotes"
  | noColon => "Expecting ':' delimiter"
  | noComma => "Expecting ',' delimiter"
  | extraData => "Extra data"
  | unterminated => "Unterminated string starting at"
  | controlCharacter => "Invalid control character at"
  | badEscape => "Invalid \\escape"
  | badUnicodeEscape => "Invalid \\uXXXX escape"
  | byteOrderMark => "Unexpected UTF-8 BOM (decode using utf-8-sig)"

/-- A value that holds others. -/
inductive Container where
  /-- A list. -/
  | array
  /-- An object. -/
  | object
  deriving DecidableEq

/-- A limit that a text goes past. -/
inductive Limit where
  /-- An integer has so many digits that it is not read. -/
  | integerTooLong (digits : Nat)
  /-- Lists and objects are nested too deep, the innermost one being of this kind. -/
  | tooDeep (container : Container)
  deriving DecidableEq

/-- How many levels of lists and objects may be nested. The number is an estimate. What limits the
reader is the depth of the call stack, a thousand calls, of which its callers have taken some: a
reader that answers a request has about 982 left. -/
def nestingLimit : Nat := 990

/-- The wording of a limit. -/
def Limit.message : Limit → Text
  | integerTooLong digits => integerTooLongMessage digits
  | tooDeep .array =>
    "maximum recursion depth exceeded while decoding a JSON array from a unicode string"
  | tooDeep .object =>
    "maximum recursion depth exceeded while decoding a JSON object from a unicode string"

/-- Why a text cannot be read. -/
inductive Fault where
  /-- The text is not of the form of JSON: at this line and column, after this many characters. -/
  | malformed (problem : Problem) (line column position : Nat)
  /-- The text goes past a limit. -/
  | limit (limit : Limit)
  deriving DecidableEq

/-- The wording of a malformed text. -/
def malformedMessage (problem : Problem) (line column position : Nat) : Text :=
  problem.message ++ ": line " ++ .ofNat line ++ " column " ++ .ofNat column ++ " (char " ++
    .ofNat position ++ ")"

/-- The wording of a fault. -/
def Fault.message : Fault → Text
  | malformed problem line column position => malformedMessage problem line column position
  | limit past => past.message

/-- Why a reader stops. -/
inductive Halt where
  /-- A problem at the place where this text lies ahead. -/
  | problem (problem : Problem) (ahead : Text)
  /-- A limit. -/
  | limit (limit : Limit)

/-- What a reader gives. -/
abbrev Reads (α : Type) := Except Halt (α × Text)

/-- The characters after blanks, of which JSON knows four. -/
def skipBlanks (cs : Text) : Text :=
  cs.dropWhile fun c => c == ' ' || c == '\t' || c == '\n' || c == '\r'

/-- A part of a string as it is written. -/
inductive StringPart where
  /-- A code point, which is written as itself or by a letter. -/
  | point (c : CodePoint)
  /-- A 16-bit unit, which is written by its digits. -/
  | unit (n : Nat)
  deriving DecidableEq

/-- The code point of a part. -/
def StringPart.codePoint : StringPart → CodePoint
  | point c => c
  | unit n => .ofCode n

/-- The number of hexadecimal digits, if they are such. -/
def unit? (digits : Text) : Option Nat :=
  if digits.all CodePoint.isHexDigit then some (digits.foldl (fun n c => 16 * n + c.hexValue) 0)
  else none

/-- The character that two units make up, if they are a surrogate pair. -/
def paired? (high low : Nat) : Option CodePoint :=
  if (0xD800 ≤ high ∧ high ≤ 0xDBFF) ∧ 0xDC00 ≤ low ∧ low ≤ 0xDFFF then
    some (.ofCode (0x10000 + (high - 0xD800) * 0x400 + (low - 0xDC00)))
  else none

/-- Adds a unit to the parts before it, the last one of which comes first. With a unit just before
it, it may make up a character. -/
def addUnit (before : List StringPart) (unit : Nat) : List StringPart :=
  match before with
  | .unit high :: earlier =>
    match paired? high unit with
    | some c => .point c :: earlier
    | none => .unit unit :: before
  | _ => .unit unit :: before

/-- The one-letter escapes, by letter and number of the character. -/
def escapes : List (CodePoint × Nat) :=
  [('"', 0x22), ('\\', 0x5C), ('/', 0x2F), ('b', 0x08), ('f', 0x0C), ('n', 0x0A), ('r', 0x0D),
   ('t', 0x09)]

/-- The character of a one-letter escape. -/
def escape? (letter : CodePoint) : Option CodePoint := (escapes.lookup letter).map .ofCode

/-- Reads a string after its opening quote. `start` is the text from that quote on, and `before`
holds the parts read so far, the last one first. The digits of an escape need something after
them. -/
def takeString (start : Text) (before : List StringPart) (cs : Text) : Reads Text :=
  match cs with
  | [] => .error (.problem .unterminated start)
  | .char '"' :: rest => .ok (before.reverse.map StringPart.codePoint, rest)
  | [.char '\\'] => .error (.problem .unterminated start)
  | .char '\\' :: .char 'u' :: rest =>
    match rest with
    | a :: b :: c :: d :: next :: after =>
      match unit? [a, b, c, d] with
      | some unit => takeString start (addUnit before unit) (next :: after)
      | none => .error (.problem .badUnicodeEscape (.char 'u' :: rest))
    | _ => .error (.problem .badUnicodeEscape (.char 'u' :: rest))
  | .char '\\' :: letter :: rest =>
    match escape? letter with
    | some c => takeString start (.point c :: before) rest
    | none => .error (.problem .badEscape cs)
  | c :: rest =>
    if c.code < 0x20 then .error (.problem .controlCharacter cs)
    else takeString start (.point c :: before) rest

/-- Reads a string whose opening quote has been passed. -/
def takeStringAfterQuote (cs : Text) : Reads Text := takeString (.char '"' :: cs) [] cs

/-- The digits of an unsigned integer without leading zeros, and the characters after them. -/
def takeWhole (cs : Text) : Text × Text :=
  match cs with
  | .char '0' :: rest => ("0", rest)
  | _ => (cs.takeWhile CodePoint.isDigit, cs.dropWhile CodePoint.isDigit)

/-- The digits of a fraction after its point, and the characters after them. Without digits there is
no fraction. -/
def takeFraction (cs : Text) : Text × Text :=
  match cs with
  | .char '.' :: rest =>
    match rest.takeWhile CodePoint.isDigit with
    | [] => ([], cs)
    | digits => (digits, rest.dropWhile CodePoint.isDigit)
  | _ => ([], cs)

/-- The sign and the digits of an exponent, and the characters after them. Without digits there is
no exponent. -/
def takeExponent (cs : Text) : Bool × Text × Text :=
  match cs with
  | e :: rest =>
    let (negative, body) := takeSign rest
    match body.takeWhile CodePoint.isDigit with
    | [] => (false, [], cs)
    | digits =>
      if e = 'e' ∨ e = 'E' then (negative, digits, body.dropWhile CodePoint.isDigit)
      else (false, [], cs)
  | [] => (false, [], cs)

/-- The number of a list of ASCII digits. -/
def ofAsciiDigits (cs : Text) : Nat := ofDigits (cs.map CodePoint.digitValue)

/-- Reads a number after its sign; `start` is the text from the sign or the first digit on. -/
def takeNumber (start : Text) (negative : Bool) (cs : Text) : Reads Json :=
  match takeWhole cs with
  | ([], _) => .error (.problem .noValue start)
  | (whole, rest) =>
    let (fraction, rest) := takeFraction rest
    let (negativeExponent, exponent, rest) := takeExponent rest
    if fraction.isEmpty && exponent.isEmpty then
      if whole.length ≤ digitLimit then .ok (.int (signed negative (ofAsciiDigits whole)), rest)
      else .error (.limit (.integerTooLong whole.length))
    else
      let digits := ofAsciiDigits (whole ++ fraction)
      let scale : Int := fraction.length
      let decimal : Decimal := ⟨digits, signed negativeExponent (ofAsciiDigits exponent) - scale⟩
      .ok (.float (.ofDecimal negative decimal), rest)

/-- The values that are written as words. -/
def words : List (Text × Json) :=
  [("null", .null), ("true", .bool true), ("false", .bool false), ("NaN", .float .nan),
   ("Infinity", .float (.infinite false)), ("-Infinity", .float (.infinite true))]

/-- Reads a value that is not nested. -/
def takeScalar (cs : Text) : Reads Json :=
  match cs with
  | .char '"' :: rest => (takeStringAfterQuote rest).map fun (s, rest) => (.string s, rest)
  | _ =>
    match words.find? fun word => word.1.isPrefixOf cs with
    | some (word, value) => .ok (value, cs.drop word.length)
    | none =>
      match cs with
      | .char '-' :: rest => takeNumber cs true rest
      | _ => takeNumber cs false cs

/-- Reads the name of a member and the colon after it. -/
def takeName (cs : Text) : Reads Text :=
  match cs with
  | .char '"' :: rest =>
    match takeStringAfterQuote rest with
    | .error halt => .error halt
    | .ok (name, rest) =>
      match skipBlanks rest with
      | .char ':' :: rest => .ok (name, skipBlanks rest)
      | rest => .error (.problem .noColon rest)
  | _ => .error (.problem .noName cs)

mutual

/-- Reads a value in which so many levels of lists and objects may be nested. -/
def takeValue (levels : Nat) : Nat → Text → Reads Json
  | 0, cs => .error (.problem .noValue cs)
  | steps + 1, cs =>
    match cs with
    | .char '[' :: rest =>
      match levels with
      | 0 => .error (.limit (.tooDeep .array))
      | levels + 1 =>
        match skipBlanks rest with
        | .char ']' :: rest => .ok (.array [], rest)
        | rest => takeItems levels steps [] rest
    | .char '\x7b' :: rest =>
      match levels with
      | 0 => .error (.limit (.tooDeep .object))
      | levels + 1 =>
        match skipBlanks rest with
        | .char '\x7d' :: rest => .ok (.object [], rest)
        | rest => takeMembers levels steps [] rest
    | _ => takeScalar cs

/-- Reads the items of a list up to its end, `read` holding the earlier ones, the last one first. -/
def takeItems (levels : Nat) : Nat → List Json → Text → Reads Json
  | 0, _, cs => .error (.problem .noValue cs)
  | steps + 1, read, cs =>
    match takeValue levels steps cs with
    | .error halt => .error halt
    | .ok (item, rest) =>
      match skipBlanks rest with
      | .char ']' :: rest => .ok (.array (item :: read).reverse, rest)
      | .char ',' :: rest => takeItems levels steps (item :: read) (skipBlanks rest)
      | rest => .error (.problem .noComma rest)

/-- Reads the members of an object up to its end, `read` holding the earlier ones. -/
def takeMembers (levels : Nat) : Nat → List (Text × Json) → Text → Reads Json
  | 0, _, cs => .error (.problem .noValue cs)
  | steps + 1, read, cs =>
    match takeName cs with
    | .error halt => .error halt
    | .ok (name, rest) =>
      match takeValue levels steps rest with
      | .error halt => .error halt
      | .ok (value, rest) =>
        let members := Mapping.put read name value
        match skipBlanks rest with
        | .char '\x7d' :: rest => .ok (.object members, rest)
        | .char ',' :: rest => takeMembers levels steps members (skipBlanks rest)
        | rest => .error (.problem .noComma rest)

end

/-- The fault of a reader that has stopped in a text. The first line and the first column are 1. -/
def Halt.fault (text : Text) : Halt → Fault
  | .problem what ahead =>
    let position := text.length - ahead.length
    let before := text.take position
    let lineFeed : CodePoint := '\n'
    let column := (before.reverse.takeWhile (· != lineFeed)).length + 1
    .malformed what (before.count lineFeed + 1) column position
  | .limit past => .limit past

/-- The value of a text. -/
def read (text : Text) : Except Fault Json :=
  match takeValue nestingLimit (2 * text.length + 2) (skipBlanks text) with
  | .error halt => .error (halt.fault text)
  | .ok (value, rest) =>
    match skipBlanks rest with
    | [] => .ok value
    | rest => .error ((Halt.problem .extraData rest).fault text)

/-- The value of a text, which must not begin with a mark of byte order. -/
def parse (text : Text) : Except Fault Json :=
  if text.head? = some (.ofCode 0xFEFF) then
    .error ((Halt.problem .byteOrderMark text).fault text)
  else read text

end RelStore.Json
