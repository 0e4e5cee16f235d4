/-!
# Texts

A text is a list of code points. JSON can name one half of a surrogate pair without the other, and
names and cells come from JSON; so a code point is a character or a surrogate. Texts are ordered
code point by code point.
-/

namespace RelStore

/-- A code point. -/
inductive CodePoint where
  /-- A character. -/
  | char (c : Char)
  /-- A surrogate, by its distance from the first one. -/
  | surrogate (offset : Fin 0x800)
  deriving DecidableEq

namespace CodePoint

instance : Coe Char CodePoint := ⟨char⟩

/-- The number of a code point. -/
def code : CodePoint → Nat
  | char c => c.toNat
  | surrogate offset => 0xD800 + offset

/-- The code point of a number below `0x110000`. -/
def ofCode (n : Nat) : CodePoint :=
  if h : 0xD800 ≤ n ∧ n < 0xE000 then surrogate ⟨n - 0xD800, by omega⟩ else char (Char.ofNat n)

/-- The character that a code point is. A surrogate shows as the replacement character. -/
def toChar : CodePoint → Char
  | char c => c
  | surrogate _ => Char.ofNat 0xFFFD

/-- Whether a code point is a character with some property. -/
def isChar (property : Char → Bool) : CodePoint → Bool
  | char c => property c
  | surrogate _ => false

/-- Whether a code point is an ASCII digit. -/
def isDigit : CodePoint → Bool := isChar Char.isDigit

/-- Whether a code point is an ASCII letter. -/
def isAlpha : CodePoint → Bool := isChar Char.isAlpha

/-- Whether a code point is an ASCII letter or digit. -/
def isAlphanum : CodePoint → Bool := isChar Char.isAlphanum

/-- A code point with an ASCII letter in lower case. -/
def toLower : CodePoint → CodePoint
  | char c => char c.toLower
  | surrogate offset => surrogate offset

/-- A code point with an ASCII letter in upper case. -/
def toUpper : CodePoint → CodePoint
  | char c => char c.toUpper
  | surrogate offset => surrogate offset

/-- How far an ASCII digit is from zero. -/
def digitValue (c : CodePoint) : Nat := c.code - '0'.toNat

/-- Whether a code point is a hexadecimal digit. -/
def isHexDigit : CodePoint → Bool :=
  isChar fun c => c.isDigit || ('a' ≤ c && c ≤ 'f') || ('A' ≤ c && c ≤ 'F')

/-- The value of a hexadecimal digit. -/
def hexValue (c : CodePoint) : Nat :=
  if c.isDigit then c.digitValue
  else if c.code ≤ 'F'.toNat then c.code - 'A'.toNat + 10
  else c.code - 'a'.toNat + 10

end CodePoint

/-- A text: its code points in order. -/
abbrev Text := List CodePoint

namespace Text

/-- The text of a string, which holds no surrogates. -/
def ofString (s : String) : Text := s.toList.map .char

instance : Coe String Text := ⟨ofString⟩

/-- A text as a string, in which surrogates show as the replacement character. -/
def asString (text : Text) : String := String.ofList (text.map CodePoint.toChar)

/-- The order of texts by the numbers of their code points. -/
def compare : Text → Text → Ordering
  | [], [] => .eq
  | [], _ :: _ => .lt
  | _ :: _, [] => .gt
  | a :: s, b :: t => (Ord.compare a.code b.code).then (compare s t)

/-- The decimal digits of a natural number. -/
def ofNat (n : Nat) : Text := (Nat.toDigits 10 n).map .char

/-- The decimal digits of an integer, after a minus sign if it is negative. -/
def ofInt (n : Int) : Text := if n < 0 then '-' :: ofNat n.natAbs else ofNat n.natAbs

end Text

end RelStore
