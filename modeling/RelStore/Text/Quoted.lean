import RelStore.Text.Printable

/-!
# Quoted text in messages

Messages show a text between quotes on one line: between single quotes, or between double quotes
when it holds single quotes only. Backslashes, the enclosing quote and characters that are not
printable are written as escapes.
-/

namespace RelStore.Text

/-- The last `width` hexadecimal digits of a number, in lower case. -/
def hexDigits : Nat → Nat → Text
  | 0, _ => []
  | width + 1, n => hexDigits width (n / 16) ++ [.char (Nat.digitChar (n % 16))]

/-- A code point as it is written between quotes. -/
def quotedPoint (quote c : CodePoint) : Text :=
  if c = quote ∨ c = '\\' then ['\\', c]
  else if c = '\n' then "\\n"
  else if c = '\r' then "\\r"
  else if c = '\t' then "\\t"
  else if isPrintable c then [c]
  else if c.code < 0x100 then "\\x" ++ hexDigits 2 c.code
  else if c.code < 0x10000 then "\\u" ++ hexDigits 4 c.code
  else "\\U" ++ hexDigits 8 c.code

/-- A text between quotes. -/
def quoted (text : Text) : Text :=
  let quote : CodePoint := if text.contains '\'' && !text.contains '"' then '"' else '\''
  quote :: text.flatMap (quotedPoint quote) ++ [quote]

end RelStore.Text
