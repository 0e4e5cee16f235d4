import RelStore.Text.Basic

/-!
# Blank characters

White space is the Unicode property together with the four information separators. It separates
SQL tokens and is trimmed from text before it is read as a number, a truth value or a header.
-/

namespace RelStore.Text

/-- The closed ranges of blank code points, in increasing order. -/
def blankRanges : List (Nat × Nat) :=
  [(0x09, 0x0D), (0x1C, 0x20), (0x85, 0x85), (0xA0, 0xA0), (0x1680, 0x1680), (0x2000, 0x200A),
   (0x2028, 0x2029), (0x202F, 0x202F), (0x205F, 0x205F), (0x3000, 0x3000)]

/-- Whether a code point is blank. -/
def isBlank (c : CodePoint) : Bool :=
  blankRanges.any fun range => range.1 ≤ c.code && c.code ≤ range.2

/-- A text without the blanks at its two ends. -/
def strip (text : Text) : Text :=
  ((text.dropWhile isBlank).reverse.dropWhile isBlank).reverse

end RelStore.Text
