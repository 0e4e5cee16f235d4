import RelStore.Text.Case
import RelStore.Text.Folding

/-!
# Text patterns

A pattern of `LIKE` matches a whole text, ignoring case: `%` stands for any run of characters, `_`
for any single one, and every other character for itself. Both sides are brought to lower case
before they are compared letter by letter.

Matching goes through the pattern piece by piece and keeps, for every prefix of the text, whether
the pieces so far match it. A text of `n` characters has `n + 1` prefixes.
-/

namespace RelStore.Pattern

/-- A piece of a pattern. -/
inductive Piece where
  /-- Any run of characters, the empty one included. -/
  | run
  /-- Any single character. -/
  | one
  /-- A single character that is this one, ignoring case. -/
  | letter (c : CodePoint)
  deriving DecidableEq

/-- The piece that a character of a pattern stands for. -/
def Piece.ofCodePoint (c : CodePoint) : Piece :=
  if c = '%' then run else if c = '_' then one else letter c

/-- Whether a piece for a single character stands for a given one. -/
def Piece.fits (piece : Piece) (c : CodePoint) : Bool :=
  match piece with
  | run => false
  | one => true
  | letter l => Text.fold l == Text.fold c

/-- For every place of a list, whether `true` stands there or before it. -/
def reached (before : Bool) : List Bool → List Bool
  | [] => []
  | b :: rest => (before || b) :: reached (before || b) rest

/-- Which prefixes of a text match when a piece is added to pieces that match the given ones. -/
def Piece.advance (text : Text) (prefixes : List Bool) : Piece → List Bool
  | run => reached false prefixes
  | piece => false :: List.zipWith (fun matched c => matched && piece.fits c) prefixes text

/-- Whether a list of pieces matches a text. -/
def matchPieces (pieces : List Piece) (text : Text) : Bool :=
  let start := true :: List.replicate text.length false
  (pieces.foldl (Piece.advance text) start).getLast?.getD false

/-- Whether a text matches a pattern, ignoring case. -/
def like (text pattern : Text) : Bool :=
  matchPieces (pattern.lower.map Piece.ofCodePoint) text.lower

end RelStore.Pattern
