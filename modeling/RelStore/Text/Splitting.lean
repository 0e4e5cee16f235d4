import RelStore.Text.Basic

/-!
# Splitting of texts

A text is split at one occurrence of a delimiter, the first or the last one, or at all of them. The
delimiters themselves belong to no part.
-/

namespace RelStore.Text

/-- What stands before the first occurrence of a delimiter; the whole text if there is none. -/
def upTo (text : Text) (delimiter : CodePoint) : Text := text.takeWhile (· != delimiter)

/-- What stands from the first occurrence of a delimiter on; nothing if there is none. -/
def onward (text : Text) (delimiter : CodePoint) : Text := text.dropWhile (· != delimiter)

/-- What stands before and after the first occurrence of a delimiter. -/
def splitFirst? (text : Text) (delimiter : CodePoint) : Option (Text × Text) :=
  match text.onward delimiter with
  | [] => none
  | _ :: after => some (text.upTo delimiter, after)

/-- What stands before and after the last occurrence of a delimiter. -/
def splitLast? (text : Text) (delimiter : CodePoint) : Option (Text × Text) :=
  (splitFirst? text.reverse delimiter).map fun (after, before) => (before.reverse, after.reverse)

/-- The parts of a text between the occurrences of a delimiter. -/
def splitAll (text : Text) (delimiter : CodePoint) : List Text := List.splitOn delimiter text

end RelStore.Text
