import RelStore.Number.Decimal
import RelStore.Text.Blank
import RelStore.Text.DecimalDigit

/-!
# Numbers read from text

A number in a text may have blanks around it, a sign, digits of any script, and single low lines
between digits. `readInteger?` accepts whole numbers of at most `digitLimit` digits; `readFloat?`
also accepts a fraction, an exponent, and the words for the infinities and for `nan`.
-/

namespace RelStore

/-- That an integer of so many digits is too long to be read. -/
def integerTooLongMessage (digits : Nat) : Text :=
  "Exceeds the limit (4300 digits) for integer string conversion: value has " ++ .ofNat digits ++
    " digits; use sys.set_int_max_str_digits() to increase the limit"

/-- The number that decimal digits stand for. -/
def ofDigits (digits : List Nat) : Nat := digits.foldl (fun n d => 10 * n + d) 0

/-- The digits at the start of a text and what follows them. A low line is passed over when it
stands between two digits; `afterDigit` tells whether a digit came just before. -/
def digitRun (afterDigit : Bool) : Text → List Nat × Text
  | [] => ([], [])
  | c :: rest =>
    match Text.decimalDigit? c with
    | some d => (d :: (digitRun true rest).1, (digitRun true rest).2)
    | none =>
      if c = '_' ∧ afterDigit then
        match digitRun false rest with
        | ([], _) => ([], c :: rest)
        | (d :: ds, tail) => (d :: ds, tail)
      else ([], c :: rest)

/-- A sign at the start of a text, `true` for minus, and what follows it. -/
def takeSign : Text → Bool × Text
  | .char '-' :: rest => (true, rest)
  | .char '+' :: rest => (false, rest)
  | text => (false, text)

/-- An integer with a sign. -/
def signed (negative : Bool) (n : Nat) : Int := if negative then -(n : Int) else n

/-- The integer that a whole text denotes. -/
def readInteger? (text : Text) : Option Int :=
  let (negative, body) := takeSign text.strip
  match digitRun false body with
  | ([], _) => none
  | (digits, []) =>
    if digits.length ≤ digitLimit then some (signed negative (ofDigits digits)) else none
  | (_, _ :: _) => none

/-- A decimal without sign at the start of a text and what follows it: digits with an optional
point among or around them, then an optional exponent. -/
def takeDecimal? (text : Text) : Option (Decimal × Text) :=
  let (whole, afterWhole) := digitRun false text
  let (fraction, afterFraction) :=
    match afterWhole with
    | .char '.' :: rest => digitRun false rest
    | _ => ([], afterWhole)
  let digits := whole ++ fraction
  let scale : Int := fraction.length
  if digits.isEmpty then none
  else
    match afterFraction with
    | .char 'e' :: rest | .char 'E' :: rest =>
      let (negative, body) := takeSign rest
      match digitRun false body with
      | ([], _) => none
      | (exponent, tail) =>
        some (⟨ofDigits digits, signed negative (ofDigits exponent) - scale⟩, tail)
    | tail => some (⟨ofDigits digits, -scale⟩, tail)

/-- The float that a whole text denotes, the nearest one to the decimal it writes. -/
def readFloat? (text : Text) : Option Binary64 :=
  let (negative, body) := takeSign text.strip
  let word := body.map CodePoint.toLower
  if word = "inf" ∨ word = "infinity" then some (.infinite negative)
  else if word = "nan" then some .nan
  else
    match takeDecimal? body with
    | some (d, []) => some (.ofDecimal negative d)
    | _ => none

end RelStore
