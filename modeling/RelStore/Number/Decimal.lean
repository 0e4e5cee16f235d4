import RelStore.Number.Binary64
import RelStore.Text.Basic

/-!
# Decimal numerals of floats

Floats are written with the fewest decimal digits that read back to the same number, and of those
with the digits nearest to it. `Binary64.shortest` selects the digits by exact integer arithmetic;
`Binary64.text` lays them out. `Binary64.ofDecimal` is the way back from digits and an exponent.
Integers are written with all their digits, of which there is a greatest number (`digitLimit`).
-/

namespace RelStore

/-- Ten to the power of `k`. -/
def tenTo (k : Nat) : Nat := Nat.pow 10 k

/-- The decimal number `digits * 10^exponent`. -/
structure Decimal where
  /-- The digits, read as a whole number. -/
  digits : Nat
  /-- The power of ten that the digits are multiplied by. -/
  exponent : Int
  deriving DecidableEq

/-- How many digits a number has in decimal; zero has one. -/
def decimalLength (n : Nat) : Nat := (Nat.toDigits 10 n).length

/-- The greatest number of digits that an integer is written with. -/
def digitLimit : Nat := 4300

/-- Whether an integer can be written: it has no more digits than the limit. -/
def isWritable (n : Int) : Bool := n.natAbs < tenTo digitLimit

/-- That an integer is too long to be written. -/
def unwritableIntegerMessage : Text :=
  "Exceeds the limit (4300 digits) for integer string conversion; " ++
    "use sys.set_int_max_str_digits() to increase the limit"

namespace Binary64

/-- Whether a decimal lies among the numbers that round to mantissa `m` and exponent `e`: between
the midpoints to the two neighbours, which count as inside when `m` is even. Below a power of two
the neighbour is half as far away. -/
def ReadsBack (m e : Nat) (d : Decimal) : Prop :=
  let quarter := twoTo e * tenTo (-d.exponent).toNat
  let low := (if m = twoTo 52 ∧ 0 < e then 4 * m - 1 else 4 * m - 2) * quarter
  let high := (4 * m + 2) * quarter
  let place := d.digits * tenTo d.exponent.toNat * (4 * unitsPerOne)
  if m % 2 = 0 then low ≤ place ∧ place ≤ high else low < place ∧ place < high

instance (m e : Nat) (d : Decimal) : Decidable (ReadsBack m e d) := by
  unfold ReadsBack
  infer_instance

/-- The least `k` with `num / den < 10^k`, for a positive fraction. -/
def decimalPoint (num den : Nat) : Int :=
  if den ≤ num then decimalLength (num / den) else 1 - (decimalLength ((den - 1) / num) : Int)

/-- The nearest of the at most two neighbours of a number among the multiples of `10^grid` that read
back to it. -/
def onGrid? (m e : Nat) (grid : Int) : Option Decimal :=
  let num := m * twoTo e * tenTo (-grid).toNat
  let den := unitsPerOne * tenTo grid.toNat
  let near := roundHalfEven num den
  let far := if near = num / den then near + 1 else near - 1
  [near, far].findSome? fun digits =>
    if ReadsBack m e ⟨digits, grid⟩ then some ⟨digits, grid⟩ else none

/-- The decimal of fewest digits that reads back to the positive number of mantissa `m` and
exponent `e`. Seventeen digits are always enough; without a hit it is the exact value. -/
def shortest (m e : Nat) : Decimal :=
  let point := decimalPoint (m * twoTo e) unitsPerOne
  let hit := (List.range' 1 17).findSome? fun (count : Nat) => onGrid? m e (point - count)
  hit.getD ⟨m * twoTo e * Nat.pow 5 1074, -1074⟩

/-- Digits with the decimal point after the first `point` of them: positional when the number is at
least a ten-thousandth and below ten to the sixteenth, and otherwise one digit before the point and
a signed exponent of at least two digits. -/
def layOut (digits : Text) (point : Int) : Text :=
  let count : Int := digits.length
  let zeros (n : Nat) : Text := List.replicate n '0'
  if -4 < point ∧ point ≤ 16 then
    if point ≤ 0 then "0." ++ zeros (-point).toNat ++ digits
    else if count ≤ point then digits ++ zeros (point - count).toNat ++ ".0"
    else digits.take point.toNat ++ "." ++ digits.drop point.toNat
  else
    let exponent := point - 1
    let magnitude := Text.ofNat exponent.natAbs
    let fraction : Text := if count ≤ 1 then "" else "." ++ digits.drop 1
    let mark : Text := if exponent < 0 then "e-" else "e+"
    digits.take 1 ++ fraction ++ mark ++ zeros (2 - magnitude.length) ++ magnitude

/-- The text of a number: its shortest decimal with a point or an exponent, `-0.0` for the negative
zero, and `inf`, `-inf` and `nan`. -/
def text : Binary64 → Text
  | .finite negative m e _ =>
    let sign : Text := if negative then "-" else ""
    if m = 0 then sign ++ "0.0"
    else
      let d := shortest m e
      let digits := Text.ofNat d.digits
      let significant := (digits.reverse.dropWhile (· == .char '0')).reverse
      sign ++ layOut significant (d.exponent + (digits.length : Int))
  | .infinite negative => if negative then "-inf" else "inf"
  | .nan => "nan"

/-- The number nearest to `digits * 10^exponent`. Numbers past the largest are infinite and numbers
far below the least are zero, whatever the size of the exponent. -/
def ofDecimal (negative : Bool) (d : Decimal) : Binary64 :=
  let point := (decimalLength d.digits : Int) + d.exponent
  if d.digits = 0 ∨ point < -330 then zero negative
  else if 310 < point then .infinite negative
  else nearest negative (d.digits * tenTo d.exponent.toNat) (tenTo (-d.exponent).toNat)

end Binary64

end RelStore
