/-!
# Floating-point numbers of 64 bits

A float cell holds a number of the 64-bit binary format. The numbers are kept exactly, as a sign, a
mantissa and an exponent, so that comparing a float with an integer of any size, truncating it and
printing it are plain integer arithmetic. The finite number of mantissa `m` and exponent `e` is
`m * 2^e` units, where the unit is `2^(-1074)`, the least positive number of the format.

`Binary64.nearest` rounds a fraction into the format, and `Binary64.point?` places a number on a
line that it shares with the integers (`Point.ofInt`).
-/

namespace RelStore

/-- Two to the power of `k`. -/
def twoTo (k : Nat) : Nat := Nat.pow 2 k

/-- A mantissa and an exponent are the ones by which the format stores a number: the mantissa has at
most 53 bits, and it has all 53 unless the exponent is the least one. -/
def Binary64.Canonical (mantissa exponent : Nat) : Prop :=
  mantissa < twoTo 53 ∧ exponent ≤ 2045 ∧ (twoTo 52 ≤ mantissa ∨ exponent = 0)

instance (mantissa exponent : Nat) : Decidable (Binary64.Canonical mantissa exponent) :=
  inferInstanceAs (Decidable (_ ∧ _ ∧ _))

/-- A number of the 64-bit binary format. -/
inductive Binary64 where
  /-- The number of `mantissa * 2^exponent` units, or its negative. -/
  | finite (negative : Bool) (mantissa exponent : Nat)
      (canonical : Binary64.Canonical mantissa exponent)
  /-- One of the two infinities. -/
  | infinite (negative : Bool)
  /-- The result that is not a number. -/
  | nan
  deriving DecidableEq

/-- How many units make up one. -/
def unitsPerOne : Nat := twoTo 1074

/-- A place on the number line with both infinite ends, finite places counted in units. -/
inductive Point where
  /-- The end below every number. -/
  | below
  /-- The place `units` units away from zero. -/
  | finite (units : Int)
  /-- The end above every number. -/
  | above
  deriving DecidableEq

namespace Point

/-- The place of an integer. -/
def ofInt (n : Int) : Point := .finite (n * unitsPerOne)

/-- The order of places from the lower end to the upper one. -/
def compare : Point → Point → Ordering
  | .below, .below => .eq
  | .below, _ => .lt
  | .finite _, .below => .gt
  | .finite a, .finite b => Ord.compare a b
  | .finite _, .above => .lt
  | .above, .above => .eq
  | .above, _ => .gt

end Point

/-- The quotient `num / den` rounded to a whole number, to the nearest one and from halfway to the
even one. -/
def roundHalfEven (num den : Nat) : Nat :=
  let floor := num / den
  let rest := 2 * (num % den)
  if rest < den ∨ (rest = den ∧ floor % 2 = 0) then floor else floor + 1

namespace Binary64

/-- Zero, with a sign. -/
def zero (negative : Bool) : Binary64 :=
  .finite negative 0 0 ⟨by decide, by decide, .inr rfl⟩

/-- The number of a mantissa that rounding has brought to at most `2^53`: the mantissa `2^53` itself
moves to the next exponent, and what lies past the largest exponent is infinite. -/
def ofRounded (negative : Bool) (mantissa exponent : Nat) : Binary64 :=
  if canonical : Canonical mantissa exponent then .finite negative mantissa exponent canonical
  else if inRange : mantissa = twoTo 53 ∧ exponent < 2045 then
    .finite negative (twoTo 52) (exponent + 1) ⟨by decide, inRange.2, .inl (Nat.le_refl _)⟩
  else .infinite negative

/-- The number nearest to `num / den`, the one of even mantissa when two are equally near. -/
def nearest (negative : Bool) (num den : Nat) : Binary64 :=
  let units := num * unitsPerOne
  let exponent := (units / den).log2 + 1 - 53
  ofRounded negative (roundHalfEven units (den * twoTo exponent)) exponent

/-- The number nearest to an integer. -/
def ofInt (n : Int) : Binary64 := nearest (decide (n < 0)) n.natAbs 1

/-- How many units a finite number is away from zero; the other numbers have no such count. -/
def units? : Binary64 → Option Int
  | .finite negative mantissa exponent _ =>
    let size : Int := (mantissa * twoTo exponent : Nat)
    some (if negative then -size else size)
  | .infinite _ => none
  | .nan => none

/-- The place of a number on the number line, which only `nan` lacks. -/
def point? : Binary64 → Option Point
  | .finite negative mantissa exponent _ =>
    let size : Int := (mantissa * twoTo exponent : Nat)
    some (.finite (if negative then -size else size))
  | .infinite negative => some (if negative then .below else .above)
  | .nan => none

/-- Whether a number is neither infinite nor `nan`. -/
def isFinite (x : Binary64) : Bool := x.units?.isSome

/-- A finite number with its fraction cut off. -/
def truncate? (x : Binary64) : Option Int :=
  x.units?.map (·.tdiv unitsPerOne)

/-- The integer that a number is equal to, if there is one. -/
def toInt? (x : Binary64) : Option Int :=
  match x.units? with
  | some units => if units % unitsPerOne = 0 then some (units / unitsPerOne) else none
  | none => none

end Binary64

end RelStore
