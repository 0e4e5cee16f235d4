import RelStore.Text.Basic

/-!
# Text as octets

Text travels as UTF-8. `Utf8.pieces` cuts octets into characters and maximal faulty parts: a part
ends before the first octet that cannot go on the character it has begun. A reader either replaces
each faulty part by the replacement character (`Utf8.decode`) or stops at the first one.
-/

namespace RelStore.Text

/-- A sequence of octets. -/
abbrev Octets := List UInt8

/-- The octets of a code point. A surrogate takes three octets like its neighbours. -/
def encodePoint (c : CodePoint) : Octets :=
  let n := c.code
  let tail (bits : Nat) : UInt8 := .ofNat (0x80 + bits % 0x40)
  if n < 0x80 then [.ofNat n]
  else if n < 0x800 then [.ofNat (0xC0 + n / 0x40), tail n]
  else if n < 0x10000 then [.ofNat (0xE0 + n / 0x1000), tail (n / 0x40), tail n]
  else [.ofNat (0xF0 + n / 0x40000), tail (n / 0x1000), tail (n / 0x40), tail n]

/-- The octets of a text. -/
def encode (text : Text) : Octets := text.flatMap encodePoint

/-- The character that stands for octets that are no text. -/
def replacement : CodePoint := .ofCode 0xFFFD

namespace Utf8

/-- What is wrong with a part of a sequence of octets. -/
inductive Problem where
  /-- The octet begins no character. -/
  | badStart
  /-- The next octet does not go on the character. -/
  | badContinuation
  /-- The octets end within the character. -/
  | cutShort
  deriving DecidableEq

/-- The wording of a problem. -/
def Problem.message : Problem → Text
  | badStart => "invalid start byte"
  | badContinuation => "invalid continuation byte"
  | cutShort => "unexpected end of data"

/-- A part of a sequence of octets. -/
inductive Piece where
  /-- A character, and how many octets it takes. -/
  | char (c : CodePoint) (length : Nat)
  /-- A faulty part of some octets. -/
  | bad (problem : Problem) (length : Nat)
  deriving DecidableEq

/-- How many octets a part takes. -/
def Piece.length : Piece → Nat
  | char _ length => length
  | bad _ length => length

/-- What a first octet tells of a character of several octets: how many octets follow, the bounds of
the next one, and the bits that the first octet itself brings. -/
def lead? (b : Nat) : Option (Nat × Nat × Nat × Nat) :=
  if 0xC2 ≤ b ∧ b ≤ 0xDF then some (1, 0x80, 0xBF, b - 0xC0)
  else if b = 0xE0 then some (2, 0xA0, 0xBF, b - 0xE0)
  else if b = 0xED then some (2, 0x80, 0x9F, b - 0xE0)
  else if 0xE1 ≤ b ∧ b ≤ 0xEF then some (2, 0x80, 0xBF, b - 0xE0)
  else if b = 0xF0 then some (3, 0x90, 0xBF, b - 0xF0)
  else if b = 0xF4 then some (3, 0x80, 0x8F, b - 0xF0)
  else if 0xF1 ≤ b ∧ b ≤ 0xF3 then some (3, 0x80, 0xBF, b - 0xF0)
  else none

/-- Goes on with a character of which `taken` octets have been read and brought the bits `code`. So
many octets are due, the next of them between two bounds. -/
def follow (code taken : Nat) : (due low high : Nat) → Octets → Piece
  | 0, _, _, _ => .char (.ofCode code) taken
  | _ + 1, _, _, [] => .bad .cutShort taken
  | due + 1, low, high, b :: rest =>
    if low ≤ b.toNat ∧ b.toNat ≤ high then
      follow (code * 64 + (b.toNat - 0x80)) (taken + 1) due 0x80 0xBF rest
    else .bad .badContinuation taken

/-- The part at the start of octets of which `b` is the first. -/
def piece (b : UInt8) (rest : Octets) : Piece :=
  if b.toNat < 0x80 then .char (.ofCode b.toNat) 1
  else
    match lead? b.toNat with
    | none => .bad .badStart 1
    | some (due, low, high, code) => follow code 1 due low high rest

/-- The parts of octets, after the parts `read` in reverse order. Every part takes at least one
octet, so as many steps as there are octets suffice. -/
def piecesFrom (read : List Piece) : Nat → Octets → List Piece
  | 0, _ => read.reverse
  | _ + 1, [] => read.reverse
  | steps + 1, b :: rest =>
    let next := piece b rest
    piecesFrom (next :: read) steps (rest.drop (next.length - 1))

/-- The parts of octets. -/
def pieces (octets : Octets) : List Piece := piecesFrom [] octets.length octets

/-- The text of octets, each faulty part replaced. -/
def decode (octets : Octets) : Text :=
  (pieces octets).map fun
    | .char c _ => c
    | .bad _ _ => replacement

end Utf8

end RelStore.Text
