import RelStore.Text.Quoted
import RelStore.Text.Utf8

/-!
# Encodings of JSON bodies

A JSON body comes in UTF-8, UTF-16 or UTF-32. The encoding shows in a mark of byte order at the
start or, as JSON begins with ASCII characters, in which of the first octets are zero. A surrogate
without its partner is read as such.
-/

namespace RelStore.Text

/-- The encoding of a text. -/
inductive Encoding where
  /-- UTF-8. -/
  | utf8
  /-- UTF-16, with the higher octet of a unit first or last. -/
  | utf16 (highFirst : Bool)
  /-- UTF-32, with the highest octet of a unit first or last. -/
  | utf32 (highFirst : Bool)
  deriving DecidableEq

/-- The name of an encoding in messages. -/
def Encoding.name : Encoding → Text
  | utf8 => "utf-8"
  | utf16 highFirst => if highFirst then "utf-16-be" else "utf-16-le"
  | utf32 highFirst => if highFirst then "utf-32-be" else "utf-32-le"

/-- Octets that are no text: the octets from `start` on, `length` of them, the first one being
`first`. -/
structure DecodeFault where
  /-- The encoding. -/
  encoding : Encoding
  /-- How many octets stand before the faulty ones. -/
  start : Nat
  /-- How many octets are faulty. -/
  length : Nat
  /-- The first faulty octet. -/
  first : Nat
  /-- What is wrong. -/
  reason : Text
  deriving DecidableEq

/-- The wording of a fault. -/
def DecodeFault.message (fault : DecodeFault) : Text :=
  let place : Text :=
    if fault.length = 1 then
      "byte 0x" ++ hexDigits 2 fault.first ++ " in position " ++ ofNat fault.start
    else
      "bytes in position " ++ ofNat fault.start ++ "-" ++ ofNat (fault.start + fault.length - 1)
  "'" ++ fault.encoding.name ++ "' codec can't decode " ++ place ++ ": " ++ fault.reason

/-- The surrogate of which octets begin as the UTF-8 form, if they do. -/
def surrogate? : Octets → Option CodePoint
  | a :: b :: c :: _ =>
    if a = 0xED ∧ 0xA0 ≤ b.toNat ∧ b.toNat ≤ 0xBF ∧ 0x80 ≤ c.toNat ∧ c.toNat ≤ 0xBF then
      some (.ofCode (0xD000 + (b.toNat - 0x80) * 0x40 + (c.toNat - 0x80)))
    else none
  | _ => none

/-- The text of UTF-8 octets, `read` before them in reverse order and `start` octets before
them. -/
def decodeUtf8 (read : Text) (start : Nat) : Nat → Octets → Except DecodeFault Text
  | 0, _ => .ok read.reverse
  | _ + 1, [] => .ok read.reverse
  | steps + 1, b :: rest =>
    match Utf8.piece b rest with
    | .char c length =>
      decodeUtf8 (c :: read) (start + length) steps (rest.drop (length - 1))
    | .bad problem length =>
      match surrogate? (b :: rest) with
      | some c => decodeUtf8 (c :: read) (start + 3) steps (rest.drop 2)
      | none => .error ⟨.utf8, start, length, b.toNat, problem.message⟩

/-- The number of a unit of two octets. -/
def unit16 (highFirst : Bool) (a b : UInt8) : Nat :=
  if highFirst then a.toNat * 256 + b.toNat else b.toNat * 256 + a.toNat

/-- The text of UTF-16 octets, `read` before them in reverse order and `start` octets before
them. -/
def decodeUtf16 (highFirst : Bool) (read : Text) (start : Nat) :
    Nat → Octets → Except DecodeFault Text
  | 0, _ => .ok read.reverse
  | _ + 1, [] => .ok read.reverse
  | _ + 1, [a] => .error ⟨.utf16 highFirst, start, 1, a.toNat, "truncated data"⟩
  | steps + 1, a :: b :: rest =>
    let unit := unit16 highFirst a b
    let low : Option Nat :=
      match rest with
      | c :: d :: _ =>
        if 0xD800 ≤ unit ∧ unit ≤ 0xDBFF ∧ 0xDC00 ≤ unit16 highFirst c d ∧
            unit16 highFirst c d ≤ 0xDFFF then some (unit16 highFirst c d) else none
      | _ => none
    match low with
    | some low =>
      let c : CodePoint := .ofCode (0x10000 + (unit - 0xD800) * 0x400 + (low - 0xDC00))
      decodeUtf16 highFirst (c :: read) (start + 4) steps (rest.drop 2)
    | none => decodeUtf16 highFirst (.ofCode unit :: read) (start + 2) steps rest

/-- The text of UTF-32 octets, `read` before them in reverse order and `start` octets before
them. -/
def decodeUtf32 (highFirst : Bool) (read : Text) (start : Nat) :
    Nat → Octets → Except DecodeFault Text
  | 0, _ => .ok read.reverse
  | _ + 1, [] => .ok read.reverse
  | steps + 1, a :: b :: c :: d :: rest =>
    let code :=
      if highFirst then unit16 true a b * 65536 + unit16 true c d
      else unit16 false c d * 65536 + unit16 false a b
    if 0x110000 ≤ code then
      .error ⟨.utf32 highFirst, start, 4, a.toNat, "code point not in range(0x110000)"⟩
    else decodeUtf32 highFirst (.ofCode code :: read) (start + 4) steps rest
  | _ + 1, a :: rest =>
    .error ⟨.utf32 highFirst, start, rest.length + 1, a.toNat, "truncated data"⟩

/-- The encoding of a body without a mark of byte order, by the zeros among its first octets. -/
def guessEncoding : Octets → Encoding
  | [a, b] => if a == 0 then .utf16 true else if b == 0 then .utf16 false else .utf8
  | a :: b :: c :: d :: _ =>
    if a == 0 then (if b != 0 then .utf16 true else .utf32 true)
    else if b == 0 then (if c != 0 || d != 0 then .utf16 false else .utf32 false)
    else .utf8
  | _ => .utf8

/-- The text of a body. -/
def decodeBody (octets : Octets) : Except DecodeFault Text :=
  match octets with
  | 0x00 :: 0x00 :: 0xFE :: 0xFF :: rest => decodeUtf32 true [] 4 octets.length rest
  | 0xFF :: 0xFE :: 0x00 :: 0x00 :: rest => decodeUtf32 false [] 4 octets.length rest
  | 0xFE :: 0xFF :: rest => decodeUtf16 true [] 2 octets.length rest
  | 0xFF :: 0xFE :: rest => decodeUtf16 false [] 2 octets.length rest
  | 0xEF :: 0xBB :: 0xBF :: rest => decodeUtf8 [] 0 octets.length rest
  | _ =>
    match guessEncoding octets with
    | .utf8 => decodeUtf8 [] 0 octets.length octets
    | .utf16 highFirst => decodeUtf16 highFirst [] 0 octets.length octets
    | .utf32 highFirst => decodeUtf32 highFirst [] 0 octets.length octets

end RelStore.Text
