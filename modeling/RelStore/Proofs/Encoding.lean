import Mathlib.Data.List.Basic
import RelStore.Text.Encoding

/-!
# Texts and their octets

The octets of a code point are read as the code point: those of a character as one part
(`Utf8.piece_of_encodePoint`), those of a surrogate as the three octets that it takes
(`surrogate?_three`). So a text is read back from its octets (`decodeUtf8_encode`), by a
reader that replaces what is no character if it has no surrogate (`Utf8.decode_encode`). An octet
below 128 stands for nothing but its own character (`notMem_encode`).
-/

namespace RelStore

/-! ## Numbers of code points -/

namespace CodePoint

/-- A code point is not a surrogate. -/
def IsScalar (c : CodePoint) : Prop := c.code < 0xD800 ∨ 0xDFFF < c.code

instance (c : CodePoint) : Decidable c.IsScalar :=
  inferInstanceAs (Decidable (c.code < 0xD800 ∨ 0xDFFF < c.code))

/-- Characters are no surrogates. -/
theorem isScalar_char (c : Char) : (char c).IsScalar := c.valid.imp_right And.left

/-- The numbers of code points are below `0x110000`. -/
theorem code_lt (c : CodePoint) : c.code < 0x110000 := by
  cases c with
  | char c =>
    have hvalid : c.toNat < 0xD800 ∨ 0xDFFF < c.toNat ∧ c.toNat < 0x110000 := c.valid
    rw [code]
    omega
  | surrogate offset =>
    have hoffset := offset.isLt
    rw [code]
    omega

/-- The number of a code point gives it back. -/
theorem ofCode_code (c : CodePoint) : ofCode c.code = c := by
  cases c with
  | char c =>
    have hscalar : c.toNat < 0xD800 ∨ 0xDFFF < c.toNat := isScalar_char c
    rw [code, ofCode, dif_neg (by omega), Char.ofNat_toNat]
  | surrogate offset =>
    have hoffset := offset.isLt
    rw [code, ofCode, dif_pos (by omega)]
    exact congrArg surrogate (Fin.ext (Nat.add_sub_cancel_left ..))

/-- Code points of the same number are the same. -/
theorem code_inj {a b : CodePoint} (h : a.code = b.code) : a = b := by
  rw [← ofCode_code a, h, ofCode_code]

end CodePoint

namespace Text

/-! ## Octets of a code point -/

/-- An octet that goes on a character with six bits of its number. -/
def tailOctet (bits : Nat) : UInt8 := .ofNat (0x80 + bits % 0x40)

/-- The number of an octet that goes on a character. -/
theorem toNat_tailOctet (bits : Nat) : (tailOctet bits).toNat = 0x80 + bits % 0x40 := by
  rw [tailOctet, UInt8.toNat_ofNat']
  omega

variable {c : CodePoint}

/-- A code point below 128 takes one octet. -/
theorem encodePoint_one (h : c.code < 0x80) : encodePoint c = [.ofNat c.code] := if_pos h

/-- A code point from 128 on takes two octets up to 2048. -/
theorem encodePoint_two (hlow : 0x80 ≤ c.code) (hhigh : c.code < 0x800) :
    encodePoint c = [.ofNat (0xC0 + c.code / 0x40), tailOctet c.code] := by
  unfold encodePoint
  dsimp only
  rw [if_neg (by omega), if_pos hhigh]
  rfl

/-- A code point from 2048 on takes three octets up to 65536. -/
theorem encodePoint_three (hlow : 0x800 ≤ c.code) (hhigh : c.code < 0x10000) :
    encodePoint c =
      [.ofNat (0xE0 + c.code / 0x1000), tailOctet (c.code / 0x40), tailOctet c.code] := by
  unfold encodePoint
  dsimp only
  rw [if_neg (by omega), if_neg (by omega), if_pos hhigh]
  rfl

/-- A code point from 65536 on takes four octets. -/
theorem encodePoint_four (hlow : 0x10000 ≤ c.code) :
    encodePoint c = [.ofNat (0xF0 + c.code / 0x40000), tailOctet (c.code / 0x1000),
      tailOctet (c.code / 0x40), tailOctet c.code] := by
  unfold encodePoint
  dsimp only
  rw [if_neg (by omega), if_neg (by omega), if_neg (by omega)]
  rfl

namespace Utf8

/-- An octet within the bounds brings its bits. -/
theorem follow_tailOctet (code taken due : Nat) {low high bits : Nat}
    (hlow : low ≤ 0x80 + bits % 0x40) (hhigh : 0x80 + bits % 0x40 ≤ high) (rest : Octets) :
    follow code taken (due + 1) low high (tailOctet bits :: rest) =
      follow (code * 64 + bits % 0x40) (taken + 1) due 0x80 0xBF rest := by
  rw [follow, toNat_tailOctet, if_pos ⟨hlow, hhigh⟩, Nat.add_sub_cancel_left]

/-- What the first of two octets tells. -/
theorem lead?_two {b : Nat} (hlow : 0xC2 ≤ b) (hhigh : b ≤ 0xDF) :
    lead? b = some (1, 0x80, 0xBF, b - 0xC0) := if_pos ⟨hlow, hhigh⟩

/-- What the first of three octets tells. -/
theorem lead?_three {b : Nat} (hlow : 0xE0 ≤ b) (hhigh : b ≤ 0xEF) :
    lead? b = some (2, if b = 0xE0 then 0xA0 else 0x80, if b = 0xED then 0x9F else 0xBF,
      b - 0xE0) := by
  unfold lead?
  grind

/-- What the first of four octets tells. -/
theorem lead?_four {b : Nat} (hlow : 0xF0 ≤ b) (hhigh : b ≤ 0xF4) :
    lead? b = some (3, if b = 0xF0 then 0x90 else 0x80, if b = 0xF4 then 0x8F else 0xBF,
      b - 0xF0) := by
  unfold lead?
  grind

/-- A first octet with high bits. -/
theorem piece_of_lead? {b : UInt8} {due low high code : Nat}
    (h : lead? b.toNat = some (due, low, high, code)) (hb : 0x80 ≤ b.toNat) (rest : Octets) :
    piece b rest = follow code 1 due low high rest := by
  rw [piece, if_neg (by omega), h]

/-- The number of an octet. -/
theorem toNat_octet {n : Nat} (h : n < 0x100) : (UInt8.ofNat n).toNat = n := by
  rw [UInt8.toNat_ofNat']
  omega

variable {n : Nat}

/-- One octet is read as its number. -/
theorem piece_one (h : n < 0x80) (rest : Octets) : piece (.ofNat n) rest = .char (.ofCode n) 1 := by
  rw [piece, toNat_octet (by omega), if_pos h]

/-- Two octets are read as the number that they bring. -/
theorem piece_two (hlow : 0x80 ≤ n) (hhigh : n < 0x800) (rest : Octets) :
    piece (.ofNat (0xC0 + n / 0x40)) (tailOctet n :: rest) = .char (.ofCode n) 2 := by
  have hfirst : (UInt8.ofNat (0xC0 + n / 0x40)).toNat = 0xC0 + n / 0x40 := toNat_octet (by omega)
  have hbits : (0xC0 + n / 0x40 - 0xC0) * 64 + n % 0x40 = n := by omega
  rw [piece_of_lead? (lead?_two (by omega) (by omega)) (by omega), hfirst,
    follow_tailOctet _ _ _ (by omega) (by omega), follow, hbits]

/-- Three octets are read as the number that they bring, unless it is that of a surrogate. -/
theorem piece_three (hlow : 0x800 ≤ n) (hhigh : n < 0x10000) (hchar : n < 0xD800 ∨ 0xDFFF < n)
    (rest : Octets) :
    piece (.ofNat (0xE0 + n / 0x1000)) (tailOctet (n / 0x40) :: tailOctet n :: rest) =
      .char (.ofCode n) 3 := by
  have hfirst : (UInt8.ofNat (0xE0 + n / 0x1000)).toNat = 0xE0 + n / 0x1000 :=
    toNat_octet (by omega)
  have hbits : ((0xE0 + n / 0x1000 - 0xE0) * 64 + n / 0x40 % 0x40) * 64 + n % 0x40 = n := by omega
  rw [piece_of_lead? (lead?_three (by omega) (by omega)) (by omega), hfirst,
    follow_tailOctet _ _ _ (by split <;> omega) (by split <;> omega),
    follow_tailOctet _ _ _ (by omega) (by omega), follow, hbits]

/-- Four octets are read as the number that they bring. -/
theorem piece_four (hlow : 0x10000 ≤ n) (hhigh : n < 0x110000) (rest : Octets) :
    piece (.ofNat (0xF0 + n / 0x40000))
        (tailOctet (n / 0x1000) :: tailOctet (n / 0x40) :: tailOctet n :: rest) =
      .char (.ofCode n) 4 := by
  have hfirst : (UInt8.ofNat (0xF0 + n / 0x40000)).toNat = 0xF0 + n / 0x40000 :=
    toNat_octet (by omega)
  have hbits : (((0xF0 + n / 0x40000 - 0xF0) * 64 + n / 0x1000 % 0x40) * 64 + n / 0x40 % 0x40) *
      64 + n % 0x40 = n := by omega
  rw [piece_of_lead? (lead?_four (by omega) (by omega)) (by omega), hfirst,
    follow_tailOctet _ _ _ (by split <;> omega) (by split <;> omega),
    follow_tailOctet _ _ _ (by omega) (by omega), follow_tailOctet _ _ _ (by omega) (by omega),
    follow, hbits]

/-- The octets of a surrogate are no character: the second one is out of bounds. -/
theorem piece_surrogate (hlow : 0xD800 ≤ n) (hhigh : n ≤ 0xDFFF) (rest : Octets) :
    piece (.ofNat (0xE0 + n / 0x1000)) (tailOctet (n / 0x40) :: rest) =
      .bad .badContinuation 1 := by
  have hfirst : (UInt8.ofNat (0xE0 + n / 0x1000)).toNat = 0xED := by
    rw [toNat_octet (by omega)]
    omega
  have hbound : ¬(0x80 ≤ (tailOctet (n / 0x40)).toNat ∧ (tailOctet (n / 0x40)).toNat ≤ 0x9F) := by
    rw [toNat_tailOctet]
    omega
  rw [piece_of_lead? (by rw [hfirst]; rfl) (by omega), follow, if_neg hbound]

end Utf8

/-- The octets of a surrogate are read as it. -/
theorem surrogate?_three {n : Nat} (hlow : 0xD800 ≤ n) (hhigh : n ≤ 0xDFFF) (rest : Octets) :
    surrogate? (.ofNat (0xE0 + n / 0x1000) :: tailOctet (n / 0x40) :: tailOctet n :: rest) =
      some (.ofCode n) := by
  have hfirst : UInt8.ofNat (0xE0 + n / 0x1000) = 0xED := by
    have hquotient : n / 0x1000 = 0xD := by omega
    rw [hquotient]
    rfl
  have hbits : 0xD000 + (0x80 + n / 0x40 % 0x40 - 0x80) * 0x40 + (0x80 + n % 0x40 - 0x80) = n := by
    omega
  rw [surrogate?, toNat_tailOctet, toNat_tailOctet, if_pos ⟨hfirst, by omega⟩, hbits]

/-- A code point takes at least one octet. -/
theorem encodePoint_ne_nil (c : CodePoint) : encodePoint c ≠ [] := by
  unfold encodePoint
  dsimp only
  split_ifs
  all_goals exact List.cons_ne_nil _ _

/-- The octets of a character are the part of it. -/
theorem Utf8.piece_of_encodePoint (hscalar : c.IsScalar) {b : UInt8} {tails : Octets}
    (h : encodePoint c = b :: tails) (rest : Octets) :
    piece b (tails ++ rest) = .char c (tails.length + 1) := by
  have hbound := c.code_lt
  have hback := c.ofCode_code
  unfold CodePoint.IsScalar at hscalar
  by_cases hone : c.code < 0x80
  · obtain ⟨rfl, rfl⟩ := List.cons.inj ((encodePoint_one hone).symm.trans h)
    exact (piece_one hone rest).trans (by rw [hback]; rfl)
  by_cases htwo : c.code < 0x800
  · obtain ⟨rfl, rfl⟩ := List.cons.inj ((encodePoint_two (by omega) htwo).symm.trans h)
    exact (piece_two (by omega) htwo rest).trans (by rw [hback]; rfl)
  by_cases hthree : c.code < 0x10000
  · obtain ⟨rfl, rfl⟩ := List.cons.inj ((encodePoint_three (by omega) hthree).symm.trans h)
    exact (piece_three (by omega) hthree hscalar rest).trans (by rw [hback]; rfl)
  · obtain ⟨rfl, rfl⟩ := List.cons.inj ((encodePoint_four (by omega)).symm.trans h)
    exact (piece_four (by omega) hbound rest).trans (by rw [hback]; rfl)

/-- A code point from 128 on has no octet below. -/
theorem le_of_mem_encodePoint (h : 0x80 ≤ c.code) :
    ∀ octet ∈ encodePoint c, 0x80 ≤ octet.toNat := by
  have hbound := c.code_lt
  have htail (bits : Nat) : 0x80 ≤ (tailOctet bits).toNat := by
    rw [toNat_tailOctet]
    omega
  have hfirst {n : Nat} (hlow : 0x80 ≤ n) (hhigh : n < 0x100) : 0x80 ≤ (UInt8.ofNat n).toNat := by
    rwa [Utf8.toNat_octet hhigh]
  by_cases htwo : c.code < 0x800
  · simp only [encodePoint_two h htwo, List.forall_mem_cons]
    exact ⟨hfirst (by omega) (by omega), htail _, nofun⟩
  by_cases hthree : c.code < 0x10000
  · simp only [encodePoint_three (by omega) hthree, List.forall_mem_cons]
    exact ⟨hfirst (by omega) (by omega), htail _, htail _, nofun⟩
  · simp only [encodePoint_four (c := c) (by omega), List.forall_mem_cons]
    exact ⟨hfirst (by omega) (by omega), htail _, htail _, htail _, nofun⟩

/-! ## Octets of a text -/

/-- The octets of a text are those of its code points. -/
theorem encode_cons (c : CodePoint) (rest : Text) :
    encode (c :: rest) = encodePoint c ++ encode rest := rfl

/-- The first code point of a text is read first. -/
theorem decodeUtf8_encodePoint (c : CodePoint) (read : Text) (start steps : Nat) (rest : Octets) :
    decodeUtf8 read start (steps + 1) (encodePoint c ++ rest) =
      decodeUtf8 (c :: read) (start + (encodePoint c).length) steps rest := by
  by_cases hscalar : c.IsScalar
  · obtain ⟨b, tails, hcons⟩ := List.exists_cons_of_ne_nil (encodePoint_ne_nil c)
    rw [hcons, List.cons_append, decodeUtf8, Utf8.piece_of_encodePoint hscalar hcons]
    dsimp only
    rw [Nat.add_sub_cancel, List.drop_left, List.length_cons]
  · unfold CodePoint.IsScalar at hscalar
    rw [encodePoint_three (by omega) (by omega)]
    dsimp only [List.cons_append, List.nil_append]
    rw [decodeUtf8, Utf8.piece_surrogate (by omega) (by omega),
      surrogate?_three (by omega) (by omega), c.ofCode_code]
    rfl

/-- A text takes no fewer octets than it has code points. -/
theorem length_le_length_encode (text : Text) : text.length ≤ (encode text).length := by
  induction text with
  | nil => exact Nat.le_refl 0
  | cons c rest ih =>
    have hpoint := List.length_pos_of_ne_nil (encodePoint_ne_nil c)
    rw [encode_cons, List.length_append, List.length_cons]
    omega

/-- A text is read from its octets after what has been read. -/
theorem decodeUtf8_encode_append {text : Text} {steps : Nat} (hsteps : text.length ≤ steps)
    (read : Text) (start : Nat) :
    decodeUtf8 read start steps (encode text) = .ok (read.reverse ++ text) := by
  induction text generalizing steps read start with
  | nil =>
    rw [List.append_nil]
    cases steps <;> rfl
  | cons c rest ih =>
    rw [List.length_cons] at hsteps
    obtain ⟨steps, rfl⟩ : ∃ n, steps = n + 1 := ⟨steps - 1, by omega⟩
    rw [encode_cons, decodeUtf8_encodePoint, ih (by omega), List.reverse_cons, List.append_assoc,
      List.singleton_append]

/-- A text is read back from its octets. -/
theorem decodeUtf8_encode (text : Text) :
    decodeUtf8 [] 0 (encode text).length (encode text) = .ok text :=
  decodeUtf8_encode_append (length_le_length_encode text) [] 0

/-- The characters of a text without surrogates are its parts. -/
theorem Utf8.piecesFrom_encode {text : Text} (hscalar : ∀ c ∈ text, c.IsScalar) {steps : Nat}
    (hsteps : text.length ≤ steps) (read : List Piece) :
    piecesFrom read steps (encode text) =
      read.reverse ++ text.map fun c => .char c (encodePoint c).length := by
  induction text generalizing steps read with
  | nil =>
    rw [List.map_nil, List.append_nil]
    cases steps <;> rfl
  | cons c rest ih =>
    obtain ⟨hc, hrest⟩ := List.forall_mem_cons.mp hscalar
    rw [List.length_cons] at hsteps
    obtain ⟨steps, rfl⟩ : ∃ n, steps = n + 1 := ⟨steps - 1, by omega⟩
    obtain ⟨b, tails, hcons⟩ := List.exists_cons_of_ne_nil (encodePoint_ne_nil c)
    rw [encode_cons, hcons, List.cons_append, piecesFrom, piece_of_encodePoint hc hcons]
    dsimp only [Piece.length]
    rw [Nat.add_sub_cancel, List.drop_left, ih hrest (by omega), List.reverse_cons,
      List.append_assoc, List.singleton_append, List.map_cons, hcons, List.length_cons]

/-- A text without surrogates is read back from its octets, none of which is replaced. -/
theorem Utf8.decode_encode {text : Text} (hscalar : ∀ c ∈ text, c.IsScalar) :
    decode (encode text) = text := by
  rw [decode, pieces, piecesFrom_encode hscalar (length_le_length_encode text), List.reverse_nil,
    List.nil_append, List.map_map]
  exact List.map_id text

/-- The octet of an ASCII character is only where the character is. -/
theorem notMem_encode {text : Text} (hcode : c.code < 0x80) (h : c ∉ text) :
    UInt8.ofNat c.code ∉ encode text := by
  intro hmem
  obtain ⟨d, hd, hoctet⟩ := List.mem_flatMap.mp hmem
  have hnumber : (UInt8.ofNat c.code).toNat = c.code := Utf8.toNat_octet (by omega)
  by_cases hone : d.code < 0x80
  · rw [encodePoint_one hone, List.mem_singleton] at hoctet
    rw [hoctet, Utf8.toNat_octet (by omega)] at hnumber
    exact h (CodePoint.code_inj hnumber ▸ hd)
  · have hhigh := le_of_mem_encodePoint (Nat.le_of_not_lt hone) _ hoctet
    omega

end Text

end RelStore
