import Mathlib.Data.List.Basic
import RelStore.Number.Reading

/-!
# Integers in decimal

The digits of a number are read as the number (`ofDigits_ofNat`), and an integer that is written with
them, after a minus sign if it is negative, is read as the integer unless it has too many digits
(`readInteger?_ofInt`): none of its characters is blank, so that nothing is stripped.
-/

namespace RelStore

/-! ## Blanks -/

/-- A text of visible ASCII characters, which excludes blanks. -/
def Text.Visible (text : Text) : Prop := ∀ c ∈ text, 0x20 < c.code ∧ c.code < 0x7F

instance (text : Text) : Decidable text.Visible :=
  inferInstanceAs (Decidable (∀ c ∈ text, 0x20 < c.code ∧ c.code < 0x7F))

/-- A visible character is not blank. -/
theorem Text.Visible.not_isBlank {text : Text} (h : text.Visible) {c : CodePoint} (hc : c ∈ text) :
    ¬isBlank c = true := by
  have hcode := h c hc
  simp only [isBlank, blankRanges, List.any_cons, List.any_nil, Bool.or_false, Bool.or_eq_true,
    Bool.and_eq_true, decide_eq_true_eq]
  omega

/-- What stands in front of a text is dropped up to the text. -/
theorem dropWhile_padded {α : Type} {p : α → Bool} {front text : List α}
    (hfront : ∀ a ∈ front, p a = true) (htext : ∀ a ∈ text.head?, ¬p a = true) :
    (front ++ text).dropWhile p = text := by
  rw [List.dropWhile_append_of_pos hfront]
  cases text with
  | nil => rfl
  | cons a rest => exact List.dropWhile_cons_of_neg (htext a rfl)

/-- Stripping takes off the blanks around a text. -/
theorem Text.strip_padded (front back : Text) {text : Text} (hne : text ≠ [])
    (hfront : ∀ c ∈ front, isBlank c = true) (hback : ∀ c ∈ back, isBlank c = true)
    (hfirst : ∀ c ∈ text.head?, ¬isBlank c = true)
    (hlast : ∀ c ∈ text.getLast?, ¬isBlank c = true) :
    strip (front ++ (text ++ back)) = text := by
  have hhead : (text ++ back).head? = text.head? := List.head?_append_of_ne_nil text hne
  have hforward : (front ++ (text ++ back)).dropWhile isBlank = text ++ back :=
    dropWhile_padded hfront (hhead ▸ hfirst)
  -- The end is stripped as the front of the reversed text.
  have hbackward : (back.reverse ++ text.reverse).dropWhile isBlank = text.reverse := by
    apply dropWhile_padded
    · intro c hc
      exact hback c (List.mem_reverse.mp hc)
    · rw [List.head?_reverse]
      exact hlast
  rw [strip, hforward, List.reverse_append, hbackward, List.reverse_reverse]

/-- Visible characters are not stripped. -/
theorem Text.Visible.strip_padded {text : Text} (h : text.Visible) (front back : Text)
    (hne : text ≠ []) (hfront : ∀ c ∈ front, isBlank c = true)
    (hback : ∀ c ∈ back, isBlank c = true) : strip (front ++ (text ++ back)) = text :=
  Text.strip_padded front back hne hfront hback
    (fun _ hc => h.not_isBlank (List.mem_of_mem_head? hc))
    fun _ hc => h.not_isBlank (List.mem_of_getLast? hc)

/-- A text of visible characters is not stripped. -/
theorem Text.Visible.strip_eq {text : Text} (h : text.Visible) : text.strip = text := by
  cases text with
  | nil => rfl
  | cons c rest =>
    have hstrip := h.strip_padded [] [] (List.cons_ne_nil c rest) nofun nofun
    rwa [List.nil_append, List.append_nil] at hstrip

/-! ## Digits -/

/-- The digits have the numbers from 48 to 57. -/
theorem code_of_isDigit {c : CodePoint} (h : c.isDigit = true) : 48 ≤ c.code ∧ c.code ≤ 57 := by
  cases c with
  | surrogate offset => cases h
  | char c =>
    have hdigit : c.isDigit = true := h
    simp only [Char.isDigit, Bool.and_eq_true, decide_eq_true_eq, ge_iff_le,
      UInt32.le_iff_toNat_le] at hdigit
    exact hdigit

/-- A digit stands for its value. -/
theorem decimalDigit?_of_isDigit {c : CodePoint} (h : c.isDigit = true) :
    Text.decimalDigit? c = some c.digitValue := by
  obtain ⟨hlow, hhigh⟩ := code_of_isDigit h
  have hzero : (decide (0x30 ≤ c.code) && decide (c.code ≤ 0x30 + 9)) = true := by
    rw [Bool.and_eq_true, decide_eq_true_eq, decide_eq_true_eq]
    omega
  have hfirst : (Text.scriptZeros.find? fun first => first ≤ c.code && c.code ≤ first + 9) =
      some 0x30 := List.find?_cons_of_pos hzero
  rw [Text.decimalDigit?, hfirst]
  rfl

/-- A run of digits is taken as a whole. -/
theorem digitRun_of_digits {text : Text} (h : ∀ c ∈ text, c.isDigit = true) (afterDigit : Bool) :
    digitRun afterDigit text = (text.map CodePoint.digitValue, []) := by
  induction text generalizing afterDigit with
  | nil => rfl
  | cons c rest ih =>
    obtain ⟨hc, hrest⟩ := List.forall_mem_cons.mp h
    rw [digitRun, decimalDigit?_of_isDigit hc]
    dsimp only
    rw [ih hrest, List.map_cons]

/-- Digits are visible. -/
theorem visible_of_digits {text : Text} (h : ∀ c ∈ text, c.isDigit = true) : text.Visible := by
  intro c hc
  have hcode := code_of_isDigit (h c hc)
  omega

/-- The digits of a number are digits. -/
theorem isDigit_of_mem_ofNat {n : Nat} {c : CodePoint} (h : c ∈ Text.ofNat n) :
    c.isDigit = true := by
  obtain ⟨d, hd, rfl⟩ := List.mem_map.mp h
  exact Nat.isDigit_of_mem_toDigits (by decide) (by decide) hd

/-- A number has a digit. -/
theorem ofNat_ne_nil (n : Nat) : Text.ofNat n ≠ [] :=
  fun h => Nat.toDigits_ne_nil (List.map_eq_nil_iff.mp h)

/-- A number has as many digits at most as a power of ten if it is below it. -/
theorem length_ofNat_le_iff {n k : Nat} (hk : 0 < k) :
    (Text.ofNat n).length ≤ k ↔ n < tenTo k := by
  rw [Text.ofNat, List.length_map]
  exact Nat.length_toDigits_le_iff (by decide) hk

/-- The digits of a number stand for it. -/
theorem ofDigits_ofNat (n : Nat) : ofDigits ((Text.ofNat n).map CodePoint.digitValue) = n := by
  rw [Text.ofNat, List.map_map, ofDigits, List.foldl_map]
  exact Nat.ofDigitChars_toDigits (by decide) (by decide)

/-! ## Integers -/

/-- An integer is written with digits and perhaps a minus sign before them. -/
theorem mem_ofInt {n : Int} {c : CodePoint} (h : c ∈ Text.ofInt n) :
    c = .char '-' ∨ c.isDigit = true := by
  unfold Text.ofInt at h
  split at h
  · rcases List.mem_cons.mp h with rfl | h
    · exact .inl rfl
    · exact .inr (isDigit_of_mem_ofNat h)
  · exact .inr (isDigit_of_mem_ofNat h)

/-- No other character stands in an integer. -/
theorem notMem_ofInt {c : CodePoint} (hsign : c ≠ .char '-') (hdigit : c.isDigit = false) (n : Int) :
    c ∉ Text.ofInt n := by
  intro h
  rcases mem_ofInt h with heq | hdigit'
  · exact hsign heq
  · rw [hdigit] at hdigit'
    cases hdigit'

/-- Integers are written with visible characters. -/
theorem visible_ofInt (n : Int) : (Text.ofInt n).Visible := by
  intro c hc
  rcases mem_ofInt hc with rfl | hdigit
  · decide
  · have hcode := code_of_isDigit hdigit
    omega

/-- No sign is taken off digits. -/
theorem takeSign_of_digits {text : Text} (h : ∀ c ∈ text, c.isDigit = true) :
    takeSign text = (false, text) := by
  unfold takeSign
  split
  · exact absurd (h _ List.mem_cons_self) (by decide)
  · exact absurd (h _ List.mem_cons_self) (by decide)
  · rfl

/-- An integer is taken apart into its sign and its digits. -/
theorem takeSign_ofInt (n : Int) : takeSign (Text.ofInt n) = (decide (n < 0), .ofNat n.natAbs) := by
  unfold Text.ofInt
  split
  · next hneg =>
    rw [decide_eq_true hneg]
    rfl
  · next hnot =>
    rw [decide_eq_false hnot]
    exact takeSign_of_digits fun _ hc => isDigit_of_mem_ofNat hc

/-- An integer is its size with its sign. -/
theorem signed_natAbs (n : Int) : signed (decide (n < 0)) n.natAbs = n := by
  by_cases hneg : n < 0
  · rw [decide_eq_true hneg, signed, if_pos rfl]
    omega
  · rw [decide_eq_false hneg, signed, if_neg Bool.false_ne_true]
    omega

/-- An integer is within the limit if it has no more digits. -/
theorem isWritable_iff {n : Int} : isWritable n = true ↔ decimalLength n.natAbs ≤ digitLimit := by
  have hlength := @length_ofNat_le_iff n.natAbs digitLimit (by decide)
  rw [Text.ofNat, List.length_map] at hlength
  rw [isWritable, decide_eq_true_eq, decimalLength, hlength]

/-- An integer is read from its text, unless it has too many digits. -/
theorem readInteger?_ofInt (n : Int) :
    readInteger? (Text.ofInt n) = if isWritable n then some n else none := by
  have hdigits : ∀ c ∈ Text.ofNat n.natAbs, c.isDigit = true := fun _ hc => isDigit_of_mem_ofNat hc
  obtain ⟨d, ds, hcons⟩ := List.exists_cons_of_ne_nil
    (mt List.map_eq_nil_iff.mp (ofNat_ne_nil n.natAbs) :
      (Text.ofNat n.natAbs).map CodePoint.digitValue ≠ [])
  have hlength : (d :: ds).length ≤ digitLimit ↔ isWritable n = true := by
    rw [← hcons, List.length_map, length_ofNat_le_iff (by decide), isWritable, decide_eq_true_eq]
  rw [readInteger?, (visible_ofInt n).strip_eq, takeSign_ofInt]
  dsimp only
  rw [digitRun_of_digits hdigits, hcons]
  dsimp only
  rw [← hcons, ofDigits_ofNat, signed_natAbs, hcons]
  exact if_congr hlength rfl rfl

end RelStore
