import Mathlib.Data.List.TakeWhile
import RelStore.Proofs.Outcome
import RelStore.Sql.Printer

/-!
# Scanning what has been written

Lexemes that are set side by side are cut at the same places again (`scan_setSideBySide`). A word
or a symbol ends where it was written to end, since what follows it, be it a blank, a mark or the
end of the text, cannot belong to it (`Clear`); and a literal ends at its closing quote, since
every quote in it has a backslash before it (`takeQuoted_written`). So each lexeme has its token in
the text (`Lexeme.token`), and the tokens of a list of lexemes spell it (`Spelled`).
-/

namespace RelStore.Sql

/-- A text is a word: characters of words, and at least one of them. -/
def IsWord (text : Text) : Prop := text ≠ [] ∧ ∀ c ∈ text, isWordChar c = true

instance (text : Text) : Decidable (IsWord text) := inferInstanceAs (Decidable (_ ∧ _))

/-- A text is a numeral with a minus sign. -/
def IsNegative (text : Text) : Prop :=
  ∃ digits, text = .char '-' :: digits ∧ digits ≠ [] ∧ ∀ c ∈ digits, c.isDigit = true

namespace Lexeme

/-- The token of a lexeme that is written at a position. -/
def token (position : Nat) : Lexeme → Token
  | word text => plainToken .word text position
  | symbol text => plainToken .symbol text position
  | literal meant => ⟨.string, (literal meant).written, position, meant⟩

/-- The symbols of statements. -/
def symbols : List Text := ["(", ")", ",", "*", "=", ";", "<", ">", "!=", ">=", "<="]

/-- A lexeme is written as one token: a word is a word or a numeral with a minus sign, and a symbol
is a symbol of statements. -/
def Scannable : Lexeme → Prop
  | word text => IsWord text ∨ IsNegative text
  | symbol text => text ∈ symbols
  | literal _ => True

end Lexeme

/-- A text does not begin with a character that could belong to a word or symbol before it. -/
def Clear (after : Text) : Prop :=
  ∀ c ∈ after.head?, isWordChar c = false ∧ c ≠ .char '=' ∧ c ≠ .char '>'

/-- Some tokens are those of some lexemes, at whatever positions. -/
def Spelled (tokens : List Token) (lexemes : List Lexeme) : Prop :=
  List.Forall₂ (fun token lexeme => ∃ position, token = lexeme.token position) tokens lexemes

/-- Nothing is ahead but the end of the text, or a semicolon and the end of the text. -/
def Ending (tokens : List Token) : Prop :=
  ∃ stop, tokens = [.endOfInput stop] ∨
    ∃ position, tokens = [(Lexeme.symbol ";").token position, .endOfInput stop]

/-! ## Characters of words -/

/-- The characters of words are the point, the low line, and the ASCII digits and letters. -/
theorem code_of_isWordChar {c : CodePoint} (h : isWordChar c = true) :
    c.code = 46 ∨ c.code = 95 ∨ (48 ≤ c.code ∧ c.code ≤ 57) ∨ (65 ≤ c.code ∧ c.code ≤ 90) ∨
      (97 ≤ c.code ∧ c.code ≤ 122) := by
  simp only [isWordChar, Bool.or_eq_true, beq_iff_eq] at h
  rcases h with (halnum | rfl) | rfl
  · cases c with
    | surrogate offset => cases halnum
    | char c =>
      have halnum : c.isAlphanum = true := halnum
      unfold Char.isAlphanum Char.isAlpha Char.isUpper Char.isLower Char.isDigit at halnum
      simp only [Bool.or_eq_true, Bool.and_eq_true, decide_eq_true_eq, ge_iff_le,
        UInt32.le_iff_toNat_le] at halnum
      change (((65 ≤ c.toNat ∧ c.toNat ≤ 90) ∨ (97 ≤ c.toNat ∧ c.toNat ≤ 122)) ∨
        (48 ≤ c.toNat ∧ c.toNat ≤ 57)) at halnum
      simp only [CodePoint.code]
      omega
  · exact .inr (.inl rfl)
  · exact .inl rfl

/-- A character of words is not blank. -/
theorem isBlank_of_isWordChar {c : CodePoint} (h : isWordChar c = true) :
    Text.isBlank c = false := by
  have hcode := code_of_isWordChar h
  simp only [Text.isBlank, Text.blankRanges, List.any_cons, List.any_nil, Bool.or_false,
    Bool.or_eq_false_iff, Bool.and_eq_false_iff, decide_eq_false_iff_not]
  omega

/-- A symbol is no character of words. -/
theorem isSymbol_of_isWordChar {c : CodePoint} (h : isWordChar c = true) : isSymbol c = false := by
  have hnone : ∀ s ∈ ("(),*=<>;" : Text), isWordChar s = false := by decide
  rw [isSymbol, ← Bool.not_eq_true, List.contains_iff_mem]
  intro hmem
  rw [hnone c hmem] at h
  cases h

/-- A digit is a character of words. -/
theorem isWordChar_of_isDigit {c : CodePoint} (h : c.isDigit = true) : isWordChar c = true := by
  cases c with
  | surrogate offset => cases h
  | char c =>
    have hdigit : c.isDigit = true := h
    have halnum : c.isAlphanum = true := by rw [Char.isAlphanum, hdigit, Bool.or_true]
    rw [isWordChar, CodePoint.isAlphanum, CodePoint.isChar, halnum, Bool.true_or, Bool.true_or]

/-- A character that is none of `!`, `>` and `<` does not begin a symbol of two characters. -/
theorem isPairSymbol_eq_false {c : CodePoint} (hbang : c ≠ .char '!') (hgt : c ≠ .char '>')
    (hlt : c ≠ .char '<') (d : CodePoint) : isPairSymbol c d = false := by
  simp [isPairSymbol, hbang, hgt, hlt]

/-- A symbol of two characters ends with `=` or `>`. -/
theorem isPairSymbol_eq_false_of_second {d : CodePoint} (heq : d ≠ .char '=') (hgt : d ≠ .char '>')
    (c : CodePoint) : isPairSymbol c d = false := by
  simp [isPairSymbol, heq, hgt]

/-! ## Words -/

/-- A text that begins with a character of words has no sign before its first word. -/
theorem takeWordSign_of_isWordChar {c : CodePoint} (hc : isWordChar c = true) (rest : Text) :
    takeWordSign (c :: rest) = ([], c :: rest) := by
  have hne {d : CodePoint} (hd : isWordChar d = false) : c ≠ d := by
    rintro rfl
    rw [hc] at hd
    cases hd
  cases rest with
  | nil => rw [takeWordSign]; exact nofun
  | cons d rest =>
    rw [takeWordSign, if_neg]
    simp [hne (d := .char '+') (by decide), hne (d := .char '-') (by decide)]

/-- A character of words is no quote and does not begin a symbol of two characters. -/
theorem of_isWordChar {c : CodePoint} (hc : isWordChar c = true) :
    ¬(c = .char '\'' ∨ c = .char '"') ∧ ∀ d, isPairSymbol c d = false := by
  have hne {d : CodePoint} (hd : isWordChar d = false) : c ≠ d := by
    rintro rfl
    rw [hc] at hd
    cases hd
  exact ⟨not_or.mpr ⟨hne (by decide), hne (by decide)⟩,
    isPairSymbol_eq_false (hne (by decide)) (hne (by decide)) (hne (by decide))⟩

/-- Before a clear text, a run of characters of words ends. -/
theorem takeWhile_append_clear {body after : Text} (hbody : ∀ c ∈ body, isWordChar c = true)
    (hafter : Clear after) :
    (body ++ after).takeWhile isWordChar = body ∧ (body ++ after).dropWhile isWordChar = after := by
  rw [List.takeWhile_append_of_pos hbody, List.dropWhile_append_of_pos hbody]
  cases after with
  | nil => exact ⟨List.append_nil _, rfl⟩
  | cons c rest =>
    have hc : ¬isWordChar c = true := ne_true_of_eq_false (hafter c rfl).1
    rw [List.takeWhile_cons_of_neg hc, List.dropWhile_cons_of_neg hc, List.append_nil]
    exact ⟨rfl, rfl⟩

/-- Of a text that begins neither with a quote nor with a symbol, the word after its sign is the
first token. -/
theorem takeToken_of_body {c : CodePoint} {rest sign body after : Text}
    (hquote : ¬(c = .char '\'' ∨ c = .char '"')) (hpair : ∀ d, isPairSymbol c d = false)
    (hsymbol : isSymbol c = false) (hsign : takeWordSign (c :: rest) = (sign, body ++ after))
    (hbody : IsWord body) (hafter : Clear after) (position : Nat) :
    takeToken position c rest = .ok (plainToken .word (sign ++ body) position, after) := by
  have hpair' : rest.head?.any (isPairSymbol c) = false := by
    cases rest.head? with
    | none => rfl
    | some d => exact hpair d
  obtain ⟨htake, hdrop⟩ := takeWhile_append_clear hbody.2 hafter
  rw [takeToken, if_neg hquote, if_neg (ne_true_of_eq_false hpair'),
    if_neg (ne_true_of_eq_false hsymbol), hsign]
  dsimp only
  rw [htake, hdrop]
  obtain ⟨first, others, hcons⟩ := List.exists_cons_of_ne_nil hbody.1
  rw [hcons]

/-- Scanning a text that begins with a lexeme takes the token of the lexeme and leaves the rest. -/
def TakesFirst (lexeme : Lexeme) (after : Text) : Prop :=
  ∃ c rest, lexeme.written ++ after = c :: rest ∧ Text.isBlank c = false ∧
    ∀ position, takeToken position c rest = .ok (lexeme.token position, after)

/-- A word without a sign is taken first. -/
theorem takesFirst_word {text after : Text} (htext : IsWord text) (hafter : Clear after) :
    TakesFirst (.word text) after := by
  obtain ⟨c, others, rfl⟩ := List.exists_cons_of_ne_nil htext.1
  have hc : isWordChar c = true := htext.2 c List.mem_cons_self
  obtain ⟨hquote, hpair⟩ := of_isWordChar hc
  have hsign := takeWordSign_of_isWordChar hc (others ++ after)
  exact ⟨c, others ++ after, rfl, isBlank_of_isWordChar hc, fun position =>
    takeToken_of_body hquote hpair (isSymbol_of_isWordChar hc) hsign htext hafter position⟩

/-- A word with a sign before it is taken first, if it begins with a digit. -/
theorem takesFirst_signed {sign d : CodePoint} (hsign : sign = .char '+' ∨ sign = .char '-')
    (hd : d.isDigit = true) {others after : Text} (hword : IsWord (d :: others))
    (hafter : Clear after) : TakesFirst (.word (sign :: d :: others)) after := by
  have htake : takeWordSign (sign :: (d :: others ++ after)) = ([sign], d :: others ++ after) := by
    rw [List.cons_append, takeWordSign, hd]
    rcases hsign with rfl | rfl <;> rfl
  have hfirst : Text.isBlank sign = false ∧ ¬(sign = .char '\'' ∨ sign = .char '"') ∧
      isSymbol sign = false ∧ ∀ c, isPairSymbol sign c = false := by
    rcases hsign with rfl | rfl
    · exact ⟨by decide, by decide, by decide, fun _ => rfl⟩
    · exact ⟨by decide, by decide, by decide, fun _ => rfl⟩
  obtain ⟨hblank, hquote, hsymbol, hpair⟩ := hfirst
  exact ⟨sign, d :: others ++ after, rfl, hblank, fun position =>
    takeToken_of_body hquote hpair hsymbol htake hword hafter position⟩

/-- A numeral with a minus sign is taken first. -/
theorem takesFirst_negative {text after : Text} (htext : IsNegative text) (hafter : Clear after) :
    TakesFirst (.word text) after := by
  obtain ⟨digits, rfl, hnonempty, hdigits⟩ := htext
  obtain ⟨d, others, rfl⟩ := List.exists_cons_of_ne_nil hnonempty
  exact takesFirst_signed (.inr rfl) (hdigits d List.mem_cons_self)
    ⟨hnonempty, fun c hc => isWordChar_of_isDigit (hdigits c hc)⟩ hafter

/-! ## Symbols and literals -/

/-- No symbol goes on into a clear text. -/
theorem Clear.any_isPairSymbol {after : Text} (h : Clear after) (c : CodePoint) :
    after.head?.any (isPairSymbol c) = false := by
  cases hhead : after.head? with
  | none => rfl
  | some d =>
    obtain ⟨-, heq, hgt⟩ := h d hhead
    exact isPairSymbol_eq_false_of_second heq hgt c

/-- A symbol is taken first, if what follows does not make it a longer one. -/
theorem takesFirst_symbol {text after : Text} (htext : text ∈ Lexeme.symbols)
    (hafter : text = "(" ∨ Clear after) : TakesFirst (.symbol text) after := by
  -- A symbol of one character is not the first half of a longer one.
  have hsingle {c : CodePoint} (hc : isSymbol c = true) (hquote : ¬(c = .char '\'' ∨ c = .char '"'))
      (hblank : Text.isBlank c = false) (hpair : after.head?.any (isPairSymbol c) = false) :
      TakesFirst (.symbol [c]) after := by
    refine ⟨c, after, rfl, hblank, fun position => ?_⟩
    rw [takeToken, if_neg hquote, if_neg (ne_true_of_eq_false hpair), if_pos hc]
    rfl
  have hnever {c : CodePoint} (hc : ∀ d, isPairSymbol c d = false) :
      after.head?.any (isPairSymbol c) = false := by
    cases after.head? with
    | none => rfl
    | some d => exact hc d
  simp only [Lexeme.symbols, List.mem_cons, List.not_mem_nil, or_false] at htext
  rcases htext with rfl | rfl | rfl | rfl | rfl | rfl | rfl | rfl | rfl | rfl | rfl
  · exact hsingle (c := .char '(') rfl (by decide) (by decide) (hnever fun _ => rfl)
  · exact hsingle (c := .char ')') rfl (by decide) (by decide) (hnever fun _ => rfl)
  · exact hsingle (c := .char ',') rfl (by decide) (by decide) (hnever fun _ => rfl)
  · exact hsingle (c := .char '*') rfl (by decide) (by decide) (hnever fun _ => rfl)
  · exact hsingle (c := .char '=') rfl (by decide) (by decide) (hnever fun _ => rfl)
  · exact hsingle (c := .char ';') rfl (by decide) (by decide) (hnever fun _ => rfl)
  · exact hsingle (c := .char '<') rfl (by decide) (by decide)
      ((hafter.resolve_left (by decide)).any_isPairSymbol _)
  · exact hsingle (c := .char '>') rfl (by decide) (by decide)
      ((hafter.resolve_left (by decide)).any_isPairSymbol _)
  · exact ⟨.char '!', .char '=' :: after, rfl, by decide, fun _ => rfl⟩
  · exact ⟨.char '>', .char '=' :: after, rfl, by decide, fun _ => rfl⟩
  · exact ⟨.char '<', .char '=' :: after, rfl, by decide, fun _ => rfl⟩

/-- A literal between its quotes gives back what was meant, and the text after it. -/
theorem takeQuoted_written (meant after : Text) :
    takeQuoted (.char '\'') (meant.flatMap quotedPoint ++ .char '\'' :: after) =
      some (meant.flatMap quotedPoint ++ [.char '\''], meant, after) := by
  induction meant with
  | nil => rfl
  | cons c meant ih =>
    rw [List.flatMap_cons, List.append_assoc]
    by_cases hc : c = .char '\'' ∨ c = .char '\\'
    · rw [quotedPoint, if_pos hc, List.cons_append, List.cons_append, List.nil_append, takeQuoted,
        ih]
      rfl
    · obtain ⟨hquote, hbackslash⟩ := not_or.mp hc
      rw [quotedPoint, if_neg hc, List.cons_append, List.nil_append, takeQuoted, if_neg hquote, ih]
      · rfl
      · exact fun _ _ heq => absurd heq hbackslash

/-- A literal is taken first, whatever follows it. -/
theorem takesFirst_literal (meant after : Text) : TakesFirst (.literal meant) after := by
  refine ⟨.char '\'', meant.flatMap quotedPoint ++ .char '\'' :: after, ?_, by decide,
    fun position => ?_⟩
  · have hquote : ("'" : Text) = [.char '\''] := rfl
    rw [Lexeme.written, hquote]
    simp
  · rw [takeToken, if_pos (.inl rfl), takeQuoted_written]
    rfl

/-- Every scannable lexeme is taken first before a clear text, and an opening parenthesis before any
text at all. -/
theorem Lexeme.Scannable.takesFirst {lexeme : Lexeme} (h : lexeme.Scannable) {after : Text}
    (hafter : lexeme = .symbol "(" ∨ Clear after) : TakesFirst lexeme after := by
  cases lexeme with
  | word text =>
    have hclear : Clear after := hafter.resolve_left nofun
    rcases h with hword | hnegative
    · exact takesFirst_word hword hclear
    · exact takesFirst_negative hnegative hclear
  | symbol text => exact takesFirst_symbol h (hafter.imp_left Lexeme.symbol.inj)
  | literal meant => exact takesFirst_literal meant after

/-! ## Lexemes side by side -/

/-- The token of a lexeme is as long as the lexeme is written. -/
theorem Lexeme.text_token (lexeme : Lexeme) (position : Nat) :
    (lexeme.token position).text = lexeme.written := by
  cases lexeme <;> rfl

/-- Scanning a text whose first token is taken wherever it stands gives that token, and then those
of the rest. -/
theorem scanFrom_append {written after : Text} {token : Nat → Token}
    (h : ∃ c rest, written ++ after = c :: rest ∧ Text.isBlank c = false ∧
      ∀ position, takeToken position c rest = .ok (token position, after))
    (htext : ∀ position, (token position).text = written) (steps position : Nat) :
    scanFrom (steps + 1) position (written ++ after) = (do
      return token position :: (← scanFrom steps (position + written.length) after)) := by
  obtain ⟨c, rest, heq, hblank, htake⟩ := h
  have hc : ¬Text.isBlank c = true := ne_true_of_eq_false hblank
  rw [heq, scanFrom, List.takeWhile_cons_of_neg hc, List.dropWhile_cons_of_neg hc]
  dsimp only
  rw [List.length_nil, Nat.add_zero, htake, Outcome.ok_bind]
  dsimp only
  rw [htext]

/-- Scanning a lexeme that is taken first gives its token, and then those of the rest. -/
theorem scanFrom_takesFirst {lexeme : Lexeme} {after : Text} (h : TakesFirst lexeme after)
    (steps position : Nat) :
    scanFrom (steps + 1) position (lexeme.written ++ after) = (do
      return lexeme.token position ::
        (← scanFrom steps (position + lexeme.written.length) after)) :=
  scanFrom_append h lexeme.text_token steps position

/-- A blank is passed over. -/
theorem scanFrom_blank (steps position : Nat) (after : Text) :
    scanFrom (steps + 1) position (.char ' ' :: after) =
      scanFrom (steps + 1) (position + 1) after := by
  have hblank : Text.isBlank (.char ' ') = true := by decide
  rw [scanFrom, scanFrom, List.takeWhile_cons_of_pos hblank, List.dropWhile_cons_of_pos hblank,
    List.length_cons, Nat.add_right_comm, Nat.add_assoc]

/-- A text is clear by its first character. -/
theorem clear_cons {c : CodePoint} (hword : isWordChar c = false) (heq : c ≠ .char '=')
    (hgt : c ≠ .char '>') (rest : Text) : Clear (c :: rest) := by
  intro d hd
  cases hd
  exact ⟨hword, heq, hgt⟩

/-- Where no blank stands between two lexemes, the second one makes the text clear, unless the first
one is an opening parenthesis. -/
theorem clear_of_not_isApart {before after : Lexeme} (h : Lexeme.isApart before after = false)
    (hbefore : before ≠ .symbol "(") (rest : List Lexeme) (tail : Text) :
    Clear (Lexeme.setSideBySide (after :: rest) ++ tail) := by
  have hmark : after = .symbol ")" ∨ after = .symbol "," := by
    simp only [Lexeme.isApart, Bool.and_eq_false_iff, bne_eq_false_iff_eq] at h
    rcases h with (h | h) | h
    · exact absurd h hbefore
    · exact .inl h
    · exact .inr h
  rcases hmark with rfl | rfl
  · cases rest <;> exact clear_cons (c := .char ')') (by decide) (by decide) (by decide) _
  · cases rest <;> exact clear_cons (c := .char ',') (by decide) (by decide) (by decide) _

/-- A scannable lexeme is written with one character at least. -/
theorem Lexeme.Scannable.length_pos {lexeme : Lexeme} (h : lexeme.Scannable) :
    0 < lexeme.written.length := by
  have hfirst : TakesFirst lexeme [] := h.takesFirst (.inr nofun)
  obtain ⟨c, rest, heq, -⟩ := hfirst
  rw [List.append_nil] at heq
  rw [heq]
  exact Nat.succ_pos _

/-- Lexemes that stand apart have a blank between them. -/
theorem setSideBySide_of_isApart {first second : Lexeme}
    (h : Lexeme.isApart first second = true) (rest : List Lexeme) :
    Lexeme.setSideBySide (first :: second :: rest) =
      first.written ++ .char ' ' :: Lexeme.setSideBySide (second :: rest) := by
  have hblank : (" " : Text) = [.char ' '] := rfl
  rw [Lexeme.setSideBySide, if_pos h, hblank, List.append_assoc, List.singleton_append]

/-- Lexemes that do not stand apart have nothing between them. -/
theorem setSideBySide_of_not_isApart {first second : Lexeme}
    (h : Lexeme.isApart first second = false) (rest : List Lexeme) :
    Lexeme.setSideBySide (first :: second :: rest) =
      first.written ++ Lexeme.setSideBySide (second :: rest) := by
  have hempty : ("" : Text) = [] := rfl
  rw [Lexeme.setSideBySide, if_neg (ne_true_of_eq_false h), hempty, List.append_nil]

/-- Where the scan of a tail ends, the scan of lexemes set side by side before it gives tokens that
spell the lexemes and then ends. -/
theorem scanFrom_setSideBySide {lexemes : List Lexeme} (hscannable : ∀ l ∈ lexemes, l.Scannable)
    {tail : Text} (hclear : Clear tail)
    (htail : ∀ steps position, tail.length < steps →
      ∃ rest, scanFrom steps position tail = .ok rest ∧ Ending rest)
    {steps : Nat} (position : Nat)
    (hsteps : (Lexeme.setSideBySide lexemes ++ tail).length < steps) :
    ∃ tokens rest, scanFrom steps position (Lexeme.setSideBySide lexemes ++ tail) =
      .ok (tokens ++ rest) ∧ Spelled tokens lexemes ∧ Ending rest := by
  -- The induction is on the lexemes, along with the steps that are left.
  induction lexemes generalizing steps position with
  | nil =>
    obtain ⟨rest, hrest, hending⟩ := htail steps position hsteps
    exact ⟨[], rest, hrest, .nil, hending⟩
  | cons first others ih =>
    obtain ⟨hfirst, hothers⟩ := List.forall_mem_cons.mp hscannable
    obtain ⟨left, rfl⟩ := Nat.exists_eq_add_one_of_ne_zero (Nat.ne_zero_of_lt hsteps)
    have hpos := hfirst.length_pos
    cases others with
    | nil =>
      rw [Lexeme.setSideBySide, List.length_append] at hsteps
      obtain ⟨rest, hrest, hending⟩ :=
        htail left (position + first.written.length) (by omega)
      refine ⟨[first.token position], rest, ?_, .cons ⟨position, rfl⟩ .nil, hending⟩
      rw [Lexeme.setSideBySide, scanFrom_takesFirst (hfirst.takesFirst (.inr hclear)), hrest]
      rfl
    | cons second others =>
      cases hapart : Lexeme.isApart first second with
      | true =>
        rw [setSideBySide_of_isApart hapart, List.append_assoc, List.cons_append] at hsteps ⊢
        rw [List.length_append, List.length_cons] at hsteps
        obtain ⟨steps, rfl⟩ : ∃ steps, left = steps + 1 := ⟨left - 1, by omega⟩
        obtain ⟨tokens, rest, hscan, hspelled, hending⟩ :=
          ih hothers (position + first.written.length + 1) (by omega : _ < steps + 1)
        have hblank : Clear (.char ' ' :: (Lexeme.setSideBySide (second :: others) ++ tail)) :=
          clear_cons (by decide) (by decide) (by decide) _
        refine ⟨first.token position :: tokens, rest, ?_, .cons ⟨position, rfl⟩ hspelled, hending⟩
        rw [scanFrom_takesFirst (hfirst.takesFirst (.inr hblank)), scanFrom_blank, hscan]
        rfl
      | false =>
        rw [setSideBySide_of_not_isApart hapart, List.append_assoc] at hsteps ⊢
        rw [List.length_append] at hsteps
        obtain ⟨tokens, rest, hscan, hspelled, hending⟩ :=
          ih hothers (position + first.written.length) (by omega : _ < left)
        have hafter : first = .symbol "(" ∨
            Clear (Lexeme.setSideBySide (second :: others) ++ tail) := by
          by_cases hopen : first = .symbol "("
          · exact .inl hopen
          · exact .inr (clear_of_not_isApart hapart hopen others tail)
        refine ⟨first.token position :: tokens, rest, ?_, .cons ⟨position, rfl⟩ hspelled, hending⟩
        rw [scanFrom_takesFirst (hfirst.takesFirst hafter), hscan]
        rfl

/-- Scanning scannable lexemes set side by side, with or without a semicolon after them, gives
tokens that spell them and then ends. -/
theorem scan_setSideBySide {lexemes : List Lexeme} (hscannable : ∀ l ∈ lexemes, l.Scannable)
    {tail : Text} (htail : tail = [] ∨ tail = ";") :
    ∃ tokens rest, scan (Lexeme.setSideBySide lexemes ++ tail) = .ok (tokens ++ rest) ∧
      Spelled tokens lexemes ∧ Ending rest := by
  have hclear : Clear tail := by
    rcases htail with rfl | rfl
    · exact nofun
    · exact clear_cons (c := .char ';') (by decide) (by decide) (by decide) []
  refine scanFrom_setSideBySide hscannable hclear (fun steps position hsteps => ?_) 0
    (Nat.lt_succ_self _)
  rcases htail with rfl | rfl
  · obtain ⟨left, rfl⟩ := Nat.exists_eq_add_one_of_ne_zero (Nat.ne_zero_of_lt hsteps)
    exact ⟨_, rfl, _, .inl rfl⟩
  · match steps, hsteps with
    | left + 2, _ => exact ⟨_, rfl, _, .inr ⟨_, rfl⟩⟩

end RelStore.Sql
