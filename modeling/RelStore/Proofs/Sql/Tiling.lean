import Mathlib.Data.List.Chain
import RelStore.Proofs.Sql.Scanning

/-!
# Tokens tile a text

The tokens of a text stand in it one after the other, with nothing but blanks between them
(`Tiles`). Each of them is taken again wherever it is followed by nothing that could belong to it
(`Token.Retaken`): a literal by its closing quote, a symbol by what does not make it a longer one,
and a word by the characters that are in it and those that are not. Both follow from how a token is
taken (`takeToken_eq_ok`), along the text (`scanFrom_tiles`).
-/

namespace RelStore.Sql

/-! ## Taking a token again -/

/-- A token is taken again before every clear text. -/
def Token.Retaken (token : Token) : Prop :=
  ∀ after, Clear after → ∃ c rest, token.text ++ after = c :: rest ∧ Text.isBlank c = false ∧
    ∀ position, takeToken position c rest = .ok ({ token with position := position }, after)

/-- What is taken of a literal ends at its closing quote, whatever follows. -/
theorem takeQuoted_append {quote : CodePoint} (hquote : quote ≠ .char '\\') {cs : Text}
    {written meant after : Text} (h : takeQuoted quote cs = some (written, meant, after)) :
    cs = written ++ after ∧
      ∀ other, takeQuoted quote (written ++ other) = some (written, meant, other) := by
  -- The induction is on the text by the cases of the reader.
  induction cs using takeQuoted.induct quote generalizing written meant after with
  | case1 => cases h
  | case2 c rest ih =>
    rw [takeQuoted] at h
    obtain ⟨⟨inner, value, left⟩, hrest, heq⟩ := Option.map_eq_some_iff.mp h
    cases heq
    obtain ⟨rfl, hagain⟩ := ih hrest
    refine ⟨rfl, fun other => ?_⟩
    rw [List.cons_append, List.cons_append, takeQuoted, hagain]
    rfl
  | case3 rest hpattern =>
    rw [takeQuoted, if_pos rfl] at h
    · cases h
      refine ⟨rfl, fun other => ?_⟩
      rw [List.cons_append, List.nil_append, takeQuoted, if_pos rfl]
      exact fun _ _ heq => absurd heq hquote
    · exact hpattern
  | case4 c rest hpattern hne ih =>
    rw [takeQuoted, if_neg hne] at h
    · obtain ⟨⟨inner, value, left⟩, hrest, heq⟩ := Option.map_eq_some_iff.mp h
      cases heq
      obtain ⟨rfl, hagain⟩ := ih hrest
      refine ⟨rfl, fun other => ?_⟩
      rw [List.cons_append, takeQuoted, if_neg hne, hagain]
      · rfl
      · -- A backslash would be followed by a character, since the literal has its closing quote.
        intro _ _ heq
        cases hcs : inner ++ after with
        | nil =>
          rw [hcs] at hrest
          cases hrest
        | cons d others => exact absurd hcs (hpattern d others heq)
    · exact hpattern

/-- Before a word there is a sign that is followed by a digit, or nothing. -/
theorem takeWordSign_cases (cs : Text) :
    takeWordSign cs = ([], cs) ∨ ∃ sign d rest, cs = sign :: d :: rest ∧ d.isDigit = true ∧
      (sign = .char '+' ∨ sign = .char '-') ∧ takeWordSign cs = ([sign], d :: rest) := by
  unfold takeWordSign
  split
  · next sign d rest =>
    split
    · next hboth =>
      simp only [Bool.and_eq_true, Bool.or_eq_true, beq_iff_eq] at hboth
      exact .inr ⟨sign, d, rest, rfl, hboth.2, hboth.1, rfl⟩
    · exact .inl rfl
  · exact .inl rfl

/-- The word at the start of a text, with its sign, is taken again. -/
theorem takeWordSign_append {cs : Text}
    (h : (takeWordSign cs).2.takeWhile isWordChar ≠ []) :
    let word := (takeWordSign cs).1 ++ (takeWordSign cs).2.takeWhile isWordChar
    cs = word ++ (takeWordSign cs).2.dropWhile isWordChar ∧
      ∀ after, Clear after → TakesFirst (.word word) after := by
  have hall (body : Text) : ∀ c ∈ body.takeWhile isWordChar, isWordChar c = true :=
    List.all_eq_true.mp List.all_takeWhile
  rcases takeWordSign_cases cs with hnone | ⟨sign, d, left, rfl, hd, hsign, hsome⟩
  · rw [hnone] at h ⊢
    exact ⟨List.takeWhile_append_dropWhile.symm, fun after => takesFirst_word ⟨h, hall cs⟩⟩
  · rw [hsome, List.takeWhile_cons_of_pos (isWordChar_of_isDigit hd),
      List.dropWhile_cons_of_pos (isWordChar_of_isDigit hd)]
    refine ⟨?_, fun after => takesFirst_signed hsign hd ⟨List.cons_ne_nil _ _, ?_⟩⟩
    · exact congrArg (sign :: d :: ·) List.takeWhile_append_dropWhile.symm
    · exact List.forall_mem_cons.mpr ⟨isWordChar_of_isDigit hd, hall left⟩

/-- A token that is taken from a text stands at its start, and it is taken again. -/
theorem takeToken_eq_ok {position : Nat} {c : CodePoint} {rest after : Text} {token : Token}
    (hblank : Text.isBlank c = false) (h : takeToken position c rest = .ok (token, after)) :
    c :: rest = token.text ++ after ∧ token.position = position ∧ token.kind ≠ .eof ∧
      token.text ≠ [] ∧ token.Retaken := by
  obtain ⟨hstring, hmark, hplain⟩ :
      TokenKind.string ≠ .eof ∧ TokenKind.symbol ≠ .eof ∧ TokenKind.word ≠ .eof := by decide
  unfold takeToken at h
  split at h
  · next hquote =>
    split at h
    · cases h
    · next written meant left hquoted =>
      cases h
      have hbackslash : c ≠ .char '\\' := by rcases hquote with rfl | rfl <;> decide
      obtain ⟨rfl, hagain⟩ := takeQuoted_append hbackslash hquoted
      refine ⟨rfl, rfl, hstring, List.cons_ne_nil _ _, fun other _ => ?_⟩
      refine ⟨c, written ++ other, rfl, hblank, fun position => ?_⟩
      rw [takeToken, if_pos hquote, hagain]
  · next hquote =>
    split at h
    · next hpair =>
      cases h
      cases rest with
      | nil => cases hpair
      | cons d left =>
        refine ⟨rfl, rfl, hmark, List.cons_ne_nil _ _, fun other _ => ?_⟩
        refine ⟨c, d :: other, rfl, hblank, fun position => ?_⟩
        rw [takeToken, if_neg hquote]
        exact if_pos hpair
    · split at h
      · next hsymbol =>
        cases h
        refine ⟨rfl, rfl, hmark, List.cons_ne_nil _ _, fun other hother => ?_⟩
        refine ⟨c, other, rfl, hblank, fun position => ?_⟩
        rw [takeToken, if_neg hquote, if_neg (ne_true_of_eq_false (hother.any_isPairSymbol c)),
          if_pos hsymbol]
        rfl
      · next hsymbol =>
        dsimp only at h
        split at h
        · cases h
        · next hword =>
          cases h
          obtain ⟨hsplit, hagain⟩ := takeWordSign_append hword
          exact ⟨hsplit, rfl, hplain, List.append_ne_nil_of_right_ne_nil _ hword, hagain⟩

/-! ## Tilings -/

/-- Between two places of a text there are only blanks. -/
structure BlankBetween (text : Text) (start stop : Nat) : Prop where
  /-- The places are in order. -/
  le : start ≤ stop
  /-- The characters between them are blank. -/
  blank : ∀ c ∈ (text.take stop).drop start, Text.isBlank c = true

/-- Tokens tile a text from a place on. -/
structure Tiles (text : Text) (start : Nat) (tokens : List Token) : Prop where
  /-- They stand one after the other. -/
  increasing : tokens.Pairwise fun a b => a.position < b.position
  /-- Each of them is written where it stands. -/
  slice : ∀ token ∈ tokens, token.kind ≠ .eof →
    (text.drop token.position).take token.text.length = token.text
  /-- There are only blanks before the first one. -/
  first : ∀ token ∈ tokens.head?, BlankBetween text start token.position
  /-- There are only blanks between a token and the next one. -/
  between : tokens.IsChain fun a b => BlankBetween text (a.position + a.text.length) b.position
  /-- The last one, and no other, is for the end of the text, and it stands there. -/
  stop : ∃ before, tokens = before ++ [.endOfInput text.length] ∧
    ∀ token ∈ before, token.kind ≠ .eof

/-- Tokens stand from the place on from which they tile a text. -/
theorem Tiles.start_le {text : Text} {start : Nat} {tokens : List Token}
    (h : Tiles text start tokens) : ∀ token ∈ tokens, start ≤ token.position := by
  intro token htoken
  cases tokens with
  | nil => cases htoken
  | cons first rest =>
    have hfirst := (h.first first rfl).le
    rcases List.mem_cons.mp htoken with rfl | hrest
    · exact hfirst
    · exact Nat.le_trans hfirst (Nat.le_of_lt ((List.pairwise_cons.mp h.increasing).1 token hrest))

/-- At the end of a text, after blanks, there is the token for the end. -/
theorem Tiles.endOfInput (front : Text) {gap : Text}
    (hgap : ∀ c ∈ gap, Text.isBlank c = true) :
    Tiles (front ++ gap) front.length [.endOfInput (front ++ gap).length] where
  increasing := List.pairwise_singleton _ _
  slice := List.forall_mem_singleton.mpr fun hkind => absurd rfl hkind
  first := by
    rintro token ⟨⟩
    dsimp only [Token.endOfInput]
    refine ⟨by rw [List.length_append]; exact Nat.le_add_right _ _, ?_⟩
    rw [List.take_length, List.drop_left]
    exact hgap
  between := List.isChain_singleton _
  stop := ⟨[], rfl, List.forall_mem_nil _⟩

/-- A token after blanks, before what tokens tile. -/
theorem Tiles.cons {front gap after : Text} (hgap : ∀ c ∈ gap, Text.isBlank c = true)
    {token : Token} (hposition : token.position = (front ++ gap).length) (hkind : token.kind ≠ .eof)
    (htext : token.text ≠ []) {rest : List Token}
    (h : Tiles (front ++ gap ++ token.text ++ after) (front ++ gap ++ token.text).length rest) :
    Tiles (front ++ gap ++ token.text ++ after) front.length (token :: rest) where
  increasing := by
    refine List.pairwise_cons.mpr ⟨fun other hother => ?_, h.increasing⟩
    have hle := h.start_le other hother
    have hpos := List.length_pos_of_ne_nil htext
    rw [List.length_append] at hle
    omega
  slice := by
    refine List.forall_mem_cons.mpr ⟨fun _ => ?_, h.slice⟩
    rw [hposition, List.append_assoc (front ++ gap), List.drop_left, List.take_left]
  first := by
    rintro _ ⟨⟩
    refine ⟨by rw [hposition, List.length_append]; exact Nat.le_add_right _ _, ?_⟩
    rw [hposition, List.append_assoc (front ++ gap), List.take_left, List.drop_left]
    exact hgap
  between := by
    refine List.isChain_cons.mpr ⟨fun next hnext => ?_, h.between⟩
    rw [hposition, ← List.length_append]
    exact h.first next hnext
  stop := by
    obtain ⟨before, heq, hbefore⟩ := h.stop
    exact ⟨token :: before, by rw [heq, List.cons_append],
      List.forall_mem_cons.mpr ⟨hkind, hbefore⟩⟩

/-- The tokens of a text tile it, and each but the last one is taken again. -/
theorem scanFrom_tiles {steps : Nat} (front : Text) {text : Text} {tokens : List Token}
    (hsteps : text.length < steps) (h : scanFrom steps front.length text = .ok tokens) :
    Tiles (front ++ text) front.length tokens ∧
      ∀ token ∈ tokens, token.kind ≠ .eof → token.Retaken := by
  -- The induction is on the steps; what has been scanned goes to the front.
  induction steps generalizing front text tokens with
  | zero => omega
  | succ steps ih =>
    have hgap : ∀ c ∈ text.takeWhile Text.isBlank, Text.isBlank c = true :=
      List.all_eq_true.mp List.all_takeWhile
    have htext : text.takeWhile Text.isBlank ++ text.dropWhile Text.isBlank = text :=
      List.takeWhile_append_dropWhile
    rw [scanFrom] at h
    dsimp only at h
    rw [← List.length_append] at h
    split at h
    · next hnone =>
      cases h
      rw [hnone, List.append_nil] at htext
      rw [htext] at hgap ⊢
      exact ⟨.endOfInput front hgap, List.forall_mem_singleton.mpr fun hkind => absurd rfl hkind⟩
    · next c rest hrest =>
      obtain ⟨⟨token, after⟩, htoken, h⟩ := Outcome.bind_eq_ok.mp h
      obtain ⟨later, hlater, h⟩ := Outcome.bind_eq_ok.mp h
      cases h
      have hblank : Text.isBlank c = false := by
        have hhead := List.head?_dropWhile_not Text.isBlank text
        rw [hrest] at hhead
        exact hhead
      obtain ⟨hsplit, hposition, hkind, hnonempty, hretaken⟩ := takeToken_eq_ok hblank htoken
      generalize text.takeWhile Text.isBlank = gap at *
      rw [hrest, hsplit] at htext
      rw [← htext] at hsteps ⊢
      dsimp only at hlater
      rw [← List.length_append] at hlater
      have hpos := List.length_pos_of_ne_nil hnonempty
      rw [List.length_append, List.length_append] at hsteps
      obtain ⟨htiles, hall⟩ := ih (front ++ gap ++ token.text) (by omega) hlater
      rw [← List.append_assoc, ← List.append_assoc]
      exact ⟨.cons hgap hposition hkind hnonempty htiles,
        List.forall_mem_cons.mpr ⟨fun _ => hretaken, hall⟩⟩

end RelStore.Sql
