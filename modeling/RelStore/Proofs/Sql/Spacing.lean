import RelStore.Proofs.Sql.Placement
import RelStore.Proofs.Sql.Tiling

/-!
# Spacing does not matter

When the tokens of a text are written anew with one blank between each two of them (`spaced`), the
scan cuts at the same places again: each token is taken again before a blank, and the blanks are
passed over (`scanFrom_spaced`). The tokens then differ from the old ones in their places only, to
which the reader is blind, so that the statement is the same (`scan_spaced`).
-/

namespace RelStore.Sql

/-- The texts of some tokens with one blank between each two of them. -/
def spaced (tokens : List Token) : Text := List.intercalate " " (tokens.map Token.text)

/-- A token by itself has no blank after it. -/
theorem spaced_singleton (token : Token) : spaced [token] = token.text :=
  List.intercalate_singleton

/-- The first of several tokens has a blank after it. -/
theorem spaced_cons_cons (first second : Token) (rest : List Token) :
    spaced (first :: second :: rest) = first.text ++ .char ' ' :: spaced (second :: rest) := by
  have hblank : (" " : Text) = [.char ' '] := rfl
  rw [spaced, List.map_cons, List.map_cons, List.intercalate_cons_cons, hblank, List.append_assoc,
    List.singleton_append]
  rfl

/-- The token for the end of the text has no text, so it adds a blank at most. -/
theorem spaced_append_endOfInput (tokens : List Token) (stop : Nat) :
    ∃ tail, (tail = [] ∨ tail = " ") ∧
      spaced (tokens ++ [.endOfInput stop]) = spaced tokens ++ tail := by
  induction tokens with
  | nil => exact ⟨[], .inl rfl, rfl⟩
  | cons first rest ih =>
    cases rest with
    | nil =>
      refine ⟨" ", .inr rfl, ?_⟩
      rw [List.cons_append, List.nil_append, spaced_cons_cons, spaced_singleton, spaced_singleton]
      rfl
    | cons second rest =>
      obtain ⟨tail, htail, heq⟩ := ih
      refine ⟨tail, htail, ?_⟩
      rw [List.cons_append, List.cons_append, spaced_cons_cons, ← List.cons_append, heq,
        spaced_cons_cons, List.append_assoc, List.cons_append]

/-- The scan of a token that is taken again gives the token. -/
theorem Token.Retaken.scanFrom {token : Token} (h : token.Retaken) {after : Text}
    (hafter : Clear after) (steps position : Nat) :
    scanFrom (steps + 1) position (token.text ++ after) = (do
      return { token with position := position } ::
        (← scanFrom steps (position + token.text.length) after)) :=
  scanFrom_append (h after hafter) (fun _ => rfl) steps position

/-- A token that is taken again has a character. -/
theorem Token.Retaken.length_pos {token : Token} (h : token.Retaken) : 0 < token.text.length := by
  obtain ⟨c, rest, heq, -⟩ := h [] nofun
  rw [List.append_nil] at heq
  rw [heq]
  exact Nat.succ_pos _

/-- Tokens with one blank between each two of them are scanned again, at other places. -/
theorem scanFrom_spaced {tokens : List Token} (htokens : ∀ token ∈ tokens, token.Retaken)
    {tail : Text} (htail : tail = [] ∨ tail = " ") {steps : Nat} (position : Nat)
    (hsteps : (spaced tokens ++ tail).length < steps) :
    ∃ others stop, scanFrom steps position (spaced tokens ++ tail) =
      .ok (others ++ [.endOfInput stop]) ∧ SameTokens tokens others := by
  have hclear : Clear tail := by
    rcases htail with rfl | rfl
    · exact nofun
    · exact clear_cons (c := .char ' ') (by decide) (by decide) (by decide) []
  have hend (steps position : Nat) :
      ∃ stop, scanFrom (steps + 1) position tail = .ok [.endOfInput stop] := by
    rcases htail with rfl | rfl
    · exact ⟨_, rfl⟩
    · exact ⟨_, rfl⟩
  -- The induction is on the tokens, along with the steps that are left.
  induction tokens generalizing steps position with
  | nil =>
    obtain ⟨left, rfl⟩ := Nat.exists_eq_add_one_of_ne_zero (Nat.ne_zero_of_lt hsteps)
    obtain ⟨stop, hstop⟩ := hend left position
    exact ⟨[], stop, hstop, .nil⟩
  | cons first rest ih =>
    obtain ⟨hfirst, hrest⟩ := List.forall_mem_cons.mp htokens
    have hpos := hfirst.length_pos
    have halike (position : Nat) : first.Alike { first with position := position } :=
      ⟨rfl, rfl, rfl⟩
    cases rest with
    | nil =>
      rw [spaced_singleton] at hsteps ⊢
      rw [List.length_append] at hsteps
      obtain ⟨left, rfl⟩ : ∃ left, steps = left + 1 + 1 := ⟨steps - 2, by omega⟩
      obtain ⟨stop, hstop⟩ := hend left (position + first.text.length)
      refine ⟨[{ first with position := position }], stop, ?_, .cons (halike position) .nil⟩
      rw [hfirst.scanFrom hclear, hstop]
      rfl
    | cons second rest =>
      rw [spaced_cons_cons, List.append_assoc, List.cons_append] at hsteps ⊢
      rw [List.length_append, List.length_cons] at hsteps
      obtain ⟨left, rfl⟩ : ∃ left, steps = left + 1 + 1 := ⟨steps - 2, by omega⟩
      obtain ⟨others, stop, hothers, hsame⟩ :=
        ih hrest (position + first.text.length + 1) (by omega : _ < left + 1)
      have hblank : Clear (.char ' ' :: (spaced (second :: rest) ++ tail)) :=
        clear_cons (by decide) (by decide) (by decide) _
      refine ⟨{ first with position := position } :: others, stop, ?_,
        .cons (halike position) hsame⟩
      rw [hfirst.scanFrom hblank, scanFrom_blank, hothers]
      rfl

/-- Errors without their places are of the same kinds. -/
theorem mapError_kind?_unplaced {α : Type} (x : Except Error α) :
    (x.mapError Error.unplaced).mapError Error.kind? = x.mapError Error.kind? := by
  cases x with
  | error e => exact congrArg Except.error e.kind?_unplaced
  | ok a => rfl

/-- The tokens of a text tile it. Written anew with one blank between each two of them, with or
without the empty text of the last one, they are scanned as tokens of the same kinds, texts and
values, so that the same statement is read, or an error that differs in places only and is of the
same kind. -/
theorem scan_spaced {text : Text} {tokens : List Token} (h : scan text = .ok tokens) :
    Tiles text 0 tokens ∧
      ∀ joined, joined = spaced tokens ∨ joined = spaced tokens.dropLast →
        ∃ others, scan joined = .ok others ∧ List.Forall₂ Token.Alike tokens others ∧
          (parse joined).mapError Error.unplaced = (parse text).mapError Error.unplaced ∧
          (parse joined).mapError Error.kind? = (parse text).mapError Error.kind? := by
  obtain ⟨htiles, hretaken⟩ : Tiles text 0 tokens ∧ _ :=
    scanFrom_tiles [] (Nat.lt_succ_self _) h
  refine ⟨htiles, fun joined hjoined => ?_⟩
  obtain ⟨before, rfl, hbefore⟩ := htiles.stop
  have htail : ∃ tail, (tail = [] ∨ tail = " ") ∧ joined = spaced before ++ tail := by
    rcases hjoined with rfl | rfl
    · exact spaced_append_endOfInput before _
    · exact ⟨[], .inl rfl, by rw [List.dropLast_concat, List.append_nil]⟩
  obtain ⟨tail, htail, rfl⟩ := htail
  have hall : ∀ token ∈ before, token.Retaken := fun token htoken =>
    hretaken token (List.mem_append_left _ htoken) (hbefore token htoken)
  obtain ⟨others, stop, hscan, hsame⟩ := scanFrom_spaced hall htail 0 (Nat.lt_succ_self _)
  have hsame : SameTokens (before ++ [.endOfInput text.length]) (others ++ [.endOfInput stop]) :=
    List.rel_append hsame (.cons ⟨rfl, rfl, rfl⟩ .nil)
  have hparse : (parse (spaced before ++ tail)).mapError Error.unplaced =
      (parse text).mapError Error.unplaced := by
    have hnew : parse (spaced before ++ tail) = parseTokens (others ++ [.endOfInput stop]) := by
      rw [parse, scan, hscan, Outcome.ok_bind]
    have hold : parse text = parseTokens (before ++ [.endOfInput text.length]) := by
      rw [parse, h, Outcome.ok_bind]
    rw [hnew, hold, parseTokens_unplaced hsame]
  refine ⟨_, hscan, hsame, hparse, ?_⟩
  rw [← mapError_kind?_unplaced, hparse, mapError_kind?_unplaced]

/-- A statement without blanks around a literal, symbols and a number with a sign is read in the
same way with blanks around them. -/
theorem scan_spaced_crowded :
    let text : Text := "DELETE FROM t WHERE a<>'x y'AND b>=-5"
    let joined : Text := "DELETE FROM t WHERE a <> 'x y' AND b >= -5"
    let tokens : List Token := [plainToken .word "DELETE" 0, plainToken .word "FROM" 7,
      plainToken .word "t" 12, plainToken .word "WHERE" 14, plainToken .word "a" 20,
      plainToken .symbol "<>" 21, ⟨.string, "'x y'", 23, "x y"⟩, plainToken .word "AND" 28,
      plainToken .word "b" 32, plainToken .symbol ">=" 33, plainToken .word "-5" 35,
      .endOfInput 37]
    scan text = .ok tokens ∧ Tiles text 0 tokens ∧ spaced tokens.dropLast = joined ∧
      (parse joined).mapError Error.kind? = (parse text).mapError Error.kind? := by
  intro text joined tokens
  have hscan : scan text = .ok tokens := by decide +kernel
  have hjoined : spaced tokens.dropLast = joined := by decide +kernel
  obtain ⟨htiles, hspaced⟩ := scan_spaced hscan
  obtain ⟨others, -, -, -, hparse⟩ := hspaced joined (.inr hjoined.symm)
  exact ⟨hscan, htiles, hjoined, hparse⟩

end RelStore.Sql
