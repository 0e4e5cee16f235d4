import Mathlib.Data.List.Forall2
import RelStore.Pattern

/-!
# What patterns match

A text matches a pattern when, both in lower case, it can be cut into as many pieces as the pattern
has characters, of which each is what its character stands for (`like_iff`). Matching does not try
the cuts. It knows of every prefix of the text whether the pattern so far matches it (`Knows`), and
one more character of the pattern tells this of the longer pattern (`Knows.advance`): after `%` a
prefix matches when it or a shorter one did before, and after any other character when it did
without its last character, for which the character of the pattern stands.
-/

namespace RelStore.Pattern

/-- What a character of a pattern stands for. Letters are the same ignoring case when they fold to
the same letter. -/
inductive StandsFor : CodePoint → Text → Prop where
  /-- A percent sign stands for any text, also the empty one. -/
  | run (cut : Text) : StandsFor '%' cut
  /-- A low line stands for any single character. -/
  | one (c : CodePoint) : StandsFor '_' [c]
  /-- Any other character stands for one that is the same ignoring case. -/
  | letter {l c : CodePoint} (hrun : l ≠ '%') (hone : l ≠ '_')
      (hfold : Text.fold c = Text.fold l) : StandsFor l [c]

/-! ## Cuts of a text -/

/-- What a piece of a pattern stands for: a run for any text, and any other piece for a character
that fits it. -/
def Piece.Covers (piece : Piece) (cut : Text) : Prop :=
  piece = .run ∨ ∃ c, cut = [c] ∧ piece.fits c = true

/-- A character of a pattern stands for what its piece covers. -/
theorem standsFor_iff {l : CodePoint} {cut : Text} :
    StandsFor l cut ↔ (Piece.ofCodePoint l).Covers cut := by
  unfold Piece.ofCodePoint
  constructor
  · intro h
    cases h with
    | run cut => exact .inl rfl
    | one c => exact .inr ⟨c, rfl, rfl⟩
    | @letter _ c hrun hone hfold =>
      rw [if_neg hrun, if_neg hone]
      exact .inr ⟨c, rfl, beq_iff_eq.mpr hfold.symm⟩
  · intro h
    split at h
    · next hrun =>
      rw [hrun]
      exact .run cut
    · next hrun =>
      split at h
      · next hone =>
        obtain ⟨c, rfl, -⟩ := h.resolve_left nofun
        rw [hone]
        exact .one c
      · next hone =>
        obtain ⟨c, rfl, hfits⟩ := h.resolve_left nofun
        exact .letter hrun hone (beq_iff_eq.mp hfits).symm

/-- A text can be cut so that each of some pieces covers its part. -/
def Matches (pieces : List Piece) (text : Text) : Prop :=
  ∃ cuts : List Text, cuts.flatten = text ∧ List.Forall₂ Piece.Covers pieces cuts

/-- No pieces match the empty text only. -/
theorem matches_nil {text : Text} : Matches [] text ↔ text = [] := by
  constructor
  · rintro ⟨cuts, rfl, hcuts⟩
    rw [List.forall₂_nil_left_iff.mp hcuts]
    rfl
  · rintro rfl
    exact ⟨[], rfl, .nil⟩

/-- With one more piece, a text is matched when the pieces before match a first part of it and the
piece covers the rest. -/
theorem matches_concat {pieces : List Piece} {piece : Piece} {text : Text} :
    Matches (pieces ++ [piece]) text ↔
      ∃ before cut, text = before ++ cut ∧ Matches pieces before ∧ piece.Covers cut := by
  constructor
  · rintro ⟨cuts, rfl, hcuts⟩
    rw [← List.forall₂_reverse_iff, List.reverse_append, List.reverse_singleton,
      List.singleton_append, List.forall₂_cons_left_iff] at hcuts
    obtain ⟨cut, others, hcut, hothers, hreverse⟩ := hcuts
    obtain rfl : cuts = others.reverse ++ [cut] := by
      rw [← List.reverse_cons, ← hreverse, List.reverse_reverse]
    refine ⟨others.reverse.flatten, cut, ?_, ⟨others.reverse, rfl, ?_⟩, hcut⟩
    · rw [List.flatten_append, List.flatten_singleton]
    · rw [← List.forall₂_reverse_iff, List.reverse_reverse]
      exact hothers
  · rintro ⟨_, cut, rfl, ⟨cuts, rfl, hcuts⟩, hcut⟩
    refine ⟨cuts ++ [cut], ?_, List.rel_append hcuts (.cons hcut .nil)⟩
    rw [List.flatten_append, List.flatten_singleton]

/-- With a run at the end, a prefix of a text is matched when a prefix of it was before. -/
theorem matches_concat_run {pieces : List Piece} {text : Text} {k : Nat} :
    Matches (pieces ++ [.run]) (text.take k) ↔ ∃ j ≤ k, Matches pieces (text.take j) := by
  rw [matches_concat]
  constructor
  · rintro ⟨before, cut, hsplit, hbefore, -⟩
    have htake := List.take_prefix k text
    have hbegins : before <+: text := (hsplit ▸ List.prefix_append before cut).trans htake
    have hlength := congrArg List.length hsplit
    rw [List.length_take, List.length_append] at hlength
    refine ⟨before.length, by omega, ?_⟩
    rw [← List.prefix_iff_eq_take.mp hbegins]
    exact hbefore
  · rintro ⟨j, hj, hmatches⟩
    have hsplit := List.take_append_drop j (text.take k)
    rw [List.take_take, Nat.min_eq_left hj] at hsplit
    exact ⟨text.take j, (text.take k).drop j, hsplit.symm, hmatches, .inl rfl⟩

/-- With a piece for one character at the end, a prefix of a text is matched when it was without its
last character and this one fits the piece. -/
theorem matches_concat_one {pieces : List Piece} {piece : Piece} (hpiece : piece ≠ .run)
    {text : Text} {k : Nat} {c : CodePoint} (hc : text[k]? = some c) :
    Matches (pieces ++ [piece]) (text.take (k + 1)) ↔
      Matches pieces (text.take k) ∧ piece.fits c = true := by
  rw [matches_concat, List.take_add_one, hc, Option.toList_some]
  constructor
  · rintro ⟨before, cut, hsplit, hbefore, hcut⟩
    obtain ⟨d, rfl, hfits⟩ := hcut.resolve_left hpiece
    obtain ⟨rfl, hd⟩ := List.append_inj' hsplit rfl
    obtain rfl := List.singleton_inj.mp hd
    exact ⟨hbefore, hfits⟩
  · rintro ⟨hbefore, hfits⟩
    exact ⟨text.take k, [c], rfl, hbefore, .inr ⟨c, rfl, hfits⟩⟩

/-- With a piece for one character at the end, the empty text is not matched. -/
theorem not_matches_concat_nil {pieces : List Piece} {piece : Piece} (hpiece : piece ≠ .run) :
    ¬Matches (pieces ++ [piece]) [] := by
  rw [matches_concat]
  rintro ⟨before, cut, hsplit, -, hcut⟩
  obtain ⟨c, rfl, -⟩ := hcut.resolve_left hpiece
  exact List.append_ne_nil_of_right_ne_nil before (List.cons_ne_nil c []) hsplit.symm

/-! ## What is known of the prefixes -/

/-- A list tells of every prefix of a text whether some pieces match it. -/
structure Knows (text : Text) (pieces : List Piece) (prefixes : List Bool) : Prop where
  /-- A text has one prefix more than characters. -/
  length : prefixes.length = text.length + 1
  /-- Where the list says so, the prefix of this length is matched. -/
  iff : ∀ k ≤ text.length, prefixes[k]? = some true ↔ Matches pieces (text.take k)

/-- No pieces match only the prefix without characters. -/
theorem knows_nil (text : Text) : Knows text [] (true :: List.replicate text.length false) := by
  refine ⟨by rw [List.length_cons, List.length_replicate], fun k hk => ?_⟩
  rw [matches_nil, List.take_eq_nil_iff]
  cases k with
  | zero => simp
  | succ k =>
    have hne : text ≠ [] := List.ne_nil_of_length_pos (by omega)
    simp [List.getElem?_replicate, hne]

/-- A place is reached when `true` stands there or before it. -/
theorem reached_eq_true {before : Bool} {marks : List Bool} {k : Nat} (hk : k < marks.length) :
    (reached before marks)[k]? = some true ↔ before = true ∨ ∃ j ≤ k, marks[j]? = some true := by
  induction marks generalizing before k with
  | nil => exact absurd hk (Nat.not_lt_zero k)
  | cons mark rest ih =>
    cases k with
    | zero => simp [reached]
    | succ k =>
      rw [reached, List.getElem?_cons_succ, ih (Nat.lt_of_succ_lt_succ hk), Bool.or_eq_true,
        or_assoc]
      refine or_congr_right ⟨?_, ?_⟩
      · rintro (rfl | ⟨j, hj, hmark⟩)
        · exact ⟨0, Nat.zero_le _, rfl⟩
        · exact ⟨j + 1, Nat.succ_le_succ hj, hmark⟩
      · rintro ⟨j, hj, hmark⟩
        cases j with
        | zero => exact .inl (Option.some.inj hmark)
        | succ j => exact .inr ⟨j, Nat.le_of_succ_le_succ hj, hmark⟩

/-- Reaching leaves the number of places. -/
theorem length_reached (before : Bool) (marks : List Bool) :
    (reached before marks).length = marks.length := by
  induction marks generalizing before with
  | nil => rfl
  | cons mark rest ih => rw [reached, List.length_cons, List.length_cons, ih]

variable {text : Text} {pieces : List Piece} {prefixes : List Bool}

/-- What is known with a run more. -/
theorem Knows.advance_run (h : Knows text pieces prefixes) :
    Knows text (pieces ++ [.run]) (Piece.advance text prefixes .run) := by
  refine ⟨(length_reached false prefixes).trans h.length, fun k hk => ?_⟩
  have hreached : (reached false prefixes)[k]? = some true ↔
      ∃ j ≤ k, prefixes[j]? = some true := by
    rw [reached_eq_true (by rw [h.length]; omega)]
    exact or_iff_right Bool.false_ne_true
  rw [matches_concat_run, Piece.advance, hreached]
  exact exists_congr fun j => and_congr_right fun hj => h.iff j (Nat.le_trans hj hk)

/-- What is known with a piece for one character more. -/
theorem Knows.advance_one (h : Knows text pieces prefixes) {piece : Piece} (hpiece : piece ≠ .run) :
    Knows text (pieces ++ [piece]) (Piece.advance text prefixes piece) := by
  have hadvance : Piece.advance text prefixes piece =
      false :: List.zipWith (fun matched c => matched && piece.fits c) prefixes text := by
    cases piece with
    | run => exact absurd rfl hpiece
    | one => rfl
    | letter l => rfl
  rw [hadvance]
  refine ⟨?_, fun k hk => ?_⟩
  · rw [List.length_cons, List.length_zipWith, h.length, Nat.min_eq_right (Nat.le_succ _)]
  · cases k with
    | zero => exact iff_of_false nofun (not_matches_concat_nil hpiece)
    | succ k =>
      obtain ⟨matched, hmatched⟩ : ∃ matched, prefixes[k]? = some matched :=
        ⟨_, List.getElem?_eq_getElem (by rw [h.length]; omega)⟩
      obtain ⟨c, hc⟩ : ∃ c, text[k]? = some c := ⟨_, List.getElem?_eq_getElem (by omega)⟩
      rw [matches_concat_one hpiece hc, ← h.iff k (by omega), List.getElem?_cons_succ,
        List.getElem?_zipWith, hmatched, hc]
      simp

/-- What is known with any piece more. -/
theorem Knows.advance (h : Knows text pieces prefixes) (piece : Piece) :
    Knows text (pieces ++ [piece]) (piece.advance text prefixes) := by
  by_cases hpiece : piece = .run
  · rw [hpiece]
    exact h.advance_run
  · exact h.advance_one hpiece

/-- What is known with more pieces, taken one after the other. -/
theorem Knows.foldl (h : Knows text pieces prefixes) (more : List Piece) :
    Knows text (pieces ++ more) (more.foldl (Piece.advance text) prefixes) := by
  induction more generalizing pieces prefixes with
  | nil =>
    rw [List.append_nil]
    exact h
  | cons piece more ih =>
    rw [List.append_cons, List.foldl_cons]
    exact ih (h.advance piece)

/-! ## Matching -/

/-- A text is found to match some pieces just when it does. -/
theorem matchPieces_iff (pieces : List Piece) (text : Text) :
    matchPieces pieces text = true ↔ Matches pieces text := by
  have hknows := (knows_nil text).foldl pieces
  rw [List.nil_append] at hknows
  have hall := hknows.iff text.length (Nat.le_refl _)
  rw [List.take_length] at hall
  have hlast : matchPieces pieces text = (pieces.foldl (Piece.advance text)
      (true :: List.replicate text.length false)).getLast?.getD false := rfl
  rw [hlast, List.getLast?_eq_getElem?, hknows.length, Nat.add_sub_cancel, ← hall,
    Option.getD_eq_iff]
  exact or_iff_left fun hnone => Bool.false_ne_true hnone.2

/-- A text matches a pattern just when, both in lower case, it can be cut into consecutive pieces,
one for each character of the pattern in order, of which each is what the character stands for. -/
theorem like_iff (text pattern : Text) :
    like text pattern = true ↔
      ∃ cuts : List Text, cuts.flatten = text.lower ∧
        List.Forall₂ StandsFor pattern.lower cuts := by
  rw [like, matchPieces_iff, Matches]
  refine exists_congr fun cuts => and_congr_right fun _ => ?_
  rw [List.forall₂_map_left_iff]
  exact ⟨fun h => h.imp fun _ _ => standsFor_iff.mpr, fun h => h.imp fun _ _ => standsFor_iff.mp⟩

end RelStore.Pattern
