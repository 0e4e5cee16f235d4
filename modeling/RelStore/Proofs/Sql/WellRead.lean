import Mathlib.Data.List.TakeWhile
import RelStore.Proofs.Outcome
import RelStore.Sql.Parser

/-!
# What every statement that is read keeps to

Not every statement is the statement of a text. No text writes the float that is not a number, an
insertion has rows, and the columns of a new table have names that are not empty
(`parse_wellRead`). The first holds since no numeral has the letters of `nan`
(`valueOfWord_ne_nan`), the second by the shape of lists (`takeList_ne_nil`), and the third since no
word is empty (`scanFrom_worded`), which is handed on from reader to reader (`Yields`).
-/

namespace RelStore

/-! ## Numerals -/

/-- The nearest number to a decimal is a number. -/
theorem Binary64.ofDecimal_ne_nan (negative : Bool) (d : Decimal) :
    ofDecimal negative d ≠ .nan := by
  unfold ofDecimal
  dsimp only
  split
  · exact nofun
  · split
    · exact nofun
    · unfold nearest ofRounded
      dsimp only
      split
      · exact nofun
      · split <;> exact nofun

/-- The characters of a text without the blanks at its ends are characters of the text. -/
theorem Text.strip_subset (text : Text) : text.strip ⊆ text := by
  intro c hc
  rw [strip, List.mem_reverse] at hc
  have hmem := (List.dropWhile_sublist _).subset hc
  rw [List.mem_reverse] at hmem
  exact (List.dropWhile_sublist _).subset hmem

/-- A text that is taken apart into a sign and a rest has the characters of the rest, and else only
a sign. -/
theorem mem_takeSign {text : Text} {c : CodePoint} (h : c ∈ text) :
    c = .char '-' ∨ c = .char '+' ∨ c ∈ (takeSign text).2 := by
  unfold takeSign
  split
  · rcases List.mem_cons.mp h with rfl | h
    · exact .inl rfl
    · exact .inr (.inr h)
  · rcases List.mem_cons.mp h with rfl | h
    · exact .inr (.inl rfl)
    · exact .inr (.inr h)
  · exact .inr (.inr h)

/-- What follows the sign of a text is part of the text. -/
theorem takeSign_subset (text : Text) : (takeSign text).2 ⊆ text := by
  unfold takeSign
  split
  · exact List.subset_cons_self _ _
  · exact List.subset_cons_self _ _
  · exact List.Subset.refl _

/-- A text that reads as a float that is not a number has the letter `n`. -/
theorem exists_mem_of_readFloat?_nan {text : Text} (h : readFloat? text = some .nan) :
    ∃ c ∈ text, c.toLower = .char 'n' := by
  unfold readFloat? at h
  dsimp only at h
  split at h
  · cases h
  · split at h
    · next hword =>
      have hmem : CodePoint.char 'n' ∈ (takeSign text.strip).2.map CodePoint.toLower := by
        rw [hword]
        exact List.mem_cons_self
      obtain ⟨c, hc, hlower⟩ := List.mem_map.mp hmem
      exact ⟨c, text.strip_subset (takeSign_subset _ hc), hlower⟩
    · split at h
      · exact absurd (Option.some.inj h) (Binary64.ofDecimal_ne_nan _ _)
      · cases h

/-- A digit is not the letter `n`. -/
theorem CodePoint.toLower_ne_of_isDigit {c : CodePoint} (h : c.isDigit = true) :
    c.toLower ≠ .char 'n' := by
  cases c with
  | surrogate offset => cases h
  | char c =>
    intro heq
    have hlower : c.toLower = 'n' := CodePoint.char.inj heq
    have hdigit : c.isDigit = true := h
    simp only [Char.isDigit, Bool.and_eq_true, decide_eq_true_eq] at hdigit
    unfold Char.toLower at hlower
    split at hlower
    · next hupper =>
      have hbelow := UInt32.le_trans hupper.1 hdigit.2
      exact absurd hbelow (by decide)
    · subst hlower
      exact absurd hdigit (by decide)

namespace Sql

/-- A character may be part of a numeral: it is a digit, a point or the mark of an exponent. -/
def InNumeral (c : CodePoint) : Prop :=
  c.isDigit = true ∨ c = .char '.' ∨ c = .char 'e' ∨ c = .char 'E'

/-- The letter `n` is no part of a numeral. -/
theorem InNumeral.toLower_ne {c : CodePoint} (h : InNumeral c) : c.toLower ≠ .char 'n' := by
  rcases h with hdigit | rfl | rfl | rfl
  · exact CodePoint.toLower_ne_of_isDigit hdigit
  · decide
  · decide
  · decide

/-- The digits at the start of a text and what follows them are the text, so a text is of numeral
characters if what follows its digits is. -/
theorem forall_mem_of_dropWhile {text : Text}
    (h : ∀ c ∈ text.dropWhile CodePoint.isDigit, InNumeral c) : ∀ c ∈ text, InNumeral c := by
  intro c hc
  rw [← List.takeWhile_append_dropWhile (p := CodePoint.isDigit) (l := text), List.mem_append] at hc
  rcases hc with hc | hc
  · exact .inl (List.mem_takeWhile_imp hc)
  · exact h c hc

/-- A numeral of a float is of numeral characters. -/
theorem forall_mem_of_isFloatNumeral {text : Text} (h : isFloatNumeral text = true) :
    ∀ c ∈ text, InNumeral c := by
  have hexponent {e : CodePoint} {exponent : Text}
      (hfits : ((e == 'e' || e == 'E') && isNumeral exponent) = true) :
      ∀ c ∈ e :: exponent, InNumeral c := by
    simp only [isNumeral, Bool.and_eq_true, Bool.or_eq_true, beq_iff_eq, List.all_eq_true] at hfits
    refine List.forall_mem_cons.mpr ⟨.inr (.inr hfits.1), fun c hc => ?_⟩
    exact .inl (hfits.2.2 c hc)
  refine forall_mem_of_dropWhile ?_
  unfold isFloatNumeral at h
  generalize text.dropWhile CodePoint.isDigit = after at h ⊢
  simp only [Bool.and_eq_true] at h
  obtain ⟨-, hfits⟩ := h
  have hpoint {rest : Text} (hrest : ∀ c ∈ rest.dropWhile CodePoint.isDigit, InNumeral c) :
      ∀ c ∈ (.char '.' :: rest : Text), InNumeral c :=
    List.forall_mem_cons.mpr ⟨.inr (.inl rfl), forall_mem_of_dropWhile hrest⟩
  -- What follows the digits has a point or not, and after the fraction comes an exponent or not.
  split at hfits
  · next hnil =>
    split at hnil
    · dsimp only at hnil
      refine hpoint ?_
      rw [hnil]
      exact List.forall_mem_nil _
    · dsimp only at hnil
      rw [hnil]
      exact List.forall_mem_nil _
  · next e exponent hcons =>
    split at hcons
    · dsimp only at hcons
      refine hpoint ?_
      rw [hcons]
      exact hexponent hfits
    · dsimp only at hcons
      rw [hcons]
      exact hexponent hfits

/-- A word does not write the float that is not a number. -/
theorem valueOfWord_ne_nan {word : Text} {v : Value} (h : valueOfWord word = .ok v) :
    v ≠ .float .nan := by
  unfold valueOfWord at h
  dsimp only at h
  split at h
  · cases h
    exact nofun
  · split at h
    · cases h
      exact nofun
    · split at h
      · cases h
        exact nofun
      · split at h
        · obtain ⟨n, -, rfl⟩ := Outcome.map_eq_ok.mp h
          exact nofun
        · split at h
          · next hfloat =>
            cases h
            cases hread : readFloat? word with
            | none => exact nofun
            | some x =>
              rintro ⟨⟩
              -- A word that reads so would have the letter, but beside its sign it is a numeral.
              obtain ⟨c, hc, hlower⟩ := exists_mem_of_readFloat?_nan hread
              rcases mem_takeSign hc with rfl | rfl | hbody
              · exact absurd hlower (by decide)
              · exact absurd hlower (by decide)
              · exact (forall_mem_of_isFloatNumeral hfloat c hbody).toLower_ne hlower
          · cases h
            exact nofun

/-- A literal is not the float that is not a number. -/
theorem takeValue_ne_nan {tokens rest : List Token} {v : Value}
    (h : takeValue tokens = .ok (v, rest)) : v ≠ .float .nan := by
  unfold takeValue at h
  split at h
  · cases h
    exact nofun
  · obtain ⟨w, hword, heq⟩ := Outcome.map_eq_ok.mp h
    cases heq
    exact valueOfWord_ne_nan hword
  · cases h
  · cases h

/-- No condition of a list compares with the float that is not a number. -/
def Numbers (conditions : List Condition) : Prop := ∀ c ∈ conditions, c.value ≠ .float .nan

/-- Conditions that are read compare with literals. -/
theorem takeConditions_numbers {bound : Nat} {tokens rest : List Token}
    {conditions : List Condition} (h : takeConditions bound tokens = .ok (conditions, rest)) :
    Numbers conditions := by
  induction bound generalizing tokens rest conditions with
  | zero =>
    cases h
    exact List.forall_mem_nil _
  | succ bound ih =>
    obtain ⟨⟨column, afterColumn⟩, -, h⟩ := Outcome.bind_eq_ok.mp h
    dsimp only at h
    split at h
    · cases h
    · obtain ⟨⟨v, afterValue⟩, hv, h⟩ := Outcome.bind_eq_ok.mp h
      dsimp only at h
      split at h
      · cases h
        exact List.forall_mem_singleton.mpr (takeValue_ne_nan hv)
      · obtain ⟨⟨others, afterOthers⟩, hothers, h⟩ := Outcome.bind_eq_ok.mp h
        cases h
        exact List.forall_mem_cons.mpr ⟨takeValue_ne_nan hv, ih hothers⟩

/-- Conditions after `WHERE` compare with literals. -/
theorem takeWhere_numbers {tokens rest : List Token} {conditions : List Condition}
    (h : takeWhere tokens = .ok (conditions, rest)) : Numbers conditions := by
  obtain ⟨_, -, h⟩ := Outcome.bind_eq_ok.mp h
  exact takeConditions_numbers h

/-- Conditions that may be missing compare with literals. -/
theorem takeWhereIfAny_numbers {tokens rest : List Token} {conditions : List Condition}
    (h : takeWhereIfAny tokens = .ok (conditions, rest)) : Numbers conditions := by
  unfold takeWhereIfAny at h
  split at h
  · exact takeWhere_numbers h
  · cases h
    exact List.forall_mem_nil _

/-- The conditions of a query compare with literals. -/
theorem takeClauses_numbers {bound : Nat} {query read : Select} {tokens rest : List Token}
    (hquery : Numbers query.conditions) (h : takeClauses bound query tokens = .ok (read, rest)) :
    Numbers read.conditions := by
  induction bound generalizing query tokens with
  | zero =>
    cases h
    exact hquery
  | succ bound ih =>
    unfold takeClauses at h
    split at h
    · cases h
      exact hquery
    · split at h
      · obtain ⟨_, -, h⟩ := Outcome.bind_eq_ok.mp h
        refine ih ?_ h
        exact hquery
      · split at h
        · obtain ⟨⟨conditions, _⟩, hwhere, h⟩ := Outcome.bind_eq_ok.mp h
          exact ih (takeWhere_numbers hwhere) h
        · split at h
          · obtain ⟨_, -, h⟩ := Outcome.bind_eq_ok.mp h
            refine ih ?_ h
            exact hquery
          · split at h
            · obtain ⟨_, -, h⟩ := Outcome.bind_eq_ok.mp h
              refine ih ?_ h
              exact hquery
            · cases h
              exact hquery

/-! ## Words and lists -/

/-- No word among some tokens is empty. -/
def Worded (tokens : List Token) : Prop := ∀ token ∈ tokens, token.kind = .word → token.text ≠ []

/-- The tokens of a text have words that are not empty. -/
theorem scanFrom_worded {steps position : Nat} {text : Text} {tokens : List Token}
    (h : scanFrom steps position text = .ok tokens) : Worded tokens := by
  have hend (position : Nat) : Worded [.endOfInput position] := List.forall_mem_singleton.mpr nofun
  induction steps generalizing position text tokens with
  | zero =>
    cases h
    exact hend position
  | succ steps ih =>
    unfold scanFrom at h
    dsimp only at h
    split at h
    · cases h
      exact hend _
    · obtain ⟨⟨token, after⟩, htoken, h⟩ := Outcome.bind_eq_ok.mp h
      obtain ⟨later, hlater, h⟩ := Outcome.bind_eq_ok.mp h
      cases h
      refine List.forall_mem_cons.mpr ⟨?_, ih hlater⟩
      -- Only the last of the four kinds of tokens is a word, and it has a character.
      unfold takeToken at htoken
      split at htoken
      · split at htoken
        · cases htoken
        · cases htoken
          exact nofun
      · split at htoken
        · cases htoken
          exact nofun
        · split at htoken
          · cases htoken
            exact nofun
          · dsimp only at htoken
            split at htoken
            · cases htoken
            · next hword =>
              cases htoken
              intro _ hempty
              exact hword (List.append_eq_nil_iff.mp hempty).2

/-- Whatever a reader reads from tokens without empty words is good, and no empty words follow. -/
def Yields {α : Type} (good : α → Prop) (read : List Token → Except Error (α × List Token)) :
    Prop :=
  ∀ {tokens rest : List Token} {a : α}, Worded tokens → read tokens = .ok (a, rest) →
    good a ∧ Worded rest

/-- Passing over a token leaves no empty words. -/
theorem Worded.advance {tokens : List Token} (h : Worded tokens) : Worded (advance tokens) := by
  unfold Sql.advance
  split
  · exact h
  · split
    · exact h
    · exact fun token htoken => h token (List.mem_cons_of_mem _ htoken)

/-- Passing over a keyword leaves no empty words. -/
theorem Worded.takeKeyword {text : Text} {tokens rest : List Token} (h : Worded tokens)
    (hread : takeKeyword text tokens = .ok rest) : Worded rest := by
  unfold Sql.takeKeyword at hread
  split at hread
  · cases hread
    exact h.advance
  · cases hread

/-- A word that is read is not empty. -/
theorem takeWord_yields (sought : Sought) : Yields (· ≠ []) (takeWord sought) := by
  intro tokens rest word h hread
  unfold takeWord at hread
  split at hread
  · next hkind =>
    cases hread
    refine ⟨?_, h.advance⟩
    cases tokens with
    | nil => cases hkind
    | cons token rest => exact h token List.mem_cons_self hkind
  · cases hread

section

variable {α : Type} {good : α → Prop} {item : List Token → Except Error (α × List Token)}

/-- A list that is read has an item. -/
theorem takeList_ne_nil {tokens rest : List Token} {items : List α}
    (h : takeList item tokens = .ok (items, rest)) : items ≠ [] := by
  obtain ⟨_, -, h⟩ := Outcome.bind_eq_ok.mp h
  obtain ⟨_, -, h⟩ := Outcome.bind_eq_ok.mp h
  cases h
  exact List.cons_ne_nil _ _

variable (hitem : Yields good item)
include hitem

/-- Items after commas are good if each is. -/
theorem takeMore_yields (bound : Nat) : Yields (∀ a ∈ ·, good a) (takeMore item bound) := by
  induction bound with
  | zero =>
    intro tokens rest items h hread
    cases hread
    exact ⟨List.forall_mem_nil _, h⟩
  | succ bound ih =>
    intro tokens rest items h hread
    unfold takeMore at hread
    split at hread
    · obtain ⟨⟨first, afterFirst⟩, hfirst, hread⟩ := Outcome.bind_eq_ok.mp hread
      obtain ⟨⟨others, afterOthers⟩, hothers, hread⟩ := Outcome.bind_eq_ok.mp hread
      cases hread
      obtain ⟨hgood, hafter⟩ := hitem h.advance hfirst
      obtain ⟨hgoods, hrest⟩ := ih hafter hothers
      exact ⟨List.forall_mem_cons.mpr ⟨hgood, hgoods⟩, hrest⟩
    · cases hread
      exact ⟨List.forall_mem_nil _, h⟩

/-- The items of a list between parentheses are good if each is. -/
theorem takeParenthesized_yields : Yields (∀ a ∈ ·, good a) (takeParenthesized item) := by
  intro tokens rest items h hread
  obtain ⟨inside, hinside, hread⟩ := Outcome.bind_eq_ok.mp hread
  obtain ⟨⟨_, after⟩, hlist, hread⟩ := Outcome.bind_eq_ok.mp hread
  obtain ⟨_, hclosing, hread⟩ := Outcome.bind_eq_ok.mp hread
  cases hread
  obtain ⟨⟨first, afterFirst⟩, hfirst, hlist⟩ := Outcome.bind_eq_ok.mp hlist
  obtain ⟨⟨others, afterOthers⟩, hothers, hlist⟩ := Outcome.bind_eq_ok.mp hlist
  cases hlist
  obtain ⟨hgood, hafter⟩ := hitem (h.takeKeyword hinside) hfirst
  obtain ⟨hgoods, hend⟩ := takeMore_yields hitem _ hafter hothers
  exact ⟨List.forall_mem_cons.mpr ⟨hgood, hgoods⟩, hend.takeKeyword hclosing⟩

end

/-! ## Statements -/

/-- A column has a name that is a text and not empty. -/
def Named (column : Column) : Prop := ∃ name, column.name = .text name ∧ name ≠ []

/-- The constraints of a column leave its name. -/
theorem takeConstraints_yields (bound : Nat) {column : Column} {name : ColumnName}
    (hname : column.name = name) :
    Yields (fun read => read.name = name) (takeConstraints bound column) := by
  induction bound generalizing column with
  | zero =>
    intro tokens rest read h hread
    cases hread
    exact ⟨hname, h⟩
  | succ bound ih =>
    intro tokens rest read h hread
    unfold takeConstraints at hread
    dsimp only at hread
    split at hread
    · cases hread
      exact ⟨hname, h⟩
    · split at hread
      · obtain ⟨after, hkeyword, hread⟩ := Outcome.bind_eq_ok.mp hread
        refine ih ?_ (h.advance.takeKeyword hkeyword) hread
        exact hname
      · split at hread
        · refine ih ?_ h.advance hread
          exact hname
        · split at hread
          · obtain ⟨after, hkeyword, hread⟩ := Outcome.bind_eq_ok.mp hread
            refine ih ?_ (h.advance.takeKeyword hkeyword) hread
            exact hname
          · split at hread
            · refine ih ?_ h.advance hread
              exact hname
            · cases hread

/-- A column that is read has a name. -/
theorem takeColumn_yields : Yields Named takeColumn := by
  intro tokens rest column h hread
  obtain ⟨⟨name, afterName⟩, hname, hread⟩ := Outcome.bind_eq_ok.mp hread
  obtain ⟨⟨_, afterType⟩, htype, hread⟩ := Outcome.bind_eq_ok.mp hread
  obtain ⟨afterLength, hlength, hread⟩ := Outcome.bind_eq_ok.mp hread
  obtain ⟨hnonempty, h⟩ := takeWord_yields .columnName h hname
  obtain ⟨-, h⟩ := takeWord_yields .columnType h htype
  have hworded : Worded afterLength := by
    unfold skipLength at hlength
    split at hlength
    · obtain ⟨⟨_, afterNumber⟩, hnumber, hlength⟩ := Outcome.bind_eq_ok.mp hlength
      exact (takeWord_yields .length h.advance hnumber).2.takeKeyword hlength
    · cases hlength
      exact h
  obtain ⟨heq, hrest⟩ := takeConstraints_yields _ rfl hworded hread
  exact ⟨⟨name, heq, hnonempty⟩, hrest⟩

/-- A statement keeps to what every statement that is read does: its conditions compare with
literals, an insertion has rows, and the columns of a new table have names. -/
def Statement.WellRead : Statement → Prop
  | .select query => Numbers query.conditions
  | .insert _ _ rows => rows ≠ []
  | .update _ _ conditions | .delete _ conditions => Numbers conditions
  | .createTable _ columns => ∀ column ∈ columns, Named column
  | .createIndex .. | .dropTable _ => True

section

variable {tokens rest : List Token} {statement : Statement}

/-- The conditions of a query compare with literals. -/
theorem takeSelect_wellRead (h : takeSelect tokens = .ok (statement, rest)) :
    statement.WellRead := by
  obtain ⟨_, -, h⟩ := Outcome.bind_eq_ok.mp h
  obtain ⟨⟨_, _⟩, -, h⟩ := Outcome.bind_eq_ok.mp h
  obtain ⟨_, -, h⟩ := Outcome.bind_eq_ok.mp h
  obtain ⟨⟨_, _⟩, -, h⟩ := Outcome.bind_eq_ok.mp h
  obtain ⟨⟨query, _⟩, hclauses, h⟩ := Outcome.bind_eq_ok.mp h
  cases h
  have hnone : Numbers [] := List.forall_mem_nil _
  exact takeClauses_numbers hnone hclauses

/-- An insertion has rows. -/
theorem takeInsert_wellRead (h : takeInsert tokens = .ok (statement, rest)) :
    statement.WellRead := by
  obtain ⟨_, -, h⟩ := Outcome.bind_eq_ok.mp h
  obtain ⟨_, -, h⟩ := Outcome.bind_eq_ok.mp h
  obtain ⟨⟨_, _⟩, -, h⟩ := Outcome.bind_eq_ok.mp h
  -- The columns are named or not, and the rows come after them in either case.
  dsimp only at h
  split_ifs at h
  all_goals
    obtain ⟨⟨_, _⟩, -, h⟩ := Outcome.bind_eq_ok.mp h
    obtain ⟨_, -, h⟩ := Outcome.bind_eq_ok.mp h
    obtain ⟨⟨rows, _⟩, hrows, h⟩ := Outcome.bind_eq_ok.mp h
    cases h
    exact takeList_ne_nil hrows

/-- The conditions of an update compare with literals. -/
theorem takeUpdate_wellRead (h : takeUpdate tokens = .ok (statement, rest)) :
    statement.WellRead := by
  obtain ⟨_, -, h⟩ := Outcome.bind_eq_ok.mp h
  obtain ⟨⟨_, _⟩, -, h⟩ := Outcome.bind_eq_ok.mp h
  obtain ⟨_, -, h⟩ := Outcome.bind_eq_ok.mp h
  obtain ⟨⟨_, _⟩, -, h⟩ := Outcome.bind_eq_ok.mp h
  obtain ⟨⟨conditions, _⟩, hwhere, h⟩ := Outcome.bind_eq_ok.mp h
  cases h
  exact takeWhereIfAny_numbers hwhere

/-- The conditions of a deletion compare with literals. -/
theorem takeDelete_wellRead (h : takeDelete tokens = .ok (statement, rest)) :
    statement.WellRead := by
  obtain ⟨_, -, h⟩ := Outcome.bind_eq_ok.mp h
  obtain ⟨_, -, h⟩ := Outcome.bind_eq_ok.mp h
  obtain ⟨⟨_, _⟩, -, h⟩ := Outcome.bind_eq_ok.mp h
  obtain ⟨⟨conditions, _⟩, hwhere, h⟩ := Outcome.bind_eq_ok.mp h
  cases h
  exact takeWhereIfAny_numbers hwhere

/-- The columns of a new table have names. -/
theorem takeCreate_wellRead (hworded : Worded tokens)
    (h : takeCreate tokens = .ok (statement, rest)) : statement.WellRead := by
  obtain ⟨afterCreate, hcreate, h⟩ := Outcome.bind_eq_ok.mp h
  split at h
  · obtain ⟨afterTable, htable, h⟩ := Outcome.bind_eq_ok.mp h
    obtain ⟨⟨_, afterName⟩, hname, h⟩ := Outcome.bind_eq_ok.mp h
    obtain ⟨⟨columns, _⟩, hcolumns, h⟩ := Outcome.bind_eq_ok.mp h
    cases h
    have hafter := (hworded.takeKeyword hcreate).takeKeyword htable
    have hnamed := (takeWord_yields .tableName hafter hname).2
    exact (takeParenthesized_yields takeColumn_yields hnamed hcolumns).1
  · split at h
    · obtain ⟨_, -, h⟩ := Outcome.bind_eq_ok.mp h
      obtain ⟨⟨_, _⟩, -, h⟩ := Outcome.bind_eq_ok.mp h
      obtain ⟨_, -, h⟩ := Outcome.bind_eq_ok.mp h
      obtain ⟨⟨_, _⟩, -, h⟩ := Outcome.bind_eq_ok.mp h
      obtain ⟨_, -, h⟩ := Outcome.bind_eq_ok.mp h
      obtain ⟨⟨_, _⟩, -, h⟩ := Outcome.bind_eq_ok.mp h
      obtain ⟨_, -, h⟩ := Outcome.bind_eq_ok.mp h
      cases h
      trivial
    · cases h

/-- The dropping of a table keeps to everything. -/
theorem takeDrop_wellRead (h : takeDrop tokens = .ok (statement, rest)) : statement.WellRead := by
  obtain ⟨_, -, h⟩ := Outcome.bind_eq_ok.mp h
  obtain ⟨_, -, h⟩ := Outcome.bind_eq_ok.mp h
  obtain ⟨⟨_, _⟩, -, h⟩ := Outcome.bind_eq_ok.mp h
  cases h
  trivial

/-- A statement that is read from words keeps to what every such statement does. -/
theorem takeStatement_wellRead (hworded : Worded tokens)
    (h : takeStatement tokens = .ok (statement, rest)) : statement.WellRead := by
  unfold takeStatement at h
  dsimp only at h
  split at h
  · cases h
  · split_ifs at h
    · exact takeSelect_wellRead h
    · exact takeInsert_wellRead h
    · exact takeUpdate_wellRead h
    · exact takeDelete_wellRead h
    · exact takeCreate_wellRead hworded h
    · exact takeDrop_wellRead h
  · cases h
  · cases h

end

/-- The statement of a text keeps to what every such statement does. -/
theorem parse_wellRead {text : Text} {statement : Statement} (h : parse text = .ok statement) :
    statement.WellRead := by
  obtain ⟨tokens, hscan, h⟩ := Outcome.bind_eq_ok.mp h
  obtain ⟨⟨_, rest⟩, hstatement, h⟩ := Outcome.bind_eq_ok.mp h
  obtain ⟨_, -, h⟩ := Outcome.bind_eq_ok.mp h
  cases h
  exact takeStatement_wellRead (scanFrom_worded hscan) hstatement

end Sql

end RelStore
