import RelStore.Proofs.Outcome
import RelStore.Sql.Parser

/-!
# Places do not matter to the reader

The places of tokens serve errors only. Tokens that differ in nothing else (`Token.Alike`) are read
as the same statement, or to errors that differ in places only (`parseTokens_unplaced`). Each reader
of the grammar is blind to places (`Blind`), and so is what is made of such readers.
-/

namespace RelStore

open Sql (Token)

/-! ## Tokens and errors without their places -/

/-- A token without its place. -/
def Sql.Token.unplaced (token : Token) : Token := { token with position := 0 }

/-- Two tokens differ in their places only. -/
structure Sql.Token.Alike (a b : Token) : Prop where
  /-- They are of the same kind. -/
  kind : a.kind = b.kind
  /-- They are written the same. -/
  text : a.text = b.text
  /-- They have the same value. -/
  value : a.value = b.value

/-- A problem without the place of the token that is found. -/
def SyntaxProblem.unplaced : SyntaxProblem → SyntaxProblem
  | expected sought found => expected sought found.unplaced
  | trailing found => trailing found.unplaced
  | unknownConstraint found => unknownConstraint found.unplaced
  | emptyStatement => emptyStatement
  | strayCharacter c => strayCharacter c
  | unterminatedString => unterminatedString

/-- An error without the places in it. -/
def Error.unplaced : Error → Error
  | malformed problem _ => malformed problem.unplaced 0
  | e => e

/-- An error is of the same kind wherever it is. -/
theorem Error.kind?_unplaced (e : Error) : e.unplaced.kind? = e.kind? := by
  cases e <;> rfl

namespace Sql

/-- Tokens that are alike are the same without their places. -/
theorem Token.Alike.unplaced_eq {a b : Token} (h : a.Alike b) : a.unplaced = b.unplaced := by
  rw [Token.unplaced, Token.unplaced, h.kind, h.text, h.value]

/-- Tokens that are alike are alike in any case of letters. -/
theorem Token.Alike.upper_eq {a b : Token} (h : a.Alike b) : a.upper = b.upper := by
  rw [Token.upper, Token.upper, h.kind, h.text]

/-- Tokens that are alike are the same keywords and symbols. -/
theorem Token.Alike.isAmong_eq {a b : Token} (h : a.Alike b) (texts : List Text) :
    a.isAmong texts = b.isAmong texts := by
  rw [Token.isAmong, Token.isAmong, h.upper_eq, h.kind]

/-! ## Readings that end alike -/

/-- Two readings end alike: with related results, or with errors that differ in places only. -/
def Akin {α β : Type} (related : α → β → Prop) (x : Except Error α) (y : Except Error β) : Prop :=
  Outcome.Agree related (x.mapError Error.unplaced) (y.mapError Error.unplaced)

/-- Two lists of tokens differ in places only. -/
abbrev SameTokens : List Token → List Token → Prop := List.Forall₂ Token.Alike

/-- The same has been read, and the tokens ahead differ in places only. -/
def SameRead {α : Type} (x y : α × List Token) : Prop := x.1 = y.1 ∧ SameTokens x.2 y.2

/-- A reader does not look at the places of tokens. -/
def Blind {α : Type} (read : List Token → Except Error (α × List Token)) : Prop :=
  ∀ {tokens others : List Token}, SameTokens tokens others →
    Akin SameRead (read tokens) (read others)

section

variable {α β γ δ : Type}

/-- Related results are a case of ending alike. -/
theorem Akin.ok {related : α → β → Prop} {a : α} {b : β} (h : related a b) :
    Akin related (.ok a) (.ok b) :=
  Outcome.Agree.ok h

/-- The same error is a case of ending alike. -/
theorem Akin.error {related : α → β → Prop} (e : Error) : Akin related (.error e) (.error e) :=
  Outcome.Agree.error _

/-- The same problem with tokens that are alike is a case of ending alike. -/
theorem Akin.malformed {related : α → β → Prop} (problem : Token → SyntaxProblem)
    (hproblem : ∀ token, (problem token).unplaced = problem token.unplaced) {a b : Token}
    (h : a.Alike b) :
    Akin related (.error (.malformed (problem a) a.position))
      (.error (.malformed (problem b) b.position)) := by
  have heq : (problem a).unplaced = (problem b).unplaced := by
    rw [hproblem, hproblem, h.unplaced_eq]
  change Outcome.Agree related (.error (Error.malformed (problem a).unplaced 0))
    (.error (Error.malformed (problem b).unplaced 0))
  rw [heq]
  exact .error _

/-- A sequence of steps has the errors of its steps. -/
theorem mapError_bind (f : Error → Error) (x : Except Error α) (next : α → Except Error β) :
    (x >>= next).mapError f = x.mapError f >>= fun a => (next a).mapError f := by
  cases x <;> rfl

/-- Readings that end alike go on alike. -/
theorem Akin.bind {related : α → β → Prop} {related' : γ → δ → Prop} {x : Except Error α}
    {y : Except Error β} (h : Akin related x y) {f : α → Except Error γ} {g : β → Except Error δ}
    (hnext : ∀ a b, related a b → Akin related' (f a) (g b)) :
    Akin related' (x >>= f) (y >>= g) := by
  unfold Akin
  rw [mapError_bind, mapError_bind]
  exact Outcome.Agree.bind h hnext

/-- After the same has been read, readings go on alike. -/
theorem Akin.next {related : γ → δ → Prop} {x y : Except Error (α × List Token)}
    (h : Akin SameRead x y) {f : α × List Token → Except Error γ}
    {g : α × List Token → Except Error δ}
    (hnext : ∀ a tokens others, SameTokens tokens others →
      Akin related (f (a, tokens)) (g (a, others))) :
    Akin related (x >>= f) (y >>= g) := by
  refine h.bind ?_
  rintro ⟨a, tokens⟩ ⟨_, others⟩ ⟨rfl, hrest⟩
  exact hnext a tokens others hrest

end

section

variable {tokens others : List Token}

/-! ## The token ahead -/

/-- The tokens ahead are alike. -/
theorem alike_peek (h : SameTokens tokens others) : (peek tokens).Alike (peek others) := by
  cases h with
  | nil => exact ⟨rfl, rfl, rfl⟩
  | cons hfirst _ => exact hfirst

/-- The tokens after the one ahead are alike. -/
theorem sameTokens_advance (h : SameTokens tokens others) :
    SameTokens (advance tokens) (advance others) := by
  cases h with
  | nil => exact .nil
  | cons hfirst hrest =>
    rw [advance, advance, ← hfirst.kind]
    split
    · exact .cons hfirst hrest
    · exact hrest

/-- The same keywords and symbols are ahead. -/
theorem ahead_eq (h : SameTokens tokens others) (texts : List Text) :
    ahead texts tokens = ahead texts others :=
  (alike_peek h).isAmong_eq texts

/-- A statement may end at the same tokens. -/
theorem atEnd_eq (h : SameTokens tokens others) : atEnd tokens = atEnd others := by
  rw [atEnd, atEnd, (alike_peek h).kind, ahead_eq h]

/-- Something else than the token ahead is due in both cases. -/
theorem akin_expected {α β : Type} {related : α → β → Prop} (h : SameTokens tokens others)
    (sought : Sought) : Akin related (expected sought tokens) (expected sought others) :=
  .malformed (.expected sought) (fun _ => rfl) (alike_peek h)

/-- A keyword is passed over in both cases. -/
theorem akin_takeKeyword (h : SameTokens tokens others) (text : Text) :
    Akin SameTokens (takeKeyword text tokens) (takeKeyword text others) := by
  unfold takeKeyword
  rw [ahead_eq h]
  split
  · exact .ok (sameTokens_advance h)
  · exact akin_expected h _

end

/-- Words are read blindly. -/
theorem takeWord_blind (sought : Sought) : Blind (takeWord sought) := by
  intro tokens others h
  unfold takeWord
  rw [(alike_peek h).kind, (alike_peek h).text]
  split
  · exact .ok ⟨rfl, sameTokens_advance h⟩
  · exact akin_expected h _

/-! ## Lists -/

section

variable {α : Type} {item : List Token → Except Error (α × List Token)} (hitem : Blind item)
include hitem

/-- Items after commas are read blindly if each is. -/
theorem takeMore_blind (bound : Nat) : Blind (takeMore item bound) := by
  induction bound with
  | zero => exact fun h => .ok ⟨rfl, h⟩
  | succ bound ih =>
    intro tokens others h
    unfold takeMore
    rw [ahead_eq h]
    split
    · refine (hitem (sameTokens_advance h)).next fun first tokens others h => ?_
      refine (ih h).next fun items tokens others h => ?_
      exact .ok ⟨rfl, h⟩
    · exact .ok ⟨rfl, h⟩

/-- A list is read blindly if each item is. -/
theorem takeList_blind : Blind (takeList item) := by
  intro tokens others h
  refine (hitem h).next fun first tokens others h => ?_
  dsimp only
  rw [h.length_eq]
  refine (takeMore_blind hitem _ h).next fun items tokens others h => ?_
  exact .ok ⟨rfl, h⟩

/-- A list between parentheses is read blindly if each item is. -/
theorem takeParenthesized_blind : Blind (takeParenthesized item) := by
  intro tokens others h
  refine (akin_takeKeyword h _).bind fun tokens others h => ?_
  refine (takeList_blind hitem h).next fun items tokens others h => ?_
  refine (akin_takeKeyword h _).bind fun tokens others h => ?_
  exact .ok ⟨rfl, h⟩

end

/-! ## Conditions -/

/-- What follows a computation that reads no tokens is the same tokens. -/
theorem akin_map {α : Type} {tokens others : List Token} (h : SameTokens tokens others)
    (x : Except Error α) :
    Akin SameRead (x.map fun a => (a, tokens)) (x.map fun a => (a, others)) := by
  cases x with
  | error e => exact .error e
  | ok a => exact .ok ⟨rfl, h⟩

/-- Literals are read blindly. -/
theorem takeValue_blind : Blind takeValue := by
  intro tokens others h
  unfold takeValue
  rw [(alike_peek h).kind, (alike_peek h).text, (alike_peek h).value]
  split
  · exact .ok ⟨rfl, sameTokens_advance h⟩
  · exact akin_map (sameTokens_advance h) _
  · exact akin_expected h _
  · exact akin_expected h _

/-- Tokens that are alike are the same operator. -/
theorem Token.Alike.operatorOf?_eq {a b : Token} (h : a.Alike b) :
    operatorOf? a = operatorOf? b := by
  rw [operatorOf?, operatorOf?, h.kind, h.upper_eq]

/-- Tokens that are alike are the same connector. -/
theorem Token.Alike.connectorOf?_eq {a b : Token} (h : a.Alike b) :
    connectorOf? a = connectorOf? b := by
  rw [connectorOf?, connectorOf?, h.isAmong_eq, h.isAmong_eq]

/-- Conditions are read blindly. -/
theorem takeConditions_blind (bound : Nat) : Blind (takeConditions bound) := by
  induction bound with
  | zero => exact fun h => .ok ⟨rfl, h⟩
  | succ bound ih =>
    intro tokens others h
    refine (takeWord_blind _ h).next fun column tokens others h => ?_
    dsimp only
    rw [(alike_peek h).operatorOf?_eq]
    split
    · exact akin_expected h _
    · refine (takeValue_blind (sameTokens_advance h)).next fun v tokens others h => ?_
      dsimp only
      rw [(alike_peek h).connectorOf?_eq]
      split
      · exact .ok ⟨rfl, h⟩
      · refine (ih (sameTokens_advance h)).next fun conditions tokens others h => ?_
        exact .ok ⟨rfl, h⟩

/-- Conditions after `WHERE` are read blindly. -/
theorem takeWhere_blind : Blind takeWhere := by
  intro tokens others h
  refine (akin_takeKeyword h _).bind fun tokens others h => ?_
  rw [h.length_eq]
  exact takeConditions_blind _ h

/-- Conditions that may be missing are read blindly. -/
theorem takeWhereIfAny_blind : Blind takeWhereIfAny := by
  intro tokens others h
  unfold takeWhereIfAny
  rw [ahead_eq h]
  split
  · exact takeWhere_blind h
  · exact .ok ⟨rfl, h⟩

/-! ## Queries -/

/-- A word that may be missing is passed over in both cases. -/
theorem sameTokens_advanceIf {tokens others : List Token} (h : SameTokens tokens others)
    (texts : List Text) :
    SameTokens (if ahead texts tokens then advance tokens else tokens)
      (if ahead texts others then advance others else others) := by
  rw [ahead_eq h]
  split
  · exact sameTokens_advance h
  · exact h

/-- Joins are read blindly. -/
theorem takeJoin_blind : Blind takeJoin := by
  intro tokens others h
  unfold takeJoin
  rw [(alike_peek h).upper_eq]
  refine (akin_takeKeyword (sameTokens_advanceIf h _) _).bind fun tokens others h => ?_
  refine (takeWord_blind _ h).next fun table tokens others h => ?_
  refine (akin_takeKeyword h _).bind fun tokens others h => ?_
  refine (takeWord_blind _ h).next fun left tokens others h => ?_
  refine (akin_takeKeyword h _).bind fun tokens others h => ?_
  refine (takeWord_blind _ h).next fun right tokens others h => ?_
  exact .ok ⟨rfl, h⟩

/-- Sort keys are read blindly. -/
theorem takeSortKey_blind : Blind takeSortKey := by
  intro tokens others h
  refine (takeWord_blind _ h).next fun column tokens others h => ?_
  dsimp only
  rw [ahead_eq h, (alike_peek h).upper_eq]
  split
  · exact .ok ⟨rfl, sameTokens_advance h⟩
  · exact .ok ⟨rfl, h⟩

/-- Sort keys after `ORDER BY` are read blindly. -/
theorem takeOrderBy_blind : Blind takeOrderBy := by
  intro tokens others h
  refine (akin_takeKeyword h _).bind fun tokens others h => ?_
  refine (akin_takeKeyword h _).bind fun tokens others h => ?_
  exact takeList_blind takeSortKey_blind h

/-- The number after `LIMIT` is read blindly. -/
theorem takeLimit_blind : Blind takeLimit := by
  intro tokens others h
  refine (akin_takeKeyword h _).bind fun tokens others h => ?_
  dsimp only
  rw [(alike_peek h).kind, (alike_peek h).text]
  split
  · exact akin_map (sameTokens_advance h) _
  · exact akin_expected h _

/-- The clauses of a query are read blindly. -/
theorem takeClauses_blind (bound : Nat) (query : Select) : Blind (takeClauses bound query) := by
  induction bound generalizing query with
  | zero => exact fun h => .ok ⟨rfl, h⟩
  | succ bound ih =>
    intro tokens others h
    unfold takeClauses
    rw [atEnd_eq h, ahead_eq h, ahead_eq h, ahead_eq h, ahead_eq h]
    split
    · exact .ok ⟨rfl, h⟩
    · split
      · exact (takeJoin_blind h).next fun join tokens others h => ih _ h
      · split
        · exact (takeWhere_blind h).next fun conditions tokens others h => ih _ h
        · split
          · exact (takeOrderBy_blind h).next fun sortKeys tokens others h => ih _ h
          · split
            · exact (takeLimit_blind h).next fun limit tokens others h => ih _ h
            · exact .ok ⟨rfl, h⟩

/-- The columns of a query are read blindly. -/
theorem takeColumns_blind : Blind takeColumns := by
  intro tokens others h
  unfold takeColumns
  rw [ahead_eq h]
  split
  · exact .ok ⟨rfl, sameTokens_advance h⟩
  · exact (takeList_blind (takeWord_blind _) h).next fun columns tokens others h => .ok ⟨rfl, h⟩

/-- Queries are read blindly. -/
theorem takeSelect_blind : Blind takeSelect := by
  intro tokens others h
  refine (akin_takeKeyword h _).bind fun tokens others h => ?_
  refine (takeColumns_blind h).next fun columns tokens others h => ?_
  refine (akin_takeKeyword h _).bind fun tokens others h => ?_
  refine (takeWord_blind _ h).next fun table tokens others h => ?_
  dsimp only
  rw [h.length_eq]
  refine (takeClauses_blind _ _ h).next fun query tokens others h => ?_
  exact .ok ⟨rfl, h⟩

/-! ## Changes of rows -/

/-- Insertions are read blindly. -/
theorem takeInsert_blind : Blind takeInsert := by
  -- The rows are read in the same way after the names of columns and without them.
  have hrows (table : Text) (columns : List Text) : Blind fun tokens => do
      let tokens ← takeKeyword "VALUES" tokens
      let read ← takeList (takeParenthesized takeValue) tokens
      return (Statement.insert table columns read.1, read.2) := by
    intro tokens others h
    refine (akin_takeKeyword h _).bind fun tokens others h => ?_
    refine (takeList_blind (takeParenthesized_blind takeValue_blind) h).next
      fun rows tokens others h => ?_
    exact .ok ⟨rfl, h⟩
  intro tokens others h
  refine (akin_takeKeyword h _).bind fun tokens others h => ?_
  refine (akin_takeKeyword h _).bind fun tokens others h => ?_
  refine (takeWord_blind _ h).next fun table tokens others h => ?_
  dsimp only
  rw [ahead_eq h]
  split
  · exact (takeParenthesized_blind (takeWord_blind _) h).next
      fun columns tokens others h => hrows table columns h
  · exact hrows table [] h

/-- Assignments are read blindly. -/
theorem takeAssignment_blind : Blind takeAssignment := by
  intro tokens others h
  refine (takeWord_blind _ h).next fun column tokens others h => ?_
  refine (akin_takeKeyword h _).bind fun tokens others h => ?_
  refine (takeValue_blind h).next fun v tokens others h => ?_
  exact .ok ⟨rfl, h⟩

/-- Updates are read blindly. -/
theorem takeUpdate_blind : Blind takeUpdate := by
  intro tokens others h
  refine (akin_takeKeyword h _).bind fun tokens others h => ?_
  refine (takeWord_blind _ h).next fun table tokens others h => ?_
  refine (akin_takeKeyword h _).bind fun tokens others h => ?_
  refine (takeList_blind takeAssignment_blind h).next fun assignments tokens others h => ?_
  refine (takeWhereIfAny_blind h).next fun conditions tokens others h => ?_
  exact .ok ⟨rfl, h⟩

/-- Deletions are read blindly. -/
theorem takeDelete_blind : Blind takeDelete := by
  intro tokens others h
  refine (akin_takeKeyword h _).bind fun tokens others h => ?_
  refine (akin_takeKeyword h _).bind fun tokens others h => ?_
  refine (takeWord_blind _ h).next fun table tokens others h => ?_
  refine (takeWhereIfAny_blind h).next fun conditions tokens others h => ?_
  exact .ok ⟨rfl, h⟩

/-! ## Definitions -/

/-- The constraints of a column are read blindly. -/
theorem takeConstraints_blind (bound : Nat) (column : Column) :
    Blind (takeConstraints bound column) := by
  induction bound generalizing column with
  | zero => exact fun h => .ok ⟨rfl, h⟩
  | succ bound ih =>
    intro tokens others h
    unfold takeConstraints
    dsimp only
    rw [atEnd_eq h, ahead_eq h, (alike_peek h).upper_eq]
    split
    · exact .ok ⟨rfl, h⟩
    · have hafter := sameTokens_advance h
      split
      · exact (akin_takeKeyword hafter _).bind fun tokens others h => ih _ h
      · split
        · exact ih _ hafter
        · split
          · exact (akin_takeKeyword hafter _).bind fun tokens others h => ih _ h
          · split
            · exact ih _ hafter
            · exact .malformed .unknownConstraint (fun _ => rfl) (alike_peek h)

/-- The length of a text type is passed over in both cases. -/
theorem akin_skipLength {tokens others : List Token} (h : SameTokens tokens others)
    (typeName : Text) :
    Akin SameTokens (skipLength typeName tokens) (skipLength typeName others) := by
  unfold skipLength
  rw [ahead_eq h]
  split
  · refine (takeWord_blind _ (sameTokens_advance h)).next fun _ tokens others h => ?_
    exact akin_takeKeyword h _
  · exact .ok h

/-- The definitions of columns are read blindly. -/
theorem takeColumn_blind : Blind takeColumn := by
  intro tokens others h
  refine (takeWord_blind _ h).next fun name tokens others h => ?_
  dsimp only
  rw [(alike_peek h).upper_eq]
  refine (takeWord_blind _ h).next fun _ tokens others h => ?_
  refine (akin_skipLength h _).bind fun tokens others h => ?_
  rw [h.length_eq]
  exact takeConstraints_blind _ _ h

/-- The creation of a table is read blindly. -/
theorem takeCreateTable_blind : Blind takeCreateTable := by
  intro tokens others h
  refine (akin_takeKeyword h _).bind fun tokens others h => ?_
  refine (takeWord_blind _ h).next fun table tokens others h => ?_
  refine (takeParenthesized_blind takeColumn_blind h).next fun columns tokens others h => ?_
  exact .ok ⟨rfl, h⟩

/-- The creation of an index is read blindly. -/
theorem takeCreateIndex_blind : Blind takeCreateIndex := by
  intro tokens others h
  have hunique := sameTokens_advanceIf h ["UNIQUE"]
  unfold takeCreateIndex
  rw [ahead_eq h] at hunique ⊢
  refine (akin_takeKeyword hunique _).bind fun tokens others h => ?_
  refine (takeWord_blind _ h).next fun name tokens others h => ?_
  refine (akin_takeKeyword h _).bind fun tokens others h => ?_
  refine (takeWord_blind _ h).next fun table tokens others h => ?_
  refine (akin_takeKeyword h _).bind fun tokens others h => ?_
  refine (takeWord_blind _ h).next fun column tokens others h => ?_
  refine (akin_takeKeyword h _).bind fun tokens others h => ?_
  exact .ok ⟨rfl, h⟩

/-- Creations are read blindly. -/
theorem takeCreate_blind : Blind takeCreate := by
  intro tokens others h
  refine (akin_takeKeyword h _).bind fun tokens others h => ?_
  rw [ahead_eq h, ahead_eq h]
  split
  · exact takeCreateTable_blind h
  · split
    · exact takeCreateIndex_blind h
    · exact akin_expected h _

/-- Droppings are read blindly. -/
theorem takeDrop_blind : Blind takeDrop := by
  intro tokens others h
  refine (akin_takeKeyword h _).bind fun tokens others h => ?_
  refine (akin_takeKeyword h _).bind fun tokens others h => ?_
  refine (takeWord_blind _ h).next fun table tokens others h => ?_
  exact .ok ⟨rfl, h⟩

/-! ## Statements -/

/-- Statements are read blindly. -/
theorem takeStatement_blind : Blind takeStatement := by
  intro tokens others h
  unfold takeStatement
  dsimp only
  rw [(alike_peek h).kind, (alike_peek h).upper_eq, (alike_peek h).text]
  split
  · exact .malformed (fun _ => .emptyStatement) (fun _ => rfl) (alike_peek h)
  · split_ifs
    · exact takeSelect_blind h
    · exact takeInsert_blind h
    · exact takeUpdate_blind h
    · exact takeDelete_blind h
    · exact takeCreate_blind h
    · exact takeDrop_blind h
    · exact .error _
  · exact .error _
  · exact .error _

/-- The end of a statement is checked in both cases. -/
theorem akin_finish {tokens others : List Token} (h : SameTokens tokens others) :
    Akin Eq (finish tokens) (finish others) := by
  have hafter := sameTokens_advanceIf h [";"]
  unfold finish
  dsimp only
  generalize (if ahead [";"] tokens then advance tokens else tokens) = tokens at hafter ⊢
  generalize (if ahead [";"] others then advance others else others) = others at hafter ⊢
  rw [(alike_peek hafter).kind]
  split
  · exact .ok rfl
  · exact .malformed .trailing (fun _ => rfl) (alike_peek hafter)

/-- Tokens that differ in places only are read as the same statement, or to errors that differ in
places only. -/
theorem parseTokens_unplaced {tokens others : List Token} (h : SameTokens tokens others) :
    (parseTokens tokens).mapError Error.unplaced =
      (parseTokens others).mapError Error.unplaced := by
  have hakin : Akin Eq (parseTokens tokens) (parseTokens others) := by
    refine (takeStatement_blind h).next fun statement tokens others h => ?_
    exact (akin_finish h).bind fun _ _ _ => .ok rfl
  exact Outcome.Agree.eq hakin

end Sql

end RelStore
