import RelStore.Proofs.Sql.Legible

/-!
# Reading what has been written

A reader of a part of a statement gives the part back from the tokens that spell its lexemes,
whatever follows these tokens as long as it does not go on with the part (`Reads`). Lists, lists
between parentheses and chains of conditions are read so when their items are, and the bounds on
their lengths suffice since every item has a token of its own.
-/

namespace RelStore.Sql

open Lexeme (word symbol)

/-! ## Tokens that spell lexemes -/

/-- What spells a lexeme and more is a token of the lexeme and tokens that spell the rest. -/
theorem spelled_cons {tokens : List Token} {lexeme : Lexeme} {lexemes : List Lexeme} :
    Spelled tokens (lexeme :: lexemes) ↔
      ∃ position rest, tokens = lexeme.token position :: rest ∧ Spelled rest lexemes := by
  rw [Spelled, List.forall₂_cons_right_iff]
  constructor
  · rintro ⟨_, rest, ⟨position, rfl⟩, hrest, rfl⟩
    exact ⟨position, rest, rfl, hrest⟩
  · rintro ⟨position, rest, rfl, hrest⟩
    exact ⟨_, rest, ⟨position, rfl⟩, hrest, rfl⟩

/-- Nothing spells nothing. -/
theorem spelled_nil {tokens : List Token} : Spelled tokens [] ↔ tokens = [] :=
  List.forall₂_nil_right_iff

/-- What spells two lists of lexemes, one after the other, is made of what spells the one and what
spells the other. -/
theorem spelled_append {tokens : List Token} {before after : List Lexeme} :
    Spelled tokens (before ++ after) ↔
      ∃ first second, tokens = first ++ second ∧ Spelled first before ∧ Spelled second after := by
  induction before generalizing tokens with
  | nil =>
    simp only [List.nil_append, spelled_nil]
    constructor
    · exact fun h => ⟨[], tokens, rfl, rfl, h⟩
    · rintro ⟨_, second, rfl, rfl, h⟩
      exact h
  | cons lexeme before ih =>
    simp only [List.cons_append, spelled_cons, ih]
    constructor
    · rintro ⟨position, _, rfl, first, second, rfl, hfirst, hsecond⟩
      exact ⟨lexeme.token position :: first, second, rfl, ⟨position, first, rfl, hfirst⟩, hsecond⟩
    · rintro ⟨_, second, rfl, ⟨position, first, rfl, hfirst⟩, hsecond⟩
      exact ⟨position, first ++ second, rfl, first, second, rfl, hfirst, hsecond⟩

/-- There are no more items than tokens that spell them, if each item has a lexeme. -/
theorem length_le_of_spelled {α : Type} {write : α → List Lexeme} (hwrite : ∀ a, write a ≠ [])
    {items : List α} {tokens : List Token} (h : Spelled tokens (items.flatMap write))
    (rest : List Token) : items.length ≤ (tokens ++ rest).length := by
  have hlength : items.length ≤ (items.flatMap write).length := by
    clear h
    induction items with
    | nil => exact Nat.le_refl 0
    | cons a items ih =>
      have hpos := List.length_pos_iff.mpr (hwrite a)
      rw [List.flatMap_cons, List.length_append, List.length_cons]
      omega
  calc items.length ≤ (items.flatMap write).length := hlength
    _ = tokens.length := h.length_eq.symm
    _ ≤ (tokens ++ rest).length := List.length_append ▸ Nat.le_add_right _ _

/-- Whether the token of a lexeme is one of some keywords or symbols. -/
def Lexeme.isAmong (lexeme : Lexeme) (texts : List Text) : Bool := (lexeme.token 0).isAmong texts

/-- What is ahead of tokens that spell lexemes is the first lexeme, or what follows the tokens if
there is none. -/
theorem ahead_spelled {texts : List Text} {tokens rest : List Token} {lexemes : List Lexeme}
    (h : Spelled tokens lexemes) :
    ahead texts (tokens ++ rest) =
      (lexemes.head?.map (·.isAmong texts)).getD (ahead texts rest) := by
  cases lexemes with
  | nil =>
    rw [spelled_nil.mp h]
    rfl
  | cons lexeme lexemes =>
    obtain ⟨position, others, rfl, -⟩ := spelled_cons.mp h
    cases lexeme <;> rfl

/-- What is ahead is among more keywords if it is among fewer. -/
theorem ahead_mono {texts more : List Text} (hsub : texts ⊆ more) {tokens : List Token}
    (h : ahead texts tokens = true) : ahead more tokens = true := by
  unfold ahead Token.isAmong at h ⊢
  split at h
  · exact List.contains_iff_mem.mpr (hsub (List.contains_iff_mem.mp h))
  · exact List.contains_iff_mem.mpr (hsub (List.contains_iff_mem.mp h))
  · cases h
  · cases h

/-- At the end there is no keyword and no symbol but a semicolon. -/
theorem Ending.ahead {rest : List Token} (h : Ending rest) {texts : List Text}
    (hnot : texts.contains ";" = false) : ahead texts rest = false := by
  obtain ⟨stop, rfl | ⟨position, rfl⟩⟩ := h
  · rfl
  · exact hnot

/-- A statement may end at the end. -/
theorem Ending.atEnd {rest : List Token} (h : Ending rest) : atEnd rest = true := by
  obtain ⟨stop, rfl | ⟨position, rfl⟩⟩ := h <;> rfl

/-! ## Readers -/

/-- A reader reads an item from the tokens that spell its lexemes, where what follows them is as it
should be. -/
def Reads {α : Type} (read : List Token → Except Error (α × List Token))
    (follow : List Token → Prop) (written : List Lexeme) (item : α) : Prop :=
  ∀ tokens rest, Spelled tokens written → follow rest → read (tokens ++ rest) = .ok (item, rest)

/-- A reader reads an item as well where less may follow. -/
theorem Reads.imp {α : Type} {read : List Token → Except Error (α × List Token)}
    {follow less : List Token → Prop} {written : List Lexeme} {item : α}
    (h : Reads read follow written item) (hless : ∀ rest, less rest → follow rest) :
    Reads read less written item :=
  fun tokens rest hspelled hrest => h tokens rest hspelled (hless rest hrest)

/-- What is read by a reader is read as well by one that leaves it to the first one when its keyword
is ahead. -/
theorem Reads.of_keyword {α : Type} {read other : List Token → Except Error (α × List Token)}
    {follow : List Token → Prop} {text : Text} {written : List Lexeme} {item : α}
    (h : Reads read follow (word text :: written) item)
    (hother : ∀ position tokens, other ((word text).token position :: tokens) =
      read ((word text).token position :: tokens)) :
    Reads other follow (word text :: written) item := by
  intro tokens rest hspelled hrest
  have hread := h tokens rest hspelled hrest
  obtain ⟨position, after, rfl, -⟩ := spelled_cons.mp hspelled
  rw [List.cons_append] at hread ⊢
  rw [hother, hread]

/-- Anything may follow. -/
def Anything (_ : List Token) : Prop := True

/-- What follows is none of some keywords and symbols. -/
def Without (texts : List Text) (rest : List Token) : Prop := ahead texts rest = false

/-- A word is read as it is, whatever it says. -/
theorem reads_takeWord (sought : Sought) (text : Text) :
    Reads (takeWord sought) Anything [word text] text := by
  intro tokens rest hspelled _
  obtain ⟨position, _, rfl, hnil⟩ := spelled_cons.mp hspelled
  rw [spelled_nil.mp hnil]
  rfl

section

variable {α : Type} {item : List Token → Except Error (α × List Token)}
  {follow : List Token → Prop} {write : α → List Lexeme} {items : List α}

/-- Items with commas between them are the first item, and then each other one with a comma before
it. -/
theorem listed_map_cons (a : α) (items : List α) :
    Lexeme.listed ((a :: items).map write) =
      write a ++ items.flatMap fun a => symbol "," :: write a := by
  induction items generalizing a with
  | nil => exact (List.append_nil _).symm
  | cons b items ih =>
    rw [List.map_cons, List.map_cons, Lexeme.listed, ← List.map_cons, ih, List.flatMap_cons]
    · rfl
    · exact List.cons_ne_nil _ _

/-- Before more items or what follows them, an item can end. -/
theorem follow_commas (hcomma : ∀ rest, ahead [","] rest = true → follow rest)
    {tokens rest : List Token}
    (hspelled : Spelled tokens (items.flatMap fun a => symbol "," :: write a))
    (hrest : follow rest) : follow (tokens ++ rest) := by
  cases items with
  | nil =>
    rw [spelled_nil.mp hspelled]
    exact hrest
  | cons a items =>
    refine hcomma _ ?_
    rw [ahead_spelled hspelled]
    rfl

/-- More items after commas are read, if the bound is not below their number. -/
theorem takeMore_commas (hitem : ∀ a ∈ items, Reads item follow (write a) a)
    (hcomma : ∀ rest, ahead [","] rest = true → follow rest) {tokens rest : List Token}
    (hspelled : Spelled tokens (items.flatMap fun a => symbol "," :: write a))
    (hrest : follow rest) (hnot : Without [","] rest) {bound : Nat}
    (hbound : items.length ≤ bound) :
    takeMore item bound (tokens ++ rest) = .ok (items, rest) := by
  induction items generalizing tokens bound with
  | nil =>
    rw [spelled_nil.mp hspelled, List.nil_append]
    cases bound with
    | zero => rfl
    | succ bound => rw [takeMore, if_neg (ne_true_of_eq_false hnot)]
  | cons a items ih =>
    obtain ⟨ha, hitems⟩ := List.forall_mem_cons.mp hitem
    obtain ⟨left, rfl⟩ := Nat.exists_eq_add_one_of_ne_zero (Nat.ne_zero_of_lt hbound)
    rw [List.flatMap_cons, List.cons_append, spelled_cons] at hspelled
    obtain ⟨position, _, rfl, hspelled⟩ := hspelled
    obtain ⟨first, others, rfl, hfirst, hothers⟩ := spelled_append.mp hspelled
    have hread := ha first (others ++ rest) hfirst (follow_commas hcomma hothers hrest)
    have hahead : ahead [","] ((symbol ",").token position :: (first ++ others) ++ rest) = true :=
      rfl
    rw [takeMore, if_pos hahead]
    change (item (first ++ others ++ rest) >>= _) = _
    rw [List.append_assoc, hread, Outcome.ok_bind]
    dsimp only
    rw [ih hitems hothers (Nat.le_of_succ_le_succ hbound)]
    rfl

/-- One or more items with commas between them are read, if no comma follows them. -/
theorem reads_takeList (hitem : ∀ a ∈ items, Reads item follow (write a) a)
    (hcomma : ∀ rest, ahead [","] rest = true → follow rest) (hnonempty : items ≠ []) :
    Reads (takeList item) (fun rest => follow rest ∧ Without [","] rest)
      (Lexeme.listed (items.map write)) items := by
  intro tokens rest hspelled ⟨hrest, hnot⟩
  obtain ⟨a, items, rfl⟩ := List.exists_cons_of_ne_nil hnonempty
  obtain ⟨ha, hitems⟩ := List.forall_mem_cons.mp hitem
  rw [listed_map_cons] at hspelled
  obtain ⟨first, others, rfl, hfirst, hothers⟩ := spelled_append.mp hspelled
  have hread := ha first (others ++ rest) hfirst (follow_commas hcomma hothers hrest)
  have hbound : items.length ≤ (others ++ rest).length :=
    length_le_of_spelled (fun _ => List.cons_ne_nil _ _) hothers rest
  rw [takeList, List.append_assoc, hread, Outcome.ok_bind]
  dsimp only
  rw [takeMore_commas hitems hcomma hothers hrest hnot hbound]
  rfl

/-- A list between parentheses is read. -/
theorem reads_takeParenthesized (hitem : ∀ a ∈ items, Reads item follow (write a) a)
    (hmark : ∀ rest, ahead [",", ")"] rest = true → follow rest) (hnonempty : items ≠ []) :
    Reads (takeParenthesized item) Anything (Lexeme.parenthesized (items.map write)) items := by
  intro tokens rest hspelled _
  have hcomma : ∀ rest, ahead [","] rest = true → follow rest :=
    fun rest h => hmark rest (ahead_mono (by decide) h)
  rw [Lexeme.parenthesized, List.cons_append, spelled_cons] at hspelled
  obtain ⟨opening, _, rfl, hspelled⟩ := hspelled
  obtain ⟨inside, closing, rfl, hinside, hclosing⟩ := spelled_append.mp hspelled
  obtain ⟨position, _, rfl, hnil⟩ := spelled_cons.mp hclosing
  rw [spelled_nil.mp hnil]
  have hread := reads_takeList hitem hcomma hnonempty inside
    ((symbol ")").token position :: rest) hinside ⟨hmark _ rfl, rfl⟩
  change (takeList item (inside ++ [(symbol ")").token position] ++ rest) >>= _) = _
  rw [List.append_assoc, List.singleton_append, hread, Outcome.ok_bind]
  rfl

end

/-! ## Numbers -/

/-- The digits of a number are a numeral. -/
theorem isNumeral_ofNat (n : Nat) : isNumeral (Text.ofNat n) = true := by
  rw [isNumeral, Bool.and_eq_true, List.all_eq_true]
  refine ⟨?_, fun c hc => isDigit_of_mem_ofNat hc⟩
  rw [Bool.not_eq_true', List.isEmpty_eq_false_iff]
  exact ofNat_ne_nil n

/-- The digits of a number within the limit are read as the number. -/
theorem numeral_ofNat {n : Nat} (h : n < tenTo digitLimit) : numeral (Text.ofNat n) = .ok n := by
  have hlength : (Text.ofNat n).length ≤ digitLimit := (length_ofNat_le_iff (by decide)).mpr h
  rw [numeral, if_pos hlength, ofDigits_ofNat]

/-- A digit is its own upper case. -/
theorem toUpper_of_isDigit {c : CodePoint} (h : c.isDigit = true) : c.toUpper = c := by
  cases c with
  | surrogate offset => rfl
  | char c =>
    have hdigit : c.isDigit = true := h
    simp only [Char.isDigit, Bool.and_eq_true, decide_eq_true_eq] at hdigit
    rw [CodePoint.toUpper]
    unfold Char.toUpper
    rw [dif_neg]
    rintro ⟨hlow, -⟩
    exact absurd (UInt32.le_trans hlow hdigit.2) (by decide)

/-- An integer is its own upper case. -/
theorem map_toUpper_ofInt (n : Int) : (Text.ofInt n).map CodePoint.toUpper = Text.ofInt n := by
  have hupper : ∀ c ∈ Text.ofInt n, c.toUpper = id c := by
    intro c hc
    rcases mem_ofInt hc with rfl | hdigit
    · rfl
    · exact toUpper_of_isDigit hdigit
  rw [List.map_congr_left hupper, List.map_id]

/-- An integer within the limit is read as it is. -/
theorem valueOfWord_ofInt {n : Int} (h : isWritable n = true) :
    valueOfWord (Text.ofInt n) = .ok (.int n) := by
  have hlimit : n.natAbs < tenTo digitLimit := of_decide_eq_true h
  -- A keyword has a letter, and an integer has none.
  have hkeyword {text : Text} (c : CodePoint) (hc : c ∈ text) (hsign : c ≠ .char '-')
      (hdigit : c.isDigit = false) : (Text.ofInt n).map CodePoint.toUpper ≠ text := by
    rintro rfl
    rw [map_toUpper_ofInt] at hc
    rcases mem_ofInt hc with rfl | hnot
    · exact hsign rfl
    · rw [hnot] at hdigit
      cases hdigit
  rw [valueOfWord, takeSign_ofInt]
  dsimp only
  rw [if_neg (hkeyword (.char 'T') (by decide) (by decide) (by decide)),
    if_neg (hkeyword (.char 'F') (by decide) (by decide) (by decide)),
    if_neg (hkeyword (.char 'N') (by decide) (by decide) (by decide)),
    if_pos (isNumeral_ofNat _), numeral_ofNat hlimit]
  change Except.ok (Value.int (signed (decide (n < 0)) n.natAbs)) = _
  rw [signed_natAbs]

/-! ## Literals and conditions -/

/-- A literal is read. -/
theorem reads_takeValue {v : Value} (h : v.Legible) :
    Reads takeValue Anything [Lexeme.ofValue v] v := by
  intro tokens rest hspelled _
  obtain ⟨position, _, rfl, hnil⟩ := spelled_cons.mp hspelled
  rw [spelled_nil.mp hnil]
  cases v with
  | null => rfl
  | int n =>
    change (valueOfWord (Text.ofInt n)).map _ = _
    rw [valueOfWord_ofInt h]
    rfl
  | float x => exact h.elim
  | bool b => cases b <;> rfl
  | string s => rfl

/-- The operator of a condition is read. -/
theorem operatorOf?_token (operator : Operator) (position : Nat) :
    operatorOf? ((Lexeme.ofOperator operator).token position) = some operator := by
  cases operator <;> rfl

/-- Where no connector is ahead, none is read. -/
theorem connectorOf?_of_without {rest : List Token} (h : Without ["AND", "OR"] rest) :
    connectorOf? (peek rest) = none := by
  have hnot {text : Text} (hsub : [text] ⊆ (["AND", "OR"] : List Text)) :
      ¬(peek rest).isAmong [text] = true := by
    intro hahead
    have hmore : ahead ["AND", "OR"] rest = true := ahead_mono hsub hahead
    rw [h] at hmore
    cases hmore
  rw [connectorOf?, if_neg (hnot (by decide)), if_neg (hnot (by decide))]

/-- Of a chain, the first condition is read, and then the others if there is a connector. -/
theorem takeConditions_first {column : Text} {operator : Operator} {v : Value} (hv : v.Legible)
    (bound p q r : Nat) (rest : List Token) :
    takeConditions (bound + 1) ((word column).token p :: (Lexeme.ofOperator operator).token q ::
      (Lexeme.ofValue v).token r :: rest) =
      match connectorOf? (peek rest) with
      | none => .ok ([⟨column, operator, v, none⟩], rest)
      | some connector => do
        let (others, tokens) ← takeConditions bound (advance rest)
        return (⟨column, operator, v, some connector⟩ :: others, tokens) := by
  have hcolumn (rest : List Token) :
      takeWord .columnName ((word column).token p :: rest) = .ok (column, rest) := rfl
  have hoperator (rest : List Token) :
      advance ((Lexeme.ofOperator operator).token q :: rest) = rest := by
    cases operator <;> rfl
  have hvalue : takeValue ((Lexeme.ofValue v).token r :: rest) = .ok (v, rest) :=
    reads_takeValue hv [(Lexeme.ofValue v).token r] rest (.cons ⟨r, rfl⟩ .nil) trivial
  rw [takeConditions, hcolumn, Outcome.ok_bind]
  dsimp only [peek]
  rw [operatorOf?_token]
  dsimp only
  rw [hoperator, hvalue, Outcome.ok_bind]
  rfl

/-- A chain of conditions is read, if the bound is not below their number and no connector follows
them. -/
theorem reads_takeConditions {conditions : List Condition} (hnonempty : conditions ≠ [])
    (hchained : Condition.Chained conditions) (hvalues : ∀ c ∈ conditions, c.value.Legible)
    {bound : Nat} (hbound : conditions.length ≤ bound) :
    Reads (takeConditions bound) (Without ["AND", "OR"])
      (conditions.flatMap Lexeme.ofCondition) conditions := by
  -- The induction is on the conditions, along with the bound.
  induction conditions generalizing bound with
  | nil => exact absurd rfl hnonempty
  | cons condition others ih =>
    intro tokens rest hspelled hrest
    obtain ⟨hvalue, hothersValues⟩ := List.forall_mem_cons.mp hvalues
    obtain ⟨left, rfl⟩ := Nat.exists_eq_add_one_of_ne_zero (Nat.ne_zero_of_lt hbound)
    obtain ⟨column, operator, v, connector⟩ := condition
    simp only [List.flatMap_cons, Lexeme.ofCondition, List.cons_append, List.nil_append,
      spelled_cons] at hspelled
    obtain ⟨p, _, rfl, q, _, rfl, r, after, rfl, hspelled⟩ := hspelled
    rw [List.cons_append, List.cons_append, List.cons_append, takeConditions_first hvalue]
    cases others with
    | nil =>
      have hnone : connector = none := hchained
      subst hnone
      rw [spelled_nil.mp hspelled, List.nil_append, connectorOf?_of_without hrest]
    | cons next others =>
      obtain ⟨hsome, hchained⟩ := hchained
      obtain ⟨joint, rfl⟩ := Option.isSome_iff_exists.mp hsome
      have hread := ih (List.cons_ne_nil _ _) hchained hothersValues
        (Nat.le_of_succ_le_succ hbound)
      cases joint <;>
      · obtain ⟨position, after, rfl, hafter⟩ := spelled_cons.mp hspelled
        change (takeConditions left (after ++ rest) >>= _) = _
        rw [hread after rest hafter hrest]
        rfl

/-- Conditions after `WHERE` are read, if no connector follows them. -/
theorem reads_takeWhere {conditions : List Condition} (hnonempty : conditions ≠ [])
    (h : LegibleConditions conditions) :
    Reads takeWhere (Without ["AND", "OR"]) (Lexeme.ofConditions conditions) conditions := by
  intro tokens rest hspelled hrest
  have hwritten : Lexeme.ofConditions conditions =
      word "WHERE" :: conditions.flatMap Lexeme.ofCondition :=
    if_neg (by rwa [List.isEmpty_iff])
  rw [hwritten, spelled_cons] at hspelled
  obtain ⟨position, after, rfl, hafter⟩ := hspelled
  have hbound : conditions.length ≤ (after ++ rest).length :=
    length_le_of_spelled (fun _ => List.cons_ne_nil _ _) hafter rest
  exact reads_takeConditions hnonempty h.chained (fun c hc => (h.legible c hc).value)
    (Nat.le_succ_of_le hbound) after rest hafter hrest

/-- Conditions at the end of a statement are read if there are any. -/
theorem reads_takeWhereIfAny {conditions : List Condition} (h : LegibleConditions conditions) :
    Reads takeWhereIfAny Ending (Lexeme.ofConditions conditions) conditions := by
  intro tokens rest hspelled hrest
  cases conditions with
  | nil =>
    rw [spelled_nil.mp hspelled, List.nil_append, takeWhereIfAny,
      if_neg (ne_true_of_eq_false (hrest.ahead rfl))]
  | cons first others =>
    have hahead : ahead ["WHERE"] (tokens ++ rest) = true := ahead_spelled hspelled
    rw [takeWhereIfAny, if_pos hahead]
    exact reads_takeWhere (List.cons_ne_nil _ _) h tokens rest hspelled (hrest.ahead rfl)

end RelStore.Sql
