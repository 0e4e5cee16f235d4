import RelStore.Proofs.Mapping
import RelStore.Proofs.Sql.Clauses
import RelStore.Proofs.Sql.Definitions

/-!
# Reading statements back

Every statement that can be written is read back from its text as it is, with or without a
semicolon after it (`parse_text`). The text is cut into the tokens of the lexemes that it was
written with, and each kind of statement is read from the tokens of its lexemes.
-/

namespace RelStore.Sql

open Lexeme (word symbol)

/-! ## Rows to be added, changed and removed -/

/-- An insertion is read. -/
theorem reads_takeInsert {table : Text} {columns : List Text} {rows : List (List Value)}
    (hnonempty : rows ≠ []) (hrows : ∀ row ∈ rows, row ≠ [] ∧ ∀ v ∈ row, v.Legible) :
    Reads takeInsert Ending (Lexeme.ofStatement (.insert table columns rows))
      (.insert table columns rows) := by
  intro tokens rest hspelled hrest
  simp only [Lexeme.ofStatement, List.cons_append, List.nil_append, spelled_cons] at hspelled
  obtain ⟨p, _, rfl, q, _, rfl, r, _, rfl, hspelled⟩ := hspelled
  obtain ⟨names, _, rfl, hnames, hspelled⟩ := spelled_append.mp hspelled
  obtain ⟨s, after, rfl, hafter⟩ := spelled_cons.mp hspelled
  have hvalues : takeList (takeParenthesized takeValue) (after ++ rest) = .ok (rows, rest) := by
    refine reads_takeList (fun row hrow => ?_) (fun _ _ => trivial) hnonempty after rest hafter
      ⟨trivial, hrest.ahead rfl⟩
    obtain ⟨hrow, hlegible⟩ := hrows row hrow
    exact reads_takeParenthesized (fun v hv => reads_takeValue (hlegible v hv))
      (fun _ _ => trivial) hrow
  rw [List.cons_append, List.cons_append, List.cons_append, List.append_assoc, List.cons_append]
  cases columns with
  | nil =>
    rw [spelled_nil.mp hnames, List.nil_append]
    change (takeList _ (after ++ rest) >>= _) = _
    rw [hvalues]
    rfl
  | cons column columns =>
    have hcolumns := reads_takeParenthesized (fun name _ => reads_takeWord .columnName name)
      (fun _ _ => trivial) (List.cons_ne_nil column columns) names
      ((word "VALUES").token s :: (after ++ rest)) hnames trivial
    obtain ⟨t, inner, rfl, -⟩ := spelled_cons.mp hnames
    change (takeParenthesized _ ((symbol "(").token t :: inner ++ _) >>= _) = _
    rw [hcolumns]
    change (takeList _ (after ++ rest) >>= _) = _
    rw [hvalues]
    rfl

/-- An assignment is read. -/
theorem reads_takeAssignment {assignment : Text × Value} (h : assignment.2.Legible) :
    Reads takeAssignment Anything (Lexeme.ofAssignment assignment.1 assignment.2) assignment := by
  intro tokens rest hspelled _
  obtain ⟨p, _, rfl, hothers⟩ := spelled_cons.mp hspelled
  obtain ⟨q, after, rfl, hafter⟩ := spelled_cons.mp hothers
  have hread := reads_takeValue h after rest hafter trivial
  change (takeValue (after ++ rest) >>= _) = _
  rw [hread]
  rfl

/-- An update is read. -/
theorem reads_takeUpdate {table : Text} {assignments : Mapping Text Value}
    {conditions : List Condition} (hnonempty : assignments ≠ [])
    (hdistinct : assignments.names.Nodup)
    (hassignments : ∀ assignment ∈ assignments, assignment.2.Legible)
    (hconditions : LegibleConditions conditions) :
    Reads takeUpdate Ending (Lexeme.ofStatement (.update table assignments conditions))
      (.update table assignments conditions) := by
  intro tokens rest hspelled hrest
  simp only [Lexeme.ofStatement, List.cons_append, List.nil_append, spelled_cons] at hspelled
  obtain ⟨p, _, rfl, q, _, rfl, r, _, rfl, hspelled⟩ := hspelled
  obtain ⟨first, others, rfl, hfirst, hothers⟩ := spelled_append.mp hspelled
  have hfollow : Without [","] (others ++ rest) := by
    refine without_spelled hothers hrest rfl ?_
    cases conditions <;> rintro _ ⟨⟩
    rfl
  have hread := reads_takeList (fun a ha => reads_takeAssignment (hassignments a ha))
    (fun _ _ => trivial) hnonempty first (others ++ rest) hfirst ⟨trivial, hfollow⟩
  rw [List.cons_append, List.cons_append, List.cons_append, List.append_assoc]
  change (takeList takeAssignment (first ++ (others ++ rest)) >>= _) = _
  rw [hread]
  change (takeWhereIfAny (others ++ rest) >>= _) = _
  rw [reads_takeWhereIfAny hconditions others rest hothers hrest, Outcome.ok_bind]
  change Except.ok (Statement.update table (.ofList assignments) conditions, rest) = _
  rw [Mapping.ofList_of_nodup hdistinct]

/-- A deletion is read. -/
theorem reads_takeDelete {table : Text} {conditions : List Condition}
    (hconditions : LegibleConditions conditions) :
    Reads takeDelete Ending (Lexeme.ofStatement (.delete table conditions))
      (.delete table conditions) := by
  intro tokens rest hspelled hrest
  simp only [Lexeme.ofStatement, List.cons_append, List.nil_append, spelled_cons] at hspelled
  obtain ⟨p, _, rfl, q, _, rfl, r, after, rfl, hafter⟩ := hspelled
  have hread := reads_takeWhereIfAny hconditions after rest hafter hrest
  change (takeWhereIfAny (after ++ rest) >>= _) = _
  rw [hread]
  rfl

/-! ## Statements -/

/-- A statement is read. -/
theorem reads_takeStatement {statement : Statement} (h : statement.Legible) :
    Reads takeStatement Ending (Lexeme.ofStatement statement) statement := by
  -- Each kind of statement is told by its first keyword.
  cases statement with
  | select query => exact (reads_takeSelect h).of_keyword fun _ _ => rfl
  | insert table columns rows =>
    obtain ⟨-, -, hnonempty, hrows⟩ := h
    exact (reads_takeInsert hnonempty hrows).of_keyword fun _ _ => rfl
  | update table assignments conditions =>
    obtain ⟨-, hnonempty, hdistinct, hassignments, hconditions⟩ := h
    have hvalues : ∀ assignment ∈ assignments, assignment.2.Legible :=
      fun assignment hmem => (hassignments assignment hmem).2
    exact (reads_takeUpdate hnonempty hdistinct hvalues hconditions).of_keyword fun _ _ => rfl
  | delete table conditions => exact (reads_takeDelete h.2).of_keyword fun _ _ => rfl
  | createTable table columns =>
    obtain ⟨-, hnonempty, hcolumns⟩ := h
    exact ((reads_takeCreate_table hnonempty hcolumns).imp fun _ _ => trivial).of_keyword
      fun _ _ => rfl
  | createIndex name table column unique =>
    exact ((reads_takeCreate_index name table column unique).imp fun _ _ => trivial).of_keyword
      fun _ _ => rfl
  | dropTable table =>
    exact ((reads_takeDrop table).imp fun _ _ => trivial).of_keyword fun _ _ => rfl

/-- Nothing follows a statement at the end. -/
theorem Ending.finish {rest : List Token} (h : Ending rest) : finish rest = .ok () := by
  obtain ⟨stop, rfl | ⟨position, rfl⟩⟩ := h <;> rfl

/-- A statement is read from the lexemes that it is written with, with or without a semicolon after
them. -/
theorem parse_setSideBySide {statement : Statement} (h : statement.Legible) {tail : Text}
    (htail : tail = [] ∨ tail = ";") : parse (statement.text ++ tail) = .ok statement := by
  obtain ⟨tokens, rest, hscan, hspelled, hending⟩ := scan_setSideBySide h.scannable htail
  have hread := reads_takeStatement h tokens rest hspelled hending
  rw [parse, Statement.text, hscan, Outcome.ok_bind, parseTokens, hread, Outcome.ok_bind]
  dsimp only
  rw [hending.finish]
  rfl

/-- A statement that can be written is read back from its text as it is, with or without a semicolon
after it. -/
theorem parse_text {statement : Statement} (h : statement.Legible) :
    parse statement.text = .ok statement ∧ parse (statement.text ++ ";") = .ok statement := by
  have hplain := parse_setSideBySide h (.inl rfl)
  rw [List.append_nil] at hplain
  exact ⟨hplain, parse_setSideBySide h (.inr rfl)⟩

/-- A query with every clause, in which names look like keywords and a text has quotes. -/
def crowdedQuery : Select where
  table := "FROM"
  columns := some ["WHERE", "o.total"]
  joins := [⟨.left, "JOIN", ⟨some "FROM", "id"⟩, ⟨some "a.JOIN", "on_id"⟩⟩]
  conditions :=
    [⟨"name", .like, .string "it's \\ \"%\"", some .or⟩, ⟨"total", .ge, .int (-5), none⟩]
  sortKeys := [⟨"LIMIT", .descending⟩]
  limit := some 10

/-- The query can be written. -/
theorem legible_crowdedQuery : crowdedQuery.Legible where
  table := by decide
  columns := by decide
  joins := by
    refine List.forall_mem_singleton.mpr ⟨by decide, ⟨?_, by decide, by decide⟩,
      ⟨?_, by decide, by decide⟩, by decide⟩
    · rintro _ ⟨⟩
      decide
    · rintro _ ⟨⟩
      decide
  conditions := by
    refine ⟨List.forall_mem_cons.mpr ⟨⟨by decide, trivial⟩, List.forall_mem_singleton.mpr
      ⟨by decide, ?_⟩⟩, rfl, rfl⟩
    exact (by decide +kernel : isWritable (-5) = true)
  sortKeys := by decide
  limit := by
    rintro _ ⟨⟩
    exact (by decide +kernel : 10 < tenTo digitLimit)

/-- The text of a query with every clause is read back, with or without a semicolon after it. -/
theorem parse_text_crowdedQuery :
    Statement.Legible (.select crowdedQuery) ∧
      Statement.text (.select crowdedQuery) =
        "SELECT WHERE, o.total FROM FROM LEFT JOIN JOIN ON FROM.id = a.JOIN.on_id " ++
          "WHERE name LIKE 'it\\'s \\\\ \"%\"' OR total >= -5 ORDER BY LIMIT DESC LIMIT 10" ∧
      parse (Statement.text (.select crowdedQuery)) = .ok (.select crowdedQuery) ∧
      parse (Statement.text (.select crowdedQuery) ++ ";") = .ok (.select crowdedQuery) :=
  ⟨legible_crowdedQuery, by cbv, parse_text legible_crowdedQuery⟩

end RelStore.Sql
