import RelStore.Proofs.Decimals
import RelStore.Proofs.References
import RelStore.Proofs.Sql.Scanning

/-!
# Statements that can be written

The text of a statement says all that there is to it if its names are words, its lists are as long
as the grammar asks for, none of its literals is a float, and none of its numbers has more digits
than are read (`Statement.Legible`). Connectors stand between conditions only, no column is
assigned twice, and the references on the sides of a join split into the parts that they are made
of, with the joined table's column on the right if it is on one side only.

Each lexeme of such a statement is written as one token (`Statement.Legible.scannable`).
-/

namespace RelStore

/-- A literal can be written: it is no float, and an integer is within the limit. -/
def Value.Legible : Value → Prop
  | .int n => RelStore.isWritable n = true
  | .float _ => False
  | .null | .bool _ | .string _ => True

/-- A condition can be written: its column is a word, and its literal can be written. -/
structure Condition.Legible (condition : Condition) : Prop where
  /-- The column is a word. -/
  column : Sql.IsWord condition.column
  /-- The literal can be written. -/
  value : condition.value.Legible

/-- Conditions are joined by connectors: all but the last one say how the next one is joined. -/
def Condition.Chained : List Condition → Prop
  | [] => True
  | [last] => last.connector = none
  | first :: second :: rest => first.connector.isSome = true ∧ Chained (second :: rest)

/-- The definition of a column can be written: the column is named by a word. -/
def Column.Legible (column : Column) : Prop := ∃ name, column.name = .text name ∧ Sql.IsWord name

namespace Sql

/-- The conditions of a statement can be written. -/
structure LegibleConditions (conditions : List Condition) : Prop where
  /-- Each condition can be written. -/
  legible : ∀ condition ∈ conditions, condition.Legible
  /-- They are joined by connectors. -/
  chained : Condition.Chained conditions

/-- One side of a join can be written: its parts are words, and the column has no dot. -/
structure JoinColumn.Legible (side : JoinColumn) : Prop where
  /-- The table is a word if there is one. -/
  table : ∀ table ∈ side.table, IsWord table
  /-- The column is a word. -/
  column : IsWord side.column
  /-- The column has no dot. -/
  plain : Plain side.column

/-- A join can be written: its parts can, and the sides do not change places. -/
structure Join.Legible (join : Join) : Prop where
  /-- The joined table is a word. -/
  table : IsWord join.table
  /-- The left side can be written. -/
  left : join.left.Legible
  /-- The right side can be written. -/
  right : join.right.Legible
  /-- The joined table is not on the left side only. -/
  inOrder : ¬(join.left.table = some join.table ∧ join.right.table ≠ some join.table)

/-- A query can be written. -/
structure Select.Legible (query : Select) : Prop where
  /-- The base table is a word. -/
  table : IsWord query.table
  /-- The columns asked for are one or more words, or all. -/
  columns : ∀ names ∈ query.columns, names ≠ [] ∧ ∀ name ∈ names, IsWord name
  /-- Each join can be written. -/
  joins : ∀ join ∈ query.joins, join.Legible
  /-- The conditions can be written. -/
  conditions : LegibleConditions query.conditions
  /-- The sort keys are words. -/
  sortKeys : ∀ key ∈ query.sortKeys, IsWord key.column
  /-- The limit has no more digits than are read. -/
  limit : ∀ n ∈ query.limit, n < tenTo digitLimit

/-- A statement can be written: its parts can, and its lists are as long as the grammar asks for. -/
def Statement.Legible : Statement → Prop
  | .select query => query.Legible
  | .insert table columns rows =>
    IsWord table ∧ (∀ column ∈ columns, IsWord column) ∧
      rows ≠ [] ∧ ∀ row ∈ rows, row ≠ [] ∧ ∀ v ∈ row, v.Legible
  | .update table assignments conditions =>
    IsWord table ∧ assignments ≠ [] ∧ assignments.names.Nodup ∧
      (∀ assignment ∈ assignments, IsWord assignment.1 ∧ assignment.2.Legible) ∧
      LegibleConditions conditions
  | .delete table conditions => IsWord table ∧ LegibleConditions conditions
  | .createTable table columns =>
    IsWord table ∧ columns ≠ [] ∧ ∀ column ∈ columns, column.Legible
  | .createIndex name table column _ => IsWord name ∧ IsWord table ∧ IsWord column
  | .dropTable table => IsWord table

/-! ## Digits -/

/-- A number is a word. -/
theorem isWord_ofNat (n : Nat) : IsWord (Text.ofNat n) :=
  ⟨ofNat_ne_nil n, fun _ hc => isWordChar_of_isDigit (isDigit_of_mem_ofNat hc)⟩

/-! ## Lexemes of legible statements -/

namespace Lexeme

/-- A word is written as one token. -/
theorem scannable_word {text : Text} (h : IsWord text) : (word text).Scannable := .inl h

/-- A symbol of statements is written as one token. -/
theorem scannable_symbol {text : Text} (h : text ∈ symbols) : (symbol text).Scannable := h

/-- A number with or without a minus sign is written as one token. -/
theorem scannable_ofInt (n : Int) : (word (Text.ofInt n)).Scannable := by
  unfold Text.ofInt
  split
  · exact .inr ⟨Text.ofNat n.natAbs, rfl, ofNat_ne_nil _, fun c hc => isDigit_of_mem_ofNat hc⟩
  · exact scannable_word (isWord_ofNat n.natAbs)

/-- A literal is written as one token. -/
theorem scannable_ofValue {v : Value} (h : v.Legible) : (ofValue v).Scannable := by
  cases v with
  | null => exact scannable_word (by decide)
  | int n => exact scannable_ofInt n
  | float x => exact h.elim
  | bool b => cases b <;> exact scannable_word (by decide)
  | string s => trivial

/-- An operator is written as one token. -/
theorem scannable_ofOperator (operator : Operator) : (ofOperator operator).Scannable := by
  cases operator with
  | like => exact scannable_word (by decide)
  | eq | ne | gt | lt | ge | le => exact scannable_symbol (by decide)

/-- The lexemes of a list are those of its items, and commas. -/
theorem scannable_listed {items : List (List Lexeme)}
    (h : ∀ item ∈ items, ∀ l ∈ item, l.Scannable) : ∀ l ∈ listed items, l.Scannable := by
  induction items with
  | nil => exact List.forall_mem_nil _
  | cons first rest ih =>
    obtain ⟨hfirst, hrest⟩ := List.forall_mem_cons.mp h
    cases rest with
    | nil => exact hfirst
    | cons second rest =>
      rw [listed, List.forall_mem_append, List.forall_mem_cons]
      · exact ⟨hfirst, scannable_symbol (by decide), ih hrest⟩
      · exact List.cons_ne_nil _ _

/-- The lexemes of a list between parentheses are those of the list, and the parentheses. -/
theorem scannable_parenthesized {items : List (List Lexeme)}
    (h : ∀ item ∈ items, ∀ l ∈ item, l.Scannable) : ∀ l ∈ parenthesized items, l.Scannable := by
  rw [parenthesized, List.forall_mem_append, List.forall_mem_cons, List.forall_mem_singleton]
  exact ⟨⟨scannable_symbol (by decide), scannable_listed h⟩, scannable_symbol (by decide)⟩

/-- The lexemes of a condition are written as one token each. -/
theorem scannable_ofCondition {condition : Condition} (h : condition.Legible) :
    ∀ l ∈ ofCondition condition, l.Scannable := by
  have hconnector : ∀ l ∈ ofConnector condition.connector, l.Scannable := by
    rcases condition.connector with _ | _ | _
    · exact List.forall_mem_nil _
    · exact List.forall_mem_singleton.mpr (scannable_word (by decide))
    · exact List.forall_mem_singleton.mpr (scannable_word (by decide))
  simp only [ofCondition, List.forall_mem_append, List.forall_mem_cons]
  exact ⟨⟨scannable_word h.column, scannable_ofOperator _, scannable_ofValue h.value,
    List.forall_mem_nil _⟩, hconnector⟩

/-- The lexemes of conditions are written as one token each. -/
theorem scannable_ofConditions {conditions : List Condition} (h : LegibleConditions conditions) :
    ∀ l ∈ ofConditions conditions, l.Scannable := by
  unfold ofConditions
  split
  · exact List.forall_mem_nil _
  · rw [List.forall_mem_cons, List.forall_mem_flatMap]
    exact ⟨scannable_word (by decide), fun c hc => scannable_ofCondition (h.legible c hc)⟩

end Lexeme

/-- The reference of one side of a join is a word. -/
theorem JoinColumn.Legible.isWord_reference {side : JoinColumn} (h : side.Legible) :
    IsWord side.reference := by
  obtain ⟨table, column⟩ := side
  cases table with
  | none => exact h.column
  | some table =>
    have htable : IsWord table := h.table table rfl
    change IsWord (qualify table column)
    rw [qualify_eq]
    refine ⟨List.append_ne_nil_of_left_ne_nil htable.1 _, ?_⟩
    rw [List.forall_mem_append, List.forall_mem_cons]
    exact ⟨htable.2, by decide, h.column.2⟩

namespace Lexeme

/-- The lexemes of a join are written as one token each. -/
theorem scannable_ofJoin {join : Join} (h : join.Legible) :
    ∀ l ∈ ofJoin join, l.Scannable := by
  have hkind : IsWord join.kind.text := by cases join.kind <;> decide
  simp only [ofJoin, List.forall_mem_cons]
  exact ⟨scannable_word hkind, scannable_word (by decide), scannable_word h.table,
    scannable_word (by decide), scannable_word h.left.isWord_reference,
    scannable_symbol (by decide), scannable_word h.right.isWord_reference, List.forall_mem_nil _⟩

/-- The lexemes of sort keys are written as one token each. -/
theorem scannable_ofSortKeys {keys : List SortKey} (h : ∀ key ∈ keys, IsWord key.column) :
    ∀ l ∈ ofSortKeys keys, l.Scannable := by
  have hitem : ∀ key ∈ keys, ∀ l ∈ [word key.column, word key.direction.text], l.Scannable := by
    intro key hkey
    have hdirection : IsWord key.direction.text := by cases key.direction <;> decide
    simp only [List.forall_mem_cons]
    exact ⟨scannable_word (h key hkey), scannable_word hdirection, List.forall_mem_nil _⟩
  unfold ofSortKeys
  split
  · exact List.forall_mem_nil _
  · simp only [List.forall_mem_append, List.forall_mem_cons]
    exact ⟨⟨scannable_word (by decide), scannable_word (by decide), List.forall_mem_nil _⟩,
      scannable_listed (List.forall_mem_map.mpr hitem)⟩

/-- The lexemes of a limit are written as one token each. -/
theorem scannable_ofLimit (limit : Option Nat) : ∀ l ∈ ofLimit limit, l.Scannable := by
  cases limit with
  | none => exact List.forall_mem_nil _
  | some n =>
    simp only [ofLimit, List.forall_mem_cons]
    exact ⟨scannable_word (by decide), scannable_word (isWord_ofNat n), List.forall_mem_nil _⟩

/-- Words are written as one token each. -/
theorem scannable_words {names : List Text} (h : ∀ name ∈ names, IsWord name) :
    ∀ item ∈ names.map ([word ·]), ∀ l ∈ item, l.Scannable :=
  List.forall_mem_map.mpr fun name hname =>
    List.forall_mem_singleton.mpr (scannable_word (h name hname))

/-- The lexemes of a query are written as one token each. -/
theorem scannable_ofSelect {query : Select} (h : query.Legible) :
    ∀ l ∈ ofSelect query, l.Scannable := by
  have hcolumns : ∀ l ∈ query.columns.elim [symbol "*"]
      (fun names => listed (names.map ([word ·]))), l.Scannable := by
    cases hsome : query.columns with
    | none => exact List.forall_mem_singleton.mpr (scannable_symbol (by decide))
    | some names => exact scannable_listed (scannable_words (h.columns names hsome).2)
  simp only [ofSelect, List.forall_mem_append, List.forall_mem_cons, List.forall_mem_flatMap]
  exact ⟨⟨⟨⟨⟨⟨scannable_word (by decide), hcolumns⟩, scannable_word (by decide),
    scannable_word h.table, List.forall_mem_nil _⟩,
    fun join hjoin => scannable_ofJoin (h.joins join hjoin)⟩,
    scannable_ofConditions h.conditions⟩, scannable_ofSortKeys h.sortKeys⟩, scannable_ofLimit _⟩

/-- The lexemes of the definition of a column are written as one token each. -/
theorem scannable_ofColumn {column : Column} (h : column.Legible) :
    ∀ l ∈ ofColumn column, l.Scannable := by
  obtain ⟨name, hname, hword⟩ := h
  have hshown : IsWord column.name.shown := by
    rw [hname]
    exact hword
  have htype : (ofType column.type).Scannable := by
    cases column.type <;> exact scannable_word (by decide)
  have hflag {flag : Bool} (texts : List Text) (htexts : ∀ text ∈ texts, IsWord text) :
      ∀ l ∈ if flag then texts.map word else [], l.Scannable := by
    split
    · exact List.forall_mem_map.mpr fun text htext => scannable_word (htexts text htext)
    · exact List.forall_mem_nil _
  simp only [ofColumn, List.forall_mem_append, List.forall_mem_cons]
  exact ⟨⟨⟨⟨⟨scannable_word hshown, htype, List.forall_mem_nil _⟩,
    hflag ["PRIMARY", "KEY"] (by decide)⟩, hflag ["UNIQUE"] (by decide)⟩,
    hflag ["NOT", "NULL"] (by decide)⟩, hflag ["AUTO_INCREMENT"] (by decide)⟩

end Lexeme

open Lexeme in
/-- The lexemes of a statement that can be written are written as one token each. -/
theorem Statement.Legible.scannable {statement : Statement} (h : statement.Legible) :
    ∀ l ∈ ofStatement statement, l.Scannable := by
  cases statement with
  | select query => exact scannable_ofSelect h
  | insert table columns rows =>
    obtain ⟨htable, hcolumns, -, hrows⟩ := h
    have hnames : ∀ l ∈ if columns.isEmpty then [] else parenthesized (columns.map ([word ·])),
        l.Scannable := by
      split
      · exact List.forall_mem_nil _
      · exact scannable_parenthesized (scannable_words hcolumns)
    have hvalues : ∀ row ∈ rows, ∀ l ∈ parenthesized (row.map ([ofValue ·])), l.Scannable := by
      intro row hrow
      refine scannable_parenthesized (List.forall_mem_map.mpr fun v hv => ?_)
      exact List.forall_mem_singleton.mpr (scannable_ofValue ((hrows row hrow).2 v hv))
    simp only [ofStatement, List.forall_mem_append, List.forall_mem_cons]
    exact ⟨⟨⟨scannable_word (by decide), scannable_word (by decide), scannable_word htable,
      List.forall_mem_nil _⟩, hnames⟩, scannable_word (by decide),
      scannable_listed (List.forall_mem_map.mpr hvalues)⟩
  | update table assignments conditions =>
    obtain ⟨htable, -, -, hassignments, hconditions⟩ := h
    have hitem : ∀ assignment ∈ assignments, ∀ l ∈ ofAssignment assignment.1 assignment.2,
        l.Scannable := by
      intro assignment hmem
      obtain ⟨hcolumn, hvalue⟩ := hassignments assignment hmem
      simp only [ofAssignment, List.forall_mem_cons]
      exact ⟨scannable_word hcolumn, scannable_symbol (by decide), scannable_ofValue hvalue,
        List.forall_mem_nil _⟩
    simp only [ofStatement, List.forall_mem_append, List.forall_mem_cons]
    exact ⟨⟨⟨scannable_word (by decide), scannable_word htable, scannable_word (by decide),
      List.forall_mem_nil _⟩, scannable_listed (List.forall_mem_map.mpr hitem)⟩,
      scannable_ofConditions hconditions⟩
  | delete table conditions =>
    obtain ⟨htable, hconditions⟩ := h
    simp only [ofStatement, List.forall_mem_append, List.forall_mem_cons]
    exact ⟨⟨scannable_word (by decide), scannable_word (by decide), scannable_word htable,
      List.forall_mem_nil _⟩, scannable_ofConditions hconditions⟩
  | createTable table columns =>
    obtain ⟨htable, -, hcolumns⟩ := h
    simp only [ofStatement, List.forall_mem_append, List.forall_mem_cons]
    have hdefinitions : ∀ item ∈ columns.map ofColumn, ∀ l ∈ item, l.Scannable :=
      List.forall_mem_map.mpr fun column hcolumn => scannable_ofColumn (hcolumns column hcolumn)
    exact ⟨⟨scannable_word (by decide), scannable_word (by decide), scannable_word htable,
      List.forall_mem_nil _⟩, scannable_parenthesized hdefinitions⟩
  | createIndex name table column unique =>
    obtain ⟨hname, htable, hcolumn⟩ := h
    have hunique : ∀ l ∈ if unique then [word "UNIQUE"] else [], l.Scannable := by
      split
      · exact List.forall_mem_singleton.mpr (scannable_word (by decide))
      · exact List.forall_mem_nil _
    simp only [ofStatement, List.forall_mem_append, List.forall_mem_cons]
    exact ⟨⟨⟨scannable_word (by decide), hunique⟩, scannable_word (by decide), scannable_word hname,
      scannable_word (by decide), scannable_word htable, List.forall_mem_nil _⟩,
      scannable_parenthesized (List.forall_mem_singleton.mpr
        (List.forall_mem_singleton.mpr (scannable_word hcolumn)))⟩
  | dropTable table =>
    simp only [ofStatement, List.forall_mem_cons]
    exact ⟨scannable_word (by decide), scannable_word (by decide), scannable_word h,
      List.forall_mem_nil _⟩

end Sql

end RelStore
