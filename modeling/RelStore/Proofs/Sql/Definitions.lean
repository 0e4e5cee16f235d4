import RelStore.Proofs.Sql.Reading

/-!
# Reading definitions

The definition of a column is its name, its type and its constraints. The constraints are read one
by one, each of them setting its flag (`takeConstraints_imposed`); those that a column is written
with set just its flags (`Column.imposed_constraints`). So a table is read with its columns, and an
index likewise.
-/

namespace RelStore

/-- A constraint in the definition of a column. -/
inductive Constraint where
  /-- The column identifies the rows. -/
  | primaryKey
  /-- The column has no value twice. -/
  | unique
  /-- The column refuses NULL. -/
  | notNull
  /-- The column is filled in by counting up. -/
  | autoIncrement

namespace Constraint

/-- The lexemes of a constraint. -/
def lexemes : Constraint → List Sql.Lexeme
  | primaryKey => [.word "PRIMARY", .word "KEY"]
  | unique => [.word "UNIQUE"]
  | notNull => [.word "NOT", .word "NULL"]
  | autoIncrement => [.word "AUTO_INCREMENT"]

/-- The column with a constraint more. -/
def impose (column : Column) : Constraint → Column
  | primaryKey =>
    .define column.name column.type true column.unique column.notNull column.autoIncrement
  | unique =>
    .define column.name column.type column.primaryKey true column.notNull column.autoIncrement
  | notNull =>
    .define column.name column.type column.primaryKey column.unique true column.autoIncrement
  | autoIncrement =>
    .define column.name column.type column.primaryKey column.unique column.notNull true

end Constraint

/-- The constraints of a column in the order in which they are written. -/
def Column.imposed (column : Column) : List Constraint :=
  (if column.primaryKey then [.primaryKey] else []) ++ (if column.unique then [.unique] else []) ++
    (if column.notNull then [.notNull] else []) ++
    (if column.autoIncrement then [.autoIncrement] else [])

/-- A column is what its constraints make of its name and its type. -/
theorem Column.foldl_imposed (column : Column) :
    column.imposed.foldl Constraint.impose
      (.define column.name column.type false false false false) = column := by
  obtain ⟨name, type, primaryKey, unique, notNull, autoIncrement, hunique, hnotNull⟩ := column
  cases primaryKey with
  | false => cases unique <;> cases notNull <;> cases autoIncrement <;> rfl
  | true =>
    cases hunique rfl
    cases hnotNull rfl
    cases autoIncrement <;> rfl

namespace Sql

open Lexeme (word symbol)

/-- The definition of a column is written with its constraints after its name and its type. -/
theorem ofColumn_eq (column : Column) :
    Lexeme.ofColumn column =
      word column.name.shown :: Lexeme.ofType column.type ::
        column.imposed.flatMap Constraint.lexemes := by
  unfold Lexeme.ofColumn Column.imposed
  cases column.primaryKey <;> cases column.unique <;> cases column.notNull <;>
    cases column.autoIncrement <;> rfl

/-- What follows the definition of a column: a comma or a closing parenthesis. -/
def Closing (rest : List Token) : Prop := ahead [",", ")"] rest = true

/-- Constraints are read into a column one after the other, if the bound is not below their
number. -/
theorem takeConstraints_imposed {constraints : List Constraint} {tokens rest : List Token}
    {bound : Nat} (hspelled : Spelled tokens (constraints.flatMap Constraint.lexemes))
    (hrest : Closing rest) (hbound : constraints.length ≤ bound) (column : Column) :
    takeConstraints bound column (tokens ++ rest) =
      .ok (constraints.foldl Constraint.impose column, rest) := by
  induction constraints generalizing tokens bound column with
  | nil =>
    rw [spelled_nil.mp hspelled, List.nil_append]
    cases bound with
    | zero => rfl
    | succ bound => rw [takeConstraints, if_pos (by rw [hrest, Bool.or_true])]; rfl
  | cons constraint constraints ih =>
    obtain ⟨left, rfl⟩ := Nat.exists_eq_add_one_of_ne_zero (Nat.ne_zero_of_lt hbound)
    obtain ⟨first, others, rfl, hfirst, hothers⟩ := spelled_append.mp hspelled
    have hread := ih hothers (Nat.le_of_succ_le_succ hbound) (constraint.impose column)
    rw [List.foldl_cons, ← hread, List.append_assoc]
    cases constraint with
    | primaryKey | notNull =>
      simp only [Constraint.lexemes, spelled_cons, spelled_nil] at hfirst
      obtain ⟨p, _, rfl, q, _, rfl, rfl⟩ := hfirst
      rfl
    | unique | autoIncrement =>
      simp only [Constraint.lexemes, spelled_cons, spelled_nil] at hfirst
      obtain ⟨p, _, rfl, rfl⟩ := hfirst
      rfl

/-- A column is read. -/
theorem reads_takeColumn {column : Column} (h : column.Legible) :
    Reads takeColumn Closing (Lexeme.ofColumn column) column := by
  intro tokens rest hspelled hrest
  obtain ⟨name, hname, -⟩ := h
  rw [ofColumn_eq, hname] at hspelled
  simp only [spelled_cons] at hspelled
  obtain ⟨p, _, rfl, q, after, rfl, hafter⟩ := hspelled
  have hlexemes : ∀ constraint : Constraint, constraint.lexemes ≠ [] := by
    intro constraint
    cases constraint <;> exact List.cons_ne_nil _ _
  have hbound : column.imposed.length ≤ (after ++ rest).length :=
    length_le_of_spelled hlexemes hafter rest
  have hread := takeConstraints_imposed hafter hrest hbound
    (.define column.name column.type false false false false)
  rw [Column.foldl_imposed, hname] at hread
  rw [← hread]
  cases column.type <;> rfl

/-- The creation of a table is read. -/
theorem reads_takeCreate_table {table : Text} {columns : List Column} (hnonempty : columns ≠ [])
    (hcolumns : ∀ column ∈ columns, column.Legible) :
    Reads takeCreate Anything (Lexeme.ofStatement (.createTable table columns))
      (.createTable table columns) := by
  intro tokens rest hspelled hrest
  simp only [Lexeme.ofStatement, List.cons_append, List.nil_append, spelled_cons] at hspelled
  obtain ⟨p, _, rfl, q, _, rfl, r, after, rfl, hafter⟩ := hspelled
  have hcolumn : ∀ column ∈ columns,
      Reads takeColumn Closing (Lexeme.ofColumn column) column :=
    fun column hmem => reads_takeColumn (hcolumns column hmem)
  have hread := reads_takeParenthesized hcolumn (fun _ h => h) hnonempty after rest hafter hrest
  change (takeParenthesized takeColumn (after ++ rest) >>= _) = _
  rw [hread]
  rfl

/-- The creation of an index is read. -/
theorem reads_takeCreate_index (name table column : Text) (unique : Bool) :
    Reads takeCreate Anything (Lexeme.ofStatement (.createIndex name table column unique))
      (.createIndex name table column unique) := by
  intro tokens rest hspelled _
  cases unique with
  | false =>
    change Spelled tokens [word "CREATE", word "INDEX", word name, word "ON", word table,
      symbol "(", word column, symbol ")"] at hspelled
    simp only [spelled_cons, spelled_nil] at hspelled
    obtain ⟨p, _, rfl, q, _, rfl, r, _, rfl, s, _, rfl, t, _, rfl, u, _, rfl, v, _, rfl, w, _, rfl,
      rfl⟩ := hspelled
    rfl
  | true =>
    change Spelled tokens [word "CREATE", word "UNIQUE", word "INDEX", word name, word "ON",
      word table, symbol "(", word column, symbol ")"] at hspelled
    simp only [spelled_cons, spelled_nil] at hspelled
    obtain ⟨p, _, rfl, q, _, rfl, r, _, rfl, s, _, rfl, t, _, rfl, u, _, rfl, v, _, rfl, w, _, rfl,
      x, _, rfl, rfl⟩ := hspelled
    rfl

/-- The dropping of a table is read. -/
theorem reads_takeDrop (table : Text) :
    Reads takeDrop Anything (Lexeme.ofStatement (.dropTable table)) (.dropTable table) := by
  intro tokens rest hspelled _
  simp only [Lexeme.ofStatement, spelled_cons, spelled_nil] at hspelled
  obtain ⟨p, _, rfl, q, _, rfl, r, _, rfl, rfl⟩ := hspelled
  rfl

end Sql

end RelStore
