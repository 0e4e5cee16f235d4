import RelStore.Proofs.Database.History
import RelStore.Proofs.Sql.WellRead

/-!
# Statements that fail

Statements are carried out step by step, and what has been changed when one fails stays changed.
All the same a statement that fails leaves a database as it was (`Sound.perform_failed`), unless it
is an insertion of several rows. Such an insertion is as good as the insertions of its rows one
after the other, up to the first one that fails (`ends_insertRows`): the rows before stay, and the
failure reports them, if the error has a kind (`FailsAfter`). The limits of the store have none, so
a failure at one of them leaves rows in the table without reporting them.
-/

namespace RelStore.Database

variable {db : Database} {name : Text} {columns : List Text}

/-! ## Insertions one after the other -/

/-- Inserts one row into the table of a name. -/
def insertOneM (name : Text) (columns : List Text) (values : List Value) : Action Database Row :=
  onTable name (insertRowM columns values)

/-- A table that has taken the place of the one of its name is found under the name. -/
theorem table_setTable {old table : Table} (hold : db.table name = .ok old)
    (hname : table.name = name) : (db.setTable table).table name = .ok table := by
  have hfound : (db.setTable table).table? name = some table := by
    have hpred : ((fun t : Table => t.name == name) ∘ fun t : Table =>
        if t.name == table.name then table else t) = fun t : Table => t.name == name := by
      funext t
      dsimp only [Function.comp]
      split
      · next heq => rw [beq_iff_eq.mp heq]
      · rfl
    obtain ⟨hmem, holdName⟩ := table_eq_ok hold
    have hisSome : (db.tables.find? fun t => t.name == name).isSome = true :=
      List.find?_isSome.mpr ⟨old, hmem, beq_iff_eq.mpr holdName⟩
    obtain ⟨first, hfirst⟩ := Option.isSome_iff_exists.mp hisSome
    have hfirstName : (first.name == table.name) = true := by
      have hfound := List.find?_some hfirst
      rw [hname]
      exact hfound
    rw [table?, setTable]
    dsimp only
    rw [List.find?_map, hpred, hfirst, Option.map_some, if_pos hfirstName]
  rw [Database.table, hfound]

/-- Of two tables of one name that take a place one after the other, the second one stays. -/
theorem setTable_setTable {table other : Table} (h : table.name = other.name) :
    (db.setTable table).setTable other = db.setTable other := by
  have hboth (t : Table) : (if (if t.name == table.name then table else t).name == other.name
      then other else if t.name == table.name then table else t) =
      if t.name == other.name then other else t := by
    rw [← h]
    split <;> simp_all
  simp only [setTable, List.map_map, Function.comp_def, hboth]

/-- A row that is inserted leaves the name of the table. -/
theorem name_of_insert {table next : Table} {cells row : Row}
    (h : table.insert cells = .ok (row, next)) : next.name = table.name := by
  obtain ⟨-, -, _, rfl⟩ := Table.insertCells_eq_ok h
  rfl

/-- A row is inserted into the table of a name, or the failure leaves the database as it was. -/
theorem insertOneM_on {old table : Table} (hold : db.table name = .ok old)
    (hname : table.name = name) (h : table.Consistent) (columns : List Text)
    (values : List Value) :
    (insertOneM name columns values).on (db.setTable table) =
      match (do table.insert (← rowOfValues table columns values) :
        Except Error (Row × Table)) with
      | .ok (row, next) => (.ok row, db.setTable next)
      | .error error => (.error error, db.setTable table) := by
  rw [insertOneM, onTable_on_ok (table_setTable hold hname), insertRowM_on h]
  cases hinsert : (do table.insert (← rowOfValues table columns values) :
      Except Error (Row × Table)) with
  | error error => exact congrArg (Except.error error, ·) (setTable_setTable rfl)
  | ok outcome =>
    obtain ⟨row, next⟩ := outcome
    obtain ⟨cells, -, hcells⟩ := Outcome.bind_eq_ok.mp hinsert
    exact congrArg (Except.ok row, ·) (setTable_setTable (name_of_insert hcells).symm)

/-- How the insertion of rows ends: all are inserted, or those before the first that fails. -/
inductive Ends (db : Database) (name : Text) (columns : List Text) (tuples : List (List Value)) :
    List Row → Database → Option Error → Prop where
  /-- All rows have been inserted. -/
  | all {rows : List Row} {next : Database}
      (heach : (tuples.mapM (insertOneM name columns)).on db = (.ok rows, next)) :
      Ends db name columns tuples rows next none
  /-- The rows before the first that fails have been inserted, and its failure leaves them. -/
  | stopped {before after : List (List Value)} {values : List Value} {rows : List Row}
      {next : Database} {error : Error} (hsplit : tuples = before ++ values :: after)
      (heach : (before.mapM (insertOneM name columns)).on db = (.ok rows, next))
      (hfails : (insertOneM name columns values).on next = (.error error, next)) :
      Ends db name columns tuples rows next (some error)

/-- Rows that are appended to a table until one fails are inserted one after the other. -/
theorem ends_insertRows {old table after : Table} (hold : db.table name = .ok old)
    (hname : table.name = name) (hconsistent : table.Consistent) {tuples : List (List Value)}
    {rows : List Row} {error? : Option Error}
    (h : insertRows columns table tuples = (rows, after, error?)) :
    Ends (db.setTable table) name columns tuples rows (db.setTable after) error? := by
  induction tuples generalizing table rows with
  | nil =>
    cases h
    exact .all rfl
  | cons values rest ih =>
    have hone := insertOneM_on hold hname hconsistent columns values
    rw [insertRows] at h
    split at h
    · next error hfails =>
      cases h
      rw [hfails] at hone
      have hsplit : values :: rest = [] ++ values :: rest := rfl
      exact .stopped hsplit rfl hone
    · next row next hinsert =>
      rw [hinsert] at hone
      obtain ⟨cells, -, hcells⟩ := Outcome.bind_eq_ok.mp hinsert
      have hnext : next.name = name := (name_of_insert hcells).trans hname
      have happly : table.apply (.insert (cells.mapValues .value)) = .ok next :=
        Outcome.map_eq_ok.mpr ⟨_, hcells, rfl⟩
      generalize hrest : insertRows columns next rest = outcome at h
      obtain ⟨later, last, _⟩ := outcome
      cases h
      cases ih hnext (hconsistent.of_apply happly).1 hrest with
      | all heach => exact .all (Action.on_mapM_cons hone heach)
      | stopped hsplit heach hfails =>
        exact .stopped (congrArg (values :: ·) hsplit) (Action.on_mapM_cons hone heach) hfails

/-! ## Failures -/

/-- A query that is answered succeeds. -/
theorem success_of_runSelect {query : Sql.Select} {result : Result}
    (h : db.runSelect query = .ok result) : result.success = true := by
  obtain ⟨_, -, h⟩ := Outcome.bind_eq_ok.mp h
  obtain ⟨_, -, h⟩ := Outcome.bind_eq_ok.mp h
  obtain ⟨_, -, h⟩ := Outcome.bind_eq_ok.mp h
  obtain ⟨_, -, h⟩ := Outcome.bind_eq_ok.mp h
  obtain ⟨_, -, h⟩ := Outcome.bind_eq_ok.mp h
  dsimp only at h
  split at h
  · cases h
    rfl
  · split at h
    · cases h
      rfl
    · cases h
      rfl

/-- A statement that is carried out succeeds, unless it is an insertion. -/
theorem success_of_run {statement : Sql.Statement} {result : Result} {next : Database}
    (hinsert : ∀ name columns rows, statement ≠ .insert name columns rows)
    (h : db.run statement = .ok (result, next)) : result.success = true := by
  cases statement with
  | select query =>
    obtain ⟨answer, hselect, h⟩ := Outcome.bind_eq_ok.mp h
    cases h
    exact success_of_runSelect hselect
  | insert name columns rows => exact absurd rfl (hinsert name columns rows)
  | update name assignments conditions =>
    obtain ⟨_, -, h⟩ := Outcome.bind_eq_ok.mp h
    obtain ⟨_, -, h⟩ := Outcome.bind_eq_ok.mp h
    cases h
    rfl
  | delete name conditions =>
    obtain ⟨_, -, h⟩ := Outcome.bind_eq_ok.mp h
    obtain ⟨_, -, h⟩ := Outcome.bind_eq_ok.mp h
    cases h
    rfl
  | createTable name columns =>
    obtain ⟨_, -, h⟩ := Outcome.bind_eq_ok.mp h
    cases h
    rfl
  | createIndex name table column unique =>
    obtain ⟨_, -, h⟩ := Outcome.bind_eq_ok.mp h
    obtain ⟨_, -, h⟩ := Outcome.bind_eq_ok.mp h
    cases h
    rfl
  | dropTable name =>
    obtain ⟨_, -, h⟩ := Outcome.bind_eq_ok.mp h
    cases h
    rfl

/-- A statement that fails leaves a sound database as it was, unless it is an insertion. -/
theorem Sound.perform_failed (h : db.Sound) {statement : Sql.Statement}
    (hinsert : ∀ name columns rows, statement ≠ .insert name columns rows)
    (hfail : (db.perform statement).1.success = false) : (db.perform statement).2 = db := by
  rw [perform, h.runM_on hinsert] at hfail ⊢
  cases hrun : db.run statement with
  | error error => rfl
  | ok outcome =>
    obtain ⟨result, next⟩ := outcome
    rw [hrun] at hfail
    exact absurd hfail (by simp [Action.settled, success_of_run hinsert hrun])

/-- What a failed insertion of some rows leaves and reports: the rows before the first one that
fails have been inserted one after the other, and they are reported if there are any and the error
has a kind. -/
structure FailsAfter (db : Database) (name : Text) (columns : List Text)
    (tuples : List (List Value)) (result : Result) (next : Database) (inserted : List Row)
    (error : Error) : Prop where
  /-- The rows before the first that fails have been inserted, and nothing else has been done: the
  failure of that one leaves the database to which it comes. -/
  inserted_before : ∃ before values after, tuples = before ++ values :: after ∧
    before.length = inserted.length ∧
    (before.mapM (insertOneM name columns)).on db = (.ok inserted, next) ∧
    (insertOneM name columns values).on next = (.error error, next)
  /-- The rows are reported unless there are none or the error has no kind. -/
  rows_eq : result.rows =
    if inserted.isEmpty || error.kind?.isNone then none else some inserted
  /-- Their number is reported with them. -/
  rowCount_eq : result.rowCount = result.rows.map List.length
  /-- The kind of the error is reported. -/
  kind_eq : result.kind = error.kind?

/-- The rows before an error are reported unless there are none or the error has no kind. -/
theorem report_insertionOutcome (names : List ColumnName) (inserted : List Row) (error : Error) :
    let result : Result := match insertionOutcome names inserted (some error) with
      | .ok result => result
      | .error error => .ofError error
    result.rows = (if inserted.isEmpty || error.kind?.isNone then none else some inserted) ∧
      result.rowCount = result.rows.map List.length ∧ result.kind = error.kind? := by
  cases inserted with
  | nil => exact ⟨rfl, rfl, rfl⟩
  | cons row rest =>
    cases hkind : error.kind? with
    | none => simp [insertionOutcome, Result.ofError, hkind]
    | some kind => simp [insertionOutcome, Result.ofPartialInsert, hkind]

/-- A failed insertion has inserted the rows before the first that fails. -/
theorem Sound.failsAfter (h : db.Sound) {tuples : List (List Value)} (hsome : tuples ≠ [])
    (hfail : (db.perform (.insert name columns tuples)).1.success = false) :
    ∃ inserted error, FailsAfter db name columns tuples
      (db.perform (.insert name columns tuples)).1 (db.perform (.insert name columns tuples)).2
      inserted error := by
  rw [perform, runM] at hfail ⊢
  cases htable : db.table name with
  | error missing =>
    -- Without the table, the first row fails already.
    obtain ⟨values, after, hsplit⟩ := List.exists_cons_of_ne_nil hsome
    rw [onTable_on_error htable]
    exact ⟨[], missing, ⟨[], values, after, hsplit, rfl, rfl, onTable_on_error htable⟩, rfl, rfl,
      rfl⟩
  | ok table =>
    have hconsistent := h.consistent htable
    generalize hrows : insertRows columns table tuples = outcome
    obtain ⟨rows, last, error?⟩ := outcome
    have hends := ends_insertRows htable (table_eq_ok htable).2 hconsistent hrows
    rw [h.setTable_self htable] at hends
    rw [onTable_on_ok htable, insertM_on hconsistent hrows] at hfail ⊢
    cases hends with
    | all heach => cases hfail
    | stopped hsplit heach hfails =>
      next before after values error =>
      have hlength := (Action.length_of_mapM_on heach).symm
      obtain ⟨hreported, hcount, hkind⟩ :=
        report_insertionOutcome table.schema.columnNames rows error
      generalize insertionOutcome table.schema.columnNames rows (some error) = outcome
        at hreported hcount hkind ⊢
      cases outcome with
      | ok result =>
        exact ⟨rows, error, ⟨before, values, after, hsplit, hlength, heach, hfails⟩, hreported,
          hcount, hkind⟩
      | error other =>
        exact ⟨rows, error, ⟨before, values, after, hsplit, hlength, heach, hfails⟩, hreported,
          hcount, hkind⟩

/-- In a reachable database, a text that is not carried out leaves all tables as they were, unless
it is an insertion; of an insertion it leaves the rows before the first one that fails, and reports
these unless the error has no kind. -/
theorem Reachable.failed_execute (h : db.Reachable) {text : Text}
    (hfail : (db.execute text).1.success = false) :
    ((∀ name columns tuples, Sql.parse text ≠ .ok (.insert name columns tuples)) →
      (db.execute text).2 = db) ∧
    ∀ name columns tuples, Sql.parse text = .ok (.insert name columns tuples) →
      ∃ inserted error, FailsAfter db name columns tuples (db.execute text).1
        (db.execute text).2 inserted error := by
  constructor
  · intro hother
    cases hparse : Sql.parse text with
    | error error => rw [execute, hparse]
    | ok statement =>
      rw [execute_eq_perform hparse] at hfail ⊢
      refine h.sound.perform_failed ?_ hfail
      rintro name columns rows rfl
      exact hother name columns rows hparse
  · intro name columns tuples hparse
    rw [execute_eq_perform hparse] at hfail ⊢
    exact h.sound.failsAfter (Sql.parse_wellRead hparse) hfail

/-- A table without rows whose second column is named by a number. -/
def numbered : Table where
  schema := ⟨"t", [.define (.text "a") .int false false false false,
    .define (.int 1) .int false false false false], by decide⟩
  treeOrder := 4
  rows := []
  indexes := []
  counters := []

/-- The database of this table. -/
def oddlyNamed : Database := ⟨defaultName, .default, [numbered]⟩

/-- The table is made with its columns. -/
theorem oddlyNamed_reachable : oddlyNamed.Reachable :=
  ⟨defaultName, 4, empty, [.createTable "t" numbered.schema.columns], rfl, rfl⟩

/-- Two insertions fail at their second row. The error of the first one has a kind, and the row
before is reported. The error of the other one has none, as what is wrong is the name of a column:
the row before is in the table all the same, but it is not reported. -/
theorem failed_execute_second_row :
    let reported : Text := "INSERT INTO a VALUES (2, 3), (4, 'x')"
    let unreported : Text := "INSERT INTO t VALUES (1), (2, 3)"
    ((twins.execute reported).1.success = false ∧ (twins.execute reported).1.rowCount = some 1 ∧
      ∃ inserted error, FailsAfter twins "a" [] [[.int 2, .int 3], [.int 4, .string "x"]]
        (twins.execute reported).1 (twins.execute reported).2 inserted error) ∧
    (oddlyNamed.execute unreported).1.success = false ∧
      (oddlyNamed.execute unreported).1.rowCount = none ∧
      (oddlyNamed.execute unreported).1.rows = none ∧
      oddlyNamed.tables.map Table.liveRows = [[]] ∧
      (oddlyNamed.execute unreported).2.tables.map Table.liveRows =
        [[[(.text "a", .int 1), (.int 1, .null)]]] ∧
      ∃ inserted error, FailsAfter oddlyNamed "t" [] [[.int 1], [.int 2, .int 3]]
        (oddlyNamed.execute unreported).1 (oddlyNamed.execute unreported).2 inserted error := by
  intro reported unreported
  constructor
  · have hparse : Sql.parse reported =
        .ok (.insert "a" [] [[.int 2, .int 3], [.int 4, .string "x"]]) := rfl
    have hperform := execute_eq_perform hparse twins
    have hfail : (twins.execute reported).1.success = false := by
      rw [hperform]
      rfl
    have hall := (twins_reachable.failed_execute hfail).2 _ _ _ hparse
    rw [hperform] at hall hfail ⊢
    exact ⟨hfail, rfl, hall⟩
  · have hparse : Sql.parse unreported = .ok (.insert "t" [] [[.int 1], [.int 2, .int 3]]) := rfl
    have hperform := execute_eq_perform hparse oddlyNamed
    have hfail : (oddlyNamed.execute unreported).1.success = false := by
      rw [hperform]
      rfl
    have hall := (oddlyNamed_reachable.failed_execute hfail).2 _ _ _ hparse
    rw [hperform] at hall hfail ⊢
    exact ⟨hfail, rfl, rfl, rfl, rfl, hall⟩

end RelStore.Database
