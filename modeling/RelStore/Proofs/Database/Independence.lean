import RelStore.Proofs.Database.Failure

/-!
# Statements about different tables

A statement that neither makes nor drops a table sees of a database the tables that it names, and
puts at most one table, of one of these names, into its place (`Concerns`). So two such statements
that name different tables can be carried out in either order: each has the same result, whether it
succeeds or not, and the database is the same in the end (`execute_comm`).
-/

namespace RelStore

open Sql (Join Select Statement)

namespace Sql.Statement

/-- The names of the tables that a statement is about. -/
def tableNames : Statement → List Text
  | .select query => query.table :: query.joins.map (·.table)
  | .insert table .. | .update table .. | .delete table _ | .createTable table _
  | .createIndex _ table .. | .dropTable table => [table]

/-- Whether a statement works on tables that there are, and neither makes nor drops one. -/
def KeepsTables : Statement → Prop
  | .createTable .. | .dropTable _ => False
  | .select _ | .insert .. | .update .. | .delete .. | .createIndex .. => True

end Sql.Statement

namespace Database

variable {db other : Database} {name : Text}

/-! ## Tables in their places -/

/-- A table of another name is found as before after a table has been put into its place. -/
theorem table?_setTable_of_ne {table : Table} (h : table.name ≠ name) :
    (db.setTable table).table? name = db.table? name := by
  have hsame (t : Table) : ((if t.name == table.name then table else t).name == name) =
      (t.name == name) := by
    split
    · next heq => rw [beq_iff_eq.mp heq]
    · rfl
  rw [table?, setTable, List.find?_map]
  simp only [Function.comp_def, hsame]
  -- The table that is found has another name, so it is not the one that has been put.
  cases hfound : db.tables.find? fun t => t.name == name with
  | none => rw [table?, hfound, Option.map_none]
  | some found =>
    have hname : found.name = name := by simpa using List.find?_some hfound
    have hne : (found.name == table.name) = false :=
      beq_eq_false_iff_ne.mpr fun heq => h (heq.symm.trans hname)
    rw [table?, hfound, Option.map_some, hne, if_neg Bool.false_ne_true]

/-- Tables of different names are put into their places in either order. -/
theorem setTable_comm {one two : Table} (h : one.name ≠ two.name) :
    (db.setTable one).setTable two = (db.setTable two).setTable one := by
  have hsame (t : Table) : (if (if t.name == one.name then one else t).name == two.name then two
      else if t.name == one.name then one else t) =
      if (if t.name == two.name then two else t).name == one.name then one
      else if t.name == two.name then two else t := by
    by_cases hone : t.name = one.name
    · simp [hone, h]
    · by_cases htwo : t.name = two.name
      · simp [htwo, h.symm]
      · simp [hone, htwo]
  simp only [setTable, List.map_map, Function.comp_def, hsame]

/-- A database with a table in its place, or as it was when there is none. -/
def setIfAny (db : Database) : Option Table → Database
  | some table => db.setTable table
  | none => db

/-- A table is found as before if none of its name is put into its place. -/
theorem table?_setIfAny {changed : Option Table} (h : ∀ table ∈ changed, table.name ≠ name) :
    (db.setIfAny changed).table? name = db.table? name := by
  cases changed with
  | none => rfl
  | some table => exact table?_setTable_of_ne (h table rfl)

/-- Tables of different names, if any, are put into their places in either order. -/
theorem setIfAny_comm {one two : Option Table}
    (h : ∀ table ∈ one, ∀ table' ∈ two, table.name ≠ table'.name) :
    (db.setIfAny one).setIfAny two = (db.setIfAny two).setIfAny one := by
  cases one with
  | none => rfl
  | some table =>
    cases two with
    | none => rfl
    | some table' => exact setTable_comm (h table rfl table' rfl)

/-! ## What a statement is about -/

/-- What is done is about some names: in databases with the same tables under these names it has the
same result, and it puts the same table into its place, one of these names, or none. -/
def Concerns (names : List Text) (act : Database → Result × Database) : Prop :=
  ∀ db other : Database, (∀ name ∈ names, other.table? name = db.table? name) →
    ∃ result changed, (∀ table ∈ changed, table.name ∈ names) ∧
      act db = (result, db.setIfAny changed) ∧ act other = (result, other.setIfAny changed)

section

variable {names names' : List Text} {act act' : Database → Result × Database}

/-- A table of a name that is of no concern is found as before. -/
theorem Concerns.table?_eq (h : Concerns names act) (hname : name ∉ names) :
    (act db).2.table? name = db.table? name := by
  obtain ⟨result, changed, hchanged, hact, -⟩ := h db db fun _ _ => rfl
  rw [hact]
  exact table?_setIfAny fun table htable heq => hname (heq ▸ hchanged table htable)

/-- What is about different names can be done in either order. -/
theorem Concerns.comm (h : Concerns names act) (h' : Concerns names' act')
    (hdisjoint : names.Disjoint names') (db : Database) :
    (act' (act db).2).1 = (act' db).1 ∧ (act (act' db).2).1 = (act db).1 ∧
      (act' (act db).2).2 = (act (act' db).2).2 := by
  -- Each finds its tables as before after the other.
  have hleft : ∀ name ∈ names', (act db).2.table? name = db.table? name :=
    fun name hname => h.table?_eq fun hmem => hdisjoint hmem hname
  have hright : ∀ name ∈ names, (act' db).2.table? name = db.table? name :=
    fun name hname => h'.table?_eq (hdisjoint hname)
  obtain ⟨result, changed, hchanged, hact, hlater⟩ := h db (act' db).2 hright
  obtain ⟨result', changed', hchanged', hact', hlater'⟩ := h' db (act db).2 hleft
  rw [hlater, hlater', hact, hact']
  refine ⟨rfl, rfl, setIfAny_comm fun table htable table' htable' heq => ?_⟩
  exact hdisjoint (hchanged table htable) (heq ▸ hchanged' table' htable')

end

/-- A query gives the same on databases with the same tables under the names in it. -/
theorem runSelect_congr {query : Select}
    (h : ∀ name ∈ (Statement.select query).tableNames, other.table? name = db.table? name) :
    other.runSelect query = db.runSelect query := by
  have htable : ∀ name ∈ (Statement.select query).tableNames, other.table name = db.table name := by
    intro name hname
    rw [Database.table, Database.table, h name hname]
  have hjoins : query.joins.mapM (fun (join : Join) => do return (join, ← other.table join.table)) =
      query.joins.mapM (fun (join : Join) => do return (join, ← db.table join.table)) :=
    Outcome.mapM_congr fun join hjoin =>
      by rw [htable _ (List.mem_cons_of_mem _ (List.mem_map_of_mem hjoin))]
  rw [runSelect, runSelect, htable _ List.mem_cons_self, hjoins]

/-- What changes no table changes only tables with a property. -/
theorem forall_mem_none {property : Table → Prop} :
    ∀ table ∈ (none : Option Table), property table :=
  fun table htable => absurd htable (Option.not_mem_none table)

/-- A statement that carries out an action on the table of a name, which keeps its schema, is about
this name. -/
theorem concerns_table {statement : Statement} {act : Action Table Result}
    (hrun : ∀ db : Database, (runM statement).on db = (onTable name act).on db)
    (hkeeps : act.Keeps Table.schema) : Concerns [name] (·.perform statement) := by
  intro db other h
  have hsame : other.table name = db.table name := by
    rw [Database.table, Database.table, h name List.mem_cons_self]
  dsimp only [perform]
  rw [hrun, hrun]
  cases htable : db.table name with
  | error error =>
    rw [onTable_on_error htable, onTable_on_error (hsame.trans htable)]
    exact ⟨.ofError error, none, forall_mem_none, rfl, rfl⟩
  | ok table =>
    rw [onTable_on_ok htable, onTable_on_ok (hsame.trans htable)]
    -- The table that the action leaves is put into its place, also when the action fails.
    have hname : (act.on table).2.name = name :=
      (congrArg Schema.table (hkeeps table)).trans (table_eq_ok htable).2
    have hchanged : ∀ changed ∈ some (act.on table).2, changed.name ∈ [name] := by
      intro changed hchanged
      cases Option.mem_some_iff.mp hchanged
      exact List.mem_singleton.mpr hname
    cases hact : act.on table with
    | mk outcome next =>
      rw [hact] at hchanged
      cases outcome with
      | error error => exact ⟨.ofError error, some next, hchanged, rfl, rfl⟩
      | ok result => exact ⟨result, some next, hchanged, rfl, rfl⟩

/-- A query is about the names in it. -/
theorem concerns_select (query : Select) :
    Concerns (Statement.select query).tableNames (·.perform (.select query)) := by
  intro db other hsame
  dsimp only
  rw [perform_select, perform_select, runSelect_congr hsame]
  exact ⟨_, none, forall_mem_none, rfl, rfl⟩

/-- The insertion of rows keeps the schema of a table, whether one fails or not. -/
theorem insertRowsM_keeps (columns : List Text) (rows : List (List Value)) :
    (insertRowsM columns rows).Keeps Table.schema := by
  induction rows with
  | nil => exact .pure _
  | cons values rest ih =>
    have hrow : (insertRowM columns values).Keeps Table.schema :=
      .bind .get fun table => .bind (.lift _) fun row => Table.insertCellsM_keeps _
    refine .bind (.observing hrow) fun outcome => ?_
    cases outcome with
    | error error => exact .pure _
    | ok row => exact .bind ih fun _ => .pure _

/-- An insertion keeps the schema of its table, whether it fails or not. -/
theorem insertM_keeps (columns : List Text) (rows : List (List Value)) :
    (insertM columns rows).Keeps Table.schema := by
  refine .bind .get fun table => .bind (insertRowsM_keeps columns rows) fun outcome => ?_
  obtain ⟨inserted, error?⟩ := outcome
  cases error? with
  | none => exact .pure _
  | some error =>
    cases inserted with
    | nil => exact .throw _
    | cons row rest =>
      dsimp only
      split
      · exact .pure _
      · exact .throw _

/-- An update keeps the schema of its table, whether it fails or not. -/
theorem updateM_keeps (assignments : Mapping Text Value) (conditions : List Condition) :
    (updateM assignments conditions).Keeps Table.schema :=
  .bind (Table.updateCellsM_keeps _ _) fun _ => .bind .get fun _ => .pure _

/-- A deletion keeps the schema of its table, whether it fails or not. -/
theorem deleteM_keeps (conditions : List Condition) : (deleteM conditions).Keeps Table.schema :=
  .bind (Table.deleteM_keeps _) fun _ => .bind .get fun _ => .pure _

/-- A new index is about the table that it is made for. -/
theorem concerns_createIndex (index column : Text) (unique : Bool) :
    Concerns [name] (·.perform (.createIndex index name column unique)) := by
  -- The result is the same one on every table.
  let result : Result :=
    .done ("Index \"" ++ index ++ "\" created on " ++ name ++ "(" ++ column ++ ")")
  have hkeeps : (do Table.createIndexM index column unique; return result :
      Action Table Result).Keeps Table.schema :=
    .bind (Table.createIndexM_keeps index column unique) fun _ => .pure _
  refine concerns_table (fun db => ?_) hkeeps
  rw [runM, Action.on_bind]
  cases htable : db.table name with
  | error error => rw [onTable_on_error htable, onTable_on_error htable]
  | ok table =>
    rw [onTable_on_ok htable, onTable_on_ok htable, Action.on_bind]
    cases (Table.createIndexM index column unique).on table with
    | mk outcome next => cases outcome <;> rfl

/-- A statement that keeps the tables in being is about the tables that it names. -/
theorem concerns_perform {statement : Statement} (h : statement.KeepsTables) :
    Concerns statement.tableNames (·.perform statement) := by
  cases statement with
  | select query => exact concerns_select query
  | insert name columns rows => exact concerns_table (fun _ => rfl) (insertM_keeps columns rows)
  | update name assignments conditions =>
    exact concerns_table (fun _ => rfl) (updateM_keeps assignments conditions)
  | delete name conditions => exact concerns_table (fun _ => rfl) (deleteM_keeps conditions)
  | createIndex name tableName column unique => exact concerns_createIndex name column unique
  | createTable name columns => exact h.elim
  | dropTable name => exact h.elim

/-- A statement leaves every table that it does not name. -/
theorem table?_perform_of_notMem {statement : Statement} (h : name ∉ statement.tableNames) :
    (db.perform statement).2.table? name = db.table? name := by
  have hkeeps (hkeeps : statement.KeepsTables) :
      (db.perform statement).2.table? name = db.table? name :=
    (concerns_perform hkeeps).table?_eq h
  cases statement with
  | select _ | insert _ _ _ | update _ _ _ | delete _ _ | createIndex _ _ _ _ =>
    exact hkeeps trivial
  | createTable created columns =>
    have hne : created ≠ name := fun heq => h (heq ▸ List.mem_singleton_self _)
    rw [perform, runM, Action.on_bind, createTableM_on]
    cases hcreate : db.createTable created columns with
    | error error => rfl
    | ok outcome =>
      obtain ⟨table, next⟩ := outcome
      obtain ⟨-, hcreated, rfl⟩ := createTable_eq_ok hcreate
      have hother : (table.name == name) = false := by
        rw [Table.name_of_create hcreated]
        exact beq_eq_false_iff_ne.mpr hne
      change (db.tables ++ [table]).find? _ = _
      rw [List.find?_append, List.find?_cons, hother, List.find?_nil, Option.or_none, table?]
  | dropTable dropped =>
    have hne : dropped ≠ name := fun heq => h (heq ▸ List.mem_singleton_self _)
    rw [perform, runM, Action.on_bind, dropTableM_on]
    cases hdrop : db.dropTable dropped with
    | error error => rfl
    | ok next =>
      obtain rfl := dropTable_eq_ok hdrop
      have hsame : (fun table : Table => decide ((table.name != dropped) = true ∧
          (table.name == name) = true)) = fun table => table.name == name := by
        funext table
        by_cases hname : table.name = name
        · simp [hname, hne.symm]
        · simp [hname]
      change (db.tables.filter _).find? _ = _
      rw [List.find?_filter, hsame, table?]

/-- A statement leaves every table that it does not name. Two statements that name different tables,
and neither make nor drop one, can be carried out in either order: each has the same result, whether
it succeeds or not, and the database is the same in the end. -/
theorem execute_comm (db : Database) :
    (∀ text statement, Sql.parse text = .ok statement → ∀ name ∉ statement.tableNames,
      (db.execute text).2.table? name = db.table? name) ∧
    ∀ text text' statement statement', Sql.parse text = .ok statement →
      Sql.parse text' = .ok statement' → statement.KeepsTables → statement'.KeepsTables →
      statement.tableNames.Disjoint statement'.tableNames →
      ∃ result result' last, db.executeAll [text, text'] = ([result, result'], last) ∧
        db.executeAll [text', text] = ([result', result], last) := by
  constructor
  · intro text statement hparse name hname
    rw [execute_eq_perform hparse]
    exact table?_perform_of_notMem hname
  · intro text text' statement statement' hparse hparse' hkeeps hkeeps' hdisjoint
    obtain ⟨hsecond, hfirst, hlast⟩ :=
      (concerns_perform hkeeps).comm (concerns_perform hkeeps') hdisjoint db
    have hboth {one two : Text} {first second : Statement} (hone : Sql.parse one = .ok first)
        (htwo : Sql.parse two = .ok second) : db.executeAll [one, two] =
          ([(db.perform first).1, ((db.perform first).2.perform second).1],
            ((db.perform first).2.perform second).2) := by
      rw [← execute_eq_perform hone, ← execute_eq_perform htwo]
      rfl
    refine ⟨_, _, _, hboth hparse hparse', ?_⟩
    rw [hboth hparse' hparse, hsecond, hfirst, hlast]

/-- A query that joins the first of the two tables with itself, and an insertion into the second one
that fails after a row. -/
theorem execute_comm_twins :
    let query : Text := "SELECT * FROM a JOIN a ON k = k WHERE id = 1"
    let insertion : Text := "INSERT INTO b VALUES (1, 2), (3, 'x')"
    (twins.execute insertion).1.success = false ∧ (twins.execute insertion).1.rowCount = some 1 ∧
      (twins.execute insertion).2.table? "a" = twins.table? "a" ∧
      ∃ result result' last, twins.executeAll [query, insertion] = ([result, result'], last) ∧
        twins.executeAll [insertion, query] = ([result', result], last) := by
  intro query insertion
  have hquery : Sql.parse query = .ok (.select
      ⟨"a", none, [⟨.inner, "a", ⟨none, "k"⟩, ⟨none, "k"⟩⟩], [⟨"id", .eq, .int 1, none⟩], [],
        none⟩) := rfl
  have hinsertion : Sql.parse insertion =
      .ok (.insert "b" [] [[.int 1, .int 2], [.int 3, .string "x"]]) := rfl
  have hperform := execute_eq_perform hinsertion twins
  have hfail : (twins.execute insertion).1.success = false := by
    rw [hperform]
    rfl
  have hcount : (twins.execute insertion).1.rowCount = some 1 := by
    rw [hperform]
    rfl
  obtain ⟨hleaves, hcomm⟩ := execute_comm twins
  refine ⟨hfail, hcount, hleaves insertion _ hinsertion "a" (by decide), ?_⟩
  have hdisjoint : (["a", "a"] : List Text).Disjoint ["b"] :=
    List.disjoint_left.mpr (by decide)
  exact hcomm query insertion _ _ hquery hinsertion trivial trivial hdisjoint

end Database

end RelStore
