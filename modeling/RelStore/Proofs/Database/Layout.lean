import RelStore.Proofs.Database.Agreement
import RelStore.Proofs.Table.Layout

/-!
# The layout of a database

Where the rows of tables stand and what shape their indexes have cannot be told from the results of
statements. Two sound databases whose tables are similar one by one (`Database.Similar`) give the
same result to every text and stay similar (`Similar.execute`), and a compaction of a table in one
of them leaves them so (`Similar.compact_left`). So neither compactions nor the order of the trees
of a database are seen in any later result (`layout_invisible`).
-/

namespace RelStore

namespace Database

open Outcome (Agree)

variable {db other : Database}

/-- Two sound databases have similar tables one by one. -/
structure Similar (db other : Database) : Prop where
  /-- The tables are similar one by one. -/
  tables : List.Forall₂ Table.Similar db.tables other.tables
  /-- The first database is sound. -/
  sound : db.Sound
  /-- The second database is sound. -/
  otherSound : other.Sound

/-! ## Statements -/

/-- The row of a list of values is the same for similar tables. -/
theorem rowOfValues_eq {table next : Table} (h : table.Similar next) (columns : List Text)
    (values : List Value) : rowOfValues next columns values = rowOfValues table columns values := by
  unfold rowOfValues
  rw [h.schema]

/-- Rows are appended to similar tables alike until one fails. -/
theorem insertRows_of_similar (columns : List Text) {table next : Table} (h : table.Similar next)
    (tuples : List (List Value)) :
    (insertRows columns next tuples).1 = (insertRows columns table tuples).1 ∧
      Table.Similar (insertRows columns table tuples).2.1 (insertRows columns next tuples).2.1 ∧
      (insertRows columns next tuples).2.2 = (insertRows columns table tuples).2.2 := by
  induction tuples generalizing table next with
  | nil => exact ⟨rfl, h, rfl⟩
  | cons values rest ih =>
    have hone : Agree (fun one two => two.1 = one.1 ∧ Table.Similar one.2 two.2)
        (do table.insert (← rowOfValues table columns values))
        (do next.insert (← rowOfValues next columns values)) :=
      .bind_of_eq (rowOfValues_eq h columns values) fun cells _ => h.insertCells _
    unfold insertRows
    generalize (do table.insert (← rowOfValues table columns values) :
      Except Error (Row × Table)) = outcome at hone ⊢
    generalize (do next.insert (← rowOfValues next columns values) :
      Except Error (Row × Table)) = outcome' at hone ⊢
    cases hone with
    | error e => exact ⟨rfl, h, rfl⟩
    | ok hboth =>
      obtain ⟨hrow, hnext⟩ := hboth
      obtain ⟨hrows, hlast, herror⟩ := ih hnext
      dsimp only
      exact ⟨by rw [hrow, hrows], hlast, herror⟩

section

variable (h : List.Forall₂ Table.Similar db.tables other.tables)
include h

/-- Similar tables are replaced in databases of similar tables. -/
theorem setTable_rel {table next : Table} (hnext : table.Similar next) :
    List.Forall₂ Table.Similar (db.setTable table).tables (other.setTable next).tables := by
  rw [setTable, setTable]
  dsimp only
  rw [List.forall₂_map_left_iff, List.forall₂_map_right_iff]
  refine h.imp fun old old' hold => ?_
  rw [hold.name, hnext.name]
  split
  · exact hnext
  · exact hold

/-- An insertion has the same result in databases of similar tables, which stay so. -/
theorem runInsert_of_similar (name : Text) (columns : List Text) (tuples : List (List Value)) :
    Agree (fun one two => two.1 = one.1 ∧ List.Forall₂ Table.Similar one.2.tables two.2.tables)
      (db.runInsert name columns tuples) (other.runInsert name columns tuples) := by
  refine (agree_table Table.Similar.name h name).bind fun table next hsimilar => ?_
  obtain ⟨hrows, hlast, herror⟩ := insertRows_of_similar columns hsimilar tuples
  rw [hsimilar.schema]
  generalize insertRows columns table tuples = outcome at hrows hlast herror ⊢
  generalize insertRows columns next tuples = outcome' at hrows hlast herror ⊢
  obtain ⟨rows, last, error?⟩ := outcome
  obtain ⟨rows', last', error?'⟩ := outcome'
  dsimp only at hrows hlast herror
  subst hrows herror
  have htables := setTable_rel h hlast
  cases error?' with
  | none => exact .ok ⟨rfl, htables⟩
  | some error =>
    cases rows' with
    | nil => exact .error error
    | cons row rest => exact .ok ⟨rfl, htables⟩

/-- A table is added to databases of similar tables alike. -/
theorem createTable_of_similar (name : Text) (columns : List Column) :
    Agree (fun one two => List.Forall₂ Table.Similar one.2.tables two.2.tables)
      (db.createTable name columns) (other.createTable name columns) := by
  have hfound := table?_rel Table.Similar.name h name
  have htaken : (other.table? name).isSome = (db.table? name).isSome := by
    generalize db.table? name = found at hfound ⊢
    generalize other.table? name = found' at hfound ⊢
    cases hfound <;> rfl
  unfold createTable
  dsimp only
  rw [htaken]
  split
  · exact .error _
  · refine (Table.Similar.create name columns db.order other.order).bind fun one two hnew => ?_
    exact .ok (List.rel_append h (.cons hnew .nil))

/-- A table is dropped from databases of similar tables alike. -/
theorem dropTable_of_similar (name : Text) :
    Agree (fun one two => List.Forall₂ Table.Similar one.tables two.tables)
      (db.dropTable name) (other.dropTable name) := by
  refine (agree_table Table.Similar.name h name).bind fun _ _ _ => .ok ?_
  refine List.rel_filter (fun one two hsimilar => ?_) h
  dsimp only
  rw [hsimilar.name]

/-- A statement that is read from a text has the same result in databases of similar tables, which
stay so, or the same error. -/
theorem run_of_similar {statement : Sql.Statement} (hread : statement.WellRead) :
    Agree (fun one two => two.1 = one.1 ∧ List.Forall₂ Table.Similar one.2.tables two.2.tables)
      (db.run statement) (other.run statement) := by
  have htable (name : Text) := agree_table Table.Similar.name h name
  cases statement with
  | select query =>
    have halike := h.imp fun _ _ hsimilar => hsimilar.alike
    exact .bind_of_eq (runSelect_of_alike halike hread) fun result _ => .ok ⟨rfl, h⟩
  | insert name columns tuples => exact runInsert_of_similar h name columns tuples
  | update name assignments conditions =>
    refine (htable name).bind fun table next hsimilar => ?_
    refine (hsimilar.updateCells _ hread).bind fun one two hboth => ?_
    obtain ⟨hrows, hafter⟩ := hboth
    refine .ok ⟨?_, setTable_rel h hafter⟩
    dsimp only [updated]
    rw [hrows, hafter.schema]
  | delete name conditions =>
    refine (htable name).bind fun table next hsimilar => ?_
    refine (hsimilar.delete hread).bind fun one two hboth => ?_
    obtain ⟨hrows, hafter⟩ := hboth
    refine .ok ⟨?_, setTable_rel h hafter⟩
    dsimp only [deleted]
    rw [hrows, hafter.schema]
  | createTable name columns =>
    exact (createTable_of_similar h name columns).bind fun _ _ hnext => .ok ⟨rfl, hnext⟩
  | createIndex name tableName column unique =>
    refine (htable tableName).bind fun table next hsimilar => ?_
    refine (hsimilar.createIndex name column unique).bind fun one two hafter => ?_
    exact .ok ⟨rfl, setTable_rel h hafter⟩
  | dropTable name =>
    exact (dropTable_of_similar h name).bind fun _ _ hnext => .ok ⟨rfl, hnext⟩

end

/-! ## Steps -/

namespace Similar

/-- Similar databases give the same result to a text, and stay similar. -/
theorem execute (h : db.Similar other) (text : Text) :
    (other.execute text).1 = (db.execute text).1 ∧
      Similar (db.execute text).2 (other.execute text).2 := by
  have hsound {db : Database} (h : db.Sound) : (db.execute text).2.Sound :=
    h.of_change (h.change_step (.execute text))
  have hends : Agree (fun one two => two.1 = one.1 ∧
        List.Forall₂ Table.Similar one.2.tables two.2.tables)
      (do db.run (← Sql.parse text)) (do other.run (← Sql.parse text)) :=
    .bind_of_eq rfl fun _ hparse => run_of_similar h.tables (Sql.parse_wellRead hparse)
  have hboth : (other.execute text).1 = (db.execute text).1 ∧
      List.Forall₂ Table.Similar (db.execute text).2.tables (other.execute text).2.tables := by
    rw [h.sound.execute_eq text, h.otherSound.execute_eq text]
    generalize (do db.run (← Sql.parse text) : Except Error (Result × Database)) = outcome
      at hends ⊢
    generalize (do other.run (← Sql.parse text) : Except Error (Result × Database)) = outcome'
      at hends ⊢
    cases hends with
    | error e => exact ⟨rfl, h.tables⟩
    | ok hboth => exact hboth
  exact ⟨hboth.1, hboth.2, hsound h.sound, hsound h.otherSound⟩

/-- A compaction of a table in one of two similar databases leaves them similar. -/
theorem compact_left (h : db.Similar other) (name : Text) :
    Similar (db.step (.alter name .compact)) other := by
  refine ⟨?_, h.sound.of_change (h.sound.change_step _), h.otherSound⟩
  rw [step]
  cases htable : db.table name with
  | error error =>
    rw [onTable_on_error htable]
    exact h.tables
  | ok table =>
    obtain ⟨hmem, -⟩ := table_eq_ok htable
    have hconsistent := h.sound.consistent htable
    have hname : table.compact.2.name = table.name := congrArg Schema.table hconsistent.compact.2.1
    rw [onTable_on_ok htable, Table.Operation.action, hconsistent.compactM_on, setTable]
    dsimp only
    rw [List.forall₂_map_left_iff]
    have hpairs : List.Forall₂ (fun one two => one ∈ db.tables ∧ Table.Similar one two) db.tables
        other.tables := (List.forall₂_and_left _ _).mpr ⟨fun _ hone => hone, h.tables⟩
    refine hpairs.imp fun one two hpair => ?_
    obtain ⟨hone, hsimilar⟩ := hpair
    split
    · next heq =>
      -- No other table has the name, so this is the one that is compacted.
      have hsame : one = table :=
        List.inj_on_of_nodup_map h.sound.nodup hone hmem ((beq_iff_eq.mp heq).trans hname)
      rw [hsame] at hsimilar
      exact hsimilar.compact_left
    · exact hsimilar

end Similar

/-! ## Runs -/

/-- Something that is done to a database: a text to carry out or a compaction of a table. -/
inductive Move where
  /-- Carry out a statement given as text. -/
  | execute (text : Text)
  /-- Drop the empty positions of a table. -/
  | compact (name : Text)

/-- The texts among some moves. -/
def texts : List Move → List Text
  | [] => []
  | .execute text :: rest => text :: texts rest
  | .compact _ :: rest => texts rest

/-- The results of the texts among some moves. -/
def results (db : Database) : List Move → List Result
  | [] => []
  | .execute text :: rest => (db.execute text).1 :: (db.execute text).2.results rest
  | .compact name :: rest => (db.step (.alter name .compact)).results rest

/-- The results of similar databases are the same as if no compaction came in between on the
first. -/
theorem Similar.results_eq_executed (h : db.Similar other) (moves : List Move) :
    db.results moves = other.results ((texts moves).map .execute) := by
  -- As for tables, a compaction moves the first database only.
  induction moves generalizing db other with
  | nil => rfl
  | cons move rest ih =>
    cases move with
    | compact name => exact ih (h.compact_left name)
    | execute text =>
      obtain ⟨hresult, hnext⟩ := h.execute text
      rw [results, texts, List.map_cons, results, hresult, ih hnext]

/-- Similar databases give the same results to the same texts, whatever compactions come in between
on either. -/
theorem Similar.results_eq (h : db.Similar other) {moves moves' : List Move}
    (hsame : texts moves' = texts moves) : other.results moves' = db.results moves := by
  have hself : other.Similar other := by
    refine ⟨List.forall₂_same.mpr fun table htable => ?_, h.otherSound, h.otherSound⟩
    exact .refl (h.otherSound.reachable table htable).consistent
  calc other.results moves'
    _ = other.results ((texts moves').map .execute) := hself.results_eq_executed moves'
    _ = other.results ((texts moves).map .execute) := by rw [hsame]
    _ = db.results moves := (h.results_eq_executed moves).symm

end Database

/-- The layout of tables is not seen. Two reachable tables of the same contents give the same
replies to the same requests, and two reachable databases whose tables have the same contents one by
one give the same results to the same texts, whatever compactions come in between on either. -/
theorem layout_invisible :
    (∀ table other : Table, table.Reachable → other.Reachable → table.SameContents other →
      ∀ moves moves', Table.requests moves' = Table.requests moves →
        (∀ request ∈ Table.requests moves, request.Numbers) →
        other.replies moves' = table.replies moves) ∧
    (∀ db other : Database, db.Reachable → other.Reachable →
      List.Forall₂ Table.SameContents db.tables other.tables →
      ∀ moves moves', Database.texts moves' = Database.texts moves →
        other.results moves' = db.results moves) := by
  constructor
  · intro table other htable hother hsame moves moves' hmoves hliterals
    have hsimilar : table.Similar other := ⟨hsame, htable.consistent, hother.consistent⟩
    exact hsimilar.replies_eq hmoves hliterals
  · intro db other hdb hother hsame moves moves' hmoves
    have htables : List.Forall₂ Table.Similar db.tables other.tables := by
      obtain ⟨hlength, hpairs⟩ := List.forall₂_iff_zip.mp hsame
      refine List.forall₂_iff_zip.mpr ⟨hlength, fun hmem => ?_⟩
      obtain ⟨hone, htwo⟩ := List.of_mem_zip hmem
      exact ⟨hpairs hmem, (hdb.sound.reachable _ hone).consistent,
        (hother.sound.reachable _ htwo).consistent⟩
    have hsimilar : db.Similar other := ⟨htables, hdb.sound, hother.sound⟩
    exact hsimilar.results_eq hmoves

/-- The table of truth values, whose trees are of the greatest order. -/
def Table.broadFlags : Table where
  schema := flags.schema
  treeOrder := 1024
  rows := []
  indexes := [⟨"idx_flags_on", "on", true, .empty ⟨1024, by decide⟩⟩]
  counters := []

/-- A table with an empty position answers like one of another order without any, and so do
databases of these orders. -/
theorem layout_invisible_flags :
    let row : Mapping ColumnName Cell := [(.text "on", .value (.bool true))]
    let gapped := Table.flags.run [.insert row, .delete [], .insert row]
    let dense := Table.broadFlags.run [.insert row]
    let broad : Database := ⟨Database.defaultName, ⟨1024, by decide⟩, []⟩
    let create : Text := "CREATE TABLE t (a INT UNIQUE)"
    let insert : Text := "INSERT INTO t VALUES (1), (2)"
    let delete : Text := "DELETE FROM t WHERE a = 1"
    let query : Text := "SELECT * FROM t WHERE a = 2"
    (gapped.rows ≠ dense.rows ∧ gapped.SameContents dense ∧
      gapped.replies [.ask (.insert row), .compact, .ask .rowCount] =
        [.error (.ofDuplicate "on" (.bool true)), .ok (.count 1)] ∧
      dense.replies [.ask (.insert row), .ask .rowCount] =
        [.error (.ofDuplicate "on" (.bool true)), .ok (.count 1)]) ∧
    broad.results [.execute create, .execute insert, .execute delete, .execute query] =
      Database.empty.results
        [.execute create, .execute insert, .execute delete, .compact "t", .execute query] := by
  intro row gapped dense broad create insert delete query
  have hbroad : broad.Reachable := ⟨Database.defaultName, 1024, broad, [], rfl, rfl⟩
  have hempty : Database.empty.Reachable := ⟨Database.defaultName, 4, .empty, [], rfl, rfl⟩
  have hsame : gapped.SameContents dense := ⟨rfl, rfl, rfl, rfl, .inr ⟨rfl, rfl⟩⟩
  have hgapped : gapped.replies [.ask (.insert row), .compact, .ask .rowCount] =
      [.error (.ofDuplicate "on" (.bool true)), .ok (.count 1)] := by decide +kernel
  obtain ⟨htables, hdatabases⟩ := layout_invisible
  refine ⟨⟨by decide, hsame, hgapped, ?_⟩, ?_⟩
  · rw [← hgapped]
    refine htables gapped dense (Table.flags_reachable _) ?_ hsame _ _ rfl ?_
    · exact ⟨"flags", [.define (.text "on") .boolean false true false false], 1024,
        Table.broadFlags, _, rfl, rfl⟩
    · simp [Table.requests, Table.Request.Numbers]
  · exact hdatabases .empty broad hempty hbroad .nil _ _ rfl

/-- Where trees do not have the order of one of two tables, its new indexes fail. -/
theorem layout_visible_by_order :
    let table := Table.unindexable
    let other : Table := { table with treeOrder := 4 }
    let moves : List Table.Move := [.ask (.createIndex "i" (.text "on") false)]
    table.Reachable ∧ other.Reachable ∧ other.schema = table.schema ∧
      other.liveRows = table.liveRows ∧ other.counters = table.counters ∧
      other.outlines = table.outlines ∧ (∀ request ∈ Table.requests moves, request.Numbers) ∧
      table.replies moves = [.error (.treeOrder 2)] ∧ other.replies moves = [.ok .done] := by
  intro table other moves
  let columns : List Column := [.define (.text "on") .boolean false false false false]
  have hliterals : ∀ request ∈ Table.requests moves, request.Numbers := by
    intro request hrequest
    rw [List.mem_singleton.mp hrequest]
    trivial
  exact ⟨⟨"flags", columns, 2, table, [], rfl, rfl⟩, ⟨"flags", columns, 4, other, [], rfl, rfl⟩,
    rfl, rfl, rfl, rfl, hliterals, rfl, rfl⟩

end RelStore
