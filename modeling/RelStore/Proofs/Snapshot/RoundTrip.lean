import RelStore.Proofs.Database.Agreement
import RelStore.Proofs.Snapshot.Loading

/-!
# Snapshots and back

A database that statements have made, of columns without dots, comes back from its snapshot with the
same tables, columns and live rows, so that queries have the same results (`Restores`), if no live
row has a NULL in a column that counts up. Such a NULL takes a number when its row is loaded, which
a unique index may refuse; so the live rows come back just when there is none
(`remade_all_liveRows_iff`).
-/

namespace RelStore

/-! ## Snapshots that can be written -/

namespace Json

/-- A list can be written when its items can. -/
theorem itemsWritable_iff {items : List Json} :
    itemsWritable items = true ↔ ∀ item ∈ items, item.isWritable = true := by
  induction items with
  | nil => exact iff_of_true rfl (List.forall_mem_nil _)
  | cons item rest ih => rw [itemsWritable, Bool.and_eq_true_iff, ih, List.forall_mem_cons]

/-- The members of an object can be written when their values can. -/
theorem membersWritable_iff {members : List (Text × Json)} :
    membersWritable members = true ↔ ∀ member ∈ members, member.2.isWritable = true := by
  induction members with
  | nil => exact iff_of_true rfl (List.forall_mem_nil _)
  | cons member rest ih =>
    obtain ⟨name, value⟩ := member
    rw [membersWritable, Bool.and_eq_true_iff, ih, List.forall_mem_cons]

/-- A row can be written when its integers can. -/
theorem isWritable_ofRow {row : Row}
    (h : ∀ name n, (name, Value.int n) ∈ row → RelStore.isWritable n = true) :
    (ofRow row).isWritable = true := by
  rw [ofRow, isWritable, membersWritable_iff, List.forall_mem_map]
  rintro ⟨name, v⟩ hentry
  cases v with
  | int n => exact h name n hentry
  | null | float x | bool b | string s => rfl

end Json

/-- The definition of a column whose name is a text can be written. -/
theorem Snapshot.isWritable_ofColumn {column : Column} {name : Text}
    (hname : column.name = .text name) : (ofColumn column).isWritable = true := by
  rw [ofColumn, hname]
  rfl

/-- A table can be written when the integers of its live rows can and its columns have texts for
names. -/
theorem Snapshot.isWritable_ofTable {table : Table} (hreferable : table.schema.Referable)
    (hrows : ∀ row ∈ table.liveRows, ∀ name n, (name, Value.int n) ∈ row → isWritable n = true) :
    (ofTable table).isWritable = true := by
  have hcolumns : Json.itemsWritable (table.schema.columns.map ofColumn) = true := by
    rw [Json.itemsWritable_iff, List.forall_mem_map]
    intro column hcolumn
    obtain ⟨name, hname, -, -⟩ := hreferable column hcolumn
    exact isWritable_ofColumn hname
  have hitems : Json.itemsWritable (table.liveRows.map Json.ofRow) = true := by
    rw [Json.itemsWritable_iff, List.forall_mem_map]
    exact fun row hrow => Json.isWritable_ofRow (hrows row hrow)
  simp [ofTable, Json.isWritable, Json.membersWritable, hcolumns, hitems]

namespace Database

variable {db : Database}

/-- A database has a text as its snapshot when the integers of its live rows can be written and its
columns have texts for names. -/
theorem serialize_eq_ok (hreferable : ∀ table ∈ db.tables, table.schema.Referable)
    (hrows : ∀ table ∈ db.tables, ∀ row ∈ table.liveRows, ∀ name n,
      (name, Value.int n) ∈ row → isWritable n = true) :
    db.serialize = .ok db.toSnapshot.text := by
  have hwritable : db.toSnapshot.isWritable = true := by
    rw [toSnapshot, Json.isWritable, Json.membersWritable_iff, List.forall_mem_map]
    intro table htable
    exact Snapshot.isWritable_ofTable (hreferable table htable) (hrows table htable)
  rw [serialize, Json.text?, if_pos hwritable]

/-! ## The way back -/

/-- A database has been restored from a snapshot of another one. -/
structure Restores (db restored : Database) : Prop where
  /-- The tables have the same names, in the same order. -/
  names : restored.tableNames = db.tableNames
  /-- The tables have the same columns. -/
  columns : restored.tables.map (·.schema.columns) = db.tables.map (·.schema.columns)
  /-- The tables have the same live rows, in the same order. -/
  liveRows : restored.tables.map Table.liveRows = db.tables.map Table.liveRows
  /-- Queries have the same results. -/
  answers : ∀ text query, Sql.parse text = .ok (.select query) →
    (restored.execute text).1 = (db.execute text).1
  /-- The snapshot is the same again. -/
  snapshot : restored.toSnapshot = db.toSnapshot

/-- A database has been restored when its tables are alike. -/
theorem Restores.of_alike {restored : Database}
    (h : List.Forall₂ Table.Alike db.tables restored.tables) :
    db.Restores restored where
  names := Table.Alike.map_eq h Table.name Table.Alike.name
  columns := Table.Alike.map_eq h (·.schema.columns) fun halike => congrArg _ halike.schema
  liveRows := Table.Alike.map_eq h Table.liveRows Table.Alike.liveRows
  answers := fun _ _ => execute_of_alike h
  snapshot := by
    refine congrArg Json.object (Table.Alike.map_eq h _ fun halike => ?_)
    rw [Snapshot.ofTable, Snapshot.ofTable, halike.name, halike.schema, halike.liveRows]

/-- The columns of a written database can be referred to when none has a dot in its name. -/
theorem Written.referable (hwritten : db.Written)
    (hplain : ∀ table ∈ db.tables, table.schema.Plain) :
    ∀ table ∈ db.tables, table.schema.Referable := by
  intro table htable column hcolumn
  obtain ⟨name, hname, hnonempty⟩ := hwritten.named table htable column hcolumn
  exact ⟨name, hname, hnonempty, (hplain table htable).of_name hcolumn hname⟩

/-- Tables can all be made anew if no live row has a NULL in a column that counts up. -/
theorem exists_remade_all {tables : List Table} (hreachable : ∀ table ∈ tables, table.Reachable)
    (hreferable : ∀ table ∈ tables, table.schema.Referable)
    (hcounted : ∀ table ∈ tables, ∀ row ∈ table.liveRows, row.Counted table.schema)
    (order : BTree.Order) :
    ∃ made, List.Forall₂ (fun table new => table.remade order = .ok new) tables made := by
  induction tables with
  | nil => exact ⟨[], .nil⟩
  | cons table rest ih =>
    obtain ⟨htable, hrest⟩ := List.forall_mem_cons.mp hreachable
    obtain ⟨htableNamed, hrestNamed⟩ := List.forall_mem_cons.mp hreferable
    obtain ⟨htableCounted, hrestCounted⟩ := List.forall_mem_cons.mp hcounted
    obtain ⟨new, hnew⟩ := htable.exists_remade htableNamed htableCounted order
    obtain ⟨later, hlater⟩ := ih hrest hrestNamed hrestCounted
    exact ⟨new :: later, .cons hnew hlater⟩

/-- Tables that are made anew have the same live rows just when none of these has a NULL in a column
that counts up. -/
theorem remade_all_liveRows_iff {tables made : List Table} {order : BTree.Order}
    (hreachable : ∀ table ∈ tables, table.Reachable)
    (hreferable : ∀ table ∈ tables, table.schema.Referable)
    (hmade : List.Forall₂ (fun table new => table.remade order = .ok new) tables made) :
    made.map Table.liveRows = tables.map Table.liveRows ↔
      ∀ table ∈ tables, ∀ row ∈ table.liveRows, row.Counted table.schema := by
  induction hmade with
  | nil => exact iff_of_true rfl (List.forall_mem_nil _)
  | cons hfirst _ ih =>
    obtain ⟨htable, hrest⟩ := List.forall_mem_cons.mp hreachable
    obtain ⟨htableNamed, hrestNamed⟩ := List.forall_mem_cons.mp hreferable
    rw [List.map_cons, List.map_cons, List.cons.injEq, List.forall_mem_cons]
    exact and_congr (htable.remade_liveRows_iff htableNamed hfirst) (ih hrest hrestNamed)

/-- A table that is made anew with the same live rows is alike. -/
theorem alike_of_remade {table new : Table} {order : BTree.Order} (hreachable : table.Reachable)
    (hreferable : table.schema.Referable)
    (hcounted : ∀ row ∈ table.liveRows, row.Counted table.schema)
    (hmade : table.remade order = .ok new) : table.Alike new := by
  obtain ⟨hnew, hschema, -⟩ := hreachable.remade_refills hreferable hmade
  exact ⟨hschema, (hreachable.remade_liveRows_iff hreferable hmade).mpr hcounted,
    hreachable.consistent, hnew.consistent⟩

variable {name : Text} {order : Int} {fresh : Database}

/-- A database that statements have made, of columns without dots and without a NULL in a column
that counts up, is restored from its snapshot. It is also restored from the text of the snapshot, if
the integers in it have few enough digits to be written and the text is read back as what it was
written from. -/
theorem Written.round_trip (hwritten : db.Written)
    (hplain : ∀ table ∈ db.tables, table.schema.Plain)
    (hcounted : ∀ table ∈ db.tables, ∀ row ∈ table.liveRows, row.Counted table.schema)
    (hfresh : create name order = .ok fresh) :
    ∃ restored, ofSnapshot db.toSnapshot name order = .ok restored ∧ db.Restores restored ∧
      ((∀ table ∈ db.tables, ∀ row ∈ table.liveRows, ∀ name n,
          (name, Value.int n) ∈ row → isWritable n = true) →
        ∃ text, db.serialize = .ok text ∧
          (Json.parse text = .ok db.toSnapshot → deserialize text name order = .ok restored)) := by
  have hsound := hwritten.reachable.sound
  have hreferable := hwritten.referable hplain
  obtain ⟨made, hmade⟩ := exists_remade_all hsound.reachable hreferable hcounted fresh.order
  have halike : List.Forall₂ Table.Alike db.tables made := by
    have hboth := (List.forall₂_and_left _ _).mpr ⟨fun table htable => htable, hmade⟩
    refine hboth.imp fun table new ⟨htable, hnew⟩ => ?_
    exact alike_of_remade (hsound.reachable table htable) (hreferable table htable)
      (hcounted table htable) hnew
  have hload := (ofSnapshot_toSnapshot hsound hreferable hfresh).mpr ⟨made, hmade, rfl⟩
  refine ⟨{ fresh with tables := made }, hload, .of_alike halike, fun hwritable => ?_⟩
  -- The text is read back as the snapshot, so both ways load the same.
  refine ⟨db.toSnapshot.text, serialize_eq_ok hreferable hwritable, fun hparse => ?_⟩
  rw [ofSnapshot, createFor, hfresh] at hload
  rw [deserialize, createFor, hfresh, hparse]
  exact hload

/-- A table that counts its rows, of which the first one has been deleted. -/
def counted : Database where
  name := defaultName
  order := .default
  tables := [{
    schema := ⟨"t", [.define (.text "id") .int false false false true,
      .define (.text "b") .int false false false false], by decide⟩
    treeOrder := 4
    rows := [none, some [(.text "id", .int 2), (.text "b", .int 8)]]
    indexes := []
    counters := [(.text "id", 2)] }]

/-- The table that counts its rows is made by statements. -/
theorem counted_written : counted.Written := by
  have hparse : (["CREATE TABLE t (id INT AUTO_INCREMENT, b INT)", "INSERT INTO t (b) VALUES (7)",
      "DELETE FROM t", "INSERT INTO t (b) VALUES (8)"] : List Text).mapM Sql.parse =
      .ok [.createTable "t" [.define (.text "id") .int false false false true,
          .define (.text "b") .int false false false false],
        .insert "t" ["b"] [[.int 7]], .delete "t" [], .insert "t" ["b"] [[.int 8]]] := rfl
  exact written_of_performAll hparse rfl

set_option maxRecDepth 20000 in
/-- The table that counts its rows is restored under another name, from the snapshot and from its
text. -/
theorem round_trip_counted :
    ∃ restored, ofSnapshot counted.toSnapshot "copy" 3 = .ok restored ∧
      counted.Restores restored ∧
      ∃ text, counted.serialize = .ok text ∧ deserialize text "copy" 3 = .ok restored := by
  have hfresh : create "copy" 3 = .ok ⟨"copy", ⟨3, by decide⟩, []⟩ := rfl
  obtain ⟨restored, hload, hrestores, hback⟩ :=
    Written.round_trip counted_written (by decide) (by decide) hfresh
  have hwritable : ∀ table ∈ counted.tables, ∀ row ∈ table.liveRows, ∀ name n,
      (name, Value.int n) ∈ row → isWritable n = true := by
    intro table htable row hrow name n hentry
    obtain rfl := List.mem_singleton.mp htable
    obtain rfl : row = [(.text "id", .int 2), (.text "b", .int 8)] := List.mem_singleton.mp hrow
    have hn : n = 2 ∨ n = 8 := by
      simp only [List.mem_cons, Prod.mk.injEq, Value.int.injEq, List.not_mem_nil,
        or_false] at hentry
      exact hentry.imp And.right And.right
    rcases hn with rfl | rfl
    · decide +kernel
    · decide +kernel
  obtain ⟨text, hserialize, htext⟩ := hback hwritable
  have hparse : Json.parse counted.toSnapshot.text = .ok counted.toSnapshot := rfl
  have hsame : counted.serialize = .ok counted.toSnapshot.text :=
    serialize_eq_ok (counted_written.referable (by decide)) hwritable
  obtain rfl : text = counted.toSnapshot.text := Except.ok.inj (hserialize.symm.trans hsame)
  exact ⟨restored, hload, hrestores, _, hserialize, htext hparse⟩

/-- The snapshot of a database that statements have made, of columns without dots, brings back the
same live rows just when none of these has a NULL in a column that counts up. Whenever it can be
loaded, all else is as it was: the columns, and the other cells of the live rows. -/
theorem Written.round_trip_iff (hwritten : db.Written)
    (hplain : ∀ table ∈ db.tables, table.schema.Plain) (hfresh : create name order = .ok fresh) :
    ((∃ restored, ofSnapshot db.toSnapshot name order = .ok restored ∧
        restored.tables.map Table.liveRows = db.tables.map Table.liveRows) ↔
      ∀ table ∈ db.tables, ∀ row ∈ table.liveRows, row.Counted table.schema) ∧
    ∀ restored, ofSnapshot db.toSnapshot name order = .ok restored →
      List.Forall₂ (fun table new => new.schema = table.schema ∧
        List.Forall₂ (Row.Refills table.schema) table.liveRows new.liveRows)
        db.tables restored.tables := by
  have hsound := hwritten.reachable.sound
  have hreferable := hwritten.referable hplain
  refine ⟨⟨?_, fun hcounted => ?_⟩, fun restored h => ?_⟩
  · rintro ⟨restored, h, hrows⟩
    obtain ⟨made, hmade, rfl⟩ := (ofSnapshot_toSnapshot hsound hreferable hfresh).mp h
    exact (remade_all_liveRows_iff hsound.reachable hreferable hmade).mp hrows
  · obtain ⟨made, hmade⟩ := exists_remade_all hsound.reachable hreferable hcounted fresh.order
    refine ⟨_, (ofSnapshot_toSnapshot hsound hreferable hfresh).mpr ⟨made, hmade, rfl⟩, ?_⟩
    exact (remade_all_liveRows_iff hsound.reachable hreferable hmade).mpr hcounted
  · obtain ⟨made, hmade, rfl⟩ := (ofSnapshot_toSnapshot hsound hreferable hfresh).mp h
    have hboth := (List.forall₂_and_left _ _).mpr ⟨fun table htable => htable, hmade⟩
    refine hboth.imp fun table new ⟨htable, hnew⟩ => ?_
    obtain ⟨-, hschema, hrows⟩ :=
      (hsound.reachable table htable).remade_refills (hreferable table htable) hnew
    exact ⟨hschema, hrows.imp fun _ _ => And.left⟩

/-- A table that counts its rows, of which the last one has lost its number. -/
def uncounted : Database :=
  (empty.executeAll ["CREATE TABLE t (a INT UNIQUE AUTO_INCREMENT, b INT)",
    "INSERT INTO t (b) VALUES (7), (8)", "UPDATE t SET a = null WHERE b = 8"]).2

/-- The row without a number takes the number of the other one when it is loaded. So it is refused,
and the snapshot does not bring the rows back. -/
theorem round_trip_uncounted :
    (¬∃ restored, ofSnapshot uncounted.toSnapshot "main" 4 = .ok restored ∧
      restored.tables.map Table.liveRows = uncounted.tables.map Table.liveRows) ∧
    (match ofSnapshot uncounted.toSnapshot "main" 4 with
      | .ok _ => none
      | .error fault => fault.message?) =
      some ("Duplicate value \"1\" for unique column \"a\"" : Text) := by
  have hwritten : uncounted.Written := ⟨defaultName, 4, empty, _, rfl, rfl⟩
  have hfresh : create "main" 4 = .ok ⟨"main", ⟨4, by decide⟩, []⟩ := rfl
  obtain ⟨hiff, -⟩ := Written.round_trip_iff hwritten (by decide +kernel) hfresh
  have hnull : ¬∀ table ∈ uncounted.tables, ∀ row ∈ table.liveRows, row.Counted table.schema := by
    decide +kernel
  exact ⟨fun h => hnull (hiff.mp h), by decide +kernel⟩

end Database

end RelStore
