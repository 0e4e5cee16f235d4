import RelStore.Proofs.Snapshot.Loading
import RelStore.Proofs.Table.Counting

/-!
# Numbers after loading

Every table of a snapshot that can be loaded is a reachable table whose counters have been moved up
(`Database.ofSnapshot_tables`). So rows that are inserted after loading do not collide with the
loaded ones in a column of integers that counts up. The counters of columns of other types are not
moved up to the numbers that the rows hold as floats or as texts: there an insertion is refused if a
row holds the key of its number (`Table.Numbered`).
-/

namespace RelStore

open BTree (sameKey)

/-- How a table fills in a column that counts up. -/
structure Table.Numbered (table : Table) (column : Column) (name : Text) : Prop where
  /-- Insertions that leave the column out are not refused on account of it, any number of them
  if it is a column of integers, and otherwise as long as no row holds the key of a number. -/
  unrefused : ∀ requests, (∀ cells ∈ requests, table.Omits column.name cells) →
    (column.type = .int ∨ table.Free column requests.length) →
    ∀ before cells after, requests = before ++ cells :: after → ∀ v,
      (table.run (before.map .insert)).insertCells cells ≠ .error (.duplicateValue name v)
  /-- If a row holds the key of the next number of a unique column, no insertion that leaves the
  column out succeeds. -/
  stuck : column.unique = true → RelStore.Plain name → ∀ v,
    coerce column.type (.int (table.count column.name + 1 : Nat)) = .ok v →
    ∀ row ∈ table.liveRows, sameKey v (row.cell column.name) = true →
    ∀ cells, table.Omits column.name cells → ∀ outcome, table.insertCells cells ≠ .ok outcome

namespace Snapshot

/-- A row of a snapshot is inserted. -/
theorem loadRow_eq_ok {table next : Table} {row : Json} (h : loadRow table row = .ok next) :
    ∃ cells, table.apply (.insert cells) = .ok next := by
  unfold loadRow at h
  split at h
  · next members =>
    split at h
    · next stored after hinsert =>
      obtain rfl : after = next := Except.ok.inj h
      exact ⟨_, Outcome.map_eq_ok.mpr ⟨_, hinsert, rfl⟩⟩
    · cases h
  · cases h

/-- A table of a snapshot is created and filled with rows, and its counters are moved up. -/
theorem loadTable_eq_ok {db next : Database} {name : Text} {entry : Json}
    (h : loadTable db name entry = .ok next) :
    ∃ filled : Table, filled.Reachable ∧
      next = { db with tables := db.tables ++ [filled.restoreCounters] } := by
  unfold loadTable at h
  split at h
  · obtain ⟨columns, -, h⟩ := Outcome.bind_eq_ok.mp h
    split at h
    · cases h
    · next created after hcreate =>
      obtain ⟨hnew, hcreated, rfl⟩ := Database.createTable_eq_ok hcreate
      split at h
      · cases h
      · next items hitems =>
        obtain ⟨filled, hfilled, h⟩ := Outcome.bind_eq_ok.mp h
        have hstart : created.Reachable := ⟨_, _, _, _, [], hcreated, rfl⟩
        -- Rows are inserted, which keeps the table reachable and its schema.
        obtain ⟨hreachable, hschema⟩ : filled.Reachable ∧ filled.schema = created.schema := by
          refine Outcome.foldlM_invariant
            (fun table : Table => table.Reachable ∧ table.schema = created.schema) ?_
            ⟨hstart, rfl⟩ hfilled
          rintro before row - mid ⟨hbefore, hbeforeSchema⟩ hmid
          obtain ⟨cells, happly⟩ := loadRow_eq_ok hmid
          refine ⟨hbefore.consistent.run_of_apply happly ▸ hbefore.run _, ?_⟩
          rw [(hbefore.consistent.of_apply happly).2.1, hbeforeSchema]
        have hname : created.name = filled.restoreCounters.name :=
          congrArg Schema.table hschema.symm
        refine ⟨filled, hreachable, ?_⟩
        rw [← setTable_append hname (hname ▸ Table.name_of_create hcreated ▸ hnew)]
        exact (Except.ok.inj h).symm
  · cases h

end Snapshot

namespace Database

/-- The tables of a snapshot that can be loaded are reachable ones whose counters have been moved
up. -/
theorem ofSnapshot_tables {snapshot : Json} {name : Text} {order : Int} {db : Database}
    (h : ofSnapshot snapshot name order = .ok db) :
    ∀ table ∈ db.tables, ∃ filled : Table, filled.Reachable ∧ table = filled.restoreCounters := by
  obtain ⟨fresh, hfresh, h⟩ := Outcome.bind_eq_ok.mp h
  have hnone : fresh.tables = [] := by
    unfold createFor at hfresh
    cases hcreate : create name order with
    | error e =>
      rw [hcreate] at hfresh
      cases hfresh
    | ok created =>
      rw [hcreate] at hfresh
      cases hfresh
      exact tables_of_create hcreate
  unfold load at h
  split at h
  · next entries =>
    refine Outcome.foldlM_invariant (fun db : Database => ∀ table ∈ db.tables,
      ∃ filled : Table, filled.Reachable ∧ table = filled.restoreCounters) ?_ ?_ h
    · rintro before ⟨tableName, entry⟩ - after hbefore hafter table htable
      obtain ⟨filled, hreachable, rfl⟩ := Snapshot.loadTable_eq_ok hafter
      rcases List.mem_append.mp htable with htable | htable
      · exact hbefore table htable
      · exact ⟨filled, hreachable, List.mem_singleton.mp htable⟩
    · rw [hnone]
      exact List.forall_mem_nil _
  · cases h

/-- After a snapshot has been loaded, the columns that count up are filled in without collisions if
they are columns of integers, and otherwise as far as no row holds the key of a number. -/
theorem ofSnapshot_numbered {snapshot : Json} {name : Text} {order : Int} {db : Database}
    (h : ofSnapshot snapshot name order = .ok db) {table : Table} (htable : table ∈ db.tables)
    {column : Column} (hcolumn : column ∈ table.schema.columns)
    (hauto : column.autoIncrement = true) {columnName : Text}
    (hname : column.name = .text columnName) : table.Numbered column columnName := by
  obtain ⟨filled, hfilled, rfl⟩ := ofSnapshot_tables h table htable
  have hreachable : filled.restoreCounters.Reachable := hfilled.run [.restoreCounters]
  refine ⟨?_, ?_⟩
  · rintro requests homits hfree before cells after rfl v
    have hfree : filled.restoreCounters.Free column (before ++ cells :: after).length :=
      hfree.elim (fun hint => hfilled.free_restoreCounters hcolumn hauto hint _) id
    have henough : before.length + 1 ≤ (before ++ cells :: after).length := by
      rw [List.length_append, List.length_cons]
      omega
    exact (hfree.mono henough).run_insertCells_ne hreachable hcolumn hauto hname
      (fun request hrequest => homits request (List.mem_append_left _ hrequest))
      (homits cells (List.mem_append_right _ List.mem_cons_self)) v
  · intro hunique hplain v hv row hrow hsame cells hcells outcome
    exact hreachable.insertCells_ne_ok hcolumn hauto hunique hname hplain hv hrow hsame hcells
      outcome

/-- A table of one row, whose first column is unique and counts up. -/
def keyedTable (type : DataType) (key : Value) (count : Nat) : Table where
  schema := ⟨"t", [.define (.text "a") type false true false true,
    .define (.text "b") .int false false false false], by cases type <;> decide⟩
  treeOrder := 4
  rows := [some [(.text "a", key), (.text "b", .int 7)]]
  indexes := [⟨"idx_t_a", "a", true, (BTree.empty .default).insert key 0⟩]
  counters := [(.text "a", count)]

/-- The database with just this table. -/
def keyed (type : DataType) (key : Value) (count : Nat) : Database :=
  ⟨defaultName, .default, [keyedTable type key count]⟩

/-- After loading, a column of integers gets the numbers after the loaded one. In a column of texts
the text `1` is in the way of the first number, and stays so. -/
theorem ofSnapshot_numbered_keyed :
    let cells (b : Int) : Mapping ColumnName Cell := [(.text "b", .value (.int b))]
    let ints := keyedTable .int (.int 5) 5
    let texts := keyedTable .string (.string "1") 0
    ofSnapshot (keyed .int (.int 5) 5).toSnapshot defaultName 4 = .ok (keyed .int (.int 5) 5) ∧
    (∀ v, (ints.run [.insert (cells 8)]).insertCells (cells 9) ≠ .error (.duplicateValue "a" v)) ∧
    ofSnapshot (keyed .string (.string "1") 0).toSnapshot defaultName 4 =
      .ok (keyed .string (.string "1") 0) ∧
    Prod.fst <$> texts.insertCells (cells 8) = .error (.duplicateValue "a" (.string "1")) ∧
    ∀ b outcome, texts.insertCells (cells b) ≠ .ok outcome := by
  intro cells ints texts
  have hints : ofSnapshot (keyed .int (.int 5) 5).toSnapshot defaultName 4 =
      .ok (keyed .int (.int 5) 5) := rfl
  have htexts : ofSnapshot (keyed .string (.string "1") 0).toSnapshot defaultName 4 =
      .ok (keyed .string (.string "1") 0) := rfl
  have homits {type : DataType} {key : Value} {count : Nat} (b : Int) :
      (keyedTable type key count).Omits (.text "a") (cells b) := by
    intro bare hbare
    have hsame : (keyedTable type key count).bareNames (cells b) = .ok (cells b) := rfl
    rw [hsame] at hbare
    cases hbare
    rfl
  have hnumberedInts : ints.Numbered (.define (.text "a") .int false true false true) "a" :=
    ofSnapshot_numbered hints List.mem_cons_self List.mem_cons_self rfl rfl
  have hnumberedTexts : texts.Numbered (.define (.text "a") .string false true false true) "a" :=
    ofSnapshot_numbered htexts List.mem_cons_self List.mem_cons_self rfl rfl
  have hrefused : Prod.fst <$> texts.insertCells (cells 8) =
      .error (.duplicateValue "a" (.string "1")) := by decide +kernel
  have hkey : coerce .string (.int (texts.count (.text "a") + 1 : Nat)) = .ok (.string "1") := by
    decide +kernel
  refine ⟨hints, fun v => ?_, htexts, hrefused, fun b => ?_⟩
  · refine hnumberedInts.unrefused [cells 8, cells 9] ?_ (.inl rfl) [cells 8] (cells 9) [] rfl v
    exact List.forall_mem_cons.mpr ⟨homits 8, List.forall_mem_cons.mpr ⟨homits 9, nofun⟩⟩
  · exact hnumberedTexts.stuck rfl (by decide) _ hkey _ List.mem_cons_self rfl (cells b) (homits b)

end Database

end RelStore
