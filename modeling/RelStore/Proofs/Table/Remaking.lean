import RelStore.Proofs.Table.Replay

/-!
# Tables that are made anew

A table is made anew from its columns and its live rows (`Table.remade`): its columns give a new
table (`exists_create_of_referable`), and its live rows are inserted into it. This succeeds with the
same live rows if none of them has a NULL in a column that counts up (`Reachable.exists_remade`),
and whenever it succeeds, other cells are as they were (`Reachable.remade_refills`). All other
indexes than those of unique columns are gone.
-/

namespace RelStore.Table

variable {table : Table}

/-! ## Creating the table -/

/-- Columns of different names get indexes of different names. -/
theorem indexNameFor_inj {table one other : Text}
    (h : indexNameFor table (.text one) = indexNameFor table (.text other)) : one = other := by
  unfold indexNameFor at h
  exact List.append_cancel_left h

/-- An index on a column of a table without rows is created if its name is free. -/
theorem exists_createIndex (hreferable : table.schema.Referable) (hrows : table.rows = [])
    {degree : BTree.Order} (hdegree : BTree.Order.ofInt? table.treeOrder = some degree)
    {column : Column} (hcolumn : column ∈ table.schema.columns) {name : Text}
    (hfree : ∀ index ∈ table.indexes, index.name ≠ name) :
    ∃ next, table.createIndex name column.name true = .ok next := by
  obtain ⟨text, htext, -, hplain⟩ := hreferable column hcolumn
  have hname := Schema.columnName_of_plain hcolumn htext hplain
  have hnew : ¬(table.indexes.any (·.name == name)) = true := by
    intro hany
    obtain ⟨index, hindex, heq⟩ := List.any_eq_true.mp hany
    exact hfree index hindex (beq_iff_eq.mp heq)
  have hlive : table.live = [] := by
    rw [live, hrows]
    rfl
  refine ⟨{ table with indexes := table.indexes ++ [⟨name, text, true, BTree.empty degree⟩] }, ?_⟩
  rw [createIndex, htext]
  refine Outcome.unless_eq_ok.mpr ⟨hnew, ?_⟩
  rw [hname, Outcome.ok_bind, hdegree, hlive]
  rfl

/-- The indexes of unique columns are created one after the other. -/
theorem exists_createIndexes (table : Table) (before : List Column) {columns : List Column}
    (hreferable : table.schema.Referable) (hrows : table.rows = []) {degree : BTree.Order}
    (hdegree : BTree.Order.ofInt? table.treeOrder = some degree) {name : Text}
    (hsub : ∀ column ∈ before ++ columns, column ∈ table.schema.columns)
    (hnodup : ((before ++ columns).map Column.name).Nodup)
    (hindexes : ∀ index ∈ table.indexes, ∃ column ∈ before,
      index.name = indexNameFor name column.name) :
    ∃ next, columns.foldlM (fun (table : Table) column =>
      table.createIndex (indexNameFor name column.name) column.name true) table = .ok next := by
  induction columns generalizing table before with
  | nil => exact ⟨table, rfl⟩
  | cons column rest ih =>
    have hcolumn : column ∈ table.schema.columns :=
      hsub column (List.mem_append_right _ List.mem_cons_self)
    -- An earlier index has another name, since its column has.
    have hfree : ∀ index ∈ table.indexes, index.name ≠ indexNameFor name column.name := by
      intro index hindex heq
      obtain ⟨other, hother, hotherName⟩ := hindexes index hindex
      obtain ⟨text, htext, -, -⟩ := hreferable column hcolumn
      obtain ⟨text', htext', -, -⟩ := hreferable other (hsub other (List.mem_append_left _ hother))
      rw [hotherName, htext, htext'] at heq
      have hsame : other.name = column.name := by rw [htext, htext', indexNameFor_inj heq]
      rw [List.map_append, List.nodup_append'] at hnodup
      exact hnodup.2.2 (List.mem_map_of_mem hother) (hsame ▸ List.mem_cons_self)
    obtain ⟨next, hnext⟩ := exists_createIndex hreferable hrows hdegree hcolumn hfree
    obtain ⟨own, _, tree, -, -, heq⟩ := createIndex_eq_ok hnext
    have hschema : next.schema = table.schema := by rw [heq]
    have horder : next.treeOrder = table.treeOrder := by rw [heq]
    have hnextRows : next.rows = [] := by rw [heq, hrows]
    have hnextIndexes : ∀ index ∈ next.indexes, ∃ column' ∈ before ++ [column],
        index.name = indexNameFor name column'.name := by
      rw [heq]
      intro index hindex
      rcases List.mem_append.mp hindex with hindex | hindex
      · obtain ⟨other, hother, hotherName⟩ := hindexes index hindex
        exact ⟨other, List.mem_append_left _ hother, hotherName⟩
      · refine ⟨column, List.mem_append_right _ List.mem_cons_self, ?_⟩
        rw [List.mem_singleton.mp hindex]
    rw [← hschema] at hreferable hsub
    rw [← horder] at hdegree
    rw [List.append_cons] at hsub hnodup
    obtain ⟨last, hlast⟩ := ih next _ hreferable hnextRows hdegree hsub hnodup hnextIndexes
    refine ⟨last, ?_⟩
    rw [List.foldlM_cons, hnext]
    exact hlast

/-- A new table has the schema of the table whose columns it gets. -/
theorem schema_of_create {treeOrder : Int} {created : Table}
    (h : create table.name table.schema.columns treeOrder = .ok created) :
    created.schema = table.schema := by
  have hname : created.schema.table = table.schema.table := name_of_create h
  obtain ⟨-, -, hcolumns⟩ := Consistent.of_create h
  cases hcreated : created.schema
  cases htable : table.schema
  rw [hcreated, htable] at hname hcolumns
  cases hname
  cases hcolumns
  rfl

/-- The indexes of a new table are those of its unique columns. -/
theorem outlines_of_create {name : Text} {columns : List Column} {treeOrder : Int}
    {created : Table} (hplain : ∀ column ∈ columns, column.name.Plain)
    (h : create name columns treeOrder = .ok created) :
    ∀ outline ∈ created.outlines, ∃ column ∈ columns,
      column.unique = true ∧ column.name = .text outline.2.1 := by
  obtain ⟨schema, -, h⟩ := Outcome.bind_eq_ok.mp h
  refine Outcome.foldlM_invariant (fun created : Table => ∀ outline ∈ created.outlines,
    ∃ column ∈ columns, column.unique = true ∧ column.name = .text outline.2.1) ?_
    (List.forall_mem_nil _) h
  rintro before column hcolumn after hbefore hafter outline houtline
  obtain ⟨hmem, hunique⟩ := List.mem_filter.mp hcolumn
  obtain ⟨own, _, tree, hname, -, rfl⟩ := createIndex_eq_ok hafter
  rw [outlines, List.map_append] at houtline
  rcases List.mem_append.mp houtline with houtline | houtline
  · exact hbefore outline houtline
  · refine ⟨column, hmem, hunique, ?_⟩
    rw [List.mem_singleton.mp houtline]
    obtain ⟨text, htext, -, hcases⟩ := Schema.columnName_eq_ok hname
    have hcolumnPlain := hplain column hmem
    rw [htext] at hcolumnPlain ⊢
    rcases hcases with ⟨-, rfl⟩ | hqualified
    · rfl
    · rw [splitQualified?_of_plain hcolumnPlain] at hqualified
      cases hqualified

/-- From columns that can be referred to a new table can be made. -/
theorem exists_create_of_referable (hreferable : table.schema.Referable) (order : BTree.Order) :
    ∃ created, create table.name table.schema.columns order.degree = .ok created := by
  have hschema : Schema.define table.name table.schema.columns = .ok table.schema :=
    dif_pos table.schema.distinct
  let counters : Mapping ColumnName Nat :=
    (table.schema.columns.filter (·.autoIncrement)).map fun column => (column.name, 0)
  let start : Table := ⟨table.schema, order.degree, [], [], counters⟩
  have hstart : start.schema.Referable := hreferable
  rw [create, hschema, Outcome.ok_bind]
  refine exists_createIndexes start [] hstart rfl (ofInt?_degree order) ?_ ?_ ?_
  · exact fun column hcolumn => List.mem_of_mem_filter hcolumn
  · exact table.schema.nodup_columnNames.sublist (List.filter_sublist.map _)
  · exact List.forall_mem_nil _

/-! ## Making the table anew -/

/-- A table made anew of the columns and the live rows of a table, whose indexes have a given
order. -/
def remade (table : Table) (order : BTree.Order) : Except Error Table := do
  let created ← create table.name table.schema.columns order.degree
  let filled ← created.replay table.liveRows
  return filled.restoreCounters

/-- A table is made anew by filling the new table of its columns. -/
theorem remade_eq_ok {order : BTree.Order} {created made : Table}
    (hcreated : create table.name table.schema.columns order.degree = .ok created) :
    table.remade order = .ok made ↔
      ∃ filled, created.replay table.liveRows = .ok filled ∧ made = filled.restoreCounters := by
  rw [remade, hcreated, Outcome.ok_bind, Outcome.bind_eq_ok]
  refine exists_congr fun filled => and_congr Iff.rfl ?_
  exact ⟨fun h => (Except.ok.inj h).symm, fun h => congrArg Except.ok h.symm⟩

/-- Rows are inserted anew by insertions. -/
theorem Consistent.exists_run_of_replay (h : table.Consistent) {rows : List Row} {next : Table}
    (hreplay : table.replay rows = .ok next) : ∃ operations, next = table.run operations := by
  induction rows generalizing table with
  | nil =>
    cases hreplay
    exact ⟨[], rfl⟩
  | cons row rest ih =>
    rw [replay, List.foldlM_cons] at hreplay
    obtain ⟨mid, hmid, hreplay⟩ := Outcome.bind_eq_ok.mp hreplay
    have happly : table.apply (.insert (row.mapValues .value)) = .ok mid := hmid
    obtain ⟨operations, rfl⟩ := ih (h.of_apply happly).1 hreplay
    refine ⟨.insert (row.mapValues .value) :: operations, ?_⟩
    rw [run_cons, h.run_of_apply happly]

variable {order : BTree.Order} (hreachable : table.Reachable)
  (hreferable : table.schema.Referable)
include hreachable hreferable

/-- A table that is made anew is reachable, has the same columns, and has the same live rows but for
NULLs in columns that count up. -/
theorem Reachable.remade_refills {next : Table} (h : table.remade order = .ok next) :
    next.Reachable ∧ next.schema = table.schema ∧
      List.Forall₂ (fun row stored => row.Refills table.schema stored ∧ stored.Fits table.schema)
        table.liveRows next.liveRows := by
  obtain ⟨created, hcreated, h⟩ := Outcome.bind_eq_ok.mp h
  obtain ⟨filled, hfilled, h⟩ := Outcome.bind_eq_ok.mp h
  cases h
  obtain ⟨hconsistent, hrows, -⟩ := Consistent.of_create hcreated
  have hschema := schema_of_create hcreated
  have hreplayable := hreachable.replayable
  rw [← hschema] at hreferable hreplayable
  obtain ⟨hfilledSchema, stored, hstored, hall⟩ := replay_refills hreferable hreplayable hfilled
  rw [hrows, List.nil_append] at hstored
  rw [hschema] at hall hfilledSchema
  have hlive : filled.restoreCounters.liveRows = stored := liveRows_of_rows hstored
  refine ⟨?_, hfilledSchema, ?_⟩
  · obtain ⟨operations, rfl⟩ := hconsistent.exists_run_of_replay hfilled
    have hstart : created.Reachable := ⟨_, _, _, _, [], hcreated, rfl⟩
    exact (hstart.run operations).run [.restoreCounters]
  · rw [hlive]
    exact hall

/-- A table that is made anew has the same live rows just when none of them has a NULL in a column
that counts up. -/
theorem Reachable.remade_liveRows_iff {next : Table} (h : table.remade order = .ok next) :
    next.liveRows = table.liveRows ↔ ∀ row ∈ table.liveRows, row.Counted table.schema := by
  obtain ⟨-, -, hall⟩ := hreachable.remade_refills hreferable h
  have hfits : ∀ row ∈ table.liveRows, row.Fits table.schema :=
    fun row hrow => (hreachable.replayable row hrow).1
  generalize table.liveRows = rows at hall hfits ⊢
  generalize next.liveRows = stored at hall ⊢
  induction hall with
  | nil => exact iff_of_true rfl (List.forall_mem_nil _)
  | cons hfirst _ ih =>
    obtain ⟨hrow, hrest⟩ := List.forall_mem_cons.mp hfits
    rw [List.cons.injEq, List.forall_mem_cons]
    exact and_congr (hfirst.1.eq_iff hrow hfirst.2) (ih hrest)

/-- A table can be made anew if no live row has a NULL in a column that counts up. -/
theorem Reachable.exists_remade
    (hcounted : ∀ row ∈ table.liveRows, row.Counted table.schema) (order : BTree.Order) :
    ∃ next, table.remade order = .ok next := by
  obtain ⟨created, hcreated⟩ := exists_create_of_referable hreferable order
  obtain ⟨hconsistent, hrows, hcolumns⟩ := Consistent.of_create hcreated
  have hschema := schema_of_create hcreated
  have hplain : ∀ column ∈ table.schema.columns, column.name.Plain := by
    intro column hcolumn
    obtain ⟨text, htext, -, htextPlain⟩ := hreferable column hcolumn
    rw [htext]
    exact htextPlain
  -- The columns of the new unique indexes had unique indexes before, so no two rows share a key.
  have hapart : ∀ outline ∈ created.outlines, outline.2.2 = true →
      ¬Shares (rowAt (([] ++ table.liveRows).map some)) outline.2.1 := by
    intro outline houtline _ hshares
    obtain ⟨column, hcolumn, hunique, hname⟩ := outlines_of_create hplain hcreated outline houtline
    obtain ⟨text, htext, hguarded⟩ := hreachable.guarded column hcolumn hunique
    have hcolumnPlain := hplain column hcolumn
    rw [htext] at hcolumnPlain hname
    obtain ⟨indexName, hindex⟩ := hguarded (splitQualified?_of_plain hcolumnPlain)
    obtain ⟨index, hindexMem, heq⟩ := List.mem_map.mp hindex
    have hindexUnique : index.unique = true := congrArg (·.2.2) heq
    have hindexColumn : index.column = outline.2.1 :=
      (congrArg (·.2.1) heq).trans (ColumnName.text.inj hname)
    refine hreachable.distinct index hindexMem hindexUnique ?_
    rw [hindexColumn]
    exact shares_of_compact hshares
  have hreplayable := hreachable.replayable
  rw [← hschema] at hreferable hreplayable hcounted
  have hnone : created.rows = List.map some [] := hrows
  obtain ⟨filled, hfilled⟩ :=
    exists_replay hconsistent hreferable hnone hreplayable hcounted hapart
  exact ⟨filled.restoreCounters, (remade_eq_ok hcreated).mpr ⟨filled, hfilled, rfl⟩⟩

end RelStore.Table
