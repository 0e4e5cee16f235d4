import RelStore.Proofs.Table.Consistency

/-!
# Building indexes

An index is built by adding the live rows one after the other, and a unique one is refused when two
of them share a key (`buildTree_built`). Built from nothing, a tree covers the rows; so tables can
get new indexes (`Consistent.of_createIndex`), and a compaction, which renumbers the rows and builds
all trees anew, leaves a table consistent (`Consistent.compact`). New tables are consistent
(`Consistent.of_create`).
-/

namespace RelStore.Table

open BTree (sameKey)

/-- What building an index tree on a column of some rows ends in. -/
inductive Built (type : DataType) (column : Text) (unique : Bool) (rows : Nat → Option Row) :
    Except Error (BTree Nat) → Prop where
  /-- A tree that covers the rows, of which no two share a key if the index is unique. -/
  | covering (tree : BTree Nat) (hcovers : Covers type column rows tree)
      (hapart : unique = true → ¬Shares rows column) : Built type column unique rows (.ok tree)
  /-- The index is unique and two rows share a key, of which one is shown. -/
  | duplicate (key : Value) (hunique : unique = true) (hshares : Shares rows column)
      (hkey : ∃ p row, rows p = some row ∧ row.cell column = key) :
      Built type column unique rows (.error (.ofDuplicate column key))

/-- What building ends in with one more row: the row comes to the tree of the others, or its key is
there already and the index is unique. -/
theorem Built.update {type : DataType} {column : Text} {unique : Bool} {rows : Nat → Option Row}
    {outcome : Except Error (BTree Nat)} (hbuilt : Built type column unique rows outcome) {p : Nat}
    (hfree : rows p = none) {row : Row} (hcell : row.cell column ∈ type.keys) :
    Built type column unique (Function.update rows p (some row)) (outcome >>= fun tree =>
      if unique && !(row.cell column).isNull && tree.has (row.cell column) then
        .error (.ofDuplicate column (row.cell column))
      else .ok (tree.insert (row.cell column) p)) := by
  -- The key of the new row is shared when the tree of the others has it.
  have hshares : Shares (Function.update rows p (some row)) column ↔ _ :=
    shares_update_iff hfree row
  cases hbuilt with
  | duplicate key hunique hbefore hkey =>
    obtain ⟨q, other, hother, hcellOther⟩ := hkey
    have hne : q ≠ p := by
      rintro rfl
      rw [hfree] at hother
      cases hother
    refine .duplicate key hunique (hshares.mpr (.inl hbefore)) ⟨q, other, ?_, hcellOther⟩
    rw [Function.update_of_ne hne, hother]
  | covering tree hcovers hapart =>
    have hhas := hcovers.has_iff hcell
    change Built type column unique _ (if _ then _ else _)
    split
    · next hconflict =>
      simp only [Bool.and_eq_true, Bool.not_eq_true'] at hconflict
      obtain ⟨⟨hunique, hnull⟩, hkey⟩ := hconflict
      exact .duplicate _ hunique (hshares.mpr (.inr ⟨hnull, hhas.mp hkey⟩))
        ⟨_, row, Function.update_self .., rfl⟩
    · next hfine =>
      refine .covering _ (hcovers.insert hfree hcell) fun hunique hshare => ?_
      rcases hshares.mp hshare with hbefore | ⟨hnull, hkey⟩
      · exact hapart hunique hbefore
      · apply hfine
        rw [hunique, hnull, hhas.mpr hkey]
        rfl

/-- An index tree is built when it is not unique or no two rows share a key. -/
theorem buildTree_built (degree : BTree.Order) {type : DataType} (column : Text) (unique : Bool)
    (rows : List (Option Row))
    (hcells : ∀ p row, rowAt rows p = some row → row.cell column ∈ type.keys) :
    Built type column unique (rowAt rows) (buildTree degree column unique (liveOf rows)) := by
  -- The induction is on the rows from the back: the last row comes to the tree of the others.
  induction rows using List.reverseRecOn with
  | nil => exact .covering _ (.empty degree) fun _ => not_shares_none
  | append_singleton rows row? ih =>
    have hfree : rowAt rows rows.length = none := rowAt_of_length_le (Nat.le_refl _)
    rw [rowAt_append] at hcells ⊢
    cases row? with
    | none =>
      rw [liveOf_append, Option.map_none, Option.toList_none, List.append_nil]
      rw [Function.update_eq_self_iff.mpr hfree.symm] at hcells ⊢
      exact ih hcells
    | some row =>
      have hothers : ∀ p other, rowAt rows p = some other → other.cell column ∈ type.keys := by
        intro p other hother
        refine hcells p other ?_
        have hne : p ≠ rows.length := Nat.ne_of_lt (lt_length_of_rowAt hother)
        rw [Function.update_of_ne hne, hother]
      have hstep : buildTree degree column unique (liveOf (rows ++ [some row])) =
          buildTree degree column unique (liveOf rows) >>= fun tree =>
            if unique && !(row.cell column).isNull && tree.has (row.cell column) then
              .error (.ofDuplicate column (row.cell column))
            else .ok (tree.insert (row.cell column) rows.length) := by
        rw [liveOf_append, buildTree, List.foldlM_append]
        exact bind_congr fun tree => bind_pure _
      rw [hstep]
      exact (ih hothers).update hfree (hcells _ row (Function.update_self ..))

variable {table : Table}

/-- The column of an index that is asked for has a type, and building the tree ends in what the live
rows call for. -/
theorem Consistent.buildTree_built (h : table.Consistent) {reference : ColumnName} {name : Text}
    (hname : table.schema.columnName reference = .ok name) (degree : BTree.Order)
    (unique : Bool) :
    ∃ column ∈ table.schema.columns, column.name = .text name ∧
      Built column.type name unique table.row? (buildTree degree name unique table.live) := by
  obtain ⟨column, hcolumn, hcolumnName⟩ := Schema.exists_column_of_columnName hname
  exact ⟨column, hcolumn, hcolumnName, Table.buildTree_built degree name unique table.rows
    (h.cell_mem hcolumn hcolumnName)⟩

/-- Trees of the degree of an order have this order. -/
theorem ofInt?_degree (order : BTree.Order) : BTree.Order.ofInt? order.degree = some order := by
  obtain ⟨degree, hrange⟩ := order
  exact dif_pos hrange

/-- An index that is created is the last of the table and has a tree over its live rows. -/
theorem createIndex_eq_ok {name : Text} {reference : ColumnName} {unique : Bool} {next : Table}
    (hcreate : table.createIndex name reference unique = .ok next) :
    ∃ column degree tree, table.schema.columnName reference = .ok column ∧
      buildTree degree column unique table.live = .ok tree ∧
      next = { table with indexes := table.indexes ++ [⟨name, column, unique, tree⟩] } := by
  obtain ⟨-, hcreate⟩ := Outcome.unless_eq_ok.mp hcreate
  obtain ⟨column, hname, hcreate⟩ := Outcome.bind_eq_ok.mp hcreate
  split at hcreate
  · cases hcreate
  · next degree hdegree =>
    obtain ⟨tree, htree, hnext⟩ := Outcome.bind_eq_ok.mp hcreate
    cases hnext
    exact ⟨column, degree, tree, hname, htree, rfl⟩

/-- A table may get a new index. -/
theorem Consistent.of_createIndex (h : table.Consistent) {name : Text} {reference : ColumnName}
    {unique : Bool} {next : Table} (hcreate : table.createIndex name reference unique = .ok next) :
    next.Consistent ∧ ∃ column tree, table.schema.columnName reference = .ok column ∧
      next = { table with indexes := table.indexes ++ [⟨name, column, unique, tree⟩] } ∧
      (unique = true → ¬Shares table.row? column) := by
  obtain ⟨column, degree, tree, hname, htree, rfl⟩ := createIndex_eq_ok hcreate
  obtain ⟨definition, hdefinition, hdefinitionName, hbuilt⟩ :=
    h.buildTree_built hname degree unique
  rw [htree] at hbuilt
  cases hbuilt with
  | covering _ hcovers hapart =>
    refine ⟨⟨h.fits, fun index hindex => ?_⟩, column, tree, hname, rfl, hapart⟩
    rcases List.mem_append.mp hindex with hold | hnew
    · exact h.indexed index hold
    · rw [List.mem_singleton.mp hnew]
      exact ⟨definition, hdefinition, hdefinitionName, hcovers⟩

/-! ## Compaction -/

/-- The tree of an index that is built anew covers the rows by their new positions. -/
theorem rebuild_covers (index : Index) {type : DataType} (rows : List Row)
    (hcells : ∀ row ∈ rows, row.cell index.column ∈ type.keys) :
    (rebuild index rows).outline = index.outline ∧
      Covers type index.column (rowAt (rows.map some)) (rebuild index rows).tree := by
  induction rows using List.reverseRecOn with
  | nil => exact ⟨rfl, .empty index.tree.order⟩
  | append_singleton rows row ih =>
    obtain ⟨hothers, hrow⟩ := List.forall_mem_append.mp hcells
    obtain ⟨houtline, hcovers⟩ := ih hothers
    -- As for a new index, the last row comes to the tree of the others.
    have hstep : rebuild index (rows ++ [row]) = (rebuild index rows).link row rows.length := by
      rw [rebuild, List.zipIdx_append, List.foldl_append, ← rebuild]
      simp
    have hcolumn : (rebuild index rows).column = index.column := congrArg (·.2.1) houtline
    rw [hstep, List.map_append, List.map_singleton, rowAt_append, List.length_map]
    refine ⟨houtline, ?_⟩
    rw [Index.link, hcolumn]
    refine hcovers.insert (rowAt_of_length_le ?_) (hrow row List.mem_cons_self)
    rw [List.length_map]

/-- The live rows are the rows at some position. -/
theorem mem_liveRows_iff {row : Row} : row ∈ table.liveRows ↔ ∃ p, table.row? p = some row := by
  rw [← map_snd_live, List.mem_map]
  constructor
  · rintro ⟨⟨p, row⟩, hlive, rfl⟩
    exact ⟨p, mem_live_iff.mp hlive⟩
  · rintro ⟨p, hrow⟩
    exact ⟨(p, row), mem_live_iff.mpr hrow, rfl⟩

/-- Every live row of a consistent table fits its schema. -/
theorem Consistent.fits_live (h : table.Consistent) {row : Row} (hrow : row ∈ table.liveRows) :
    row.Fits table.schema := by
  obtain ⟨p, hp⟩ := mem_liveRows_iff.mp hrow
  exact h.fits p row hp

/-- A table can be compacted. -/
theorem Consistent.compact (h : table.Consistent) :
    table.compact.2.Consistent ∧ table.compact.2.schema = table.schema ∧
      table.compact.2.outlines = table.outlines := by
  unfold Table.compact
  dsimp only
  split
  · exact ⟨h, rfl, rfl⟩
  · -- The trees are built anew over the new positions, on the same columns under the same names.
    have hrebuilt : ∀ index ∈ table.indexes, ∃ column ∈ table.schema.columns,
        column.name = .text index.column ∧
          (rebuild index table.liveRows).outline = index.outline ∧
          Covers column.type index.column (rowAt (table.liveRows.map some))
            (rebuild index table.liveRows).tree := by
      intro index hindex
      obtain ⟨column, hcolumn, hname, -⟩ := h.indexed index hindex
      refine ⟨column, hcolumn, hname, rebuild_covers index table.liveRows fun row hrow => ?_⟩
      obtain ⟨p, hp⟩ := mem_liveRows_iff.mp hrow
      exact h.cell_mem hcolumn hname p row hp
    refine ⟨⟨fun p row hrow => ?_, fun index hindex => ?_⟩, rfl, ?_⟩
    · rw [row?_eq, rowAt_map_some] at hrow
      exact h.fits_live (List.mem_of_getElem? hrow)
    · obtain ⟨old, hold, rfl⟩ := List.mem_map.mp hindex
      obtain ⟨column, hcolumn, hname, houtline, hcovers⟩ := hrebuilt old hold
      have hsame : (rebuild old table.liveRows).column = old.column := congrArg (·.2.1) houtline
      rw [hsame]
      exact ⟨column, hcolumn, hname, hcovers⟩
    · rw [outlines, List.map_map]
      refine List.map_congr_left fun index hindex => ?_
      obtain ⟨_, -, -, houtline, -⟩ := hrebuilt index hindex
      exact houtline

/-! ## New tables -/

/-- The schema that is defined for some columns has just these. -/
theorem columns_of_define {name : Text} {columns : List Column} {schema : Schema}
    (h : Schema.define name columns = .ok schema) :
    schema.table = name ∧ schema.columns = columns := by
  unfold Schema.define at h
  split at h
  · cases h
    exact ⟨rfl, rfl⟩
  · cases h

/-- A new table is consistent and without rows, and it has the columns that were asked for. -/
theorem Consistent.of_create {name : Text} {columns : List Column} {treeOrder : Int}
    (hcreate : Table.create name columns treeOrder = .ok table) :
    table.Consistent ∧ table.rows = [] ∧ table.schema.columns = columns := by
  obtain ⟨schema, hschema, hcreate⟩ := Outcome.bind_eq_ok.mp hcreate
  -- The indexes of unique columns come one after the other to a table without rows.
  refine Outcome.foldlM_invariant
    (fun table => table.Consistent ∧ table.rows = [] ∧ table.schema.columns = columns)
    ?_ ?_ hcreate
  · rintro before column - after ⟨hbefore, hrows, hcolumns⟩ hafter
    obtain ⟨hconsistent, _, _, -, rfl, -⟩ := hbefore.of_createIndex hafter
    exact ⟨hconsistent, hrows, hcolumns⟩
  · exact ⟨.of_nil rfl rfl, rfl, (columns_of_define hschema).2⟩

/-- A new table has the name that was asked for. -/
theorem name_of_create {name : Text} {columns : List Column} {treeOrder : Int}
    (hcreate : Table.create name columns treeOrder = .ok table) : table.name = name := by
  obtain ⟨schema, hschema, hcreate⟩ := Outcome.bind_eq_ok.mp hcreate
  have hkeep : ∀ before : Table, ∀ column ∈ columns.filter (·.unique), ∀ after : Table,
      before.name = name →
      before.createIndex (indexNameFor name column.name) column.name true = .ok after →
      after.name = name := by
    rintro before column - after hbefore hafter
    obtain ⟨_, _, _, -, -, rfl⟩ := createIndex_eq_ok hafter
    exact hbefore
  exact Outcome.foldlM_invariant (fun table => table.name = name) hkeep
    (columns_of_define hschema).1 hcreate

end RelStore.Table
