import RelStore.Proofs.Numerals
import RelStore.Proofs.Table.Typing

/-!
# Columns that count up

A column that counts up has a counter (`Reachable.names_counters`), and an insertion that leaves the
column out stores the next number converted to the type of the column (`newCell_of_takesNumber`).
While no live row holds the key of one of the numbers to come (`Table.Free`), insertions are not
refused on account of the column (`Free.insertCells_ne`), and each takes up one of the numbers
(`Free.insertCells`). Counters that have been moved up are past all integers of their columns, so
their numbers are free in a column of integers (`Reachable.free_restoreCounters`).
-/

namespace RelStore.Table

open BTree (sameKey)

variable {table : Table}

/-- The last number that a column has been given. -/
def count (table : Table) (column : ColumnName) : Nat := (table.counters.get? column).getD 0

/-! ## Counters -/

/-- A value found under a name after a change that is told by the name. -/
theorem get?_map_entries {α β : Type} (m : Mapping ColumnName α) (change : ColumnName → α → β)
    (name : ColumnName) :
    Mapping.get? (m.map fun entry => (entry.1, change entry.1 entry.2)) name =
      (m.get? name).map (change name) := by
  induction m with
  | nil => rfl
  | cons entry rest ih =>
    rw [List.map_cons, Mapping.get?_cons, Mapping.get?_cons, ih]
    by_cases h : entry.1 = name
    · rw [if_pos h, if_pos h, h, Option.map_some]
    · rw [if_neg h, if_neg h]

/-- The names are the same after such a change. -/
theorem names_map_entries {α β : Type} (m : Mapping ColumnName α) (change : ColumnName → α → β) :
    Mapping.names (m.map fun entry => (entry.1, change entry.1 entry.2)) = m.names := by
  rw [Mapping.names, List.map_map]
  rfl

/-- After a new row has taken its numbers, the counter of a column is one further if the row took
one from it. -/
theorem get?_countersAfter (table : Table) (cells : Mapping ColumnName Cell) (column : ColumnName) :
    Mapping.get? (table.countersAfter cells) column =
      (table.counters.get? column).map fun count =>
        if takesNumber cells column then count + 1 else count :=
  get?_map_entries table.counters (fun name count =>
    if takesNumber cells name then count + 1 else count) column

/-- After counters have been moved up, the counter of a column is the greatest integer in it, or the
number that it was. -/
theorem get?_restoreCounters (table : Table) (column : ColumnName) :
    table.restoreCounters.counters.get? column =
      (table.counters.get? column).map (table.greatest column) :=
  get?_map_entries table.counters table.greatest column

/-- The counters after an operation: an insertion takes its numbers from them, they may be moved up,
and all other operations leave them. -/
theorem counters_of_apply {operation : Operation} {next : Table}
    (h : table.apply operation = .ok next) :
    (∃ cells bare, operation = .insert cells ∧ table.bareNames cells = .ok bare ∧
      next.counters = table.countersAfter bare) ∨
    (operation = .restoreCounters ∧ next = table.restoreCounters) ∨
    ((∀ cells, operation ≠ .insert cells) ∧ next.counters = table.counters) := by
  cases applies_of_apply h with
  | @insert cells bare _ hbare => exact .inl ⟨cells, bare, rfl, hbare, rfl⟩
  | @update _ _ assigned targets =>
    exact .inr (.inr ⟨nofun, (settings_assignAll table assigned targets).2⟩)
  | @delete _ targets => exact .inr (.inr ⟨nofun, (settings_deleteAll table targets).2⟩)
  | createIndex hcreate =>
    obtain ⟨_, _, _, -, -, rfl⟩ := createIndex_eq_ok hcreate
    exact .inr (.inr ⟨nofun, rfl⟩)
  | compact =>
    refine .inr (.inr ⟨nofun, ?_⟩)
    unfold compact
    dsimp only
    split <;> rfl
  | restoreCounters => exact .inr (.inl ⟨rfl, rfl⟩)

/-- Operations leave the names of the counters. -/
theorem names_counters_of_apply {operation : Operation} {next : Table}
    (h : table.apply operation = .ok next) : next.counters.names = table.counters.names := by
  rcases counters_of_apply h with ⟨_, bare, -, -, hnext⟩ | ⟨-, rfl⟩ | ⟨-, hnext⟩
  · rw [hnext]
    exact names_map_entries table.counters fun name count =>
      if takesNumber bare name then count + 1 else count
  · exact names_map_entries table.counters table.greatest
  · rw [hnext]

/-- In a new table the columns that count up have their counters, in order, from which no number has
been taken. -/
theorem counters_of_create {name : Text} {columns : List Column} {treeOrder : Int} {created : Table}
    (h : create name columns treeOrder = .ok created) : created.counters =
      (columns.filter (·.autoIncrement)).map fun column => (column.name, 0) := by
  obtain ⟨schema, -, h⟩ := Outcome.bind_eq_ok.mp h
  refine Outcome.foldlM_invariant (fun table : Table => table.counters =
    (columns.filter (·.autoIncrement)).map fun column => (column.name, 0)) ?_ rfl h
  rintro before column - after hbefore hafter
  obtain ⟨_, _, _, -, -, rfl⟩ := createIndex_eq_ok hafter
  exact hbefore

/-- The columns that count up have their counters, in order. -/
theorem Reachable.names_counters (h : table.Reachable) : table.counters.names =
    (table.schema.columns.filter (·.autoIncrement)).map Column.name := by
  have hboth : table.Consistent ∧ table.counters.names =
      (table.schema.columns.filter (·.autoIncrement)).map Column.name := by
    refine h.induction (fun table => table.Consistent ∧ table.counters.names =
      (table.schema.columns.filter (·.autoIncrement)).map Column.name) ?_ ?_
    · intro name columns treeOrder table hcreate
      obtain ⟨hconsistent, -, hcolumns⟩ := Consistent.of_create hcreate
      refine ⟨hconsistent, ?_⟩
      rw [counters_of_create hcreate, hcolumns, Mapping.names, List.map_map]
      rfl
    · rintro table operation next ⟨hconsistent, hnames⟩ happly
      obtain ⟨hnext, hschema, -⟩ := hconsistent.of_apply happly
      exact ⟨hnext, by rw [names_counters_of_apply happly, hnames, hschema]⟩
  exact hboth.2

/-- A column that counts up has a counter. -/
theorem Reachable.get?_counters (h : table.Reachable) {column : Column}
    (hcolumn : column ∈ table.schema.columns) (hauto : column.autoIncrement = true) :
    table.counters.get? column.name = some (table.count column.name) := by
  have hmem : column.name ∈ table.counters.names := by
    rw [h.names_counters]
    exact List.mem_map_of_mem (List.mem_filter.mpr ⟨hcolumn, hauto⟩)
  obtain ⟨count, hcount⟩ := Option.isSome_iff_exists.mp (Mapping.isSome_get?_iff.mpr hmem)
  rw [Table.count, hcount]
  rfl

/-! ## Insertions that leave a column out -/

/-- Cells leave a column to be filled in: there is none for it, or a NULL. -/
def Omits (table : Table) (column : ColumnName) (cells : Mapping ColumnName Cell) : Prop :=
  ∀ bare, table.bareNames cells = .ok bare → takesNumber bare column = true

/-- Where cells leave a column that counts up to be filled in, it gets the next number. -/
theorem newCell_of_takesNumber {cells : Mapping ColumnName Cell} {column : Column}
    (hauto : column.autoIncrement = true) (htakes : takesNumber cells column.name = true) :
    table.newCell cells column = coerce column.type (.int (table.count column.name + 1 : Nat)) := by
  have hoffered : offeredFor cells column = .ok .null := by
    unfold offeredFor
    unfold takesNumber at htakes
    split at htakes
    · next hnone => rw [hnone]
    · next v hv =>
      rw [hv, Value.eq_null_of_isNull htakes]
      rfl
    · cases htakes
  have hfilled : (column.autoIncrement && Value.null.isNull) = true := by
    rw [hauto]
    rfl
  have hallowed : ¬(column.notNull &&
      (Value.int (table.count column.name + 1 : Nat)).isNull) = true := by simp [Value.isNull]
  rw [newCell, hoffered, Outcome.ok_bind, if_pos hfilled]
  exact if_neg hallowed

/-- A new row has the next number in a column that counts up and is left out. -/
theorem coerce_of_newRow {cells : Mapping ColumnName Cell} {row : Row}
    (hrow : table.newRow cells = .ok row) {column : Column}
    (hcolumn : column ∈ table.schema.columns) (hauto : column.autoIncrement = true)
    (htakes : takesNumber cells column.name = true) :
    coerce column.type (.int (table.count column.name + 1 : Nat)) =
      .ok (row.cell column.name) := by
  rw [← newCell_of_takesNumber hauto htakes]
  exact (newRow_eq_ok hrow).2 column hcolumn

/-! ## Refusals -/

section

variable {name : Text} {v : Value}

/-- A reference that leads nowhere is no duplicate. -/
theorem columnName_ne_duplicate (schema : Schema) (reference : ColumnName) :
    schema.columnName reference ≠ .error (.duplicateValue name v) := by
  unfold Schema.columnName Schema.bareName
  split
  · dsimp only
    split
    · split <;> exact nofun
    · split <;> exact nofun
  · exact nofun

/-- The checks of the cells of a row find no duplicate. -/
theorem newCell_ne_duplicate (cells : Mapping ColumnName Cell) (column : Column) :
    table.newCell cells column ≠ .error (.duplicateValue name v) := by
  intro h
  rcases Outcome.bind_eq_error.mp h with h | ⟨offered, -, h⟩
  · unfold offeredFor Cell.valueFor at h
    split at h
    · cases h
    · split at h <;> cases h
  · dsimp only at h
    generalize (if (column.autoIncrement && offered.isNull) = true then
      Value.int (((table.counters.get? column.name).getD 0 + 1 : Nat) : Int) else offered) =
      filled at h
    split at h
    · cases h
    · exact coerce_ne_duplicate _ _ h

/-- An insertion that finds a duplicate in a column has found a row that conflicts with an index on
the column. -/
theorem conflicts_of_insertCells {cells : Mapping ColumnName Cell}
    (h : table.insertCells cells = .error (.duplicateValue name v)) :
    ∃ bare row, table.bareNames cells = .ok bare ∧ table.newRow bare = .ok row ∧
      ∃ index ∈ table.indexes, index.column = name ∧ index.conflicts row = true := by
  rcases Outcome.bind_eq_error.mp h with h | ⟨bare, hbare, h⟩
  · obtain ⟨_, ⟨reference, cell⟩, -, h⟩ := Outcome.exists_of_foldlM_eq_error h
    rcases Outcome.bind_eq_error.mp h with h | ⟨_, -, h⟩
    · exact absurd h (columnName_ne_duplicate _ _)
    · cases h
  rcases Outcome.bind_eq_error.mp h with h | ⟨row, hrow, h⟩
  · obtain ⟨column, -, h⟩ := Outcome.exists_of_mapM_eq_error h
    rcases Outcome.bind_eq_error.mp h with h | ⟨_, -, h⟩
    · exact absurd h (newCell_ne_duplicate _ _)
    · cases h
  split at h
  · next index hfound =>
    have hconflict : index.conflicts row = true := by simpa using List.find?_some hfound
    refine ⟨bare, row, hbare, hrow, index, List.mem_of_find?_eq_some hfound, ?_, hconflict⟩
    have herror : Error.ofDuplicate index.column (row.cell index.column) = .duplicateValue name v :=
      Except.error.inj h
    unfold Error.ofDuplicate at herror
    split at herror
    · exact (Error.duplicateValue.inj herror).1
    · cases herror
  · cases h

end

/-! ## Free numbers -/

/-- The next numbers of a column are free: no live row holds the key of one of them. A column of
floats gets no further than its keys tell numbers apart. -/
structure Free (table : Table) (column : Column) (amount : Nat) : Prop where
  /-- No live row holds the key of one of the numbers. -/
  unheld : ∀ n, table.count column.name < n → n ≤ table.count column.name + amount →
    ∀ v, coerce column.type (.int n) = .ok v →
      ∀ row ∈ table.liveRows, sameKey v (row.cell column.name) = false
  /-- Floats tell the numbers apart. -/
  small : column.type = .float → table.count column.name + amount < twoTo 53

/-- Fewer numbers are free too. -/
theorem Free.mono {column : Column} {amount less : Nat} (h : table.Free column amount)
    (hless : less ≤ amount) : table.Free column less :=
  ⟨fun n hlow hhigh => h.unheld n hlow (by omega), fun hfloat => by have := h.small hfloat; omega⟩

section

variable {column : Column} (hcolumn : column ∈ table.schema.columns)
  (hauto : column.autoIncrement = true) {cells : Mapping ColumnName Cell}
  (homits : table.Omits column.name cells)
include hcolumn hauto homits

/-- While the next number is free, an insertion that leaves the column out is not refused on account
of it. -/
theorem Free.insertCells_ne {amount : Nat} (h : table.Free column (amount + 1))
    (hconsistent : table.Consistent) {name : Text} (hname : column.name = .text name) (v : Value) :
    table.insertCells cells ≠ .error (.duplicateValue name v) := by
  intro herror
  obtain ⟨bare, row, hbare, hrow, index, hindex, rfl, hconflict⟩ := conflicts_of_insertCells herror
  have hcell := coerce_of_newRow hrow hcolumn hauto (homits bare hbare)
  obtain ⟨-, -, p, other, hother, hsame⟩ :=
    (hconsistent.conflicts_iff hindex (newRow_fits hrow)).mp hconflict
  have hapart := h.unheld _ (Nat.lt_succ_self _) (by omega) _ hcell other
    (mem_liveRows_iff.mpr ⟨p, hother⟩)
  rw [hname, hsame] at hapart
  cases hapart

/-- An insertion that leaves the column out takes up one of its numbers. -/
theorem Free.insertCells {amount : Nat} (h : table.Free column (amount + 1))
    (hcounter : table.counters.get? column.name = some (table.count column.name)) {row : Row}
    {next : Table} (hinsert : table.insertCells cells = .ok (row, next)) :
    next.Free column amount := by
  obtain ⟨bare, hbare, hrow, -, rfl⟩ := insertCells_eq_ok_iff.mp hinsert
  have htakes := homits bare hbare
  have hget : Mapping.get? (table.countersAfter bare) column.name =
      some (table.count column.name + 1) := by
    rw [get?_countersAfter, hcounter, Option.map_some, if_pos htakes]
  have hcount : ({ table.append row with counters := table.countersAfter bare } : Table).count
      column.name = table.count column.name + 1 := congrArg (·.getD 0) hget
  have hlive : ({ table.append row with counters := table.countersAfter bare } : Table).liveRows =
      table.liveRows ++ [row] := table.liveRows_append row
  refine ⟨fun n hlow hhigh v hv other hother => ?_, fun hfloat => ?_⟩
  · rw [hcount] at hlow hhigh
    rw [hlive, List.mem_append, List.mem_singleton] at hother
    rcases hother with hother | rfl
    · exact h.unheld n (by omega) (by omega) v hv other hother
    · -- The new row holds the key of the number before, which is another one.
      refine coerce_apart (Nat.ne_of_gt hlow) (fun hfloat => ?_) hv
        (coerce_of_newRow hrow hcolumn hauto htakes)
      have hsmall := h.small hfloat
      omega
  · have hsmall := h.small hfloat
    omega

end

/-- What cells leave out is told by the schema. -/
theorem Omits.of_schema {other : Table} {column : ColumnName} {cells : Mapping ColumnName Cell}
    (h : table.Omits column cells) (hschema : other.schema = table.schema) :
    other.Omits column cells := by
  unfold Omits bareNames
  rw [hschema]
  exact h

/-- While numbers are free, insertions that leave the column out are not refused on account of it,
whichever of them fail for other reasons. -/
theorem Free.run_insertCells_ne (hreachable : table.Reachable) {column : Column}
    (hcolumn : column ∈ table.schema.columns) (hauto : column.autoIncrement = true) {name : Text}
    (hname : column.name = .text name) {before : List (Mapping ColumnName Cell)}
    {cells : Mapping ColumnName Cell} (hfree : table.Free column (before.length + 1))
    (hbefore : ∀ request ∈ before, table.Omits column.name request)
    (hcells : table.Omits column.name cells) (v : Value) :
    (table.run (before.map .insert)).insertCells cells ≠ .error (.duplicateValue name v) := by
  -- The induction is on the insertions before, from any table whose numbers are free.
  induction before generalizing table with
  | nil => exact hfree.insertCells_ne hcolumn hauto hcells hreachable.consistent hname v
  | cons first rest ih =>
    obtain ⟨hfirst, hrest⟩ := List.forall_mem_cons.mp hbefore
    have hschema : (table.run [.insert first]).schema = table.schema :=
      hreachable.consistent.schema_run _
    have hnext : (table.run [.insert first]).Free column (rest.length + 1) := by
      change (table.step (.insert first)).Free column (rest.length + 1)
      rw [hreachable.consistent.step_eq]
      split
      · next next happly =>
        obtain ⟨⟨row, _⟩, hinsert, rfl⟩ := Outcome.map_eq_ok.mp happly
        exact hfree.insertCells hcolumn hauto hfirst (hreachable.get?_counters hcolumn hauto)
          hinsert
      · exact hfree.mono (Nat.le_succ _)
    rw [List.map_cons, run_cons]
    exact ih (hreachable.run _) (hschema ▸ hcolumn) hnext
      (fun request hrequest => (hrest request hrequest).of_schema hschema)
      (hcells.of_schema hschema)

/-- Where a live row holds the key of the next number of a unique column, nothing that leaves the
column out can be inserted. -/
theorem Reachable.insertCells_ne_ok (h : table.Reachable) {column : Column}
    (hcolumn : column ∈ table.schema.columns) (hauto : column.autoIncrement = true)
    (hunique : column.unique = true) {name : Text} (hname : column.name = .text name)
    (hplain : RelStore.Plain name) {v : Value}
    (hv : coerce column.type (.int (table.count column.name + 1 : Nat)) = .ok v) {row : Row}
    (hrow : row ∈ table.liveRows) (hsame : sameKey v (row.cell column.name) = true)
    {cells : Mapping ColumnName Cell} (hcells : table.Omits column.name cells)
    (outcome : Row × Table) : table.insertCells cells ≠ .ok outcome := by
  obtain ⟨new, next⟩ := outcome
  intro hok
  obtain ⟨bare, hbare, hnew, hnone, -⟩ := insertCells_eq_ok_iff.mp hok
  have hcell := coerce_of_newRow hnew hcolumn hauto (hcells bare hbare)
  obtain rfl : v = new.cell column.name := Except.ok.inj (hv.symm.trans hcell)
  obtain ⟨_, hsomeName, hindexed⟩ := h.guarded column hcolumn hunique
  obtain rfl := ColumnName.text.inj (hname.symm.trans hsomeName)
  obtain ⟨indexName, houtline⟩ := hindexed (splitQualified?_of_plain hplain)
  obtain ⟨index, hindex, heq⟩ := List.mem_map.mp houtline
  have hindexColumn : index.column = name := congrArg (·.2.1) heq
  have hindexUnique : index.unique = true := congrArg (·.2.2) heq
  obtain ⟨p, hp⟩ := mem_liveRows_iff.mp hrow
  refine List.find?_eq_none.mp hnone index hindex
    ((h.consistent.conflicts_iff hindex (newRow_fits hnew)).mpr ⟨hindexUnique, ?_, p, row, hp, ?_⟩)
  · rw [hindexColumn, ← hname]
    exact (coerce_idempotent hcell).2
  · rw [hindexColumn, ← hname]
    exact hsame

/-! ## Counters that have been moved up -/

/-- A number, or the integer that a row has in a column if that is greater. -/
def raise (column : ColumnName) (best : Nat) (row : Row) : Nat :=
  match row.cell column with
  | .int n => max best n.toNat
  | _ => best

/-- Raising a number does not lower it. -/
theorem le_raise (column : ColumnName) (best : Nat) (row : Row) : best ≤ raise column best row := by
  unfold raise
  split
  · exact Nat.le_max_left _ _
  · exact Nat.le_refl _

/-- Raising a number by many rows does not lower it. -/
theorem le_foldl_raise (column : ColumnName) (best : Nat) (rows : List Row) :
    best ≤ rows.foldl (raise column) best := by
  induction rows generalizing best with
  | nil => exact Nat.le_refl _
  | cons row rest ih => exact Nat.le_trans (le_raise column best row) (ih _)

/-- The greatest integer is not below any integer of the column. -/
theorem le_greatest (table : Table) (column : ColumnName) (least : Nat) {row : Row}
    (hrow : row ∈ table.liveRows) {n : Int} (hcell : row.cell column = .int n) :
    n ≤ table.greatest column least := by
  -- When the row has its turn the number is raised to the integer, and later rows do not lower it.
  obtain ⟨before, after, hsplit⟩ := List.append_of_mem hrow
  have hgreatest : table.greatest column least = after.foldl (raise column)
      (raise column (before.foldl (raise column) least) row) := by
    have hfold : table.greatest column least = table.liveRows.foldl (raise column) least := rfl
    rw [hfold, hsplit, List.foldl_append, List.foldl_cons]
  have hraised : n ≤ raise column (before.foldl (raise column) least) row := by
    unfold raise
    rw [hcell]
    dsimp only
    omega
  have hlater := le_foldl_raise column (raise column (before.foldl (raise column) least) row) after
  rw [hgreatest]
  omega

/-- Counters are moved up to the greatest integers of their columns. -/
theorem Reachable.count_restoreCounters (h : table.Reachable) {column : Column}
    (hcolumn : column ∈ table.schema.columns) (hauto : column.autoIncrement = true) :
    table.restoreCounters.count column.name =
      table.greatest column.name (table.count column.name) := by
  rw [count, get?_restoreCounters, h.get?_counters hcolumn hauto]
  rfl

/-- A live row has NULL in a column of integers, or an integer. -/
theorem Reachable.cell_of_int (h : table.Reachable) {column : Column}
    (hcolumn : column ∈ table.schema.columns) (hint : column.type = .int) {row : Row}
    (hrow : row ∈ table.liveRows) :
    row.cell column.name = .null ∨ ∃ n, row.cell column.name = .int n := by
  have htakes := (h.admits row hrow column hcolumn).takes.1
  rw [hint] at htakes
  cases hcell : row.cell column.name with
  | null => exact .inl rfl
  | int n => exact .inr ⟨n, rfl⟩
  | _ =>
    rw [hcell] at htakes
    cases htakes

/-- After counters have been moved up, all numbers to come are free in a column of integers. -/
theorem Reachable.free_restoreCounters (h : table.Reachable) {column : Column}
    (hcolumn : column ∈ table.schema.columns) (hauto : column.autoIncrement = true)
    (hint : column.type = .int) (amount : Nat) : table.restoreCounters.Free column amount := by
  have hcount := h.count_restoreCounters hcolumn hauto
  refine ⟨fun n hlow _ v hv row hrow => ?_, fun hfloat => ?_⟩
  · rw [hint] at hv
    obtain rfl : Value.int n = v := Option.some.inj (toType?_of_coerce hv)
    rw [← Bool.not_eq_true, Value.sameKey_iff]
    rcases h.cell_of_int hcolumn hint hrow with hcell | ⟨m, hcell⟩
    · rw [hcell]
      exact nofun
    · have hle := table.le_greatest column.name (table.count column.name) hrow hcell
      rw [hcell]
      exact Value.compare_ne_of_places rfl rfl rfl rfl (by omega)
  · rw [hint] at hfloat
    cases hfloat

end RelStore.Table
