import RelStore.Proofs.Table.Actions

/-!
# Histories of a table

A table is reachable when a new one becomes it by any operations, of which each may fail
(`Table.Reachable`). The operations are carried out step by step, and a step of a history leaves
what its operation has left, also when it has failed. On a consistent table that is what the
functions of `Table` say (`Consistent.step_eq`): one that fails has changed nothing. What an
operation that succeeds has done is said once (`Applies`); it keeps a table consistent
(`Consistent.of_apply`), so reachable tables are consistent (`Reachable.consistent`).
-/

namespace RelStore.Table

open BTree (Entry sameKey)

/-- An operation that changes a table. -/
inductive Operation where
  /-- Append a row of some cells. -/
  | insert (cells : Mapping ColumnName Cell)
  /-- Assign what some cells offer to the rows for which conditions hold. -/
  | update (cells : Mapping Text Cell) (conditions : List Condition)
  /-- Delete the rows for which conditions hold. -/
  | delete (conditions : List Condition)
  /-- Create an index. -/
  | createIndex (name : Text) (reference : ColumnName) (unique : Bool)
  /-- Drop the empty positions. -/
  | compact
  /-- Move the counters up to the values in the rows. -/
  | restoreCounters

/-- A table after an operation, unless the operation fails. -/
def apply (table : Table) : Operation → Except Error Table
  | .insert cells => Prod.snd <$> table.insertCells cells
  | .update cells conditions => Prod.snd <$> table.updateCells cells conditions
  | .delete conditions => Prod.snd <$> table.delete conditions
  | .createIndex name reference unique => table.createIndex name reference unique
  | .compact => .ok table.compact.2
  | .restoreCounters => .ok table.restoreCounters

/-- An operation step by step. -/
def Operation.action : Operation → Action Table Unit
  | insert cells => discard (insertCellsM cells)
  | update cells conditions => discard (updateCellsM cells conditions)
  | delete conditions => discard (deleteM conditions)
  | createIndex name reference unique => createIndexM name reference unique
  | compact => compactM
  | restoreCounters => modify Table.restoreCounters

/-- A table after an operation. What one that fails has changed until then stays changed. -/
def step (table : Table) (operation : Operation) : Table := (operation.action.on table).2

/-- A table after some operations, one after the other. -/
def run (table : Table) (operations : List Operation) : Table := operations.foldl step table

/-- A table has come to be from a new one. -/
def Reachable (table : Table) : Prop :=
  ∃ name columns treeOrder created operations,
    create name columns treeOrder = .ok created ∧ created.run operations = table

variable {table : Table}

/-- Operations are carried out one after the other. -/
theorem run_cons (table : Table) (operation : Operation) (rest : List Operation) :
    table.run (operation :: rest) = (table.run [operation]).run rest := rfl

/-- A reachable table is so after more operations. -/
theorem Reachable.run (h : table.Reachable) (operations : List Operation) :
    (table.run operations).Reachable := by
  obtain ⟨name, columns, treeOrder, created, before, hcreated, rfl⟩ := h
  refine ⟨name, columns, treeOrder, created, before ++ operations, hcreated, ?_⟩
  exact List.foldl_append

/-! ## Operations that succeed -/

/-- An insertion succeeds when the cells pass their checks and the row that they make conflicts with
no index; it takes the row and its numbers. -/
theorem insertCells_eq_ok_iff {cells : Mapping ColumnName Cell} {row : Row} {next : Table} :
    table.insertCells cells = .ok (row, next) ↔
      ∃ bare, table.bareNames cells = .ok bare ∧ table.newRow bare = .ok row ∧
        table.indexes.find? (·.conflicts row) = none ∧
        next = { table.append row with counters := table.countersAfter bare } := by
  constructor
  · intro h
    obtain ⟨bare, hbare, h⟩ := Outcome.bind_eq_ok.mp h
    obtain ⟨new, hnew, h⟩ := Outcome.bind_eq_ok.mp h
    split at h
    · cases h
    · next hnone =>
      cases h
      exact ⟨bare, hbare, hnew, hnone, rfl⟩
  · rintro ⟨bare, hbare, hnew, hnone, rfl⟩
    rw [insertCells, hbare, Outcome.ok_bind, hnew, Outcome.ok_bind, hnone]
    rfl

/-- An insertion that succeeds has appended a row that fits. -/
theorem insertCells_eq_ok {cells : Mapping ColumnName Cell} {row : Row} {next : Table}
    (h : table.insertCells cells = .ok (row, next)) :
    row.Fits table.schema ∧ table.indexes.find? (·.conflicts row) = none ∧
      ∃ counters, next = { table.append row with counters := counters } := by
  obtain ⟨bare, -, hnew, hnone, rfl⟩ := insertCells_eq_ok_iff.mp h
  exact ⟨newRow_fits hnew, hnone, _, rfl⟩

/-- An update that succeeds has assigned values for columns of the table. -/
theorem updateCells_eq_ok {cells : Mapping Text Cell} {conditions : List Condition}
    {rows : List Row} {next : Table} (h : table.updateCells cells conditions = .ok (rows, next)) :
    ∃ assigned targets, table.assignments cells = .ok assigned ∧
      table.targets conditions = .ok targets ∧ table.updateConflict? assigned targets = none ∧
      next = (table.assignAll assigned targets).2 := by
  obtain ⟨assigned, hassigned, h⟩ := Outcome.bind_eq_ok.mp h
  obtain ⟨targets, htargets, h⟩ := Outcome.bind_eq_ok.mp h
  split at h
  · cases h
  · next hnone =>
    have hnext := congrArg Prod.snd (Except.ok.inj h)
    exact ⟨assigned, targets, hassigned, htargets, hnone, hnext.symm⟩

/-- A deletion that succeeds has emptied the positions of its targets. -/
theorem delete_eq_ok {conditions : List Condition} {rows : List Row} {next : Table}
    (h : table.delete conditions = .ok (rows, next)) :
    ∃ targets, table.targets conditions = .ok targets ∧ next = (table.deleteAll targets).2 := by
  obtain ⟨targets, htargets, h⟩ := Outcome.bind_eq_ok.mp h
  have hnext := congrArg Prod.snd (Except.ok.inj h)
  exact ⟨targets, htargets, hnext.symm⟩

/-- What an operation that succeeds has done to a table. -/
inductive Applies (table : Table) : Operation → Table → Prop where
  /-- A row made of cells that pass their checks has been appended and has taken its numbers. No
  index has refused it. -/
  | insert {cells bare : Mapping ColumnName Cell} {row : Row}
      (hbare : table.bareNames cells = .ok bare) (hnew : table.newRow bare = .ok row)
      (hnone : table.indexes.find? (·.conflicts row) = none) :
      Applies table (.insert cells)
        { table.append row with counters := table.countersAfter bare }
  /-- Values have been assigned to the rows at the targets. No index has refused them. -/
  | update {cells : Mapping Text Cell} {conditions : List Condition} {assigned : Row}
      {targets : List Nat} (hassigned : table.assignments cells = .ok assigned)
      (htargets : table.targets conditions = .ok targets)
      (hnone : table.updateConflict? assigned targets = none) :
      Applies table (.update cells conditions) (table.assignAll assigned targets).2
  /-- The positions of the targets have been emptied. -/
  | delete {conditions : List Condition} {targets : List Nat}
      (htargets : table.targets conditions = .ok targets) :
      Applies table (.delete conditions) (table.deleteAll targets).2
  /-- An index has been added. -/
  | createIndex {name : Text} {reference : ColumnName} {unique : Bool} {next : Table}
      (hcreate : table.createIndex name reference unique = .ok next) :
      Applies table (.createIndex name reference unique) next
  /-- The empty positions have been dropped. -/
  | compact : Applies table .compact table.compact.2
  /-- The counters have been moved up. -/
  | restoreCounters : Applies table .restoreCounters table.restoreCounters

/-- An operation that succeeds has done one of these things. -/
theorem applies_of_apply {operation : Operation} {next : Table}
    (h : table.apply operation = .ok next) : table.Applies operation next := by
  cases operation with
  | insert cells =>
    obtain ⟨⟨row, _⟩, hinsert, rfl⟩ := Outcome.map_eq_ok.mp h
    obtain ⟨bare, hbare, hnew, hnone, rfl⟩ := insertCells_eq_ok_iff.mp hinsert
    exact .insert hbare hnew hnone
  | update cells conditions =>
    obtain ⟨⟨rows, _⟩, hupdate, rfl⟩ := Outcome.map_eq_ok.mp h
    obtain ⟨assigned, targets, hassigned, htargets, hnone, rfl⟩ := updateCells_eq_ok hupdate
    exact .update hassigned htargets hnone
  | delete conditions =>
    obtain ⟨⟨rows, _⟩, hdelete, rfl⟩ := Outcome.map_eq_ok.mp h
    obtain ⟨targets, htargets, rfl⟩ := delete_eq_ok hdelete
    exact .delete htargets
  | createIndex name reference unique => exact .createIndex h
  | compact =>
    cases h
    exact .compact
  | restoreCounters =>
    cases h
    exact .restoreCounters

/-! ## Consistency -/

/-- The counters of a table have no part in its consistency. -/
theorem Consistent.with_counters (h : table.Consistent) (counters : Mapping ColumnName Nat) :
    Consistent { table with counters := counters } := ⟨h.fits, h.indexed⟩

/-- An operation that succeeds keeps a table consistent, and it keeps its schema and its indexes. -/
theorem Consistent.of_apply (h : table.Consistent) {operation : Operation} {next : Table}
    (happly : table.apply operation = .ok next) :
    next.Consistent ∧ next.schema = table.schema ∧ table.outlines ⊆ next.outlines := by
  -- All operations but the creation of an index leave the outlines of the indexes.
  have same {after : Table} (hafter : after.Consistent ∧ after.schema = table.schema ∧
      after.outlines = table.outlines) :
      after.Consistent ∧ after.schema = table.schema ∧ table.outlines ⊆ after.outlines :=
    ⟨hafter.1, hafter.2.1, hafter.2.2 ▸ List.Subset.refl _⟩
  cases applies_of_apply happly with
  | @insert _ _ row _ hnew _ =>
    exact same ⟨(h.append (newRow_fits hnew)).with_counters _, rfl, table.outlines_append row⟩
  | @update _ _ _ targets hassigned =>
    exact same (h.assignAll (assignments_assigns hassigned) targets)
  | @delete _ targets => exact same (h.deleteAll targets)
  | createIndex hcreate =>
    obtain ⟨hnext, column, tree, -, rfl, -⟩ := h.of_createIndex hcreate
    refine ⟨hnext, rfl, ?_⟩
    rw [outlines, outlines, List.map_append]
    exact List.subset_append_left _ _
  | compact => exact same h.compact
  | restoreCounters => exact same ⟨h.with_counters _, rfl, rfl⟩

/-! ## Steps -/

/-- Operations on a consistent table are all or nothing. -/
theorem Consistent.action_on (h : table.Consistent) (operation : Operation) :
    operation.action.on table =
      Action.settled table ((fun next => ((), next)) <$> table.apply operation) := by
  cases operation with
  | insert cells => exact Action.on_discard_settled (h.insertCellsM_on cells)
  | update cells conditions => exact Action.on_discard_settled (h.updateCellsM_on cells conditions)
  | delete conditions => exact Action.on_discard_settled (h.deleteM_on conditions)
  | createIndex name reference unique => exact table.createIndexM_on name reference unique
  | compact => exact h.compactM_on
  | restoreCounters => rfl

/-- A consistent table becomes the new one, and it stays as it is when the operation fails. -/
theorem Consistent.step_eq (h : table.Consistent) (operation : Operation) :
    table.step operation =
      match table.apply operation with
      | .ok next => next
      | .error _ => table := by
  rw [step, h.action_on operation]
  cases table.apply operation <;> rfl

/-- A step keeps a table consistent, and it keeps its schema. -/
theorem Consistent.step (h : table.Consistent) (operation : Operation) :
    (table.step operation).Consistent ∧ (table.step operation).schema = table.schema := by
  rw [h.step_eq operation]
  split
  · next next hnext =>
    obtain ⟨hconsistent, hschema, -⟩ := h.of_apply hnext
    exact ⟨hconsistent, hschema⟩
  · exact ⟨h, rfl⟩

/-- An operation that succeeds gives the table after it. -/
theorem Consistent.run_of_apply (h : table.Consistent) {operation : Operation} {next : Table}
    (happly : table.apply operation = .ok next) : table.run [operation] = next := by
  have hrun : table.run [operation] = table.step operation := rfl
  rw [hrun, h.step_eq operation, happly]

/-- Operations keep the schema of a table. -/
theorem Consistent.schema_run (h : table.Consistent) (operations : List Operation) :
    (table.run operations).schema = table.schema := by
  induction operations generalizing table with
  | nil => rfl
  | cons operation rest ih =>
    have hrun : table.run (operation :: rest) = (table.step operation).run rest := rfl
    rw [hrun, ih (h.step operation).1, (h.step operation).2]

/-- What holds of new tables and is kept by operations that succeed holds of reachable tables. -/
theorem Reachable.induction (inv : Table → Prop)
    (hcreate : ∀ {name columns treeOrder table}, create name columns treeOrder = .ok table →
      inv table)
    (happly : ∀ {table operation next}, inv table → table.apply operation = .ok next → inv next)
    (h : table.Reachable) : inv table := by
  obtain ⟨name, columns, treeOrder, created, operations, hcreated, rfl⟩ := h
  have hstart : inv created := hcreate hcreated
  have hconsistent : created.Consistent := (Consistent.of_create hcreated).1
  clear hcreated
  -- The induction is on the operations, from any consistent table that has the property.
  induction operations generalizing created with
  | nil => exact hstart
  | cons operation rest ih =>
    refine ih (created.step operation) ?_ (hconsistent.step operation).1
    rw [hconsistent.step_eq operation]
    split
    · next next hnext => exact happly hstart hnext
    · exact hstart

/-- Reachable tables are consistent. -/
theorem Reachable.consistent (h : table.Reachable) : table.Consistent :=
  h.induction Consistent (fun hcreate => (Consistent.of_create hcreate).1)
    fun hconsistent happly => (hconsistent.of_apply happly).1

/-- In a reachable table every live row has its position in the tree of every index once, under a
key that is the same as its cell, and no other position is there; and the row count is the number of
live rows. -/
theorem Reachable.index_row_consistency (h : table.Reachable) :
    (∀ index ∈ table.indexes, ∀ p,
      (index.tree.entries.flatMap Entry.positions).count p =
          (if (table.row? p).isSome then 1 else 0) ∧
        ∀ entry ∈ index.tree.entries, p ∈ entry.positions →
          ∃ row, table.row? p = some row ∧ sameKey entry.key (row.cell index.column) = true) ∧
      table.rowCount = table.live.length := by
  refine ⟨fun index hindex p => ?_, table.rowCount_eq⟩
  obtain ⟨column, hcolumn, hname, hcovers⟩ := h.consistent.indexed index hindex
  refine ⟨hcovers.count_positions (h.consistent.cell_mem hcolumn hname) p, ?_⟩
  exact fun entry hentry hp => (hcovers.mem_positions_iff hentry).mp hp

/-- A table with one column of truth values, which is unique. -/
def flags : Table where
  schema := ⟨"flags", [.define (.text "on") .boolean false true false false], by decide⟩
  treeOrder := 4
  rows := []
  indexes := [⟨"idx_flags_on", "on", true, .empty .default⟩]
  counters := []

/-- Whatever becomes of the table of truth values is reachable. -/
theorem flags_reachable (operations : List Operation) : (flags.run operations).Reachable :=
  ⟨"flags", [.define (.text "on") .boolean false true false false], 4, flags, operations, rfl, rfl⟩

/-- After a deletion the position of a row is no longer in the tree, and that of a later one is. -/
theorem index_row_consistency_flags :
    let table := flags.run [.insert [(.text "on", .value (.bool true))], .delete [],
      .insert [(.text "on", .value (.bool true))]]
    table.Reachable ∧ table.rowCount = 1 ∧ ∀ index ∈ table.indexes,
      (index.tree.entries.flatMap Entry.positions).count 0 = 0 ∧
        (index.tree.entries.flatMap Entry.positions).count 1 = 1 := by
  intro table
  obtain ⟨hindexes, -⟩ := Reachable.index_row_consistency (flags_reachable _ : table.Reachable)
  refine ⟨flags_reachable _, by decide, fun index hindex => ?_⟩
  exact ⟨(hindexes index hindex 0).1, (hindexes index hindex 1).1⟩

end RelStore.Table
