import Mathlib.Data.List.Induction
import RelStore.Proofs.Table.Coverage
import RelStore.Proofs.Table.Live
import RelStore.Proofs.Table.Rows

/-!
# Consistent tables

In a consistent table the live rows fit the schema, and the tree of every index covers its column of
the live rows (`Table.Consistent`). Every change of a table keeps it consistent: a new row, new
values and deletions at any positions, a new index and a compaction. What a change does to the rows
by position is said beside it.
-/

namespace RelStore

/-- What stays of an index when rows change: its name, its column and whether it is unique. -/
def Index.outline (index : Index) : Text × Text × Bool := (index.name, index.column, index.unique)

namespace Table

open BTree (sameKey)

/-- The rows of a table fit its schema, and its indexes cover them. -/
structure Consistent (table : Table) : Prop where
  /-- Every live row fits the schema. -/
  fits : ∀ p row, table.row? p = some row → row.Fits table.schema
  /-- Every index is on a column of the schema, which its tree covers. -/
  indexed : ∀ index ∈ table.indexes, ∃ column ∈ table.schema.columns,
    column.name = .text index.column ∧
      Covers column.type index.column table.row? index.tree

/-- The outlines of the indexes of a table. -/
def outlines (table : Table) : List (Text × Text × Bool) := table.indexes.map Index.outline

section

variable {table : Table}

/-- The cells of live rows are keys of the types of their columns. -/
theorem Consistent.cell_mem (h : table.Consistent) {column : Column}
    (hcolumn : column ∈ table.schema.columns) {name : Text} (hname : column.name = .text name)
    (p : Nat) (row : Row) (hrow : table.row? p = some row) : row.cell name ∈ column.type.keys :=
  (h.fits p row hrow).cell_mem_of_name hcolumn hname

/-- The tree of an index covers the column that the index is on. -/
theorem Consistent.covers (h : table.Consistent) {index : Index} (hindex : index ∈ table.indexes)
    {column : Column} (hcolumn : column ∈ table.schema.columns)
    (hname : column.name = .text index.column) :
    Covers column.type index.column table.row? index.tree := by
  obtain ⟨own, hown, hownName, hcovers⟩ := h.indexed index hindex
  obtain rfl : own = column :=
    Schema.column_eq_of_name hown hcolumn (hownName.trans hname.symm)
  exact hcovers

/-- A table without rows and indexes is consistent. -/
theorem Consistent.of_nil (hrows : table.rows = []) (hindexes : table.indexes = []) :
    table.Consistent := by
  constructor
  · intro p row hrow
    rw [row?_eq, hrows] at hrow
    cases hrow
  · rw [hindexes]
    exact List.forall_mem_nil _

/-! ## New rows -/

/-- A new row stands at the position after all others. -/
theorem row?_append (table : Table) (row : Row) :
    (table.append row).row? = Function.update table.row? table.rows.length (some row) :=
  rowAt_append table.rows (some row)

/-- A new row leaves the outlines of the indexes. -/
theorem outlines_append (table : Table) (row : Row) :
    (table.append row).outlines = table.outlines := by
  rw [outlines, append, List.map_map]
  rfl

/-- A row that fits can be appended. -/
theorem Consistent.append (h : table.Consistent) {row : Row} (hrow : row.Fits table.schema) :
    (table.append row).Consistent := by
  constructor
  · intro p other hother
    rw [row?_append, Function.update_apply] at hother
    split at hother
    · cases hother
      exact hrow
    · exact h.fits p other hother
  · intro index hindex
    -- Every tree gets the key of the new row at a position that was free.
    obtain ⟨old, hold, rfl⟩ := List.mem_map.mp hindex
    obtain ⟨column, hcolumn, hname, hcovers⟩ := h.indexed old hold
    refine ⟨column, hcolumn, hname, ?_⟩
    rw [row?_append]
    exact hcovers.insert (rowAt_of_length_le (Nat.le_refl _))
      (hrow.cell_mem_of_name hcolumn hname)

/-! ## New values -/

/-- The rows after new values have been assigned to one of them. -/
theorem row?_of_assignAt {assigned row : Row} {p : Nat} {next : Table}
    (hassign : table.assignAt assigned p = some (row, next)) :
    next.row? =
      Function.update table.row? p
        ((table.row? p).map fun previous => previous.putAll assigned) := by
  obtain ⟨previous, hprevious, heq⟩ := Option.map_eq_some_iff.mp hassign
  cases heq
  rw [hprevious]
  exact rowAt_set (lt_length_of_rowAt hprevious) _

/-- New values leave the schema and the outlines of the indexes. -/
theorem outlines_of_assignAt {assigned row : Row} {p : Nat} {next : Table}
    (hassign : table.assignAt assigned p = some (row, next)) :
    next.schema = table.schema ∧ next.outlines = table.outlines := by
  obtain ⟨previous, -, heq⟩ := Option.map_eq_some_iff.mp hassign
  cases heq
  refine ⟨rfl, ?_⟩
  rw [outlines, List.map_map]
  refine List.map_congr_left fun index _ => ?_
  dsimp only [Function.comp_apply]
  split <;> rfl

/-- Values that are for columns of the table can be assigned to a row. -/
theorem Consistent.assignAt (h : table.Consistent) {assigned : Row}
    (hassigned : assigned.Assigns table.schema) {row : Row} {p : Nat} {next : Table}
    (hassign : table.assignAt assigned p = some (row, next)) : next.Consistent := by
  have hrows := row?_of_assignAt hassign
  obtain ⟨previous, hprevious, heq⟩ := Option.map_eq_some_iff.mp hassign
  rw [hprevious, Option.map_some] at hrows
  have hfits := h.fits p previous hprevious
  cases heq
  constructor
  · intro q other hother
    rw [hrows, Function.update_apply] at hother
    split at hother
    · cases hother
      exact hfits.putAll hassigned
    · exact h.fits q other hother
  · intro index hindex
    obtain ⟨old, hold, rfl⟩ := List.mem_map.mp hindex
    obtain ⟨column, hcolumn, hname, hcovers⟩ := h.indexed old hold
    rw [hrows]
    have hcell := hfits.cell_mem_of_name hcolumn hname
    have hcell' := (hfits.putAll hassigned).cell_mem_of_name hcolumn hname
    -- Trees of assigned columns lose the old key of the row and get the new one.
    by_cases hhas : assigned.has old.column = true
    · rw [if_pos hhas]
      exact ⟨column, hcolumn, hname, hcovers.replace hprevious hcell hcell'⟩
    · -- The column of this index is not assigned, so its cells are as before.
      rw [if_neg hhas]
      refine ⟨column, hcolumn, hname, hcovers.congr fun q => ?_⟩
      rw [Function.update_apply]
      split
      · next hq =>
        have hnone : Mapping.get? assigned (.text old.column) = none := by
          rw [← Option.not_isSome_iff_eq_none]
          exact hhas
        rw [hq, hprevious, Option.map_some, Option.map_some, Row.cell_putAll previous hassigned,
          hnone]
        rfl
      · rfl

/-- The rows after new values have been assigned to those at some positions. -/
theorem row?_assignAll (table : Table) (assigned : Row) {targets : List Nat}
    (hnodup : targets.Nodup) (p : Nat) :
    (table.assignAll assigned targets).2.row? p =
      if p ∈ targets then (table.row? p).map (·.putAll assigned) else table.row? p := by
  induction targets generalizing table with
  | nil => rfl
  | cons target rest ih =>
    obtain ⟨hnot, hrest⟩ := List.nodup_cons.mp hnodup
    rw [assignAll]
    split
    · next hnone =>
      rw [ih table hrest]
      by_cases hp : p = target
      · have hdead : table.row? target = none := Option.map_eq_none_iff.mp hnone
        rw [hp, if_neg hnot, if_pos List.mem_cons_self, hdead]
        rfl
      · simp only [List.mem_cons, hp, false_or]
    · next row next hassign =>
      dsimp only
      rw [ih next hrest, row?_of_assignAt hassign]
      by_cases hp : p = target
      · rw [hp, if_neg hnot, if_pos List.mem_cons_self, Function.update_self]
      · rw [Function.update_of_ne hp]
        simp only [List.mem_cons, hp, false_or]

/-- The rows that get new values are those at the positions. -/
theorem rows_assignAll (table : Table) (assigned : Row) {targets : List Nat}
    (hnodup : targets.Nodup) :
    (table.assignAll assigned targets).1 =
      (targets.filterMap table.row?).map fun previous => previous.putAll assigned := by
  induction targets generalizing table with
  | nil => rfl
  | cons target rest ih =>
    obtain ⟨hnot, hrest⟩ := List.nodup_cons.mp hnodup
    rw [assignAll, List.filterMap_cons]
    split
    · next hnone =>
      rw [Option.map_eq_none_iff.mp hnone]
      exact ih table hrest
    · next row next hassign =>
      -- The targets to come are other positions, where the rows are still as they were.
      have hothers : rest.filterMap next.row? = rest.filterMap table.row? := by
        refine List.filterMap_congr fun q hq => ?_
        rw [row?_of_assignAt hassign, Function.update_of_ne (ne_of_mem_of_not_mem hq hnot)]
      obtain ⟨previous, hprevious, heq⟩ := Option.map_eq_some_iff.mp hassign
      obtain rfl : previous.putAll assigned = row := congrArg Prod.fst heq
      rw [hprevious, List.map_cons, ← hothers, ← ih next hrest]

/-- What new values for one row keep is kept when they are assigned to some rows. -/
theorem assignAll_invariant {assigned : Row} (inv : Table → Prop)
    (hstep : ∀ {before next : Table} {p : Nat} {row : Row}, inv before →
      before.assignAt assigned p = some (row, next) → inv next)
    (hstart : inv table) (targets : List Nat) : inv (table.assignAll assigned targets).2 := by
  induction targets generalizing table with
  | nil => exact hstart
  | cons target rest ih =>
    rw [assignAll]
    split
    · exact ih hstart
    · next row next hassign => exact ih (hstep hstart hassign)

/-- Values that are for columns of the table can be assigned to rows. -/
theorem Consistent.assignAll (h : table.Consistent) {assigned : Row}
    (hassigned : assigned.Assigns table.schema) (targets : List Nat) :
    (table.assignAll assigned targets).2.Consistent ∧
      (table.assignAll assigned targets).2.schema = table.schema ∧
      (table.assignAll assigned targets).2.outlines = table.outlines := by
  refine assignAll_invariant (fun next => next.Consistent ∧ next.schema = table.schema ∧
    next.outlines = table.outlines) ?_ ⟨h, rfl, rfl⟩ targets
  rintro before next p row ⟨hbefore, hschema, houtlines⟩ hassign
  obtain ⟨hnextSchema, hnextOutlines⟩ := outlines_of_assignAt hassign
  exact ⟨hbefore.assignAt (hschema ▸ hassigned) hassign, hnextSchema.trans hschema,
    hnextOutlines.trans houtlines⟩

/-- Assigning new values leaves the order of trees and the counters. -/
theorem settings_assignAll (table : Table) (assigned : Row) (targets : List Nat) :
    (table.assignAll assigned targets).2.treeOrder = table.treeOrder ∧
      (table.assignAll assigned targets).2.counters = table.counters := by
  refine assignAll_invariant (fun next => next.treeOrder = table.treeOrder ∧
    next.counters = table.counters) (fun hbefore hassign => ?_) ⟨rfl, rfl⟩ targets
  obtain ⟨_, -, heq⟩ := Option.map_eq_some_iff.mp hassign
  cases heq
  exact hbefore

/-! ## Deletions -/

/-- The rows after one of them has been deleted. -/
theorem row?_of_deleteAt {row : Row} {p : Nat} {next : Table}
    (hdelete : table.deleteAt p = some (row, next)) :
    next.row? = Function.update table.row? p none := by
  obtain ⟨row, hrow, heq⟩ := Option.map_eq_some_iff.mp hdelete
  cases heq
  exact rowAt_set (lt_length_of_rowAt hrow) none

/-- A row can be deleted. -/
theorem Consistent.deleteAt (h : table.Consistent) {row : Row} {p : Nat} {next : Table}
    (hdelete : table.deleteAt p = some (row, next)) :
    next.Consistent ∧ next.schema = table.schema ∧ next.outlines = table.outlines := by
  have hrows := row?_of_deleteAt hdelete
  obtain ⟨row, hrow, heq⟩ := Option.map_eq_some_iff.mp hdelete
  cases heq
  refine ⟨⟨fun q other hother => ?_, fun index hindex => ?_⟩, rfl, ?_⟩
  · rw [hrows, Function.update_apply] at hother
    split at hother
    · cases hother
    · exact h.fits q other hother
  · obtain ⟨old, hold, rfl⟩ := List.mem_map.mp hindex
    obtain ⟨column, hcolumn, hname, hcovers⟩ := h.indexed old hold
    rw [hrows]
    exact ⟨column, hcolumn, hname, hcovers.erase hrow (h.cell_mem hcolumn hname p row hrow)⟩
  · rw [outlines, List.map_map]
    rfl

/-- The rows after those at some positions have been deleted. -/
theorem row?_deleteAll (table : Table) (targets : List Nat) (p : Nat) :
    (table.deleteAll targets).2.row? p = if p ∈ targets then none else table.row? p := by
  induction targets generalizing table with
  | nil => rfl
  | cons target rest ih =>
    rw [deleteAll]
    split
    · next hnone =>
      rw [ih table]
      by_cases hp : p = target
      · have hdead : table.row? target = none := Option.map_eq_none_iff.mp hnone
        rw [hp, hdead, if_pos List.mem_cons_self, ite_self]
      · simp only [List.mem_cons, hp, false_or]
    · next row next hdelete =>
      dsimp only
      rw [ih next, row?_of_deleteAt hdelete]
      by_cases hp : p = target
      · rw [hp, Function.update_self, if_pos List.mem_cons_self, ite_self]
      · rw [Function.update_of_ne hp]
        simp only [List.mem_cons, hp, false_or]

/-- The rows that are deleted are those at the positions. -/
theorem rows_deleteAll (table : Table) {targets : List Nat} (hnodup : targets.Nodup) :
    (table.deleteAll targets).1 = targets.filterMap table.row? := by
  induction targets generalizing table with
  | nil => rfl
  | cons target rest ih =>
    obtain ⟨hnot, hrest⟩ := List.nodup_cons.mp hnodup
    rw [deleteAll, List.filterMap_cons]
    split
    · next hnone =>
      rw [Option.map_eq_none_iff.mp hnone]
      exact ih table hrest
    · next row next hdelete =>
      -- The targets to come are other positions, where the rows are still as they were.
      have hothers : rest.filterMap next.row? = rest.filterMap table.row? := by
        refine List.filterMap_congr fun q hq => ?_
        rw [row?_of_deleteAt hdelete, Function.update_of_ne (ne_of_mem_of_not_mem hq hnot)]
      obtain ⟨previous, hprevious, heq⟩ := Option.map_eq_some_iff.mp hdelete
      obtain rfl : previous = row := congrArg Prod.fst heq
      rw [hprevious, ← hothers, ← ih next hrest]

/-- What the deletion of one row keeps is kept when some rows are deleted. -/
theorem deleteAll_invariant (inv : Table → Prop)
    (hstep : ∀ {before next : Table} {p : Nat} {row : Row}, inv before →
      before.deleteAt p = some (row, next) → inv next)
    (hstart : inv table) (targets : List Nat) : inv (table.deleteAll targets).2 := by
  induction targets generalizing table with
  | nil => exact hstart
  | cons target rest ih =>
    rw [deleteAll]
    split
    · exact ih hstart
    · next row next hdelete => exact ih (hstep hstart hdelete)

/-- Rows can be deleted. -/
theorem Consistent.deleteAll (h : table.Consistent) (targets : List Nat) :
    (table.deleteAll targets).2.Consistent ∧
      (table.deleteAll targets).2.schema = table.schema ∧
      (table.deleteAll targets).2.outlines = table.outlines := by
  refine deleteAll_invariant (fun next => next.Consistent ∧ next.schema = table.schema ∧
    next.outlines = table.outlines) ?_ ⟨h, rfl, rfl⟩ targets
  rintro before next p row ⟨hbefore, hschema, houtlines⟩ hdelete
  obtain ⟨hnext, hnextSchema, hnextOutlines⟩ := hbefore.deleteAt hdelete
  exact ⟨hnext, hnextSchema.trans hschema, hnextOutlines.trans houtlines⟩

/-- Deletions leave the order of trees and the counters. -/
theorem settings_deleteAll (table : Table) (targets : List Nat) :
    (table.deleteAll targets).2.treeOrder = table.treeOrder ∧
      (table.deleteAll targets).2.counters = table.counters := by
  refine deleteAll_invariant (fun next => next.treeOrder = table.treeOrder ∧
    next.counters = table.counters) (fun hbefore hdelete => ?_) ⟨rfl, rfl⟩ targets
  obtain ⟨_, -, heq⟩ := Option.map_eq_some_iff.mp hdelete
  cases heq
  exact hbefore

end

end Table

end RelStore
