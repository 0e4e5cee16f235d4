import RelStore.Proofs.Table.Layout

/-!
# What updates and deletions change

An update gives the rows for which its conditions hold the values that it offers, each converted to
the type of its column (`Row.Updated`), and a deletion empties their positions. All else stays: the
rows of other kinds at their positions, the empty positions, the counters and the outlines of the
indexes (`Updates`, `Deletes`). Which rows these are is told by the table before the change, though
the conditions may be about a column that is assigned and the targets may come from an index that
changes with them (`Reachable.changes_targets`).
-/

namespace RelStore

/-! ## Offered values -/

/-- The last of some cells that is offered for a column. -/
def Schema.lastOffer? (schema : Schema) (cells : Mapping Text Cell) (column : ColumnName) :
    Option Cell :=
  let offers := cells.filter fun entry =>
    (ColumnName.text <$> schema.columnName entry.1 : Except Error ColumnName) = .ok column
  offers.getLast?.map Prod.snd

/-- A cell becomes a value in columns of a type: what it offers is converted to the type. -/
def Cell.Becomes (type : DataType) (cell : Cell) (v : Value) : Prop :=
  ∃ offered, cell.valueFor type = .ok offered ∧ coerce type offered = .ok v

/-- A row has got what some cells offer: the columns for which there is an offer have the last one,
and the others have what they had. -/
structure Row.Updated (schema : Schema) (cells : Mapping Text Cell) (old new : Row) : Prop where
  /-- The columns are the same, in the same order. -/
  names_eq : new.names = old.names
  /-- A column for which there is an offer has what the last one becomes in its type. -/
  offered : ∀ column ∈ schema.columns, ∀ cell, schema.lastOffer? cells column.name = some cell →
    cell.Becomes column.type (new.cell column.name)
  /-- A column for which there is no offer has what it had. -/
  kept : ∀ column ∈ schema.columns, schema.lastOffer? cells column.name = none →
    new.cell column.name = old.cell column.name

namespace Table

variable {table : Table}

/-- One more cell is the last offer for its column and leaves those for the others. -/
theorem lastOffer?_concat {schema : Schema} {reference name : Text}
    (hname : schema.columnName reference = .ok name) (cells : Mapping Text Cell) (cell : Cell)
    (column : ColumnName) :
    schema.lastOffer? (cells ++ [(reference, cell)]) column =
      if ColumnName.text name = column then some cell else schema.lastOffer? cells column := by
  have hok : (ColumnName.text <$> schema.columnName reference : Except Error ColumnName) =
      .ok (.text name) := by
    rw [hname]
    rfl
  unfold Schema.lastOffer?
  dsimp only
  rw [List.filter_append, List.getLast?_append, List.filter_singleton, hok]
  by_cases hcolumn : ColumnName.text name = column
  · rw [if_pos hcolumn, hcolumn, decide_eq_true rfl]
    rfl
  · have hnot : (Except.ok (ColumnName.text name) : Except Error ColumnName) ≠ .ok column :=
      fun h => hcolumn (Except.ok.inj h)
    rw [if_neg hcolumn, decide_eq_false hnot]
    rfl

/-- The new values of an update are what the last offers become, column by column. -/
theorem assignments_offered {cells : Mapping Text Cell} {assigned : Row}
    (h : table.assignments cells = .ok assigned) {column : Column}
    (hcolumn : column ∈ table.schema.columns) :
    Option.Rel (Cell.Becomes column.type) (table.schema.lastOffer? cells column.name)
      (Mapping.get? assigned column.name) := by
  -- The induction is on the cells from the end, where the last offer stands.
  induction cells using List.reverseRecOn generalizing assigned with
  | nil =>
    cases h
    exact .none
  | append_singleton cells entry ih =>
    obtain ⟨reference, cell⟩ := entry
    rw [assignments, List.foldlM_append] at h
    obtain ⟨before, hbefore, h⟩ := Outcome.bind_eq_ok.mp h
    rw [List.foldlM_cons] at h
    obtain ⟨next, hnext, h⟩ := Outcome.bind_eq_ok.mp h
    cases h
    obtain ⟨name, hname, hnext⟩ := Outcome.bind_eq_ok.mp hnext
    split at hnext
    · cases hnext
    · next definition hdefinition =>
      obtain ⟨hmem, hdefinitionName⟩ := Schema.column?_eq_some hdefinition
      obtain ⟨offered, hoffered, hnext⟩ := Outcome.bind_eq_ok.mp hnext
      obtain ⟨-, hnext⟩ := Outcome.unless_eq_ok.mp hnext
      obtain ⟨v, hv, hnext⟩ := Outcome.bind_eq_ok.mp hnext
      cases hnext
      rw [lastOffer?_concat hname, Mapping.get?_put]
      by_cases hsame : ColumnName.text name = column.name
      · obtain rfl : definition = column :=
          Schema.column_eq_of_name hmem hcolumn (hdefinitionName.trans hsame)
        rw [if_pos hsame, if_pos hsame]
        exact .some ⟨offered, hoffered, hv⟩
      · rw [if_neg hsame, if_neg hsame]
        exact ih hbefore

/-- A row to which the new values of an update have been assigned has got what it offers. -/
theorem updated_putAll {cells : Mapping Text Cell} {assigned row : Row}
    (h : table.assignments cells = .ok assigned) (hrow : row.Fits table.schema) :
    Row.Updated table.schema cells row (row.putAll assigned) := by
  have hassigns := assignments_assigns h
  constructor
  · rw [(hrow.putAll hassigns).names_eq, hrow.names_eq]
  · intro column hcolumn cell hoffer
    have hrel := assignments_offered h hcolumn
    rw [Row.cell_putAll row hassigns]
    generalize Mapping.get? assigned column.name = v? at hrel ⊢
    rw [hoffer] at hrel
    cases hrel with
    | some hbecomes => exact hbecomes
  · intro column hcolumn hoffer
    have hrel := assignments_offered h hcolumn
    rw [Row.cell_putAll row hassigns]
    generalize Mapping.get? assigned column.name = v? at hrel ⊢
    rw [hoffer] at hrel
    cases hrel with
    | none => rfl

/-! ## Rows by position -/

/-- Lists of positions are the same when they are equally long and have the same rows. -/
theorem rows_eq_of_rowAt {rows others : List (Option Row)} (hlength : rows.length = others.length)
    (h : ∀ p, rowAt rows p = rowAt others p) : rows = others := by
  refine List.ext_getElem hlength fun p hp hp' => ?_
  have hrow := h p
  rw [rowAt, rowAt, List.getElem?_eq_getElem hp, List.getElem?_eq_getElem hp'] at hrow
  exact hrow

/-- Where a function of rows is applied at all positions, it is at each. -/
theorem rowAt_map (rows : List (Option Row)) (change : Option Row → Option Row)
    (hnone : change none = none) (p : Nat) :
    rowAt (rows.map change) p = change (rowAt rows p) := by
  rw [rowAt, rowAt, List.getElem?_map]
  cases rows[p]? with
  | none => exact hnone.symm
  | some row? => rfl

/-- Assigning new values leaves the number of positions. -/
theorem length_rows_assignAll (table : Table) (assigned : Row) (targets : List Nat) :
    (table.assignAll assigned targets).2.rows.length = table.rows.length := by
  refine assignAll_invariant (fun next => next.rows.length = table.rows.length)
    (fun hbefore hassign => ?_) rfl targets
  obtain ⟨_, -, heq⟩ := Option.map_eq_some_iff.mp hassign
  cases heq
  exact List.length_set.trans hbefore

/-- Deletions leave the number of positions. -/
theorem length_rows_deleteAll (table : Table) (targets : List Nat) :
    (table.deleteAll targets).2.rows.length = table.rows.length := by
  refine deleteAll_invariant (fun next => next.rows.length = table.rows.length)
    (fun hbefore hdelete => ?_) rfl targets
  obtain ⟨_, -, heq⟩ := Option.map_eq_some_iff.mp hdelete
  cases heq
  exact List.length_set.trans hbefore

/-- After new values have been assigned to the rows of a kind, every position has what it had, or
the row with the values. -/
theorem rows_of_assignAll (table : Table) (assigned : Row) (keep : Row → Bool) :
    (table.assignAll assigned (table.positionsOf keep)).2.rows =
      table.rows.map (·.map fun row => if keep row then row.putAll assigned else row) := by
  refine rows_eq_of_rowAt ?_ fun p => ?_
  · rw [length_rows_assignAll, List.length_map]
  · rw [rowAt_map _ _ rfl, ← row?_eq, ← row?_eq,
      row?_assignAll table assigned (table.nodup_positionsOf keep)]
    cases hrow : table.row? p with
    | none => simp
    | some row =>
      simp only [mem_positionsOf_of_row? hrow, Option.map_some]
      split <;> rfl

/-- After the rows of a kind have been deleted, their positions are empty and the others have what
they had. -/
theorem rows_of_deleteAll (table : Table) (keep : Row → Bool) :
    (table.deleteAll (table.positionsOf keep)).2.rows =
      table.rows.map (·.filter fun row => !keep row) := by
  refine rows_eq_of_rowAt ?_ fun p => ?_
  · rw [length_rows_deleteAll, List.length_map]
  · rw [rowAt_map _ _ rfl, ← row?_eq, ← row?_eq, row?_deleteAll]
    cases hrow : table.row? p with
    | none => simp
    | some row =>
      simp only [mem_positionsOf_of_row? hrow, Option.filter_some]
      cases keep row <;> rfl

/-- The positions of rows of a kind have these rows, in the same order. -/
theorem map_row?_positionsOf (table : Table) (keep : Row → Bool) :
    (table.positionsOf keep).map table.row? = (table.liveRows.filter keep).map some := by
  have hrow : ∀ item ∈ table.live.filter fun item => keep item.2,
      (table.row? ∘ Prod.fst) item = (some ∘ Prod.snd) item :=
    fun item hitem => mem_live_iff.mp (List.mem_of_mem_filter hitem)
  rw [← filterMap_row?_positionsOf, positionsOf, filterMap_row?_live, List.map_map, List.map_map]
  exact List.map_congr_left hrow

/-! ## Effects -/

/-- What an update of the rows for which something holds makes of a table, and which rows it
returns. -/
structure Updates (table : Table) (cells : Mapping Text Cell) (holds : Row → Bool)
    (rows : List Row) (next : Table) : Prop extends Keeps table next where
  /-- The same positions have rows, and the same are empty. -/
  positions : next.rows.map Option.isSome = table.rows.map Option.isSome
  /-- The rows for which it holds have got what the cells offer. -/
  updated : ∀ p row, table.row? p = some row → holds row = true →
    ∃ new, next.row? p = some new ∧ row.Updated table.schema cells new
  /-- The other rows are as they were. -/
  kept : ∀ p row, table.row? p = some row → holds row = false → next.row? p = some row
  /-- The new versions of the rows are returned in the order of their positions. -/
  returned : rows.map some = (table.positionsOf holds).map next.row?

/-- What a deletion of the rows for which something holds makes of a table, and which rows it
returns. -/
structure Deletes (table : Table) (holds : Row → Bool) (rows : List Row) (next : Table) : Prop
    extends Keeps table next where
  /-- The rows for which it holds leave their positions empty, and all other positions are as they
  were. -/
  rows_eq : next.rows = table.rows.map (·.filter fun row => !holds row)
  /-- The rows are returned as they were, in the order of their positions. -/
  returned : rows.map some = (table.positionsOf holds).map table.row?

/-- The conditions of a statement, with bare column names, tell the rows of a table apart: they can
be compared with all live rows, and a selection gives the rows for which they hold. -/
structure Tells (table : Table) (conditions bare : List Condition) : Prop where
  /-- The names of their columns are the bare ones. -/
  bare_eq : table.bareConditions conditions = .ok bare
  /-- They can be compared with all live rows. -/
  applies : (table.liveRows.all fun row => bare.all (Condition.applies · row)) = true
  /-- The rows for which they hold are those that a selection gives. -/
  select : table.select conditions = .ok (table.liveRows.filter fun row => row.matches bare)

/-- Where targets are told, they are the positions of the rows for which the conditions hold. -/
theorem Consistent.targets_eq_ok (h : table.Consistent) {conditions : List Condition}
    (hliterals : ∀ c ∈ conditions, c.value ≠ .float .nan) {targets : List Nat}
    (htargets : table.targets conditions = .ok targets) :
    ∃ bare, table.Tells conditions bare ∧ targets = table.positionsOf (·.matches bare) := by
  obtain ⟨bare, hbare, -⟩ := Outcome.bind_eq_ok.mp htargets
  rw [h.targets_eq hbare hliterals, Condition.select] at htargets
  split at htargets
  · next happlies =>
    cases htargets
    refine ⟨bare, ⟨hbare, happlies, ?_⟩, rfl⟩
    rw [h.select_eq hbare hliterals, Condition.select]
    exact if_pos happlies
  · cases htargets

/-- An update that succeeds gives the rows for which its conditions hold what it offers. -/
theorem Consistent.updates_of_updateCells (h : table.Consistent) {conditions : List Condition}
    (hliterals : ∀ c ∈ conditions, c.value ≠ .float .nan) {cells : Mapping Text Cell}
    {rows : List Row} {next : Table}
    (hupdate : table.updateCells cells conditions = .ok (rows, next)) :
    ∃ bare, table.Tells conditions bare ∧ table.Updates cells (·.matches bare) rows next := by
  obtain ⟨assigned, hassigned, hupdate⟩ := Outcome.bind_eq_ok.mp hupdate
  obtain ⟨targets, htargets, hupdate⟩ := Outcome.bind_eq_ok.mp hupdate
  obtain ⟨bare, htells, rfl⟩ := h.targets_eq_ok hliterals htargets
  split at hupdate
  · cases hupdate
  · -- No key is put twice, so the values are assigned at the targets.
    have hresult := Except.ok.inj hupdate
    obtain rfl := congrArg Prod.fst hresult
    obtain rfl := congrArg Prod.snd hresult
    obtain ⟨-, hkeeps⟩ :=
      h.keeps_assignAll (assignments_assigns hassigned) (table.positionsOf (·.matches bare))
    have hrows := table.row?_assignAll assigned (table.nodup_positionsOf (·.matches bare))
    refine ⟨bare, htells, hkeeps, ?_, ?_, ?_, ?_⟩
    · rw [rows_of_assignAll, List.map_map]
      exact List.map_congr_left fun row? _ => Option.isSome_map
    · intro p row hrow hholds
      refine ⟨row.putAll assigned, ?_, updated_putAll hassigned (h.fits p row hrow)⟩
      rw [hrows, if_pos ((mem_positionsOf_of_row? hrow).mpr hholds), hrow]
      rfl
    · intro p row hrow hholds
      have hnot : p ∉ table.positionsOf (·.matches bare) := by
        rw [mem_positionsOf_of_row? hrow, hholds]
        exact Bool.false_ne_true
      rw [hrows, if_neg hnot, hrow]
    · -- At the targets, the rows are those from before with the new values.
      have hnew : ∀ p ∈ table.positionsOf (·.matches bare),
          (table.assignAll assigned (table.positionsOf (·.matches bare))).2.row? p =
            (table.row? p).map (·.putAll assigned) := fun p hp => by rw [hrows, if_pos hp]
      rw [rows_assignAll _ _ (nodup_positionsOf _ _), filterMap_row?_positionsOf,
        List.map_congr_left hnew]
      calc (((table.liveRows.filter (·.matches bare)).map (·.putAll assigned)).map some)
          = ((table.liveRows.filter (·.matches bare)).map some).map
              (Option.map (·.putAll assigned)) := by rw [List.map_map, List.map_map]; rfl
        _ = ((table.positionsOf (·.matches bare)).map table.row?).map
              (Option.map (·.putAll assigned)) := by rw [map_row?_positionsOf]
        _ = _ := List.map_map

/-- A deletion that succeeds removes the rows for which its conditions hold, and then no row is
selected with them. -/
theorem Consistent.deletes_of_delete (h : table.Consistent) {conditions : List Condition}
    (hliterals : ∀ c ∈ conditions, c.value ≠ .float .nan) {rows : List Row} {next : Table}
    (hdelete : table.delete conditions = .ok (rows, next)) :
    ∃ bare, table.Tells conditions bare ∧
      table.Deletes (·.matches bare) rows next ∧ next.select conditions = .ok [] := by
  obtain ⟨targets, htargets, hdelete⟩ := Outcome.bind_eq_ok.mp hdelete
  obtain ⟨bare, htells, rfl⟩ := h.targets_eq_ok hliterals htargets
  have hresult := Except.ok.inj hdelete
  obtain rfl := congrArg Prod.fst hresult
  obtain rfl := congrArg Prod.snd hresult
  obtain ⟨hnext, hkeeps⟩ := h.keeps_deleteAll (table.positionsOf (·.matches bare))
  refine ⟨bare, htells, ⟨hkeeps, rows_of_deleteAll _ _, ?_⟩, ?_⟩
  · rw [rows_deleteAll _ (nodup_positionsOf _ _), filterMap_row?_positionsOf,
      map_row?_positionsOf]
  · -- The rows that are left were compared before, and the conditions hold for none of them.
    have hleft := table.liveRows_deleteAll (·.matches bare)
    have hbareNext : (table.deleteAll (table.positionsOf (·.matches bare))).2.bareConditions
        conditions = .ok bare := by
      rw [bareConditions, hkeeps.schema]
      exact htells.bare_eq
    rw [hnext.select_eq hbareNext hliterals, hleft, Condition.select, if_pos]
    · refine congrArg Except.ok (List.filter_eq_nil_iff.mpr fun row hrow => ?_)
      simpa using (List.mem_filter.mp hrow).2
    · exact List.all_eq_true.mpr fun row hrow =>
        List.all_eq_true.mp htells.applies row (List.mem_of_mem_filter hrow)

/-- In a reachable table and with literals other than `nan`, an update that succeeds and a deletion
that does change exactly the rows for which the conditions held before, which are those that a
selection gave, and a selection with the conditions of a deletion then has no rows. The conditions
are tried with bare column names, which changes nothing where no qualified reference is itself the
name of a column. -/
theorem Reachable.changes_targets (h : table.Reachable) {conditions : List Condition}
    (hliterals : ∀ c ∈ conditions, c.value ≠ .float .nan) :
    (∀ cells rows next, table.updateCells cells conditions = .ok (rows, next) →
      ∃ bare, table.Tells conditions bare ∧ table.Updates cells (·.matches bare) rows next) ∧
    (∀ rows next, table.delete conditions = .ok (rows, next) →
      ∃ bare, table.Tells conditions bare ∧
        table.Deletes (·.matches bare) rows next ∧ next.select conditions = .ok []) ∧
    (∀ bare, table.Tells conditions bare → table.schema.Unambiguous conditions →
      ∀ row ∈ table.liveRows, row.matches bare = row.matches conditions) := by
  refine ⟨fun cells rows next => h.consistent.updates_of_updateCells hliterals,
    fun rows next => h.consistent.deletes_of_delete hliterals, ?_⟩
  intro bare htells hplain row hrow
  obtain ⟨p, hp⟩ := mem_liveRows_iff.mp hrow
  exact h.consistent.matches_bare htells.bare_eq hplain hp

/-- An update of the column that its condition is about gives the second row another value, and a
deletion empties its position, which no selection then finds. -/
theorem changes_targets_flags :
    let table := flags.run [.insert [(.text "on", .value .null)],
      .insert [(.text "on", .value (.bool true))]]
    let conditions : List Condition := [⟨"flags.on", .ge, .bool true, none⟩]
    table.Reachable ∧ (∀ c ∈ conditions, c.value ≠ .float .nan) ∧
      (∃ rows next, table.updateCells [("on", .value (.bool false))] conditions =
          .ok (rows, next) ∧
        (∃ new, next.row? 1 = some new ∧ new.cell (.text "on") = .bool false ∧
          rows.map some = [some new]) ∧
        next.row? 0 = table.row? 0 ∧ next.counters = table.counters) ∧
      ∃ rows next, table.delete conditions = .ok (rows, next) ∧
        next.rows = [table.row? 0, none] ∧ rows.map some = [table.row? 1] ∧
        next.select conditions = .ok [] := by
  intro table conditions
  have hreachable : table.Reachable := flags_reachable _
  have hliterals : ∀ c ∈ conditions, c.value ≠ .float .nan := List.forall_mem_singleton.mpr nofun
  obtain ⟨hupdates, hdeletes, -⟩ := Reachable.changes_targets hreachable hliterals
  refine ⟨hreachable, hliterals, ?_, ?_⟩
  · obtain ⟨⟨rows, next⟩, hupdate⟩ : ∃ result,
        table.updateCells [("on", .value (.bool false))] conditions = .ok result := ⟨_, rfl⟩
    obtain ⟨bare, htells, h⟩ := hupdates _ rows next hupdate
    obtain rfl : [⟨"on", .ge, .bool true, none⟩] = bare := Except.ok.inj htells.bare_eq
    obtain ⟨new, hnew, hrow⟩ := h.updated 1 _ rfl rfl
    refine ⟨rows, next, hupdate, ⟨new, hnew, ?_, ?_⟩, h.kept 0 _ rfl rfl, h.counters⟩
    · obtain ⟨offered, hoffered, hv⟩ := hrow.offered _ List.mem_cons_self _ rfl
      cases hoffered
      exact (Except.ok.inj hv).symm
    · exact h.returned.trans (congrArg (fun row? => [row?]) hnew)
  · obtain ⟨⟨rows, next⟩, hdelete⟩ : ∃ result, table.delete conditions = .ok result := ⟨_, rfl⟩
    obtain ⟨bare, htells, h, hselect⟩ := hdeletes rows next hdelete
    obtain rfl : [⟨"on", .ge, .bool true, none⟩] = bare := Except.ok.inj htells.bare_eq
    exact ⟨rows, next, hdelete, h.rows_eq, h.returned, hselect⟩

end Table

end RelStore
