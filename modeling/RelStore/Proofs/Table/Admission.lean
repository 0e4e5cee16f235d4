import RelStore.Proofs.Table.Targets

/-!
# What is in a column

A cell has been converted to the type of its column, and converting it again leaves it as it is;
it is not NULL if the column refuses NULL (`Column.Admits`). All ways into a table check both: a row
after an operation is an old one, a new one or one to which checked values have been assigned
(`row_of_apply`). So a column takes the cells of the live rows of a reachable table as they are
(`Reachable.admits`).
-/

namespace RelStore

/-- A column takes a value as it is. -/
structure Column.Admits (column : Column) (v : Value) : Prop where
  /-- The value is of the type of the column. -/
  coerce_eq : coerce column.type v = .ok v
  /-- The value is not NULL if the column refuses NULL. -/
  notNull : column.notNull = true → v.isNull = false

/-- A column takes what it has converted, if it does not refuse NULL where that is given. -/
theorem Column.Admits.of_coerce {column : Column} {v w : Value} (h : coerce column.type v = .ok w)
    (hnull : ¬(column.notNull && v.isNull) = true) : column.Admits w := by
  obtain ⟨hsame, heq⟩ := coerce_idempotent h
  refine ⟨hsame, fun hnotNull => ?_⟩
  rw [hnotNull, Bool.true_and] at hnull
  rw [heq]
  exact Bool.eq_false_iff.mpr hnull

/-- The columns of a schema take the cells of a row as they are. -/
def Row.Admitted (schema : Schema) (row : Row) : Prop :=
  ∀ column ∈ schema.columns, column.Admits (row.cell column.name)

namespace Table

variable {table : Table}

/-- The columns take the cells of a new row as they are. -/
theorem newRow_admitted {cells : Mapping ColumnName Cell} {row : Row}
    (h : table.newRow cells = .ok row) : row.Admitted table.schema := by
  intro column hcolumn
  have hcell := (newRow_eq_ok h).2 column hcolumn
  obtain ⟨_, -, hcell⟩ := Outcome.bind_eq_ok.mp hcell
  obtain ⟨hnull, hcell⟩ := Outcome.unless_eq_ok.mp hcell
  exact Column.Admits.of_coerce hcell hnull

/-- The columns take the values of an update as they are. -/
theorem assignments_admitted {cells : Mapping Text Cell} {assigned : Row}
    (h : table.assignments cells = .ok assigned) :
    ∀ entry ∈ assigned, ∃ column ∈ table.schema.columns,
      column.name = entry.1 ∧ column.Admits entry.2 := by
  refine Outcome.foldlM_invariant (fun assigned : Row => ∀ entry ∈ assigned,
    ∃ column ∈ table.schema.columns, column.name = entry.1 ∧ column.Admits entry.2) ?_
    (List.forall_mem_nil _) h
  rintro previous ⟨reference, cell⟩ - next hprevious hnext entry hentry
  obtain ⟨name, -, hnext⟩ := Outcome.bind_eq_ok.mp hnext
  split at hnext
  · cases hnext
  · next column hcolumn =>
    obtain ⟨hmem, hname⟩ := Schema.column?_eq_some hcolumn
    obtain ⟨v, -, hnext⟩ := Outcome.bind_eq_ok.mp hnext
    obtain ⟨hnull, hnext⟩ := Outcome.unless_eq_ok.mp hnext
    obtain ⟨w, hw, hnext⟩ := Outcome.bind_eq_ok.mp hnext
    cases hnext
    rcases Mapping.mem_put hentry with rfl | hentry
    · exact ⟨column, hmem, hname, Column.Admits.of_coerce hw hnull⟩
    · exact hprevious entry hentry

/-- A row to which values have been assigned that the columns take is taken as it is. -/
theorem admitted_putAll {cells : Mapping Text Cell} {assigned row : Row}
    (hrow : row.Admitted table.schema) (h : table.assignments cells = .ok assigned) :
    Row.Admitted table.schema (row.putAll assigned) := by
  intro column hcolumn
  rw [Row.cell_putAll row (assignments_assigns h)]
  cases hget : Mapping.get? assigned column.name with
  | none => exact hrow column hcolumn
  | some v =>
    obtain ⟨other, hother, hname, hv⟩ := assignments_admitted h _ (Mapping.mem_of_get? hget)
    rw [← Schema.column_eq_of_name hother hcolumn hname]
    exact hv

/-- A row of a table after an operation is an old row, a new one, or an old one to which values have
been assigned. -/
theorem Consistent.row_of_apply (h : table.Consistent) {operation : Operation} {next : Table}
    (happly : table.apply operation = .ok next) {p : Nat} {row : Row}
    (hrow : next.row? p = some row) :
    (∃ q, table.row? q = some row) ∨ (∃ cells, table.newRow cells = .ok row) ∨
      ∃ q previous cells assigned, table.row? q = some previous ∧
        table.assignments cells = .ok assigned ∧ row = previous.putAll assigned := by
  cases applies_of_apply happly with
  | @insert _ bare inserted _ hnew =>
    have hrowAppend : (table.append inserted).row? p = some row := hrow
    rw [row?_append] at hrowAppend
    by_cases hp : p = table.rows.length
    · rw [hp, Function.update_self] at hrowAppend
      cases hrowAppend
      exact .inr (.inl ⟨bare, hnew⟩)
    · rw [Function.update_of_ne hp] at hrowAppend
      exact .inl ⟨p, hrowAppend⟩
  | @update cells _ assigned targets hassigned htargets =>
    have hnodup : targets.Nodup := (h.targets_ascending htargets).1.imp Nat.ne_of_lt
    rw [row?_assignAll table assigned hnodup] at hrow
    split at hrow
    · obtain ⟨previous, hprevious, rfl⟩ := Option.map_eq_some_iff.mp hrow
      exact .inr (.inr ⟨p, previous, cells, assigned, hprevious, hassigned, rfl⟩)
    · exact .inl ⟨p, hrow⟩
  | delete =>
    rw [row?_deleteAll] at hrow
    split at hrow
    · cases hrow
    · exact .inl ⟨p, hrow⟩
  | createIndex hcreate =>
    obtain ⟨_, _, _, -, -, rfl⟩ := createIndex_eq_ok hcreate
    exact .inl ⟨p, hrow⟩
  | compact =>
    unfold Table.compact at hrow
    dsimp only at hrow
    split at hrow
    · exact .inl ⟨p, hrow⟩
    · rw [row?_eq, rowAt_map_some] at hrow
      exact .inl (mem_liveRows_iff.mp (List.mem_of_getElem? hrow))
  | restoreCounters => exact .inl ⟨p, hrow⟩

/-- The columns of a reachable table take the cells of its live rows as they are. -/
theorem Reachable.admits (h : table.Reachable) :
    ∀ row ∈ table.liveRows, row.Admitted table.schema := by
  have hboth : table.Consistent ∧
      ∀ p row, table.row? p = some row → row.Admitted table.schema := by
    refine h.induction (fun table => table.Consistent ∧
      ∀ p row, table.row? p = some row → row.Admitted table.schema) ?_ ?_
    · intro name columns treeOrder table hcreate
      obtain ⟨hconsistent, hrows, -⟩ := Consistent.of_create hcreate
      refine ⟨hconsistent, fun p row hrow => ?_⟩
      rw [row?_eq, hrows] at hrow
      cases hrow
    · rintro table operation next ⟨hconsistent, hadmitted⟩ happly
      obtain ⟨hnext, hschema, -⟩ := hconsistent.of_apply happly
      refine ⟨hnext, fun p row hrow => ?_⟩
      rw [hschema]
      rcases hconsistent.row_of_apply happly hrow with
        ⟨q, hold⟩ | ⟨cells, hnew⟩ | ⟨q, previous, cells, assigned, hold, hassigned, rfl⟩
      · exact hadmitted q row hold
      · exact newRow_admitted hnew
      · exact admitted_putAll (hadmitted q previous hold) hassigned
  intro row hrow
  obtain ⟨p, hp⟩ := mem_liveRows_iff.mp hrow
  exact hboth.2 p row hp

end Table

end RelStore
