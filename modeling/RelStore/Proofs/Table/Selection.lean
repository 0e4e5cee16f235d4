import RelStore.Proofs.Table.Targets

/-!
# Selected rows

What a table selects are live rows (`mem_liveRows_of_select`), and the same ones as without
positions and indexes: those among the live rows for which the conditions hold with bare column
names (`Consistent.select_eq`). So two consistent tables that have the schema and the live rows in
common, which we call alike, select the same rows whatever their positions and indexes are
(`Alike.select_eq`).
-/

namespace RelStore.Table

variable {table : Table}

/-- Selected rows are live rows. -/
theorem mem_liveRows_of_select {conditions : List Condition} {rows : List Row}
    (h : table.select conditions = .ok rows) {row : Row} (hrow : row ∈ rows) :
    row ∈ table.liveRows := by
  obtain ⟨targets, -, h⟩ := Outcome.bind_eq_ok.mp h
  cases h
  obtain ⟨p, -, hp⟩ := List.mem_filterMap.mp hrow
  exact mem_liveRows_iff.mpr ⟨p, hp⟩

/-- The rows at the positions of live rows are these rows. -/
theorem filterMap_row?_live (table : Table) (keep : Nat × Row → Bool) :
    ((table.live.filter keep).map Prod.fst).filterMap table.row? =
      (table.live.filter keep).map Prod.snd := by
  have hrow : ∀ item ∈ table.live.filter keep,
      (table.row? ∘ Prod.fst) item = (some ∘ Prod.snd) item :=
    fun item hitem => mem_live_iff.mp (List.mem_of_mem_filter hitem)
  rw [List.filterMap_map, List.filterMap_congr hrow, List.filterMap_eq_map]

/-- A table selects the live rows for which conditions hold with bare column names. -/
theorem Consistent.select_eq (h : table.Consistent) {conditions bare : List Condition}
    (hbare : table.bareConditions conditions = .ok bare)
    (hliterals : ∀ c ∈ conditions, c.value ≠ .float .nan) :
    table.select conditions = Condition.select bare id table.liveRows := by
  have hall : (table.live.all fun item => bare.all (Condition.applies · item.2)) =
      table.liveRows.all fun row => bare.all (Condition.applies · row) := by
    rw [← map_snd_live, List.all_map]
    rfl
  have hkept : (table.live.filter fun item => item.2.matches bare).map Prod.snd =
      table.liveRows.filter fun row => row.matches bare := by
    rw [← map_snd_live, List.filter_map]
    rfl
  rw [select, h.targets_eq_scan hbare hliterals, scan, Condition.select, Condition.select, hall]
  dsimp only [id]
  split
  · rw [← hkept, ← filterMap_row?_live]
    rfl
  · rfl

/-- For the rows that a scan selects its conditions hold. -/
theorem matches_of_scan {conditions : List Condition} {positions : List Nat}
    (h : table.scan conditions = .ok positions) {p : Nat} (hp : p ∈ positions) {row : Row}
    (hrow : table.row? p = some row) : row.matches conditions = true := by
  obtain ⟨kept, hkept, h⟩ := Outcome.bind_eq_ok.mp h
  cases h
  unfold Condition.select at hkept
  split at hkept
  · cases hkept
    obtain ⟨other, hother, hmatches⟩ := mem_filter_live_iff.mp hp
    obtain rfl : row = other := Option.some.inj (hrow.symm.trans hother)
    exact hmatches
  · cases hkept

/-- For the rows that a table selects the conditions hold with bare column names, whatever the
literals are. -/
theorem Consistent.matches_of_select (h : table.Consistent) {conditions bare : List Condition}
    (hbare : table.bareConditions conditions = .ok bare) {rows : List Row}
    (hselect : table.select conditions = .ok rows) {row : Row} (hmem : row ∈ rows) :
    row.matches bare = true := by
  obtain ⟨positions, htargets, hselect⟩ := Outcome.bind_eq_ok.mp hselect
  cases hselect
  obtain ⟨p, hp, hrow⟩ := List.mem_filterMap.mp hmem
  rw [targets, hbare, Outcome.ok_bind] at htargets
  split at htargets
  · next column v connector =>
    split at htargets
    · next index definition hindex hdefinition =>
      split at htargets
      · next hordered =>
        -- The row is under a key of the index that the literal shares.
        cases htargets
        obtain ⟨hcolumn, hname⟩ := Schema.column?_eq_some hdefinition
        obtain rfl : index.column = column := by simpa using List.find?_some hindex
        have hcovers := h.covers (List.mem_of_find?_eq_some hindex) hcolumn hname
        have hcell := h.cell_mem hcolumn hname p row hrow
        have hsame := hcovers.sameKey_of_mem_search hordered (mem_lookUp.mp hp).1 hrow hcell
        have hresolve := (h.fits p row hrow).resolve? hcolumn hname
        rw [Row.matches, Condition.foldFrom, Condition.holds, Condition.subject, hresolve,
          Option.getD_some, Operator.eq_holds]
        exact hsame
      · exact matches_of_scan htargets hp hrow
    · exact matches_of_scan htargets hp hrow
  · exact matches_of_scan htargets hp hrow

/-- A selection whose conditions are about columns of the table fails only where an integer cannot
be written. -/
theorem eq_unwritable_of_select {conditions : List Condition}
    (hcolumns : ∀ c ∈ conditions, ∃ name, table.schema.columnName c.column = .ok name)
    {error : Error} (h : table.select conditions = .error error) : error = .unwritableInteger := by
  obtain ⟨bare, hbare⟩ := exists_bareConditions hcolumns
  have hscan {bare : List Condition} (hscan : table.scan bare = .error error) :
      error = .unwritableInteger := by
    rcases Outcome.bind_eq_error.mp hscan with hscan | ⟨kept, -, hscan⟩
    · unfold Condition.select at hscan
      split at hscan
      · cases hscan
      · exact (Except.error.inj hscan).symm
    · cases hscan
  rcases Outcome.bind_eq_error.mp h with h | ⟨positions, -, h⟩
  · rw [targets, hbare, Outcome.ok_bind] at h
    split at h
    · split at h
      · split at h
        · cases h
        · exact hscan h
      · exact hscan h
    · exact hscan h
  · cases h

/-! ## Tables that are alike -/

/-- Two consistent tables have the same schema and the same live rows. -/
structure Alike (table other : Table) : Prop where
  /-- The schemas are the same. -/
  schema : other.schema = table.schema
  /-- The live rows are the same, in the same order. -/
  liveRows : other.liveRows = table.liveRows
  /-- The first table is consistent. -/
  consistent : table.Consistent
  /-- The second table is consistent. -/
  otherConsistent : other.Consistent

namespace Alike

variable {other : Table}

/-- Tables that are alike have the same name. -/
theorem name (h : table.Alike other) : other.name = table.name :=
  congrArg Schema.table h.schema

/-- Tables that are alike select the same rows. -/
theorem select_eq (h : table.Alike other) {conditions : List Condition}
    (hliterals : ∀ c ∈ conditions, c.value ≠ .float .nan) :
    other.select conditions = table.select conditions := by
  have hbare : other.bareConditions conditions = table.bareConditions conditions := by
    rw [bareConditions, bareConditions, h.schema]
  cases hoffered : table.bareConditions conditions with
  | error e =>
    rw [hoffered] at hbare
    rw [select, select, targets, targets, hoffered, hbare]
    rfl
  | ok bare =>
    rw [hoffered] at hbare
    rw [h.consistent.select_eq hoffered hliterals, h.otherConsistent.select_eq hbare hliterals,
      h.liveRows]

/-- Tables that are alike select the same rows by a condition whose operator is a text. -/
theorem selectWhere_eq (h : table.Alike other) {column operator : Text} {v : Value}
    (hliteral : v ≠ .float .nan) :
    other.selectWhere column operator v = table.selectWhere column operator v := by
  unfold selectWhere
  dsimp only
  split
  · refine h.select_eq ?_
    rw [List.forall_mem_singleton]
    exact hliteral
  · rfl

end Alike

end RelStore.Table
