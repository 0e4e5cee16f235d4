import Mathlib.Data.List.Sort
import RelStore.Proofs.Table.History

/-!
# The targets of a statement

A statement is about the live rows for which its conditions hold, and a table finds them in an index
or by a scan. Where the literal of a lone `=` orders like its column, the index gives what the scan
would: under a key, it holds the rows with the same key in their cells (`lookUp_eq`), and being the
same key is what `=` asks (`Operator.eq_holds`). So the targets are those of a scan whatever indexes
there are (`targets_eq_scan`).

Conditions are tried with bare column names. A qualified reference leads to the same cell, unless
its whole text is itself the name of a column (`Schema.Unambiguous`).
-/

namespace RelStore

open BTree (sameKey)

/-! ## Conditions on rows that fit -/

/-- Two values are equal to a condition when they are the same key. -/
theorem Operator.eq_holds (a b : Value) : Operator.eq.holds a b = sameKey b a := by
  unfold Operator.holds
  split
  · next hnull =>
    -- With a NULL on one side, both conditions ask for a NULL on the other.
    rw [BTree.sameKey]
    cases a <;> cases b <;> first
      | rfl
      | cases hnull
  · rw [Value.sameKey_comm]
    rfl

/-- A row that fits has an entry for every column whose name is a text. -/
theorem Row.Fits.get?_eq {schema : Schema} {row : Row} (hrow : row.Fits schema) {column : Column}
    (hcolumn : column ∈ schema.columns) {name : Text} (hname : column.name = .text name) :
    Mapping.get? row (.text name) = some (row.cell name) := by
  have hget := hrow.get?_name hcolumn
  rw [hname] at hget
  exact hget

/-- A bare column name leads to the cell of the column. -/
theorem Row.Fits.resolve? {schema : Schema} {row : Row} (hrow : row.Fits schema) {column : Column}
    (hcolumn : column ∈ schema.columns) {name : Text} (hname : column.name = .text name) :
    row.resolve? name = some (row.cell name) := by
  rw [Row.resolve?, hrow.get?_eq hcolumn hname]

namespace Table

variable {table : Table}

/-! ## Ascending positions -/

/-- Lists of positions in ascending order are equal when they have the same members. -/
theorem eq_of_ascending {xs ys : List Nat} (hxs : xs.Pairwise (· < ·)) (hys : ys.Pairwise (· < ·))
    (hmem : ∀ p, p ∈ xs ↔ p ∈ ys) : xs = ys :=
  List.Subset.antisymm_of_sortedLT (fun p => (hmem p).mp) (fun p => (hmem p).mpr) hxs.sortedLT
    hys.sortedLT

/-- The positions that an index gives are those under the key that hold a row. -/
theorem mem_lookUp {index : Index} {v : Value} {p : Nat} :
    p ∈ table.lookUp index v ↔ p ∈ index.tree.search v ∧ (table.row? p).isSome = true := by
  rw [lookUp, (List.mergeSort_perm _ _).mem_iff, List.mem_filter]

/-- The positions that an index gives ascend, whatever the key. -/
theorem lookUp_ascending {index : Index} {type : DataType} (htree : index.tree.Valid type.keys)
    (v : Value) : (table.lookUp index v).Pairwise (· < ·) := by
  -- A search has no duplicates, and sorted positions without duplicates ascend.
  have hnodup : (table.lookUp index v).Nodup :=
    (List.mergeSort_perm _ _).nodup_iff.mpr ((htree.search_nodup v).filter _)
  have hsorted : (table.lookUp index v).Pairwise (· ≤ ·) := List.pairwise_mergeSort' (· ≤ ·) _
  exact (hsorted.and hnodup).imp fun h => Nat.lt_of_le_of_ne h.1 h.2

/-- The positions that a scan gives ascend and hold rows. -/
theorem scan_ascending {conditions : List Condition} {positions : List Nat}
    (h : table.scan conditions = .ok positions) :
    positions.Pairwise (· < ·) ∧ ∀ p ∈ positions, (table.row? p).isSome = true := by
  obtain ⟨rows, hselect, hpositions⟩ := Outcome.bind_eq_ok.mp h
  cases hpositions
  unfold Condition.select at hselect
  split at hselect
  · cases hselect
    refine ⟨table.filter_live_ascending _, fun p hp => ?_⟩
    obtain ⟨row, hrow, -⟩ := mem_filter_live_iff.mp hp
    exact Option.isSome_iff_exists.mpr ⟨row, hrow⟩
  · cases hselect

/-- Targets ascend and hold rows, whatever the conditions. -/
theorem Consistent.targets_ascending (h : table.Consistent) {conditions : List Condition}
    {positions : List Nat} (htargets : table.targets conditions = .ok positions) :
    positions.Pairwise (· < ·) ∧ ∀ p ∈ positions, (table.row? p).isSome = true := by
  obtain ⟨bare, -, htargets⟩ := Outcome.bind_eq_ok.mp htargets
  split at htargets
  · split at htargets
    · next index definition hindex hdefinition =>
      split at htargets
      · cases htargets
        obtain ⟨_, -, -, hcovers⟩ := h.indexed index (List.mem_of_find?_eq_some hindex)
        exact ⟨lookUp_ascending hcovers.valid _, fun p hp => (mem_lookUp.mp hp).2⟩
      · exact scan_ascending htargets
    · exact scan_ascending htargets
  · exact scan_ascending htargets

/-! ## Indexes and scans -/

/-- An index gives the live rows with the same key in their cells. -/
theorem Consistent.lookUp_eq (h : table.Consistent) {index : Index}
    (hindex : index ∈ table.indexes) {column : Column} (hcolumn : column ∈ table.schema.columns)
    (hname : column.name = .text index.column) {v : Value} (hv : v ∈ column.type.keys) :
    table.lookUp index v =
      (table.live.filter fun item => sameKey v (item.2.cell index.column)).map Prod.fst := by
  have hcovers := h.covers hindex hcolumn hname
  refine eq_of_ascending (lookUp_ascending hcovers.valid v) (table.filter_live_ascending _)
    fun p => ?_
  rw [mem_lookUp, hcovers.mem_search v hv, mem_filter_live_iff]
  refine and_iff_left_of_imp ?_
  rintro ⟨row, hrow, -⟩
  exact Option.isSome_iff_exists.mpr ⟨row, hrow⟩

/-- A scan for a lone `=` whose literal is a key of its column gives the live rows with the same key
in their cells. -/
theorem Consistent.scan_eq (h : table.Consistent) {column : Column}
    (hcolumn : column ∈ table.schema.columns) {name : Text} (hname : column.name = .text name)
    {v : Value} (hv : v ∈ column.type.keys) (connector : Option Connector) :
    table.scan [⟨name, .eq, v, connector⟩] =
      .ok ((table.live.filter fun item => sameKey v (item.2.cell name)).map Prod.fst) := by
  -- Live rows fit, so the condition is about the cell, which is a key of the column.
  have hsubject {item : Nat × Row} (hitem : item ∈ table.live) :
      Condition.subject ⟨name, .eq, v, connector⟩ item.2 = item.2.cell name ∧
        item.2.cell name ∈ column.type.keys := by
    have hrow := mem_live_iff.mp hitem
    rw [Condition.subject, (h.fits _ _ hrow).resolve? hcolumn hname]
    exact ⟨rfl, h.cell_mem hcolumn hname _ _ hrow⟩
  have happlies : (table.live.all fun item =>
      [⟨name, .eq, v, connector⟩].all (Condition.applies · item.2)) = true := by
    refine List.all_eq_true.mpr fun item hitem => ?_
    obtain ⟨heq, hcell⟩ := hsubject hitem
    rw [List.all_cons, List.all_nil, Bool.and_true, Condition.applies, heq]
    exact DataType.isComparable_of_mem_keys hcell hv
  have hmatches : (table.live.filter fun item => item.2.matches [⟨name, .eq, v, connector⟩]) =
      table.live.filter fun item => sameKey v (item.2.cell name) := by
    refine List.filter_congr fun item hitem => ?_
    change Operator.eq.holds (Condition.subject ⟨name, .eq, v, connector⟩ item.2) v = _
    rw [(hsubject hitem).1, Operator.eq_holds]
  rw [scan, Condition.select, if_pos happlies, hmatches]
  rfl

/-- A condition with a bare column name keeps its operator, its literal and its connector. -/
theorem bareConditions_eq_ok {conditions bare : List Condition}
    (h : table.bareConditions conditions = .ok bare) :
    List.Forall₂ (fun (c b : Condition) => ∃ name,
      table.schema.columnName c.column = .ok name ∧ b = { c with column := name })
      conditions bare := by
  refine (Outcome.mapM_eq_ok.mp h).imp fun c b hb => ?_
  obtain ⟨name, hname, hb⟩ := Outcome.bind_eq_ok.mp hb
  cases hb
  exact ⟨name, hname, rfl⟩

/-- The targets of a statement are those of a scan, with or without an index. -/
theorem Consistent.targets_eq_scan (h : table.Consistent) {conditions bare : List Condition}
    (hbare : table.bareConditions conditions = .ok bare)
    (hliterals : ∀ c ∈ conditions, c.value ≠ .float .nan) :
    table.targets conditions = table.scan bare := by
  have hconditions := bareConditions_eq_ok hbare
  rw [targets, hbare, Outcome.ok_bind]
  split
  · next column v connector =>
    split
    · next index definition hindex hdefinition =>
      split
      · next hordered =>
        -- Only here does the table look into an index.
        obtain ⟨hmem, hname⟩ := Schema.column?_eq_some hdefinition
        have hcolumn : index.column = column := by simpa using List.find?_some hindex
        have hv : v ∈ definition.type.keys := by
          obtain ⟨c, _, ⟨_, -, heq⟩, -, rfl⟩ := List.forall₂_cons_right_iff.mp hconditions
          have hvalue : c.value = v := congrArg Condition.value heq.symm
          exact ⟨hordered, hvalue ▸ hliterals c List.mem_cons_self⟩
        subst hcolumn
        calc (.ok (table.lookUp index v) : Except Error (List Nat))
            = .ok ((table.live.filter fun item =>
                sameKey v (item.2.cell index.column)).map Prod.fst) := by
              rw [h.lookUp_eq (List.mem_of_find?_eq_some hindex) hmem hname hv]
          _ = table.scan [⟨index.column, .eq, v, connector⟩] :=
              (h.scan_eq hmem hname hv connector).symm
      · rfl
    · rfl
  · rfl

end Table

/-! ## References -/

/-- No qualified reference of some conditions is itself the name of a column. -/
def Schema.Unambiguous (schema : Schema) (conditions : List Condition) : Prop :=
  ∀ c ∈ conditions, (splitQualified? c.column).isSome = true → schema.hasColumn c.column = false

/-- A schema has a column of a name when it is the name of one of its columns. -/
theorem Schema.hasColumn_iff {schema : Schema} {name : ColumnName} :
    schema.hasColumn name = true ↔ name ∈ schema.columnNames := by
  rw [hasColumn, columnNames, List.mem_map]
  constructor
  · intro h
    obtain ⟨column, hcolumn⟩ := Option.isSome_iff_exists.mp h
    exact ⟨column, column?_eq_some hcolumn⟩
  · rintro ⟨column, hcolumn, rfl⟩
    rw [column?_name hcolumn]
    rfl

/-- The names in a row that fits a schema are those that the schema has. -/
theorem Row.Fits.mem_names_iff {schema : Schema} {row : Row} (h : row.Fits schema)
    {name : ColumnName} : name ∈ row.names ↔ schema.hasColumn name = true := by
  rw [h.names_eq, Schema.hasColumn_iff]

/-- A reference leads to the cell of the column whose bare name it has, unless it is ambiguous. -/
theorem Row.Fits.resolve?_reference {schema : Schema} {row : Row} (hrow : row.Fits schema)
    {reference name : Text} (hname : schema.columnName reference = .ok name)
    (hplain : (splitQualified? reference).isSome = true → schema.hasColumn reference = false) :
    row.resolve? reference = some (row.cell name) := by
  obtain ⟨column, hcolumn, hcolumnName⟩ := Schema.exists_column_of_columnName hname
  obtain ⟨_, ⟨⟩, -, ⟨-, rfl⟩ | hsplit⟩ := Schema.columnName_eq_ok hname
  · exact hrow.resolve? hcolumn hcolumnName
  · -- The row has no entry of the whole name, so the part after the dot decides.
    have hnone : Mapping.get? row (.text reference) = none := by
      rw [← Option.not_isSome_iff_eq_none, Mapping.isSome_get?_iff, hrow.mem_names_iff,
        hplain (by rw [hsplit]; rfl)]
      exact Bool.false_ne_true
    rw [Row.resolve?, hnone, hsplit]
    exact hrow.get?_eq hcolumn hcolumnName

/-- Folding conditions depends on nothing of a row but whether each of them holds. -/
theorem Condition.foldFrom_congr {row other : Row} {conditions bare : List Condition}
    (h : List.Forall₂ (fun c b : Condition =>
      b.holds other = c.holds row ∧ b.connector = c.connector) conditions bare) (result : Bool)
    (connector : Option Connector) :
    foldFrom other result connector bare = foldFrom row result connector conditions := by
  induction h generalizing result connector with
  | nil => rfl
  | cons hhead _ ih =>
    unfold foldFrom
    dsimp only
    rw [hhead.1, hhead.2, ih]

/-- Lists of conditions of which each holds of one row as its partner does of another hold of them
alike. -/
theorem Row.matches_congr {row other : Row} {conditions bare : List Condition}
    (h : List.Forall₂ (fun c b : Condition =>
      b.holds other = c.holds row ∧ b.connector = c.connector) conditions bare) :
    other.matches bare = row.matches conditions := by
  cases h with
  | nil => rfl
  | cons hhead hrest =>
    rw [Row.matches, Row.matches, hhead.1, hhead.2, Condition.foldFrom_congr hrest]

namespace Table

variable {table : Table}

/-- Conditions over columns of the table have bare column names. -/
theorem exists_bareConditions {conditions : List Condition}
    (hcolumns : ∀ c ∈ conditions, ∃ name, table.schema.columnName c.column = .ok name) :
    ∃ bare, table.bareConditions conditions = .ok bare := by
  induction conditions with
  | nil => exact ⟨[], rfl⟩
  | cons c rest ih =>
    obtain ⟨⟨name, hname⟩, hrest⟩ := List.forall_mem_cons.mp hcolumns
    obtain ⟨bare, hbare⟩ := ih hrest
    refine ⟨{ c with column := name } :: bare, Outcome.mapM_eq_ok.mpr (.cons ?_ ?_)⟩
    · exact Outcome.bind_eq_ok.mpr ⟨name, hname, rfl⟩
    · exact Outcome.mapM_eq_ok.mp hbare

/-- Bare column names do not change which live rows unambiguous conditions hold of. -/
theorem Consistent.matches_bare (h : table.Consistent) {conditions bare : List Condition}
    (hbare : table.bareConditions conditions = .ok bare)
    (hplain : table.schema.Unambiguous conditions) {p : Nat} {row : Row}
    (hrow : table.row? p = some row) : row.matches bare = row.matches conditions := by
  have hconditions : List.Forall₂ (fun c b : Condition =>
      b.holds row = c.holds row ∧ b.connector = c.connector) conditions bare := by
    -- Both references lead to the same cell of a row that fits.
    refine ((List.forall₂_and_left _ _).mpr ⟨hplain, bareConditions_eq_ok hbare⟩).imp ?_
    rintro c _ ⟨hc, name, hname, rfl⟩
    refine ⟨?_, rfl⟩
    obtain ⟨column, hcolumn, hcolumnName⟩ := Schema.exists_column_of_columnName hname
    rw [Condition.holds, Condition.holds, Condition.subject, Condition.subject,
      (h.fits p row hrow).resolve?_reference hname hc,
      (h.fits p row hrow).resolve? hcolumn hcolumnName]
  exact Row.matches_congr hconditions

/-! ## Selected rows -/

/-- The comparisons of conditions with all live rows can be made. -/
def Evaluable (table : Table) (conditions : List Condition) : Prop :=
  ∀ p row, table.row? p = some row → ∀ c ∈ conditions, c.applies row = true

/-- Positions ascend and are those of the live rows for which conditions hold. -/
def Selects (table : Table) (conditions : List Condition) (positions : List Nat) : Prop :=
  positions.Pairwise (· < ·) ∧
    ∀ p, p ∈ positions ↔ ∃ row, table.row? p = some row ∧ row.matches conditions = true

/-- A scan selects the live rows for which conditions hold, if its comparisons can be made. -/
theorem scan_selects {conditions : List Condition} (h : table.Evaluable conditions) :
    ∃ positions, table.scan conditions = .ok positions ∧ table.Selects conditions positions := by
  have hall : (table.live.all fun item => conditions.all (Condition.applies · item.2)) = true := by
    refine List.all_eq_true.mpr fun item hitem => List.all_eq_true.mpr fun c hc => ?_
    exact h item.1 item.2 (mem_live_iff.mp hitem) c hc
  refine ⟨(table.live.filter (·.2.matches conditions)).map Prod.fst, ?_,
    table.filter_live_ascending _, fun p => mem_filter_live_iff⟩
  rw [scan, Condition.select, if_pos hall]
  rfl

/-- A scan of which a comparison cannot be made is an error. -/
theorem scan_of_not_evaluable {conditions : List Condition} (h : ¬table.Evaluable conditions) :
    table.scan conditions = .error .unwritableInteger := by
  have hnot :
      ¬(table.live.all fun item => conditions.all (Condition.applies · item.2)) = true := by
    intro hall
    refine h fun p row hrow c hc => ?_
    have hitem := List.all_eq_true.mp hall (p, row) (mem_live_iff.mpr hrow)
    exact List.all_eq_true.mp hitem c hc
  rw [scan, Condition.select, if_neg hnot]
  rfl

/-! ## Tables without indexes -/

/-- A table without its indexes. -/
def unindexed (table : Table) : Table := { table with indexes := [] }

/-- A table without indexes targets what a scan gives. -/
theorem targets_unindexed {conditions bare : List Condition}
    (hbare : table.bareConditions conditions = .ok bare) :
    table.unindexed.targets conditions = table.scan bare := by
  have hunindexed : table.unindexed.bareConditions conditions = .ok bare := hbare
  rw [targets, hunindexed, Outcome.ok_bind]
  split <;> rfl

/-- An update that succeeds does so without indexes, with the same rows. -/
theorem updateCells_unindexed {conditions : List Condition}
    (hunindexed : table.unindexed.targets conditions = table.targets conditions)
    (hnodup : ∀ positions, table.targets conditions = .ok positions → positions.Nodup)
    {cells : Mapping Text Cell} {rows : List Row} {next : Table}
    (hupdate : table.updateCells cells conditions = .ok (rows, next)) :
    ∃ next', table.unindexed.updateCells cells conditions = .ok (rows, next') ∧
      next'.row? = next.row? := by
  -- The checks of the update have passed, and the same rows get the same values without indexes.
  obtain ⟨assigned, hassigned, hupdate⟩ := Outcome.bind_eq_ok.mp hupdate
  obtain ⟨targets, htargets, hupdate⟩ := Outcome.bind_eq_ok.mp hupdate
  have htargetsNodup := hnodup targets htargets
  split at hupdate
  · cases hupdate
  · have hresult := Except.ok.inj hupdate
    obtain rfl : (table.assignAll assigned targets).1 = rows := congrArg Prod.fst hresult
    obtain rfl : (table.assignAll assigned targets).2 = next := congrArg Prod.snd hresult
    refine ⟨(table.unindexed.assignAll assigned targets).2, ?_, funext fun p => ?_⟩
    · refine Outcome.bind_eq_ok.mpr ⟨assigned, hassigned, Outcome.bind_eq_ok.mpr ⟨targets, ?_, ?_⟩⟩
      · rw [hunindexed, htargets]
      · -- Without indexes, nothing is seen that would be put twice.
        have hnone : table.unindexed.updateConflict? assigned targets = none := rfl
        rw [hnone]
        refine congrArg Except.ok (Prod.ext ?_ rfl)
        rw [rows_assignAll _ _ htargetsNodup, rows_assignAll _ _ htargetsNodup]
        rfl
    · rw [row?_assignAll _ _ htargetsNodup, row?_assignAll _ _ htargetsNodup]
      rfl

/-- A deletion that succeeds does so without indexes, with the same rows. -/
theorem delete_unindexed {conditions : List Condition}
    (hunindexed : table.unindexed.targets conditions = table.targets conditions)
    (hnodup : ∀ positions, table.targets conditions = .ok positions → positions.Nodup)
    {rows : List Row} {next : Table} (hdelete : table.delete conditions = .ok (rows, next)) :
    ∃ next', table.unindexed.delete conditions = .ok (rows, next') ∧ next'.row? = next.row? := by
  obtain ⟨targets, htargets, hdelete⟩ := Outcome.bind_eq_ok.mp hdelete
  have htargetsNodup := hnodup targets htargets
  have hresult := Except.ok.inj hdelete
  obtain rfl : (table.deleteAll targets).1 = rows := congrArg Prod.fst hresult
  obtain rfl : (table.deleteAll targets).2 = next := congrArg Prod.snd hresult
  refine ⟨(table.unindexed.deleteAll targets).2, ?_, funext fun p => ?_⟩
  · refine Outcome.bind_eq_ok.mpr ⟨targets, hunindexed.trans htargets, ?_⟩
    refine congrArg Except.ok (Prod.ext ?_ rfl)
    rw [rows_deleteAll _ htargetsNodup, rows_deleteAll _ htargetsNodup]
    rfl
  · rw [row?_deleteAll, row?_deleteAll]
    rfl

/-- In a reachable table, conditions over its columns with literals other than `nan` target the live
rows for which they hold, in order, if their comparisons can be made, and are an error else. They do
so whether or not there are indexes, and so a selection, an update that succeeds and a deletion have
the same rows without them. -/
theorem Reachable.targets_select (h : table.Reachable) {conditions : List Condition}
    (hcolumns : ∀ c ∈ conditions, ∃ name, table.schema.columnName c.column = .ok name)
    (hliterals : ∀ c ∈ conditions, c.value ≠ .float .nan) :
    (∃ bare, table.bareConditions conditions = .ok bare ∧
      (table.Evaluable bare → ∃ positions, table.targets conditions = .ok positions ∧
        table.Selects bare positions ∧
        (table.schema.Unambiguous conditions → table.Selects conditions positions)) ∧
      (¬table.Evaluable bare → table.targets conditions = .error .unwritableInteger)) ∧
    table.targets conditions = table.unindexed.targets conditions ∧
    table.select conditions = table.unindexed.select conditions ∧
    (∀ cells rows next, table.updateCells cells conditions = .ok (rows, next) →
      ∃ next', table.unindexed.updateCells cells conditions = .ok (rows, next') ∧
        next'.row? = next.row?) ∧
    (∀ rows next, table.delete conditions = .ok (rows, next) →
      ∃ next', table.unindexed.delete conditions = .ok (rows, next') ∧
        next'.row? = next.row?) := by
  obtain ⟨bare, hbare⟩ := exists_bareConditions hcolumns
  have hconsistent := h.consistent
  -- With its indexes or without them, the table targets what a scan with bare names gives.
  have hscan := hconsistent.targets_eq_scan hbare hliterals
  have hunindexed : table.unindexed.targets conditions = table.targets conditions :=
    (targets_unindexed hbare).trans hscan.symm
  have hnodup : ∀ positions, table.targets conditions = .ok positions → positions.Nodup :=
    fun _ htargets => (hconsistent.targets_ascending htargets).1.imp Nat.ne_of_lt
  refine ⟨⟨bare, hbare, fun hevaluable => ?_, fun hnot => ?_⟩, hunindexed.symm, ?_, ?_, ?_⟩
  · obtain ⟨positions, hpositions, hselects⟩ := scan_selects hevaluable
    refine ⟨positions, hscan.trans hpositions, hselects, fun hplain => ⟨hselects.1, fun p => ?_⟩⟩
    rw [hselects.2 p]
    refine exists_congr fun row => and_congr_right fun hrow => ?_
    rw [hconsistent.matches_bare hbare hplain hrow]
  · exact hscan.trans (scan_of_not_evaluable hnot)
  · rw [select, select, hunindexed]
    rfl
  · exact fun cells rows next => updateCells_unindexed hunindexed hnodup
  · exact fun rows next => delete_unindexed hunindexed hnodup

/-- The only row with a truth value is targeted through the index. -/
theorem targets_select_flags :
    let table := flags.run [.insert [(.text "on", .value .null)],
      .insert [(.text "on", .value (.bool true))]]
    let conditions : List Condition := [⟨"on", .eq, .bool true, none⟩]
    table.Reachable ∧ (∀ c ∈ conditions, c.value ≠ .float .nan) ∧
      ∃ positions, table.targets conditions = .ok positions ∧ 1 ∈ positions := by
  intro table conditions
  have hcolumns : ∀ c ∈ conditions, ∃ name, table.schema.columnName c.column = .ok name :=
    List.forall_mem_singleton.mpr ⟨"on", rfl⟩
  have hliterals : ∀ c ∈ conditions, c.value ≠ .float .nan := List.forall_mem_singleton.mpr nofun
  obtain ⟨⟨bare, hbare, hselects, -⟩, -⟩ :=
    Reachable.targets_select (flags_reachable _ : table.Reachable) hcolumns hliterals
  obtain rfl : conditions = bare := Except.ok.inj hbare
  have hevaluable : table.Evaluable conditions := by
    intro p row hrow
    refine List.forall_mem_singleton.mpr ?_
    match p, hrow with
    | 0, hrow => cases hrow; rfl
    | 1, hrow => cases hrow; rfl
  obtain ⟨positions, htargets, ⟨-, hmem⟩, -⟩ := hselects hevaluable
  exact ⟨flags_reachable _, hliterals, positions, htargets, (hmem 1).mpr ⟨_, rfl, rfl⟩⟩

/-- A table of texts in which the name of one column is a qualified reference to the other. -/
def ambiguous : Table where
  schema := ⟨"t", [.define (.text "a") .string false false false false,
    .define (.text "t.a") .string false false false false], by decide⟩
  treeOrder := 4
  rows := []
  indexes := []
  counters := []

/-- A reference that is also the whole name of a column targets a row for which its condition does
not hold, and where a comparison with one row cannot be made, no row is targeted. -/
theorem targets_not_matching :
    let table := ambiguous.run [.insert [(.text "a", .value (.string "x"))], .insert []]
    let qualified : List Condition := [⟨"t.a", .eq, .string "x", none⟩]
    let long : List Condition :=
      [⟨"a", .eq, .null, some .or⟩, ⟨"a", .eq, .int (tenTo digitLimit), none⟩]
    table.Reachable ∧
      (∀ c ∈ qualified ++ long, c.value ≠ .float .nan ∧
        table.schema.columnName c.column = .ok "a") ∧
      (table.targets qualified = .ok [0] ∧
        ∃ row, table.row? 0 = some row ∧ row.matches qualified = false) ∧
      (table.targets long = .error .unwritableInteger ∧
        ∃ row, table.row? 1 = some row ∧ row.matches long = true) := by
  intro table qualified long
  refine ⟨?_, ?_, ⟨rfl, _, rfl, rfl⟩, by decide +kernel, _, rfl, by decide +kernel⟩
  · exact ⟨"t", [.define (.text "a") .string false false false false,
      .define (.text "t.a") .string false false false false], 4, ambiguous, _, rfl, rfl⟩
  · simp only [qualified, long, List.cons_append, List.nil_append, List.forall_mem_cons]
    exact ⟨⟨nofun, rfl⟩, ⟨nofun, rfl⟩, ⟨nofun, rfl⟩, by simp⟩

end Table

end RelStore
