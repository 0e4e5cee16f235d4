import RelStore.Proofs.Table.Targets

/-!
# Unique columns

No two live rows share a key other than NULL in the column of a unique index (`Table.Distinct`). The
checks of an operation ask the trees one key at a time; that this refuses just what would make two
rows share a key is shown for a new row (`Consistent.conflicts_iff`), for an update, whose targets
all get one key (`Consistent.updateConflict?_isSome_iff`), and for a new index
(`Consistent.buildTree_built`). It follows that every operation that succeeds keeps a table distinct
(`Distinct.of_apply`).

A unique column has an index from the start, if no dot in its name makes a reference of it
(`Table.Guarded`).
-/

namespace RelStore.Table

open BTree (sameKey)

/-- In the column of a unique index, no two live rows share a key. -/
def Distinct (table : Table) : Prop :=
  ∀ index ∈ table.indexes, index.unique = true → ¬Shares table.row? index.column

/-- An operation is refused because a unique column would hold a value twice, which is one of some.
The error is a violation of uniqueness, unless it cannot show the value. -/
def RefusesDuplicate {α : Type} (result : Except Error α) (values : Set Value) : Prop :=
  ∃ column, ∃ v ∈ values, result = .error (.ofDuplicate column v)

/-- An error about a duplicate refuses it. -/
theorem refusesDuplicate_error {α : Type} (column : Text) {v : Value} {values : Set Value}
    (hv : v ∈ values) :
    RefusesDuplicate (.error (.ofDuplicate column v) : Except Error α) values :=
  ⟨column, v, hv, rfl⟩

/-- What succeeds refuses nothing. -/
theorem not_refusesDuplicate_ok {α : Type} (a : α) (values : Set Value) :
    ¬RefusesDuplicate (.ok a : Except Error α) values := by
  rintro ⟨_, _, -, h⟩
  cases h

variable {table : Table}

/-! ## New rows -/

/-- A new row conflicts with a unique index when a live row has the same key other than NULL. -/
theorem Consistent.conflicts_iff (h : table.Consistent) {index : Index}
    (hindex : index ∈ table.indexes) {row : Row} (hrow : row.Fits table.schema) :
    index.conflicts row = true ↔ index.unique = true ∧ (row.cell index.column).isNull = false ∧
      ∃ p other, table.row? p = some other ∧
        sameKey (row.cell index.column) (other.cell index.column) = true := by
  obtain ⟨column, hcolumn, hname, hcovers⟩ := h.indexed index hindex
  rw [Index.conflicts, Bool.and_eq_true, Bool.and_eq_true, Bool.not_eq_true',
    hcovers.has_iff (hrow.cell_mem_of_name hcolumn hname), and_assoc]

/-- An insertion whose cells pass their checks is refused when the new row conflicts with a unique
index, and appends the row else. -/
theorem insertCells_of_newRow {cells bare : Mapping ColumnName Cell} {row : Row}
    (hbare : table.bareNames cells = .ok bare) (hrow : table.newRow bare = .ok row) :
    (RefusesDuplicate (table.insertCells cells) (Set.range row.cell) ↔
      ∃ index ∈ table.indexes, index.conflicts row = true) ∧
    (¬RefusesDuplicate (table.insertCells cells) (Set.range row.cell) →
      ∃ next, table.insertCells cells = .ok (row, next)) := by
  unfold insertCells
  rw [hbare, Outcome.ok_bind, hrow, Outcome.ok_bind, ← List.find?_isSome]
  cases table.indexes.find? (·.conflicts row) with
  | some index =>
    have hshown : row.cell index.column ∈ Set.range row.cell := ⟨_, rfl⟩
    exact ⟨iff_of_true (refusesDuplicate_error _ hshown) rfl,
      fun hnot => absurd (refusesDuplicate_error _ hshown) hnot⟩
  | none =>
    exact ⟨iff_of_false (not_refusesDuplicate_ok _ _) Bool.false_ne_true, fun _ => ⟨_, rfl⟩⟩

/-! ## New values -/

section

variable {assigned : Row} (hassigned : assigned.Assigns table.schema) {targets : List Nat}
  (hnodup : targets.Nodup) {column : Text}
include hassigned hnodup

/-- Rows that get no new value in a column share a key there only if they did before. -/
theorem shares_of_assignAll (hnone : Mapping.get? assigned (.text column) = none)
    (hshares : Shares (table.assignAll assigned targets).2.row? column) :
    Shares table.row? column := by
  refine hshares.imp fun p row hrow => ?_
  rw [row?_assignAll table assigned hnodup] at hrow
  split at hrow
  · obtain ⟨previous, hprevious, rfl⟩ := Option.map_eq_some_iff.mp hrow
    refine ⟨previous, hprevious, ?_⟩
    rw [Row.cell_putAll previous hassigned, hnone]
    rfl
  · exact ⟨row, hrow, rfl⟩

section

variable {key : Value} (hkey : Mapping.get? assigned (.text column) = some key)
include hkey

/-- After a new value has been assigned, a row is one of the targets and has the value, or it is
another row and as before. -/
theorem row_assignAll_cases {p : Nat} {row : Row}
    (hrow : (table.assignAll assigned targets).2.row? p = some row) :
    (p ∈ targets ∧ row.cell column = key) ∨ (p ∉ targets ∧ table.row? p = some row) := by
  rw [row?_assignAll table assigned hnodup] at hrow
  split at hrow
  · next hp =>
    obtain ⟨previous, -, rfl⟩ := Option.map_eq_some_iff.mp hrow
    refine .inl ⟨hp, ?_⟩
    rw [Row.cell_putAll previous hassigned, hkey]
    rfl
  · next hp => exact .inr ⟨hp, hrow⟩

/-- Every target that holds a row has the new value afterwards. -/
theorem exists_row_assignAll {p : Nat} (hp : p ∈ targets)
    (hlive : (table.row? p).isSome = true) :
    ∃ row, (table.assignAll assigned targets).2.row? p = some row ∧ row.cell column = key := by
  obtain ⟨previous, hprevious⟩ := Option.isSome_iff_exists.mp hlive
  refine ⟨previous.putAll assigned, ?_, ?_⟩
  · rw [row?_assignAll table assigned hnodup, if_pos hp, hprevious]
    rfl
  · rw [Row.cell_putAll previous hassigned, hkey]
    rfl

/-- If no two rows share a key in a column, two that do after a new one has been assigned share the
new one, and one of them is a target. -/
theorem key_of_shares_assignAll (hapart : ¬Shares table.row? column)
    (hshares : Shares (table.assignAll assigned targets).2.row? column) :
    key.isNull = false ∧ targets ≠ [] ∧ (1 < targets.length ∨
      ∃ q row, q ∉ targets ∧ table.row? q = some row ∧ sameKey key (row.cell column) = true) := by
  obtain ⟨p, q, row, row', hne, hrow, hrow', hnull, hsame⟩ := hshares
  rcases row_assignAll_cases hassigned hnodup hkey hrow with ⟨hp, hcell⟩ | ⟨hp, hold⟩
  · rw [hcell] at hnull hsame
    refine ⟨hnull, List.ne_nil_of_mem hp, ?_⟩
    rcases row_assignAll_cases hassigned hnodup hkey hrow' with ⟨hq, -⟩ | ⟨hq, hold'⟩
    · -- Both are targets, so there are two.
      left
      match targets, hp, hq with
      | [_], hp, hq =>
        exact absurd ((List.mem_singleton.mp hp).trans (List.mem_singleton.mp hq).symm) hne
      | _ :: _ :: _, _, _ => simp
    · exact .inr ⟨q, row', hq, hold', hsame⟩
  · rcases row_assignAll_cases hassigned hnodup hkey hrow' with ⟨hq, hcell'⟩ | ⟨hq, hold'⟩
    · rw [hcell'] at hsame
      rw [Value.isNull_of_sameKey hsame] at hnull
      rw [Value.sameKey_comm] at hsame
      exact ⟨hnull, List.ne_nil_of_mem hq, .inr ⟨p, row, hp, hold, hsame⟩⟩
    · -- Neither is a target, so they shared a key before.
      exact absurd ⟨p, q, row, row', hne, hold, hold', hnull, hsame⟩ hapart

/-- If no two rows share a key in a column, and some get a new one there, two of them share it
afterwards when it is not NULL and goes to two rows, or to one while another has it. -/
theorem shares_assignAll_iff (hlive : ∀ p ∈ targets, (table.row? p).isSome = true)
    (hapart : ¬Shares table.row? column) :
    Shares (table.assignAll assigned targets).2.row? column ↔
      key.isNull = false ∧ targets ≠ [] ∧ (1 < targets.length ∨
        ∃ q row, q ∉ targets ∧ table.row? q = some row ∧ sameKey key (row.cell column) = true) := by
  refine ⟨key_of_shares_assignAll hassigned hnodup hkey hapart, ?_⟩
  rintro ⟨hnull, hne, hlength | ⟨q, row', hq, hrow', hsame⟩⟩
  · obtain ⟨p, q, hp, hq, hpq⟩ : ∃ p q, p ∈ targets ∧ q ∈ targets ∧ p ≠ q := by
      match targets, hlength, hnodup with
      | p :: q :: _, _, hnodup =>
        refine ⟨p, q, by simp, by simp, fun heq => ?_⟩
        exact (List.nodup_cons.mp hnodup).1 (heq ▸ List.mem_cons_self)
    obtain ⟨row, hrow, hcell⟩ := exists_row_assignAll hassigned hnodup hkey hp (hlive p hp)
    obtain ⟨row', hrow', hcell'⟩ := exists_row_assignAll hassigned hnodup hkey hq (hlive q hq)
    refine ⟨p, q, row, row', hpq, hrow, hrow', hcell ▸ hnull, ?_⟩
    rw [hcell, hcell']
    exact Value.sameKey_self key
  · obtain ⟨p, hp⟩ := List.exists_mem_of_ne_nil targets hne
    obtain ⟨row, hrow, hcell⟩ := exists_row_assignAll hassigned hnodup hkey hp (hlive p hp)
    refine ⟨p, q, row, row', ne_of_mem_of_not_mem hp hq, hrow, ?_, hcell ▸ hnull, hcell ▸ hsame⟩
    rw [row?_assignAll table assigned hnodup, if_neg hq, hrow']

end

end

/-- An update conflicts with an index when the index is unique, its key is not NULL, and it goes to
two rows, or to one while another has it. -/
theorem Consistent.updateConflicts_iff (h : table.Consistent) {index : Index}
    (hindex : index ∈ table.indexes) {column : Column} (hcolumn : column ∈ table.schema.columns)
    (hname : column.name = .text index.column) {key : Value} (hkey : key ∈ column.type.keys)
    (targets : List Nat) :
    table.updateConflicts targets index key = true ↔
      index.unique = true ∧ key.isNull = false ∧ targets ≠ [] ∧ (1 < targets.length ∨
        ∃ q row, q ∉ targets ∧ table.row? q = some row ∧
          sameKey key (row.cell index.column) = true) := by
  have hcovers := h.covers hindex hcolumn hname
  -- The positions under the key hold rows, so asking for them is asking for rows with the key.
  have hholders : ((index.tree.search key).any fun q =>
      !targets.contains q && (table.row? q).isSome) = true ↔
      ∃ q row, q ∉ targets ∧ table.row? q = some row ∧
        sameKey key (row.cell index.column) = true := by
    rw [List.any_eq_true]
    refine exists_congr fun q => ?_
    rw [hcovers.mem_search key hkey, Bool.and_eq_true, Bool.not_eq_true', List.contains_eq_mem,
      decide_eq_false_iff_not]
    constructor
    · rintro ⟨⟨row, hrow, hsame⟩, hq, -⟩
      exact ⟨row, hq, hrow, hsame⟩
    · rintro ⟨row, hq, hrow, hsame⟩
      exact ⟨⟨row, hrow, hsame⟩, hq, Option.isSome_iff_exists.mpr ⟨row, hrow⟩⟩
  have hempty : targets.isEmpty = false ↔ targets ≠ [] := by
    rw [← Bool.not_eq_true, List.isEmpty_iff]
  rw [updateConflicts, Bool.and_eq_true, Bool.and_eq_true, Bool.and_eq_true, Bool.or_eq_true,
    Bool.not_eq_true', Bool.not_eq_true', decide_eq_true_iff, hholders, hempty, and_assoc,
    and_assoc]

/-- An update conflicts with an index when two rows would share a key in the column of a unique
one. -/
theorem Consistent.updateConflict?_isSome_iff (h : table.Consistent) (hdistinct : table.Distinct)
    {assigned : Row} (hassigned : assigned.Assigns table.schema) {targets : List Nat}
    (hnodup : targets.Nodup) (hlive : ∀ p ∈ targets, (table.row? p).isSome = true) :
    (table.updateConflict? assigned targets).isSome = true ↔
      ∃ index ∈ table.indexes, index.unique = true ∧
        Shares (table.assignAll assigned targets).2.row? index.column := by
  rw [updateConflict?, List.findSome?_isSome_iff]
  refine exists_congr fun index => and_congr_right fun hindex => ?_
  obtain ⟨column, hcolumn, hname, -⟩ := h.indexed index hindex
  cases hget : Mapping.get? assigned (.text index.column) with
  | none =>
    -- The index has its keys as before, of which no two rows share one.
    refine iff_of_false Bool.false_ne_true ?_
    rintro ⟨hunique, hshares⟩
    exact hdistinct index hindex hunique (shares_of_assignAll hassigned hnodup hget hshares)
  | some key =>
    have hkey : key ∈ column.type.keys := by
      obtain ⟨own, hown, hownName, hkey⟩ := hassigned.exists_column _ (Mapping.mem_of_get? hget)
      obtain rfl : own = column :=
        Schema.column_eq_of_name hown hcolumn (hownName.trans hname.symm)
      exact hkey
    have hconflicts := h.updateConflicts_iff hindex hcolumn hname hkey targets
    -- The check of the index asks just what the assignment would bring about.
    have hshares (hunique : index.unique = true) :=
      shares_assignAll_iff hassigned hnodup hget hlive (hdistinct index hindex hunique)
    rw [Option.bind_some]
    split
    · next hconflict =>
      obtain ⟨hunique, hrest⟩ := hconflicts.mp hconflict
      exact iff_of_true rfl ⟨hunique, (hshares hunique).mpr hrest⟩
    · next hfine =>
      refine iff_of_false Bool.false_ne_true ?_
      rintro ⟨hunique, hshare⟩
      exact hfine (hconflicts.mpr ⟨hunique, (hshares hunique).mp hshare⟩)

/-- An update whose values and conditions pass their checks is refused when it conflicts with an
index, and assigns the values else. -/
theorem updateCells_of_assignments {cells : Mapping Text Cell} {conditions : List Condition}
    {assigned : Row} {targets : List Nat} (hassigned : table.assignments cells = .ok assigned)
    (htargets : table.targets conditions = .ok targets) :
    (RefusesDuplicate (table.updateCells cells conditions)
        {v | ∃ name, Mapping.get? assigned name = some v} ↔
      (table.updateConflict? assigned targets).isSome = true) ∧
    (¬RefusesDuplicate (table.updateCells cells conditions)
        {v | ∃ name, Mapping.get? assigned name = some v} →
      table.updateCells cells conditions = .ok (table.assignAll assigned targets)) := by
  unfold updateCells
  rw [hassigned, Outcome.ok_bind, htargets, Outcome.ok_bind]
  cases hconflict : table.updateConflict? assigned targets with
  | some conflict =>
    obtain ⟨index, -, hindex⟩ := List.exists_of_findSome?_eq_some hconflict
    obtain ⟨key, hget, hkey⟩ := Option.bind_eq_some_iff.mp hindex
    have hshown : conflict.2 ∈ {v | ∃ name, Mapping.get? assigned name = some v} := by
      split at hkey
      · cases hkey
        exact ⟨_, hget⟩
      · cases hkey
    exact ⟨iff_of_true (refusesDuplicate_error _ hshown) rfl,
      fun hnot => absurd (refusesDuplicate_error _ hshown) hnot⟩
  | none =>
    exact ⟨iff_of_false (not_refusesDuplicate_ok _ _) Bool.false_ne_true, fun _ => rfl⟩

/-! ## New indexes -/

/-- An index under a new name on a column of the table is refused when it is unique and two live
rows share a key in its column, and is created else, if trees of the table's order exist. -/
theorem Consistent.createIndex_of_columnName (h : table.Consistent) {name column : Text}
    {reference : ColumnName} (unique : Bool) {degree : BTree.Order}
    (hfresh : ∀ index ∈ table.indexes, index.name ≠ name)
    (hcolumn : table.schema.columnName reference = .ok column)
    (hdegree : BTree.Order.ofInt? table.treeOrder = some degree) :
    (RefusesDuplicate (table.createIndex name reference unique)
        {v | ∃ p row, table.row? p = some row ∧ row.cell column = v} ↔
      unique = true ∧ Shares table.row? column) ∧
    (¬RefusesDuplicate (table.createIndex name reference unique)
        {v | ∃ p row, table.row? p = some row ∧ row.cell column = v} →
      ∃ next, table.createIndex name reference unique = .ok next) := by
  -- With a name, a column and an order of trees, all depends on building the tree.
  have hnone : (table.indexes.any (·.name == name)) = false := by
    rw [List.any_eq_false]
    exact fun index hindex hsame => hfresh index hindex (beq_iff_eq.mp hsame)
  have hcreate : table.createIndex name reference unique =
      (buildTree degree column unique table.live).map fun tree =>
        { table with indexes := table.indexes ++ [⟨name, column, unique, tree⟩] } := by
    unfold createIndex
    rw [hnone, hcolumn, hdegree]
    change (buildTree degree column unique table.live >>= _) = _
    cases buildTree degree column unique table.live <;> rfl
  obtain ⟨_, -, -, hbuilt⟩ := h.buildTree_built hcolumn degree unique
  rw [hcreate]
  generalize buildTree degree column unique table.live = outcome at hbuilt
  cases hbuilt with
  | covering tree hcovers hapart =>
    exact ⟨iff_of_false (not_refusesDuplicate_ok _ _) fun hboth => hapart hboth.1 hboth.2,
      fun _ => ⟨_, rfl⟩⟩
  | duplicate key hunique hshares hkey =>
    exact ⟨iff_of_true (refusesDuplicate_error _ hkey) ⟨hunique, hshares⟩,
      fun hnot => absurd (refusesDuplicate_error _ hkey) hnot⟩

/-! ## Distinct tables -/

/-- Where the outlines of the indexes are the same, so is what must be distinct. -/
theorem Distinct.of_outlines {next : Table} (h : table.Distinct)
    (houtlines : next.outlines = table.outlines)
    (hrows : ∀ index ∈ table.indexes, index.unique = true →
      Shares next.row? index.column → Shares table.row? index.column) : next.Distinct := by
  intro index hindex hunique hshares
  have hmem : index.outline ∈ table.outlines := houtlines ▸ List.mem_map_of_mem hindex
  obtain ⟨old, hold, heq⟩ := List.mem_map.mp hmem
  have hcolumn : old.column = index.column := congrArg (·.2.1) heq
  have holdUnique : old.unique = index.unique := congrArg (·.2.2) heq
  rw [← holdUnique] at hunique
  rw [← hcolumn] at hshares
  exact h old hold hunique (hrows old hold hunique hshares)

/-- Rows at new positions share a key only if they did at the old ones. -/
theorem shares_of_compact {column : Text}
    (hshares : Shares (rowAt (table.liveRows.map some)) column) : Shares table.row? column := by
  obtain ⟨p, q, row, row', hne, hrow, hrow', hsame⟩ := hshares
  rw [rowAt_map_some, ← map_snd_live, List.getElem?_map] at hrow hrow'
  obtain ⟨⟨a, row⟩, ha, rfl⟩ := Option.map_eq_some_iff.mp hrow
  obtain ⟨⟨b, row'⟩, hb, rfl⟩ := Option.map_eq_some_iff.mp hrow'
  refine ⟨a, b, row, row', ?_, mem_live_iff.mp (List.mem_of_getElem? ha),
    mem_live_iff.mp (List.mem_of_getElem? hb), hsame⟩
  -- Different places in the list of live rows have different positions.
  rintro rfl
  have hnodup : (table.live.map Prod.fst).Nodup := table.live_ascending.imp Nat.ne_of_lt
  have hpa : (table.live.map Prod.fst)[p]? = some a := by rw [List.getElem?_map, ha]; rfl
  have hqa : (table.live.map Prod.fst)[q]? = some a := by rw [List.getElem?_map, hb]; rfl
  obtain ⟨hp, -⟩ := List.getElem?_eq_some_iff.mp hpa
  exact hne ((List.getElem?_inj hp hnodup).mp (hpa.trans hqa.symm))

/-- An operation that succeeds keeps a consistent table distinct. -/
theorem Distinct.of_apply (h : table.Distinct) (hconsistent : table.Consistent)
    {operation : Operation} {next : Table} (happly : table.apply operation = .ok next) :
    next.Distinct := by
  cases applies_of_apply happly with
  | @insert _ _ row _ hnew hnone =>
    -- A key that is shared now and was not before is the new row's, which conflicts.
    refine h.of_outlines (table.outlines_append row) fun index hindex hunique hshares => ?_
    have hfree : table.row? table.rows.length = none := rowAt_of_length_le (Nat.le_refl _)
    have hrows : Shares (table.append row).row? index.column := hshares
    rw [row?_append] at hrows
    rcases (shares_update_iff hfree row).mp hrows with hbefore | ⟨hnull, hkey⟩
    · exact hbefore
    · exact absurd ((hconsistent.conflicts_iff hindex (newRow_fits hnew)).mpr
        ⟨hunique, hnull, hkey⟩) (List.find?_eq_none.mp hnone index hindex)
  | @update _ _ _ targets hassigned htargets hnone =>
    have hassigns := assignments_assigns hassigned
    obtain ⟨hascending, hlive⟩ := hconsistent.targets_ascending htargets
    obtain ⟨-, -, houtlines⟩ := hconsistent.assignAll hassigns targets
    refine h.of_outlines houtlines fun index hindex hunique hshares => ?_
    -- An index in whose column two rows share a key would have been a conflict.
    have hconflict := (hconsistent.updateConflict?_isSome_iff h hassigns
      (hascending.imp Nat.ne_of_lt) hlive).mpr ⟨index, hindex, hunique, hshares⟩
    rw [hnone] at hconflict
    cases hconflict
  | @delete _ targets =>
    obtain ⟨-, -, houtlines⟩ := hconsistent.deleteAll targets
    refine h.of_outlines houtlines fun index _ _ hshares => hshares.imp fun p row hrow => ?_
    rw [row?_deleteAll] at hrow
    split at hrow
    · cases hrow
    · exact ⟨row, hrow, rfl⟩
  | createIndex hcreate =>
    obtain ⟨-, column, tree, -, rfl, hapart⟩ := hconsistent.of_createIndex hcreate
    intro index hindex hunique
    rcases List.mem_append.mp hindex with hold | hnew
    · exact h index hold hunique
    · obtain rfl := List.mem_singleton.mp hnew
      exact hapart hunique
  | compact =>
    obtain ⟨-, -, houtlines⟩ := hconsistent.compact
    refine h.of_outlines houtlines fun index _ _ hshares => ?_
    unfold compact at hshares
    dsimp only at hshares
    split at hshares
    · exact hshares
    · exact shares_of_compact hshares
  | restoreCounters => exact h

/-- Reachable tables are distinct. -/
theorem Reachable.distinct (h : table.Reachable) : table.Distinct := by
  have hboth : table.Consistent ∧ table.Distinct := by
    refine h.induction (fun table => table.Consistent ∧ table.Distinct) ?_ ?_
    · intro name columns treeOrder table hcreate
      obtain ⟨hconsistent, hrows, -⟩ := Consistent.of_create hcreate
      refine ⟨hconsistent, fun index _ _ hshares => ?_⟩
      obtain ⟨p, _, row, -, -, hrow, -⟩ := hshares
      rw [row?_eq, hrows] at hrow
      cases hrow
    · rintro table operation next ⟨hconsistent, hdistinct⟩ happly
      exact ⟨(hconsistent.of_apply happly).1, hdistinct.of_apply hconsistent happly⟩
  exact hboth.2

/-! ## The indexes of unique columns -/

/-- Every unique column is named by a text, and it has a unique index if there is no dot in the
text. -/
def Guarded (table : Table) : Prop :=
  ∀ column ∈ table.schema.columns, column.unique = true → ∃ name, column.name = .text name ∧
    (splitQualified? name = none → ∃ indexName, (indexName, name, true) ∈ table.outlines)

/-- A unique column gets its index with the table. -/
theorem guarded_of_create {name : Text} {columns : List Column} {treeOrder : Int}
    (hcreate : create name columns treeOrder = .ok table) : table.Guarded := by
  obtain ⟨-, -, hcolumns⟩ := Consistent.of_create hcreate
  obtain ⟨schema, -, hcreate⟩ := Outcome.bind_eq_ok.mp hcreate
  intro column hcolumn hunique
  rw [hcolumns] at hcolumn
  -- The index of the column is created in its turn, and those behind it leave it.
  have hmem : column ∈ columns.filter (·.unique) := List.mem_filter.mpr ⟨hcolumn, hunique⟩
  refine Outcome.foldlM_of_mem (fun table => ∃ text, column.name = .text text ∧
    (splitQualified? text = none → ∃ indexName, (indexName, text, true) ∈ table.outlines))
    hmem ?_ ?_ hcreate
  · intro before after hafter
    obtain ⟨own, _, tree, hname, -, rfl⟩ := createIndex_eq_ok hafter
    obtain ⟨text, htext, -, hplain⟩ := Schema.columnName_eq_ok hname
    refine ⟨text, htext, fun hsplit => ⟨indexNameFor name column.name, ?_⟩⟩
    rcases hplain with ⟨-, rfl⟩ | hqualified
    · rw [outlines, List.map_append]
      exact List.mem_append_right _ List.mem_cons_self
    · rw [hsplit] at hqualified
      cases hqualified
  · rintro before other - after ⟨text, htext, hindexed⟩ hafter
    obtain ⟨_, _, tree, -, -, rfl⟩ := createIndex_eq_ok hafter
    refine ⟨text, htext, fun hsplit => ?_⟩
    obtain ⟨indexName, hindex⟩ := hindexed hsplit
    refine ⟨indexName, ?_⟩
    rw [outlines, List.map_append]
    exact List.mem_append_left _ hindex

/-- Unique columns of reachable tables have their indexes. -/
theorem Reachable.guarded (h : table.Reachable) : table.Guarded := by
  have hboth : table.Consistent ∧ table.Guarded := by
    refine h.induction (fun table => table.Consistent ∧ table.Guarded) ?_ ?_
    · intro name columns treeOrder table hcreate
      exact ⟨(Consistent.of_create hcreate).1, guarded_of_create hcreate⟩
    · rintro table operation next ⟨hconsistent, hguarded⟩ happly
      obtain ⟨hnext, hschema, houtlines⟩ := hconsistent.of_apply happly
      refine ⟨hnext, fun column hcolumn hunique => ?_⟩
      rw [hschema] at hcolumn
      obtain ⟨name, hname, hindexed⟩ := hguarded column hcolumn hunique
      refine ⟨name, hname, fun hsplit => ?_⟩
      obtain ⟨indexName, hindex⟩ := hindexed hsplit
      exact ⟨indexName, houtlines hindex⟩
  exact hboth.2

/-- In a reachable table, an insertion, an update and a new unique index whose other checks pass are
refused just when they would make two live rows share a key other than NULL in the column of a
unique index. So no two live rows share one in a unique column without a dot in its name. -/
theorem Reachable.uniqueness (h : table.Reachable) :
    (∀ cells bare row, table.bareNames cells = .ok bare → table.newRow bare = .ok row →
      (RefusesDuplicate (table.insertCells cells) (Set.range row.cell) ↔
        ∃ index ∈ table.indexes, index.unique = true ∧ (row.cell index.column).isNull = false ∧
          ∃ p other, table.row? p = some other ∧
            sameKey (row.cell index.column) (other.cell index.column) = true) ∧
      (¬RefusesDuplicate (table.insertCells cells) (Set.range row.cell) →
        ∃ next, table.insertCells cells = .ok (row, next))) ∧
    (∀ cells conditions assigned targets, table.assignments cells = .ok assigned →
      table.targets conditions = .ok targets →
      (RefusesDuplicate (table.updateCells cells conditions)
          {v | ∃ name, Mapping.get? assigned name = some v} ↔
        ∃ index ∈ table.indexes, index.unique = true ∧
          Shares (table.assignAll assigned targets).2.row? index.column) ∧
      (¬RefusesDuplicate (table.updateCells cells conditions)
          {v | ∃ name, Mapping.get? assigned name = some v} →
        table.updateCells cells conditions = .ok (table.assignAll assigned targets))) ∧
    (∀ name reference column degree, (∀ index ∈ table.indexes, index.name ≠ name) →
      table.schema.columnName reference = .ok column →
      BTree.Order.ofInt? table.treeOrder = some degree →
      (RefusesDuplicate (table.createIndex name reference true)
          {v | ∃ p row, table.row? p = some row ∧ row.cell column = v} ↔
        Shares table.row? column) ∧
      (¬RefusesDuplicate (table.createIndex name reference true)
          {v | ∃ p row, table.row? p = some row ∧ row.cell column = v} →
        ∃ next, table.createIndex name reference true = .ok next)) ∧
    ((∀ column ∈ table.schema.columns, ∀ name, column.name = .text name →
        splitQualified? name = none) →
      ∀ column ∈ table.schema.columns, column.primaryKey = true ∨ column.unique = true →
        ∃ name, column.name = .text name ∧ ¬Shares table.row? name) := by
  have hconsistent := h.consistent
  refine ⟨?_, ?_, ?_, ?_⟩
  · intro cells bare row hbare hrow
    obtain ⟨hiff, hok⟩ := insertCells_of_newRow hbare hrow
    refine ⟨hiff.trans ?_, hok⟩
    refine exists_congr fun index => and_congr_right fun hindex => ?_
    exact hconsistent.conflicts_iff hindex (newRow_fits hrow)
  · intro cells conditions assigned targets hassigned htargets
    obtain ⟨hiff, hok⟩ := updateCells_of_assignments hassigned htargets
    obtain ⟨hascending, hlive⟩ := hconsistent.targets_ascending htargets
    refine ⟨hiff.trans ?_, hok⟩
    exact hconsistent.updateConflict?_isSome_iff h.distinct (assignments_assigns hassigned)
      (hascending.imp Nat.ne_of_lt) hlive
  · intro name reference column degree hfresh hcolumn hdegree
    obtain ⟨hiff, hok⟩ := hconsistent.createIndex_of_columnName true hfresh hcolumn hdegree
    exact ⟨hiff.trans (and_iff_right rfl), hok⟩
  · intro hundotted column hcolumn hconstraint
    have hunique : column.unique = true := hconstraint.elim column.unique_of_primaryKey id
    obtain ⟨name, hname, hindexed⟩ := h.guarded column hcolumn hunique
    refine ⟨name, hname, ?_⟩
    obtain ⟨indexName, hindex⟩ := hindexed (hundotted column hcolumn name hname)
    obtain ⟨index, hindex, heq⟩ := List.mem_map.mp hindex
    have hcolumn : index.column = name := congrArg (·.2.1) heq
    rw [← hcolumn]
    exact h.distinct index hindex (congrArg (·.2.2) heq)

/-- Where the only row holds a truth value, a second row with it is refused. -/
theorem uniqueness_flags :
    let table := flags.run [.insert [(.text "on", .value (.bool true))]]
    table.Reachable ∧
      (∃ values, RefusesDuplicate
        (table.insertCells [(.text "on", .value (.bool true))]) values) ∧
      ∃ result, table.insertCells [(.text "on", .value .null)] = .ok result := by
  intro table
  obtain ⟨hinsert, -⟩ := Reachable.uniqueness (flags_reachable _ : table.Reachable)
  refine ⟨flags_reachable _, ⟨_, (hinsert _ _ _ rfl rfl).1.mpr ?_⟩, ?_⟩
  · exact ⟨_, List.mem_cons_self, rfl, rfl, 0, _, rfl, rfl⟩
  · obtain ⟨hiff, hok⟩ := hinsert [(.text "on", .value .null)] _ _ rfl rfl
    obtain ⟨next, hnext⟩ := hok fun hrefuses => by
      obtain ⟨index, hindex, -, hnull, -⟩ := hiff.mp hrefuses
      obtain rfl := List.mem_singleton.mp hindex
      cases hnull
    exact ⟨_, hnext⟩

/-- A table of truth values whose indexes would have an order that trees do not have. -/
def unindexable : Table where
  schema := ⟨"flags", [.define (.text "on") .boolean false false false false], by decide⟩
  treeOrder := 2
  rows := []
  indexes := []
  counters := []

/-- A table of integers of which none comes twice. -/
def numbers : Table where
  schema := ⟨"numbers", [.define (.text "n") .int false true false false], by decide⟩
  treeOrder := 4
  rows := []
  indexes := [⟨"idx_numbers_n", "n", true, .empty .default⟩]
  counters := []

/-- Duplicates are refused by other errors where trees do not have the order of the table, and where
the value is an integer that is too long to be shown. -/
theorem duplicates_refused_otherwise :
    let twice := unindexable.run [.insert [(.text "on", .value (.bool true))],
      .insert [(.text "on", .value (.bool true))]]
    let long : Mapping ColumnName Cell := [(.text "n", .value (.int (tenTo digitLimit)))]
    let once := numbers.run [.insert long]
    (twice.Reachable ∧ twice.indexes = [] ∧ twice.schema.columnName (.text "on") = .ok "on" ∧
      Shares twice.row? "on" ∧
      twice.createIndex "i" (.text "on") true = .error (.treeOrder 2)) ∧
    (once.Reachable ∧ (∃ index ∈ once.indexes, index.unique = true ∧ index.column = "n") ∧
      (∃ row, once.row? 0 = some row ∧ row.cell (.text "n") = .int (tenTo digitLimit)) ∧
      Prod.fst <$> once.insertCells long = .error .unwritableInteger) := by
  intro twice long once
  constructor
  · refine ⟨?_, rfl, rfl, ⟨0, 1, _, _, Nat.zero_ne_one, rfl, rfl, rfl, rfl⟩, rfl⟩
    exact ⟨"flags", [.define (.text "on") .boolean false false false false], 2, unindexable, _,
      rfl, rfl⟩
  · refine ⟨?_, ⟨_, List.mem_cons_self, rfl, rfl⟩, ⟨_, rfl, rfl⟩, by decide +kernel⟩
    exact ⟨"numbers", [.define (.text "n") .int false true false false], 4, numbers, _, rfl, rfl⟩

end RelStore.Table
