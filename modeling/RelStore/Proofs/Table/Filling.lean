import RelStore.Proofs.Table.Counting
import RelStore.Proofs.Table.Effects

/-!
# Numbers that are filled in

An insertion fills a column in when it succeeds and leaves the column out or offers NULL for it
(`Table.fillsIn`). Of a column that counts up, the counter goes one further with each of these
operations and stays where it is with all others, unless counters are moved up
(`Consistent.get?_counters_step`). So without moving up it tells how often the column has been filled
in (`count_run`), and the numbers that are filled in are one, two and so on (`numbered_of_create`).
-/

namespace RelStore.Table

variable {table : Table}

/-! ## Which operations fill a column in -/

/-- The cells of a new row that are under texts. No other names refer to columns. -/
def textCells (cells : Mapping ColumnName Cell) : Mapping Text Cell :=
  cells.filterMap fun entry =>
    match entry.1 with
    | .text reference => some (reference, entry.2)
    | _ => none

/-- Cells leave a column out, or the last one that they offer for it is NULL. -/
def leavesOut (table : Table) (column : ColumnName) (cells : Mapping ColumnName Cell) : Bool :=
  (table.schema.lastOffer? (textCells cells) column).all (· = .value .null)

/-- An operation fills a column in: it is an insertion that leaves the column out and succeeds. -/
def fillsIn (table : Table) (column : ColumnName) : Operation → Bool
  | .insert cells => table.leavesOut column cells && (table.insertCells cells).isOk
  | _ => false

/-- How many operations of a run fill a column in. -/
def fills (table : Table) (column : ColumnName) : List Operation → Nat
  | [] => 0
  | operation :: rest =>
    (if table.fillsIn column operation then 1 else 0) + fills (table.step operation) column rest

/-- Under the bare name of a column is the last cell that is offered for it. -/
theorem get?_bareNames {cells bare : Mapping ColumnName Cell} (h : table.bareNames cells = .ok bare)
    (column : ColumnName) :
    bare.get? column = table.schema.lastOffer? (textCells cells) column := by
  -- The induction is on the cells from the end, where the last offer stands.
  induction cells using List.reverseRecOn generalizing bare with
  | nil =>
    cases h
    rfl
  | append_singleton cells entry ih =>
    obtain ⟨reference, cell⟩ := entry
    rw [bareNames, List.foldlM_append] at h
    obtain ⟨before, hbefore, h⟩ := Outcome.bind_eq_ok.mp h
    rw [List.foldlM_cons] at h
    obtain ⟨next, hnext, h⟩ := Outcome.bind_eq_ok.mp h
    cases h
    obtain ⟨name, hname, hnext⟩ := Outcome.bind_eq_ok.mp hnext
    cases hnext
    cases reference with
    | text reference =>
      have hcells : textCells (cells ++ [(.text reference, cell)]) =
          textCells cells ++ [(reference, cell)] := List.filterMap_append
      rw [Mapping.get?_put, ih hbefore, hcells, lastOffer?_concat hname]
    | _ => cases hname

/-- A new row takes a number from the counter of a column when its cells leave the column out. -/
theorem takesNumber_bareNames {cells bare : Mapping ColumnName Cell}
    (h : table.bareNames cells = .ok bare) (column : ColumnName) :
    takesNumber bare column = table.leavesOut column cells := by
  rw [takesNumber, leavesOut, get?_bareNames h]
  cases table.schema.lastOffer? (textCells cells) column with
  | none => rfl
  | some cell =>
    cases cell with
    | value v => cases v <;> rfl
    | unsupported shown => rfl

/-! ## Counting -/

/-- An operation fills a column in when it is an insertion that leaves the column out, given that it
succeeds. -/
theorem fillsIn_of_apply {operation : Operation} {next : Table}
    (h : table.apply operation = .ok next) (column : ColumnName) :
    table.fillsIn column operation =
      match operation with
      | .insert cells => table.leavesOut column cells
      | _ => false := by
  cases operation with
  | insert cells =>
    obtain ⟨outcome, hinsert, -⟩ := Outcome.map_eq_ok.mp h
    dsimp only [fillsIn]
    rw [hinsert]
    exact Bool.and_true _
  | _ => rfl

/-- An operation that fails fills no column in. -/
theorem fillsIn_of_apply_error {operation : Operation} {e : Error}
    (h : table.apply operation = .error e) (column : ColumnName) :
    table.fillsIn column operation = false := by
  cases operation with
  | insert cells =>
    cases hinsert : table.insertCells cells with
    | ok outcome =>
      rw [apply, hinsert] at h
      cases h
    | error e =>
      dsimp only [fillsIn]
      rw [hinsert]
      exact Bool.and_false _
  | _ => rfl

/-- An operation moves the counter of a column on when it fills the column in, and no other one does
unless counters are moved up. -/
theorem Consistent.get?_counters_step (h : table.Consistent) {operation : Operation}
    (hoperation : operation ≠ .restoreCounters) (column : ColumnName) :
    (table.step operation).counters.get? column = (table.counters.get? column).map fun count =>
      if table.fillsIn column operation then count + 1 else count := by
  rw [h.step_eq operation]
  split
  · next next happly =>
    rw [fillsIn_of_apply happly]
    rcases counters_of_apply happly with ⟨cells, bare, rfl, hbare, hnext⟩ | ⟨rfl, -⟩ | ⟨hno, hnext⟩
    · rw [hnext, get?_countersAfter, takesNumber_bareNames hbare]
    · exact absurd rfl hoperation
    · cases operation with
      | insert cells => exact absurd rfl (hno cells)
      | _ => simp [hnext]
  · next e herror => simp [fillsIn_of_apply_error herror]

/-- A run without moving counters up moves the counter of a column on as often as it fills the
column in. -/
theorem Consistent.get?_counters_run (h : table.Consistent) {operations : List Operation}
    (hoperations : .restoreCounters ∉ operations) (column : ColumnName) :
    (table.run operations).counters.get? column =
      (table.counters.get? column).map (· + table.fills column operations) := by
  -- The induction is on the operations, from any consistent table.
  induction operations generalizing table with
  | nil => simp [Table.run, fills]
  | cons operation rest ih =>
    obtain ⟨hfirst, hrest⟩ := not_or.mp (mt List.mem_cons.mpr hoperations)
    have hrun : table.run (operation :: rest) = (table.step operation).run rest := rfl
    rw [hrun, ih (h.step operation).1 hrest, h.get?_counters_step (Ne.symm hfirst),
      Option.map_map]
    refine congrArg (Option.map · _) (funext fun count => ?_)
    rw [Function.comp_apply, fills]
    split <;> omega

/-! ## Moving counters up -/

/-- A number that is not below any integer of the column is not raised. -/
theorem foldl_raise_of_le {column : ColumnName} {best : Nat} {rows : List Row}
    (h : ∀ row ∈ rows, ∀ n : Int, row.cell column = .int n → n ≤ best) :
    rows.foldl (raise column) best = best := by
  induction rows with
  | nil => rfl
  | cons row rest ih =>
    obtain ⟨hrow, hrest⟩ := List.forall_mem_cons.mp h
    have hraise : raise column best row = best := by
      unfold raise
      split
      · next n hn =>
        have := hrow n hn
        omega
      · rfl
    rw [List.foldl_cons, hraise]
    exact ih hrest

/-- Counters that have been moved up stay when they are moved up again. -/
theorem restoreCounters_idempotent (table : Table) :
    table.restoreCounters.restoreCounters = table.restoreCounters := by
  have hgreatest : ∀ entry ∈ table.counters,
      table.greatest entry.1 (table.greatest entry.1 entry.2) = table.greatest entry.1 entry.2 :=
    fun entry _ => foldl_raise_of_le fun row hrow n hcell =>
      table.le_greatest entry.1 entry.2 hrow hcell
  have hcounters : table.restoreCounters.restoreCounters.counters =
      table.restoreCounters.counters := by
    refine (List.map_map).trans (List.map_congr_left fun entry hentry => ?_)
    exact congrArg (Prod.mk entry.1) (hgreatest entry hentry)
  exact congrArg (fun counters => { table with counters := counters }) hcounters

/-! ## Columns of a new table -/

section

variable {name : Text} {columns : List Column} {treeOrder : Int} {created : Table}
  (hcreate : create name columns treeOrder = .ok created)
include hcreate

/-- In a new table no number has been taken from any counter. -/
theorem count_of_create (column : ColumnName) : created.count column = 0 := by
  rw [count, counters_of_create hcreate]
  cases hget : Mapping.get? ((columns.filter (·.autoIncrement)).map fun column =>
    (column.name, 0)) column with
  | none => rfl
  | some count =>
    obtain ⟨_, -, hentry⟩ := List.mem_map.mp (Mapping.mem_of_get? hget)
    exact (congrArg Prod.snd hentry).symm

/-- Without moving up, the counter of a column that counts up tells how often the column has been
filled in. -/
theorem count_run {column : Column} (hcolumn : column ∈ columns)
    (hauto : column.autoIncrement = true) {operations : List Operation}
    (hoperations : .restoreCounters ∉ operations) :
    (created.run operations).count column.name = created.fills column.name operations := by
  have hreachable : created.Reachable := ⟨_, _, _, _, [], hcreate, rfl⟩
  have hmem : column ∈ created.schema.columns := (Consistent.of_create hcreate).2.2 ▸ hcolumn
  rw [count, hreachable.consistent.get?_counters_run hoperations,
    hreachable.get?_counters hmem hauto, count_of_create hcreate, Option.map_some,
    Option.getD_some, Nat.zero_add]

/-- In any run from a new table, a column that counts up is filled in with one, two and so on, each
converted to the type of the column, as long as counters are not moved up. All operations that do
not fill the column in leave its counter. Moving counters up does not lower it, does nothing when it
is done again, and puts the counter of a column of integers past all of them. -/
theorem numbered_of_create {column : Column} (hcolumn : column ∈ columns)
    (hauto : column.autoIncrement = true) :
    (∀ before cells row next, .restoreCounters ∉ before →
      (created.run before).insertCells cells = .ok (row, next) →
      (created.run before).leavesOut column.name cells = true →
        coerce column.type (.int (created.fills column.name before + 1 : Nat)) =
            .ok (row.cell column.name) ∧
          next.rows = (created.run before).rows ++ [some row]) ∧
    (∀ before operation, operation ≠ .restoreCounters →
      (created.run before).fillsIn column.name operation = false →
        (created.run (before ++ [operation])).counters.get? column.name =
          (created.run before).counters.get? column.name) ∧
    ∀ before,
      let restored := (created.run before).restoreCounters
      (created.run before).count column.name ≤ restored.count column.name ∧
        restored.restoreCounters = restored ∧
        (column.type = .int → ∀ row ∈ restored.liveRows, row.cell column.name = .null ∨
          ∃ n, row.cell column.name = .int n ∧ n ≤ restored.count column.name) := by
  have hreachable : created.Reachable := ⟨_, _, _, _, [], hcreate, rfl⟩
  have hmem (before : List Operation) : column ∈ (created.run before).schema.columns := by
    rw [hreachable.consistent.schema_run, (Consistent.of_create hcreate).2.2]
    exact hcolumn
  refine ⟨?_, ?_, ?_⟩
  · intro before cells row next hbefore hinsert hleaves
    obtain ⟨bare, hbare, hrow, -, rfl⟩ := insertCells_eq_ok_iff.mp hinsert
    have htakes : takesNumber bare column.name = true :=
      (takesNumber_bareNames hbare _).trans hleaves
    rw [← count_run hcreate hcolumn hauto hbefore]
    exact ⟨coerce_of_newRow hrow (hmem before) hauto htakes, rfl⟩
  · intro before operation hoperation hfills
    have hrun : created.run (before ++ [operation]) = (created.run before).step operation :=
      List.foldl_append
    rw [hrun, (hreachable.run before).consistent.get?_counters_step hoperation, hfills]
    simp
  · intro before restored
    have hrestored : (created.run before).Reachable := hreachable.run before
    have hcount := hrestored.count_restoreCounters (hmem before) hauto
    refine ⟨?_, restoreCounters_idempotent _, fun hint row hrow => ?_⟩
    · rw [hcount]
      exact le_foldl_raise _ _ _
    · refine (hrestored.cell_of_int (hmem before) hint hrow).imp_right ?_
      rintro ⟨n, hcell⟩
      refine ⟨n, hcell, ?_⟩
      rw [hcount]
      exact le_greatest _ _ _ hrow hcell

end

/-- A table with an integer and a text that count up, and a truth value that must be there. -/
def tallies : Table where
  schema := ⟨"t", [.define (.text "id") .int false true false true,
    .define (.text "label") .string false false false true,
    .define (.text "on") .boolean false false true false], by decide⟩
  treeOrder := 4
  rows := []
  indexes := [⟨"idx_t_id", "id", true, .empty .default⟩]
  counters := [(.text "id", 0), (.text "label", 0)]

/-- Neither an insertion that fails nor one with a number of its own takes a number of the column
`id`, and nor do a deletion and a compaction; of the column `label` the second one does. -/
theorem numbered_of_create_tallies :
    let on : ColumnName × Cell := (.text "on", .value (.bool true))
    let before : List Operation := [.insert [on], .insert [],
      .insert [on, (.text "t.id", .value (.int 9))],
      .delete [⟨"id", .eq, .int 9, none⟩], .compact]
    let explicit : Operation := .insert [on, (.text "id", .value (.int 40))]
    create "t" tallies.schema.columns 4 = .ok tallies ∧
      (∃ row next, (tallies.run before).insertCells [on, (.text "id", .value .null)] =
          .ok (row, next) ∧
        row.cell (.text "id") = .int 2 ∧ row.cell (.text "label") = .string "3" ∧
        next.rows = (tallies.run before).rows ++ [some row]) ∧
      (tallies.run (before ++ [explicit])).counters.get? (.text "id") = some 1 ∧
      ∀ row ∈ (tallies.run (before ++ [explicit])).restoreCounters.liveRows,
        row.cell (.text "id") = .null ∨ ∃ n, row.cell (.text "id") = .int n ∧
          n ≤ (tallies.run (before ++ [explicit])).restoreCounters.count (.text "id") := by
  intro on before explicit
  have hcreate : create "t" tallies.schema.columns 4 = .ok tallies := rfl
  have hbefore : .restoreCounters ∉ before := by simp [before]
  obtain ⟨hid, hothers, hrestored⟩ := numbered_of_create hcreate List.mem_cons_self rfl
  obtain ⟨hlabel, -, -⟩ :=
    numbered_of_create hcreate (List.mem_cons_of_mem _ List.mem_cons_self) rfl
  refine ⟨hcreate, ?_, ?_, (hrestored (before ++ [explicit])).2.2 rfl⟩
  · have hok : ((tallies.run before).insertCells [on, (.text "id", .value .null)]).isOk = true := by
      decide +kernel
    obtain ⟨⟨row, next⟩, hinsert⟩ := Outcome.exists_of_isOk hok
    obtain ⟨hone, hrows⟩ := hid before _ row next hbefore hinsert (by decide +kernel)
    obtain ⟨hother, -⟩ := hlabel before _ row next hbefore hinsert (by decide +kernel)
    have hids : tallies.fills (.text "id") before = 1 := by decide +kernel
    have hlabels : tallies.fills (.text "label") before = 2 := by decide +kernel
    have hsecond : coerce .int (.int (1 + 1 : Nat)) = .ok (.int 2) := rfl
    have hthird : coerce .string (.int (2 + 1 : Nat)) = .ok (.string "3") := by decide +kernel
    dsimp only [Column.define] at hone hother
    rw [hids, hsecond] at hone
    rw [hlabels, hthird] at hother
    exact ⟨row, next, hinsert, (Except.ok.inj hone).symm, (Except.ok.inj hother).symm, hrows⟩
  · have hone : (tallies.run before).counters.get? (.text "id") = some 1 := by decide +kernel
    exact (hothers before explicit nofun (by decide +kernel)).trans hone

end RelStore.Table
