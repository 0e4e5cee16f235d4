import RelStore.Proofs.Joining.Narrowing

/-!
# References that have been checked

A query checks its references before it looks anything up. Those that pass are found wherever the
query looks them up afterwards: no later step ends with a missing column
(`isTextless_of_runSelect`), and a row of a query without joins has just the columns asked for, each
with the cell of the column that it names (`Row.ShownFrom`, `Reachable.checked_lookups`).
-/

namespace RelStore

open Sql (Join Select)

/-! ## What is asked for -/

/-- A name in an answer names a column of a table: it is the name of the column, or that name
qualified by the table. -/
def Table.Names (table : Table) (asked : ColumnName) (column : Column) : Prop :=
  asked = column.name ∨
    ∃ name, column.name = .text name ∧ asked = .text (qualify table.name name)

/-- What a query asks for: the references that it lists, or all columns of the base table. -/
def Sql.Select.asked (query : Select) (base : Table) : List ColumnName :=
  match query.columns with
  | some columns => columns.map .text
  | none => base.schema.columnNames

/-- A row of an answer shows of a row of a table just what is asked for. -/
structure Row.ShownFrom (table : Table) (asked : List ColumnName) (source row : Row) : Prop where
  /-- No name comes twice. -/
  nodup : row.names.Nodup
  /-- The names are those asked for. -/
  mem_names_iff : ∀ name, name ∈ row.names ↔ name ∈ asked
  /-- Each of them names a column of the table. -/
  named : ∀ name ∈ asked, ∃ column ∈ table.schema.columns, table.Names name column
  /-- Under a name that names a column is the cell of the column. -/
  cell : ∀ name ∈ asked, ∀ column ∈ table.schema.columns, table.Names name column →
    Mapping.get? row name = some (source.cell column.name)

/-! ## Looking up -/

/-- A reference that belongs to a table names one of its columns. -/
theorem Table.exists_names_of_belongsTo {table : Table} {reference : Text}
    (h : Database.belongsTo table reference = true) :
    ∃ column ∈ table.schema.columns, table.Names (.text reference) column := by
  obtain ⟨name, hname⟩ := Database.exists_columnName_of_belongsTo h
  obtain ⟨column, hcolumn, hcolumnName⟩ := Schema.exists_column_of_columnName hname
  refine ⟨column, hcolumn, ?_⟩
  obtain ⟨_, ⟨⟩, -, ⟨-, rfl⟩ | hsplit⟩ := Schema.columnName_eq_ok hname
  · exact .inl hcolumnName.symm
  · exact .inr ⟨name, hcolumnName, congrArg ColumnName.text (eq_qualify_of_splitQualified? hsplit)⟩

/-- In a row of a plain table a reference leads to the cell of the column that it names. -/
theorem Table.Plain.resolve? {table : Table} (h : table.Plain) {row : Row}
    (hrow : row ∈ table.liveRows) {reference : Text} {column : Column}
    (hcolumn : column ∈ table.schema.columns) (hnames : table.Names (.text reference) column) :
    row.resolve? reference = some (row.cell column.name) := by
  have hfits := h.fits row hrow
  rcases hnames with hname | ⟨name, hname, hqualified⟩
  · rw [hfits.resolve? hcolumn hname.symm, hname]
  · obtain rfl := ColumnName.text.inj hqualified
    have hcell := hfits.get?_name hcolumn
    rw [hname] at hcell ⊢
    rw [row.resolve?_qualify _ (h.schema.of_name hcolumn hname), (h.row hrow).get?_qualify,
      Option.none_or, hcell]

/-- A row that is projected to references that lead to columns of the table shows just these. -/
theorem Table.Plain.shownFrom_projectRow {table : Table} (h : table.Plain) {row : Row}
    (hrow : row ∈ table.liveRows) {columns : List Text}
    (hcolumns : ∀ reference ∈ columns, Database.belongsTo table reference = true) :
    Row.ShownFrom table (columns.map .text) row (projectRow columns row) := by
  have hnamed : ∀ reference ∈ columns,
      ∃ column ∈ table.schema.columns, table.Names (.text reference) column :=
    fun reference hreference => exists_names_of_belongsTo (hcolumns reference hreference)
  have hget (reference : Text) : Mapping.get? (projectRow columns row) (.text reference) =
      if reference ∈ columns then row.resolve? reference else none := by
    have hall := get?_putAll_references row columns [] reference
    rwa [Mapping.get?_nil, Option.or_none] at hall
  have hnodup : (projectRow columns row).names.Nodup :=
    Mapping.nodup_names_putAll (m := []) List.nodup_nil _
  refine ⟨hnodup, fun name => ?_, ?_, ?_⟩
  · constructor
    · -- Names come from the references alone.
      intro hname
      have hnames := (Mapping.mem_names_putAll.mp hname).resolve_right List.not_mem_nil
      obtain ⟨_, hentry, rfl⟩ := List.mem_map.mp hnames
      obtain ⟨reference, hreference, hsome⟩ := List.mem_filterMap.mp hentry
      obtain ⟨v, -, rfl⟩ := Option.map_eq_some_iff.mp hsome
      exact List.mem_map_of_mem hreference
    · intro hname
      obtain ⟨reference, hreference, rfl⟩ := List.mem_map.mp hname
      obtain ⟨column, hcolumn, hnames⟩ := hnamed reference hreference
      rw [← Mapping.isSome_get?_iff, hget, if_pos hreference, h.resolve? hrow hcolumn hnames]
      rfl
  · intro name hname
    obtain ⟨reference, hreference, rfl⟩ := List.mem_map.mp hname
    exact hnamed reference hreference
  · intro name hname column hcolumn hnames
    obtain ⟨reference, hreference, rfl⟩ := List.mem_map.mp hname
    rw [hget, if_pos hreference, h.resolve? hrow hcolumn hnames]

/-- A row of a plain table shows all its columns. -/
theorem Table.Plain.shownFrom_self {table : Table} (h : table.Plain) {row : Row}
    (hrow : row ∈ table.liveRows) : Row.ShownFrom table table.schema.columnNames row row := by
  have hfits := h.fits row hrow
  refine ⟨hfits.nodup_names, fun name => by rw [hfits.names_eq], ?_, ?_⟩
  · intro name hname
    obtain ⟨column, hcolumn, rfl⟩ := List.mem_map.mp hname
    exact ⟨column, hcolumn, .inl rfl⟩
  · rintro name hname column hcolumn (rfl | ⟨bare, -, rfl⟩)
    · exact hfits.get?_name hcolumn
    · -- No column has a name with a dot.
      rw [← hfits.names_eq] at hname
      exact absurd rfl (qualify_ne_of_plain (h.row hrow _ hname) table.name bare)

/-! ## Queries -/

namespace Database

variable {db : Database} {query : Select} {base : Table} {joined : List (Join × Table)}

/-- Sorting fails where an integer cannot be written. -/
theorem isTextless_of_sortRows {keys : List Sql.SortKey} {rows : List Row} {error : Error}
    (h : sortRows keys rows = .error error) : error.IsTextless := by
  unfold sortRows at h
  split at h
  · cases h
  · dsimp only at h
    split at h
    · cases h
    · exact .inl (Except.error.inj h).symm

/-- A reference to one table alone passes its check just when it belongs to the table. -/
theorem belongsTo_of_checkColumn {reference : Text} (h : checkColumn [base] reference = .ok ()) :
    belongsTo base reference = true := by
  unfold checkColumn at h
  unfold belongsTo
  simp only [List.any_cons, List.any_nil, Bool.or_false] at h
  cases hsplit : splitQualified? reference with
  | none =>
    rw [hsplit] at h
    dsimp only at h ⊢
    by_contra hnot
    rw [if_neg hnot] at h
    cases h
  | some parts =>
    rw [hsplit] at h
    dsimp only at h ⊢
    by_contra hnot
    rw [BEq.comm] at hnot
    rw [if_neg hnot] at h
    cases h

/-- Rows within a limit are some of the rows. -/
theorem mem_of_mem_limitRows {limit : Option Int} {rows : List Row} {row : Row}
    (h : row ∈ limitRows limit rows) : row ∈ rows := by
  unfold limitRows at h
  split at h
  · exact h
  · split at h <;> exact List.mem_of_mem_take h

/-- A query without joins whose references belong to its table selects rows of the table. -/
theorem selectRows_of_belongsTo
    (h : ∀ reference ∈ references query, belongsTo base reference = true) :
    selectRows base [] query = base.select query.conditions := by
  have hconditions : (query.conditions.all fun c => belongsTo base c.column) = true := by
    refine List.all_eq_true.mpr fun c hc => h c.column ?_
    unfold references
    simp only [List.mem_append, List.mem_map]
    exact .inl (.inl (.inr ⟨c, hc, rfl⟩))
  rw [selectRows, if_pos hconditions]
  exact bind_pure _

/-- A query whose references have been checked ends with rows, or where something has no text. -/
theorem isTextless_of_runSelect (hbase : db.table query.table = .ok base)
    (hjoined : (query.joins.mapM fun join => do return (join, ← db.table join.table)) = .ok joined)
    (hchecked : (references query).forM (checkColumn (base :: joined.map Prod.snd)) = .ok ())
    {error : Error} (h : db.runSelect query = .error error) : error.IsTextless := by
  rw [runSelect, hbase, Outcome.ok_bind, hjoined, Outcome.ok_bind, hchecked, Outcome.ok_bind] at h
  rcases Outcome.bind_eq_error.mp h with h | ⟨chosen, -, h⟩
  · exact isTextless_of_selectRows h
  rcases Outcome.bind_eq_error.mp h with h | ⟨sorted, -, h⟩
  · exact isTextless_of_sortRows h
  cases hcolumns : query.columns with
  | some columns =>
    rw [hcolumns] at h
    cases h
  | none =>
    rw [hcolumns] at h
    dsimp only at h
    split at h <;> cases h

/-- In a reachable database whose columns have no dots in their names, a query whose references have
been checked never ends with a missing column. If it has no joins, it answers with the rows that it
has selected, sorted and limited, and of each of them shows just what is asked for. -/
theorem Reachable.checked_lookups (h : db.Reachable) (hbase : db.table query.table = .ok base)
    (hjoined : (query.joins.mapM fun join => do return (join, ← db.table join.table)) = .ok joined)
    (hplain : ∀ table ∈ base :: joined.map Prod.snd, table.schema.Plain)
    (hchecked : (references query).forM (checkColumn (base :: joined.map Prod.snd)) = .ok ()) :
    (∀ reference table, db.runSelect query ≠ .error (.columnNotFound reference table)) ∧
    (query.joins = [] → ∀ result, db.runSelect query = .ok result →
      ∃ selected sorted rows, base.select query.conditions = .ok selected ∧
        sortRows query.sortKeys selected = .ok sorted ∧ result.rows = some rows ∧
        result.columns = some (query.asked base) ∧
        List.Forall₂ (fun source row => source ∈ base.liveRows ∧
            Row.ShownFrom base (query.asked base) source row)
          (limitRows (query.limit.map Int.ofNat) sorted) rows) := by
  refine ⟨fun reference table herror => ?_, fun hnone result hresult => ?_⟩
  · obtain hnever | ⟨_, hnever⟩ := isTextless_of_runSelect hbase hjoined hchecked herror
    · cases hnever
    · cases hnever
  · have htable : base.Plain := h.sound.plain hbase (hplain base List.mem_cons_self)
    obtain rfl : joined = [] := by
      rw [hnone] at hjoined
      exact (Except.ok.inj hjoined).symm
    have hbelongs : ∀ reference ∈ references query, belongsTo base reference = true :=
      fun reference hreference =>
        belongsTo_of_checkColumn (Outcome.forM_eq_ok.mp hchecked reference hreference)
    rw [runSelect, hbase, Outcome.ok_bind, hjoined, Outcome.ok_bind, hchecked, Outcome.ok_bind,
      selectRows_of_belongsTo hbelongs] at hresult
    obtain ⟨selected, hselected, hresult⟩ := Outcome.bind_eq_ok.mp hresult
    obtain ⟨sorted, hsorted, hresult⟩ := Outcome.bind_eq_ok.mp hresult
    have hlive : ∀ source ∈ limitRows (query.limit.map Int.ofNat) sorted,
        source ∈ base.liveRows := fun source hsource => Table.mem_liveRows_of_select hselected
      ((sortRows_perm hsorted).mem_iff.mp (mem_of_mem_limitRows hsource))
    dsimp only at hresult
    unfold Select.asked
    cases hcolumns : query.columns with
    | some columns =>
      rw [hcolumns] at hresult
      cases hresult
      refine ⟨selected, sorted, _, hselected, hsorted, rfl, rfl, ?_⟩
      refine List.forall₂_map_right_iff.mpr (List.forall₂_same.mpr fun source hsource => ?_)
      refine ⟨hlive source hsource, htable.shownFrom_projectRow (hlive source hsource) ?_⟩
      intro reference hreference
      refine hbelongs reference (List.mem_append_right _ ?_)
      rw [hcolumns]
      exact hreference
    | none =>
      rw [hcolumns, hnone] at hresult
      cases hresult
      refine ⟨selected, sorted, _, hselected, hsorted, rfl, rfl, ?_⟩
      exact List.forall₂_same.mpr fun source hsource =>
        ⟨hlive source hsource, htable.shownFrom_self (hlive source hsource)⟩

/-- A table that has a dot in its own name. -/
def nested : Database :=
  ⟨defaultName, .default, [pairs "a.b" [[(.text "id", .int 1), (.text "k", .int 5)],
    [(.text "id", .int 2), (.text "k", .int 7)]]]⟩

/-- Two statements make the table. -/
theorem nested_reachable : nested.Reachable := by
  have hparse : (["CREATE TABLE a.b (id INT, k INT)", "INSERT INTO a.b VALUES (1, 5), (2, 7)"] :
      List Text).mapM Sql.parse = .ok [.createTable "a.b" (pairs "a.b" []).schema.columns,
        .insert "a.b" [] [[.int 1, .int 5], [.int 2, .int 7]]] := rfl
  exact (written_of_performAll hparse rfl).reachable

/-- The row that is found has the two columns asked for, the one under its qualified name and the
other one under its bare name. -/
theorem checked_lookups_nested :
    let query : Select :=
      ⟨"a.b", some ["a.b.k", "id", "a.b.k"], [], [⟨"a.b.id", .eq, .int 2, none⟩], [], none⟩
    Sql.parse "SELECT a.b.k, id, a.b.k FROM a.b WHERE a.b.id = 2" = .ok (.select query) ∧
      nested.Reachable ∧
      (∀ reference table, nested.runSelect query ≠ .error (.columnNotFound reference table)) ∧
      ∃ result row, ∃ base : Table, nested.table query.table = .ok base ∧
        nested.runSelect query = .ok result ∧ result.rows = some [row] ∧
        (∀ name, name ∈ row.names ↔
          name ∈ ([.text "a.b.k", .text "id", .text "a.b.k"] : List ColumnName)) ∧
        ∃ source ∈ base.liveRows, Mapping.get? row (.text "a.b.k") = some (source.cell "k") ∧
          Mapping.get? row (.text "id") = some (source.cell "id") := by
  intro query
  have hparse : Sql.parse "SELECT a.b.k, id, a.b.k FROM a.b WHERE a.b.id = 2" =
      .ok (.select query) := by rfl
  let base := pairs "a.b" [[(.text "id", .int 1), (.text "k", .int 5)],
    [(.text "id", .int 2), (.text "k", .int 7)]]
  have hbase : nested.table query.table = .ok base := rfl
  have hjoined : (query.joins.mapM fun join => do
      return (join, ← nested.table join.table)) = .ok [] := rfl
  obtain ⟨hnever, hshown⟩ :=
    nested_reachable.checked_lookups hbase hjoined (by decide) (by rfl)
  refine ⟨hparse, nested_reachable, hnever, ?_⟩
  let row : Row := [(.text "a.b.k", .int 7), (.text "id", .int 2)]
  have hresult : nested.runSelect query =
      .ok (.ofRows none [row] [.text "a.b.k", .text "id", .text "a.b.k"]) := by decide +kernel
  obtain ⟨selected, sorted, rows, -, -, hrows, -, hall⟩ := hshown rfl _ hresult
  obtain rfl : [row] = rows := Option.some.inj hrows
  obtain ⟨source, _, ⟨hsource, hfrom⟩, -, -⟩ := List.forall₂_cons_right_iff.mp hall
  refine ⟨_, row, base, hbase, hresult, rfl, hfrom.mem_names_iff, source, hsource, ?_, ?_⟩
  · exact hfrom.cell _ (by decide) (.define (.text "k") .int false false false false) (by decide)
      (.inr ⟨"k", rfl, rfl⟩)
  · exact hfrom.cell _ (by decide) (.define (.text "id") .int false false false false) (by decide)
      (.inl rfl)

end Database

end RelStore
