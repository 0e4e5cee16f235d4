import RelStore.Proofs.Joining.Sources
import RelStore.Proofs.Table.Targets

/-!
# Reading joined rows

Along the joins of a query every row keeps track of its sources (`Traced.Tracks`): it holds them and
they are live rows of the tables joined so far. A qualified reference is read in such a row at every
place of a statement alike (`Row.reads_resolve?`). If a row of the table has contributed, what is
read is the cell of this row (`Traced.Tracks.reads_source`); if none has, it is whatever stands
under the bare name, which is nothing only if no source has a column of the name
(`Traced.Tracks.reads_bare`).
-/

namespace RelStore

open Sql (Join JoinColumn JoinKind SortKey)

/-! ## The four places of a reference -/

/-- Under a reference that is asked for, an answer has what the reference leads to, and under all
else nothing but what it had. -/
theorem get?_putAll_references (row : Row) (columns : List Text) (out : Row) (reference : Text) :
    Mapping.get? (out.putAll (columns.filterMap fun column =>
        (row.resolve? column).map fun v => (.text column, v))) (.text reference) =
      if reference ∈ columns then (row.resolve? reference).or (Mapping.get? out (.text reference))
      else Mapping.get? out (.text reference) := by
  induction columns generalizing out with
  | nil => rfl
  | cons column rest ih =>
    cases hcolumn : row.resolve? column with
    | none =>
      rw [List.filterMap_cons_none (by rw [hcolumn]; rfl), ih]
      by_cases heq : reference = column
      · subst heq
        rw [if_pos List.mem_cons_self, hcolumn, Option.none_or, ite_self]
      · simp only [List.mem_cons, heq, false_or]
    | some v =>
      have hput (k : ColumnName) := Mapping.get?_put out (.text column) v k
      rw [List.filterMap_cons_some (by rw [hcolumn]; rfl), Mapping.putAll, List.foldl_cons,
        ← Mapping.putAll, ih, hput]
      by_cases heq : reference = column
      · subst heq
        rw [if_pos rfl, if_pos List.mem_cons_self, hcolumn, Option.some_or, Option.some_or,
          ite_self]
      · have hne : ¬ColumnName.text column = .text reference := by
          rintro ⟨⟩
          exact heq rfl
        rw [if_neg hne]
        simp only [List.mem_cons, heq, false_or]

/-- A qualified reference is read alike at every place of a statement. -/
theorem Row.reads_resolve? (row : Row) (table : Text) {column : Text}
    (hplain : RelStore.Plain column) :
    row.Reads table column (row.resolve? (qualify table column)) := by
  refine ⟨fun condition hcondition => ?_, fun key hkey => ?_, fun columns hmem => ?_, ?_⟩
  · rw [Condition.subject, hcondition]
  · rw [SortKey.valueIn, hkey]
  · have hget := get?_putAll_references row columns [] (qualify table column)
    rw [if_pos hmem, Mapping.get?_nil, Option.or_none] at hget
    exact hget
  · rw [row.resolve?_qualify table hplain, joinKey?, Option.bind_some]
    cases Mapping.get? row (.text (qualify table column)) <;> rfl

/-! ## Rows that keep track of their sources -/

/-- The rows of a table fit its schema, in which no name has a dot. -/
structure Table.Plain (table : Table) : Prop where
  /-- No column has a dot in its name. -/
  schema : table.schema.Plain
  /-- The live rows fit the schema. -/
  fits : ∀ row ∈ table.liveRows, row.Fits table.schema

/-- No cell of a live row has a dot in its name. -/
theorem Table.Plain.row {table : Table} (h : table.Plain) {row : Row}
    (hrow : row ∈ table.liveRows) : row.Plain := by
  intro name hname
  rw [(h.fits row hrow).names_eq, Schema.columnNames, List.mem_map] at hname
  obtain ⟨column, hcolumn, rfl⟩ := hname
  exact h.schema column hcolumn

/-- No name comes twice in a live row. -/
theorem Table.Plain.nodup_names {table : Table} (h : table.Plain) {row : Row}
    (hrow : row ∈ table.liveRows) : row.names.Nodup :=
  (h.fits row hrow).nodup_names

namespace Traced

/-- A row that a query works on keeps track of its sources. -/
structure Tracks (tables : List Table) (base : Text) (t : Traced) : Prop where
  /-- The sources are live rows of the tables. -/
  live : ∀ name source, t.sources.get? name = some source →
    ∃ table ∈ tables, table.name = name ∧ source ∈ table.liveRows
  /-- What the row brings into a join holds its sources. -/
  brings : Holds t.sources (joinedEntries t.row base)
  /-- The row has been joined, or it is a row of the base table. -/
  shape : Holds t.sources t.row ∨ t.row.Plain ∧ t = .ofRow base t.row

/-- A row of a table keeps track of itself. -/
theorem Tracks.ofRow {table : Table} (h : table.Plain) {row : Row} (hrow : row ∈ table.liveRows) :
    Tracks [table] table.name (.ofRow table.name row) := by
  refine ⟨fun name source hsource => ?_, ?_, .inr ⟨h.row hrow, rfl⟩⟩
  · rw [Traced.ofRow, Mapping.get?_cons] at hsource
    split at hsource
    · next heq =>
      cases hsource
      exact ⟨table, List.mem_cons_self, heq, hrow⟩
    · cases hsource
  · exact holds_joinedEntries (h.row hrow) table.name (h.nodup_names hrow)

/-- A row keeps track of its sources as rows of more tables. -/
theorem Tracks.mono {tables more : List Table} {base : Text} {t : Traced} (h : t.Tracks tables base)
    (hsub : tables ⊆ more) : t.Tracks more base := by
  refine ⟨fun name source hsource => ?_, h.brings, h.shape⟩
  obtain ⟨table, htable, hname, hrow⟩ := h.live name source hsource
  exact ⟨table, hsub htable, hname, hrow⟩

/-- A joined row holds the sources of the rows of which it is made, if they are of different
tables. -/
theorem holds_combine {l : Traced} {r? : Option Traced} {leftTable rightTable : Text}
    (hl : Holds l.sources (joinedEntries l.row leftTable))
    (hr : ∀ r, r? = some r → Holds r.sources (joinedEntries r.row rightTable) ∧
      ∀ name, l.sources.get? name = none ∨ r.sources.get? name = none) :
    Holds (l.combine leftTable r? rightTable).sources (l.combine leftTable r? rightTable).row := by
  cases r? with
  | none =>
    have hsources : (l.combine leftTable none rightTable).sources = l.sources :=
      List.append_nil _
    rw [hsources]
    exact hl.ofList
  | some r =>
    obtain ⟨hright, hapart⟩ := hr r rfl
    exact hl.ofList.putAll hright hapart

/-- What is made of a left row is this row with perhaps a row of the other side. -/
theorem mem_traceRow {left right : TracedSide} {keepUnmatched : Bool} {l t : Traced}
    (h : t ∈ traceRow left right keepUnmatched l) :
    ∃ r?, (∀ r, r? = some r → r ∈ right.rows) ∧ t = l.combine left.table r? right.table := by
  unfold traceRow at h
  split at h
  · split at h
    · exact ⟨none, nofun, List.mem_singleton.mp h⟩
    · cases h
  · obtain ⟨r, hr, rfl⟩ := List.mem_map.mp h
    refine ⟨some r, fun other hother => ?_, rfl⟩
    cases hother
    exact List.mem_of_mem_filter hr

/-- A joined row is made of a row of the one side and perhaps of a row of the other. -/
theorem mem_traceLeft {left right : TracedSide} {keepUnmatched : Bool} {t : Traced}
    (h : t ∈ traceLeft left right keepUnmatched) :
    ∃ l ∈ left.rows, ∃ r?, (∀ r, r? = some r → r ∈ right.rows) ∧
      t = l.combine left.table r? right.table := by
  obtain ⟨l, hl, ht⟩ := List.mem_flatMap.mp h
  exact ⟨l, hl, mem_traceRow ht⟩

/-- A row made of rows of different tables that keep track of their sources does so too. -/
theorem Tracks.of_mem_traceLeft {tables : List Table} {left right : TracedSide}
    {keepUnmatched : Bool} (hleft : ∀ l ∈ left.rows, l.Tracks tables left.table)
    (hright : ∀ r ∈ right.rows, r.Tracks tables right.table)
    (hapart : ∀ l ∈ left.rows, ∀ r ∈ right.rows, ∀ name,
      l.sources.get? name = none ∨ r.sources.get? name = none)
    {t : Traced} (h : t ∈ traceLeft left right keepUnmatched) (base : Text) :
    t.Tracks tables base := by
  obtain ⟨l, hl, r?, hr?, rfl⟩ := mem_traceLeft h
  have hholds := holds_combine (hleft l hl).brings fun r hr =>
    ⟨(hright r (hr? r hr)).brings, hapart l hl r (hr? r hr)⟩
  refine ⟨fun name source hsource => ?_, ?_, .inl hholds⟩
  · rw [Traced.combine, Mapping.get?_append] at hsource
    rcases Option.or_eq_some_iff.mp hsource with hsource | ⟨-, hsource⟩
    · exact (hleft l hl).live name source hsource
    · cases r? with
      | none => cases hsource
      | some r => exact (hright r (hr? r rfl)).live name source hsource
  · rw [hholds.joinedEntries_eq]
    exact hholds

/-- No source of a row so far is of a table that is joined anew. -/
theorem Tracks.apart_ofTable {tables : List Table} {base : Text} {l : Traced}
    (h : l.Tracks tables base) {clause : Join} {table : Table} (hname : clause.table = table.name)
    (hnew : table.name ∉ tables.map Table.name) {r : Traced}
    (hr : r ∈ (TracedSide.ofTable clause table).rows) (name : Text) :
    l.sources.get? name = none ∨ r.sources.get? name = none := by
  obtain ⟨row, hrow, rfl⟩ := List.mem_map.mp hr
  by_cases heq : name = table.name
  · left
    rw [Option.eq_none_iff_forall_ne_some]
    intro source hsource
    obtain ⟨other, hother, hotherName, -⟩ := h.live name source hsource
    exact hnew (heq ▸ hotherName ▸ List.mem_map_of_mem hother)
  · right
    rw [Traced.ofRow, Mapping.get?_cons, hname, if_neg (Ne.symm heq), Mapping.get?_nil]

/-- A row that is joined with a further table keeps track of its sources. -/
theorem Tracks.of_mem_traceJoin {tables : List Table} {base : Text} {rows : List Traced}
    (hrows : ∀ t ∈ rows, t.Tracks tables base) {clause : Join} {table : Table}
    (hname : clause.table = table.name) (hplain : table.Plain)
    (hnew : table.name ∉ tables.map Table.name) {t : Traced}
    (h : t ∈ traceJoin clause.kind ⟨rows, base, clause.left⟩ (.ofTable clause table)) :
    t.Tracks (tables ++ [table]) base := by
  have hleft : ∀ l ∈ rows, l.Tracks (tables ++ [table]) base :=
    fun l hl => (hrows l hl).mono (List.subset_append_left _ _)
  have hright : ∀ r ∈ (TracedSide.ofTable clause table).rows,
      r.Tracks (tables ++ [table]) clause.table := by
    intro r hr
    obtain ⟨row, hrow, rfl⟩ := List.mem_map.mp hr
    rw [hname]
    exact (Tracks.ofRow hplain hrow).mono (List.subset_append_right _ _)
  have hapart : ∀ l ∈ rows, ∀ r ∈ (TracedSide.ofTable clause table).rows, ∀ name,
      l.sources.get? name = none ∨ r.sources.get? name = none :=
    fun l hl r hr => (hrows l hl).apart_ofTable hname hnew hr
  have hswapped : ∀ r ∈ (TracedSide.ofTable clause table).rows, ∀ l ∈ rows, ∀ name,
      r.sources.get? name = none ∨ l.sources.get? name = none :=
    fun r hr l hl name => (hapart l hl r hr name).symm
  unfold traceJoin at h
  split at h
  · exact of_mem_traceLeft hleft hright hapart h base
  · exact of_mem_traceLeft hleft hright hapart h base
  · exact of_mem_traceLeft hright hleft hswapped h base

/-- The joined rows of a query keep track of their sources. -/
theorem Tracks.of_mem_traceTables {tables : List Table} {base : Text} {rows : List Traced}
    (hrows : ∀ t ∈ rows, t.Tracks tables base) {joined : List (Join × Table)}
    (hjoined : ∀ item ∈ joined, item.1.table = item.2.name ∧ item.2.Plain)
    (hnames : ((tables ++ joined.map Prod.snd).map Table.name).Nodup) {t : Traced}
    (h : t ∈ traceTables base rows joined) : t.Tracks (tables ++ joined.map Prod.snd) base := by
  -- The induction is on the joins, from any rows that keep track of their sources.
  induction joined generalizing tables rows with
  | nil =>
    rw [List.map_nil, List.append_nil]
    exact hrows t h
  | cons first rest ih =>
    obtain ⟨clause, table⟩ := first
    obtain ⟨⟨hname, hplain⟩, hrest⟩ := List.forall_mem_cons.mp hjoined
    rw [List.map_cons, List.append_cons] at hnames ⊢
    have hnew : table.name ∉ tables.map Table.name := by
      intro hmem
      rw [List.map_append, List.map_append, List.nodup_append'] at hnames
      have hprefix := (List.nodup_append'.mp hnames.1).2.2
      exact hprefix hmem List.mem_cons_self
    exact ih (fun t ht => of_mem_traceJoin hrows hname hplain hnew ht) hrest hnames h

/-! ## What is read -/

variable {tables : List Table} {base : Text} {t : Traced}

/-- A source under the name of a table is a live row of the table. -/
theorem Tracks.mem_liveRows (h : t.Tracks tables base) (hnames : (tables.map Table.name).Nodup)
    {table : Table} (htable : table ∈ tables) {source : Row}
    (hsource : t.sources.get? table.name = some source) : source ∈ table.liveRows := by
  obtain ⟨other, hother, hotherName, hrow⟩ := h.live _ _ hsource
  rw [List.inj_on_of_nodup_map hnames hother htable hotherName] at hrow
  exact hrow

/-- If a row of a table has contributed, a qualified reference to a column of the table is read as
the cell of that row. -/
theorem Tracks.reads_source (h : t.Tracks tables base) (htables : ∀ table ∈ tables, table.Plain)
    (hnames : (tables.map Table.name).Nodup) {table : Table} (htable : table ∈ tables)
    {column : Text} (hcolumn : table.schema.hasColumn column = true) {source : Row}
    (hsource : t.sources.get? table.name = some source) :
    t.row.Reads table.name column (some (source.cell column)) := by
  obtain ⟨definition, hdefinition⟩ := Option.isSome_iff_exists.mp hcolumn
  obtain ⟨hmem, hname⟩ := Schema.column?_eq_some hdefinition
  have hplain : RelStore.Plain column := (htables table htable).schema.of_name hmem hname
  have hlive : source ∈ table.liveRows := h.mem_liveRows hnames htable hsource
  have hcell : Mapping.get? source (.text column) = some (source.cell column) :=
    ((htables table htable).fits source hlive).get?_eq hmem hname
  have hread := t.row.reads_resolve? table.name hplain
  rw [Row.resolve?_qualify _ _ hplain] at hread
  rcases h.shape with hholds | ⟨hrow, heq⟩
  · rw [hholds.get?_qualify table.name column hplain, hsource, Option.bind_some, hcell,
      Option.some_or] at hread
    exact hread
  · -- A row of the base table has only the bare name, and it is its own source.
    have hself : t.row = source := by
      rw [heq, Traced.ofRow, Mapping.get?_cons] at hsource
      split at hsource
      · exact Option.some.inj hsource
      · cases hsource
    rw [hrow.get?_qualify, Option.none_or, hself, hcell] at hread
    rw [hself]
    exact hread

/-- If no row of a table has contributed, a qualified reference to a column is read as what is under
the bare name, and this is nothing only where no source has a column of the name. -/
theorem Tracks.reads_bare (h : t.Tracks tables base) {name column : Text}
    (hplain : RelStore.Plain column) (hsource : t.sources.get? name = none) :
    t.row.Reads name column (Mapping.get? t.row (.text column)) ∧
      (Mapping.get? t.row (.text column) = none ↔
        ∀ other source, t.sources.get? other = some source →
          Mapping.get? source (.text column) = none) := by
  have hread := t.row.reads_resolve? name hplain
  rw [Row.resolve?_qualify _ _ hplain] at hread
  rcases h.shape with hholds | ⟨hrow, heq⟩
  · rw [hholds.get?_qualify name column hplain, hsource, Option.bind_none, Option.none_or] at hread
    refine ⟨hread, ?_⟩
    rw [← Option.not_isSome_iff_eq_none, hholds.isSome_get?_iff column hplain]
    constructor
    · intro hnot other source hother
      rw [← Option.not_isSome_iff_eq_none]
      exact fun hcell => hnot ⟨other, source, hother, hcell⟩
    · rintro hall ⟨other, source, hother, hcell⟩
      rw [hall other source hother] at hcell
      cases hcell
  · rw [hrow.get?_qualify, Option.none_or] at hread
    refine ⟨hread, ?_⟩
    rw [heq]
    simp only [Traced.ofRow, Mapping.get?_cons, Mapping.get?_nil]
    constructor
    · intro hnone other source hother
      split at hother
      · cases hother
        exact hnone
      · cases hother
    · exact fun hall => hall base _ (if_pos rfl)

end Traced

end RelStore
