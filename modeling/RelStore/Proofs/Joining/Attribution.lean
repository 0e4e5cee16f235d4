import RelStore.Proofs.Database.History
import RelStore.Proofs.Joining.Reading
import RelStore.Proofs.Table.Selection

/-!
# The columns of joined rows

Every cell of a joined row belongs to a row of one of the tables (`Row.Attributed`). The rows of the
tables are chosen, one or none of each table, and the joined row has just their cells: each under
its name qualified by the table, and under every bare name one of the cells of this name. Under
qualified names this is what it is to hold the sources (`Holds`); under the bare ones a row shows
cells of its sources and nothing else (`Traced.Shows`), which every join keeps whatever its kind
(`Traced.Shows.of_mem_traceJoin`).
-/

namespace RelStore

open Sql (Join JoinKind)

/-- The cells of a row are attributed to rows chosen from some tables, one or none of each. -/
structure Row.Attributed (tables : List Table) (choice : Table → Option Row) (row : Row) :
    Prop where
  /-- The chosen rows are live rows of their tables. -/
  live : ∀ table ∈ tables, ∀ source, choice table = some source → source ∈ table.liveRows
  /-- A row of some table is chosen. -/
  chosen : ∃ table ∈ tables, (choice table).isSome = true
  /-- No name comes twice. -/
  nodup : row.names.Nodup
  /-- The cells under names with a dot are those of the chosen rows under the names of their columns
  qualified by the tables. -/
  qualified : ∀ name, ¬RelStore.Plain name → ∀ v, (.text name, v) ∈ row ↔
    ∃ table ∈ tables, ∃ source column, choice table = some source ∧
      table.schema.hasColumn (.text column) = true ∧ name = qualify table.name column ∧
      v = source.cell (.text column)
  /-- There is a cell under a name without a dot just when a chosen table has a column of the
  name. -/
  bare : ∀ name : ColumnName, name.Plain → (name ∈ row.names ↔
    ∃ table ∈ tables, (choice table).isSome = true ∧ table.schema.hasColumn name = true)
  /-- It is the cell of a chosen row whose table has a column of the name. -/
  bare_cell : ∀ name : ColumnName, name.Plain → ∀ v, (name, v) ∈ row →
    ∃ table ∈ tables, ∃ source, choice table = some source ∧
      table.schema.hasColumn name = true ∧ v = source.cell name

namespace Traced

/-! ## Sources and bare names of a joined row -/

section

variable {l : Traced} {r? : Option Traced} {leftTable rightTable : Text}

/-- A source of a joined row is one of either row of which it is made, if these are of different
tables. -/
theorem get?_sources_combine
    (hapart : ∀ r, r? = some r → ∀ name, l.sources.get? name = none ∨ r.sources.get? name = none)
    {name : Text} {source : Row} :
    (l.combine leftTable r? rightTable).sources.get? name = some source ↔
      l.sources.get? name = some source ∨
        ∃ r, r? = some r ∧ r.sources.get? name = some source := by
  rw [combine, Mapping.get?_append, Option.or_eq_some_iff]
  refine or_congr_right ?_
  cases r? with
  | none => simp [Mapping.get?_nil]
  | some r =>
    have hor := hapart r rfl name
    simp only [Option.map_some, Option.getD_some, Option.some.injEq, exists_eq_left']
    constructor
    · exact fun h => h.2
    · intro hsource
      refine ⟨hor.resolve_right ?_, hsource⟩
      rw [hsource]
      exact Option.some_ne_none source

/-- Under a bare name a joined row has what the later of its two rows has, or else the earlier. -/
theorem get?_combine (hl : (Mapping.names (joinedEntries l.row leftTable)).Nodup)
    (hr : ∀ r, r? = some r → (Mapping.names (joinedEntries r.row rightTable)).Nodup)
    {name : ColumnName} (hname : name.Plain) :
    Mapping.get? (l.combine leftTable r? rightTable).row name =
      (r?.bind fun r => Mapping.get? r.row name).or (Mapping.get? l.row name) := by
  cases r? with
  | none =>
    change Mapping.get? (Mapping.ofList (joinedEntries l.row leftTable)) name = _
    rw [Mapping.get?_ofList hl, get?_joinedEntries l.row leftTable hname, Option.bind_none,
      Option.none_or]
  | some r =>
    change Mapping.get? ((Mapping.ofList (joinedEntries l.row leftTable)).putAll
      (joinedEntries r.row rightTable)) name = _
    rw [Mapping.get?_putAll _ (hr r rfl), Mapping.get?_ofList hl,
      get?_joinedEntries l.row leftTable hname, get?_joinedEntries r.row rightTable hname,
      Option.bind_some]

end

/-! ## Rows that show their sources -/

/-- A row shows its sources: under its bare names there are cells of them and nothing else. -/
structure Shows (t : Traced) : Prop where
  /-- It has a source. -/
  nonempty : ∃ name source, t.sources.get? name = some source
  /-- What is under a bare name is the cell that a source has there. -/
  exists_source : ∀ column : ColumnName, column.Plain → ∀ v, Mapping.get? t.row column = some v →
    ∃ name source, t.sources.get? name = some source ∧ Mapping.get? source column = some v
  /-- Where a source has a cell, there is one under the bare name. -/
  isSome_get? : ∀ column : ColumnName, column.Plain → ∀ name source,
    t.sources.get? name = some source → (Mapping.get? source column).isSome = true →
      (Mapping.get? t.row column).isSome = true

/-- A row of a table shows itself. -/
theorem Shows.ofRow (table : Text) (row : Row) : (ofRow table row).Shows := by
  have hself : (Traced.ofRow table row).sources.get? table = some row := by
    rw [Traced.ofRow, Mapping.get?_cons, if_pos rfl]
  refine ⟨⟨table, row, hself⟩, fun _ _ v hv => ⟨table, row, hself, hv⟩, ?_⟩
  intro column _ name source hsource hcell
  rw [Traced.ofRow, Mapping.get?_cons] at hsource
  split at hsource
  · cases hsource
    exact hcell
  · cases hsource

/-- A joined row shows the sources of the rows of which it is made, if they are of different
tables. -/
theorem Shows.combine {l : Traced} {r? : Option Traced} {leftTable rightTable : Text}
    (hl : l.Shows) (hlBrings : Holds l.sources (joinedEntries l.row leftTable))
    (hr : ∀ r, r? = some r → r.Shows ∧ Holds r.sources (joinedEntries r.row rightTable))
    (hapart : ∀ r, r? = some r → ∀ name, l.sources.get? name = none ∨ r.sources.get? name = none) :
    (l.combine leftTable r? rightTable).Shows := by
  have hget {column : ColumnName} (hcolumn : column.Plain) :
      Mapping.get? (l.combine leftTable r? rightTable).row column =
        (r?.bind fun r => Mapping.get? r.row column).or (Mapping.get? l.row column) :=
    get?_combine hlBrings.nodup (fun r hsome => (hr r hsome).2.nodup) hcolumn
  refine ⟨?_, fun column hcolumn v hv => ?_, fun column hcolumn name source hsource hcell => ?_⟩
  · obtain ⟨name, source, hsource⟩ := hl.nonempty
    exact ⟨name, source, (get?_sources_combine hapart).mpr (.inl hsource)⟩
  · rw [hget hcolumn, Option.or_eq_some_iff] at hv
    rcases hv with hv | ⟨-, hv⟩
    · obtain ⟨r, rfl, hv⟩ := Option.bind_eq_some_iff.mp hv
      obtain ⟨name, source, hsource, hcell⟩ := (hr r rfl).1.exists_source column hcolumn v hv
      exact ⟨name, source, (get?_sources_combine hapart).mpr (.inr ⟨r, rfl, hsource⟩), hcell⟩
    · obtain ⟨name, source, hsource, hcell⟩ := hl.exists_source column hcolumn v hv
      exact ⟨name, source, (get?_sources_combine hapart).mpr (.inl hsource), hcell⟩
  · rw [hget hcolumn, Option.isSome_or, Bool.or_eq_true]
    rcases (get?_sources_combine hapart).mp hsource with hown | ⟨r, rfl, hown⟩
    · exact .inr (hl.isSome_get? column hcolumn name source hown hcell)
    · exact .inl ((hr r rfl).1.isSome_get? column hcolumn name source hown hcell)

/-- A row that two sides make is made of a row of the one and perhaps of a row of the other, in the
order that the kind of the join asks for. -/
theorem mem_traceJoin {kind : JoinKind} {left right : TracedSide} {t : Traced}
    (h : t ∈ traceJoin kind left right) :
    ∃ first second, (first = left ∧ second = right ∨ first = right ∧ second = left) ∧
      ∃ l ∈ first.rows, ∃ r?, (∀ r, r? = some r → r ∈ second.rows) ∧
        t = l.combine first.table r? second.table := by
  unfold traceJoin at h
  split at h
  · exact ⟨left, right, .inl ⟨rfl, rfl⟩, mem_traceLeft h⟩
  · exact ⟨left, right, .inl ⟨rfl, rfl⟩, mem_traceLeft h⟩
  · exact ⟨right, left, .inr ⟨rfl, rfl⟩, mem_traceLeft h⟩

section

variable {tables : List Table} {base : Text} {rows : List Traced} {t : Traced}

/-- A row that is joined with a further table shows its sources and holds them. -/
theorem Shows.of_mem_traceJoin (htracks : ∀ t ∈ rows, t.Tracks tables base)
    (hshows : ∀ t ∈ rows, t.Shows) {clause : Join} {table : Table}
    (hname : clause.table = table.name) (hplain : table.Plain)
    (hnew : table.name ∉ tables.map Table.name)
    (h : t ∈ traceJoin clause.kind ⟨rows, base, clause.left⟩ (.ofTable clause table)) :
    t.Shows ∧ Holds t.sources t.row := by
  have hleft : ∀ l ∈ rows, l.Shows ∧ Holds l.sources (joinedEntries l.row base) :=
    fun l hl => ⟨hshows l hl, (htracks l hl).brings⟩
  have hright : ∀ r ∈ (TracedSide.ofTable clause table).rows,
      r.Shows ∧ Holds r.sources (joinedEntries r.row clause.table) := by
    intro r hr
    obtain ⟨row, hrow, rfl⟩ := List.mem_map.mp hr
    rw [hname]
    exact ⟨.ofRow table.name row, (Tracks.ofRow hplain hrow).brings⟩
  have hapart : ∀ l ∈ rows, ∀ r ∈ (TracedSide.ofTable clause table).rows, ∀ name,
      l.sources.get? name = none ∨ r.sources.get? name = none :=
    fun l hl r hr => (htracks l hl).apart_ofTable hname hnew hr
  obtain ⟨first, second, ⟨rfl, rfl⟩ | ⟨rfl, rfl⟩, l, hl, r?, hr?, rfl⟩ := mem_traceJoin h
  · have hpartner (r : Traced) (hr : r? = some r) := hright r (hr? r hr)
    have hother (r : Traced) (hr : r? = some r) := hapart l hl r (hr? r hr)
    exact ⟨(hleft l hl).1.combine (hleft l hl).2 hpartner hother,
      holds_combine (hleft l hl).2 fun r hr => ⟨(hpartner r hr).2, hother r hr⟩⟩
  · -- The rows of the table come first where these are the rows to keep.
    have hpartner (r : Traced) (hr : r? = some r) := hleft r (hr? r hr)
    have hother (r : Traced) (hr : r? = some r) (name : Text) :=
      (hapart r (hr? r hr) l hl name).symm
    exact ⟨(hright l hl).1.combine (hright l hl).2 hpartner hother,
      holds_combine (hright l hl).2 fun r hr => ⟨(hpartner r hr).2, hother r hr⟩⟩

/-- After any joins at all, rows show their sources and hold them. -/
theorem Shows.of_mem_traceTables (htracks : ∀ t ∈ rows, t.Tracks tables base)
    (hshows : ∀ t ∈ rows, t.Shows) {joined : List (Join × Table)} (hnonempty : joined ≠ [])
    (hjoined : ∀ item ∈ joined, item.1.table = item.2.name ∧ item.2.Plain)
    (hnames : ((tables ++ joined.map Prod.snd).map Table.name).Nodup)
    (h : t ∈ traceTables base rows joined) : t.Shows ∧ Holds t.sources t.row := by
  -- The induction is on the joins, from any rows that track their sources and show them.
  induction joined generalizing tables rows with
  | nil => exact absurd rfl hnonempty
  | cons first rest ih =>
    obtain ⟨clause, table⟩ := first
    obtain ⟨⟨hname, hplain⟩, hrest⟩ := List.forall_mem_cons.mp hjoined
    rw [List.map_cons, List.append_cons] at hnames
    have hnew : table.name ∉ tables.map Table.name := by
      rw [List.map_append, List.map_append, List.nodup_append'] at hnames
      exact fun hmem => (List.nodup_append'.mp hnames.1).2.2 hmem List.mem_cons_self
    have hstep {t : Traced}
        (ht : t ∈ traceJoin clause.kind ⟨rows, base, clause.left⟩ (.ofTable clause table)) :=
      Shows.of_mem_traceJoin htracks hshows hname hplain hnew ht
    rw [traceTables] at h
    by_cases hlast : rest = []
    · rw [hlast] at h
      exact hstep h
    · exact ih (fun t ht => Tracks.of_mem_traceJoin htracks hname hplain hnew ht)
        (fun t ht => (hstep ht).1) hlast hrest hnames h

/-! ## Attribution -/

/-- A cell of a source is the cell of a column of the table whose row the source is. -/
theorem Tracks.source_cell_iff (h : t.Tracks tables base) (htables : ∀ table ∈ tables, table.Plain)
    (hnames : (tables.map Table.name).Nodup) {qualifier : Text} {column : ColumnName} {v : Value} :
    (∃ source, t.sources.get? qualifier = some source ∧ Mapping.get? source column = some v) ↔
      ∃ table ∈ tables, ∃ source, t.sources.get? table.name = some source ∧
        table.name = qualifier ∧ table.schema.hasColumn column = true ∧ v = source.cell column := by
  have hfits : ∀ table ∈ tables, ∀ source, t.sources.get? table.name = some source →
      source.Fits table.schema :=
    fun table htable source hsource => (htables table htable).fits source
      (h.mem_liveRows hnames htable hsource)
  constructor
  · rintro ⟨source, hsource, hcell⟩
    obtain ⟨table, htable, rfl, -⟩ := h.live _ _ hsource
    have hcolumn := (hfits table htable source hsource).get?_eq_some_iff.mp hcell
    exact ⟨table, htable, source, hsource, rfl, hcolumn⟩
  · rintro ⟨table, htable, source, hsource, rfl, hcolumn⟩
    exact ⟨source, hsource, (hfits table htable source hsource).get?_eq_some_iff.mpr hcolumn⟩

/-- What is under a bare name is the cell of a row that has contributed, of a table with a column of
the name. -/
theorem Tracks.exists_bare_cell (h : t.Tracks tables base) (hshows : t.Shows)
    (htables : ∀ table ∈ tables, table.Plain) (hnames : (tables.map Table.name).Nodup)
    {name : ColumnName} (hname : name.Plain) {v : Value} (hv : Mapping.get? t.row name = some v) :
    ∃ table ∈ tables, ∃ source, t.sources.get? table.name = some source ∧
      table.schema.hasColumn name = true ∧ v = source.cell name := by
  obtain ⟨_, source, hsource, hcell⟩ := hshows.exists_source name hname v hv
  obtain ⟨table, htable, source, hsource, -, hcolumn⟩ :=
    (h.source_cell_iff htables hnames).mp ⟨source, hsource, hcell⟩
  exact ⟨table, htable, source, hsource, hcolumn⟩

/-- The cells of a row that tracks, shows and holds its sources are attributed to them. -/
theorem Tracks.attributed (h : t.Tracks tables base) (hshows : t.Shows)
    (hholds : Holds t.sources t.row) (htables : ∀ table ∈ tables, table.Plain)
    (hnames : (tables.map Table.name).Nodup) :
    t.row.Attributed tables fun table => t.sources.get? table.name := by
  have hmem {name : ColumnName} {v : Value} :
      (name, v) ∈ t.row ↔ Mapping.get? t.row name = some v :=
    ⟨Mapping.get?_of_mem hholds.nodup, Mapping.mem_of_get?⟩
  refine ⟨fun table htable source hsource => h.mem_liveRows hnames htable hsource, ?_,
    hholds.nodup, fun name hdot v => ?_, fun name hname => ?_,
    fun name hname v hv => h.exists_bare_cell hshows htables hnames hname (hmem.mp hv)⟩
  · obtain ⟨name, source, hsource⟩ := hshows.nonempty
    obtain ⟨table, htable, rfl, -⟩ := h.live _ _ hsource
    exact ⟨table, htable, Option.isSome_iff_exists.mpr ⟨source, hsource⟩⟩
  · rw [hmem]
    constructor
    · intro hv
      obtain ⟨qualifier, column, hcolumn, rfl⟩ := exists_eq_qualify hdot
      rw [hholds.get?_qualify qualifier column hcolumn, Option.bind_eq_some_iff] at hv
      obtain ⟨table, htable, source, hsource, rfl, hhas, hcell⟩ :=
        (h.source_cell_iff htables hnames).mp hv
      exact ⟨table, htable, source, column, hsource, hhas, rfl, hcell⟩
    · rintro ⟨table, htable, source, column, hsource, hhas, rfl, hcell⟩
      obtain ⟨definition, hdefinition⟩ := Option.isSome_iff_exists.mp hhas
      obtain ⟨hmemColumn, hcolumnName⟩ := Schema.column?_eq_some hdefinition
      have hcolumn := (htables table htable).schema.of_name hmemColumn hcolumnName
      rw [hholds.get?_qualify table.name column hcolumn, Option.bind_eq_some_iff]
      exact (h.source_cell_iff htables hnames).mpr
        ⟨table, htable, source, hsource, rfl, hhas, hcell⟩
  · rw [← Mapping.isSome_get?_iff]
    constructor
    · intro hsome
      obtain ⟨v, hv⟩ := Option.isSome_iff_exists.mp hsome
      obtain ⟨table, htable, source, hsource, hhas, -⟩ :=
        h.exists_bare_cell hshows htables hnames hname hv
      exact ⟨table, htable, Option.isSome_iff_exists.mpr ⟨source, hsource⟩, hhas⟩
    · rintro ⟨table, htable, hchosen, hhas⟩
      obtain ⟨source, hsource⟩ := Option.isSome_iff_exists.mp hchosen
      obtain ⟨own, hown, hcell⟩ := (h.source_cell_iff htables hnames).mpr
        ⟨table, htable, source, hsource, rfl, hhas, rfl⟩
      exact hshows.isSome_get? name hname table.name own hown
        (Option.isSome_iff_exists.mpr ⟨_, hcell⟩)

end

end Traced

namespace Database

/-- Whatever tables without dots in their column names are joined one after the other, in whatever
ways, if they are different tables then the cells of every joined row are attributed to rows of the
tables. -/
theorem joinTables_attributed {base : Table} {joined : List (Join × Table)}
    (hreachable : ∀ table ∈ base :: joined.map Prod.snd, table.Reachable)
    (hplain : ∀ table ∈ base :: joined.map Prod.snd, table.schema.Plain)
    (hnamed : ∀ item ∈ joined, item.1.table = item.2.name)
    (hdistinct : ((base :: joined.map Prod.snd).map Table.name).Nodup) (hnonempty : joined ≠ [])
    {conditions : List Condition} {start rows : List Row}
    (hstart : base.select conditions = .ok start)
    (hjoin : joinTables base.name start joined = .ok rows) :
    ∀ row ∈ rows, ∃ choice, row.Attributed (base :: joined.map Prod.snd) choice := by
  have htables : ∀ table ∈ base :: joined.map Prod.snd, table.Plain := by
    intro table htable
    refine ⟨hplain table htable, fun row hrow => ?_⟩
    obtain ⟨p, hp⟩ := Table.mem_liveRows_iff.mp hrow
    exact (hreachable table htable).consistent.fits p row hp
  have hitems : ∀ item ∈ joined, item.1.table = item.2.name ∧ item.2.Plain :=
    fun item hitem => ⟨hnamed item hitem,
      htables item.2 (List.mem_cons_of_mem _ (List.mem_map_of_mem hitem))⟩
  -- The chain starts with rows of the base table, each of which is its own source.
  have htracks : ∀ t ∈ start.map (Traced.ofRow base.name), t.Tracks [base] base.name := by
    intro t ht
    obtain ⟨row, hrow, rfl⟩ := List.mem_map.mp ht
    exact .ofRow (htables base List.mem_cons_self) (Table.mem_liveRows_of_select hstart hrow)
  have hshows : ∀ t ∈ start.map (Traced.ofRow base.name), t.Shows := by
    intro t ht
    obtain ⟨row, -, rfl⟩ := List.mem_map.mp ht
    exact .ofRow base.name row
  have hstartRows : (start.map (Traced.ofRow base.name)).map (·.row) = start := by
    simp [Traced.ofRow, Function.comp_def]
  rw [← hstartRows] at hjoin
  intro row hrow
  rw [joinTables_eq_trace hjoin] at hrow
  obtain ⟨t, ht, rfl⟩ := List.mem_map.mp hrow
  have htracked := Traced.Tracks.of_mem_traceTables htracks hitems hdistinct ht
  obtain ⟨hshown, hheld⟩ :=
    Traced.Shows.of_mem_traceTables htracks hshows hnonempty hitems hdistinct ht
  exact ⟨_, htracked.attributed hshown hheld htables hdistinct⟩

/-- A chain that keeps a row of the second table without a partner and then finds a partner for it
in the third one. Under the bare names of this row are the cells of the third table. -/
theorem joinTables_attributed_pairs :
    let row (id k : Int) : Row := [(.text "id", .int id), (.text "k", .int k)]
    let joined : List (Join × Table) :=
      [(⟨.right, "b", ⟨some "a", "k"⟩, ⟨some "b", "k"⟩⟩, pairs "b" [row 2 5, row 3 6]),
        (⟨.left, "c", ⟨some "b", "id"⟩, ⟨some "c", "id"⟩⟩, pairs "c" [row 3 7])]
    let rows : List Row :=
      [[(.text "id", .int 1), (.text "b.id", .int 2), (.text "k", .int 5), (.text "b.k", .int 5),
          (.text "a.id", .int 1), (.text "a.k", .int 5)],
        [(.text "id", .int 3), (.text "b.id", .int 3), (.text "k", .int 7), (.text "b.k", .int 6),
          (.text "c.id", .int 3), (.text "c.k", .int 7)]]
    joinTables "a" [row 1 5] joined = .ok rows ∧
      ∀ row' ∈ rows, ∃ choice,
        row'.Attributed (pairs "a" [row 1 5] :: joined.map Prod.snd) choice := by
  intro row joined rows
  have hjoin : joinTables "a" [row 1 5] joined = .ok rows := by decide +kernel
  -- The rows have been inserted into new tables.
  let insert (id k : Int) : Table.Operation :=
    .insert [(.text "id", .value (.int id)), (.text "k", .value (.int k))]
  have ha : (pairs "a" [row 1 5]).Reachable :=
    ⟨"a", (pairs "a" []).schema.columns, 4, pairs "a" [], [insert 1 5], rfl, rfl⟩
  have hb : (pairs "b" [row 2 5, row 3 6]).Reachable :=
    ⟨"b", (pairs "b" []).schema.columns, 4, pairs "b" [], [insert 2 5, insert 3 6], rfl, rfl⟩
  have hc : (pairs "c" [row 3 7]).Reachable :=
    ⟨"c", (pairs "c" []).schema.columns, 4, pairs "c" [], [insert 3 7], rfl, rfl⟩
  have hreachable : ∀ table ∈ pairs "a" [row 1 5] :: joined.map Prod.snd, table.Reachable := by
    simp only [joined, List.map_cons, List.map_nil, List.forall_mem_cons]
    exact ⟨ha, hb, hc, List.forall_mem_nil _⟩
  refine ⟨hjoin, ?_⟩
  exact joinTables_attributed hreachable (by decide) (by decide) (by decide) (by decide)
    (by decide +kernel : (pairs "a" [row 1 5]).select [] = .ok [row 1 5]) hjoin

end Database

end RelStore
