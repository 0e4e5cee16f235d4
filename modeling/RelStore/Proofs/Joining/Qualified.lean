import RelStore.Proofs.Joining.Attribution
import RelStore.Proofs.Sql.WellRead

/-!
# What a query reads under a qualified reference

A statement may refer to the column of a table in the condition of a join, in `WHERE`, in `ORDER BY`
and in the list of its columns. In a query over different tables without dots in the names of their
columns, such a reference is read as the cell of the row of the table that has contributed to the
joined row (`ReadsColumns`). Where an outer join has kept a row to which no row of the table has
contributed, the reference falls back to the bare column name, under which there may be the cell of
a row of another table that has contributed.
-/

namespace RelStore

open Sql (Join Select)

/-- The rows of a query after some joins, with their sources. -/
def Sql.Select.traced (query : Select) (start : List Row) (joined : List (Join × Table)) :
    List Traced :=
  traceTables query.table (start.map (.ofRow query.table)) joined

/-- The references of a query over some tables are read in the rows of these tables. -/
structure ReadsColumns (query : Select) (base : Table) (joined : List (Join × Table)) : Prop where
  /-- Conditions that concern the base table alone choose among its live rows, and each is about the
  cell of the column to which it refers. -/
  base_conditions : (query.conditions.all fun c => Database.belongsTo base c.column) = true →
    ∃ bare, base.select query.conditions = Condition.select bare id base.liveRows ∧
      List.Forall₂ (fun c b : Condition => ∀ column, RelStore.Plain column →
        c.column = qualify base.name column → ∀ row ∈ base.liveRows,
          b.subject row = row.cell column) query.conditions bare
  /-- The rows after any of the joins are the traced ones. -/
  joined_rows : ∀ start before after rows, joined = before ++ after →
    Database.joinTables query.table start before = .ok rows →
    rows = (query.traced start before).map (·.row)
  /-- The rows that are sorted, limited and projected are traced ones, among which the conditions
  have chosen before the joins or after them. -/
  selected_rows : ∀ rows, Database.selectRows base joined query = .ok rows →
    ∃ first later start, base.select first = .ok start ∧
      (first = query.conditions ∧ later = [] ∨ first = [] ∧ later = query.conditions) ∧
      rows = ((query.traced start joined).filter fun t => t.row.matches later).map (·.row)
  /-- If a row of a table has contributed, it is a live row of the table, and a reference to a
  column is read as its cell. -/
  source_read : ∀ conditions start before after, base.select conditions = .ok start →
    joined = before ++ after → ∀ t ∈ query.traced start before,
    ∀ table ∈ base :: joined.map Prod.snd, ∀ source, t.sources.get? table.name = some source →
      source ∈ table.liveRows ∧ ∀ column, table.schema.hasColumn (.text column) = true →
        t.row.Reads table.name column (some (source.cell column))
  /-- If none has, the reference is read as what is under the bare name, which is nothing just when
  no row that has contributed has a column of the name, and otherwise the cell of a row that has. -/
  bare_read : ∀ conditions start before after, base.select conditions = .ok start →
    joined = before ++ after → ∀ t ∈ query.traced start before,
    ∀ table ∈ base :: joined.map Prod.snd, t.sources.get? table.name = none →
      ∀ column, table.schema.hasColumn (.text column) = true →
        t.row.Reads table.name column (Mapping.get? t.row (.text column)) ∧
        (Mapping.get? t.row (.text column) = none ↔ ∀ name source,
          t.sources.get? name = some source → Mapping.get? source (.text column) = none) ∧
        ∀ v, Mapping.get? t.row (.text column) = some v → ∃ other ∈ base :: joined.map Prod.snd,
          ∃ source, t.sources.get? other.name = some source ∧ source ∈ other.liveRows ∧
            other.schema.hasColumn (.text column) = true ∧ v = source.cell (.text column)
  /-- The right side of the condition of a join is read in the rows of the joined table, whatever
  table qualifies it. -/
  joined_operand : ∀ item ∈ joined, ∀ row ∈ item.2.liveRows, ∀ name column,
    RelStore.Plain column → row.Reads name column (Mapping.get? row (.text column))

namespace Database

variable {db : Database}

/-! ## The tables of a query -/

/-- A table of a sound database is plain if no name of its columns has a dot. -/
theorem Sound.plain (h : db.Sound) {name : Text} {table : Table}
    (htable : db.table name = .ok table) (hschema : table.schema.Plain) : table.Plain :=
  ⟨hschema, fun _ hrow => (h.consistent htable).fits_live hrow⟩

/-- The joined tables are those of the joins, in the same order. -/
theorem joined_eq_ok {joins : List Join} {joined : List (Join × Table)}
    (h : (joins.mapM fun join => do return (join, ← db.table join.table)) = .ok joined) :
    joined.map Prod.fst = joins ∧ ∀ item ∈ joined, db.table item.1.table = .ok item.2 := by
  have hall := Outcome.mapM_eq_ok.mp h
  have hitem {join : Join} {item : Join × Table}
      (heq : (do return (join, ← db.table join.table) : Except Error (Join × Table)) = .ok item) :
      item.1 = join ∧ db.table item.1.table = .ok item.2 := by
    obtain ⟨table, htable, heq⟩ := Outcome.bind_eq_ok.mp heq
    cases heq
    exact ⟨rfl, htable⟩
  clear h
  induction hall with
  | nil => exact ⟨rfl, List.forall_mem_nil _⟩
  | cons hfirst _ ih =>
    obtain ⟨hjoin, htable⟩ := hitem hfirst
    exact ⟨congrArg₂ List.cons hjoin ih.1, List.forall_mem_cons.mpr ⟨htable, ih.2⟩⟩

/-- A reference that belongs to a table leads to one of its columns. -/
theorem exists_columnName_of_belongsTo {table : Table} {reference : Text}
    (h : belongsTo table reference = true) :
    ∃ name, table.schema.columnName reference = .ok name := by
  unfold belongsTo at h
  unfold Schema.columnName Schema.bareName
  dsimp only
  split at h
  · next name column hsplit =>
    rw [hsplit]
    simp only [Bool.and_eq_true, beq_iff_eq] at h
    exact ⟨column, if_pos h⟩
  · next hsplit =>
    rw [hsplit]
    exact ⟨reference, if_pos h⟩

/-- Where conditions concern one table alone, they choose among its live rows by the cells of the
columns to which they refer. -/
theorem select_of_belongsTo {table : Table} (h : table.Consistent) {conditions : List Condition}
    (hbelongs : (conditions.all fun c => belongsTo table c.column) = true)
    (hliterals : ∀ c ∈ conditions, c.value ≠ .float .nan) :
    ∃ bare, table.select conditions = Condition.select bare id table.liveRows ∧
      List.Forall₂ (fun c b : Condition => ∀ column, RelStore.Plain column →
        c.column = qualify table.name column → ∀ row ∈ table.liveRows,
          b.subject row = row.cell column) conditions bare := by
  obtain ⟨bare, hbare⟩ := Table.exists_bareConditions fun c hc =>
    exists_columnName_of_belongsTo (List.all_eq_true.mp hbelongs c hc)
  refine ⟨bare, h.select_eq hbare hliterals, ?_⟩
  refine (Table.bareConditions_eq_ok hbare).imp ?_
  rintro c _ ⟨name, hname, rfl⟩ column hplain hcolumn row hrow
  have hsame : name = column := by
    rw [hcolumn] at hname
    obtain ⟨text, heq, -, hcases⟩ := Schema.columnName_eq_ok hname
    cases heq
    rw [splitQualified?_qualify _ hplain] at hcases
    rcases hcases with ⟨hnone, -⟩ | hsome
    · cases hnone
    · exact (Prod.mk.inj (Option.some.inj hsome)).2.symm
  obtain ⟨definition, hdefinition, hdefinitionName⟩ := Schema.exists_column_of_columnName hname
  have hresolve := (h.fits_live hrow).resolve? hdefinition hdefinitionName
  rw [Condition.subject]
  dsimp only
  rw [hresolve, hsame]
  rfl

/-! ## What is read -/

section

variable {query : Select} {base : Table} {joined : List (Join × Table)}

/-- The rows after joins are the traced ones. -/
theorem joinTables_eq_traced {start rows : List Row} {before : List (Join × Table)}
    (h : joinTables query.table start before = .ok rows) :
    rows = (query.traced start before).map (·.row) := by
  have hrows : (start.map (Traced.ofRow query.table)).map (·.row) = start := by
    simp [Traced.ofRow, Function.comp_def]
  rw [← hrows] at h
  exact joinTables_eq_trace h

/-- The rows of a query before they are sorted are traced ones, among which the conditions have
chosen before the joins or after them. -/
theorem selectRows_eq_traced {rows : List Row} (h : selectRows base joined query = .ok rows) :
    ∃ first later start, base.select first = .ok start ∧
      (first = query.conditions ∧ later = [] ∨ first = [] ∧ later = query.conditions) ∧
      rows = ((query.traced start joined).filter fun t => t.row.matches later).map (·.row) := by
  unfold selectRows at h
  split at h
  · obtain ⟨start, hstart, hjoin⟩ := Outcome.bind_eq_ok.mp h
    refine ⟨query.conditions, [], start, hstart, .inl ⟨rfl, rfl⟩, ?_⟩
    have hall : ((query.traced start joined).filter fun t => t.row.matches []) =
        query.traced start joined := List.filter_true _
    rw [hall]
    exact joinTables_eq_traced hjoin
  · obtain ⟨start, hstart, h⟩ := Outcome.bind_eq_ok.mp h
    obtain ⟨all, hjoin, h⟩ := Outcome.bind_eq_ok.mp h
    have hall := joinTables_eq_traced hjoin
    unfold Condition.select at h
    split at h
    · cases h
      refine ⟨[], query.conditions, start, hstart, .inr ⟨rfl, rfl⟩, ?_⟩
      rw [hall, List.filter_map]
      rfl
    · cases h

/-- The rows of a query after any of its joins keep track of their sources and show them. -/
theorem tracks_of_mem_traced (hbase : query.table = base.name) (hplain : base.Plain)
    (hjoined : ∀ item ∈ joined, item.1.table = item.2.name ∧ item.2.Plain)
    (hnames : ((base :: joined.map Prod.snd).map Table.name).Nodup)
    {start : List Row} (hstart : ∀ row ∈ start, row ∈ base.liveRows)
    {before after : List (Join × Table)} (hsplit : joined = before ++ after) {t : Traced}
    (ht : t ∈ query.traced start before) :
    t.Tracks (base :: joined.map Prod.snd) base.name ∧ t.Shows := by
  have hfirst : ∀ t ∈ start.map (Traced.ofRow query.table),
      t.Tracks [base] base.name ∧ t.Shows := by
    intro t ht
    obtain ⟨row, hrow, rfl⟩ := List.mem_map.mp ht
    rw [hbase]
    exact ⟨Traced.Tracks.ofRow hplain (hstart row hrow), .ofRow base.name row⟩
  have hbefore : ∀ item ∈ before, item.1.table = item.2.name ∧ item.2.Plain :=
    fun item hitem => hjoined item (hsplit ▸ List.mem_append_left _ hitem)
  have hsub : List.Sublist (base :: before.map Prod.snd) (base :: joined.map Prod.snd) := by
    rw [hsplit, List.map_append]
    exact (List.sublist_append_left _ _).cons_cons base
  have hnamesBefore : (([base] ++ before.map Prod.snd).map Table.name).Nodup :=
    hnames.sublist (hsub.map Table.name)
  rw [Select.traced, hbase] at ht
  rw [hbase] at hfirst
  have htracks := Traced.Tracks.of_mem_traceTables (fun t ht => (hfirst t ht).1) hbefore
    hnamesBefore ht
  refine ⟨htracks.mono hsub.subset, ?_⟩
  by_cases hnone : before = []
  · rw [hnone] at ht
    exact (hfirst t ht).2
  · exact (Traced.Shows.of_mem_traceTables (fun t ht => (hfirst t ht).1)
      (fun t ht => (hfirst t ht).2) hnone hbefore hnamesBefore ht).1

end

/-- In a reachable database, every qualified reference of a query over different tables without dots
in their column names is read in the rows of the tables of the query. -/
theorem Reachable.reads_columns (h : db.Reachable) {text : Text} {query : Select}
    (hparse : Sql.parse text = .ok (.select query)) {base : Table}
    (hbase : db.table query.table = .ok base) {joined : List (Join × Table)}
    (hjoined : (query.joins.mapM fun join => do return (join, ← db.table join.table)) = .ok joined)
    (hdistinct : (query.table :: query.joins.map (·.table)).Nodup)
    (hplain : ∀ table ∈ base :: joined.map Prod.snd, table.schema.Plain) :
    ReadsColumns query base joined := by
  have hsound := h.sound
  obtain ⟨hmem, hname⟩ := table_eq_ok hbase
  obtain ⟨hjoins, hfound⟩ := joined_eq_ok hjoined
  have hbasePlain : base.Plain := hsound.plain hbase (hplain base List.mem_cons_self)
  have hitems : ∀ item ∈ joined, item.1.table = item.2.name ∧ item.2.Plain := by
    intro item hitem
    have hschema := hplain item.2 (List.mem_cons_of_mem _ (List.mem_map_of_mem hitem))
    exact ⟨(table_eq_ok (hfound item hitem)).2.symm, hsound.plain (hfound item hitem) hschema⟩
  have hnames : ((base :: joined.map Prod.snd).map Table.name).Nodup := by
    have hitemNames : (joined.map Prod.snd).map Table.name = query.joins.map (·.table) := by
      rw [← hjoins, List.map_map, List.map_map]
      exact List.map_congr_left fun item hitem => (hitems item hitem).1.symm
    rw [List.map_cons, hitemNames, hname]
    exact hdistinct
  have htables : ∀ table ∈ base :: joined.map Prod.snd, table.Plain := by
    refine List.forall_mem_cons.mpr ⟨hbasePlain, fun table htable => ?_⟩
    obtain ⟨item, hitem, rfl⟩ := List.mem_map.mp htable
    exact (hitems item hitem).2
  have htracks {conditions start before after} (hstart : base.select conditions = .ok start)
      (hsplit : joined = before ++ after) {t : Traced} (ht : t ∈ query.traced start before) :
      t.Tracks (base :: joined.map Prod.snd) base.name ∧ t.Shows :=
    tracks_of_mem_traced hname.symm hbasePlain hitems hnames
      (fun row hrow => Table.mem_liveRows_of_select hstart hrow) hsplit ht
  have hliterals : ∀ c ∈ query.conditions, c.value ≠ .float .nan := Sql.parse_wellRead hparse
  refine ⟨fun hbelongs => ?_, ?_, ?_, ?_, ?_, ?_⟩
  · exact select_of_belongsTo (hsound.reachable base hmem).consistent hbelongs hliterals
  · exact fun start before after rows _ hjoin => joinTables_eq_traced hjoin
  · exact fun rows hselect => selectRows_eq_traced hselect
  · intro conditions start before after hstart hsplit t ht table htable source hsource
    obtain ⟨htrack, -⟩ := htracks hstart hsplit ht
    refine ⟨?_, fun column hcolumn => htrack.reads_source htables hnames htable hcolumn hsource⟩
    obtain ⟨other, hother, hotherName, hrow⟩ := htrack.live _ _ hsource
    rw [List.inj_on_of_nodup_map hnames hother htable hotherName] at hrow
    exact hrow
  · intro conditions start before after hstart hsplit t ht table htable hsource column hcolumn
    obtain ⟨htrack, hshows⟩ := htracks hstart hsplit ht
    obtain ⟨definition, hdefinition⟩ := Option.isSome_iff_exists.mp hcolumn
    obtain ⟨hmemColumn, hcolumnName⟩ := Schema.column?_eq_some hdefinition
    have hplainColumn := (htables table htable).schema.of_name hmemColumn hcolumnName
    obtain ⟨hread, hnone⟩ := htrack.reads_bare hplainColumn hsource
    refine ⟨hread, hnone, fun v hv => ?_⟩
    have hplainName : (ColumnName.text column).Plain := hplainColumn
    obtain ⟨other, hother, source, hsource, hcell⟩ :=
      htrack.exists_bare_cell hshows htables hnames hplainName hv
    exact ⟨other, hother, source, hsource, htrack.mem_liveRows hnames hother hsource, hcell⟩
  · intro item hitem row hrow name column hcolumn
    have hread := row.reads_resolve? name hcolumn
    rw [Row.resolve?_qualify _ _ hcolumn, ((hitems item hitem).2.row hrow).get?_qualify,
      Option.none_or] at hread
    exact hread

/-- A row of one of the two tables, joined with a row of the other. -/
def paired (first : Text) (id k : Int) (second : Text) (otherId otherK : Int) : Row :=
  [(.text "id", .int otherId), (.text (qualify first "id"), .int id), (.text "k", .int otherK),
    (.text (qualify first "k"), .int k), (.text (qualify second "id"), .int otherId),
    (.text (qualify second "k"), .int otherK)]

/-- A row of one of the two tables that a join keeps without a partner. -/
def unpaired (table : Text) (id k : Int) : Row :=
  [(.text "id", .int id), (.text (qualify table "id"), .int id), (.text "k", .int k),
    (.text (qualify table "k"), .int k)]

/-- A join reads the columns of two tables with rows with and without partners. Of the four joined
rows two are chosen, the second of them by the cell of the first table, as it has no partner. -/
theorem reads_columns_uneven :
    let query : Select := ⟨"a", some ["b.id"],
      [⟨.left, "b", ⟨some "a", "k"⟩, ⟨some "b", "k"⟩⟩], [⟨"b.id", .eq, .int 2, none⟩], [], none⟩
    Sql.parse "SELECT b.id FROM a LEFT JOIN b ON a.k = b.k WHERE b.id = 2" =
        .ok (.select query) ∧
      ∃ base joined, uneven.table "a" = .ok base ∧ joined.length = 1 ∧
        selectRows base joined query = .ok [paired "a" 1 5 "b" 2 5, unpaired "a" 2 6] ∧
        ReadsColumns query base joined := by
  intro query
  have hparse : Sql.parse "SELECT b.id FROM a LEFT JOIN b ON a.k = b.k WHERE b.id = 2" =
      .ok (.select query) := rfl
  let base := uneven.tables[0]
  let joined := query.joins.map fun join => (join, uneven.tables[1])
  have hbase : uneven.table query.table = .ok base := rfl
  have hjoined : (query.joins.mapM fun join => do return (join, ← uneven.table join.table)) =
      .ok joined := rfl
  refine ⟨hparse, base, joined, hbase, rfl, by decide +kernel, ?_⟩
  exact uneven_reachable.reads_columns hparse hbase hjoined (by decide) (by decide)

/-- Where no row of the second table has contributed, a reference to its column is read as the cell
of the first one. -/
theorem reads_other_table :
    twins.Reachable ∧ (∃ b, twins.table "b" = .ok b ∧ b.liveRows = []) ∧
      (twins.execute "SELECT b.id FROM a LEFT JOIN b ON a.k = b.k").1.rows =
        some [[(.text "b.id", .int 1)]] :=
  ⟨twins_reachable, ⟨pairs "b" [], rfl, rfl⟩, rfl⟩

end Database

end RelStore
