import RelStore.Proofs.Joining.Qualified

/-!
# Conditions before and after joins

A query whose conditions concern its base table alone chooses among the rows of this table before
any join. A row to which a row of the base table has contributed is then one for which the
conditions hold (`Sql.Select.Over.matches_source`), and as long as no join keeps the rows of its
right side, such a row has contributed to every one: choosing first gives what choosing among the
joined rows would give (`Reachable.filter_first`). A join that keeps the rows of its right side
brings in rows without a base row, and these are not asked for the conditions
(`Reachable.where_selected`).
-/

namespace RelStore

open Sql (Join JoinKind Select)

/-! ## The tables of a query -/

/-- A query is over a base table and the tables that are joined with it: they are different, and no
name of their columns has a dot. -/
structure Sql.Select.Over (query : Select) (base : Table) (joined : List (Join × Table)) :
    Prop where
  /-- The base table is the one that the query names. -/
  base_name : query.table = base.name
  /-- The base table is consistent. -/
  consistent : base.Consistent
  /-- The rows of the tables fit their schemas, which have no dots in their names. -/
  plain : ∀ table ∈ base :: joined.map Prod.snd, table.Plain
  /-- The joined tables are the ones that the joins name. -/
  named : ∀ item ∈ joined, item.1.table = item.2.name
  /-- All tables have different names. -/
  distinct : ((base :: joined.map Prod.snd).map Table.name).Nodup

/-- A condition is about a column of a table under the column's name qualified by the table. -/
def Condition.QualifiedBy (table : Table) (condition : Condition) : Prop :=
  ∃ column, table.schema.hasColumn (.text column) = true ∧
    condition.column = qualify table.name column

namespace Database

variable {db : Database} {query : Select} {base : Table} {joined : List (Join × Table)}

/-- In a reachable database, a query over different tables without dots in their column names is
over the tables that it names. -/
theorem Reachable.over (h : db.Reachable) (hbase : db.table query.table = .ok base)
    (hjoined : (query.joins.mapM fun join => do return (join, ← db.table join.table)) = .ok joined)
    (hdistinct : (query.table :: query.joins.map (·.table)).Nodup)
    (hplain : ∀ table ∈ base :: joined.map Prod.snd, table.schema.Plain) :
    query.Over base joined := by
  have hsound := h.sound
  obtain ⟨hmem, hname⟩ := table_eq_ok hbase
  obtain ⟨hjoins, hfound⟩ := joined_eq_ok hjoined
  have hnamed : ∀ item ∈ joined, item.1.table = item.2.name :=
    fun item hitem => (table_eq_ok (hfound item hitem)).2.symm
  refine ⟨hname.symm, (hsound.reachable base hmem).consistent, ?_, hnamed, ?_⟩
  · refine List.forall_mem_cons.mpr ⟨hsound.plain hbase (hplain base List.mem_cons_self), ?_⟩
    rw [List.forall_mem_map]
    exact fun item hitem => hsound.plain (hfound item hitem)
      (hplain item.2 (List.mem_cons_of_mem _ (List.mem_map_of_mem hitem)))
  · have hitemNames : (joined.map Prod.snd).map Table.name = query.joins.map (·.table) := by
      rw [← hjoins, List.map_map, List.map_map]
      exact List.map_congr_left fun item hitem => (hnamed item hitem).symm
    rw [List.map_cons, hitemNames, hname]
    exact hdistinct

/-- A condition under a qualified name that belongs to a table is about a column of the table. -/
theorem qualifiedBy_of_belongsTo {condition : Condition} (hdot : ¬Plain condition.column)
    (hbelongs : belongsTo base condition.column = true) : condition.QualifiedBy base := by
  obtain ⟨table, column, hcolumn, heq⟩ := exists_eq_qualify hdot
  rw [heq, belongsTo, splitQualified?_qualify _ hcolumn] at hbelongs
  dsimp only at hbelongs
  rw [Bool.and_eq_true, beq_iff_eq] at hbelongs
  exact ⟨column, hbelongs.2, by rw [heq, hbelongs.1]⟩

/-- A condition about a column of a table belongs to the table, if the column has no dot in its
name. -/
theorem belongsTo_of_qualifiedBy {condition : Condition} (hplain : base.schema.Plain)
    (h : condition.QualifiedBy base) : belongsTo base condition.column = true := by
  obtain ⟨column, hcolumn, heq⟩ := h
  obtain ⟨definition, hdefinition⟩ := Option.isSome_iff_exists.mp hcolumn
  obtain ⟨hmem, hname⟩ := Schema.column?_eq_some hdefinition
  rw [heq, belongsTo, splitQualified?_qualify _ (hplain.of_name hmem hname)]
  dsimp only
  rw [hcolumn, beq_self_eq_true, Bool.and_self]

/-! ## Conditions on rows with a base row -/

section

variable (hover : query.Over base joined)
include hover

/-- The joined rows of a query keep track of their sources. -/
theorem tracks_of_over {start : List Row} (hstart : ∀ row ∈ start, row ∈ base.liveRows) {t : Traced}
    (ht : t ∈ query.traced start joined) :
    t.Tracks (base :: joined.map Prod.snd) base.name := by
  have hitems : ∀ item ∈ joined, item.1.table = item.2.name ∧ item.2.Plain :=
    fun item hitem => ⟨hover.named item hitem,
      hover.plain item.2 (List.mem_cons_of_mem _ (List.mem_map_of_mem hitem))⟩
  exact (tracks_of_mem_traced hover.base_name (hover.plain base List.mem_cons_self) hitems
    hover.distinct hstart (List.append_nil joined).symm ht).1

/-- A condition under a qualified name is about the same value in a row to which a row of the base
table has contributed as it is, with the bare name, in the base row. -/
theorem subject_of_source {c : Condition} (hqualified : c.QualifiedBy base) {name : Text}
    (hname : base.schema.columnName c.column = .ok name) {t : Traced}
    (htracks : t.Tracks (base :: joined.map Prod.snd) base.name) {source : Row}
    (hsource : t.sources.get? base.name = some source) :
    Condition.subject { c with column := name } source = c.subject t.row := by
  obtain ⟨column, hcolumn, hreference⟩ := hqualified
  have hbasePlain := hover.plain base List.mem_cons_self
  obtain ⟨definition, hdefinition, hdefinitionName⟩ := Schema.exists_column_of_columnName hname
  have hfits := hbasePlain.fits source
    (htracks.mem_liveRows hover.distinct List.mem_cons_self hsource)
  have hread := htracks.reads_source hover.plain hover.distinct List.mem_cons_self hcolumn hsource
  -- The reference is taken apart into the table and the column.
  have hsame : name = column := by
    obtain ⟨own, hown⟩ := Option.isSome_iff_exists.mp hcolumn
    obtain ⟨hmem, hownName⟩ := Schema.column?_eq_some hown
    have hplain := hbasePlain.schema.of_name hmem hownName
    obtain ⟨text, heq, -, hcases⟩ := Schema.columnName_eq_ok hname
    cases heq
    rw [hreference, splitQualified?_qualify _ hplain] at hcases
    rcases hcases with ⟨hnone, -⟩ | hsome
    · cases hnone
    · exact (Prod.mk.inj (Option.some.inj hsome)).2.symm
  rw [hread.condition c hreference, Condition.subject]
  dsimp only
  rw [hfits.resolve? hdefinition hdefinitionName, hsame]

variable (hqualified : ∀ c ∈ query.conditions, c.QualifiedBy base)
include hqualified

/-- Conditions about columns of the base table belong to it. -/
theorem belongsTo_of_over :
    (query.conditions.all fun c => belongsTo base c.column) = true :=
  List.all_eq_true.mpr fun c hc =>
    belongsTo_of_qualifiedBy (hover.plain base List.mem_cons_self).schema (hqualified c hc)

variable {bare : List Condition} (hbare : base.bareConditions query.conditions = .ok bare)
  {t : Traced} (htracks : t.Tracks (base :: joined.map Prod.snd) base.name) {source : Row}
  (hsource : t.sources.get? base.name = some source)
include hbare htracks hsource

/-- Conditions are about the same values in a row to which a row of the base table has contributed
as they are, with bare names, in the base row. -/
theorem subjects_of_source :
    List.Forall₂ (fun c b : Condition => b.subject source = c.subject t.row ∧
      b.operator = c.operator ∧ b.value = c.value ∧ b.connector = c.connector)
      query.conditions bare := by
  have hconditions := Table.bareConditions_eq_ok hbare
  refine ((List.forall₂_and_left _ _).mpr ⟨hqualified, hconditions⟩).imp ?_
  rintro c _ ⟨hc, name, hname, rfl⟩
  exact ⟨subject_of_source hover hc hname htracks hsource, rfl, rfl, rfl⟩

/-- The conditions of a query hold of a row to which a row of the base table has contributed just
when they hold, with bare names, of the base row. -/
theorem matches_source : source.matches bare = t.row.matches query.conditions := by
  refine Row.matches_congr ?_
  refine (subjects_of_source hover hqualified hbare htracks hsource).imp ?_
  rintro c b ⟨hsubject, hoperator, hvalue, hconnector⟩
  rw [Condition.holds, Condition.holds, hsubject, hoperator, hvalue]
  exact ⟨rfl, hconnector⟩

/-- It can be told of such a row whether the conditions hold just when it can be told of the base
row. -/
theorem applies_source :
    bare.all (·.applies source) = query.conditions.all (·.applies t.row) := by
  have hsubjects := subjects_of_source hover hqualified hbare htracks hsource
  clear hbare
  generalize query.conditions = conditions at hsubjects
  induction hsubjects with
  | nil => rfl
  | cons hhead _ ih =>
    obtain ⟨hsubject, hoperator, hvalue, -⟩ := hhead
    rw [List.all_cons, List.all_cons, ih, Condition.applies, Condition.applies, hsubject, hoperator,
      hvalue]

end

end Database

/-! ## Joins of fewer rows -/

/-- Taking some of the elements first leaves of what is made of all of them what is made of
these. -/
theorem flatMap_filter_eq {α β : Type} {keep : α → Bool} {out : β → Bool} {f : α → List β}
    {xs : List α} (h : ∀ x ∈ xs, ∀ y ∈ f x, out y = keep x) :
    (xs.filter keep).flatMap f = (xs.flatMap f).filter out := by
  induction xs with
  | nil => rfl
  | cons x xs ih =>
    obtain ⟨hx, hxs⟩ := List.forall_mem_cons.mp h
    rw [List.flatMap_cons, List.filter_append, ← ih hxs]
    cases hkeep : keep x with
    | true =>
      have hall : (f x).filter out = f x :=
        List.filter_eq_self.mpr fun y hy => (hx y hy).trans hkeep
      rw [List.filter_cons_of_pos hkeep, List.flatMap_cons, hall]
    | false =>
      have hnone : (f x).filter out = [] := by
        refine List.filter_eq_nil_iff.mpr fun y hy => ?_
        exact ne_true_of_eq_false ((hx y hy).trans hkeep)
      rw [List.filter_cons_of_neg (ne_true_of_eq_false hkeep), hnone, List.nil_append]

namespace Traced

/-- Whether a row of the base table has contributed to a row and is one to keep. -/
def keptBy (base : Text) (keep : Row → Bool) (t : Traced) : Bool := (t.sources.get? base).any keep

/-- A joined row has the sources of its left row. -/
theorem get?_sources_of_left {l : Traced} {base : Text} {source : Row}
    (h : l.sources.get? base = some source) (leftTable : Text) (r? : Option Traced)
    (rightTable : Text) :
    (l.combine leftTable r? rightTable).sources.get? base = some source := by
  rw [combine, Mapping.get?_append, h, Option.some_or]

section

variable {left right : TracedSide} {keepUnmatched : Bool} {base : Text}
  (hsources : ∀ l ∈ left.rows, (l.sources.get? base).isSome = true)
include hsources

/-- The rows that are made of a left row have its row of the base table. -/
theorem get?_sources_of_mem_traceRow {l : Traced} (hl : l ∈ left.rows) {t : Traced}
    (ht : t ∈ traceRow left right keepUnmatched l) :
    t.sources.get? base = l.sources.get? base := by
  obtain ⟨source, hsource⟩ := Option.isSome_iff_exists.mp (hsources l hl)
  obtain ⟨r?, -, rfl⟩ := mem_traceRow ht
  rw [get?_sources_of_left hsource, hsource]

/-- A row of the base table has contributed to every joined row if it has to every left one. -/
theorem isSome_get?_of_mem_traceLeft {t : Traced} (ht : t ∈ traceLeft left right keepUnmatched) :
    (t.sources.get? base).isSome = true := by
  obtain ⟨l, hl, ht⟩ := List.mem_flatMap.mp ht
  rw [get?_sources_of_mem_traceRow hsources hl ht]
  exact hsources l hl

/-- The joined rows of the left rows to keep are the joined rows to keep. -/
theorem traceLeft_filter (keep : Row → Bool) :
    traceLeft { left with rows := left.rows.filter (keptBy base keep) } right keepUnmatched =
      (traceLeft left right keepUnmatched).filter (keptBy base keep) := by
  refine flatMap_filter_eq fun l hl t ht => ?_
  rw [keptBy, get?_sources_of_mem_traceRow hsources hl ht, keptBy]

end

/-- A row of a table that does not come from the right side comes from the left one. -/
theorem exists_source_of_mem_traceJoin {kind : JoinKind} {left right : TracedSide} {name : Text}
    (hright : ∀ r ∈ right.rows, r.sources.get? name = none) {t : Traced}
    (ht : t ∈ traceJoin kind left right) {source : Row}
    (hsource : t.sources.get? name = some source) :
    ∃ l ∈ left.rows, l.sources.get? name = some source := by
  obtain ⟨first, second, hsides, l, hl, r?, hr?, rfl⟩ := mem_traceJoin ht
  rw [combine, Mapping.get?_append, Option.or_eq_some_iff] at hsource
  -- The source is one of either row of which the joined row is made.
  have hparts : (∃ l ∈ first.rows, l.sources.get? name = some source) ∨
      ∃ r ∈ second.rows, r.sources.get? name = some source := by
    rcases hsource with hown | ⟨-, hother⟩
    · exact .inl ⟨l, hl, hown⟩
    · cases r? with
      | none => cases hother
      | some r => exact .inr ⟨r, hr? r rfl, hother⟩
  have hnot : ¬∃ r ∈ right.rows, r.sources.get? name = some source := by
    rintro ⟨r, hr, hsome⟩
    rw [hright r hr] at hsome
    cases hsome
  rcases hsides with ⟨rfl, rfl⟩ | ⟨rfl, rfl⟩
  · exact hparts.resolve_right hnot
  · exact hparts.resolve_left hnot

/-- A row of the base table in a joined row is one of those that were there before the joins, if
no other table has the name of the base table. -/
theorem exists_source_of_mem_traceTables {base : Text} {joined : List (Join × Table)}
    (hnames : ∀ item ∈ joined, item.1.table ≠ base) {rows : List Traced} {t : Traced}
    (ht : t ∈ traceTables base rows joined) {source : Row}
    (hsource : t.sources.get? base = some source) :
    ∃ first ∈ rows, first.sources.get? base = some source := by
  induction joined generalizing rows with
  | nil => exact ⟨t, ht, hsource⟩
  | cons first rest ih =>
    obtain ⟨clause, table⟩ := first
    obtain ⟨hname, hrest⟩ := List.forall_mem_cons.mp hnames
    obtain ⟨next, hnext, hnextSource⟩ := ih hrest ht
    refine exists_source_of_mem_traceJoin ?_ hnext hnextSource
    rw [TracedSide.ofTable, List.forall_mem_map]
    intro row _
    rw [ofRow, Mapping.get?_cons, if_neg hname, Mapping.get?_nil]

end Traced

/-- A join that comes upon no fault comes upon none with fewer left rows. -/
theorem joinLeft_of_subset {left right : JoinSide} {keepUnmatched : Bool} {rows : List Row}
    (h : joinLeft left right keepUnmatched = .ok rows) {fewer : List Row}
    (hsub : fewer ⊆ left.rows) :
    ∃ rows, joinLeft { left with rows := fewer } right keepUnmatched = .ok rows := by
  have hfault : joinFault? left right keepUnmatched = none := by
    unfold joinLeft at h
    split at h
    · cases h
    · assumption
  have hnone : joinFault? { left with rows := fewer } right keepUnmatched = none := by
    rw [joinFault?, List.findSome?_eq_none_iff] at hfault ⊢
    exact fun l hl => hfault l (hsub hl)
  exact ⟨_, by rw [joinLeft, hnone]⟩

/-- A join that does not keep the rows of its right side lists the left rows. -/
theorem exists_joinLeft {kind : JoinKind} (h : kind ≠ .right) : ∃ keepUnmatched,
    join kind = (joinLeft · · keepUnmatched) ∧ traceJoin kind = (traceLeft · · keepUnmatched) := by
  cases kind with
  | inner => exact ⟨false, rfl, rfl⟩
  | left => exact ⟨true, rfl, rfl⟩
  | right => exact absurd rfl h

namespace Database

/-- A table is a side of a join whose rows are their own sources. -/
theorem side_ofTable (clause : Join) (table : Table) :
    (TracedSide.ofTable clause table).side = ⟨table.liveRows, clause.table, clause.right⟩ := by
  rw [TracedSide.side, TracedSide.ofTable, List.map_map]
  simp [Traced.ofRow, Function.comp_def]

/-- Joins that keep the rows of no right side make of the rows to keep the joined rows to keep. -/
theorem joinTables_filter {base : Text} {joined : List (Join × Table)}
    (hkinds : ∀ item ∈ joined, item.1.kind ≠ .right) {rows : List Traced}
    (hsources : ∀ t ∈ rows, (t.sources.get? base).isSome = true) (keep : Row → Bool)
    {all : List Row} (h : joinTables base (rows.map (·.row)) joined = .ok all) :
    joinTables base ((rows.filter (Traced.keptBy base keep)).map (·.row)) joined =
      .ok (((traceTables base rows joined).filter (Traced.keptBy base keep)).map (·.row)) ∧
    ∀ t ∈ traceTables base rows joined, (t.sources.get? base).isSome = true := by
  -- The induction is on the joins, from any rows to which a row of the base table has contributed.
  induction joined generalizing rows with
  | nil => exact ⟨rfl, hsources⟩
  | cons first rest ih =>
    obtain ⟨clause, table⟩ := first
    obtain ⟨hkind, hrest⟩ := List.forall_mem_cons.mp hkinds
    obtain ⟨keepUnmatched, hjoin, htrace⟩ := exists_joinLeft hkind
    obtain ⟨next, hnext, h⟩ := Outcome.bind_eq_ok.mp h
    let left : TracedSide := ⟨rows, base, clause.left⟩
    let right := TracedSide.ofTable clause table
    have hleft : joinLeft left.side right.side keepUnmatched = .ok next := by
      rw [side_ofTable, ← hnext, hjoin]
      rfl
    -- Fewer rows meet no fault that all of them do not meet.
    have hsub : (rows.filter (Traced.keptBy base keep)).map (·.row) ⊆ left.side.rows :=
      List.map_subset _ (List.filter_subset_self _)
    obtain ⟨fewer, hfewer⟩ := joinLeft_of_subset hleft hsub
    have hrows : next = (traceLeft left right keepUnmatched).map (·.row) := joinLeft_eq_trace hleft
    have hkept : fewer =
        ((traceLeft left right keepUnmatched).filter (Traced.keptBy base keep)).map (·.row) := by
      have hsources : ∀ l ∈ left.rows, (l.sources.get? base).isSome = true := hsources
      rw [← Traced.traceLeft_filter hsources]
      exact joinLeft_eq_trace hfewer
    rw [hrows] at h
    rw [traceTables, htrace]
    have hstep := ih hrest (fun t ht => Traced.isSome_get?_of_mem_traceLeft hsources ht) h
    refine ⟨Outcome.bind_eq_ok.mpr ⟨fewer, ?_, hkept ▸ hstep.1⟩, hstep.2⟩
    rw [hjoin, ← hfewer, side_ofTable]
    rfl

section

variable {db : Database} {query : Select} {base : Table} {joined : List (Join × Table)}

/-- In a query of which no join keeps the rows of its right side, every joined row has a row of the
base table, and choosing such rows before the joins is choosing the joined rows made of them. -/
theorem joinTables_filter_start (hkinds : ∀ item ∈ joined, item.1.kind ≠ .right) {rows : List Row}
    (keep : Row → Bool) {all : List Row} (h : joinTables query.table rows joined = .ok all) :
    joinTables query.table (rows.filter keep) joined =
      .ok (((query.traced rows joined).filter (Traced.keptBy query.table keep)).map (·.row)) ∧
    ∀ t ∈ query.traced rows joined, (t.sources.get? query.table).isSome = true := by
  have hself (row : Row) : (Traced.ofRow query.table row).sources.get? query.table = some row := by
    rw [Traced.ofRow, Mapping.get?_cons, if_pos rfl]
  have hsources : ∀ t ∈ rows.map (Traced.ofRow query.table),
      (t.sources.get? query.table).isSome = true := by
    rw [List.forall_mem_map]
    intro row _
    rw [hself]
    rfl
  have hrow (rows : List Row) : (rows.map (Traced.ofRow query.table)).map (·.row) = rows := by
    simp [Traced.ofRow, Function.comp_def]
  -- A row is its own source, so it is kept when it is one to keep.
  have hkept : (rows.map (Traced.ofRow query.table)).filter (Traced.keptBy query.table keep) =
      (rows.filter keep).map (Traced.ofRow query.table) := by
    rw [List.filter_map]
    refine congrArg (List.map _) (List.filter_congr fun row _ => ?_)
    rw [Function.comp_apply, Traced.keptBy, hself, Option.any_some]
  rw [← hrow rows] at h
  have hjoin := joinTables_filter hkinds hsources keep h
  rw [hkept, hrow] at hjoin
  exact hjoin

/-- Rows are selected by conditions that hold of them, if all conditions can be told of all rows. -/
theorem select_eq_ok_iff {conditions : List Condition} {rows selected : List Row} :
    Condition.select conditions id rows = .ok selected ↔
      (∀ row ∈ rows, conditions.all (·.applies row) = true) ∧
        selected = rows.filter fun row => row.matches conditions := by
  rw [← List.all_eq_true, Condition.select]
  dsimp only [id]
  split
  · next happlies => rw [and_iff_right happlies, Except.ok.injEq, eq_comm]
  · next hnot => exact iff_of_false (by rintro ⟨⟩) fun h => hnot h.1

/-- The selection without conditions gives all live rows. -/
theorem select_nil (h : base.Consistent) : base.select [] = .ok base.liveRows := by
  have hselect : base.select [] = Condition.select [] id base.liveRows :=
    h.select_eq rfl (List.forall_mem_nil _)
  rw [hselect, select_eq_ok_iff]
  exact ⟨fun _ _ => rfl, (List.filter_true _).symm⟩

/-- In a query over different tables without dots in their column names, of which no join keeps the
rows of its right side and all conditions are about columns of the base table under their qualified
names, choosing among the rows of the base table before the joins gives the same rows in the same
order as choosing among the joined rows, if both can be done. -/
theorem Reachable.filter_first (h : db.Reachable) (hbase : db.table query.table = .ok base)
    (hjoined : (query.joins.mapM fun join => do return (join, ← db.table join.table)) = .ok joined)
    (hdistinct : (query.table :: query.joins.map (·.table)).Nodup)
    (hplain : ∀ table ∈ base :: joined.map Prod.snd, table.schema.Plain)
    (hkinds : ∀ join ∈ query.joins, join.kind ≠ .right)
    (hqualified : ∀ c ∈ query.conditions, c.QualifiedBy base)
    (hliterals : ∀ c ∈ query.conditions, c.value ≠ .float .nan) {start all : List Row}
    (hstart : base.select query.conditions = .ok start)
    (hall : (do joinTables query.table (← base.select []) joined) = .ok all) :
    ∃ rows, joinTables query.table start joined = .ok rows ∧
      Condition.select query.conditions id all = .ok rows ∧
      rows = (all.filter fun row => row.matches query.conditions) ∧
      selectRows base joined query = .ok rows := by
  have hover := h.over hbase hjoined hdistinct hplain
  have hbelongs := belongsTo_of_over hover hqualified
  obtain ⟨bare, hbare⟩ := Table.exists_bareConditions fun c hc =>
    exists_columnName_of_belongsTo (List.all_eq_true.mp hbelongs c hc)
  -- The rows of the base table are chosen by the conditions with bare names.
  have hselect := hstart
  rw [hover.consistent.select_eq hbare hliterals, select_eq_ok_iff] at hselect
  obtain ⟨happlies, hchosen⟩ := hselect
  rw [select_nil hover.consistent, Outcome.ok_bind] at hall
  have hjoins := (joined_eq_ok hjoined).1
  obtain ⟨hkept, hsources⟩ := joinTables_filter_start
    (fun item hitem => hkinds item.1 (hjoins ▸ List.mem_map_of_mem hitem))
    (fun row => row.matches bare) hall
  rw [← hchosen] at hkept
  -- What holds of a joined row is what holds of the row of the base table in it.
  have hsource : ∀ t ∈ query.traced base.liveRows joined,
      t.keptBy query.table (fun row => row.matches bare) = t.row.matches query.conditions ∧
        query.conditions.all (·.applies t.row) = true := by
    intro t ht
    have htracks := tracks_of_over hover (fun row hrow => hrow) ht
    obtain ⟨source, hsource⟩ := Option.isSome_iff_exists.mp (hsources t ht)
    rw [Traced.keptBy, hsource, Option.any_some]
    rw [hover.base_name] at hsource
    have hlive := htracks.mem_liveRows hover.distinct List.mem_cons_self hsource
    rw [matches_source hover hqualified hbare htracks hsource,
      ← applies_source hover hqualified hbare htracks hsource]
    exact ⟨rfl, happlies source hlive⟩
  have hrows := joinTables_eq_traced hall
  have hmatches : ((query.traced base.liveRows joined).filter
      (Traced.keptBy query.table fun row => row.matches bare)).map (·.row) =
      all.filter fun row => row.matches query.conditions := by
    rw [hrows, List.filter_map]
    exact congrArg (List.map _) (List.filter_congr fun t ht => (hsource t ht).1)
  rw [hmatches] at hkept
  refine ⟨_, hkept, select_eq_ok_iff.mpr ⟨?_, rfl⟩, rfl, ?_⟩
  · rw [hrows, List.forall_mem_map]
    exact fun t ht => (hsource t ht).2
  · rw [selectRows, if_pos hbelongs, hstart, Outcome.ok_bind, hkept]

/-- Of the three rows of the first table, of which one has two partners, two are chosen first. That
gives the rows that choosing among the four joined ones does. -/
theorem filter_first_uneven :
    let query : Select := ⟨"a", none, [⟨.left, "b", ⟨some "a", "k"⟩, ⟨some "b", "k"⟩⟩],
      [⟨"a.id", .lt, .int 3, none⟩], [], none⟩
    let rows : List Row := [paired "a" 1 5 "b" 1 5, paired "a" 1 5 "b" 2 5, unpaired "a" 2 6]
    uneven.Reachable ∧ ∃ base joined start, uneven.table query.table = .ok base ∧
      (∀ c ∈ query.conditions, c.QualifiedBy base ∧ c.value ≠ .float .nan) ∧
      base.select query.conditions = .ok start ∧ start.length = 2 ∧
      (do joinTables query.table (← base.select []) joined) = .ok (rows ++ [unpaired "a" 3 7]) ∧
      joinTables query.table start joined = .ok rows ∧ selectRows base joined query = .ok rows := by
  intro query rows
  let base := uneven.tables[0]
  let joined := query.joins.map fun join => (join, uneven.tables[1])
  let start : List Row := [[(.text "id", .int 1), (.text "k", .int 5)],
    [(.text "id", .int 2), (.text "k", .int 6)]]
  have hqualified : ∀ c ∈ query.conditions, c.QualifiedBy base :=
    List.forall_mem_singleton.mpr ⟨"id", by decide, rfl⟩
  have hliterals : ∀ c ∈ query.conditions, c.value ≠ .float .nan :=
    List.forall_mem_singleton.mpr nofun
  have hbase : uneven.table query.table = .ok base := rfl
  have hjoined : (query.joins.mapM fun join => do return (join, ← uneven.table join.table)) =
      .ok joined := rfl
  have hstart : base.select query.conditions = .ok start := by decide +kernel
  have hall : (do joinTables query.table (← base.select []) joined) =
      .ok (rows ++ [unpaired "a" 3 7]) := by decide +kernel
  obtain ⟨chosen, hchosen, -, heq, hrows⟩ := uneven_reachable.filter_first hbase hjoined (by decide)
    (by decide) (by decide) hqualified hliterals hstart hall
  have hsame : chosen = rows := by
    rw [heq]
    decide +kernel
  rw [hsame] at hchosen hrows
  exact ⟨uneven_reachable, base, joined, start, hbase,
    fun c hc => ⟨hqualified c hc, hliterals c hc⟩, hstart, rfl, hall, hchosen, hrows⟩

/-- Two tables of one column each, of which only the first one has a row. Its integer is too long to
have a text. -/
def unwritable : Database :=
  ⟨defaultName, .default,
    [⟨⟨"a", [.define (.text "n") .int false false false false], by decide⟩, 4,
      [some [(.text "n", .int (tenTo digitLimit))]], [], []⟩,
    ⟨⟨"b", [.define (.text "s") .string false false false false], by decide⟩, 4, [], [], []⟩]⟩

/-- Choosing by a comparison of the integer with a text fails before the joins, where there is a row
to choose from, and not after them, where there is none. -/
theorem filter_first_unwritable :
    let query : Select := ⟨"a", none, [⟨.inner, "b", ⟨some "a", "n"⟩, ⟨some "b", "s"⟩⟩],
      [⟨"a.n", .eq, .string "z", none⟩], [], none⟩
    unwritable.Reachable ∧ ∃ base b, unwritable.table "a" = .ok base ∧
      unwritable.table "b" = .ok b ∧
      let joined := query.joins.map fun join => (join, b)
      (∀ c ∈ query.conditions, c.QualifiedBy base) ∧
      selectRows base joined query = .error .unwritableInteger ∧
      ∃ all, (do joinTables query.table (← base.select []) joined) = .ok all ∧
        Condition.select query.conditions id all = .ok [] := by
  intro query
  refine ⟨?_, _, _, rfl, rfl, ?_, by decide +kernel, [], by decide +kernel, rfl⟩
  · let operations : List Operation :=
      [.createTable "a" [.define (.text "n") .int false false false false],
        .alter "a" (.insert [(.text "n", .value (.int (tenTo digitLimit)))]),
        .createTable "b" [.define (.text "s") .string false false false false]]
    exact ⟨defaultName, 4, empty, operations, rfl, rfl⟩
  · exact List.forall_mem_singleton.mpr ⟨"n", by decide, rfl⟩

/-- In a query over different tables, every row that is selected is one for which the conditions
hold, unless these concern the base table alone. If they do, and all are under qualified names in
tables without dots in their column names, they hold of every row to which a row of the base table
has contributed. -/
theorem Reachable.where_selected (h : db.Reachable) (hbase : db.table query.table = .ok base)
    (hjoined : (query.joins.mapM fun join => do return (join, ← db.table join.table)) = .ok joined)
    (hdistinct : (query.table :: query.joins.map (·.table)).Nodup) {rows : List Row}
    (hrows : selectRows base joined query = .ok rows) :
    ((query.conditions.all fun c => belongsTo base c.column) = false →
      ∀ row ∈ rows, row.matches query.conditions = true) ∧
    ((query.conditions.all fun c => belongsTo base c.column) = true →
      (∀ c ∈ query.conditions, ¬Plain c.column) →
      (∀ table ∈ base :: joined.map Prod.snd, table.schema.Plain) →
      ∃ start, base.select query.conditions = .ok start ∧
        rows = (query.traced start joined).map (·.row) ∧
        ∀ t ∈ query.traced start joined,
          t.sources.get? base.name = none ∨ t.row.matches query.conditions = true) := by
  refine ⟨fun hbelongs => ?_, fun hbelongs hdots hplain => ?_⟩
  · rw [selectRows, if_neg (ne_true_of_eq_false hbelongs)] at hrows
    obtain ⟨start, -, hrows⟩ := Outcome.bind_eq_ok.mp hrows
    obtain ⟨all, -, hrows⟩ := Outcome.bind_eq_ok.mp hrows
    obtain ⟨-, rfl⟩ := select_eq_ok_iff.mp hrows
    exact fun row hrow => (List.mem_filter.mp hrow).2
  · rw [selectRows, if_pos hbelongs] at hrows
    obtain ⟨start, hstart, hjoin⟩ := Outcome.bind_eq_ok.mp hrows
    refine ⟨start, hstart, joinTables_eq_traced hjoin, fun t ht => ?_⟩
    have hover := h.over hbase hjoined hdistinct hplain
    have hqualified : ∀ c ∈ query.conditions, c.QualifiedBy base := fun c hc =>
      qualifiedBy_of_belongsTo (hdots c hc) (List.all_eq_true.mp hbelongs c hc)
    obtain ⟨bare, hbare⟩ := Table.exists_bareConditions fun c hc =>
      exists_columnName_of_belongsTo (List.all_eq_true.mp hbelongs c hc)
    have htracks := tracks_of_over hover
      (fun row hrow => Table.mem_liveRows_of_select hstart hrow) ht
    cases hsource : t.sources.get? base.name with
    | none => exact .inl rfl
    | some source =>
      -- The row of the base table is one that the conditions have chosen.
      have hnames : ∀ item ∈ joined, item.1.table ≠ query.table := by
        intro item hitem heq
        have hjoins := (joined_eq_ok hjoined).1
        refine (List.nodup_cons.mp hdistinct).1 (List.mem_map.mpr ⟨item.1, ?_, heq⟩)
        exact hjoins ▸ List.mem_map_of_mem hitem
      have hchosen : source ∈ start := by
        rw [← hover.base_name] at hsource
        obtain ⟨first, hfirst, hfirstSource⟩ :=
          Traced.exists_source_of_mem_traceTables hnames ht hsource
        obtain ⟨row, hrow, rfl⟩ := List.mem_map.mp hfirst
        rw [Traced.ofRow, Mapping.get?_cons, if_pos rfl] at hfirstSource
        exact Option.some.inj hfirstSource ▸ hrow
      rw [← matches_source hover hqualified hbare htracks hsource]
      exact .inr (hover.consistent.matches_of_select hbare hstart hchosen)

/-- The condition leaves one of the three rows of the first table. The join keeps its partners in the
second table and the row there that has none, which is not asked. -/
theorem where_selected_uneven :
    let query : Select := ⟨"a", none, [⟨.right, "b", ⟨some "a", "k"⟩, ⟨some "b", "k"⟩⟩],
      [⟨"a.id", .lt, .int 2, none⟩], [], none⟩
    uneven.Reachable ∧ ∃ base joined start, uneven.table query.table = .ok base ∧
      base.liveRows.length = 3 ∧ start.length = 1 ∧ base.select query.conditions = .ok start ∧
      selectRows base joined query =
        .ok [paired "b" 1 5 "a" 1 5, paired "b" 2 5 "a" 1 5, unpaired "b" 3 9] ∧
      ∀ t ∈ query.traced start joined,
        t.sources.get? base.name = none ∨ t.row.matches query.conditions = true := by
  intro query
  let base := uneven.tables[0]
  let joined := query.joins.map fun join => (join, uneven.tables[1])
  have hbase : uneven.table query.table = .ok base := rfl
  have hjoined : (query.joins.mapM fun join => do return (join, ← uneven.table join.table)) =
      .ok joined := rfl
  have hrows : selectRows base joined query =
      .ok [paired "b" 1 5 "a" 1 5, paired "b" 2 5 "a" 1 5, unpaired "b" 3 9] := by decide +kernel
  have hdots : ∀ c ∈ query.conditions, ¬Plain c.column := by decide
  obtain ⟨start, hstart, -, hall⟩ :=
    (uneven_reachable.where_selected hbase hjoined (by decide) hrows).2 (by decide) hdots
      (by decide)
  have hone : base.select query.conditions = .ok [[(.text "id", .int 1), (.text "k", .int 5)]] := by
    decide +kernel
  cases hstart.symm.trans hone
  exact ⟨uneven_reachable, base, joined, _, hbase, rfl, rfl, hone, hrows, hall⟩

/-- Two tables of texts, in the first of which the name of one column is a qualified reference to
the other. -/
def dotted : Database :=
  ⟨defaultName, .default,
    [{ Table.ambiguous with rows := [some [(.text "a", .string "x"), (.text "t.a", .null)]] },
    ⟨⟨"u", [.define (.text "b") .string false false false false], by decide⟩, 4,
      [some [(.text "b", .string "x")]], [], []⟩]⟩

/-- Four statements make the two tables. -/
theorem dotted_reachable : dotted.Reachable := by
  have hparse : (["CREATE TABLE t (a STRING, t.a STRING)", "INSERT INTO t (a) VALUES ('x')",
      "CREATE TABLE u (b STRING)", "INSERT INTO u VALUES ('x')"] : List Text).mapM Sql.parse =
      .ok [.createTable "t" [.define (.text "a") .string false false false false,
          .define (.text "t.a") .string false false false false],
        .insert "t" ["a"] [[.string "x"]],
        .createTable "u" [.define (.text "b") .string false false false false],
        .insert "u" [] [[.string "x"]]] := rfl
  exact (written_of_performAll hparse rfl).reachable

/-- A row that a join keeps without a row of the base table is selected although the condition does
not hold of it, and so is a row whose condition is read under the name of another column. -/
theorem where_not_holding :
    (∃ query base joined row,
      Sql.parse "SELECT a.id FROM b RIGHT JOIN a ON b.k = a.k WHERE b.id = 2" =
        .ok (.select query) ∧
      twins.Reachable ∧ twins.table query.table = .ok base ∧
      (query.joins.mapM fun join => do return (join, ← twins.table join.table)) = .ok joined ∧
      selectRows base joined query = .ok [row] ∧ row.matches query.conditions = false) ∧
    (∃ query base joined row,
      Sql.parse "SELECT b FROM t RIGHT JOIN u ON a = b WHERE t.a = 'x'" = .ok (.select query) ∧
      dotted.Reachable ∧ dotted.table query.table = .ok base ∧
      (query.joins.mapM fun join => do return (join, ← dotted.table join.table)) = .ok joined ∧
      selectRows base joined query = .ok [row] ∧ row.matches query.conditions = false) := by
  refine ⟨⟨_, _, _, _, rfl, twins_reachable, rfl, rfl, rfl, by decide +kernel⟩, ?_⟩
  exact ⟨_, _, _, _, rfl, dotted_reachable, rfl, rfl, rfl, by decide +kernel⟩

end

end Database

end RelStore
