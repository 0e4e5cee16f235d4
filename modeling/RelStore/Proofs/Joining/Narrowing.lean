import RelStore.Proofs.Arrangement
import RelStore.Proofs.Joining.Exchange

/-!
# Adding a condition to a query

A condition that is joined with `AND` to the end of a list holds in addition to what the list says
(`Row.matches_narrow`), so among the same rows it chooses fewer. But a condition on a joined table
makes the whole list choose among the joined rows, where it chose among the rows of the base table
before. The query then selects fewer rows if the earlier conditions are about the same values in
both places (`Condition.Movable`, `selectRows_narrowed`), and sorted rows stay in their order if the
sort keys rank them: so adding a condition narrows the answer (`Reachable.and_narrows`).
-/

namespace RelStore

open Sql (Join JoinKind Select)

/-! ## One more condition -/

/-- Conditions with one more, which must hold in addition to what they say together. -/
def Condition.narrow (c : Condition) : List Condition → List Condition
  | [] => [c]
  | [w] => [{ w with connector := some .and }, c]
  | w :: v :: rest => w :: narrow c (v :: rest)

/-- A query with one more condition. -/
def Sql.Select.narrowed (query : Select) (c : Condition) : Select :=
  { query with conditions := c.narrow query.conditions }

/-- Folding conditions with one more asks for this one last. -/
theorem Condition.foldFrom_narrow (row : Row) (c w : Condition) (rest : List Condition)
    (result : Bool) (connector : Option Connector) :
    foldFrom row result connector (narrow c (w :: rest)) =
      (foldFrom row result connector (w :: rest) && c.holds row) := by
  induction rest generalizing w result connector with
  | nil => rfl
  | cons v rest ih => exact ih v _ w.connector

/-- Conditions with one more hold when they do and this one does. -/
theorem Row.matches_narrow (row : Row) (c : Condition) (conditions : List Condition) :
    row.matches (c.narrow conditions) = (row.matches conditions && c.holds row) := by
  match conditions with
  | [] => rfl
  | [w] => rfl
  | w :: v :: rest => exact Condition.foldFrom_narrow row c v rest (w.holds row) w.connector

/-- Choosing by conditions with one more is choosing by them and then by this one. -/
theorem filter_matches_narrow (c : Condition) (conditions : List Condition) (rows : List Row) :
    (rows.filter fun row => row.matches (c.narrow conditions)) =
      (rows.filter fun row => row.matches conditions).filter c.holds := by
  rw [List.filter_filter]
  refine List.filter_congr fun row _ => ?_
  rw [Row.matches_narrow, Bool.and_comm]

/-- What is so of conditions, whatever their connectors, is so of conditions with one more when it
is so of them and of this one. -/
theorem Condition.forall_mem_narrow {kind : Condition → Prop}
    (hkind : ∀ (w : Condition) (connector : Option Connector),
      kind { w with connector := connector } ↔ kind w) (c : Condition)
    (conditions : List Condition) :
    (∀ w ∈ c.narrow conditions, kind w) ↔ (∀ w ∈ conditions, kind w) ∧ kind c := by
  induction conditions with
  | nil => simp [narrow]
  | cons w rest ih =>
    rw [List.forall_mem_cons]
    cases rest with
    | nil => simp [narrow, hkind]
    | cons v rest => rw [narrow, List.forall_mem_cons, ih, and_assoc]

/-- The columns of conditions with one more are theirs and its own. -/
theorem Condition.map_column_narrow (c : Condition) (conditions : List Condition) :
    (c.narrow conditions).map (·.column) = conditions.map (·.column) ++ [c.column] := by
  induction conditions with
  | nil => rfl
  | cons w rest ih =>
    cases rest with
    | nil => rfl
    | cons v rest => exact congrArg (w.column :: ·) ih

/-- Conditions that are related one by one, whatever their connectors, are so with one more. -/
theorem Condition.forall₂_narrow {related : Condition → Condition → Prop}
    (hrelated : ∀ (w b : Condition) (connector : Option Connector), related w b →
      related { w with connector := connector } { b with connector := connector })
    {conditions others : List Condition} (h : List.Forall₂ related conditions others)
    {c other : Condition} (hc : related c other) :
    List.Forall₂ related (c.narrow conditions) (other.narrow others) := by
  induction h with
  | nil => exact .cons hc .nil
  | cons hfirst hrest ih =>
    cases hrest with
    | nil => exact .cons (hrelated _ _ _ hfirst) (.cons hc .nil)
    | cons _ _ => exact .cons hfirst ih

/-- The bare names of conditions with one more are theirs and its own. -/
theorem Table.bareConditions_narrow {table : Table} {conditions bare : List Condition}
    (hbare : table.bareConditions conditions = .ok bare) {c : Condition} {name : Text}
    (hname : table.schema.columnName c.column = .ok name) :
    table.bareConditions (c.narrow conditions) =
      .ok (Condition.narrow { c with column := name } bare) := by
  refine Outcome.mapM_eq_ok.mpr (Condition.forall₂_narrow ?_ (Outcome.mapM_eq_ok.mp hbare) ?_)
  · intro w b connector hb
    obtain ⟨own, hown, hb⟩ := Outcome.bind_eq_ok.mp hb
    cases hb
    exact Outcome.bind_eq_ok.mpr ⟨own, hown, rfl⟩
  · exact Outcome.bind_eq_ok.mpr ⟨name, hname, rfl⟩

/-! ## Bare names that only the base table has -/

/-- A row that is put into a joined row decides what is under its bare names. -/
theorem get?_putAll_joinedEntries (m : Row) {row : Row} (hnodup : row.names.Nodup) (table : Text)
    {name : ColumnName} (hname : name.Plain) :
    Mapping.get? (m.putAll (joinedEntries row table)) name =
      (Mapping.get? row name).or (Mapping.get? m name) := by
  -- Of what a cell brings under its own and its qualified name, only the first can be the name.
  have hsame : (joinedEntries row table).filter (·.1 = name) = row.filter (·.1 = name) := by
    conv_rhs => rw [← List.flatMap_singleton' row]
    rw [joinedEntries, List.filter_flatMap, List.filter_flatMap]
    refine List.flatMap_congr fun entry _ => ?_
    obtain ⟨own, v⟩ := entry
    cases own with
    | text bare =>
      have hne : ¬ColumnName.text (qualify table bare) = name := by
        rintro rfl
        exact qualify_ne_of_plain hname table bare rfl
      dsimp only
      split
      · rfl
      · have hrest : [(ColumnName.text (qualify table bare), v)].filter (·.1 = name) = [] :=
          List.filter_cons_of_neg (by simpa using hne)
        rw [← List.singleton_append, List.filter_append, hrest, List.append_nil]
    | _ => rfl
  rw [Mapping.get?_putAll_filter rfl, hsame, ← Mapping.get?_putAll_filter rfl,
    Mapping.get?_putAll m hnodup]

/-- No name comes twice in a joined row. -/
theorem nodup_names_combine (l : Row) (leftTable : Text) (r? : Option Row) (rightTable : Text) :
    (combine l leftTable r? rightTable).names.Nodup := by
  have hempty : (Mapping.names ([] : Row)).Nodup := List.nodup_nil
  have hstart := Mapping.nodup_names_putAll hempty (joinedEntries l leftTable)
  cases r? with
  | none => exact hstart
  | some r => exact Mapping.nodup_names_putAll hstart _

/-- Under a bare name that the right row does not have, a joined row has what the left row has. -/
theorem get?_combine_of_notMem {l : Row} {r? : Option Row} {name : ColumnName} (hname : name.Plain)
    (hl : l.names.Nodup) (hr : ∀ r, r? = some r → r.names.Nodup ∧ name ∉ r.names)
    (leftTable rightTable : Text) :
    Mapping.get? (combine l leftTable r? rightTable) name = Mapping.get? l name := by
  have hstart : Mapping.get? (Mapping.ofList (joinedEntries l leftTable)) name =
      Mapping.get? l name :=
    (get?_putAll_joinedEntries [] hl leftTable hname).trans Option.or_none
  cases r? with
  | none => exact hstart
  | some r =>
    obtain ⟨hnodup, hnot⟩ := hr r rfl
    have hnone : Mapping.get? r name = none :=
      Option.not_isSome_iff_eq_none.mp fun hsome => hnot (Mapping.isSome_get?_iff.mp hsome)
    have hput : Mapping.get? (combine l leftTable (some r) rightTable) name =
        (Mapping.get? r name).or (Mapping.get? (Mapping.ofList (joinedEntries l leftTable)) name) :=
      get?_putAll_joinedEntries _ hnodup rightTable hname
    rw [hput, hnone, Option.none_or, hstart]

namespace Traced

/-- A row bears a bare name of the base table: it has under it what its row of this table has. -/
structure Bears (base : Text) (name : ColumnName) (t : Traced) : Prop where
  /-- No name comes twice. -/
  nodup : t.row.names.Nodup
  /-- A row of the base table has contributed and has the same under the name. -/
  exists_source : ∃ source, t.sources.get? base = some source ∧
    Mapping.get? t.row name = Mapping.get? source name

variable {base : Text} {name : ColumnName} {t : Traced}

/-- What is made of a left row bears the name when the left row does and no right row has it. -/
theorem Bears.of_mem_traceLeft (hname : name.Plain) {left right : TracedSide} {keepUnmatched : Bool}
    (hleft : ∀ l ∈ left.rows, l.Bears base name)
    (hright : ∀ r ∈ right.rows, r.row.names.Nodup ∧ name ∉ r.row.names)
    (ht : t ∈ traceLeft left right keepUnmatched) : t.Bears base name := by
  obtain ⟨l, hl, r?, hr?, rfl⟩ := mem_traceLeft ht
  obtain ⟨hnodup, source, hsource, hcell⟩ := hleft l hl
  refine ⟨nodup_names_combine _ _ _ _, source, get?_sources_of_left hsource _ _ _, ?_⟩
  rw [← hcell]
  refine get?_combine_of_notMem hname hnodup (fun row hrow => ?_) _ _
  obtain ⟨r, hr, rfl⟩ := Option.map_eq_some_iff.mp hrow
  exact hright r (hr? r hr)

/-- After joins that keep the rows of no right side, rows bear a bare name of the base table that no
joined table has. -/
theorem Bears.of_mem_traceTables (hname : name.Plain) {table : Text} {joined : List (Join × Table)}
    (hkinds : ∀ item ∈ joined, item.1.kind ≠ .right)
    (hjoined : ∀ item ∈ joined, ∀ row ∈ item.2.liveRows, row.names.Nodup ∧ name ∉ row.names)
    {rows : List Traced} (hrows : ∀ t ∈ rows, t.Bears base name)
    (ht : t ∈ traceTables table rows joined) : t.Bears base name := by
  induction joined generalizing rows with
  | nil => exact hrows t ht
  | cons first rest ih =>
    obtain ⟨clause, other⟩ := first
    obtain ⟨hkind, hkinds⟩ := List.forall_mem_cons.mp hkinds
    obtain ⟨hother, hjoined⟩ := List.forall_mem_cons.mp hjoined
    obtain ⟨keepUnmatched, -, htrace⟩ := exists_joinLeft hkind
    refine ih hkinds hjoined (fun next hnext => ?_) ht
    rw [htrace] at hnext
    refine Bears.of_mem_traceLeft hname hrows ?_ hnext
    rw [TracedSide.ofTable, List.forall_mem_map]
    exact hother

end Traced

/-- A condition on a base table may be asked of the joined rows instead. -/
structure Condition.Movable (base : Table) (joined : List (Join × Table)) (c : Condition) :
    Prop where
  /-- A column that it names bare is a column of no joined table. -/
  bare : Plain c.column → ∀ item ∈ joined, item.2.schema.hasColumn c.column = false
  /-- If it names its column with the table, no column has a dot in its name. -/
  qualified : ¬Plain c.column → ∀ table ∈ base :: joined.map Prod.snd, table.schema.Plain

namespace Database

variable {db : Database} {query : Select} {base : Table} {joined : List (Join × Table)}

/-! ## Conditions on the base table among joined rows -/

section

variable (h : db.Reachable) (hbase : db.table query.table = .ok base)
  (hjoined : (query.joins.mapM fun join => do return (join, ← db.table join.table)) = .ok joined)
  (hdistinct : (query.table :: query.joins.map (·.table)).Nodup)
  (hkinds : ∀ join ∈ query.joins, join.kind ≠ .right)

include hjoined hkinds in
/-- No join with a table keeps the rows of its right side if no join does. -/
theorem kind_ne_right_of_mem : ∀ item ∈ joined, item.1.kind ≠ .right := fun item hitem =>
  hkinds item.1 ((joined_eq_ok hjoined).1 ▸ List.mem_map_of_mem hitem)

include h hbase hjoined hkinds in
/-- Joined rows bear the bare names of the base table that no joined table has. -/
theorem bears_of_mem_traced {name : Text} (hname : Plain name)
    (hnone : ∀ item ∈ joined, item.2.schema.hasColumn name = false) {t : Traced}
    (ht : t ∈ query.traced base.liveRows joined) : t.Bears query.table name := by
  refine Traced.Bears.of_mem_traceTables hname (kind_ne_right_of_mem hjoined hkinds) ?_ ?_ ht
  · intro item hitem row hrow
    have hfits := (h.sound.consistent ((joined_eq_ok hjoined).2 item hitem)).fits_live hrow
    refine ⟨hfits.nodup_names, fun hmem => ?_⟩
    rw [hfits.mem_names_iff, hnone item hitem] at hmem
    cases hmem
  · rw [List.forall_mem_map]
    intro row hrow
    refine ⟨((h.sound.consistent hbase).fits_live hrow).nodup_names, row, ?_, rfl⟩
    rw [Traced.ofRow, Mapping.get?_cons, if_pos rfl]

include h hbase hjoined hdistinct hkinds in
/-- A condition on the base table that may be moved is about the same value in a joined row as it
is, with the bare name, in the row of the base table in it. -/
theorem subject_of_movable {w : Condition} (hmovable : w.Movable base joined)
    (hbelongs : belongsTo base w.column = true) {name : Text}
    (hname : base.schema.columnName w.column = .ok name) {t : Traced}
    (ht : t ∈ query.traced base.liveRows joined) {source : Row}
    (hsource : t.sources.get? query.table = some source) :
    Condition.subject { w with column := name } source = w.subject t.row := by
  by_cases hplain : Plain w.column
  · -- A bare name that the joined tables do not have leads to the cell of the base table.
    have hsame : name = w.column := by
      obtain ⟨_, heq, -, ⟨-, rfl⟩ | hsplit⟩ := Schema.columnName_eq_ok hname
      · exact (ColumnName.text.inj heq).symm
      · cases heq
        rw [splitQualified?_of_plain hplain] at hsplit
        cases hsplit
    obtain ⟨-, own, hown, hcell⟩ :=
      bears_of_mem_traced h hbase hjoined hkinds hplain (hmovable.bare hplain) ht
    obtain rfl : own = source := Option.some.inj (hown.symm.trans hsource)
    rw [hsame, Condition.subject, Condition.subject, Row.resolve?, Row.resolve?, hcell]
    dsimp only
    rw [splitQualified?_of_plain hplain, Option.bind_none, Option.bind_none]
  · have hover := h.over hbase hjoined hdistinct (hmovable.qualified hplain)
    rw [hover.base_name] at hsource
    exact subject_of_source hover (qualifiedBy_of_belongsTo hplain hbelongs) hname
      (tracks_of_over hover (fun row hrow => hrow) ht) hsource

variable (hmovable : ∀ w ∈ query.conditions, w.Movable base joined)
  (hbelongs : (query.conditions.all fun w => belongsTo base w.column) = true)

include h hbase hjoined hdistinct hkinds hmovable hbelongs in
/-- Conditions on the base table that may be moved choose among the joined rows what they choose
among the rows of the base table before the joins. -/
theorem joinTables_of_movable (hliterals : ∀ w ∈ query.conditions, w.value ≠ .float .nan)
    {start all : List Row} (hstart : base.select query.conditions = .ok start)
    (hall : joinTables query.table base.liveRows joined = .ok all) :
    joinTables query.table start joined =
      .ok (all.filter fun row => row.matches query.conditions) := by
  obtain ⟨bare, hbare⟩ := Table.exists_bareConditions fun w hw =>
    exists_columnName_of_belongsTo (List.all_eq_true.mp hbelongs w hw)
  have hconsistent := h.sound.consistent hbase
  rw [hconsistent.select_eq hbare hliterals, select_eq_ok_iff] at hstart
  obtain ⟨hkept, hsources⟩ := joinTables_filter_start (kind_ne_right_of_mem hjoined hkinds)
    (fun row => row.matches bare) hall
  -- What holds of a joined row is what holds of the row of the base table in it.
  have hsame : ∀ t ∈ query.traced base.liveRows joined,
      t.keptBy query.table (fun row => row.matches bare) = t.row.matches query.conditions := by
    intro t ht
    obtain ⟨source, hsource⟩ := Option.isSome_iff_exists.mp (hsources t ht)
    rw [Traced.keptBy, hsource, Option.any_some]
    refine Row.matches_congr ?_
    have hconditions : ∀ w ∈ query.conditions, w.Movable base joined ∧
        belongsTo base w.column = true :=
      fun w hw => ⟨hmovable w hw, List.all_eq_true.mp hbelongs w hw⟩
    refine ((List.forall₂_and_left _ _).mpr
      ⟨hconditions, Table.bareConditions_eq_ok hbare⟩).imp ?_
    rintro w _ ⟨⟨hw, hwBelongs⟩, name, hname, rfl⟩
    have hsubject :=
      subject_of_movable h hbase hjoined hdistinct hkinds hw hwBelongs hname ht hsource
    rw [Condition.holds, Condition.holds, hsubject]
    exact ⟨rfl, rfl⟩
  rw [hstart.2, hkept, joinTables_eq_traced hall, List.filter_map]
  exact congrArg Except.ok (congrArg (List.map _) (List.filter_congr hsame))

end

/-! ## Fewer rows -/

/-- With one more condition on the table, some of the selected rows are selected. -/
theorem exists_select_narrow (h : base.Consistent) {conditions : List Condition}
    (hbelongs : ∀ w ∈ conditions, belongsTo base w.column = true) {c : Condition}
    (hc : belongsTo base c.column = true)
    (hliterals : ∀ w ∈ c.narrow conditions, w.value ≠ .float .nan) {start fewer : List Row}
    (hstart : base.select conditions = .ok start)
    (hfewer : base.select (c.narrow conditions) = .ok fewer) :
    ∃ keep : Row → Bool, fewer = start.filter keep := by
  obtain ⟨hearlierLiterals, -⟩ :=
    (Condition.forall_mem_narrow (fun _ _ => Iff.rfl) c conditions).mp hliterals
  obtain ⟨bare, hbare⟩ := Table.exists_bareConditions fun w hw =>
    exists_columnName_of_belongsTo (hbelongs w hw)
  obtain ⟨name, hname⟩ := exists_columnName_of_belongsTo hc
  rw [h.select_eq hbare hearlierLiterals, select_eq_ok_iff] at hstart
  rw [h.select_eq (Table.bareConditions_narrow hbare hname) hliterals, select_eq_ok_iff] at hfewer
  refine ⟨Condition.holds { c with column := name }, ?_⟩
  rw [hfewer.2, hstart.2, filter_matches_narrow]

/-- Fewer rows to start with make fewer joined rows if no join keeps the rows of its right side. -/
theorem sublist_of_joinTables_filter (hkinds : ∀ item ∈ joined, item.1.kind ≠ .right)
    {start rows fewer : List Row} (keep : Row → Bool)
    (hrows : joinTables query.table start joined = .ok rows)
    (hfewer : joinTables query.table (start.filter keep) joined = .ok fewer) :
    fewer.Sublist rows := by
  rw [(joinTables_filter_start hkinds keep hrows).1] at hfewer
  rw [← Except.ok.inj hfewer, joinTables_eq_traced hrows]
  exact List.filter_sublist.map _

/-- Among the same rows, one more condition chooses fewer. -/
theorem sublist_of_select_narrow {c : Condition} {conditions : List Condition}
    {all fewer : List Row} (h : Condition.select (c.narrow conditions) id all = .ok fewer) :
    fewer.Sublist (all.filter fun row => row.matches conditions) := by
  rw [(select_eq_ok_iff.mp h).2, filter_matches_narrow]
  exact List.filter_sublist

/-- With one more condition, a query over different tables, of which no join keeps the rows of its
right side, selects some of the rows, if the earlier conditions may be moved in case that the new
one moves them. -/
theorem selectRows_narrowed (h : db.Reachable) (hbase : db.table query.table = .ok base)
    (hjoined : (query.joins.mapM fun join => do return (join, ← db.table join.table)) = .ok joined)
    (hdistinct : (query.table :: query.joins.map (·.table)).Nodup)
    (hkinds : ∀ join ∈ query.joins, join.kind ≠ .right) {c : Condition}
    (hliterals : ∀ w ∈ c.narrow query.conditions, w.value ≠ .float .nan)
    (hmovable : (query.conditions.all fun w => belongsTo base w.column) = true →
      belongsTo base c.column = false → ∀ w ∈ query.conditions, w.Movable base joined)
    {rows fewer : List Row} (hrows : selectRows base joined query = .ok rows)
    (hfewer : selectRows base joined (query.narrowed c) = .ok fewer) : fewer.Sublist rows := by
  have hconsistent := h.sound.consistent hbase
  have hall : ((query.narrowed c).conditions.all fun w => belongsTo base w.column) =
      ((query.conditions.all fun w => belongsTo base w.column) && belongsTo base c.column) := by
    rw [Bool.eq_iff_iff, Bool.and_eq_true, List.all_eq_true, List.all_eq_true]
    exact Condition.forall_mem_narrow (fun _ _ => Iff.rfl) c query.conditions
  unfold selectRows at hrows hfewer
  rw [hall] at hfewer
  cases hearlier : query.conditions.all fun w => belongsTo base w.column with
  | false =>
    -- Both lists choose among the joined rows.
    rw [hearlier, if_neg Bool.false_ne_true] at hrows
    rw [hearlier, Bool.false_and, if_neg Bool.false_ne_true] at hfewer
    obtain ⟨start, hstart, hrows⟩ := Outcome.bind_eq_ok.mp hrows
    obtain ⟨all, hjoins, hrows⟩ := Outcome.bind_eq_ok.mp hrows
    rw [hstart, Outcome.ok_bind] at hfewer
    obtain ⟨_, hsame, hfewer⟩ := Outcome.bind_eq_ok.mp hfewer
    obtain rfl := Except.ok.inj (hjoins.symm.trans hsame)
    rw [(select_eq_ok_iff.mp hrows).2]
    exact sublist_of_select_narrow hfewer
  | true =>
    rw [hearlier, if_pos rfl] at hrows
    rw [hearlier, Bool.true_and] at hfewer
    obtain ⟨start, hstart, hrows⟩ := Outcome.bind_eq_ok.mp hrows
    cases hc : belongsTo base c.column with
    | true =>
      -- Both lists choose among the rows of the base table.
      rw [hc, if_pos rfl] at hfewer
      obtain ⟨startFewer, hstartFewer, hfewer⟩ := Outcome.bind_eq_ok.mp hfewer
      obtain ⟨keep, rfl⟩ := exists_select_narrow hconsistent (List.all_eq_true.mp hearlier) hc
        hliterals hstart hstartFewer
      exact sublist_of_joinTables_filter (kind_ne_right_of_mem hjoined hkinds) keep hrows hfewer
    | false =>
      -- The new condition moves the others to the joined rows.
      rw [hc, if_neg Bool.false_ne_true] at hfewer
      rw [select_nil hconsistent, Outcome.ok_bind] at hfewer
      obtain ⟨all, hjoins, hfewer⟩ := Outcome.bind_eq_ok.mp hfewer
      have hearlierLiterals :=
        ((Condition.forall_mem_narrow (fun _ _ => Iff.rfl) c query.conditions).mp hliterals).1
      rw [joinTables_of_movable h hbase hjoined hdistinct hkinds (hmovable hearlier hc) hearlier
        hearlierLiterals hstart hjoins] at hrows
      exact Except.ok.inj hrows ▸ sublist_of_select_narrow hfewer

/-! ## What cannot be written -/

end Database

/-- An error is about something that has no text: an integer that is too long to be written, or a
name that is no text. -/
def Error.IsTextless (error : Error) : Prop :=
  error = .unwritableInteger ∨ ∃ name, error = .nameNotText name

/-- What keeps a row from being carried over is a name that is no text. -/
theorem isTextless_of_carryFault? {row : Row} {error : Error} (h : carryFault? row = some error) :
    error.IsTextless := by
  obtain ⟨name, -, hname⟩ := List.exists_of_findSome?_eq_some h
  cases name with
  | text name => cases hname
  | _ => exact .inr ⟨_, (Option.some.inj hname).symm⟩

/-- A join fails where something has no text. -/
theorem isTextless_of_joinFault? {left right : JoinSide} {keepUnmatched : Bool} {error : Error}
    (h : joinFault? left right keepUnmatched = some error) : error.IsTextless := by
  obtain ⟨l, -, h⟩ := List.exists_of_findSome?_eq_some h
  split at h
  · next fault hfault =>
    cases h
    obtain ⟨r, -, hpair⟩ := List.exists_of_findSome?_eq_some hfault
    unfold pairFault? at hpair
    split at hpair
    · split at hpair
      · exact .inl (Option.some.inj hpair).symm
      · split at hpair
        · exact isTextless_of_carryFault? hpair
        · cases hpair
    · cases hpair
  · split at h
    · exact isTextless_of_carryFault? h
    · cases h

namespace Database

variable {db : Database} {query : Select} {base : Table} {joined : List (Join × Table)}

/-- Joins fail where something has no text. -/
theorem isTextless_of_joinTables {table : Text} {rows : List Row} {error : Error}
    (h : joinTables table rows joined = .error error) : error.IsTextless := by
  induction joined generalizing rows with
  | nil => cases h
  | cons first rest ih =>
    obtain ⟨clause, other⟩ := first
    rcases Outcome.bind_eq_error.mp h with hjoin | ⟨next, -, hrest⟩
    · cases hkind : clause.kind with
      | inner => exact isTextless_of_joinFault? (joinLeft_eq_error (hkind ▸ hjoin))
      | left => exact isTextless_of_joinFault? (joinLeft_eq_error (hkind ▸ hjoin))
      | right => exact isTextless_of_joinFault? (joinLeft_eq_error (hkind ▸ hjoin))
    · exact ih hrest

/-- A selection fails where an integer cannot be written. -/
theorem isTextless_of_conditionSelect {conditions : List Condition} {rows : List Row}
    {error : Error} (h : Condition.select conditions id rows = .error error) :
    error.IsTextless := by
  unfold Condition.select at h
  split at h
  · cases h
  · exact .inl (Except.error.inj h).symm

/-- A query selects its rows unless something has no text. -/
theorem isTextless_of_selectRows {error : Error}
    (hrows : selectRows base joined query = .error error) : error.IsTextless := by
  unfold selectRows at hrows
  split at hrows
  · next hbelongs =>
    rcases Outcome.bind_eq_error.mp hrows with hstart | ⟨start, -, hjoin⟩
    · exact .inl (Table.eq_unwritable_of_select (fun w hw =>
        exists_columnName_of_belongsTo (List.all_eq_true.mp hbelongs w hw)) hstart)
    · exact isTextless_of_joinTables hjoin
  · rcases Outcome.bind_eq_error.mp hrows with hstart | ⟨start, -, hrows⟩
    · exact .inl (Table.eq_unwritable_of_select (List.forall_mem_nil _) hstart)
    · rcases Outcome.bind_eq_error.mp hrows with hjoin | ⟨all, -, hselect⟩
      · exact isTextless_of_joinTables hjoin
      · exact isTextless_of_conditionSelect hselect

end Database

/-! ## Answers -/

/-- The rows that a query shows of those that it has selected and sorted. -/
def Sql.Select.shown (query : Select) (rows : List Row) : List Row :=
  let rows := limitRows (query.limit.map Int.ofNat) rows
  match query.columns with
  | some columns => project columns rows
  | none => rows

/-- Of fewer rows, a query without a limit shows fewer. -/
theorem Sql.Select.shown_sublist {query : Select} (hlimit : query.limit = none)
    {rows fewer : List Row} (h : fewer.Sublist rows) :
    (query.shown fewer).Sublist (query.shown rows) := by
  unfold shown
  rw [hlimit]
  cases query.columns with
  | none => exact h
  | some columns => exact h.map (projectRow columns)

namespace Database

/-- The rows with which a query answers: its references are checked, its rows selected and
sorted. -/
def answers (base : Table) (joined : List (Join × Table)) (query : Select) :
    Except Error (List Row) := do
  (references query).forM (checkColumn (base :: joined.map Prod.snd))
  return query.shown (← sortRows query.sortKeys (← selectRows base joined query))

variable {db : Database} {query : Select} {base : Table} {joined : List (Join × Table)}

/-- A query that is given as text fails with an error or answers with its rows. -/
theorem execute_cases {text : Text} (htext : Sql.parse text = .ok (.select query))
    (hbase : db.table query.table = .ok base)
    (hjoined : (query.joins.mapM fun join => do return (join, ← db.table join.table)) =
      .ok joined) :
    (∃ error, answers base joined query = .error error ∧
      (db.execute text).1 = .ofError error) ∨
    ∃ rows, answers base joined query = .ok rows ∧ (db.execute text).1.rows = some rows := by
  rw [execute_eq_perform htext, perform_select, runSelect, hbase, Outcome.ok_bind, hjoined,
    Outcome.ok_bind, answers]
  cases (references query).forM (checkColumn (base :: joined.map Prod.snd)) with
  | error error => exact .inl ⟨error, rfl, rfl⟩
  | ok _ =>
    rw [Outcome.ok_bind, Outcome.ok_bind]
    cases selectRows base joined query with
    | error error => exact .inl ⟨error, rfl, rfl⟩
    | ok chosen =>
      rw [Outcome.ok_bind, Outcome.ok_bind]
      cases sortRows query.sortKeys chosen with
      | error error => exact .inl ⟨error, rfl, rfl⟩
      | ok sorted =>
        refine .inr ⟨query.shown sorted, rfl, ?_⟩
        rw [Outcome.ok_bind, Select.shown]
        cases query.columns with
        | some columns => rfl
        | none => cases query.joins.isEmpty <;> rfl

/-- One more reference that is checked in vain changes nothing. -/
theorem forM_references_narrowed {tables : List Table} {c : Condition}
    (hcolumn : checkColumn tables c.column = .ok ()) :
    (references (query.narrowed c)).forM (checkColumn tables) =
      (references query).forM (checkColumn tables) := by
  let earlier := query.joins.flatMap fun join => [join.left.reference, join.right.reference]
  let later := query.sortKeys.map (·.column) ++ query.columns.getD []
  have hnarrowed : references (query.narrowed c) =
      (earlier ++ query.conditions.map (·.column)) ++ ([c.column] ++ later) := by
    rw [references, Select.narrowed]
    dsimp only
    rw [Condition.map_column_narrow]
    simp only [earlier, later, List.append_assoc]
  have hreferences : references query =
      (earlier ++ query.conditions.map (·.column)) ++ later := by
    simp only [references, earlier, later, List.append_assoc]
  rw [hnarrowed, hreferences]
  exact forM_of_passed (List.forall_mem_singleton.mpr hcolumn)

/-- A query with one more condition answers with some of the rows with which the query answers, if
it selects some of the rows and the sort keys rank them; it fails only where the selection does. -/
theorem answers_narrowed {c : Condition} (hlimit : query.limit = none)
    (hcolumn : checkColumn (base :: joined.map Prod.snd) c.column = .ok ())
    (hsub : ∀ chosen fewer, selectRows base joined query = .ok chosen →
      selectRows base joined (query.narrowed c) = .ok fewer →
        Rankable query.sortKeys chosen ∧ fewer.Sublist chosen)
    {rows : List Row} (h : answers base joined query = .ok rows) :
    (∃ error, selectRows base joined (query.narrowed c) = .error error ∧
      answers base joined (query.narrowed c) = .error error) ∨
    ∃ fewer, answers base joined (query.narrowed c) = .ok fewer ∧ fewer.Sublist rows := by
  obtain ⟨_, hchecked, h⟩ := Outcome.bind_eq_ok.mp h
  obtain ⟨chosen, hchosen, h⟩ := Outcome.bind_eq_ok.mp h
  obtain ⟨sorted, hsorted, h⟩ := Outcome.bind_eq_ok.mp h
  obtain rfl := Except.ok.inj h
  rw [answers, forM_references_narrowed hcolumn, hchecked, Outcome.ok_bind]
  cases hfewer : selectRows base joined (query.narrowed c) with
  | error error => exact .inl ⟨error, rfl, rfl⟩
  | ok fewer =>
    obtain ⟨hrank, hfewer⟩ := hsub chosen fewer hchosen hfewer
    -- Fewer rows are ranked, too, so they are sorted without an error.
    obtain ⟨all, hall, harranged⟩ := hrank.exists_sortRows
    obtain rfl := Except.ok.inj (hsorted.symm.trans hall)
    obtain ⟨sortedFewer, hsortedFewer, harrangedFewer⟩ :=
      (hrank.of_subset (List.Subset.refl query.sortKeys) hfewer.subset).exists_sortRows
    refine .inr ⟨query.shown sortedFewer, ?_, ?_⟩
    · rw [Outcome.ok_bind]
      exact Outcome.bind_eq_ok.mpr ⟨sortedFewer, hsortedFewer, rfl⟩
    · exact Select.shown_sublist hlimit (harranged.sublist harrangedFewer hrank hfewer)

/-- In a reachable database, one more condition on a column of the tables of a query narrows the
answer of the query: where something has no text it fails, and otherwise it answers with some of the
rows, in the order in which they stand. The query is over different tables, none of its joins keeps
the rows of its right side and it has no limit; if its conditions are on the base table and the new
one is not, they may be moved; and its sort keys rank the rows that it selects. -/
theorem Reachable.and_narrows (h : db.Reachable) {text narrowed : Text} {c : Condition}
    (htext : Sql.parse text = .ok (.select query))
    (hnarrowed : Sql.parse narrowed = .ok (.select (query.narrowed c)))
    (hbase : db.table query.table = .ok base)
    (hjoined : (query.joins.mapM fun join => do return (join, ← db.table join.table)) = .ok joined)
    (hdistinct : (query.table :: query.joins.map (·.table)).Nodup)
    (hkinds : ∀ join ∈ query.joins, join.kind ≠ .right) (hlimit : query.limit = none)
    (hcolumn : checkColumn (base :: joined.map Prod.snd) c.column = .ok ())
    (hmovable : (query.conditions.all fun w => belongsTo base w.column) = true →
      belongsTo base c.column = false → ∀ w ∈ query.conditions, w.Movable base joined)
    (hrank : ∀ chosen, selectRows base joined query = .ok chosen →
      Rankable query.sortKeys chosen)
    {rows : List Row} (hrows : (db.execute text).1.rows = some rows) :
    (∃ error : Error, error.IsTextless ∧ (db.execute narrowed).1 = .ofError error) ∨
      ∃ fewer, (db.execute narrowed).1.rows = some fewer ∧ fewer.Sublist rows := by
  have hliterals : ∀ w ∈ c.narrow query.conditions, w.value ≠ .float .nan :=
    Sql.parse_wellRead hnarrowed
  have hselected : ∀ chosen fewer, selectRows base joined query = .ok chosen →
      selectRows base joined (query.narrowed c) = .ok fewer →
        Rankable query.sortKeys chosen ∧ fewer.Sublist chosen :=
    fun chosen fewer hchosen hfewer => ⟨hrank chosen hchosen,
      selectRows_narrowed h hbase hjoined hdistinct hkinds hliterals hmovable hchosen hfewer⟩
  obtain ⟨error, -, hfailed⟩ | ⟨answer, hanswer, hshown⟩ := execute_cases htext hbase hjoined
  · rw [hfailed] at hrows
    cases hrows
  obtain rfl : answer = rows := Option.some.inj (hshown.symm.trans hrows)
  have hcases := execute_cases hnarrowed hbase hjoined
  rcases answers_narrowed hlimit hcolumn hselected hanswer with
    ⟨error, hselect, herror⟩ | ⟨fewer, hfewer, hsub⟩
  · obtain ⟨own, hown, hfailed⟩ | ⟨_, hok, -⟩ := hcases
    · obtain rfl := Except.error.inj (herror.symm.trans hown)
      exact .inl ⟨error, isTextless_of_selectRows hselect, hfailed⟩
    · cases herror.symm.trans hok
  · obtain ⟨_, herror, -⟩ | ⟨own, hown, hshown⟩ := hcases
    · cases hfewer.symm.trans herror
    · obtain rfl := Except.ok.inj (hfewer.symm.trans hown)
      exact .inr ⟨fewer, hshown, hsub⟩

/-- Two tables of the same columns with two rows each, in which the same numbers stand crosswise. -/
def crossed : Database :=
  ⟨defaultName, .default,
    [pairs "a" [[(.text "id", .int 1), (.text "k", .int 1)],
      [(.text "id", .int 2), (.text "k", .int 2)]],
    pairs "b" [[(.text "id", .int 1), (.text "k", .int 2)],
      [(.text "id", .int 2), (.text "k", .int 1)]]]⟩

/-- Four statements make the two tables. -/
theorem crossed_reachable : crossed.Reachable := by
  have hparse : (["CREATE TABLE a (id INT, k INT)", "CREATE TABLE b (id INT, k INT)",
      "INSERT INTO a VALUES (1, 1), (2, 2)", "INSERT INTO b VALUES (1, 2), (2, 1)"] :
      List Text).mapM Sql.parse =
      .ok [.createTable "a" (pairs "a" []).schema.columns,
        .createTable "b" (pairs "b" []).schema.columns,
        .insert "a" [] [[.int 1, .int 1], [.int 2, .int 2]],
        .insert "b" [] [[.int 1, .int 2], [.int 2, .int 1]]] := rfl
  exact (written_of_performAll hparse rfl).reachable

/-- The condition on the second table moves the other one, which names its column with the table.
One of the two rows is left, in the order of the column of the second table. -/
theorem and_narrows_crossed :
    let text : Text := "SELECT a.id FROM a LEFT JOIN b ON a.id = b.id WHERE a.k > 0 ORDER BY b.k"
    let narrowed : Text :=
      "SELECT a.id FROM a LEFT JOIN b ON a.id = b.id WHERE a.k > 0 AND b.k = 1 ORDER BY b.k"
    let query : Select := ⟨"a", some ["a.id"], [⟨.left, "b", ⟨some "a", "id"⟩, ⟨some "b", "id"⟩⟩],
      [⟨"a.k", .gt, .int 0, none⟩], [⟨"b.k", .ascending⟩], none⟩
    let c : Condition := ⟨"b.k", .eq, .int 1, none⟩
    let answer (ids : List Int) : List Row := ids.map fun id => [(.text "a.id", .int id)]
    crossed.Reachable ∧ Sql.parse text = .ok (.select query) ∧
      Sql.parse narrowed = .ok (.select (query.narrowed c)) ∧
      ∃ base joined, crossed.table query.table = .ok base ∧
        (query.joins.mapM fun join => do return (join, ← crossed.table join.table)) = .ok joined ∧
        (query.conditions.all fun w => belongsTo base w.column) = true ∧
        belongsTo base c.column = false ∧
        (∀ w ∈ query.conditions, w.Movable base joined) ∧
        (∀ chosen, selectRows base joined query = .ok chosen → Rankable query.sortKeys chosen) ∧
        (crossed.execute text).1.rows = some (answer [2, 1]) ∧
        (crossed.execute narrowed).1.rows = some (answer [2]) ∧
        (answer [2]).Sublist (answer [2, 1]) := by
  intro text narrowed query c answer
  have htext : Sql.parse text = .ok (.select query) := by decide +kernel
  have hnarrowed : Sql.parse narrowed = .ok (.select (query.narrowed c)) := by decide +kernel
  let row (id k : Int) : Row := [(.text "id", .int id), (.text "k", .int k)]
  let base := pairs "a" [row 1 1, row 2 2]
  let joined := query.joins.map fun join => (join, pairs "b" [row 1 2, row 2 1])
  have hbase : crossed.table query.table = .ok base := rfl
  have hjoined : (query.joins.mapM fun join => do return (join, ← crossed.table join.table)) =
      .ok joined := rfl
  have hmovable : ∀ w ∈ query.conditions, w.Movable base joined :=
    List.forall_mem_singleton.mpr ⟨fun hplain => absurd hplain (by decide), fun _ => by decide⟩
  have hrank : ∀ chosen, selectRows base joined query = .ok chosen →
      Rankable query.sortKeys chosen := by
    intro chosen hchosen
    let pair (id k l : Int) : Row := [(.text "id", .int id), (.text "a.id", .int id),
      (.text "k", .int l), (.text "a.k", .int k), (.text "b.id", .int id), (.text "b.k", .int l)]
    have hselect : selectRows base joined query = .ok [pair 1 1 2, pair 2 2 1] := by decide +kernel
    obtain rfl := Except.ok.inj (hselect.symm.trans hchosen)
    refine Rankable.of_types (List.forall_mem_singleton.mpr ⟨.int, ?_⟩)
    rw [List.forall_mem_cons, List.forall_mem_singleton]
    exact ⟨⟨rfl, nofun⟩, rfl, nofun⟩
  have hrows : (crossed.execute text).1.rows = some (answer [2, 1]) := by decide +kernel
  have hfewer : (crossed.execute narrowed).1.rows = some (answer [2]) := by decide +kernel
  refine ⟨crossed_reachable, htext, hnarrowed, base, joined, hbase, hjoined, by decide, by decide,
    hmovable, hrank, hrows, hfewer, ?_⟩
  rcases crossed_reachable.and_narrows htext hnarrowed hbase hjoined (by decide) (by decide) rfl
    (by decide) (fun _ _ => hmovable) hrank hrows with ⟨error, -, hfailed⟩ | ⟨fewer, hshown, hsub⟩
  · rw [hfailed] at hfewer
    cases hfewer
  · obtain rfl := Option.some.inj (hshown.symm.trans hfewer)
    exact hsub

/-- One more condition on a column of the tables of a query gives rows that are not some of those
that the query gives, in their order. The query is over different tables, none of its joins keeps
the rows of its right side and it has no limit. -/
structure Widens (db : Database) (text narrowed : Text) (query : Select) (c : Condition) :
    Prop where
  /-- The database is reachable. -/
  reachable : db.Reachable
  /-- The first text is the query. -/
  parse_text : Sql.parse text = .ok (.select query)
  /-- The second text is the query with the condition. -/
  parse_narrowed : Sql.parse narrowed = .ok (.select (query.narrowed c))
  /-- The tables are different. -/
  distinct : (query.table :: query.joins.map (·.table)).Nodup
  /-- No join keeps the rows of its right side. -/
  kinds : ∀ join ∈ query.joins, join.kind ≠ .right
  /-- There is no limit. -/
  limit : query.limit = none
  /-- One of the tables has the column of the condition. -/
  column : ∃ name ∈ query.table :: query.joins.map (·.table), ∃ table, db.table name = .ok table ∧
    belongsTo table c.column = true
  /-- The rows with the condition are not some of those without it. -/
  not_sublist : ∃ rows fewer, (db.execute text).1.rows = some rows ∧
    (db.execute narrowed).1.rows = some fewer ∧ ¬fewer.Sublist rows

/-- Two tables, of which the numbers of the first and the text of the second stand under the same
bare name. The first number comes before the second, the second before the text, and the text before
the first number. -/
def circled : Database :=
  ⟨defaultName, .default,
    [⟨⟨"a", [.define (.text "id") .int false false false false,
        .define (.text "x") .int false false false false], by decide⟩, 4,
      [some [(.text "id", .int 1), (.text "x", .int 9)],
        some [(.text "id", .int 2), (.text "x", .int 10)],
        some [(.text "id", .int 3), (.text "x", .int 0)]], [], []⟩,
    ⟨⟨"b", [.define (.text "aid") .int false false false false,
        .define (.text "x") .string false false false false], by decide⟩, 4,
      [some [(.text "aid", .int 3), (.text "x", .string "1a")]], [], []⟩]⟩

/-- Four statements make the two tables. -/
theorem circled_reachable : circled.Reachable := by
  have hparse : (["CREATE TABLE a (id INT, x INT)", "CREATE TABLE b (aid INT, x STRING)",
      "INSERT INTO a VALUES (1, 9), (2, 10), (3, 0)", "INSERT INTO b VALUES (3, '1a')"] :
      List Text).mapM Sql.parse =
      .ok [.createTable "a" [.define (.text "id") .int false false false false,
          .define (.text "x") .int false false false false],
        .createTable "b" [.define (.text "aid") .int false false false false,
          .define (.text "x") .string false false false false],
        .insert "a" [] [[.int 1, .int 9], [.int 2, .int 10], [.int 3, .int 0]],
        .insert "b" [] [[.int 3, .string "1a"]]] := rfl
  exact (written_of_performAll hparse rfl).reachable

/-- One more condition brings in another row where it moves a condition under a bare name to rows in
which a joined table has the name, and where it moves a condition under a qualified name to rows in
which a column of this name is another one. Where the sort keys do not rank the rows, the ones that
are left change places. -/
theorem and_widens :
    crossed.Widens "SELECT a.id FROM a JOIN b ON a.id = b.id WHERE k = 1"
      "SELECT a.id FROM a JOIN b ON a.id = b.id WHERE k = 1 AND b.id > 0"
      ⟨"a", some ["a.id"], [⟨.inner, "b", ⟨some "a", "id"⟩, ⟨some "b", "id"⟩⟩],
        [⟨"k", .eq, .int 1, none⟩], [], none⟩ ⟨"b.id", .gt, .int 0, none⟩ ∧
    dotted.Widens "SELECT b FROM t JOIN u ON a = b WHERE t.a = NULL"
      "SELECT b FROM t JOIN u ON a = b WHERE t.a = NULL AND b = 'x'"
      ⟨"t", some ["b"], [⟨.inner, "u", ⟨none, "a"⟩, ⟨none, "b"⟩⟩],
        [⟨"t.a", .eq, .null, none⟩], [], none⟩ ⟨"b", .eq, .string "x", none⟩ ∧
    circled.Widens "SELECT id FROM a LEFT JOIN b ON a.id = b.aid WHERE id > 0 ORDER BY x"
      "SELECT id FROM a LEFT JOIN b ON a.id = b.aid WHERE id > 0 AND id != 2 ORDER BY x"
      ⟨"a", some ["id"], [⟨.left, "b", ⟨some "a", "id"⟩, ⟨some "b", "aid"⟩⟩],
        [⟨"id", .gt, .int 0, none⟩], [⟨"x", .ascending⟩], none⟩ ⟨"id", .ne, .int 2, none⟩ := by
  refine ⟨?_, ?_, ?_⟩
  · refine ⟨crossed_reachable, by decide +kernel, by decide +kernel, by decide, by decide, rfl,
      ⟨"b", by decide, _, rfl, by decide⟩,
      [[(.text "a.id", .int 1)]], [[(.text "a.id", .int 2)]], ?_, ?_, by decide⟩
    · decide +kernel
    · decide +kernel
  · refine ⟨dotted_reachable, by decide +kernel, by decide +kernel, by decide, by decide, rfl,
      ⟨"u", by decide, _, rfl, by decide⟩, [], [[(.text "b", .string "x")]], ?_, ?_, by decide⟩
    · decide +kernel
    · decide +kernel
  · refine ⟨circled_reachable, by decide +kernel, by decide +kernel, by decide, by decide, rfl,
      ⟨"a", by decide, _, rfl, by decide⟩,
      [[(.text "id", .int 1)], [(.text "id", .int 2)], [(.text "id", .int 3)]],
      [[(.text "id", .int 3)], [(.text "id", .int 1)]], ?_, ?_, by decide⟩
    · decide +kernel
    · decide +kernel

end Database

end RelStore
