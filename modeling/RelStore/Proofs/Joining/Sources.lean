import RelStore.Proofs.Joining.Trace
import RelStore.Proofs.References

/-!
# The cells of joined rows

A joined row has the cells of every source under names qualified by the table of the source, and
nothing else under a qualified name (`Holds`). A row of a table comes into a joined row with its
names qualified (`holds_joinedEntries`) and a joined row as it is (`Holds.joinedEntries_eq`); rows
of different tables are put together without loss (`Holds.putAll`). So whatever a join makes of rows
that hold their sources holds the sources of both sides.
-/

namespace RelStore

open Sql (Join JoinColumn JoinKind)

/-! ## Rows that hold their sources -/

/-- The entries of a row hold its sources: each cell of a source under its name qualified by the
table, nothing else under qualified names, and under a bare name something just when a source has a
cell of the name. -/
structure Holds (sources : Mapping Text Row) (entries : Row) : Prop where
  /-- No name comes twice. -/
  nodup : entries.names.Nodup
  /-- Under a qualified name there is the cell of the source of the table. -/
  get?_qualify : ∀ table column, Plain column →
    Mapping.get? entries (.text (qualify table column)) =
      (sources.get? table).bind fun source => Mapping.get? source (.text column)
  /-- Under a bare name there is something when a source has a cell of the name. -/
  isSome_get?_iff : ∀ column, Plain column →
    ((Mapping.get? entries (.text column)).isSome = true ↔
      ∃ table source, sources.get? table = some source ∧
        (Mapping.get? source (.text column)).isSome = true)

/-- The mapping of the entries holds what the entries do. -/
theorem Holds.ofList {sources : Mapping Text Row} {entries : Row} (h : Holds sources entries) :
    Holds sources (Mapping.ofList entries) := by
  have hget := Mapping.get?_ofList h.nodup
  have hempty : (Mapping.names ([] : Row)).Nodup := List.nodup_nil
  refine ⟨Mapping.nodup_names_putAll hempty entries, fun table column hplain => ?_,
    fun column hplain => ?_⟩
  · rw [hget, h.get?_qualify table column hplain]
  · rw [hget, h.isSome_get?_iff column hplain]

/-- Entries of different tables hold the sources of both when they are put together. -/
theorem Holds.putAll {leftSources rightSources : Mapping Text Row} {left right : Row}
    (hleft : Holds leftSources left) (hright : Holds rightSources right)
    (hapart : ∀ table, leftSources.get? table = none ∨ rightSources.get? table = none) :
    Holds (leftSources ++ rightSources) (left.putAll right) := by
  have hget := Mapping.get?_putAll left hright.nodup
  refine ⟨Mapping.nodup_names_putAll hleft.nodup right, fun table column hplain => ?_,
    fun column hplain => ?_⟩
  · rw [hget, hleft.get?_qualify table column hplain, hright.get?_qualify table column hplain,
      Mapping.get?_append]
    -- Only one of the two sides can have the table.
    rcases hapart table with hnone | hnone
    · rw [hnone, Option.bind_none, Option.or_none, Option.none_or]
    · rw [hnone, Option.bind_none, Option.none_or, Option.or_none]
  · rw [hget, Option.isSome_or, Bool.or_eq_true, hleft.isSome_get?_iff column hplain,
      hright.isSome_get?_iff column hplain]
    constructor
    · rintro (⟨table, source, hsource, hcell⟩ | ⟨table, source, hsource, hcell⟩)
      · have hnone : leftSources.get? table = none := by
          refine (hapart table).resolve_right ?_
          rw [hsource]
          exact Option.some_ne_none source
        refine ⟨table, source, ?_, hcell⟩
        rw [Mapping.get?_append, hnone, Option.none_or, hsource]
      · refine ⟨table, source, ?_, hcell⟩
        rw [Mapping.get?_append, hsource, Option.some_or]
    · rintro ⟨table, source, hsource, hcell⟩
      rw [Mapping.get?_append] at hsource
      rcases Option.or_eq_some_iff.mp hsource with hsource | ⟨-, hsource⟩
      · exact .inr ⟨table, source, hsource, hcell⟩
      · exact .inl ⟨table, source, hsource, hcell⟩

/-- Under a bare name a row brings into a joined row what it has there itself. -/
theorem get?_joinedEntries (row : Row) (table : Text) {name : ColumnName} (hname : name.Plain) :
    Mapping.get? (joinedEntries row table) name = Mapping.get? row name := by
  refine Mapping.get?_flatMap fun entry _ => ?_
  obtain ⟨own, v⟩ := entry
  cases own with
  | text bare =>
    have hne : ¬ColumnName.text (qualify table bare) = name := by
      rintro rfl
      exact qualify_ne_of_plain hname table bare rfl
    dsimp only
    split
    · rw [Mapping.get?_cons, Mapping.get?_nil]
    · rw [Mapping.get?_cons, Mapping.get?_cons, if_neg hne, Mapping.get?_nil]
  | _ => rw [Mapping.get?_cons, Mapping.get?_nil]

/-! ## Rows of tables -/

/-- What a cell brings into a joined row: itself, and after a text the same under the qualified
name. -/
def bothNames (table : Text) (entry : ColumnName × Value) : List (ColumnName × Value) :=
  match entry.1 with
  | .text bare => [entry, (.text (qualify table bare), entry.2)]
  | _ => [entry]

/-- The names that a row brings are its own and, for each text among them, the qualified one. -/
theorem mem_names_flatMap_bothNames {row : Row} {table : Text} {name : ColumnName}
    (h : name ∈ Mapping.names (row.flatMap (bothNames table))) :
    name ∈ row.names ∨
      ∃ bare, ColumnName.text bare ∈ row.names ∧ name = .text (qualify table bare) := by
  rw [Mapping.names, List.map_flatMap, List.mem_flatMap] at h
  obtain ⟨⟨own, v⟩, hentry, hname⟩ := h
  have hown : own ∈ row.names := List.mem_map_of_mem hentry
  cases own with
  | text bare =>
    rcases List.mem_cons.mp hname with rfl | hname
    · exact .inl hown
    · exact .inr ⟨bare, hown, List.mem_singleton.mp hname⟩
  | _ => exact .inl (List.mem_singleton.mp hname ▸ hown)

section

variable {row : Row} (hplain : row.Plain) (table : Text)
include hplain

/-- A row without dots has no qualified names. -/
theorem qualifiedNames_of_plain : qualifiedNames row = [] := by
  rw [qualifiedNames, List.filterMap_eq_nil_iff]
  intro name hname
  cases name with
  | text name =>
    dsimp only
    rw [splitQualified?_of_plain (hplain (.text name) hname), Option.map_none]
  | _ => rfl

/-- A row without dots brings each of its cells under both names. -/
theorem joinedEntries_of_plain : joinedEntries row table = row.flatMap (bothNames table) := by
  rw [joinedEntries, qualifiedNames_of_plain hplain]
  refine List.flatMap_congr fun entry hentry => ?_
  obtain ⟨name, v⟩ := entry
  cases name with
  | text bare =>
    have hbare : RelStore.Plain bare := hplain (.text bare) (List.mem_map_of_mem hentry)
    have hnone : (bare.contains (.char '.') || ([] : List Text).contains bare) = false := by
      rw [Bool.or_eq_false_iff, List.contains_eq_mem, decide_eq_false_iff_not]
      exact ⟨hbare, rfl⟩
    dsimp only [bothNames]
    rw [hnone]
    rfl
  | _ => rfl

/-- Under a qualified name, a row without dots brings its cell if the table is its own. -/
theorem get?_flatMap_bothNames (other : Text) {column : Text} (hcolumn : RelStore.Plain column) :
    Mapping.get? (row.flatMap (bothNames table)) (.text (qualify other column)) =
      if table = other then Mapping.get? row (.text column) else none := by
  induction row with
  | nil => rw [List.flatMap_nil, Mapping.get?_nil, Mapping.get?_nil, ite_self]
  | cons entry rest ih =>
    have hrest := ih fun name hname => hplain name (List.mem_cons_of_mem _ hname)
    obtain ⟨name, v⟩ := entry
    rw [List.flatMap_cons, Mapping.get?_append, hrest, Mapping.get?_cons]
    cases name with
    | text bare =>
      have hbare : RelStore.Plain bare := hplain (.text bare) List.mem_cons_self
      have hne : ¬ColumnName.text bare = .text (qualify other column) := by
        rintro ⟨⟩
        exact qualify_ne_of_plain hbare other column rfl
      have hqualified : ColumnName.text (qualify table bare) = .text (qualify other column) ↔
          table = other ∧ bare = column := by
        rw [ColumnName.text.injEq, qualify_inj hbare hcolumn]
      have hsame : ColumnName.text bare = .text column ↔ bare = column := by
        rw [ColumnName.text.injEq]
      dsimp only [bothNames]
      rw [Mapping.get?_cons, if_neg hne, Mapping.get?_cons, if_congr hqualified rfl rfl,
        if_congr hsame rfl rfl, Mapping.get?_nil]
      by_cases htable : table = other <;> by_cases heq : bare = column <;> simp [htable, heq]
    | _ =>
      simp only [bothNames, Mapping.get?_cons, Mapping.get?_nil, reduceCtorEq, if_false,
        Option.none_or]

/-- A row without dots brings no name twice. -/
theorem nodup_names_flatMap_bothNames (hnodup : row.names.Nodup) :
    (Mapping.names (row.flatMap (bothNames table))).Nodup := by
  induction row with
  | nil => exact List.nodup_nil
  | cons entry rest ih =>
    obtain ⟨hnot, hrestNodup⟩ := List.nodup_cons.mp hnodup
    have hrestPlain : Row.Plain rest := fun name hname => hplain name (List.mem_cons_of_mem _ hname)
    obtain ⟨name, v⟩ := entry
    rw [List.flatMap_cons, Mapping.names, List.map_append, List.nodup_append']
    refine ⟨?_, ih hrestPlain hrestNodup, fun other hother hlater => ?_⟩
    · cases name with
      | text bare =>
        have hbare : RelStore.Plain bare := hplain (.text bare) List.mem_cons_self
        refine List.nodup_cons.mpr ⟨fun hmem => ?_, List.nodup_singleton _⟩
        have heq : bare = qualify table bare := ColumnName.text.inj (List.mem_singleton.mp hmem)
        exact qualify_ne_of_plain hbare table bare heq.symm
      | _ => exact List.nodup_singleton _
    · have hcases := mem_names_flatMap_bothNames hlater
      -- A name that comes again would be one of the other cells or be qualified like one.
      cases name with
      | text bare =>
        have hbare : RelStore.Plain bare := hplain (.text bare) List.mem_cons_self
        rcases List.mem_cons.mp hother with rfl | hother
        · rcases hcases with hrest | ⟨own, -, heq⟩
          · exact hnot hrest
          · exact qualify_ne_of_plain hbare table own (ColumnName.text.inj heq).symm
        · obtain rfl := List.mem_singleton.mp hother
          rcases hcases with hrest | ⟨own, hown, heq⟩
          · exact qualify_ne_of_plain (hrestPlain _ hrest) table bare rfl
          · have hnames := ColumnName.text.inj heq
            have hsame := (qualify_inj hbare (hrestPlain (.text own) hown)).mp hnames
            exact hnot (hsame.2 ▸ hown)
      | _ =>
        obtain rfl := List.mem_singleton.mp hother
        rcases hcases with hrest | ⟨_, -, heq⟩
        · exact hnot hrest
        · cases heq

/-- A row of a table comes into a joined row with its cells under both names. -/
theorem holds_joinedEntries (hnodup : row.names.Nodup) :
    Holds [(table, row)] (joinedEntries row table) := by
  have hsource (other : Text) : Mapping.get? [(table, row)] other =
      if table = other then some row else none := Mapping.get?_cons _ _ _
  refine ⟨?_, fun other column hcolumn => ?_, fun column hcolumn => ?_⟩
  · rw [joinedEntries_of_plain hplain]
    exact nodup_names_flatMap_bothNames hplain table hnodup
  · rw [joinedEntries_of_plain hplain, get?_flatMap_bothNames hplain table other hcolumn, hsource]
    split <;> rfl
  · rw [get?_joinedEntries row table (show (ColumnName.text column).Plain from hcolumn)]
    constructor
    · exact fun hcell => ⟨table, row, by rw [hsource, if_pos rfl], hcell⟩
    · rintro ⟨other, source, hother, hcell⟩
      rw [hsource] at hother
      split at hother
      · cases hother
        exact hcell
      · cases hother

end

/-- A joined row comes into the next joined row as it is, since its bare names are all qualified. -/
theorem Holds.joinedEntries_eq {sources : Mapping Text Row} {row : Row} (h : Holds sources row)
    (table : Text) : joinedEntries row table = row := by
  have hself : (row.flatMap fun entry => [entry]) = row := List.flatMap_singleton' row
  conv_rhs => rw [← hself]
  refine List.flatMap_congr fun entry hentry => ?_
  obtain ⟨name, v⟩ := entry
  have hname : name ∈ row.names := List.mem_map_of_mem hentry
  cases name with
  | text bare =>
    have hstays : (bare.contains (.char '.') || (qualifiedNames row).contains bare) = true := by
      rw [Bool.or_eq_true, List.contains_eq_mem, List.contains_eq_mem, decide_eq_true_iff,
        decide_eq_true_iff]
      by_cases hbare : CodePoint.char '.' ∈ bare
      · exact .inl hbare
      · -- Some source has a cell of the name, and the row has it under the qualified name.
        obtain ⟨other, source, hsource, hcell⟩ :=
          (h.isSome_get?_iff bare hbare).mp (Mapping.isSome_get?_iff.mpr hname)
        have hqualified : ColumnName.text (qualify other bare) ∈ row.names := by
          rw [← Mapping.isSome_get?_iff, h.get?_qualify other bare hbare, hsource,
            Option.bind_some]
          exact hcell
        refine .inr (List.mem_filterMap.mpr ⟨_, hqualified, ?_⟩)
        dsimp only
        rw [splitQualified?_qualify other hbare, Option.map_some]
    dsimp only
    rw [hstays, if_pos rfl]
  | _ => rfl

end RelStore
