import RelStore.Database
import RelStore.Proofs.Outcome

/-!
# Joined rows and their sources

A joined row is made of rows of tables, at most one of each. The joins of a query are carried out
here with every row kept beside its sources (`traceTables`); without the sources the rows are those
that the query works on (`joinTables_eq_trace`). What a statement reads in a row under a qualified
reference, at any of the four places where it may refer to a column, is put into one notion
(`Row.Reads`).
-/

namespace RelStore

open Sql (Join JoinColumn JoinKind SortKey)

/-- A row that a query works on, with the rows of tables that have contributed to it by the names of
the tables. -/
structure Traced where
  /-- The row. -/
  row : Row
  /-- The rows that have contributed to it. -/
  sources : Mapping Text Row

/-- One side of a join with the sources of its rows. -/
structure TracedSide where
  /-- The rows. -/
  rows : List Traced
  /-- The table that qualifies the bare names of the rows. -/
  table : Text
  /-- The column that is compared. -/
  column : JoinColumn

/-- A row of a table is its own source. -/
def Traced.ofRow (table : Text) (row : Row) : Traced := ⟨row, [(table, row)]⟩

/-- A side of a join without the sources. -/
def TracedSide.side (side : TracedSide) : JoinSide :=
  ⟨side.rows.map (·.row), side.table, side.column⟩

/-- Puts a left row and, when there is one, a right row into a joined row, to which the sources of
both have contributed. -/
def Traced.combine (left : Traced) (leftTable : Text) (right : Option Traced) (rightTable : Text) :
    Traced :=
  ⟨RelStore.combine left.row leftTable (right.map (·.row)) rightTable,
    left.sources ++ (right.map (·.sources)).getD []⟩

/-- The joined rows of one left row. -/
def traceRow (left right : TracedSide) (keepUnmatched : Bool) (l : Traced) : List Traced :=
  match right.rows.filter fun r => partners left.side right.side l.row r.row with
  | [] => if keepUnmatched then [l.combine left.table none right.table] else []
  | matched => matched.map fun r => l.combine left.table (some r) right.table

/-- The joined rows of two sides. -/
def traceLeft (left right : TracedSide) (keepUnmatched : Bool) : List Traced :=
  left.rows.flatMap (traceRow left right keepUnmatched)

/-- The joined rows of two sides, the sides exchanged to keep the right rows. -/
def traceJoin (kind : JoinKind) (left right : TracedSide) : List Traced :=
  match kind with
  | .inner => traceLeft left right false
  | .left => traceLeft left right true
  | .right => traceLeft right left true

/-- The side of a table that is joined. -/
def TracedSide.ofTable (clause : Join) (table : Table) : TracedSide :=
  ⟨table.liveRows.map (.ofRow clause.table), clause.table, clause.right⟩

/-- Rows joined with one table after the other. -/
def traceTables (base : Text) (rows : List Traced) : List (Join × Table) → List Traced
  | [] => rows
  | (clause, table) :: rest =>
    traceTables base (traceJoin clause.kind ⟨rows, base, clause.left⟩ (.ofTable clause table)) rest

/-! ## The rows of a query -/

/-- The joined rows of a left row are those without the sources. -/
theorem joinRow_eq_trace (left right : TracedSide) (keepUnmatched : Bool) (l : Traced) :
    joinRow left.side right.side keepUnmatched l.row =
      (traceRow left right keepUnmatched l).map (·.row) := by
  have hpartners : right.side.rows.filter (partners left.side right.side l.row) =
      (right.rows.filter fun r => partners left.side right.side l.row r.row).map (·.row) := by
    have hrows : right.side.rows = right.rows.map (·.row) := rfl
    rw [hrows, List.filter_map]
    rfl
  unfold joinRow traceRow
  rw [hpartners]
  cases right.rows.filter fun r => partners left.side right.side l.row r.row with
  | nil => cases keepUnmatched <;> rfl
  | cons r rest =>
    rw [List.map_map, List.map_cons]
    dsimp only
    rw [List.map_cons, List.map_cons, List.map_map]
    rfl

/-- The joined rows of two sides are those without the sources. -/
theorem joinLeft_eq_trace {left right : TracedSide} {keepUnmatched : Bool} {rows : List Row}
    (h : joinLeft left.side right.side keepUnmatched = .ok rows) :
    rows = (traceLeft left right keepUnmatched).map (·.row) := by
  unfold joinLeft at h
  split at h
  · cases h
  · have hrows : left.side.rows.flatMap (joinRow left.side right.side keepUnmatched) = rows :=
      Except.ok.inj h
    have hleft : left.side.rows = left.rows.map (·.row) := rfl
    rw [← hrows, hleft, List.flatMap_map, traceLeft, List.map_flatMap]
    refine congrArg (left.rows.flatMap ·) (funext fun l => ?_)
    exact joinRow_eq_trace left right keepUnmatched l

/-- The joined rows of two sides are those without the sources, for every kind of join. -/
theorem join_eq_trace {kind : JoinKind} {left right : TracedSide} {rows : List Row}
    (h : join kind left.side right.side = .ok rows) :
    rows = (traceJoin kind left right).map (·.row) := by
  cases kind with
  | inner => exact joinLeft_eq_trace h
  | left => exact joinLeft_eq_trace h
  | right => exact joinLeft_eq_trace h

/-- The joined rows of a query are those without the sources. -/
theorem joinTables_eq_trace {base : Text} {rows : List Traced} {joined : List (Join × Table)}
    {out : List Row} (h : Database.joinTables base (rows.map (·.row)) joined = .ok out) :
    out = (traceTables base rows joined).map (·.row) := by
  induction joined generalizing rows with
  | nil => exact (Except.ok.inj h).symm
  | cons first rest ih =>
    obtain ⟨clause, table⟩ := first
    obtain ⟨next, hnext, hrest⟩ := Outcome.bind_eq_ok.mp h
    -- The joined table is a side whose rows are their own sources.
    have hright : (TracedSide.ofTable clause table).side =
        ⟨table.liveRows, clause.table, clause.right⟩ := by
      rw [TracedSide.side, TracedSide.ofTable, List.map_map]
      simp [Traced.ofRow, Function.comp_def]
    have hleft : TracedSide.side ⟨rows, base, clause.left⟩ =
        ⟨rows.map (·.row), base, clause.left⟩ := rfl
    rw [← hright, ← hleft] at hnext
    rw [join_eq_trace hnext] at hrest
    exact ih hrest

/-! ## What a statement reads -/

/-- What a statement reads in a row for the column of a table, wherever it refers to the column by
the qualified reference: in a condition and by a sort key, where nothing counts as NULL; in the list
of its columns, where nothing is left out; and on a side of a join. -/
structure Row.Reads (row : Row) (table column : Text) (value? : Option Value) : Prop where
  /-- The subject of a condition on the column. -/
  condition : ∀ condition : Condition, condition.column = qualify table column →
    condition.subject row = value?.getD .null
  /-- The value by which a sort key on the column ranks the row. -/
  sortKey : ∀ key : SortKey, key.column = qualify table column →
    key.valueIn row = value?.getD .null
  /-- The cell in an answer that asks for the column. -/
  projection : ∀ columns : List Text, qualify table column ∈ columns →
    Mapping.get? (projectRow columns row) (.text (qualify table column)) = value?
  /-- The value that is compared when the column stands in the condition of a join. -/
  joinKey : joinKey? row ⟨some table, column⟩ = value?

end RelStore
