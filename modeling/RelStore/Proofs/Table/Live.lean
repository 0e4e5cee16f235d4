import Mathlib.Data.List.Basic
import Mathlib.Logic.Function.Basic
import RelStore.Table

/-!
# The live rows of a table

The rows of a table are a list with empty positions. As a function from positions (`rowAt`), it is
updated by appending a row and by setting a position (`rowAt_append`, `rowAt_set`); as a list, its
live rows come with their positions in ascending order (`mem_live_iff`, `live_ascending`).
-/

namespace RelStore.Table

/-- The row at a position of a list of rows, if there is one. -/
def rowAt (rows : List (Option Row)) (position : Nat) : Option Row := (rows[position]?).join

/-- The rows of a list that are not deleted, each with its position. -/
def liveOf (rows : List (Option Row)) : List (Nat × Row) :=
  rows.zipIdx.filterMap fun (row, position) => row.map fun row => (position, row)

/-! ## Rows by position -/

/-- The row of a table at a position is that of its list. -/
theorem row?_eq (table : Table) : table.row? = rowAt table.rows := rfl

/-- A position with a row is one of the list. -/
theorem lt_length_of_rowAt {rows : List (Option Row)} {p : Nat} {row : Row}
    (h : rowAt rows p = some row) : p < rows.length := by
  by_contra hge
  rw [rowAt, List.getElem?_eq_none (by omega)] at h
  cases h

/-- Past the end of a list there is no row. -/
theorem rowAt_of_length_le {rows : List (Option Row)} {p : Nat} (h : rows.length ≤ p) :
    rowAt rows p = none := by
  rw [rowAt, List.getElem?_eq_none h]
  rfl

/-- Appending to a list gives the next position a row. -/
theorem rowAt_append (rows : List (Option Row)) (row? : Option Row) :
    rowAt (rows ++ [row?]) = Function.update (rowAt rows) rows.length row? := by
  funext p
  rcases Nat.lt_trichotomy p rows.length with hlt | rfl | hgt
  · rw [Function.update_of_ne (Nat.ne_of_lt hlt), rowAt, List.getElem?_append_left hlt, rowAt]
  · rw [Function.update_self, rowAt, List.getElem?_append_right (Nat.le_refl _), Nat.sub_self]
    cases row? <;> rfl
  · have hlength : (rows ++ [row?]).length ≤ p := by
      rw [List.length_append, List.length_singleton]
      omega
    rw [Function.update_of_ne (Nat.ne_of_gt hgt), rowAt_of_length_le hlength,
      rowAt_of_length_le (Nat.le_of_lt hgt)]

/-- Setting a position of a list gives it a row, or takes the row from it. -/
theorem rowAt_set {rows : List (Option Row)} {p : Nat} (hp : p < rows.length)
    (row? : Option Row) : rowAt (rows.set p row?) = Function.update (rowAt rows) p row? := by
  funext q
  by_cases hq : q = p
  · rw [hq, Function.update_self, rowAt, List.getElem?_set_self hp]
    cases row? <;> rfl
  · rw [Function.update_of_ne hq, rowAt, List.getElem?_set_ne (Ne.symm hq), rowAt]

/-- A list without empty positions has a row at each of its own. -/
theorem rowAt_map_some (rows : List Row) (p : Nat) : rowAt (rows.map some) p = rows[p]? := by
  rw [rowAt, List.getElem?_map]
  cases rows[p]? <;> rfl

/-! ## Lists of live rows -/

/-- A list with one more position has one more live row, if there is a row at it. -/
theorem liveOf_append (rows : List (Option Row)) (row? : Option Row) :
    liveOf (rows ++ [row?]) = liveOf rows ++ (row?.map fun row => (rows.length, row)).toList := by
  rw [liveOf, List.zipIdx_append, List.filterMap_append, ← liveOf]
  cases row? <;> simp

/-- The live rows are those at some position. -/
theorem mem_live_iff {table : Table} {p : Nat} {row : Row} :
    (p, row) ∈ table.live ↔ table.row? p = some row := by
  rw [live, List.mem_filterMap, row?_eq, rowAt, Option.join_eq_some_iff]
  constructor
  · rintro ⟨⟨row?, q⟩, hmem, heq⟩
    obtain ⟨_, rfl, heq⟩ := Option.map_eq_some_iff.mp heq
    cases heq
    exact List.mk_mem_zipIdx_iff_getElem?.mp hmem
  · intro h
    exact ⟨(some row, p), List.mk_mem_zipIdx_iff_getElem?.mpr h, rfl⟩

/-- The live rows come in the order of their positions. -/
theorem live_ascending (table : Table) : (table.live.map Prod.fst).Pairwise (· < ·) := by
  rw [live, List.map_filterMap]
  -- All positions ascend, and those of live rows are some of them in the same order.
  have hpositions : (table.rows.zipIdx.map Prod.snd).Pairwise (· < ·) := by
    rw [List.zipIdx_map_snd]
    exact List.pairwise_lt_range'
  rw [List.pairwise_filterMap]
  refine (List.pairwise_map.mp hpositions).imp fun {a b} hlt x hx y hy => ?_
  obtain ⟨_, _, rfl⟩ : ∃ row, a.1 = some row ∧ a.2 = x := by
    obtain ⟨row?, p⟩ := a
    cases row? with
    | none => cases hx
    | some row => exact ⟨row, rfl, Option.some.inj hx⟩
  obtain ⟨_, _, rfl⟩ : ∃ row, b.1 = some row ∧ b.2 = y := by
    obtain ⟨row?, p⟩ := b
    cases row? with
    | none => cases hy
    | some row => exact ⟨row, rfl, Option.some.inj hy⟩
  exact hlt

/-- The positions of some of the live rows ascend. -/
theorem filter_live_ascending (table : Table) (keep : Nat × Row → Bool) :
    ((table.live.filter keep).map Prod.fst).Pairwise (· < ·) :=
  table.live_ascending.sublist (List.filter_sublist.map _)

/-- The positions of some of the live rows are those that have one of them. -/
theorem mem_filter_live_iff {table : Table} {keep : Nat × Row → Bool} {p : Nat} :
    p ∈ (table.live.filter keep).map Prod.fst ↔
      ∃ row, table.row? p = some row ∧ keep (p, row) = true := by
  rw [List.mem_map]
  constructor
  · rintro ⟨⟨p, row⟩, hitem, rfl⟩
    obtain ⟨hlive, hkeep⟩ := List.mem_filter.mp hitem
    exact ⟨row, mem_live_iff.mp hlive, hkeep⟩
  · rintro ⟨row, hrow, hkeep⟩
    exact ⟨(p, row), List.mem_filter.mpr ⟨mem_live_iff.mpr hrow, hkeep⟩, rfl⟩

/-- The list of live rows is that of rows with positions, without the positions. -/
theorem map_snd_live (table : Table) : table.live.map Prod.snd = table.liveRows := by
  rw [live, liveRows, List.map_filterMap]
  -- Positions may count up from any number, as the induction needs.
  generalize hn : 0 = n
  clear hn
  induction table.rows generalizing n with
  | nil => rfl
  | cons row? rest ih =>
    rw [List.zipIdx_cons, List.filterMap_cons, List.filterMap_cons, ih]
    cases row? <;> rfl

/-- The live rows of a list without empty positions are the rows. -/
theorem liveRows_of_rows {table : Table} {rows : List Row} (h : table.rows = rows.map some) :
    table.liveRows = rows := by
  rw [liveRows, h, List.filterMap_map]
  exact List.filterMap_some

/-- A new row is the last of the live rows. -/
theorem liveRows_append (table : Table) (row : Row) :
    (table.append row).liveRows = table.liveRows ++ [row] := by
  rw [liveRows, append, List.filterMap_append]
  rfl

/-- All positions less the empty ones are those of live rows. -/
theorem rowCount_eq (table : Table) : table.rowCount = table.live.length := by
  -- Every position either has a live row or is empty.
  have hcount : table.rows.length = table.liveRows.length + table.rows.countP Option.isNone := by
    rw [liveRows]
    induction table.rows with
    | nil => rfl
    | cons row? rest ih =>
      cases row? with
      | none =>
        rw [List.filterMap_cons_none rfl, List.countP_cons_of_pos rfl, List.length_cons, ih]
        omega
      | some row =>
        have hcons : (some row :: rest).filterMap id = row :: rest.filterMap id := rfl
        rw [hcons, List.countP_cons_of_neg (by simp), List.length_cons, List.length_cons, ih]
        omega
  calc table.rowCount = table.rows.length - table.rows.countP Option.isNone := rfl
    _ = table.liveRows.length := by omega
    _ = table.live.length := by rw [← map_snd_live, List.length_map]

end RelStore.Table
