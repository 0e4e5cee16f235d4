import Mathlib.Data.List.Nodup
import Mathlib.Logic.Function.Basic
import RelStore.Proofs.BTree.Multimap

/-!
# Index trees over rows

A tree covers a column of some rows when the positions under a key are those of the rows whose cell
is the same key (`Covers`). The rows are given as a function from positions, so that adding one and
taking one away are updates of the function, which insertion and erasure follow
(`Covers.insert`, `Covers.erase`). Every row is then in the tree once (`Covers.count_positions`).

Whether two rows share a key (`Shares`) is asked of the tree one row at a time
(`Covers.has_iff`, `shares_update_iff`).
-/

namespace RelStore.Table

open BTree (Entry Valid sameKey)

/-- A tree holds the positions of the rows under the keys in their cells of a column. -/
structure Covers (type : DataType) (column : Text) (rows : Nat → Option Row) (tree : BTree Nat) :
    Prop where
  /-- The tree is valid. -/
  valid : Valid type.keys tree
  /-- The positions under a key are those of the rows with the same key in their cells. -/
  mem_search : ∀ k ∈ type.keys, ∀ p, p ∈ tree.search k ↔
    ∃ row, rows p = some row ∧ sameKey k (row.cell column) = true

namespace Covers

variable {type : DataType} {column : Text} {rows : Nat → Option Row} {tree : BTree Nat}

/-- The tree without keys covers no rows. -/
theorem empty (degree : BTree.Order) :
    Covers type column (fun _ => none) (BTree.empty degree) where
  valid := BTree.empty_valid degree
  mem_search := fun k hk p => by
    rw [(BTree.empty_valid degree).search_eq type.keys_totalPreorder hk]
    exact ⟨nofun, fun ⟨_, h, _⟩ => nomatch h⟩

variable (h : Covers type column rows tree)
include h

/-- Rows at the same positions with the same cells are covered alike. -/
theorem congr {rows' : Nat → Option Row}
    (hcells : ∀ p, (rows' p).map (·.cell column) = (rows p).map (·.cell column)) :
    Covers type column rows' tree := by
  refine ⟨h.valid, fun k hk p => ?_⟩
  rw [h.mem_search k hk p]
  have hmap (row? : Option Row) : (∃ row, row? = some row ∧ sameKey k (row.cell column) = true) ↔
      ∃ v, row?.map (·.cell column) = some v ∧ sameKey k v = true := by
    cases row? <;> simp
  rw [hmap, hmap, hcells]

/-- A tree has a key when the cell of a row is the same key. -/
theorem has_iff {k : Value} (hk : k ∈ type.keys) :
    tree.has k = true ↔ ∃ p row, rows p = some row ∧ sameKey k (row.cell column) = true := by
  rw [h.valid.has_iff type.keys_totalPreorder hk, List.ne_nil_iff_exists_cons]
  constructor
  · rintro ⟨p, rest, hsearch⟩
    have hmem : p ∈ tree.search k := hsearch ▸ List.mem_cons_self
    exact ⟨p, (h.mem_search k hk p).mp hmem⟩
  · rintro ⟨p, hrow⟩
    have hmem : p ∈ tree.search k := (h.mem_search k hk p).mpr hrow
    exact List.exists_cons_of_ne_nil (List.ne_nil_of_mem hmem)

variable {p : Nat} {row : Row}

/-- Inserting the key of a row at a free position covers the row as well. -/
theorem insert (hp : rows p = none) (hcell : row.cell column ∈ type.keys) :
    Covers type column (Function.update rows p (some row)) (tree.insert (row.cell column) p) := by
  have order := type.keys_totalPreorder
  refine ⟨BTree.insert_valid order h.valid hcell p, fun k hk q => ?_⟩
  -- What is under a key after the insertion, in terms of what was there before.
  have hmem : q ∈ (tree.insert (row.cell column) p).search k ↔
      q ∈ tree.search k ∨ (sameKey k (row.cell column) = true ∧ q = p) := by
    rw [BTree.search_insert order h.valid hcell p hk]
    split
    · next hsame => rw [BTree.mem_addPosition, and_iff_right hsame]
    · next hne => exact ⟨.inl, fun hor => hor.resolve_right fun hand => hne hand.1⟩
  rw [hmem, h.mem_search k hk q]
  by_cases hq : q = p
  · rw [hq, hp, Function.update_self]
    constructor
    · rintro (⟨_, hnone, -⟩ | ⟨hsame, -⟩)
      · cases hnone
      · exact ⟨row, rfl, hsame⟩
    · rintro ⟨_, hsome, hsame⟩
      cases hsome
      exact .inr ⟨hsame, rfl⟩
  · rw [Function.update_of_ne hq]
    exact ⟨fun hor => hor.resolve_right fun hand => hq hand.2, .inl⟩

/-- Erasing the key of a row uncovers the row. -/
theorem erase (hp : rows p = some row) (hcell : row.cell column ∈ type.keys) :
    Covers type column (Function.update rows p none) (tree.erase (row.cell column) p) := by
  have order := type.keys_totalPreorder
  refine ⟨BTree.erase_valid order h.valid hcell p, fun k hk q => ?_⟩
  -- What is under a key after the erasure, in terms of what was there before.
  have hmem : q ∈ (tree.erase (row.cell column) p).search k ↔
      q ∈ tree.search k ∧ ¬(sameKey k (row.cell column) = true ∧ q = p) := by
    rw [BTree.search_erase order h.valid hcell p hk]
    split
    · next hsame =>
      rw [(h.valid.search_nodup k).mem_erase_iff, and_iff_right hsame]
      exact and_comm
    · next hne => exact ⟨fun hq => ⟨hq, fun hand => hne hand.1⟩, And.left⟩
  rw [hmem, h.mem_search k hk q]
  by_cases hq : q = p
  · rw [hq, hp, Function.update_self]
    constructor
    · rintro ⟨⟨_, hsome, hsame⟩, hnot⟩
      cases hsome
      exact absurd ⟨hsame, rfl⟩ hnot
    · rintro ⟨_, hnone, -⟩
      cases hnone
  · rw [Function.update_of_ne hq]
    exact ⟨And.left, fun hrow => ⟨hrow, fun hand => hq hand.2⟩⟩

/-- Erasing the key of a row and inserting that of another one covers the other one in its place. -/
theorem replace {row' : Row} (hp : rows p = some row) (hcell : row.cell column ∈ type.keys)
    (hcell' : row'.cell column ∈ type.keys) :
    Covers type column (Function.update rows p (some row'))
      ((tree.erase (row.cell column) p).insert (row'.cell column) p) := by
  have hinsert := (h.erase hp hcell).insert (Function.update_self p none rows) hcell'
  rw [Function.update_idem] at hinsert
  exact hinsert

omit p row in
/-- A position is in an entry when its row has the entry's key in its cell. -/
theorem mem_positions_iff {entry : Entry Nat} (hentry : entry ∈ tree.entries) {p : Nat} :
    p ∈ entry.positions ↔
      ∃ row, rows p = some row ∧ sameKey entry.key (row.cell column) = true := by
  rw [BTree.entries_eq_toList] at hentry
  have hkey := h.valid.wellKept.mem_keys entry hentry
  rw [← h.valid.positionsOf_key hentry, ← h.valid.search_eq type.keys_totalPreorder hkey,
    h.mem_search _ hkey]

/-- A row at a position that a search gives has the key in its cell, whatever literal that orders
like the column is looked for. -/
theorem sameKey_of_mem_search {v : Value} (hordered : Table.sameOrdering v type = true)
    (hsearch : p ∈ tree.search v) (hrow : rows p = some row)
    (hcell : row.cell column ∈ type.keys) : sameKey v (row.cell column) = true := by
  rw [BTree.search] at hsearch
  cases hfind : BTree.Node.find? v tree.depth tree.root with
  | none =>
    rw [hfind] at hsearch
    cases hsearch
  | some entry =>
    rw [hfind] at hsearch
    have hentry : entry ∈ tree.toList := BTree.Node.mem_of_find? hfind
    have hkey := h.valid.wellKept.mem_keys entry hentry
    rw [← BTree.entries_eq_toList] at hentry
    obtain ⟨other, hother, hsame⟩ := (h.mem_positions_iff hentry).mp hsearch
    obtain rfl : row = other := Option.some.inj (hrow.symm.trans hother)
    exact DataType.sameKey_of_sameOrdering hordered hkey hcell
      (BTree.Node.sameKey_of_find? hfind) hsame

section

variable (hcells : ∀ p row, rows p = some row → row.cell column ∈ type.keys)
include hcells

omit p row in
/-- No position occurs twice in the entries. -/
theorem nodup_positions : (tree.entries.flatMap Entry.positions).Nodup := by
  have order := type.keys_totalPreorder
  have hkept := h.valid.wellKept
  rw [← BTree.entries_eq_toList] at hkept
  refine List.nodup_flatMap.mpr ⟨hkept.positions_nodup, ?_⟩
  refine hkept.ascending.imp_of_mem fun {a b} ha hb hlt q hqa hqb => ?_
  -- A position in two entries would have a cell that is the same as two keys in order.
  obtain ⟨row, hrow, hsamea⟩ := (h.mem_positions_iff ha).mp hqa
  obtain ⟨row', hrow', hsameb⟩ := (h.mem_positions_iff hb).mp hqb
  obtain rfl : row = row' := Option.some.inj (hrow.symm.trans hrow')
  have hka := hkept.mem_keys a ha
  have hkb := hkept.mem_keys b hb
  rw [order.congr_left hka (hcells q row hrow) hkb (Value.sameKey_iff.mp hsamea),
    Value.compare_swap, Value.sameKey_iff.mp hsameb] at hlt
  cases hlt

omit p row in
/-- A position occurs in the entries when it has a row. -/
theorem mem_flatMap_positions_iff (p : Nat) :
    p ∈ tree.entries.flatMap Entry.positions ↔ (rows p).isSome = true := by
  rw [List.mem_flatMap]
  constructor
  · rintro ⟨entry, hentry, hp⟩
    obtain ⟨row, hrow, -⟩ := (h.mem_positions_iff hentry).mp hp
    exact Option.isSome_iff_exists.mpr ⟨row, hrow⟩
  · intro hsome
    -- The row's cell is a key that is searched for with success, so it has an entry.
    obtain ⟨row, hrow⟩ := Option.isSome_iff_exists.mp hsome
    have hcell := hcells p row hrow
    have hsearch : p ∈ tree.search (row.cell column) :=
      (h.mem_search _ hcell p).mpr ⟨row, hrow, Value.sameKey_self _⟩
    obtain ⟨entry, hentry, hsame⟩ :=
      h.valid.exists_entry type.keys_totalPreorder hcell (List.ne_nil_of_mem hsearch)
    rw [← BTree.entries_eq_toList] at hentry
    rw [Value.sameKey_comm] at hsame
    exact ⟨entry, hentry, (h.mem_positions_iff hentry).mpr ⟨row, hrow, hsame⟩⟩

omit p row in
/-- Every position with a row is in the entries once, and no other position is. -/
theorem count_positions (p : Nat) :
    (tree.entries.flatMap Entry.positions).count p = if (rows p).isSome then 1 else 0 := by
  rw [(h.nodup_positions hcells).count]
  exact if_congr (h.mem_flatMap_positions_iff hcells p) rfl rfl

end

end Covers

/-! ## Shared keys -/

/-- Two rows have the same key other than NULL in a column. -/
def Shares (rows : Nat → Option Row) (column : Text) : Prop :=
  ∃ p q row row', p ≠ q ∧ rows p = some row ∧ rows q = some row' ∧
    (row.cell column).isNull = false ∧ sameKey (row.cell column) (row'.cell column) = true

section

variable {rows : Nat → Option Row} {column : Text}

/-- No two of no rows share a key. -/
theorem not_shares_none : ¬Shares (fun _ => none) column := by
  rintro ⟨p, q, row, row', -, hrow, -⟩
  cases hrow

/-- Rows of which each has an equal cell in other rows share a key only where the others do. -/
theorem Shares.imp {rows' : Nat → Option Row} (h : Shares rows column)
    (hrows : ∀ p row, rows p = some row →
      ∃ row', rows' p = some row' ∧ row'.cell column = row.cell column) : Shares rows' column := by
  obtain ⟨p, q, row, row', hne, hrow, hrow', hnull, hsame⟩ := h
  obtain ⟨new, hnew, hcell⟩ := hrows p row hrow
  obtain ⟨new', hnew', hcell'⟩ := hrows q row' hrow'
  refine ⟨p, q, new, new', hne, hnew, hnew', ?_, ?_⟩
  · rw [hcell]
    exact hnull
  · rw [hcell, hcell']
    exact hsame

/-- With a new row, two rows share a key when two did before or the new one shares its own. -/
theorem shares_update_iff {p : Nat} (hp : rows p = none) (row : Row) :
    Shares (Function.update rows p (some row)) column ↔ Shares rows column ∨
      ((row.cell column).isNull = false ∧
        ∃ q row', rows q = some row' ∧ sameKey (row.cell column) (row'.cell column) = true) := by
  have hold {q : Nat} {old : Row} (hq : rows q = some old) :
      q ≠ p ∧ Function.update rows p (some row) q = some old := by
    have hne : q ≠ p := by
      rintro rfl
      rw [hp] at hq
      cases hq
    exact ⟨hne, by rw [Function.update_of_ne hne, hq]⟩
  constructor
  · rintro ⟨a, b, rowa, rowb, hne, hrowa, hrowb, hnull, hsame⟩
    -- At most one of the two rows is the new one; the other one was there before.
    by_cases ha : a = p
    · subst ha
      rw [Function.update_self] at hrowa
      rw [Function.update_of_ne hne.symm] at hrowb
      cases hrowa
      exact .inr ⟨hnull, b, rowb, hrowb, hsame⟩
    · rw [Function.update_of_ne ha] at hrowa
      by_cases hb : b = p
      · subst hb
        rw [Function.update_self] at hrowb
        cases hrowb
        rw [Value.isNull_of_sameKey hsame] at hnull
        rw [Value.sameKey_comm] at hsame
        exact .inr ⟨hnull, a, rowa, hrowa, hsame⟩
      · rw [Function.update_of_ne hb] at hrowb
        exact .inl ⟨a, b, rowa, rowb, hne, hrowa, hrowb, hnull, hsame⟩
  · rintro (⟨a, b, rowa, rowb, hne, hrowa, hrowb, hshare⟩ | ⟨hnull, q, row', hq, hsame⟩)
    · exact ⟨a, b, rowa, rowb, hne, (hold hrowa).2, (hold hrowb).2, hshare⟩
    · exact ⟨p, q, row, row', (hold hq).1.symm, Function.update_self .., (hold hq).2, hnull, hsame⟩

end

end RelStore.Table
