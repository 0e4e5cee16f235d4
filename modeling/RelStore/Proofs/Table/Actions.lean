import RelStore.Proofs.BTree.Comparing
import RelStore.Proofs.Table.Building
import RelStore.Table.Actions

/-!
# Operations on consistent tables are all or nothing

Carried out step by step, an operation on a consistent table ends as the function of `Table` says
that gives the new table or an error, and a failure leaves the table as it was
(`Action.settled`). The checks of an operation come before its first change, so what has to be shown
is that the changes do not fail. They put keys into indexes and take them out, and in a consistent
table the keys of an index are of the type of its column, as are the cells of the rows, so that they
can be compared (`Index.linkM_on`, `Index.unlinkM_on`). An operation that changes row after row
keeps the table consistent from one to the next.
-/

namespace RelStore

/-- Keys of the type of a column meet those of its tree. -/
theorem BTree.Valid.meets {type : DataType} {tree : BTree Nat} (h : tree.Valid type.keys)
    {key : Value} (hkey : key ∈ type.keys) : Meets key (Node.toList tree.depth tree.root) :=
  meets_of_mem (fun _ ha _ hb => DataType.isComparable_of_mem_keys ha hb) hkey
    h.wellKept.mem_keys

namespace Index

variable {type : DataType} {index : Index} {row : Row}

/-- A row is linked whose cell is of the type of the index. -/
theorem linkM_on (hvalid : index.tree.Valid type.keys) (hcell : row.cell index.column ∈ type.keys)
    (p : Nat) : (linkM row p).on index = (.ok (), index.link row p) := by
  rw [linkM, Action.on_get_bind, onTree, Action.on_within,
    BTree.insertM_on (hvalid.meets hcell) p]
  rfl

/-- A row is unlinked whose cell is of the type of the index. -/
theorem unlinkM_on (hvalid : index.tree.Valid type.keys)
    (hcell : row.cell index.column ∈ type.keys) (p : Nat) :
    (unlinkM row p).on index = (.ok (), index.unlink row p) := by
  rw [unlinkM, Action.on_get_bind, onTree, Action.on_within,
    BTree.eraseM_on (hvalid.meets hcell) p]
  rfl

/-- The key of a row is replaced if both keys are of the type of the index. -/
theorem relinkM_on {assigned previous : Row} (hvalid : index.tree.Valid type.keys)
    (hold : previous.cell index.column ∈ type.keys) (hcell : row.cell index.column ∈ type.keys)
    (p : Nat) :
    (relinkM assigned previous row p).on index = (.ok (),
      if assigned.has index.column then (index.unlink previous p).link row p else index) := by
  rw [relinkM, Action.on_get_bind]
  split
  · have herased : (index.unlink previous p).tree.Valid type.keys :=
      BTree.erase_valid type.keys_totalPreorder hvalid hold p
    rw [Action.on_bind_of_ok (unlinkM_on hvalid hold p), linkM_on herased hcell]
  · rfl

/-- Rows are linked whose cells are of the type of the index. -/
theorem forM_linkM_on (hvalid : index.tree.Valid type.keys) {rows : List (Row × Nat)}
    (hcells : ∀ pair ∈ rows, pair.1.cell index.column ∈ type.keys) :
    Action.on (rows.forM fun (row, p) => linkM row p) index =
      (.ok (), rows.foldl (fun index (row, p) => index.link row p) index) := by
  induction rows generalizing index with
  | nil => rfl
  | cons pair rest ih =>
    obtain ⟨row, p⟩ := pair
    obtain ⟨hcell, hrest⟩ := List.forall_mem_cons.mp hcells
    have hlinked : (index.link row p).tree.Valid type.keys :=
      BTree.insert_valid type.keys_totalPreorder hvalid hcell p
    change Action.on (linkM row p >>= fun _ => rest.forM fun (row, p) => linkM row p) index = _
    rw [Action.on_bind_of_ok (linkM_on hvalid hcell p), ih hlinked hrest]
    rfl

/-- An index is built anew over rows whose cells are of its type. -/
theorem rebuildM_on {rows : List Row} (hcells : ∀ row ∈ rows, row.cell index.column ∈ type.keys) :
    (rebuildM rows).on index = (.ok (), Table.rebuild index rows) := by
  rw [rebuildM, Action.on_modify_bind]
  have hempty : ({ index with tree := index.tree.clear } : Index).tree.Valid type.keys :=
    BTree.empty_valid index.tree.order
  exact forM_linkM_on hempty fun pair hpair => hcells pair.1 (List.fst_mem_of_mem_zipIdx hpair)

end Index

namespace Table

variable {table : Table}

/-- The indexes become what an action makes of each, if it does not fail on any. -/
theorem onIndexes_on {act : Action Index Unit} {change : Index → Index}
    (h : ∀ index ∈ table.indexes, act.on index = (.ok (), change index)) :
    (onIndexes act).on table = (.ok (), { table with indexes := table.indexes.map change }) := by
  rw [onIndexes, Action.on_within, Action.each, Action.on_of, Action.onAll_eq_map h]

/-- An insertion is all or nothing. -/
theorem Consistent.insertCellsM_on (h : table.Consistent) (cells : Mapping ColumnName Cell) :
    (insertCellsM cells).on table = Action.settled table (table.insertCells cells) := by
  rw [insertCellsM, Action.on_get_bind]
  refine Action.on_lift_bind_settled fun bare hbare => ?_
  refine Action.on_lift_bind_settled fun row hnew => ?_
  have hfits := newRow_fits hnew
  cases hconflict : table.indexes.find? (·.conflicts row) with
  | some index => rfl
  | none =>
    -- Rows and counters are changed before the indexes, which are still those of the table.
    have hlink : (onIndexes (Index.linkM row table.rows.length)).on
        { table with
          rows := table.rows ++ [some row]
          counters := table.countersAfter bare } =
        (.ok (), { table.append row with counters := table.countersAfter bare }) := by
      refine onIndexes_on fun index hindex => ?_
      obtain ⟨column, hcolumn, hname, hcovers⟩ := h.indexed index hindex
      exact Index.linkM_on hcovers.valid (hfits.cell_mem_of_name hcolumn hname) _
    exact Action.on_bind_of_ok hlink fun _ => pure row

/-- New values are assigned to a row without a failure. -/
theorem Consistent.relinkM_on (h : table.Consistent) {assigned previous : Row} {p : Nat}
    (hassigned : assigned.Assigns table.schema) (hrow : table.row? p = some previous) :
    ∃ next, table.assignAt assigned p = some (previous.putAll assigned, next) ∧
      (onIndexes (Index.relinkM assigned previous (previous.putAll assigned) p)).on
        (putRow p (some (previous.putAll assigned)) table) = (.ok (), next) := by
  refine ⟨_, Option.map_eq_some_iff.mpr ⟨previous, hrow, rfl⟩,
    onIndexes_on fun index hindex => ?_⟩
  obtain ⟨column, hcolumn, hname, hcovers⟩ := h.indexed index hindex
  have hfits := h.fits p previous hrow
  exact Index.relinkM_on hcovers.valid (hfits.cell_mem_of_name hcolumn hname)
    ((hfits.putAll hassigned).cell_mem_of_name hcolumn hname) p

/-- New values are assigned to rows without a failure. -/
theorem Consistent.assignAllM_on (h : table.Consistent) {assigned : Row}
    (hassigned : assigned.Assigns table.schema) (targets : List Nat) :
    (assignAllM assigned targets).on table =
      (.ok (table.assignAll assigned targets).1, (table.assignAll assigned targets).2) := by
  induction targets generalizing table with
  | nil => rfl
  | cons target rest ih =>
    rw [assignAllM, Action.on_get_bind, Table.assignAll]
    cases hrow : table.row? target with
    | none =>
      have hassign : table.assignAt assigned target = none := Option.map_eq_none_iff.mpr hrow
      rw [hassign]
      exact ih h hassigned
    | some previous =>
      obtain ⟨next, hassign, hrelink⟩ := h.relinkM_on hassigned hrow
      have hschema : next.schema = table.schema := (outlines_of_assignAt hassign).1
      have hrest := ih (h.assignAt hassigned hassign) (hschema ▸ hassigned)
      rw [hassign]
      dsimp only
      rw [Action.on_modify_bind, Action.on_bind_of_ok hrelink]
      exact Action.on_bind_of_ok hrest _

/-- An update is all or nothing. -/
theorem Consistent.updateCellsM_on (h : table.Consistent) (cells : Mapping Text Cell)
    (conditions : List Condition) :
    (updateCellsM cells conditions).on table =
      Action.settled table (table.updateCells cells conditions) := by
  rw [updateCellsM, Action.on_get_bind]
  refine Action.on_lift_bind_settled fun assigned hassigned => ?_
  refine Action.on_lift_bind_settled fun targets _ => ?_
  cases table.updateConflict? assigned targets with
  | some conflict => rfl
  | none => exact h.assignAllM_on (assignments_assigns hassigned) targets

/-- A row is taken out of the indexes without a failure. -/
theorem Consistent.unlinkM_on (h : table.Consistent) {row : Row} {p : Nat}
    (hrow : table.row? p = some row) :
    ∃ next, table.deleteAt p = some (row, putRow p none next) ∧
      (onIndexes (Index.unlinkM row p)).on table = (.ok (), next) := by
  refine ⟨{ table with indexes := table.indexes.map (·.unlink row p) },
    Option.map_eq_some_iff.mpr ⟨row, hrow, rfl⟩, onIndexes_on fun index hindex => ?_⟩
  obtain ⟨column, hcolumn, hname, hcovers⟩ := h.indexed index hindex
  exact Index.unlinkM_on hcovers.valid (h.cell_mem hcolumn hname p row hrow) p

/-- Rows are deleted without a failure. -/
theorem Consistent.deleteAllM_on (h : table.Consistent) (targets : List Nat) :
    (deleteAllM targets).on table =
      (.ok (table.deleteAll targets).1, (table.deleteAll targets).2) := by
  induction targets generalizing table with
  | nil => rfl
  | cons target rest ih =>
    rw [deleteAllM, Action.on_get_bind, Table.deleteAll]
    cases hrow : table.row? target with
    | none =>
      have hdelete : table.deleteAt target = none := Option.map_eq_none_iff.mpr hrow
      rw [hdelete]
      exact ih h
    | some row =>
      obtain ⟨next, hdelete, hunlink⟩ := h.unlinkM_on hrow
      rw [hdelete]
      exact (Action.on_bind_of_ok hunlink _).trans
        (Action.on_bind_of_ok (ih (h.deleteAt hdelete).1) _)

/-- A deletion is all or nothing. -/
theorem Consistent.deleteM_on (h : table.Consistent) (conditions : List Condition) :
    (deleteM conditions).on table = Action.settled table (table.delete conditions) := by
  rw [deleteM, Action.on_get_bind]
  exact Action.on_lift_bind_settled fun targets _ => h.deleteAllM_on targets

/-- The creation of an index is all or nothing. -/
theorem createIndexM_on (table : Table) (name : Text) (reference : ColumnName) (unique : Bool) :
    (createIndexM name reference unique).on table =
      Action.settled table
        ((fun next => ((), next)) <$> table.createIndex name reference unique) := by
  rw [createIndexM, Action.on_get_bind, createIndex]
  cases table.indexes.any (·.name == name) with
  | true => rfl
  | false =>
    rw [if_neg Bool.false_ne_true, if_neg Bool.false_ne_true, map_bind]
    refine Action.on_lift_bind_settled fun column _ => ?_
    cases BTree.Order.ofInt? table.treeOrder with
    | none => rfl
    | some order =>
      rw [map_bind]
      exact Action.on_lift_bind_settled fun tree _ => rfl

/-- A compaction does not fail. -/
theorem Consistent.compactM_on (h : table.Consistent) :
    compactM.on table = (.ok (), table.compact.2) := by
  have hlive : table.liveRows.length ≤ table.rows.length := List.length_filterMap_le ..
  rw [compactM, Action.on_get_bind, Action.on_get_bind, Table.compact]
  by_cases hlength : table.rows.length = table.liveRows.length
  · rw [if_pos hlength, if_pos (by omega)]
    rfl
  · rw [if_neg hlength, if_neg (by omega)]
    refine onIndexes_on fun index hindex => ?_
    obtain ⟨column, hcolumn, hname, hcovers⟩ := h.indexed index hindex
    have hcells : ∀ row ∈ table.liveRows, row.cell index.column ∈ column.type.keys :=
      fun row hrow => (h.fits_live hrow).cell_mem_of_name hcolumn hname
    exact Index.rebuildM_on hcells

/-! ## The schema -/

/-- Whatever is done with the indexes keeps the schema. -/
theorem onIndexes_keeps (act : Action Index Unit) : (onIndexes act).Keeps schema := by
  refine .within (fun indexes table => ?_) (.each act)
  rfl

/-- An insertion keeps the schema, whether it fails or not. -/
theorem insertCellsM_keeps (cells : Mapping ColumnName Cell) :
    (insertCellsM cells).Keeps schema := by
  refine .bind .get fun table => .bind (.lift _) fun bare => .bind (.lift _) fun row => ?_
  cases table.indexes.find? (·.conflicts row) with
  | some index => exact .throw _
  | none =>
    refine .bind (.modify fun _ => rfl) fun _ => .bind (.modify fun _ => rfl) fun _ => ?_
    exact .bind (onIndexes_keeps _) fun _ => .pure _

/-- The assignment of new values keeps the schema. -/
theorem assignAllM_keeps (assigned : Row) (targets : List Nat) :
    (assignAllM assigned targets).Keeps schema := by
  induction targets with
  | nil => exact .pure _
  | cons target rest ih =>
    refine .bind .get fun table => ?_
    cases table.row? target with
    | none => exact ih
    | some previous =>
      refine .bind (.modify fun _ => rfl) fun _ => .bind (onIndexes_keeps _) fun _ => ?_
      exact .bind ih fun _ => .pure _

/-- An update keeps the schema, whether it fails or not. -/
theorem updateCellsM_keeps (cells : Mapping Text Cell) (conditions : List Condition) :
    (updateCellsM cells conditions).Keeps schema := by
  refine .bind .get fun table => .bind (.lift _) fun assigned => .bind (.lift _) fun targets => ?_
  cases table.updateConflict? assigned targets with
  | some conflict => exact .throw _
  | none => exact assignAllM_keeps assigned targets

/-- Deletions keep the schema. -/
theorem deleteAllM_keeps (targets : List Nat) : (deleteAllM targets).Keeps schema := by
  induction targets with
  | nil => exact .pure _
  | cons target rest ih =>
    refine .bind .get fun table => ?_
    cases table.row? target with
    | none => exact ih
    | some row =>
      refine .bind (onIndexes_keeps _) fun _ => .bind (.modify fun _ => rfl) fun _ => ?_
      exact .bind ih fun _ => .pure _

/-- A deletion keeps the schema, whether it fails or not. -/
theorem deleteM_keeps (conditions : List Condition) : (deleteM conditions).Keeps schema :=
  .bind .get fun _ => .bind (.lift _) fun targets => deleteAllM_keeps targets

/-- The creation of an index keeps the schema, whether it fails or not. -/
theorem createIndexM_keeps (name : Text) (reference : ColumnName) (unique : Bool) :
    (createIndexM name reference unique).Keeps schema := by
  refine .bind .get fun table => ?_
  cases table.indexes.any (·.name == name) with
  | true => exact .throw _
  | false =>
    refine .bind (.lift _) fun column => ?_
    cases BTree.Order.ofInt? table.treeOrder with
    | none => exact .throw _
    | some order => exact .bind (.lift _) fun tree => .modify fun _ => rfl

end Table

end RelStore
