import RelStore.Proofs.Table.Contents

/-!
# The layout of a table

Where the rows of a table stand, which positions are empty and what shape the trees of its indexes
have cannot be told from its answers. Two tables of the same contents (`Table.SameContents`) that
are consistent stay so under all operations, and each ends alike on both
(`Similar.insertCells`, `Similar.updateCells`, `Similar.delete`, `Similar.createIndex`); a
compaction of one of them leaves its contents (`Similar.compact_left`). So they give the same
replies to the same requests whatever compactions come in between (`Similar.replies_eq`).
-/

namespace RelStore.Table

open Outcome (Agree)

variable {table other : Table}

/-! ## Tables of the same contents -/

/-- Two tables have the same contents: their schema, their live rows in order, their counters and
the outlines of their indexes, and trees of both their orders exist, unless the orders are the
same. -/
structure SameContents (table other : Table) : Prop where
  /-- The schemas are the same. -/
  schema : other.schema = table.schema
  /-- The live rows are the same, in the same order. -/
  liveRows : other.liveRows = table.liveRows
  /-- The counters are the same. -/
  counters : other.counters = table.counters
  /-- The indexes have the same names, columns and constraints, in the same order. -/
  outlines : other.outlines = table.outlines
  /-- New indexes can be made on both or on neither. -/
  order : other.treeOrder = table.treeOrder ∨ (BTree.Order.ofInt? table.treeOrder).isSome = true ∧
    (BTree.Order.ofInt? other.treeOrder).isSome = true

/-- A table has the settings of another: its schema, the outlines of its indexes, the order of its
trees and its counters. -/
structure Keeps (table next : Table) : Prop where
  /-- The schemas are the same. -/
  schema : next.schema = table.schema
  /-- The indexes have the same names, columns and constraints, in the same order. -/
  outlines : next.outlines = table.outlines
  /-- The order of new trees is the same. -/
  treeOrder : next.treeOrder = table.treeOrder
  /-- The counters are the same. -/
  counters : next.counters = table.counters

/-- Tables of the same contents stay so if they keep their settings and their live rows stay the
same. -/
theorem SameContents.of_keeps {next next' : Table} (h : table.SameContents other)
    (hnext : table.Keeps next) (hnext' : other.Keeps next')
    (hlive : next'.liveRows = next.liveRows) : next.SameContents next' := by
  refine ⟨?_, hlive, ?_, ?_, ?_⟩
  · rw [hnext.schema, hnext'.schema, h.schema]
  · rw [hnext.counters, hnext'.counters, h.counters]
  · rw [hnext.outlines, hnext'.outlines, h.outlines]
  · rw [hnext.treeOrder, hnext'.treeOrder]
    exact h.order

/-- New values leave a consistent table so, and it keeps its settings. -/
theorem Consistent.keeps_assignAll (h : table.Consistent) {assigned : Row}
    (hassigned : assigned.Assigns table.schema) (targets : List Nat) :
    (table.assignAll assigned targets).2.Consistent ∧
      table.Keeps (table.assignAll assigned targets).2 := by
  obtain ⟨hconsistent, hschema, houtlines⟩ := h.assignAll hassigned targets
  obtain ⟨horder, hcounters⟩ := settings_assignAll table assigned targets
  exact ⟨hconsistent, hschema, houtlines, horder, hcounters⟩

/-- Deletions leave a consistent table so, and it keeps its settings. -/
theorem Consistent.keeps_deleteAll (h : table.Consistent) (targets : List Nat) :
    (table.deleteAll targets).2.Consistent ∧ table.Keeps (table.deleteAll targets).2 := by
  obtain ⟨hconsistent, hschema, houtlines⟩ := h.deleteAll targets
  obtain ⟨horder, hcounters⟩ := settings_deleteAll table targets
  exact ⟨hconsistent, hschema, houtlines, horder, hcounters⟩

/-- A compaction leaves a consistent table so, and it keeps its settings. -/
theorem Consistent.keeps_compact (h : table.Consistent) :
    table.compact.2.Consistent ∧ table.Keeps table.compact.2 := by
  obtain ⟨hconsistent, hschema, houtlines⟩ := h.compact
  obtain ⟨-, horder, hcounters⟩ := table.liveRows_compact
  exact ⟨hconsistent, hschema, houtlines, horder, hcounters⟩

/-- Two consistent tables have the same contents. -/
structure Similar (table other : Table) : Prop extends SameContents table other where
  /-- The first table is consistent. -/
  consistent : table.Consistent
  /-- The second table is consistent. -/
  otherConsistent : other.Consistent

namespace Similar

/-- A consistent table is similar to itself. -/
theorem refl (h : table.Consistent) : table.Similar table := ⟨⟨rfl, rfl, rfl, rfl, .inl rfl⟩, h, h⟩

/-- Similar tables are alike to queries. -/
theorem alike (h : table.Similar other) : table.Alike other :=
  ⟨h.schema, h.liveRows, h.consistent, h.otherConsistent⟩

/-- Similar tables have the same name. -/
theorem name (h : table.Similar other) : other.name = table.name := h.alike.name

/-- The indexes of similar tables have the same outlines one by one. -/
theorem indexes (h : table.Similar other) :
    List.Forall₂ (fun one two : Index => two.outline = one.outline) table.indexes
      other.indexes := by
  have houtlines : List.Forall₂ (fun one two => two = one) table.outlines other.outlines := by
    rw [h.outlines, List.forall₂_same]
    exact fun _ _ => rfl
  rw [Table.outlines, Table.outlines, List.forall₂_map_left_iff,
    List.forall₂_map_right_iff] at houtlines
  exact houtlines

/-! ## Compaction and counters -/

/-- A compaction of one of two similar tables leaves them similar. -/
theorem compact_left (h : table.Similar other) : Similar table.compact.2 other := by
  obtain ⟨hconsistent, hkeeps⟩ := h.consistent.keeps_compact
  refine ⟨h.of_keeps hkeeps ⟨rfl, rfl, rfl, rfl⟩ ?_, hconsistent, h.otherConsistent⟩
  rw [table.liveRows_compact.1, h.liveRows]

/-- The counters of similar tables are moved up alike. -/
theorem restoreCounters (h : table.Similar other) :
    Similar table.restoreCounters other.restoreCounters := by
  have hcounters : other.restoreCounters.counters = table.restoreCounters.counters := by
    rw [Table.restoreCounters, Table.restoreCounters]
    dsimp only
    unfold greatest
    rw [h.counters, h.liveRows]
  exact ⟨⟨h.schema, h.liveRows, hcounters, h.outlines, h.order⟩, h.consistent.with_counters _,
    h.otherConsistent.with_counters _⟩

/-- Similar tables have as many rows. -/
theorem rowCount_eq (h : table.Similar other) : other.rowCount = table.rowCount := by
  have hcount (table : Table) : table.rowCount = table.liveRows.length := by
    rw [Table.rowCount_eq, ← map_snd_live, List.length_map]
  rw [hcount, hcount, h.liveRows]

/-! ## Insertions -/

/-- A new row conflicts with indexes of similar tables alike. -/
theorem conflicts_eq (h : table.Similar other) {one two : Index} (hone : one ∈ table.indexes)
    (htwo : two ∈ other.indexes) (houtline : two.outline = one.outline) {row : Row}
    (hrow : row.Fits table.schema) : two.conflicts row = one.conflicts row := by
  have hcolumn : two.column = one.column := congrArg (·.2.1) houtline
  have hunique : two.unique = one.unique := congrArg (·.2.2) houtline
  rw [Bool.eq_iff_iff, h.otherConsistent.conflicts_iff_liveRows htwo (h.schema ▸ hrow),
    h.consistent.conflicts_iff_liveRows hone hrow, hcolumn, hunique, h.liveRows]

/-- The row of an insertion is the same in similar tables, which stay similar with it. -/
theorem append (h : table.Similar other) {row : Row} (hrow : row.Fits table.schema)
    (bare : Mapping ColumnName Cell) :
    Similar { table.append row with counters := table.countersAfter bare }
      { other.append row with counters := other.countersAfter bare } := by
  have hotherRow : row.Fits other.schema := h.schema ▸ hrow
  refine ⟨⟨h.schema, ?_, ?_, ?_, h.order⟩, (h.consistent.append hrow).with_counters _,
    (h.otherConsistent.append hotherRow).with_counters _⟩
  · change (other.append row).liveRows = (table.append row).liveRows
    rw [liveRows_append, liveRows_append, h.liveRows]
  · change other.countersAfter bare = table.countersAfter bare
    rw [countersAfter, countersAfter, h.counters]
  · change (other.append row).outlines = (table.append row).outlines
    rw [outlines_append, outlines_append, h.outlines]

/-- Insertions into similar tables end alike: with the same row or the same error. -/
theorem insertCells (h : table.Similar other) (cells : Mapping ColumnName Cell) :
    Agree (fun one two => two.1 = one.1 ∧ Similar one.2 two.2) (table.insertCells cells)
      (other.insertCells cells) := by
  have hbare : other.bareNames cells = table.bareNames cells := by
    rw [bareNames, bareNames, h.schema]
  have hrow (bare : Mapping ColumnName Cell) : other.newRow bare = table.newRow bare := by
    unfold newRow newCell
    rw [h.schema, h.counters]
  unfold Table.insertCells
  refine .bind_of_eq hbare fun bare _ => .bind_of_eq (hrow bare) fun row hnew => ?_
  have hfits := newRow_fits hnew
  have hfound : Option.Rel (fun one two : Index => two.outline = one.outline)
      (table.indexes.find? (·.conflicts row)) (other.indexes.find? (·.conflicts row)) :=
    Outcome.find?_rel h.indexes fun one hone two htwo houtline =>
      h.conflicts_eq hone htwo houtline hfits
  generalize table.indexes.find? (·.conflicts row) = found at hfound ⊢
  generalize other.indexes.find? (·.conflicts row) = found' at hfound ⊢
  cases hfound with
  | none => exact .ok ⟨rfl, h.append hfits bare⟩
  | @some one two houtline =>
    have hcolumn : two.column = one.column := congrArg (·.2.1) houtline
    dsimp only
    rw [hcolumn]
    exact .error _

/-! ## Targets -/

/-- The targets of a statement are the positions of the same rows in similar tables. -/
theorem targets (h : table.Similar other) {conditions : List Condition}
    (hliterals : ∀ c ∈ conditions, c.value ≠ .float .nan) :
    Agree (fun one two => ∃ keep, one = table.positionsOf keep ∧ two = other.positionsOf keep)
      (table.targets conditions) (other.targets conditions) := by
  have hsame : other.bareConditions conditions = table.bareConditions conditions := by
    rw [bareConditions, bareConditions, h.schema]
  cases hbare : table.bareConditions conditions with
  | error e =>
    rw [Table.targets, Table.targets, hsame, hbare]
    exact .error e
  | ok bare =>
    rw [h.consistent.targets_eq hbare hliterals,
      h.otherConsistent.targets_eq (hsame.trans hbare) hliterals, h.liveRows]
    cases Condition.select bare id table.liveRows with
    | error e => exact .error e
    | ok rows => exact .ok ⟨_, rfl, rfl⟩

/-! ## Updates -/

/-- New values conflict with indexes of similar tables alike. -/
theorem updateConflict?_eq (h : table.Similar other) {assigned : Row}
    (hassigned : assigned.Assigns table.schema) (keep : Row → Bool) :
    other.updateConflict? assigned (other.positionsOf keep) =
      table.updateConflict? assigned (table.positionsOf keep) := by
  refine Outcome.findSome?_eq h.indexes fun one hone two htwo houtline => ?_
  have hcolumnEq : two.column = one.column := congrArg (·.2.1) houtline
  have hunique : two.unique = one.unique := congrArg (·.2.2) houtline
  rw [hcolumnEq]
  refine Option.bind_congr fun key hkey => ?_
  obtain ⟨column, hcolumn, hname, hkeyMem⟩ :=
    hassigned.exists_column _ (Mapping.mem_of_get? hkey)
  have hconflicts : other.updateConflicts (other.positionsOf keep) two key =
      table.updateConflicts (table.positionsOf keep) one key := by
    rw [Bool.eq_iff_iff, h.otherConsistent.updateConflicts_positionsOf htwo (h.schema ▸ hcolumn)
      (hcolumnEq ▸ hname) hkeyMem, h.consistent.updateConflicts_positionsOf hone hcolumn hname
      hkeyMem, hcolumnEq, hunique, h.liveRows]
  rw [hconflicts]

/-- New values for the rows of a kind leave similar tables similar, and the rows with them are the
same. -/
theorem assignAll (h : table.Similar other) {assigned : Row}
    (hassigned : assigned.Assigns table.schema) (keep : Row → Bool) :
    (other.assignAll assigned (other.positionsOf keep)).1 =
        (table.assignAll assigned (table.positionsOf keep)).1 ∧
      Similar (table.assignAll assigned (table.positionsOf keep)).2
        (other.assignAll assigned (other.positionsOf keep)).2 := by
  constructor
  · rw [rows_assignAll other assigned (other.nodup_positionsOf keep),
      rows_assignAll table assigned (table.nodup_positionsOf keep), filterMap_row?_positionsOf,
      filterMap_row?_positionsOf, h.liveRows]
  · obtain ⟨hconsistent, hkeeps⟩ := h.consistent.keeps_assignAll hassigned (table.positionsOf keep)
    obtain ⟨hconsistent', hkeeps'⟩ :=
      h.otherConsistent.keeps_assignAll (h.schema ▸ hassigned) (other.positionsOf keep)
    refine ⟨h.of_keeps hkeeps hkeeps' ?_, hconsistent, hconsistent'⟩
    rw [liveRows_assignAll, liveRows_assignAll, h.liveRows]

/-- Updates of similar tables end alike: with the same rows or the same error. -/
theorem updateCells (h : table.Similar other) (cells : Mapping Text Cell)
    {conditions : List Condition} (hliterals : ∀ c ∈ conditions, c.value ≠ .float .nan) :
    Agree (fun one two => two.1 = one.1 ∧ Similar one.2 two.2)
      (table.updateCells cells conditions) (other.updateCells cells conditions) := by
  have hsame : other.assignments cells = table.assignments cells := by
    unfold assignments
    rw [h.schema, h.name]
  unfold Table.updateCells
  refine .bind_of_eq hsame fun assigned hassigned => ?_
  have hassigns := assignments_assigns hassigned
  refine (h.targets hliterals).bind ?_
  rintro _ _ ⟨keep, rfl, rfl⟩
  rw [h.updateConflict?_eq hassigns keep]
  cases table.updateConflict? assigned (table.positionsOf keep) with
  | some conflict => exact .error _
  | none => exact .ok (h.assignAll hassigns keep)

/-! ## Deletions -/

/-- Deletions from similar tables end alike: with the same rows or the same error. -/
theorem delete (h : table.Similar other) {conditions : List Condition}
    (hliterals : ∀ c ∈ conditions, c.value ≠ .float .nan) :
    Agree (fun one two => two.1 = one.1 ∧ Similar one.2 two.2) (table.delete conditions)
      (other.delete conditions) := by
  unfold Table.delete
  refine (h.targets hliterals).bind ?_
  rintro _ _ ⟨keep, rfl, rfl⟩
  obtain ⟨hconsistent, hkeeps⟩ := h.consistent.keeps_deleteAll (table.positionsOf keep)
  obtain ⟨hconsistent', hkeeps'⟩ := h.otherConsistent.keeps_deleteAll (other.positionsOf keep)
  refine .ok ⟨?_, h.of_keeps hkeeps hkeeps' ?_, hconsistent, hconsistent'⟩
  · rw [rows_deleteAll other (other.nodup_positionsOf keep),
      rows_deleteAll table (table.nodup_positionsOf keep), filterMap_row?_positionsOf,
      filterMap_row?_positionsOf, h.liveRows]
  · rw [liveRows_deleteAll, liveRows_deleteAll, h.liveRows]

/-! ## New indexes -/

/-- Trees have the orders of both similar tables, or the order is the same and they have not. -/
theorem order_cases (h : table.Similar other) :
    (∃ degree degree', BTree.Order.ofInt? table.treeOrder = some degree ∧
      BTree.Order.ofInt? other.treeOrder = some degree') ∨
    (other.treeOrder = table.treeOrder ∧ BTree.Order.ofInt? table.treeOrder = none) := by
  rcases h.order with heq | ⟨hsome, hsome'⟩
  · rw [heq]
    cases BTree.Order.ofInt? table.treeOrder with
    | none => exact .inr ⟨rfl, rfl⟩
    | some degree => exact .inl ⟨degree, degree, rfl, rfl⟩
  · obtain ⟨degree, hdegree⟩ := Option.isSome_iff_exists.mp hsome
    obtain ⟨degree', hdegree'⟩ := Option.isSome_iff_exists.mp hsome'
    exact .inl ⟨degree, degree', hdegree, hdegree'⟩

/-- Trees on a column of similar tables are built alike: with success or with the same error. -/
theorem buildTree (h : table.Similar other) {reference : ColumnName} {column : Text}
    (hcolumn : table.schema.columnName reference = .ok column) (degree degree' : BTree.Order)
    (unique : Bool) :
    Agree (fun _ _ => True) (Table.buildTree degree column unique table.live)
      (Table.buildTree degree' column unique other.live) := by
  have hverdict : (fun _ => ()) <$> Table.buildTree degree column unique table.live =
      (fun _ => ()) <$> Table.buildTree degree' column unique other.live := by
    rw [h.consistent.buildTree_eq hcolumn, h.otherConsistent.buildTree_eq (h.schema ▸ hcolumn),
      h.liveRows]
  exact (Agree.of_map_eq hverdict).imp fun _ _ _ _ _ => trivial

/-- Similar tables have the same contents after a new index on each, whatever its tree is. -/
theorem sameContents_concat (h : table.Similar other) (name column : Text) (unique : Bool)
    (tree tree' : BTree Nat) :
    SameContents { table with indexes := table.indexes ++ [⟨name, column, unique, tree⟩] }
      { other with indexes := other.indexes ++ [⟨name, column, unique, tree'⟩] } := by
  have hconcat (indexes : List Index) (tree : BTree Nat) :
      (indexes ++ [(⟨name, column, unique, tree⟩ : Index)]).map Index.outline =
        indexes.map Index.outline ++ [(name, column, unique)] := by
    rw [List.map_append]
    rfl
  have hold : other.indexes.map Index.outline = table.indexes.map Index.outline := h.outlines
  refine ⟨h.schema, h.liveRows, h.counters, ?_, h.order⟩
  rw [Table.outlines, Table.outlines, hconcat, hconcat, hold]

/-- Indexes are created on similar tables alike: with success or with the same error. -/
theorem createIndex (h : table.Similar other) (name : Text) (reference : ColumnName)
    (unique : Bool) :
    Agree Similar (table.createIndex name reference unique)
      (other.createIndex name reference unique) := by
  have hnamed : (other.indexes.any (·.name == name)) = table.indexes.any (·.name == name) := by
    have hmapped := congrArg (List.any · (·.1 == name)) h.outlines
    rw [Table.outlines, Table.outlines, List.any_map, List.any_map] at hmapped
    exact hmapped
  have hends : Agree SameContents (table.createIndex name reference unique)
      (other.createIndex name reference unique) := by
    have hreference : other.schema.columnName reference = table.schema.columnName reference := by
      rw [h.schema]
    unfold Table.createIndex
    dsimp only
    rw [hnamed]
    split
    · exact .error _
    · refine .bind_of_eq hreference fun column hcolumn => ?_
      rcases h.order_cases with ⟨degree, degree', hdegree, hdegree'⟩ | ⟨hsame, hnone⟩
      · rw [hdegree, hdegree']
        refine (h.buildTree hcolumn degree degree' unique).bind fun tree tree' _ => ?_
        exact .ok (h.sameContents_concat name column unique tree tree')
      · rw [hsame, hnone]
        exact .error _
  refine hends.imp fun next next' hnext hnext' hsame => ⟨hsame, ?_, ?_⟩
  · exact (h.consistent.of_createIndex hnext).1
  · exact (h.otherConsistent.of_createIndex hnext').1

/-- New tables of the same name and columns are similar, whatever orders of trees they have. -/
theorem create (name : Text) (columns : List Column) (order order' : BTree.Order) :
    Agree Similar (Table.create name columns order.degree)
      (Table.create name columns order'.degree) := by
  refine .bind_of_eq rfl fun schema _ => .foldlM (fun one two column h => h.createIndex _ _ _) _ ?_
  refine ⟨⟨rfl, rfl, rfl, rfl, .inr ⟨?_, ?_⟩⟩, .of_nil rfl rfl, .of_nil rfl rfl⟩
  · rw [ofInt?_degree]
    rfl
  · rw [ofInt?_degree]
    rfl

end Similar

/-! ## Requests -/

/-- What a table can be asked for. -/
inductive Request where
  /-- Append a row of some cells. -/
  | insert (cells : Mapping ColumnName Cell)
  /-- Give the rows for which conditions hold. -/
  | select (conditions : List Condition)
  /-- Give the rows for which a condition holds whose operator is a text. -/
  | selectWhere (column operator : Text) (v : Value)
  /-- Assign what some cells offer to the rows for which conditions hold. -/
  | update (cells : Mapping Text Cell) (conditions : List Condition)
  /-- Delete the rows for which conditions hold. -/
  | delete (conditions : List Condition)
  /-- Create an index. -/
  | createIndex (name : Text) (reference : ColumnName) (unique : Bool)
  /-- Move the counters up to the values in the rows. -/
  | restoreCounters
  /-- Count the rows. -/
  | rowCount

/-- No literal in the conditions of a request is the float that is not a number. -/
def Request.Numbers : Request → Prop
  | select conditions | update _ conditions | delete conditions =>
    ∀ c ∈ conditions, c.value ≠ .float .nan
  | selectWhere _ _ v => v ≠ .float .nan
  | insert _ | createIndex .. | restoreCounters | rowCount => True

/-- What a table gives back when a request succeeds. -/
inductive Reply where
  /-- The rows that have been inserted, found, changed or deleted. -/
  | rows (rows : List Row)
  /-- The number of the rows. -/
  | count (n : Nat)
  /-- Nothing but the success. -/
  | done
  deriving DecidableEq

/-- Carries out a request; also returns the reply. -/
def serve (table : Table) : Request → Except Error (Reply × Table)
  | .insert cells => do
    let (row, next) ← table.insertCells cells
    return (.rows [row], next)
  | .select conditions => do return (.rows (← table.select conditions), table)
  | .selectWhere column operator v => do
    return (.rows (← table.selectWhere column operator v), table)
  | .update cells conditions => do
    let (rows, next) ← table.updateCells cells conditions
    return (.rows rows, next)
  | .delete conditions => do
    let (rows, next) ← table.delete conditions
    return (.rows rows, next)
  | .createIndex name reference unique => do
    return (.done, ← table.createIndex name reference unique)
  | .restoreCounters => .ok (.done, table.restoreCounters)
  | .rowCount => .ok (.count table.rowCount, table)

/-- The reply to a request or its error, and the table after it. -/
def answer (table : Table) (request : Request) : Except Error Reply × Table :=
  match table.serve request with
  | .ok (reply, next) => (.ok reply, next)
  | .error error => (.error error, table)

/-- Something that is done to a table: a request or a compaction. -/
inductive Move where
  /-- Ask for something. -/
  | ask (request : Request)
  /-- Drop the empty positions. -/
  | compact

/-- The requests among some moves. -/
def requests : List Move → List Request
  | [] => []
  | .ask request :: rest => request :: requests rest
  | .compact :: rest => requests rest

/-- The replies to the requests among some moves, or their errors. -/
def replies (table : Table) : List Move → List (Except Error Reply)
  | [] => []
  | .ask request :: rest => (table.answer request).1 :: (table.answer request).2.replies rest
  | .compact :: rest => table.compact.2.replies rest

namespace Similar

/-- Similar tables serve a request alike: with the same reply or the same error. -/
theorem serve (h : table.Similar other) {request : Request} (hliterals : request.Numbers) :
    Agree (fun one two => two.1 = one.1 ∧ Similar one.2 two.2) (table.serve request)
      (other.serve request) := by
  cases request with
  | insert cells =>
    refine (h.insertCells cells).bind fun one two hboth => .ok ⟨?_, hboth.2⟩
    rw [hboth.1]
  | select conditions =>
    exact .bind_of_eq (h.alike.select_eq hliterals) fun rows _ => .ok ⟨rfl, h⟩
  | selectWhere column operator v =>
    exact .bind_of_eq (h.alike.selectWhere_eq hliterals) fun rows _ => .ok ⟨rfl, h⟩
  | update cells conditions =>
    refine (h.updateCells cells hliterals).bind fun one two hboth => .ok ⟨?_, hboth.2⟩
    rw [hboth.1]
  | delete conditions =>
    refine (h.delete hliterals).bind fun one two hboth => .ok ⟨?_, hboth.2⟩
    rw [hboth.1]
  | createIndex name reference unique =>
    exact (h.createIndex name reference unique).bind fun _ _ hnext => .ok ⟨rfl, hnext⟩
  | restoreCounters => exact .ok ⟨rfl, h.restoreCounters⟩
  | rowCount => exact .ok ⟨congrArg Reply.count h.rowCount_eq, h⟩

/-- Similar tables give the same reply to a request, and stay similar. -/
theorem answer (h : table.Similar other) {request : Request} (hliterals : request.Numbers) :
    (other.answer request).1 = (table.answer request).1 ∧
      Similar (table.answer request).2 (other.answer request).2 := by
  have hserve := h.serve hliterals
  unfold Table.answer
  generalize table.serve request = outcome at hserve ⊢
  generalize other.serve request = outcome' at hserve ⊢
  cases hserve with
  | error e => exact ⟨rfl, h⟩
  | ok hboth => exact ⟨congrArg Except.ok hboth.1, hboth.2⟩

/-- The replies of similar tables are the same as if no compaction came in between on the first. -/
theorem replies_eq_asked (h : table.Similar other) {moves : List Move}
    (hliterals : ∀ request ∈ requests moves, request.Numbers) :
    table.replies moves = other.replies ((requests moves).map .ask) := by
  -- The induction is on the moves; a compaction moves the first table only.
  induction moves generalizing table other with
  | nil => rfl
  | cons move rest ih =>
    cases move with
    | compact => exact ih h.compact_left hliterals
    | ask request =>
      obtain ⟨hfirst, hrest⟩ := List.forall_mem_cons.mp hliterals
      obtain ⟨hreply, hnext⟩ := h.answer hfirst
      rw [replies, requests, List.map_cons, replies, hreply, ih hnext hrest]

/-- Similar tables give the same replies to the same requests, whatever compactions come in between
on either. -/
theorem replies_eq (h : table.Similar other) {moves moves' : List Move}
    (hsame : requests moves' = requests moves)
    (hliterals : ∀ request ∈ requests moves, request.Numbers) :
    other.replies moves' = table.replies moves :=
  calc other.replies moves'
    _ = other.replies ((requests moves').map .ask) :=
      (refl h.otherConsistent).replies_eq_asked (hsame ▸ hliterals)
    _ = other.replies ((requests moves).map .ask) := by rw [hsame]
    _ = table.replies moves := (h.replies_eq_asked hliterals).symm

end Similar

end RelStore.Table
