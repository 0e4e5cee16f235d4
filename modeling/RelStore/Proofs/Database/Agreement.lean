import RelStore.Proofs.Database.History
import RelStore.Proofs.Table.Selection

/-!
# Tables that answer alike

A query sees of a table its schema and its live rows only, which tables that are alike have in
common (`Table.Alike`), whatever their positions, indexes and counters are. Databases of which the
tables are alike one by one give the same answer to every query (`execute_of_alike`).
-/

namespace RelStore

open Sql (Join Select)

namespace Table.Alike

/-- What tables that are alike have in common is in the same order in lists of them. -/
theorem map_eq {α : Type} {tables others : List Table}
    (h : List.Forall₂ Table.Alike tables others) (f : Table → α)
    (hf : ∀ {table other : Table}, table.Alike other → f other = f table) :
    others.map f = tables.map f := by
  induction h with
  | nil => rfl
  | cons hfirst _ ih => rw [List.map_cons, List.map_cons, hf hfirst, ih]

end Table.Alike

namespace Database

variable {db other : Database}

section

variable {related : Table → Table → Prop}
  (hname : ∀ {one two}, related one two → two.name = one.name)
  (h : List.Forall₂ related db.tables other.tables)
include hname h

/-- Under a name, tables that are related are found, or none on either side, if related tables have
the same name. -/
theorem table?_rel (name : Text) : Option.Rel related (db.table? name) (other.table? name) :=
  Outcome.find?_rel h fun _ _ _ _ hrelated => by rw [hname hrelated]

/-- Related tables are found under the same names. -/
theorem agree_table (name : Text) :
    Outcome.Agree related (db.table name) (other.table name) := by
  have hfound := table?_rel hname h name
  rw [Database.table, Database.table]
  generalize db.table? name = found at hfound ⊢
  generalize other.table? name = found' at hfound ⊢
  cases hfound with
  | none => exact .error _
  | some hrelated => exact .ok hrelated

end

/-- References lead to columns of tables that are alike just the same. -/
theorem checkColumn_of_alike {tables others : List Table}
    (h : List.Forall₂ Table.Alike tables others) (reference : Text) :
    checkColumn others reference = checkColumn tables reference := by
  have hany (test : Schema → Bool) :
      (others.any fun table => test table.schema) = tables.any fun table => test table.schema := by
    have hschemas := Table.Alike.map_eq h Table.schema Table.Alike.schema
    have hmapped := congrArg (List.any · test) hschemas
    rwa [List.any_map, List.any_map] at hmapped
  unfold checkColumn
  dsimp only
  split
  · next name column _ =>
    have hfound : (others.any fun table => table.name == name && table.schema.hasColumn column) =
        tables.any fun table => table.name == name && table.schema.hasColumn column :=
      hany fun schema => schema.table == name && schema.hasColumn column
    simp only [hfound]
  · have hfound : (others.any fun table => table.schema.hasColumn reference) =
        tables.any fun table => table.schema.hasColumn reference :=
      hany fun schema => schema.hasColumn reference
    simp only [hfound]

/-- Joins with tables that are alike give the same rows. -/
theorem joinTables_of_alike (base : Text) (rows : List Row) {joined others : List (Join × Table)}
    (h : List.Forall₂ (fun one other => other.1 = one.1 ∧ Table.Alike one.2 other.2)
      joined others) :
    joinTables base rows others = joinTables base rows joined := by
  induction h generalizing rows with
  | nil => rfl
  | cons hfirst _ ih =>
    obtain ⟨hclause, halike⟩ := hfirst
    rw [joinTables, joinTables, hclause, halike.liveRows]
    exact bind_congr fun rows => ih rows

/-- A query takes the same rows from tables that are alike. -/
theorem selectRows_of_alike {base base' : Table} (hbase : base.Alike base')
    {joined others : List (Join × Table)}
    (h : List.Forall₂ (fun one other => other.1 = one.1 ∧ Table.Alike one.2 other.2) joined others)
    {query : Select} (hliterals : Sql.Numbers query.conditions) :
    selectRows base' others query = selectRows base joined query := by
  have hbelongs : belongsTo base' = belongsTo base := by
    funext reference
    unfold belongsTo
    rw [hbase.name, hbase.schema]
  have hjoin (rows : List Row) : joinTables query.table rows others =
      joinTables query.table rows joined := joinTables_of_alike query.table rows h
  simp only [selectRows, hbelongs, hbase.select_eq hliterals,
    hbase.select_eq (List.forall_mem_nil _), hjoin]

/-- A query has the same result on databases of which the tables are alike. -/
theorem runSelect_of_alike (h : List.Forall₂ Table.Alike db.tables other.tables) {query : Select}
    (hliterals : Sql.Numbers query.conditions) : other.runSelect query = db.runSelect query := by
  have hjoins : Outcome.Agree
      (List.Forall₂ fun one other => other.1 = one.1 ∧ Table.Alike one.2 other.2)
      (query.joins.mapM fun (join : Join) => do return (join, ← db.table join.table))
      (query.joins.mapM fun (join : Join) => do return (join, ← other.table join.table)) := by
    refine .mapM (fun join => ?_) _
    exact (agree_table Table.Alike.name h join.table).bind fun _ _ halike => .ok ⟨rfl, halike⟩
  -- Both sides look up tables that are alike; all that comes after reads only what these share.
  refine ((agree_table Table.Alike.name h query.table).bind_eq fun base base' hbase => ?_).symm
  refine hjoins.bind_eq fun joined others hjoined => ?_
  have htables :
      List.Forall₂ Table.Alike (base :: joined.map (·.2)) (base' :: others.map (·.2)) := by
    refine .cons hbase ?_
    rw [List.forall₂_map_left_iff, List.forall₂_map_right_iff]
    exact hjoined.imp fun _ _ => And.right
  have hcheck : checkColumn (base' :: others.map (·.2)) = checkColumn (base :: joined.map (·.2)) :=
    funext (checkColumn_of_alike htables)
  rw [hcheck, selectRows_of_alike hbase hjoined hliterals, hbase.schema]

/-- A text that is a query has the same result on databases of which the tables are alike, and
changes neither. -/
theorem execute_of_alike (h : List.Forall₂ Table.Alike db.tables other.tables) {text : Text}
    {query : Select} (hparse : Sql.parse text = .ok (.select query)) :
    (other.execute text).1 = (db.execute text).1 := by
  have hrun := runSelect_of_alike h (Sql.parse_wellRead hparse)
  rw [execute_eq_perform hparse, execute_eq_perform hparse, perform_select, perform_select, hrun]

end Database

end RelStore
