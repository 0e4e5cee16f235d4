import RelStore.Proofs.Outcome
import RelStore.Proofs.Sql.WellRead

/-!
# Which clauses of a query count

The clauses of a query are read one after the other, in any order (`takeClauseList`), and then put
into the query (`takeClauses_eq`). Of the joins all count; of the clauses of each other kind, the
last one takes the place of those before it. So a query keeps the conditions that were read just
when they stand in one clause, and likewise the sort keys and the limit (`parse_retains_iff`).
-/

namespace RelStore.Sql

/-! ## Clauses -/

/-- A clause of a query. -/
inductive Clause where
  /-- A join. -/
  | join (join : Join)
  /-- The conditions after `WHERE`. -/
  | conditions (conditions : List Condition)
  /-- The sort keys after `ORDER BY`. -/
  | sortKeys (keys : List SortKey)
  /-- The number after `LIMIT`. -/
  | limit (n : Nat)
  deriving DecidableEq

namespace Clause

/-- The join of a clause. -/
def join? : Clause → Option Join
  | .join found => some found
  | _ => none

/-- The conditions of a clause. -/
def conditions? : Clause → Option (List Condition)
  | .conditions found => some found
  | _ => none

/-- The sort keys of a clause. -/
def sortKeys? : Clause → Option (List SortKey)
  | .sortKeys found => some found
  | _ => none

/-- The limit of a clause. -/
def limit? : Clause → Option Nat
  | .limit n => some n
  | _ => none

/-- A clause is of some items, if it is of the kinds that have items. -/
def Filled (clause : Clause) : Prop := clause ≠ .conditions [] ∧ clause ≠ .sortKeys []

end Clause

/-- A query without clauses. -/
def Select.bare (table : Text) (columns : Option (List Text)) : Select :=
  ⟨table, columns, [], [], [], none⟩

/-- A query with a clause. -/
def Select.taking (query : Select) : Clause → Select
  | .join join => { query with joins := query.joins ++ [join] }
  | .conditions conditions => { query with conditions := conditions }
  | .sortKeys keys => { query with sortKeys := keys }
  | .limit n => { query with limit := some n }

/-- Reads a clause, if one begins here. -/
def takeClause? (tokens : List Token) : Option (Except Error (Clause × List Token)) :=
  if atEnd tokens then none
  else if ahead ["INNER", "LEFT", "RIGHT", "JOIN"] tokens then
    some ((takeJoin tokens).map fun (join, rest) => (.join join, rest))
  else if ahead ["WHERE"] tokens then
    some ((takeWhere tokens).map fun (conditions, rest) => (.conditions conditions, rest))
  else if ahead ["ORDER"] tokens then
    some ((takeOrderBy tokens).map fun (keys, rest) => (.sortKeys keys, rest))
  else if ahead ["LIMIT"] tokens then
    some ((takeLimit tokens).map fun (n, rest) => (.limit n, rest))
  else none

/-- Reads clauses as they come. -/
def takeClauseList : Nat → List Token → Except Error (List Clause × List Token)
  | 0, tokens => .ok ([], tokens)
  | bound + 1, tokens =>
    match takeClause? tokens with
    | none => .ok ([], tokens)
    | some read => do
      let (clause, tokens) ← read
      let (clauses, tokens) ← takeClauseList bound tokens
      return (clause :: clauses, tokens)

/-- Reads the clauses of a query up to its end. -/
def clausesOf (text : Text) : Except Error (List Clause) := do
  let tokens ← scan text
  let tokens ← takeKeyword "SELECT" tokens
  let (_, tokens) ← takeColumns tokens
  let tokens ← takeKeyword "FROM" tokens
  let (_, tokens) ← takeWord .tableName tokens
  let (clauses, tokens) ← takeClauseList tokens.length tokens
  finish tokens
  return clauses

/-- A query is read clause by clause. -/
theorem takeClauses_succ (bound : Nat) (query : Select) (tokens : List Token) :
    takeClauses (bound + 1) query tokens =
      match takeClause? tokens with
      | none => .ok (query, tokens)
      | some read =>
        read >>= fun (clause, rest) => takeClauses bound (query.taking clause) rest := by
  rw [takeClauses, takeClause?]
  split_ifs
  · rfl
  · cases takeJoin tokens <;> rfl
  · cases takeWhere tokens <;> rfl
  · cases takeOrderBy tokens <;> rfl
  · cases takeLimit tokens <;> rfl
  · rfl

/-- The clauses that are read one by one are those that a query is made of. -/
theorem takeClauses_eq (bound : Nat) (query : Select) (tokens : List Token) :
    takeClauses bound query tokens =
      (takeClauseList bound tokens).map fun (clauses, rest) =>
        (clauses.foldl Select.taking query, rest) := by
  -- The first clause is put into the query before the others are read, so for all queries.
  induction bound generalizing query tokens with
  | zero => rfl
  | succ bound ih =>
    rw [takeClauses_succ, takeClauseList]
    cases takeClause? tokens with
    | none => rfl
    | some read =>
      cases read with
      | error error => rfl
      | ok taken =>
        change takeClauses bound (query.taking taken.1) taken.2 = _
        rw [ih]
        cases htaken : takeClauseList bound taken.2 with
        | error error =>
          dsimp only
          rw [Outcome.ok_bind, htaken]
          rfl
        | ok others =>
          dsimp only
          rw [Outcome.ok_bind, htaken]
          rfl

/-! ## What is left of the clauses -/

/-- Every join of some clauses is in a query with them. -/
theorem joins_foldl (clauses : List Clause) (query : Select) :
    (clauses.foldl Select.taking query).joins = query.joins ++ clauses.filterMap Clause.join? := by
  induction clauses generalizing query with
  | nil => exact (List.append_nil _).symm
  | cons clause others ih =>
    rw [List.foldl_cons, ih]
    cases clause with
    | join join => exact List.append_assoc query.joins [join] _
    | conditions conditions => rfl
    | sortKeys keys => rfl
    | limit n => rfl

/-- A field that clauses of one kind set is what the last of them sets it to. -/
theorem field_foldl {α : Type} (field : Select → Option α) (set? : Clause → Option α)
    (hset : ∀ query clause, field (query.taking clause) = (set? clause).or (field query))
    (clauses : List Clause) (query : Select) :
    field (clauses.foldl Select.taking query) =
      (clauses.filterMap set?).getLast?.or (field query) := by
  induction clauses generalizing query with
  | nil => rfl
  | cons clause others ih =>
    rw [List.foldl_cons, ih, hset, List.filterMap_cons]
    cases set? clause with
    | none => rfl
    | some value =>
      dsimp only
      rw [Option.some_or, List.getLast?_cons, Option.or_some, Option.some_or]

/-- The conditions of a query are those of the last `WHERE`. -/
theorem conditions_foldl (clauses : List Clause) (query : Select) :
    (clauses.foldl Select.taking query).conditions =
      (clauses.filterMap Clause.conditions?).getLast?.getD query.conditions := by
  have hfield := field_foldl (fun query => some query.conditions) Clause.conditions?
    (fun _ clause => by cases clause <;> rfl) clauses query
  rw [Option.or_some] at hfield
  exact Option.some.inj hfield

/-- The sort keys of a query are those of the last `ORDER BY`. -/
theorem sortKeys_foldl (clauses : List Clause) (query : Select) :
    (clauses.foldl Select.taking query).sortKeys =
      (clauses.filterMap Clause.sortKeys?).getLast?.getD query.sortKeys := by
  have hfield := field_foldl (fun query => some query.sortKeys) Clause.sortKeys?
    (fun _ clause => by cases clause <;> rfl) clauses query
  rw [Option.or_some] at hfield
  exact Option.some.inj hfield

/-- The limit of a query is that of the last `LIMIT`. -/
theorem limit_foldl (clauses : List Clause) (query : Select) :
    (clauses.foldl Select.taking query).limit =
      (clauses.filterMap Clause.limit?).getLast?.or query.limit :=
  field_foldl Select.limit Clause.limit? (fun _ clause => by cases clause <;> rfl) clauses query

/-- Some lists are the last one of them just when there are no two, if none is empty. -/
theorem flatten_eq_getLast?_iff {α : Type} {lists : List (List α)}
    (h : ∀ items ∈ lists, items ≠ []) :
    lists.getLast?.getD [] = lists.flatten ↔ lists.length ≤ 1 := by
  rcases List.eq_nil_or_concat lists with rfl | ⟨before, last, rfl⟩
  · exact iff_of_true rfl (Nat.zero_le 1)
  · rw [List.concat_eq_append] at h ⊢
    rw [List.getLast?_append_of_ne_nil before (List.cons_ne_nil last []), List.getLast?_singleton,
      Option.getD_some, List.flatten_append, List.flatten_singleton, List.length_append,
      List.length_singleton]
    cases before with
    | nil => exact iff_of_true rfl (Nat.le_refl 1)
    | cons first others =>
      -- The first list has items, so all lists together are longer than the last one.
      refine iff_of_false (fun heq => ?_) (by rw [List.length_cons]; omega)
      have hfirst := List.length_pos_iff.mpr (h first List.mem_cons_self)
      have hlength := congrArg List.length heq
      rw [List.length_append, List.flatten_cons, List.length_append] at hlength
      omega

/-- Some items are the last one of them just when there are no two. -/
theorem toList_getLast?_iff {α : Type} (items : List α) :
    items.getLast?.toList = items ↔ items.length ≤ 1 := by
  rcases List.eq_nil_or_concat items with rfl | ⟨before, last, rfl⟩
  · exact iff_of_true rfl (Nat.zero_le 1)
  · rw [List.concat_eq_append,
      List.getLast?_append_of_ne_nil before (List.cons_ne_nil last []), List.getLast?_singleton,
      Option.toList_some, List.length_append, List.length_singleton]
    constructor
    · intro heq
      have hlength := congrArg List.length heq
      rw [List.length_append, List.length_singleton] at hlength
      omega
    · intro hlength
      rw [List.eq_nil_of_length_eq_zero (show before.length = 0 by omega), List.nil_append]

/-- There are conditions after a `WHERE`. -/
theorem takeConditions_ne_nil {bound : Nat} {tokens rest : List Token}
    {conditions : List Condition}
    (h : takeConditions (bound + 1) tokens = .ok (conditions, rest)) : conditions ≠ [] := by
  obtain ⟨_, -, h⟩ := Outcome.bind_eq_ok.mp h
  dsimp only at h
  split at h
  · cases h
  · obtain ⟨_, -, h⟩ := Outcome.bind_eq_ok.mp h
    split at h
    · cases h
      exact List.cons_ne_nil _ _
    · obtain ⟨_, -, h⟩ := Outcome.bind_eq_ok.mp h
      cases h
      exact List.cons_ne_nil _ _

/-- A clause that is read has items. -/
theorem filled_of_takeClause? {tokens rest : List Token} {clause : Clause}
    (h : takeClause? tokens = some (.ok (clause, rest))) : clause.Filled := by
  unfold takeClause? at h
  split_ifs at h
  · obtain ⟨_, -, h⟩ := Outcome.map_eq_ok.mp (Option.some.inj h)
    cases h
    exact ⟨nofun, nofun⟩
  · obtain ⟨_, hwhere, h⟩ := Outcome.map_eq_ok.mp (Option.some.inj h)
    obtain ⟨_, -, hconditions⟩ := Outcome.bind_eq_ok.mp hwhere
    cases h
    refine ⟨fun hnone => ?_, nofun⟩
    exact takeConditions_ne_nil hconditions (Clause.conditions.inj hnone)
  · obtain ⟨_, horder, h⟩ := Outcome.map_eq_ok.mp (Option.some.inj h)
    obtain ⟨_, -, horder⟩ := Outcome.bind_eq_ok.mp horder
    obtain ⟨_, -, hkeys⟩ := Outcome.bind_eq_ok.mp horder
    cases h
    refine ⟨nofun, fun hnone => ?_⟩
    exact takeList_ne_nil hkeys (Clause.sortKeys.inj hnone)
  · obtain ⟨_, -, h⟩ := Outcome.map_eq_ok.mp (Option.some.inj h)
    cases h
    exact ⟨nofun, nofun⟩

/-- Lists of items that clauses are of are not empty. -/
theorem ne_nil_of_filled {α : Type} {items? : Clause → Option (List α)} {clauses : List Clause}
    (hfilled : ∀ clause ∈ clauses, clause.Filled)
    (hitems : ∀ clause, items? clause = some [] → ¬clause.Filled) :
    ∀ items ∈ clauses.filterMap items?, items ≠ [] := by
  rintro items hmem rfl
  obtain ⟨clause, hclause, hread⟩ := List.mem_filterMap.mp hmem
  exact hitems clause hread (hfilled clause hclause)

/-- All clauses that are read have items. -/
theorem filled_of_takeClauseList {bound : Nat} {tokens rest : List Token} {clauses : List Clause}
    (h : takeClauseList bound tokens = .ok (clauses, rest)) :
    ∀ clause ∈ clauses, clause.Filled := by
  induction bound generalizing tokens clauses rest with
  | zero =>
    cases h
    exact nofun
  | succ bound ih =>
    unfold takeClauseList at h
    split at h
    · cases h
      exact nofun
    · next read hread =>
      obtain ⟨⟨clause, after⟩, hclause, h⟩ := Outcome.bind_eq_ok.mp h
      obtain ⟨⟨others, last⟩, hothers, h⟩ := Outcome.bind_eq_ok.mp h
      cases h
      rw [hclause] at hread
      exact List.forall_mem_cons.mpr ⟨filled_of_takeClause? hread, ih hothers⟩

section

variable {tokens rest : List Token} {query : Select}

/-- An insertion is no query. -/
theorem takeInsert_ne_select : takeInsert tokens ≠ .ok (.select query, rest) := by
  refine Outcome.bind_ne_ok fun _ => Outcome.bind_ne_ok fun _ =>
    Outcome.bind_ne_ok fun ⟨_, _⟩ => ?_
  dsimp only
  split_ifs
  all_goals
    exact Outcome.bind_ne_ok fun ⟨_, _⟩ => Outcome.bind_ne_ok fun _ =>
      Outcome.bind_ne_ok fun ⟨_, _⟩ => nofun

/-- An update is no query. -/
theorem takeUpdate_ne_select : takeUpdate tokens ≠ .ok (.select query, rest) :=
  Outcome.bind_ne_ok fun _ => Outcome.bind_ne_ok fun ⟨_, _⟩ => Outcome.bind_ne_ok fun _ =>
    Outcome.bind_ne_ok fun ⟨_, _⟩ => Outcome.bind_ne_ok fun ⟨_, _⟩ => nofun

/-- A deletion is no query. -/
theorem takeDelete_ne_select : takeDelete tokens ≠ .ok (.select query, rest) :=
  Outcome.bind_ne_ok fun _ => Outcome.bind_ne_ok fun _ => Outcome.bind_ne_ok fun ⟨_, _⟩ =>
    Outcome.bind_ne_ok fun ⟨_, _⟩ => nofun

/-- The creation of a table or an index is no query. -/
theorem takeCreate_ne_select : takeCreate tokens ≠ .ok (.select query, rest) := by
  refine Outcome.bind_ne_ok fun _ => ?_
  split_ifs
  · exact Outcome.bind_ne_ok fun _ => Outcome.bind_ne_ok fun ⟨_, _⟩ =>
      Outcome.bind_ne_ok fun ⟨_, _⟩ => nofun
  · exact Outcome.bind_ne_ok fun _ => Outcome.bind_ne_ok fun ⟨_, _⟩ =>
      Outcome.bind_ne_ok fun _ => Outcome.bind_ne_ok fun ⟨_, _⟩ => Outcome.bind_ne_ok fun _ =>
        Outcome.bind_ne_ok fun ⟨_, _⟩ => Outcome.bind_ne_ok fun _ => nofun
  · exact nofun

/-- The dropping of a table is no query. -/
theorem takeDrop_ne_select : takeDrop tokens ≠ .ok (.select query, rest) :=
  Outcome.bind_ne_ok fun _ => Outcome.bind_ne_ok fun _ => Outcome.bind_ne_ok fun ⟨_, _⟩ => nofun

/-- A statement that is a query has been read as one. -/
theorem takeSelect_of_takeStatement (h : takeStatement tokens = .ok (.select query, rest)) :
    takeSelect tokens = .ok (.select query, rest) := by
  unfold takeStatement at h
  dsimp only at h
  split at h
  · cases h
  · -- Each of the other words leads to a statement of another kind.
    split_ifs at h
    · exact h
    · exact absurd h takeInsert_ne_select
    · exact absurd h takeUpdate_ne_select
    · exact absurd h takeDelete_ne_select
    · exact absurd h takeCreate_ne_select
    · exact absurd h takeDrop_ne_select
  · cases h
  · cases h

end

/-- The clauses of a text that is read as a query. -/
theorem clausesOf_of_parse {text : Text} {query : Select} (h : parse text = .ok (.select query)) :
    ∃ clauses table columns, clausesOf text = .ok clauses ∧
      (∀ clause ∈ clauses, clause.Filled) ∧
      query = clauses.foldl Select.taking (.bare table columns) := by
  obtain ⟨tokens, hscan, h⟩ := Outcome.bind_eq_ok.mp h
  obtain ⟨⟨statement, rest⟩, hstatement, h⟩ := Outcome.bind_eq_ok.mp h
  obtain ⟨_, hfinish, h⟩ := Outcome.bind_eq_ok.mp h
  cases h
  have hselect := takeSelect_of_takeStatement hstatement
  obtain ⟨named, hselectWord, hselect⟩ := Outcome.bind_eq_ok.mp hselect
  obtain ⟨⟨columns, before⟩, hcolumns, hselect⟩ := Outcome.bind_eq_ok.mp hselect
  obtain ⟨after, hfrom, hselect⟩ := Outcome.bind_eq_ok.mp hselect
  obtain ⟨⟨table, remaining⟩, htable, hselect⟩ := Outcome.bind_eq_ok.mp hselect
  obtain ⟨⟨read, rest'⟩, hclauses, hselect⟩ := Outcome.bind_eq_ok.mp hselect
  cases hselect
  rw [takeClauses_eq] at hclauses
  obtain ⟨⟨clauses, last⟩, hlist, hfold⟩ := Outcome.map_eq_ok.mp hclauses
  cases hfold
  refine ⟨clauses, table, columns, ?_, filled_of_takeClauseList hlist, rfl⟩
  rw [clausesOf, hscan, Outcome.ok_bind, hselectWord, Outcome.ok_bind, hcolumns, Outcome.ok_bind]
  dsimp only
  rw [hfrom, Outcome.ok_bind, htable, Outcome.ok_bind]
  dsimp only
  rw [hlist, Outcome.ok_bind]
  dsimp only
  rw [hfinish]
  rfl

/-- A query keeps every join that is read; the conditions, the sort keys and the limit are those of
the last clause of their kind, so that no condition, no sort key and no limit is lost just when no
clause of its kind is repeated. -/
theorem parse_retains_iff {text : Text} {query : Select} (h : parse text = .ok (.select query)) :
    ∃ clauses, clausesOf text = .ok clauses ∧
      query.joins = clauses.filterMap Clause.join? ∧
      query.conditions = (clauses.filterMap Clause.conditions?).getLast?.getD [] ∧
      query.sortKeys = (clauses.filterMap Clause.sortKeys?).getLast?.getD [] ∧
      query.limit = (clauses.filterMap Clause.limit?).getLast? ∧
      (query.conditions = (clauses.filterMap Clause.conditions?).flatten ↔
        (clauses.filterMap Clause.conditions?).length ≤ 1) ∧
      (query.sortKeys = (clauses.filterMap Clause.sortKeys?).flatten ↔
        (clauses.filterMap Clause.sortKeys?).length ≤ 1) ∧
      (query.limit.toList = clauses.filterMap Clause.limit? ↔
        (clauses.filterMap Clause.limit?).length ≤ 1) := by
  obtain ⟨clauses, table, columns, hclauses, hfilled, rfl⟩ := clausesOf_of_parse h
  have hconditions := conditions_foldl clauses (.bare table columns)
  have hkeys := sortKeys_foldl clauses (.bare table columns)
  have hlimit := limit_foldl clauses (.bare table columns)
  rw [show (Select.bare table columns).limit = none from rfl, Option.or_none] at hlimit
  have hsome : ∀ items ∈ clauses.filterMap Clause.conditions?, items ≠ [] := by
    refine ne_nil_of_filled hfilled fun clause hread hfull => ?_
    cases clause <;> cases hread
    exact hfull.1 rfl
  have hordered : ∀ items ∈ clauses.filterMap Clause.sortKeys?, items ≠ [] := by
    refine ne_nil_of_filled hfilled fun clause hread hfull => ?_
    cases clause <;> cases hread
    exact hfull.2 rfl
  refine ⟨clauses, hclauses, joins_foldl clauses _, hconditions, hkeys, hlimit, ?_, ?_, ?_⟩
  · rw [hconditions]
    exact flatten_eq_getLast?_iff hsome
  · rw [hkeys]
    exact flatten_eq_getLast?_iff hordered
  · rw [hlimit]
    exact toList_getLast?_iff _

/-- Of two conditions in clauses of their own, the first one is lost. -/
theorem parse_retains_repeated :
    let text : Text := "SELECT * FROM t WHERE a = 1 WHERE b = 2"
    let query : Select := ⟨"t", none, [], [⟨"b", .eq, .int 2, none⟩], [], none⟩
    parse text = .ok (.select query) ∧
      ∃ clauses, clausesOf text = .ok clauses ∧
        query.conditions ≠ (clauses.filterMap Clause.conditions?).flatten := by
  intro text query
  have hparse : parse text = .ok (.select query) := by decide +kernel
  obtain ⟨clauses, hclauses, -, -, -, -, hretains, -, -⟩ := parse_retains_iff hparse
  have htwo : clausesOf text = .ok [.conditions [⟨"a", .eq, .int 1, none⟩],
      .conditions [⟨"b", .eq, .int 2, none⟩]] := by decide +kernel
  rw [htwo] at hclauses
  cases hclauses
  exact ⟨hparse, _, htwo, mt hretains.mp (by decide)⟩

end RelStore.Sql
