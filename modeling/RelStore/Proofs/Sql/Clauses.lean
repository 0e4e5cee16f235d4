import RelStore.Proofs.Sql.Reading

/-!
# Reading the clauses of a query

A join, sort keys and a limit are read as they are written, and so are the clauses of a query in
the order of the grammar. The clauses are gone through from the last one to the first one: what is
read from a clause on is known once it is known of the clauses after it. None of them is
taken for a part of the one before it, since each begins with a keyword of its own.
-/

namespace RelStore.Sql

open Lexeme (word symbol)

/-! ## Clauses by themselves -/

/-- A reference is taken apart into the parts that it is made of. -/
theorem JoinColumn.ofReference_reference {side : JoinColumn} (h : Plain side.column) :
    JoinColumn.ofReference side.reference = side := by
  obtain ⟨table, column⟩ := side
  cases table with
  | none =>
    change JoinColumn.ofReference column = _
    rw [ofReference, splitQualified?_of_plain h]
  | some table =>
    change JoinColumn.ofReference (qualify table column) = _
    rw [ofReference, splitQualified?_qualify table h]

/-- A join is read. -/
theorem reads_takeJoin {join : Join} (h : join.Legible) :
    Reads takeJoin Anything (Lexeme.ofJoin join) join := by
  intro tokens rest hspelled _
  obtain ⟨kind, table, left, right⟩ := join
  simp only [Lexeme.ofJoin, spelled_cons, spelled_nil] at hspelled
  obtain ⟨p, _, rfl, q, _, rfl, r, _, rfl, s, _, rfl, t, _, rfl, u, _, rfl, v, _, rfl, rfl⟩ :=
    hspelled
  have hleft : JoinColumn.ofReference left.reference = left :=
    JoinColumn.ofReference_reference h.left.plain
  have hright : JoinColumn.ofReference right.reference = right :=
    JoinColumn.ofReference_reference h.right.plain
  calc takeJoin _ = .ok (.on kind table (.ofReference left.reference)
          (.ofReference right.reference), rest) := by
        cases kind <;> rfl
    _ = .ok (⟨kind, table, left, right⟩, rest) := by
        rw [hleft, hright, Join.on, if_neg h.inOrder]

/-- A sort key is read. -/
theorem reads_takeSortKey (key : SortKey) :
    Reads takeSortKey Anything [word key.column, word key.direction.text] key := by
  intro tokens rest hspelled _
  obtain ⟨column, direction⟩ := key
  simp only [spelled_cons, spelled_nil] at hspelled
  obtain ⟨p, _, rfl, q, _, rfl, rfl⟩ := hspelled
  cases direction <;> rfl

/-- Sort keys are read, if no comma follows them. -/
theorem reads_takeOrderBy {keys : List SortKey} (hnonempty : keys ≠ []) :
    Reads takeOrderBy (Without [","]) (Lexeme.ofSortKeys keys) keys := by
  intro tokens rest hspelled hrest
  rw [Lexeme.ofSortKeys, if_neg (by rwa [List.isEmpty_iff])] at hspelled
  simp only [List.cons_append, List.nil_append, spelled_cons] at hspelled
  obtain ⟨p, _, rfl, q, after, rfl, hspelled⟩ := hspelled
  exact reads_takeList (fun key _ => reads_takeSortKey key) (fun _ _ => trivial) hnonempty after
    rest hspelled ⟨trivial, hrest⟩

/-- A limit is read. -/
theorem reads_takeLimit {n : Nat} (h : n < tenTo digitLimit) :
    Reads takeLimit Anything (Lexeme.ofLimit (some n)) n := by
  intro tokens rest hspelled _
  simp only [Lexeme.ofLimit, spelled_cons, spelled_nil] at hspelled
  obtain ⟨p, _, rfl, q, _, rfl, rfl⟩ := hspelled
  change (if TokenKind.word = .word ∧ isNumeral (Text.ofNat n) = true then
    (numeral (Text.ofNat n)).bind _ else _) = _
  rw [if_pos ⟨rfl, isNumeral_ofNat n⟩, numeral_ofNat h]
  rfl

/-! ## The clauses of a query -/

section

variable {table : Text} {columns : Option (List Text)} {joins : List Join}
  {conditions : List Condition} {keys : List SortKey} {limit : Option Nat}
  {tokens rest : List Token} {bound : Nat}

/-- What is not ahead at the end is not ahead of lexemes that begin otherwise either. -/
theorem without_spelled {texts : List Text} {lexemes : List Lexeme}
    (hspelled : Spelled tokens lexemes) (hrest : Ending rest) (hend : texts.contains ";" = false)
    (hhead : ∀ l ∈ lexemes.head?, l.isAmong texts = false) : Without texts (tokens ++ rest) := by
  rw [Without, ahead_spelled hspelled]
  cases hl : lexemes.head? with
  | none => exact hrest.ahead hend
  | some l => exact hhead l hl

/-- At the end of a query no clause is read. -/
theorem takeClauses_ending (hrest : Ending rest) (query : Select) :
    takeClauses bound query rest = .ok (query, rest) := by
  cases bound with
  | zero => rfl
  | succ bound => rw [takeClauses, if_pos hrest.atEnd]

/-- The limit at the end of a query is read. -/
theorem takeClauses_limit (hlimit : ∀ n ∈ limit, n < tenTo digitLimit)
    (hspelled : Spelled tokens (Lexeme.ofLimit limit)) (hrest : Ending rest)
    (hbound : tokens.length ≤ bound) :
    takeClauses bound ⟨table, columns, joins, conditions, keys, none⟩ (tokens ++ rest) =
      .ok (⟨table, columns, joins, conditions, keys, limit⟩, rest) := by
  cases limit with
  | none =>
    rw [spelled_nil.mp hspelled]
    exact takeClauses_ending hrest _
  | some n =>
    have hread := reads_takeLimit (hlimit n rfl) tokens rest hspelled trivial
    obtain ⟨p, after, rfl, -⟩ := spelled_cons.mp hspelled
    obtain ⟨left, rfl⟩ := Nat.exists_eq_add_one_of_ne_zero (Nat.ne_zero_of_lt hbound)
    change (takeLimit _ >>= _) = _
    rw [hread]
    exact takeClauses_ending hrest _

/-- The sort keys and what follows them are read. -/
theorem takeClauses_sortKeys (hlimit : ∀ n ∈ limit, n < tenTo digitLimit)
    (hspelled : Spelled tokens (Lexeme.ofSortKeys keys ++ Lexeme.ofLimit limit))
    (hrest : Ending rest) (hbound : tokens.length ≤ bound) :
    takeClauses bound ⟨table, columns, joins, conditions, [], none⟩ (tokens ++ rest) =
      .ok (⟨table, columns, joins, conditions, keys, limit⟩, rest) := by
  obtain ⟨first, others, rfl, hfirst, hothers⟩ := spelled_append.mp hspelled
  cases keys with
  | nil =>
    rw [spelled_nil.mp hfirst, List.nil_append] at hbound ⊢
    exact takeClauses_limit hlimit hothers hrest hbound
  | cons key keys =>
    have hfollow : Without [","] (others ++ rest) := by
      refine without_spelled hothers hrest rfl ?_
      cases limit <;> rintro _ ⟨⟩
      rfl
    have hread := reads_takeOrderBy (List.cons_ne_nil key keys) first (others ++ rest) hfirst
      hfollow
    obtain ⟨p, after, rfl, -⟩ := spelled_cons.mp hfirst
    obtain ⟨left, rfl⟩ := Nat.exists_eq_add_one_of_ne_zero (Nat.ne_zero_of_lt hbound)
    change (takeOrderBy _ >>= _) = _
    rw [List.append_assoc, hread]
    refine takeClauses_limit hlimit hothers hrest ?_
    rw [List.length_append, List.length_cons] at hbound
    omega

/-- The conditions and what follows them are read. -/
theorem takeClauses_conditions (hconditions : LegibleConditions conditions)
    (hlimit : ∀ n ∈ limit, n < tenTo digitLimit)
    (hspelled : Spelled tokens
      (Lexeme.ofConditions conditions ++ (Lexeme.ofSortKeys keys ++ Lexeme.ofLimit limit)))
    (hrest : Ending rest) (hbound : tokens.length ≤ bound) :
    takeClauses bound ⟨table, columns, joins, [], [], none⟩ (tokens ++ rest) =
      .ok (⟨table, columns, joins, conditions, keys, limit⟩, rest) := by
  obtain ⟨first, others, rfl, hfirst, hothers⟩ := spelled_append.mp hspelled
  cases conditions with
  | nil =>
    rw [spelled_nil.mp hfirst, List.nil_append] at hbound ⊢
    exact takeClauses_sortKeys hlimit hothers hrest hbound
  | cons condition conditions =>
    have hfollow : Without ["AND", "OR"] (others ++ rest) := by
      refine without_spelled hothers hrest rfl ?_
      cases keys <;> cases limit <;> rintro _ ⟨⟩ <;> rfl
    have hread := reads_takeWhere (List.cons_ne_nil condition conditions) hconditions first
      (others ++ rest) hfirst hfollow
    obtain ⟨p, after, rfl, -⟩ := spelled_cons.mp hfirst
    obtain ⟨left, rfl⟩ := Nat.exists_eq_add_one_of_ne_zero (Nat.ne_zero_of_lt hbound)
    change (takeWhere _ >>= _) = _
    rw [List.append_assoc, hread]
    refine takeClauses_sortKeys hlimit hothers hrest ?_
    rw [List.length_append, List.length_cons] at hbound
    omega

/-- The joins and what follows them are read. -/
theorem takeClauses_joins {done : List Join} (hjoins : ∀ join ∈ joins, join.Legible)
    (hconditions : LegibleConditions conditions) (hlimit : ∀ n ∈ limit, n < tenTo digitLimit)
    (hspelled : Spelled tokens (joins.flatMap Lexeme.ofJoin ++
      (Lexeme.ofConditions conditions ++ (Lexeme.ofSortKeys keys ++ Lexeme.ofLimit limit))))
    (hrest : Ending rest) (hbound : tokens.length ≤ bound) :
    takeClauses bound ⟨table, columns, done, [], [], none⟩ (tokens ++ rest) =
      .ok (⟨table, columns, done ++ joins, conditions, keys, limit⟩, rest) := by
  -- The induction is on the joins, along with those that have been read and the bound.
  induction joins generalizing done tokens bound with
  | nil =>
    rw [List.append_nil]
    exact takeClauses_conditions hconditions hlimit hspelled hrest hbound
  | cons join joins ih =>
    obtain ⟨hjoin, hjoins⟩ := List.forall_mem_cons.mp hjoins
    rw [List.flatMap_cons, List.append_assoc] at hspelled
    obtain ⟨first, others, rfl, hfirst, hothers⟩ := spelled_append.mp hspelled
    have hread := reads_takeJoin hjoin first (others ++ rest) hfirst trivial
    obtain ⟨p, after, rfl, -⟩ := spelled_cons.mp hfirst
    obtain ⟨left, rfl⟩ := Nat.exists_eq_add_one_of_ne_zero (Nat.ne_zero_of_lt hbound)
    have hstep : takeClauses (left + 1) ⟨table, columns, done, [], [], none⟩
        ((word join.kind.text).token p :: after ++ (others ++ rest)) =
          takeClauses left ⟨table, columns, done ++ [join], [], [], none⟩ (others ++ rest) := by
      obtain ⟨kind, joined, a, b⟩ := join
      cases kind <;>
      · change (takeJoin _ >>= _) = _
        rw [hread]
        rfl
    have hleft : others.length ≤ left := by
      rw [List.length_append, List.length_cons] at hbound
      omega
    rw [List.append_assoc, hstep, ih hjoins hothers hleft, List.append_assoc, List.singleton_append]

end

/-! ## Queries -/

/-- The upper case of a character of words is no asterisk. -/
theorem toUpper_ne_asterisk {c : CodePoint} (h : isWordChar c = true) : c.toUpper ≠ .char '*' := by
  have hcode := code_of_isWordChar h
  cases c with
  | surrogate offset => exact nofun
  | char c =>
    have hascii : c.toNat < 128 := by
      simp only [CodePoint.code] at hcode
      omega
    have hnone : ∀ n : Fin 128, (Char.ofNat n).toUpper = '*' → (Char.ofNat n) = '*' := by decide
    intro heq
    have hasterisk := hnone ⟨c.toNat, hascii⟩
    rw [Char.ofNat_toNat] at hasterisk
    rw [hasterisk (CodePoint.char.inj heq)] at h
    exact absurd h (by decide)

/-- No word is an asterisk. -/
theorem not_ahead_asterisk {name : Text} (h : IsWord name) (position : Nat) (rest : List Token) :
    ahead ["*"] ((word name).token position :: rest) = false := by
  obtain ⟨c, cs, rfl⟩ := List.exists_cons_of_ne_nil h.1
  have hne : (c :: cs).map CodePoint.toUpper ≠ "*" := by
    intro heq
    exact toUpper_ne_asterisk (h.2 c List.mem_cons_self) (List.cons.inj heq).1
  change (["*"] : List Text).contains ((c :: cs).map CodePoint.toUpper) = false
  rw [← Bool.not_eq_true, List.contains_iff_mem, List.mem_singleton]
  exact hne

/-- The columns that a query asks for are read, if no comma follows them. -/
theorem reads_takeColumns {columns : Option (List Text)}
    (h : ∀ names ∈ columns, names ≠ [] ∧ ∀ name ∈ names, IsWord name) :
    Reads takeColumns (Without [","])
      (columns.elim [symbol "*"] fun names => Lexeme.listed (names.map ([word ·]))) columns := by
  intro tokens rest hspelled hrest
  cases columns with
  | none =>
    obtain ⟨p, _, rfl, hnil⟩ := spelled_cons.mp hspelled
    rw [spelled_nil.mp hnil]
    rfl
  | some names =>
    obtain ⟨hnonempty, hwords⟩ := h names rfl
    have hread := reads_takeList (fun name _ => reads_takeWord .columnName name)
      (fun _ _ => trivial) hnonempty tokens rest hspelled ⟨trivial, hrest⟩
    obtain ⟨name, others, rfl⟩ := List.exists_cons_of_ne_nil hnonempty
    have hspelled : Spelled tokens (Lexeme.listed ((name :: others).map ([word ·]))) := hspelled
    rw [listed_map_cons, List.singleton_append] at hspelled
    obtain ⟨p, after, rfl, -⟩ := spelled_cons.mp hspelled
    have hnot : ahead ["*"] ((word name).token p :: after ++ rest) = false :=
      not_ahead_asterisk (hwords name List.mem_cons_self) p _
    rw [takeColumns, if_neg (ne_true_of_eq_false hnot), hread]
    rfl

/-- A query is read. -/
theorem reads_takeSelect {query : Select} (h : query.Legible) :
    Reads takeSelect Ending (Lexeme.ofSelect query) (.select query) := by
  intro tokens rest hspelled hrest
  simp only [Lexeme.ofSelect, List.append_assoc, List.cons_append, List.nil_append, spelled_cons]
    at hspelled
  obtain ⟨p, _, rfl, hspelled⟩ := hspelled
  obtain ⟨names, _, rfl, hnames, hspelled⟩ := spelled_append.mp hspelled
  simp only [spelled_cons] at hspelled
  obtain ⟨q, _, rfl, r, clauses, rfl, hclauses⟩ := hspelled
  have hcolumns := reads_takeColumns h.columns names
    ((word "FROM").token q :: (word query.table).token r :: (clauses ++ rest)) hnames rfl
  have hquery : takeClauses (clauses ++ rest).length ⟨query.table, query.columns, [], [], [], none⟩
      (clauses ++ rest) = .ok (query, rest) := by
    refine takeClauses_joins h.joins h.conditions h.limit hclauses hrest ?_
    rw [List.length_append]
    exact Nat.le_add_right _ _
  rw [List.cons_append, List.append_assoc, List.cons_append, List.cons_append]
  change (takeColumns (names ++ _) >>= _) = _
  rw [hcolumns]
  change (takeClauses (clauses ++ rest).length ⟨query.table, query.columns, [], [], [], none⟩
    (clauses ++ rest) >>= _) = _
  rw [hquery]
  rfl

end RelStore.Sql
