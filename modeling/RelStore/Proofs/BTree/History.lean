import Mathlib.Data.List.Induction
import RelStore.Proofs.BTree.Multimap

/-!
# Histories of an index tree

What a tree answers after any operations on an empty one is determined by the operations: a position
is under a key when it was inserted under a key that is the same and neither deleted from there nor
cleared since (`Present`), and positions stand in the order in which they came (`held`). A tree that
`Reflects` a history does so after one more operation (`Reflects.step`), hence every tree that was
empty once reflects its own (`run_reflects`).
-/

namespace RelStore.BTree

variable {π : Type}

/-- An operation that changes a tree. -/
inductive Operation (π : Type) where
  /-- Add a position under a key. -/
  | insert (key : Value) (position : π)
  /-- Take a position out from under a key, if it is there. -/
  | delete (key : Value) (position : π)
  /-- Drop all keys. -/
  | clear

namespace Operation

/-- Whether the key of an operation, if it has one, is of a set. -/
def KeyIn (keys : Set Value) : Operation π → Prop
  | insert key _ => key ∈ keys
  | delete key _ => key ∈ keys
  | clear => True

/-- Whether an operation leaves a position under a key, if it is there. -/
def Keeps (k : Value) (position : π) : Operation π → Prop
  | insert _ _ => True
  | delete key other => ¬(sameKey k key = true ∧ position = other)
  | clear => False

end Operation

/-- Whether a position is under a key after some operations: one of them has added it under a key
that is the same, and no later one has taken it out. -/
def Present (k : Value) (position : π) (operations : List (Operation π)) : Prop :=
  ∃ before key after, operations = before ++ .insert key position :: after ∧
    sameKey k key = true ∧ ∀ operation ∈ after, operation.Keeps k position

/-- A position is present after one more operation when the operation adds it, or when it was
present and the operation leaves it. -/
theorem present_append {k : Value} {p : π} {operations : List (Operation π)}
    {operation : Operation π} :
    Present k p (operations ++ [operation]) ↔
      (∃ key, operation = .insert key p ∧ sameKey k key = true) ∨
        (Present k p operations ∧ operation.Keeps k p) := by
  constructor
  · rintro ⟨before, key, after, hsplit, hsame, hkeeps⟩
    -- The insertion is the last operation, or it comes before the last one.
    induction after using List.reverseRecOn with
    | nil =>
      obtain ⟨-, hlast⟩ := List.append_inj' hsplit rfl
      exact .inl ⟨key, List.singleton_inj.mp hlast, hsame⟩
    | append_singleton after last _ =>
      rw [← List.cons_append, ← List.append_assoc] at hsplit
      obtain ⟨hoperations, hlast⟩ := List.append_inj' hsplit rfl
      obtain rfl := List.singleton_inj.mp hlast
      refine .inr ⟨⟨before, key, after, hoperations, hsame, fun o ho => ?_⟩, ?_⟩
      · exact hkeeps o (List.mem_append_left _ ho)
      · exact hkeeps operation (List.mem_append_right _ List.mem_cons_self)
  · rintro (⟨key, rfl, hsame⟩ | ⟨⟨before, key, after, rfl, hsame, hkeeps⟩, hkeep⟩)
    · exact ⟨operations, key, [], rfl, hsame, by simp⟩
    · refine ⟨before, key, after ++ [operation], by simp, hsame, fun o ho => ?_⟩
      rcases List.mem_append.mp ho with ho | ho
      · exact hkeeps o ho
      · rw [List.mem_singleton.mp ho]
        exact hkeep

section

variable [DecidableEq π]

/-- A tree after an operation. -/
def step (tree : BTree π) : Operation π → BTree π
  | .insert key position => tree.insert key position
  | .delete key position => tree.erase key position
  | .clear => tree.clear

/-- A tree after some operations, one after the other, on the tree without keys. -/
def run (degree : Order) (operations : List (Operation π)) : BTree π :=
  operations.foldl step (empty degree)

/-- The positions under a key after one more operation: a new one goes to the end. -/
def holdAfter (k : Value) (positions : List π) : Operation π → List π
  | .insert key position => if sameKey k key then addPosition position positions else positions
  | .delete key position => if sameKey k key then positions.erase position else positions
  | .clear => []

/-- The positions under a key after some operations, in the order in which they came. -/
def held (k : Value) (operations : List (Operation π)) : List π :=
  operations.foldl (holdAfter k) []

/-! ## The positions that a history leaves -/

/-- One more operation changes what was held before it. -/
theorem held_append (k : Value) (operations : List (Operation π)) (operation : Operation π) :
    held k (operations ++ [operation]) = holdAfter k (held k operations) operation := by
  rw [held, List.foldl_append]
  rfl

/-- No position is held twice under a key. -/
theorem held_nodup (k : Value) (operations : List (Operation π)) :
    (held k operations).Nodup := by
  induction operations using List.reverseRecOn with
  | nil => exact List.nodup_nil
  | append_singleton operations operation ih =>
    rw [held_append]
    cases operation with
    | insert key position =>
      rw [holdAfter]
      split
      · exact addPosition_nodup ih
      · exact ih
    | delete key position =>
      rw [holdAfter]
      split
      · exact ih.erase position
      · exact ih
    | clear => exact List.nodup_nil

/-- The positions held under a key are those that are present. -/
theorem mem_held_iff {k : Value} {p : π} (operations : List (Operation π)) :
    p ∈ held k operations ↔ Present k p operations := by
  -- The induction is on the last operation: what it does to the list is what it does to presence.
  induction operations using List.reverseRecOn with
  | nil => simp [held, Present]
  | append_singleton operations operation ih =>
    rw [held_append, present_append, ← ih]
    cases operation with
    | insert key position =>
      rw [holdAfter]
      by_cases hsame : sameKey k key = true
      · rw [if_pos hsame, mem_addPosition]
        simp only [Operation.Keeps, Operation.insert.injEq, and_true]
        constructor
        · rintro (hmem | rfl)
          · exact .inr hmem
          · exact .inl ⟨key, ⟨rfl, rfl⟩, hsame⟩
        · rintro (⟨_, ⟨-, rfl⟩, -⟩ | hmem)
          · exact .inr rfl
          · exact .inl hmem
      · rw [if_neg hsame]
        constructor
        · exact fun hmem => .inr ⟨hmem, trivial⟩
        · rintro (⟨key', heq, hsame'⟩ | ⟨hmem, -⟩)
          · cases heq
            exact absurd hsame' hsame
          · exact hmem
    | delete key position =>
      rw [holdAfter]
      simp only [Operation.Keeps, reduceCtorEq, false_and, exists_false, false_or]
      by_cases hsame : sameKey k key = true
      · rw [if_pos hsame, (held_nodup k operations).mem_erase_iff]
        simp only [hsame, true_and]
        exact and_comm
      · rw [if_neg hsame]
        exact ⟨fun hmem => ⟨hmem, fun h => hsame h.1⟩, And.left⟩
    | clear => simp [holdAfter, Operation.Keeps]

/-! ## Trees and their histories -/

/-- What is kept of a tree by every operation: it is valid, it holds what its history leaves, and
its keys have been inserted. -/
structure Reflects (keys : Set Value) (operations : List (Operation π)) (tree : BTree π) :
    Prop where
  /-- The tree is valid. -/
  valid : Valid keys tree
  /-- The positions under a key are those that the history leaves there. -/
  search_eq : ∀ k ∈ keys, tree.search k = held k operations
  /-- Every key comes from an insertion. -/
  inserted : ∀ entry ∈ tree.toList, ∃ position, .insert entry.key position ∈ operations

/-- The tree without keys reflects the empty history. -/
theorem empty_reflects (keys : Set Value) (degree : Order) :
    Reflects keys [] (empty degree : BTree π) where
  valid := empty_valid degree
  search_eq := fun _ _ => rfl
  inserted := by simp [toList_empty]

section

variable {keys : Set Value} (order : Value.TotalPreorderOn keys)
include order

/-- After one more operation a tree reflects the longer history. -/
theorem Reflects.step {operations : List (Operation π)} {tree : BTree π}
    (h : Reflects keys operations tree) {operation : Operation π} (hkey : operation.KeyIn keys) :
    Reflects keys (operations ++ [operation]) (tree.step operation) := by
  -- The keys of old entries come from earlier insertions, whatever the operation is.
  have hold {entry : Entry π} (hentry : entry ∈ tree.toList) :
      ∃ position, .insert entry.key position ∈ operations ++ [operation] := by
    obtain ⟨position, hmem⟩ := h.inserted entry hentry
    exact ⟨position, List.mem_append_left _ hmem⟩
  cases operation with
  | insert key position =>
    refine ⟨insert_valid order h.valid hkey position, fun k hk => ?_, fun entry hentry => ?_⟩
    · rw [held_append, holdAfter, ← h.search_eq k hk]
      exact search_insert order h.valid hkey position hk
    · rw [BTree.step, toList_insert order h.valid hkey position] at hentry
      rcases key_mem_addTo hentry with hnew | ⟨x, hx, hsame⟩
      · rw [hnew]
        exact ⟨position, List.mem_append_right _ List.mem_cons_self⟩
      · rw [hsame]
        exact hold hx
  | delete key position =>
    refine ⟨erase_valid order h.valid hkey position, fun k hk => ?_, fun entry hentry => ?_⟩
    · rw [held_append, holdAfter, ← h.search_eq k hk]
      exact search_erase order h.valid hkey position hk
    · rw [BTree.step, toList_erase order h.valid hkey position] at hentry
      cases htake : takeFrom? key position tree.toList with
      | none =>
        rw [htake] at hentry
        exact hold hentry
      | some rest =>
        rw [htake, Option.getD_some] at hentry
        have hkeys := (keys_takeFrom?_sublist htake).subset (List.mem_map_of_mem hentry)
        obtain ⟨x, hx, hsame⟩ := List.mem_map.mp hkeys
        rw [← hsame]
        exact hold hx
  | clear =>
    obtain ⟨hvalid, hsearch, hinserted⟩ := empty_reflects (π := π) keys tree.order
    refine ⟨hvalid, fun k hk => ?_, fun entry hentry => ?_⟩
    · rw [held_append]
      exact hsearch k hk
    · cases hentry

/-- Every tree reflects the operations by which it came to be. -/
theorem run_reflects (degree : Order) {operations : List (Operation π)}
    (hkeys : ∀ operation ∈ operations, operation.KeyIn keys) :
    Reflects keys operations (run degree operations) := by
  induction operations using List.reverseRecOn with
  | nil => exact empty_reflects keys degree
  | append_singleton operations operation ih =>
    obtain ⟨hold, hnew⟩ := List.forall_mem_append.mp hkeys
    rw [run, List.foldl_append, ← run]
    exact (ih hold).step order (hnew operation List.mem_cons_self)

end

/-- What a tree answers that has come to be by some operations. -/
structure IsMultimap (keys : Set Value) (operations : List (Operation π)) (tree : BTree π) :
    Prop where
  /-- A search gives the positions that the operations leave under a key, in the order in which
  they came. -/
  search_eq : ∀ k ∈ keys, tree.search k = held k operations
  /-- These are the ones inserted under a key that is the same and not taken out since. -/
  mem_search : ∀ k ∈ keys, ∀ p, p ∈ tree.search k ↔ Present k p operations
  /-- None of them occurs twice. -/
  search_nodup : ∀ k ∈ keys, (tree.search k).Nodup
  /-- A tree has a key when there are any. -/
  has_iff : ∀ k ∈ keys, (tree.has k = true ↔ tree.search k ≠ [])
  /-- A position is deleted when it is one of them. -/
  isSome_remove? : ∀ k ∈ keys, ∀ p, (tree.remove? k p).isSome = true ↔ p ∈ tree.search k
  /-- The size counts the entries. -/
  size_eq : tree.size = tree.entries.length
  /-- The keys of the entries ascend, so no two of them are the same. -/
  ascending : tree.entries.Pairwise fun a b => a.key.compare b.key = .lt
  /-- Every entry has a key that has been inserted and holds its positions, of which there are
  some. -/
  entry : ∀ entry ∈ tree.entries, (∃ p, .insert entry.key p ∈ operations) ∧ entry.key ∈ keys ∧
    entry.positions = held entry.key operations ∧ entry.positions ≠ []
  /-- Every key with a position is the same as one of the entries'. -/
  exists_entry : ∀ k ∈ keys, held k operations ≠ [] →
    ∃ entry ∈ tree.entries, sameKey k entry.key = true

/-- A tree is a map from keys to lists of positions: after any operations with keys on which the
order of values is a total preorder, it answers what the operations leave. -/
theorem run_isMultimap {keys : Set Value} (order : Value.TotalPreorderOn keys) (degree : Order)
    (operations : List (Operation π)) (hkeys : ∀ operation ∈ operations, operation.KeyIn keys) :
    IsMultimap keys operations (run degree operations) := by
  have hreflects := run_reflects order degree hkeys
  obtain ⟨hvalid, hsearch, hinserted⟩ := hreflects
  -- All that follows is about a tree that reflects the operations, whatever its nodes are.
  generalize run degree operations = tree at hvalid hsearch hinserted
  constructor
  case search_eq => exact hsearch
  case mem_search =>
    intro k hk p
    rw [hsearch k hk]
    exact mem_held_iff operations
  case search_nodup => exact fun k _ => hvalid.search_nodup k
  case has_iff => exact fun k hk => hvalid.has_iff order hk
  case isSome_remove? => exact fun k hk p => isSome_remove?_iff order hvalid hk p
  case size_eq =>
    rw [entries_eq_toList]
    exact hvalid.size_eq
  case ascending =>
    rw [entries_eq_toList]
    exact hvalid.wellKept.ascending
  case entry =>
    intro entry hentry
    rw [entries_eq_toList] at hentry
    have hkey : entry.key ∈ keys := hvalid.wellKept.mem_keys entry hentry
    have hpositions : entry.positions = held entry.key operations := by
      rw [← hsearch _ hkey, hvalid.search_eq order hkey, hvalid.positionsOf_key hentry]
    exact ⟨hinserted entry hentry, hkey, hpositions, hvalid.wellKept.positions_ne_nil entry hentry⟩
  case exists_entry =>
    intro k hk hheld
    rw [entries_eq_toList]
    rw [← hsearch k hk] at hheld
    exact hvalid.exists_entry order hk hheld

/-- After truth values have been inserted and deleted, the later of two positions is left. -/
theorem run_isMultimap_boolean :
    let operations : List (Operation Nat) :=
      [.insert (.bool true) 0, .insert .null 1, .insert (.bool true) 2, .delete (.bool true) 0]
    (∀ operation ∈ operations, operation.KeyIn DataType.boolean.keys) ∧
      IsMultimap DataType.boolean.keys operations (run .default operations) ∧
      held (.bool true) operations = [2] := by
  intro operations
  have htrue : Value.bool true ∈ DataType.boolean.keys := ⟨rfl, nofun⟩
  have hkeys : ∀ operation ∈ operations, operation.KeyIn DataType.boolean.keys := by
    simp only [operations, List.forall_mem_cons, List.not_mem_nil, false_imp_iff, implies_true,
      and_true, Operation.KeyIn]
    exact ⟨htrue, DataType.boolean.null_mem_keys, htrue, htrue⟩
  have order := DataType.boolean.keys_totalPreorder
  exact ⟨hkeys, run_isMultimap order .default operations hkeys, by decide⟩

end

end RelStore.BTree
