import Mathlib.Data.List.TakeWhile
import RelStore.Proofs.BTree.Insertion
import RelStore.Proofs.BTree.Removal
import RelStore.Proofs.BTree.WellKept

/-!
# Index trees as maps to lists of positions

A whole tree lists the entries of its root (`BTree.toList`), and each operation on it is one on that
list: a new root above a split one and the collapse of empty levels leave the list as it is. A tree
is `Valid` when its list is well kept and its size is the length of the list; the operations keep it
so. What they do to the positions under a key is then said without nodes (`search_insert`,
`search_erase`), and tables need no more than that.
-/

namespace RelStore.BTree

variable {π : Type}

/-! ## The contents of a tree -/

/-- The entries of a tree in order. -/
def toList (tree : BTree π) : List (Entry π) := Node.toList tree.depth tree.root

/-- A visit without bounds lists a tree. -/
theorem entries_eq_toList (tree : BTree π) : tree.entries = tree.toList := by
  rw [entries, range, Node.listFrom_none]
  -- Without a last key, the visit stops nowhere.
  exact List.takeWhile_eq_self_iff.mpr fun _ _ => rfl

/-- The tree without keys lists nothing. -/
theorem toList_empty (degree : Order) : (empty degree : BTree π).toList = [] := rfl

/-- Dropping empty levels leaves the list of a tree. -/
theorem toList_collapse (degree : Order) (size depth : Nat) (root : Node π depth) (arena : Arena) :
    (collapse degree size depth root arena).toList = Node.toList depth root := by
  induction depth generalizing arena with
  | zero => rfl
  | succ depth ih =>
    obtain ⟨slot, pairs, last⟩ := (root : Branch π (Node π depth))
    cases pairs with
    -- A root without own entries has one child, which takes its place.
    | nil => exact ih last _
    | cons pair pairs => rfl

/-- Dropping empty levels leaves the size of a tree. -/
theorem size_collapse (degree : Order) (size depth : Nat) (root : Node π depth) (arena : Arena) :
    (collapse degree size depth root arena).size = size := by
  induction depth generalizing arena with
  | zero => rfl
  | succ depth ih =>
    obtain ⟨slot, pairs, last⟩ := (root : Branch π (Node π depth))
    cases pairs with
    | nil => exact ih last _
    | cons pair pairs => rfl

/-- What holds of a tree with keys of a set after any operations on it. -/
structure Valid (keys : Set Value) (tree : BTree π) : Prop where
  /-- The entries are well kept. -/
  wellKept : WellKept keys tree.toList
  /-- The size counts the entries. -/
  size_eq : tree.size = tree.toList.length

/-- The tree without keys is valid. -/
theorem empty_valid {keys : Set Value} (degree : Order) : Valid keys (empty degree : BTree π) :=
  ⟨wellKept_nil, rfl⟩

namespace Valid

variable {keys : Set Value} {tree : BTree π} (htree : Valid keys tree)
  (order : Value.TotalPreorderOn keys)
include htree

/-- Every entry holds the positions under its key. -/
theorem positionsOf_key {entry : Entry π} (hentry : entry ∈ tree.toList) :
    positionsOf entry.key tree.toList = entry.positions :=
  htree.wellKept.positionsOf_key hentry

/-- A search gives no position twice, whether or not its key is of the set. -/
theorem search_nodup (key : Value) : (tree.search key).Nodup := by
  rw [search]
  cases hfind : Node.find? key tree.depth tree.root with
  | none => exact List.nodup_nil
  | some entry => exact htree.wellKept.positions_nodup entry (Node.mem_of_find? hfind)

include order

/-! ## Searching -/

/-- The positions under a key are those that the list has under it. -/
theorem search_eq {key : Value} (hkey : key ∈ keys) :
    tree.search key = positionsOf key tree.toList := by
  rw [search, Node.find?_eq order hkey tree.root htree.wellKept.toOrdered]
  rfl

/-- A tree has a key when there are positions under it. -/
theorem has_iff {key : Value} (hkey : key ∈ keys) :
    tree.has key = true ↔ tree.search key ≠ [] := by
  rw [htree.search_eq order hkey, has, Node.find?_eq order hkey _ htree.wellKept.toOrdered,
    positionsOf, ← toList]
  cases hfind : entryOf? key tree.toList with
  | none => simp
  | some entry =>
    have hentry : entry ∈ tree.toList := List.mem_of_find?_eq_some hfind
    exact iff_of_true rfl (htree.wellKept.positions_ne_nil entry hentry)

/-- A key with a position has an entry. -/
theorem exists_entry {key : Value} (hkey : key ∈ keys) (hsearch : tree.search key ≠ []) :
    ∃ entry ∈ tree.toList, sameKey key entry.key = true := by
  rw [htree.search_eq order hkey, positionsOf] at hsearch
  cases hfind : entryOf? key tree.toList with
  | none =>
    rw [hfind] at hsearch
    exact absurd rfl hsearch
  | some entry =>
    exact ⟨entry, List.mem_of_find?_eq_some hfind, by simpa using List.find?_some hfind⟩

end Valid

section

variable [DecidableEq π]

/-! ## Inserting -/

/-- Adding a position makes the list longer when its key is new. -/
theorem length_addTo {keys : Set Value} (order : Value.TotalPreorderOn keys) {key : Value}
    (hkey : key ∈ keys) (position : π) {entries : List (Entry π)} (h : Ordered keys entries) :
    (addTo key position entries).length =
      entries.length + (entryOf? key entries).isNone.toNat := by
  induction entries with
  | nil => rfl
  | cons x xs ih =>
    obtain ⟨-, hxs, -⟩ := ordered_cons.mp h
    cases hcmp : key.compare x.key with
    | lt =>
      rw [addTo_cons_of_lt hcmp, entryOf?_of_lacks (h.allAfter order hkey hcmp).lacks]
      rfl
    | eq =>
      rw [addTo_cons_of_eq hcmp, entryOf?_cons_of_eq hcmp]
      rfl
    | gt =>
      have hne : sameKey key x.key = false := by
        rw [sameKey, hcmp]
        rfl
      have hpass : entryOf? key (x :: xs) = entryOf? key xs :=
        List.find?_cons_of_neg (by rw [hne]; exact Bool.false_ne_true)
      rw [addTo, hcmp, hpass, List.length_cons, List.length_cons, ih hxs]
      omega

section

variable {keys : Set Value} (order : Value.TotalPreorderOn keys) {tree : BTree π}
  (htree : Valid keys tree) {key : Value} (hkey : key ∈ keys) (position : π)
include order htree hkey

/-- An insertion adds to the list of a tree, and its size grows when the key is new. -/
theorem insert_adds :
    ∃ isNew, Adds key position tree.toList (tree.insert key position).toList isNew ∧
      (tree.insert key position).size = tree.size + isNew.toNat := by
  have hsize (isNew : Bool) :
      (if isNew = true then tree.size + 1 else tree.size) = tree.size + isNew.toNat := by
    cases isNew <;> rfl
  have hordered := htree.wellKept.toOrdered
  unfold insert
  dsimp only
  split
  · -- The root is full: it is split like a child on the way, and its halves get a new root.
    have hadds := Node.grow_adds order tree.order.degree hkey position
      (Node.insert_adds order tree.order.degree hkey position)
      tree.root tree.arena.taken hordered
    split
    · next root hresult =>
      rw [hresult] at hadds
      exact ⟨_, hadds, hsize _⟩
    · next left middle right hresult =>
      rw [hresult] at hadds
      refine ⟨_, ?_, hsize _⟩
      have hlist : Grown.toList (.two left middle right) =
          Node.toList (tree.depth + 1)
            (⟨tree.arena.next, [(left, middle)], right⟩ : Branch π (Node π tree.depth)) := by
        simp [Grown.toList, Node.toList]
      rw [hlist] at hadds
      exact hadds
  · exact ⟨_, Node.insert_adds order _ hkey position tree.root tree.arena hordered, hsize _⟩

/-- An insertion into a tree adds the position to its list. -/
theorem toList_insert : (tree.insert key position).toList = addTo key position tree.toList := by
  obtain ⟨isNew, hadds, -⟩ := insert_adds order htree hkey position
  exact hadds.result_eq

/-- An insertion keeps a tree valid. -/
theorem insert_valid : Valid keys (tree.insert key position) := by
  obtain ⟨isNew, ⟨hresult, hnew⟩, hsize⟩ := insert_adds order htree hkey position
  constructor
  · rw [hresult]
    exact htree.wellKept.addTo order hkey position
  · rw [hresult, hsize, hnew, htree.size_eq,
      length_addTo order hkey position htree.wellKept.toOrdered]

/-- After an insertion the position is under the keys that are the same, and all else is as
before. -/
theorem search_insert {k : Value} (hk : k ∈ keys) :
    (tree.insert key position).search k =
      if sameKey k key then addPosition position (tree.search k) else tree.search k := by
  have hvalid := insert_valid order htree hkey position
  calc (tree.insert key position).search k
      = positionsOf k (tree.insert key position).toList := hvalid.search_eq order hk
    _ = positionsOf k (addTo key position tree.toList) := by
        rw [toList_insert order htree hkey position]
    _ = if sameKey k key then addPosition position (positionsOf k tree.toList)
        else positionsOf k tree.toList :=
        positionsOf_addTo order hkey position hk htree.wellKept.toOrdered
    _ = if sameKey k key then addPosition position (tree.search k) else tree.search k := by
        rw [htree.search_eq order hk]

/-! ## Removing -/

/-- A removal from a tree takes the position out of its list, if it is there. -/
theorem remove?_takes :
    (tree.remove? key position = none ∧ takeFrom? key position tree.toList = none) ∨
      ∃ rest, tree.remove? key position = some rest ∧ rest.size = rest.toList.length ∧
        takeFrom? key position tree.toList = some rest.toList := by
  have htakes := Node.remove?_takes order hkey position tree.root htree.wellKept.toOrdered
  unfold remove?
  cases hremove : Node.remove? key position tree.depth tree.root with
  | none =>
    rw [hremove] at htakes
    cases htakes with
    | absent htake => exact .inl ⟨rfl, htake⟩
  | some removed =>
    rw [hremove] at htakes
    cases htakes with
    | taken _ _ htake hlength =>
      refine .inr ⟨_, rfl, ?_, ?_⟩
      · have hsize := htree.size_eq
        rw [toList] at hsize
        rw [size_collapse, toList_collapse, hsize, ← hlength]
        cases removed.keyGone <;> rfl
      · rw [toList_collapse]
        exact htake

/-- A position is removed when it is under the key. -/
theorem isSome_remove?_iff :
    (tree.remove? key position).isSome = true ↔ position ∈ tree.search key := by
  rw [htree.search_eq order hkey, ← isSome_takeFrom?_iff]
  rcases remove?_takes order htree hkey position with ⟨hremove, htake⟩ | ⟨rest, hremove, -, htake⟩
  · rw [hremove, htake]
    rfl
  · rw [hremove, htake]
    exact iff_of_true rfl rfl

/-- A tree is erased from by taking the position out of its list, if it is there. -/
theorem toList_erase :
    (tree.erase key position).toList = (takeFrom? key position tree.toList).getD tree.toList := by
  unfold erase
  rcases remove?_takes order htree hkey position with ⟨hremove, htake⟩ | ⟨rest, hremove, -, htake⟩
  · rw [hremove, htake]
    rfl
  · rw [hremove, htake]
    rfl

/-- Erasing keeps a tree valid. -/
theorem erase_valid : Valid keys (tree.erase key position) := by
  unfold erase
  rcases remove?_takes order htree hkey position with ⟨hremove, -⟩ | ⟨rest, hremove, hsize, htake⟩
  · rw [hremove]
    exact htree
  · rw [hremove]
    exact ⟨htree.wellKept.takeFrom? htake, hsize⟩

/-- After erasing the position is no longer under the keys that are the same, and all else is as
before. -/
theorem search_erase {k : Value} (hk : k ∈ keys) :
    (tree.erase key position).search k =
      if sameKey k key then (tree.search k).erase position else tree.search k := by
  have hordered := htree.wellKept.toOrdered
  rw [(erase_valid order htree hkey position).search_eq order hk, htree.search_eq order hk,
    toList_erase order htree hkey position]
  cases htake : takeFrom? key position tree.toList with
  | some rest => exact positionsOf_takeFrom? order hkey hk hordered htake
  | none =>
    -- Nothing was taken, so the position is under no key that is the same.
    rw [Option.getD_none]
    split
    · next hsame =>
      have hmem : position ∉ positionsOf key tree.toList := by
        rw [← isSome_takeFrom?_iff, htake]
        exact Bool.false_ne_true
      rw [hordered.positionsOf_congr order hk hkey hsame, List.erase_of_not_mem hmem]
    · rfl

end

end

end RelStore.BTree
