import RelStore.Proofs.BTree.Store.Subtrees

/-!
# Search in a store

A search goes from slot to slot. From the root of a subtree that lies in the store it comes to the
entry that the subtree has of the key (`exists_locate`), and the way along the first children goes
over as many levels as the subtree has (`levels_eq`).
-/

namespace RelStore.BTree

variable {π : Type} {h : Nat} {store : Store π} {key : Value}

namespace Store

/-- A node that has the key itself is where the search ends. -/
theorem locate_own {node : Node π h} (hlies : node.Lies store.cells)
    (hkey : node.hasOwn key h = true) (steps : Nat) :
    store.locate key (steps + 1) (node.slot h) =
      some (some (node.slot h, place key (node.ownEntries h))) := by
  rw [locate, hlies.own]
  simp only [Option.bind_eq_bind, Option.bind_some, Node.placeOf_cell, Node.hasAt_cell, hkey]
  rfl

/-- A leaf that does not have the key ends the search. -/
theorem locate_leaf {leaf : Leaf π} (hlies : Node.Lies store.cells 0 leaf)
    (hkey : Node.hasOwn key 0 leaf = false) (steps : Nat) :
    store.locate key (steps + 1) leaf.slot = some none := by
  have hown : store.cells[leaf.slot]? = some (Node.cell 0 leaf) := hlies
  rw [locate, hown]
  simp only [Option.bind_eq_bind, Option.bind_some, Node.placeOf_cell, Node.hasAt_cell, hkey]
  rfl

/-- The search goes on below a branch that does not have the key. -/
theorem locate_below {branch : Branch π (Node π h)} (hlies : Node.Lies store.cells (h + 1) branch)
    (hkey : Node.hasOwn key (h + 1) branch = false) (steps : Nat) :
    store.locate key (steps + 1) branch.slot =
      store.locate key steps ((branch.childAt (place key branch.entries)).slot h) := by
  have hown : store.cells[branch.slot]? = some (Node.cell (h + 1) branch) := hlies.1
  have hplace : (Node.cell (h + 1) branch).placeOf key = place key branch.entries :=
    @Node.placeOf_cell π (h + 1) key branch
  have hat : (Node.cell (h + 1) branch).hasAt key (place key branch.entries) = false :=
    (@Node.hasAt_cell π (h + 1) key branch).trans hkey
  rw [locate, hown]
  simp only [Option.bind_eq_bind, Option.bind_some, hplace, hat,
    Node.childSlots_at (branch.place_le key)]
  rfl

end Store

namespace Node

/-- A node that has the key itself has it for the subtree. -/
theorem find?_own {node : Node π h} {entry : Entry π}
    (hentry : (ownEntries h node)[place key (ownEntries h node)]? = some entry)
    (hsame : sameKey key entry.key = true) : find? key h node = some entry := by
  cases h with
  | zero =>
    change Leaf π at node
    change node.entries[place key node.entries]? = some entry at hentry
    rw [find?, List.head?_drop, hentry]
    exact if_pos hsame
  | succ h =>
    change Branch π (Node π h) at node
    change (node.pairs.map (·.2))[place key node.entries]? = some entry at hentry
    rw [List.getElem?_map, ← List.head?_drop] at hentry
    rw [find?]
    split
    · next hdrop =>
      rw [hdrop] at hentry
      cases hentry
    · next child other after hdrop =>
      rw [hdrop] at hentry
      cases hentry
      exact if_pos hsame

/-- A leaf that does not have the key has no entry of it. -/
theorem find?_leaf {leaf : Leaf π} (hkey : hasOwn key 0 leaf = false) :
    find? key 0 leaf = none := by
  rw [hasOwn_leaf] at hkey
  rw [find?]
  cases hhead : (leaf.entries.drop (place key leaf.entries)).head? with
  | none => rfl
  | some entry =>
    rw [hhead] at hkey
    exact if_neg (Bool.eq_false_iff.mp hkey)

/-- A branch that does not have the key has what a child has of it. -/
theorem find?_below {branch : Branch π (Node π h)} (hkey : hasOwn key (h + 1) branch = false) :
    find? key (h + 1) branch = find? key h (branch.childAt (place key branch.entries)) := by
  rw [hasOwn_branch] at hkey
  rw [find?, Branch.childAt]
  split
  · next hdrop => rw [hdrop]
  · next child entry after hdrop =>
    rw [hdrop] at hkey ⊢
    exact if_neg (Bool.eq_false_iff.mp hkey)

end Node

namespace Store

/-- What a search for an entry comes to: the place of the entry if there is one. -/
inductive Finds (store : Store π) : Option (Entry π) → Option (Nat × Nat) → Prop where
  /-- There is no entry. -/
  | none : Finds store none none
  /-- The entry is at a place of the node in a slot. -/
  | some {slot i : Nat} {cell : Cell π} {entry : Entry π} (hcell : store.cells[slot]? = some cell)
      (hentry : cell.entryAt? i = some entry) : Finds store (some entry) (some (slot, i))

/-- A search that ends at a node itself finds its entry. -/
theorem exists_locate_own {node : Node π h} (hlies : node.Lies store.cells)
    (hkey : node.hasOwn key h = true) (steps : Nat) :
    ∃ found, store.locate key (steps + 1) (node.slot h) = some found ∧
      store.Finds (node.find? key h) found := by
  obtain ⟨entry, hentry, hsame⟩ := Node.exists_own hkey
  refine ⟨_, locate_own hlies hkey steps, ?_⟩
  rw [Node.find?_own hentry hsame]
  exact .some hlies.own ((Node.entryAt?_cell _ node).trans hentry)

/-- The search from a subtree comes to the entry that the subtree has of the key. -/
theorem exists_locate (node : Node π h) (hlies : node.Lies store.cells) (steps : Nat) :
    ∃ found, store.locate key (steps + h + 1) (node.slot h) = some found ∧
      store.Finds (node.find? key h) found := by
  induction h with
  | zero =>
    cases hkey : node.hasOwn key 0 with
    | true => exact exists_locate_own hlies hkey steps
    | false =>
      rw [Node.find?_leaf hkey]
      exact ⟨none, locate_leaf hlies hkey steps, .none⟩
  | succ h ih =>
    cases hkey : node.hasOwn key (h + 1) with
    | true => exact exists_locate_own hlies hkey (steps + (h + 1))
    | false =>
      change Branch π (Node π h) at node
      rw [Node.find?_below hkey, Node.slot, locate_below hlies hkey]
      exact ih _ (hlies.2 _ (node.childAt_mem _))

/-- The way down the first children goes over as many levels as the subtree has. -/
theorem levels_eq (node : Node π h) (hlies : node.Lies store.cells) (steps : Nat) :
    store.levels (steps + h + 1) (node.slot h) = some (h + 1) := by
  induction h with
  | zero =>
    rw [levels, hlies.own]
    rfl
  | succ h ih =>
    change Branch π (Node π h) at node
    have hown : store.cells[node.slot]? = some (Node.cell (h + 1) node) := hlies.1
    have hbelow := ih _ (hlies.2 _ (node.childAt_mem 0))
    rw [Nat.add_assoc] at hbelow
    rw [Node.slot, levels, hown]
    simp only [Option.bind_eq_bind, Option.bind_some, Node.childSlots_at (Nat.zero_le _), hbelow]
    rfl

/-! ## Whole trees -/

section

variable {tree : BTree π} (hholds : store.Holds tree)
  (haccounts : tree.arena.Accounts (tree.root.slots tree.depth))
include hholds haccounts

/-- A search in a store that holds a tree comes to the entry that the tree has of the key. -/
theorem Holds.exists_locate (key : Value) :
    ∃ found, store.locate key store.cells.length store.root = some found ∧
      store.Finds (tree.root.find? key tree.depth) found := by
  obtain ⟨steps, hsteps⟩ := hholds.exists_steps haccounts
  rw [hsteps, hholds.root_eq]
  exact Store.exists_locate tree.root hholds.lies steps

/-- A store that holds a tree finds the positions that the tree has under a key. -/
theorem Holds.search (key : Value) : store.search key = some (tree.search key) := by
  obtain ⟨found, hlocate, hfinds⟩ := hholds.exists_locate haccounts key
  rw [Store.search, hlocate, BTree.search]
  generalize tree.root.find? key tree.depth = result at hfinds ⊢
  cases hfinds with
  | none => rfl
  | @some slot i cell entry hcell hentry =>
    rw [Cell.entryAt?] at hentry
    obtain ⟨k, -, hentry⟩ := Option.bind_eq_some_iff.mp hentry
    obtain ⟨positions, hpositions, hentry⟩ := Option.bind_eq_some_iff.mp hentry
    cases hentry
    simp [hcell, hpositions]

/-- A store that holds a tree has the keys of the tree. -/
theorem Holds.has (key : Value) : store.has key = some (tree.has key) := by
  obtain ⟨found, hlocate, hfinds⟩ := hholds.exists_locate haccounts key
  rw [Store.has, hlocate, BTree.has]
  generalize tree.root.find? key tree.depth = result at hfinds ⊢
  cases hfinds with
  | none => rfl
  | some hcell hentry => rfl

/-- A store that holds a tree has as many levels. -/
theorem Holds.height : store.height = some tree.height := by
  obtain ⟨steps, hsteps⟩ := hholds.exists_steps haccounts
  rw [Store.height, hsteps, hholds.root_eq, levels_eq tree.root hholds.lies, BTree.height]

end

end Store

end RelStore.BTree
