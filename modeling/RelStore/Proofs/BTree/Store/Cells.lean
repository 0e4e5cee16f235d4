import RelStore.BTree.Store
import RelStore.Proofs.BTree.Kept

/-!
# Nodes as their slots hold them

A node of a tree has a cell (`Node.cell`): its entries, and the slots of its children in place of the
children. What an operation asks of a cell is what it would ask of the node, and the cell of a node
with another entry is the cell with the other entry.
-/

namespace RelStore.BTree

variable {π : Type} {h : Nat}

/-! ## Branches -/

namespace Branch

variable {α : Type}

/-- A branch that takes back a child keeps its slot. -/
theorem slot_replace (branch : Branch π α) (i : Nat) (grown : Grown π α) :
    (branch.replace i grown).slot = branch.slot := by
  unfold replace
  split <;> split <;> rfl

/-- A branch that takes back one node has the same entries. -/
theorem entries_replace_one (branch : Branch π α) (i : Nat) (child : α) :
    (branch.replace i (.one child)).entries = branch.entries := by
  rw [replace]
  split
  · rfl
  · next hdrop =>
    conv_rhs => rw [entries, ← List.take_append_drop i branch.pairs, hdrop]
    simp [entries]

/-- A branch that takes back two halves has the entry between them put in. -/
theorem entries_replace_two (branch : Branch π α) (i : Nat) (left right : α) (middle : Entry π) :
    (branch.replace i (.two left middle right)).entries = insertAt i middle branch.entries := by
  have hsplit := List.take_append_drop i branch.pairs
  rw [replace, insertAt, entries, entries, ← List.map_take, ← List.map_drop]
  split
  · next hdrop =>
    rw [hdrop, List.append_nil] at hsplit
    rw [hdrop, hsplit]
    simp
  · next hdrop =>
    rw [hdrop]
    simp

end Branch

/-! ## Nodes and cells -/

namespace Node

/-- The slot of the root of a subtree. -/
def slot : (h : Nat) → Node π h → Nat
  | 0, (leaf : Leaf π) => leaf.slot
  | _ + 1, (branch : Branch π (Node π _)) => branch.slot

/-- The slots of a node's children. -/
def childSlots : (h : Nat) → Node π h → List Nat
  | 0, _ => []
  | h + 1, (branch : Branch π (Node π h)) => branch.children.map (slot h)

/-- A node as its slot is to hold it. -/
def cell (h : Nat) (node : Node π h) : Cell π where
  isLeaf := h == 0
  keys := (ownEntries h node).map Entry.key
  positions := (ownEntries h node).map Entry.positions
  children := childSlots h node

/-- The place of a key in a node's cell is that among its entries. -/
theorem placeOf_cell (key : Value) (node : Node π h) :
    (cell h node).placeOf key = place key (ownEntries h node) :=
  partitionPoint_map Entry.key (fun k => k.compare key == .lt) (ownEntries h node)

/-- Whether a node has a key itself, at the place where it is looked for. -/
def hasOwn (key : Value) (h : Nat) (node : Node π h) : Bool :=
  (ownEntries h node)[place key (ownEntries h node)]?.any fun entry => sameKey key entry.key

/-- A leaf has a key if its first entry not before the key has it. -/
theorem hasOwn_leaf (key : Value) (leaf : Leaf π) :
    hasOwn key 0 leaf =
      (leaf.entries.drop (place key leaf.entries)).head?.any fun entry => sameKey key entry.key := by
  rw [List.head?_drop]
  rfl

/-- A branch has a key if its first entry not before the key has it. -/
theorem hasOwn_branch (key : Value) (branch : Branch π (Node π h)) :
    hasOwn key (h + 1) branch = (branch.pairs.drop (place key branch.entries)).head?.any
      fun pair => sameKey key pair.2.key := by
  rw [List.head?_drop]
  change ((branch.pairs.map (·.2))[place key branch.entries]?.any _) = _
  rw [List.getElem?_map]
  cases branch.pairs[place key branch.entries]? <;> rfl

/-- A node that has a key has an entry of it. -/
theorem exists_own {key : Value} {node : Node π h} (hkey : hasOwn key h node = true) :
    ∃ entry, (ownEntries h node)[place key (ownEntries h node)]? = some entry ∧
      sameKey key entry.key = true := by
  rw [hasOwn] at hkey
  cases hentry : (ownEntries h node)[place key (ownEntries h node)]? with
  | none =>
    rw [hentry] at hkey
    cases hkey
  | some entry =>
    rw [hentry] at hkey
    exact ⟨entry, rfl, hkey⟩

/-- A node's cell has a key where the node has it. -/
theorem hasAt_cell (key : Value) (node : Node π h) :
    (cell h node).hasAt key (place key (ownEntries h node)) = hasOwn key h node := by
  rw [Cell.hasAt, hasOwn, cell, List.getElem?_map]
  cases (ownEntries h node)[place key (ownEntries h node)]? <;> rfl

/-- A node's cell is full when the node is. -/
theorem isFull_cell (degree : Nat) (node : Node π h) :
    (cell h node).isFull degree = isFull degree h node := by
  rw [Cell.isFull, cell, List.length_map, isFull]

/-- A node's cell has its entries. -/
theorem entryAt?_cell (i : Nat) (node : Node π h) :
    (cell h node).entryAt? i = (ownEntries h node)[i]? := by
  rw [Cell.entryAt?, cell, List.getElem?_map, List.getElem?_map]
  cases (ownEntries h node)[i]? <;> rfl

/-- A branch has the slot of the child at a place there. -/
theorem childSlots_at {branch : Branch π (Node π h)} {i : Nat} (hi : i ≤ branch.pairs.length) :
    (cell (h + 1) branch).children[i]? = some (slot h (branch.childAt i)) := by
  obtain ⟨before, after, hchildren, hbefore, -⟩ := branch.exists_children_replace i
  change (branch.children.map (slot h))[i]? = _
  rw [hchildren, ← hbefore hi]
  simp

/-! ## Cells that change -/

/-- Nodes with the same entries and the same slots of children have the same cell. -/
theorem cell_congr {node left : Node π h} (hentries : ownEntries h left = ownEntries h node)
    (hchildren : childSlots h left = childSlots h node) : cell h left = cell h node := by
  rw [cell, cell, hentries, hchildren]

/-- A node with another entry at a place has the cell with the other entry. -/
theorem setEntry_cell {node left : Node π h} {i : Nat} {entry : Entry π}
    (hentries : ownEntries h left = (ownEntries h node).set i entry)
    (hchildren : childSlots h left = childSlots h node) :
    (cell h node).setEntry i entry = cell h left := by
  simp only [cell, Cell.setEntry, hentries, hchildren, List.map_set]

/-- A node with an entry put in at a place has the entries of the cell with the entry. -/
theorem insertEntry_cell {node left : Node π h} {i : Nat} {entry : Entry π}
    (hentries : ownEntries h left = insertAt i entry (ownEntries h node)) :
    { (cell h node).insertEntry i entry with children := childSlots h left } = cell h left := by
  simp only [cell, Cell.insertEntry, hentries, insertAt, List.map_append, List.map_cons,
    List.map_take, List.map_drop]

/-- A node without an entry has the entries of the cell without it. -/
theorem eraseEntry_cell {node left : Node π h} {i : Nat}
    (hentries : ownEntries h left = (ownEntries h node).eraseIdx i) :
    { (cell h node).eraseEntry i with children := childSlots h left } = cell h left := by
  simp only [cell, Cell.eraseEntry, hentries, List.eraseIdx_map]

end Node

end RelStore.BTree
