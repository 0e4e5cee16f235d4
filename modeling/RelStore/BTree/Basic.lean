import RelStore.BTree.Insertion
import RelStore.BTree.Removal

/-!
# Index trees

`BTree π` is a map from keys to positions of type `π`, kept as a tree of nodes of a bounded number
of entries. A key is found along one path, and a range of keys is visited without the subtrees
before it.
-/

namespace RelStore

/-- The order of a tree: the greatest number of children that a node may have. -/
structure BTree.Order where
  /-- The number of children. -/
  degree : Nat
  /-- A node has room for at least two entries and at most 1023. -/
  inRange : 3 ≤ degree ∧ degree ≤ 1024
  deriving DecidableEq

/-- The order of a number, if trees of that order exist. -/
def BTree.Order.ofInt? (n : Int) : Option BTree.Order :=
  if h : 3 ≤ n.toNat ∧ n.toNat ≤ 1024 then some ⟨n.toNat, h⟩ else none

/-- The order that trees have when none is asked for. -/
def BTree.Order.default : BTree.Order := ⟨4, by decide, by decide⟩

/-- An ordered map from keys to positions. -/
structure BTree (π : Type) where
  /-- The order of the tree. -/
  order : BTree.Order
  /-- How many levels lie above the leaves. -/
  depth : Nat
  /-- The whole tree. -/
  root : BTree.Node π depth
  /-- The slots in use. -/
  arena : BTree.Arena
  /-- How many keys the tree holds. -/
  size : Nat

namespace BTree

variable {π : Type}

/-- The tree without keys. -/
def empty (order : Order) : BTree π where
  order := order
  depth := 0
  root := (⟨0, []⟩ : Leaf π)
  arena := .single
  size := 0

/-- How many levels a tree has. -/
def height (tree : BTree π) : Nat := tree.depth + 1

/-- Adds a position under a key. A full root is split first, under a new root. The key is taken to
compare with every key on its way; `insertM` makes the comparisons one by one and says what is left
when one of them fails. -/
def insert [DecidableEq π] (tree : BTree π) (key : Value) (position : π) : BTree π :=
  let degree := tree.order.degree
  let sizeWith (isNew : Bool) : Nat := if isNew then tree.size + 1 else tree.size
  if tree.root.isFull degree tree.depth then
    let grown :=
      Node.grow degree key position (Node.insert degree key position tree.depth) tree.root
        tree.arena.taken
    match grown.result with
    | .one root =>
      { tree with root := root, arena := grown.arena, size := sizeWith grown.isNew }
    | .two left middle right =>
      { order := tree.order
        depth := tree.depth + 1
        root := (⟨tree.arena.next, [(left, middle)], right⟩ : Branch π (Node π tree.depth))
        arena := grown.arena
        size := sizeWith grown.isNew }
  else
    let inserted := Node.insert degree key position tree.depth tree.root tree.arena
    { tree with root := inserted.result, arena := inserted.arena, size := sizeWith inserted.isNew }

/-- The tree of a root, without the levels at the top that hold no key and one child. -/
def collapse (order : Order) (size : Nat) : (depth : Nat) → Node π depth → Arena → BTree π
  | 0, root, arena => ⟨order, 0, root, arena, size⟩
  | depth + 1, (root : Branch π (Node π depth)), arena =>
    match root.pairs with
    | [] => collapse order size depth root.last (arena.release [root.slot])
    | _ :: _ => ⟨order, depth + 1, root, arena, size⟩

/-- Takes a position out from under a key, if it is there. -/
def remove? [DecidableEq π] (tree : BTree π) (key : Value) (position : π) : Option (BTree π) :=
  (Node.remove? key position tree.depth tree.root).map fun removed =>
    collapse tree.order (if removed.keyGone then tree.size - 1 else tree.size) tree.depth
      removed.result (tree.arena.release removed.released)

/-- The tree without a position under a key. -/
def erase [DecidableEq π] (tree : BTree π) (key : Value) (position : π) : BTree π :=
  (tree.remove? key position).getD tree

/-- The positions under a key, in the order in which they were added. -/
def search (tree : BTree π) (key : Value) : List π :=
  ((tree.root.find? key tree.depth).map Entry.positions).getD []

/-- Whether a tree holds a key. -/
def has (tree : BTree π) (key : Value) : Bool := (tree.root.find? key tree.depth).isSome

/-- The entries from the place of one bound up to the first key past the other one. -/
def range (tree : BTree π) (start stop : Option Value) : List (Entry π) :=
  (tree.root.listFrom start tree.depth).takeWhile fun entry =>
    stop.all fun bound => entry.key.compare bound != .gt

/-- All entries in key order. -/
def entries (tree : BTree π) : List (Entry π) := tree.range none none

/-- The positions of all keys between two bounds, in key order. -/
def searchRange (tree : BTree π) (start stop : Option Value) : List π :=
  (tree.range start stop).flatMap Entry.positions

/-- A tree of the same order without keys. -/
def clear (tree : BTree π) : BTree π := empty tree.order

end BTree

end RelStore
