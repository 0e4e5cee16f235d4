import RelStore.Halving
import RelStore.Value

/-!
# Nodes of an index tree

An index maps keys to the positions of the rows that hold them. It is a tree of nodes, all of whose
leaves lie at one depth; the type `Node π h` holds the subtrees of `h` levels above the leaves, with
positions of type `π`, so that equal depth needs no proof. An inner node has one child before each
of its entries and a last child after them. Every node carries the number of its slot, its place in
the store of nodes.

`Node.toList` lists the entries of a subtree in order, and `Node.find?` looks a key up.
-/

namespace RelStore.BTree

/-- A key with the positions under it. -/
structure Entry (π : Type) where
  /-- The key. -/
  key : Value
  /-- The positions, in the order in which they were added. -/
  positions : List π
  deriving DecidableEq

/-- An entry with a position added, unless it is there already. -/
def Entry.add {π : Type} [DecidableEq π] (position : π) (entry : Entry π) : Entry π :=
  if position ∈ entry.positions then entry
  else { entry with positions := entry.positions ++ [position] }

/-- A node without children. -/
structure Leaf (π : Type) where
  /-- The number of the node's slot. -/
  slot : Nat
  /-- The entries in order. -/
  entries : List (Entry π)

/-- A node with children of type `α`. -/
structure Branch (π α : Type) where
  /-- The number of the node's slot. -/
  slot : Nat
  /-- The entries in order, each with the child before it. -/
  pairs : List (α × Entry π)
  /-- The child after all entries. -/
  last : α

/-- A subtree whose leaves lie `h` levels below its root. -/
@[reducible]
def Node (π : Type) : Nat → Type
  | 0 => Leaf π
  | h + 1 => Branch π (Node π h)

variable {π α : Type}

/-- Whether two keys are the same to the order of values. -/
def sameKey (a b : Value) : Bool := a.compare b == .eq

/-- The place of a key among entries: the number of entries before it. -/
def place (key : Value) (entries : List (Entry π)) : Nat :=
  partitionPoint (fun entry => entry.key.compare key == .lt) entries

namespace Branch

/-- The entries of a branch in order. -/
def entries (branch : Branch π α) : List (Entry π) := branch.pairs.map (·.2)

/-- The child in front of the entry at a place, the last child past all entries. -/
def childAt (branch : Branch π α) (place : Nat) : α :=
  match branch.pairs.drop place with
  | [] => branch.last
  | (child, _) :: _ => child

end Branch

namespace Node

/-- The entries of a subtree's root. -/
def ownEntries : (h : Nat) → Node π h → List (Entry π)
  | 0, (leaf : Leaf π) => leaf.entries
  | _ + 1, (branch : Branch π (Node π _)) => branch.entries

/-- The entries of a subtree in order. -/
def toList : (h : Nat) → Node π h → List (Entry π)
  | 0, (leaf : Leaf π) => leaf.entries
  | h + 1, (branch : Branch π (Node π h)) =>
    branch.pairs.flatMap (fun (child, entry) => toList h child ++ [entry]) ++ toList h branch.last

/-- The slots of a subtree: its own first, then those of the children from the last to the first. -/
def slots : (h : Nat) → Node π h → List Nat
  | 0, (leaf : Leaf π) => [leaf.slot]
  | h + 1, (branch : Branch π (Node π h)) =>
    branch.slot ::
      (slots h branch.last ++ branch.pairs.reverse.flatMap fun (child, _) => slots h child)

/-- The entry of a key, looked for along one path down the subtree. -/
def find? (key : Value) : (h : Nat) → Node π h → Option (Entry π)
  | 0, (leaf : Leaf π) =>
    (leaf.entries.drop (place key leaf.entries)).head?.filter fun entry => sameKey key entry.key
  | h + 1, (branch : Branch π (Node π h)) =>
    match branch.pairs.drop (place key branch.entries) with
    | [] => find? key h branch.last
    | (child, entry) :: _ => if sameKey key entry.key then some entry else find? key h child

/-- The entries of a subtree in order, without those on the path before the first key to visit. At
each node the visit begins at the place of `start`, at the first entry when there is none. -/
def listFrom (start : Option Value) : (h : Nat) → Node π h → List (Entry π)
  | 0, (leaf : Leaf π) => leaf.entries.drop (start.elim 0 (place · leaf.entries))
  | h + 1, (branch : Branch π (Node π h)) =>
    (branch.pairs.drop (start.elim 0 (place · branch.entries))).flatMap
      (fun (child, entry) => listFrom start h child ++ [entry]) ++ listFrom start h branch.last

end Node

end RelStore.BTree
