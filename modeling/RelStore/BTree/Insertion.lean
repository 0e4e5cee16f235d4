import RelStore.BTree.Node
import RelStore.BTree.Slots

/-!
# Insertion into an index tree

A position is added under a key on the way down. A full child on that way is split before it is
entered: its middle entry moves up between the two halves, so that there is always room for an entry
that comes from below.
-/

namespace RelStore.BTree

/-- A child on the way of an insertion. -/
inductive Grown (π α : Type) where
  /-- The child stays one node. -/
  | one (child : α)
  /-- The child has been split in two around an entry. -/
  | two (left : α) (middle : Entry π) (right : α)

/-- A subtree after an insertion. -/
structure Inserted (α : Type) where
  /-- The subtree. -/
  result : α
  /-- The slots in use. -/
  arena : Arena
  /-- Whether the key is new. -/
  isNew : Bool

/-- A branch whose child at a place has grown. -/
def Branch.replace {π α : Type} (branch : Branch π α) (place : Nat) : Grown π α → Branch π α
  | .one child =>
    match branch.pairs.drop place with
    | [] => { branch with last := child }
    | (_, entry) :: after =>
      { branch with pairs := branch.pairs.take place ++ (child, entry) :: after }
  | .two left middle right =>
    match branch.pairs.drop place with
    | [] => { branch with pairs := branch.pairs ++ [(left, middle)], last := right }
    | (_, entry) :: after =>
      { branch with
        pairs := branch.pairs.take place ++ (left, middle) :: (right, entry) :: after }

namespace Node

variable {π : Type}

/-- Whether a node has all entries that a node of the order may have. -/
def isFull (order : Nat) (h : Nat) (node : Node π h) : Bool :=
  (ownEntries h node).length == order - 1

/-- The two halves of a node around its middle entry, the right one in a new slot. -/
def halves? (order slot : Nat) : (h : Nat) → Node π h → Option (Node π h × Entry π × Node π h)
  | 0, (leaf : Leaf π) =>
    let middle := (order - 1) / 2
    match leaf.entries.drop middle with
    | [] => none
    | entry :: after =>
      some ({ leaf with entries := leaf.entries.take middle }, entry, (⟨slot, after⟩ : Leaf π))
  | h + 1, (branch : Branch π (Node π h)) =>
    let middle := (order - 1) / 2
    match branch.pairs.drop middle with
    | [] => none
    | (child, entry) :: after =>
      some ((⟨branch.slot, branch.pairs.take middle, child⟩ : Branch π (Node π h)), entry,
        (⟨slot, after, branch.last⟩ : Branch π (Node π h)))

/-- Splits a full node; others are left whole. -/
def split? (order slot h : Nat) (node : Node π h) : Option (Node π h × Entry π × Node π h) :=
  if isFull order h node then halves? order slot h node else none

/-- Adds a position under a key below a child, which is split first when it is full. The middle
entry of a split child may itself be the key's. -/
def grow [DecidableEq π] (order : Nat) (key : Value) (position : π) {h : Nat}
    (descend : Node π h → Arena → Inserted (Node π h)) (child : Node π h) (arena : Arena) :
    Inserted (Grown π (Node π h)) :=
  match split? order arena.next h child with
  | none =>
    let below := descend child arena
    ⟨.one below.result, below.arena, below.isNew⟩
  | some (left, middle, right) =>
    match key.compare middle.key with
    | .eq => ⟨.two left (middle.add position) right, arena.taken, false⟩
    | .lt =>
      let below := descend left arena.taken
      ⟨.two below.result middle right, below.arena, below.isNew⟩
    | .gt =>
      let below := descend right arena.taken
      ⟨.two left middle below.result, below.arena, below.isNew⟩

/-- Adds a position under a key to a subtree whose root is not full. -/
def insert [DecidableEq π] (order : Nat) (key : Value) (position : π) :
    (h : Nat) → Node π h → Arena → Inserted (Node π h)
  | 0, (leaf : Leaf π), arena =>
    let i := place key leaf.entries
    let before := leaf.entries.take i
    match leaf.entries.drop i with
    | [] => ⟨({ leaf with entries := before ++ [⟨key, [position]⟩] } : Leaf π), arena, true⟩
    | entry :: after =>
      if sameKey key entry.key then
        ⟨({ leaf with entries := before ++ entry.add position :: after } : Leaf π), arena, false⟩
      else
        ⟨({ leaf with entries := before ++ ⟨key, [position]⟩ :: entry :: after } : Leaf π), arena,
          true⟩
  | h + 1, (branch : Branch π (Node π h)), arena =>
    let i := place key branch.entries
    match branch.pairs.drop i with
    | [] =>
      let below := grow order key position (insert order key position h) branch.last arena
      ⟨branch.replace i below.result, below.arena, below.isNew⟩
    | (child, entry) :: after =>
      if sameKey key entry.key then
        ⟨({ branch with pairs := branch.pairs.take i ++ (child, entry.add position) :: after } :
            Branch π (Node π h)), arena, false⟩
      else
        let below := grow order key position (insert order key position h) child arena
        ⟨branch.replace i below.result, below.arena, below.isNew⟩

end Node

end RelStore.BTree
