import RelStore.BTree.Node
import RelStore.BTree.Slots

/-!
# Removal from an index tree

A position is taken out from under its key, and with the last position the key itself. Nodes are not
rebalanced: a key of an inner node is replaced by the greatest key before it, and where the subtree
before it holds no key, the subtree goes with it.
-/

namespace RelStore.BTree

/-- A subtree after its greatest entry has been taken out. -/
structure Popped (π α : Type) where
  /-- The subtree. -/
  result : α
  /-- The entry taken out. -/
  entry : Entry π
  /-- The slots no longer in use, in the order of their release. -/
  released : List Nat

/-- A subtree after a position has been taken out. -/
structure Removed (α : Type) where
  /-- The subtree. -/
  result : α
  /-- Whether the key went with its last position. -/
  keyGone : Bool
  /-- The slots no longer in use, in the order of their release. -/
  released : List Nat

namespace Node

variable {π : Type}

/-- Takes the greatest entry out of a subtree, if it has any. When the last child holds no entry,
the child is dropped and the last entry of the node is the greatest. The recursion goes as deep as
the subtree; that a call stack ends at about a thousand levels is left out. -/
def popMax : (h : Nat) → Node π h → Option (Popped π (Node π h))
  | 0, (leaf : Leaf π) =>
    leaf.entries.getLast?.map fun entry =>
      ⟨({ leaf with entries := leaf.entries.dropLast } : Leaf π), entry, []⟩
  | h + 1, (branch : Branch π (Node π h)) =>
    match popMax h branch.last with
    | some popped =>
      some ⟨({ branch with last := popped.result } : Branch π (Node π h)), popped.entry,
        popped.released⟩
    | none =>
      branch.pairs.getLast?.map fun (child, entry) =>
        ⟨(⟨branch.slot, branch.pairs.dropLast, child⟩ : Branch π (Node π h)), entry,
          slots h branch.last⟩

/-- Takes a position out from under a key, if it is there. -/
def remove? [DecidableEq π] (key : Value) (position : π) :
    (h : Nat) → Node π h → Option (Removed (Node π h))
  | 0, (leaf : Leaf π) =>
    let i := place key leaf.entries
    let before := leaf.entries.take i
    match leaf.entries.drop i with
    | [] => none
    | entry :: after =>
      if sameKey key entry.key && entry.positions.contains position then
        match entry.positions.erase position with
        | [] => some ⟨({ leaf with entries := before ++ after } : Leaf π), true, []⟩
        | positions =>
          let left : Leaf π := { leaf with entries := before ++ ⟨entry.key, positions⟩ :: after }
          some ⟨left, false, []⟩
      else none
  | h + 1, (branch : Branch π (Node π h)) =>
    let i := place key branch.entries
    let before := branch.pairs.take i
    match branch.pairs.drop i with
    | [] =>
      (remove? key position h branch.last).map fun below =>
        let left : Branch π (Node π h) := { branch with last := below.result }
        ⟨left, below.keyGone, below.released⟩
    | (child, entry) :: after =>
      if sameKey key entry.key then
        if entry.positions.contains position then
          match entry.positions.erase position with
          | [] =>
            match popMax h child with
            | some popped =>
              some ⟨({ branch with pairs := before ++ (popped.result, popped.entry) :: after } :
                Branch π (Node π h)), true, popped.released⟩
            | none =>
              some ⟨({ branch with pairs := before ++ after } : Branch π (Node π h)), true,
                slots h child⟩
          | positions =>
            some ⟨({ branch with pairs := before ++ (child, ⟨entry.key, positions⟩) :: after } :
              Branch π (Node π h)), false, []⟩
        else none
      else
        (remove? key position h child).map fun below =>
          let left : Branch π (Node π h) :=
            { branch with pairs := before ++ (below.result, entry) :: after }
          ⟨left, below.keyGone, below.released⟩

end Node

end RelStore.BTree
