import RelStore.BTree.Basic

/-!
# Cursors

A cursor visits the entries of a tree between two bounds, one after the other. It holds the path to
the next entry as a stack of nodes, each with the number of its own next entry, so that it goes on
from where it is: `Cursor.next?` drops the nodes that are done, and behind an inner entry it walks
down to the first leaf of the next child.
-/

namespace RelStore.BTree

variable {π : Type} {h : Nat}

/-- A node on the path of a cursor. -/
structure Frame (π : Type) where
  /-- How many levels lie below the node. -/
  height : Nat
  /-- The node. -/
  node : Node π height
  /-- The number of the node's next entry. -/
  next : Nat

namespace Node

/-- The path from a node down to a leaf, the leaf first, in front of other frames. Every node on it
is at the place of the lower bound, at the first entry when there is none. -/
def leftPath (start : Option Value) : (h : Nat) → Node π h → List (Frame π) → List (Frame π)
  | 0, (leaf : Leaf π), stack => ⟨0, leaf, start.elim 0 (place · leaf.entries)⟩ :: stack
  | h + 1, (branch : Branch π (Node π h)), stack =>
    let next := start.elim 0 (place · branch.entries)
    leftPath start h (branch.childAt next) (⟨h + 1, branch, next⟩ :: stack)

/-- The entries from one of a node's own entries on, with the children between them visited from the
lower bound. -/
def listBehind (start : Option Value) : (h : Nat) → Node π h → Nat → List (Entry π)
  | 0, (leaf : Leaf π), next => leaf.entries.drop next
  | h + 1, (branch : Branch π (Node π h)), next =>
    match branch.pairs.drop next with
    | [] => []
    | (_, entry) :: after =>
      entry :: (after.flatMap (fun (child, entry) => listFrom start h child ++ [entry]) ++
        listFrom start h branch.last)

end Node

namespace Frame

/-- The next entry of a frame, if there is one. -/
def entry? (frame : Frame π) : Option (Entry π) :=
  (frame.node.ownEntries frame.height)[frame.next]?

/-- The frames after the next entry of a frame: it goes forward, and the path to the first leaf of
the child behind the entry comes before it. -/
def advance (start : Option Value) : Frame π → List (Frame π) → List (Frame π)
  | ⟨0, leaf, next⟩, stack => ⟨0, leaf, next + 1⟩ :: stack
  | ⟨h + 1, (branch : Branch π (Node π h)), next⟩, stack =>
    Node.leftPath start h (branch.childAt (next + 1)) (⟨h + 1, branch, next + 1⟩ :: stack)

/-- The entries before some frames. -/
def pending (start : Option Value) (stack : List (Frame π)) : List (Entry π) :=
  stack.flatMap fun frame => frame.node.listBehind start frame.height frame.next

/-- The next entry of some frames and the frames after it. A frame without a next entry is dropped,
and an entry past the upper bound ends the visit. -/
def next? (start stop : Option Value) : List (Frame π) → Option (Entry π × List (Frame π))
  | [] => none
  | frame :: stack =>
    match frame.entry? with
    | none => next? start stop stack
    | some entry =>
      if stop.any fun bound => entry.key.compare bound == .gt then none
      else some (entry, frame.advance start stack)

end Frame

/-- The first of some frames has its entries before those of the others. -/
theorem Frame.pending_cons (start : Option Value) (frame : Frame π) (stack : List (Frame π)) :
    pending start (frame :: stack) =
      frame.node.listBehind start frame.height frame.next ++ pending start stack :=
  List.flatMap_cons

namespace Node

/-- A branch is visited through a child and then from the entry behind it. -/
theorem flatMap_append_listFrom_last (start : Option Value) (branch : Branch π (Node π h))
    (next : Nat) :
    (branch.pairs.drop next).flatMap (fun (child, entry) => listFrom start h child ++ [entry]) ++
        listFrom start h branch.last =
      listFrom start h (branch.childAt next) ++
        listBehind start (h + 1) (branch : Node π (h + 1)) next := by
  rw [Branch.childAt, listBehind]
  cases branch.pairs.drop next with
  | nil => rw [List.flatMap_nil, List.nil_append, List.append_nil]
  | cons pair after =>
    rw [List.flatMap_cons, List.append_assoc, List.append_assoc]
    rfl

/-- The path down a node has before it what a visit of the node lists. -/
theorem pending_leftPath (start : Option Value) (node : Node π h) (stack : List (Frame π)) :
    Frame.pending start (leftPath start h node stack) =
      listFrom start h node ++ Frame.pending start stack := by
  induction h generalizing stack with
  | zero => rfl
  | succ h ih =>
    change Branch π (Node π h) at node
    rw [leftPath, ih, Frame.pending_cons, ← List.append_assoc, ← flatMap_append_listFrom_last]
    rfl

end Node

namespace Frame

/-- A frame without a next entry has nothing before it. -/
theorem listBehind_of_entry?_none (start : Option Value) {frame : Frame π}
    (hentry : frame.entry? = none) :
    frame.node.listBehind start frame.height frame.next = [] := by
  obtain ⟨height, node, next⟩ := frame
  cases height with
  | zero => exact List.drop_eq_nil_of_le (List.getElem?_eq_none_iff.mp hentry)
  | succ h =>
    change Branch π (Node π h) at node
    have hle : node.pairs.length ≤ next := by
      rw [← List.length_map]
      exact List.getElem?_eq_none_iff.mp hentry
    rw [Node.listBehind, List.drop_eq_nil_of_le hle]

/-- A frame with a next entry has the entry before it, and then what the frames after the entry
have. -/
theorem pending_advance (start : Option Value) {frame : Frame π} {entry : Entry π}
    (hentry : frame.entry? = some entry) (stack : List (Frame π)) :
    pending start (frame :: stack) = entry :: pending start (frame.advance start stack) := by
  obtain ⟨height, node, next⟩ := frame
  rw [pending_cons]
  cases height with
  | zero =>
    change Leaf π at node
    change node.entries[next]? = some entry at hentry
    obtain ⟨hlt, rfl⟩ := List.getElem?_eq_some_iff.mp hentry
    rw [Node.listBehind, List.drop_eq_getElem_cons hlt, List.cons_append]
    rfl
  | succ h =>
    change Branch π (Node π h) at node
    change (node.pairs.map (·.2))[next]? = some entry at hentry
    rw [List.getElem?_map] at hentry
    obtain ⟨⟨child, _⟩, hpair, rfl⟩ := Option.map_eq_some_iff.mp hentry
    obtain ⟨hlt, hpair⟩ := List.getElem?_eq_some_iff.mp hpair
    rw [Node.listBehind, List.drop_eq_getElem_cons hlt, hpair, advance, Node.pending_leftPath,
      pending_cons, ← List.append_assoc, ← Node.flatMap_append_listFrom_last]
    rfl

/-- What comes next is the first of the entries before some frames. -/
theorem pending_of_next?_some {start stop : Option Value} {stack later : List (Frame π)}
    {entry : Entry π} (hnext : next? start stop stack = some (entry, later)) :
    pending start stack = entry :: pending start later := by
  induction stack with
  | nil => cases hnext
  | cons frame stack ih =>
    rw [next?] at hnext
    split at hnext
    · next hnone =>
      rw [pending_cons, listBehind_of_entry?_none start hnone, ih hnext, List.nil_append]
    · next hsome =>
      split at hnext
      · cases hnext
      · cases hnext
        exact pending_advance start hsome stack

end Frame

/-- A cursor over the entries between two bounds. -/
structure Cursor (π : Type) where
  /-- The lower bound. -/
  start : Option Value
  /-- The upper bound. -/
  stop : Option Value
  /-- The path to the next entry, from the lowest node up. -/
  stack : List (Frame π)

namespace Cursor

/-- The next entry and the cursor after it, unless the visit has ended. -/
def next? (cursor : Cursor π) : Option (Entry π × Cursor π) :=
  (Frame.next? cursor.start cursor.stop cursor.stack).map fun (entry, later) =>
    (entry, { cursor with stack := later })

/-- The entries before a cursor, also those past the upper bound. -/
def pending (cursor : Cursor π) : List (Entry π) := Frame.pending cursor.start cursor.stack

/-- What comes next is the first of the entries before a cursor. -/
theorem pending_of_next?_some {cursor later : Cursor π} {entry : Entry π}
    (hnext : cursor.next? = some (entry, later)) : cursor.pending = entry :: later.pending := by
  obtain ⟨⟨entry, stack⟩, hstack, hlater⟩ := Option.map_eq_some_iff.mp hnext
  cases hlater
  exact Frame.pending_of_next?_some hstack

/-- The entries that a cursor visits. -/
def toList (cursor : Cursor π) : List (Entry π) :=
  match _hnext : cursor.next? with
  | none => []
  | some (entry, later) => entry :: later.toList
termination_by cursor.pending.length
decreasing_by
  rw [pending_of_next?_some _hnext, List.length_cons]
  exact Nat.lt_succ_self _

end Cursor

/-- The cursor in front of the first entry of a tree between two bounds. -/
def iterator (tree : BTree π) (start stop : Option Value) : Cursor π :=
  ⟨start, stop, Node.leftPath start tree.depth tree.root []⟩

end RelStore.BTree
