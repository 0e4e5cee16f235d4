import RelStore.Action
import RelStore.BTree.Basic

/-!
# Index trees whose keys may not compare

`BTree.insert` and `BTree.erase` take it that a key can be compared with every key on its way. Here
a comparison is made where it is due, and one that cannot be made ends the operation
(`Value.compareM`). An erasure has made all its comparisons before it changes anything; an insertion
splits nodes on its way, and they stay split when a comparison behind them fails.
-/

namespace RelStore

/-- The order of two values, if they can be compared. -/
def Value.compareM (a b : Value) : Except Error Ordering :=
  if a.isComparable b then .ok (a.compare b) else .error .unwritableInteger

namespace BTree

variable {π : Type}

/-- The place of a key among entries. The key at this place, if there is one, is among those that
have been compared. -/
def placeM (key : Value) (entries : List (Entry π)) : Except Error Nat :=
  partitionPointM (fun entry => return (← entry.key.compareM key) == .lt) entries

/-- Makes the comparisons of the search for a key in a subtree. -/
def Node.searchM (key : Value) : (h : Nat) → Node π h → Except Error Unit
  | 0, (leaf : Leaf π) => do
    let _ ← placeM key leaf.entries
  | h + 1, (branch : Branch π (Node π h)) => do
    match branch.pairs.drop (← placeM key branch.entries) with
    | [] => searchM key h branch.last
    | (child, entry) :: _ => if sameKey key entry.key then return () else searchM key h child

section

variable [DecidableEq π]

/-- Takes a position out from under a key, if it is there. -/
def eraseM (key : Value) (position : π) : Action (BTree π) Unit := do
  let tree ← get
  tree.root.searchM key tree.depth
  set (tree.erase key position)

/-- Carries out an action on the child at a place of a branch. -/
def Branch.onChild {α β : Type} (place : Nat) (act : Action (α × Arena) β) :
    Action (Branch π α × Arena) β :=
  .within (fun (branch, arena) => (branch.childAt place, arena))
    (fun (child, arena) (branch, _) => (branch.replace place (.one child), arena)) act

/-- Adds a position under a key below the child at a place of a branch, which is split first when it
is full. The middle entry of a split child may itself be the key's. Tells whether the key is new. -/
def Branch.growM (order : Nat) (key : Value) (position : π) {h : Nat}
    (descend : Action (Node π h × Arena) Bool) (place : Nat) :
    Action (Branch π (Node π h) × Arena) Bool := do
  let (branch, arena) ← get
  match Node.split? order arena.next h (branch.childAt place) with
  | none => onChild place descend
  | some (left, middle, right) =>
    set (branch.replace place (.two left middle right), arena.taken)
    match ← key.compareM middle.key with
    | .eq =>
      set (branch.replace place (.two left (middle.add position) right), arena.taken)
      return false
    | .lt => onChild place descend
    | .gt => onChild (place + 1) descend

/-- Adds a position under a key to a subtree whose root is not full. Tells whether the key is
new. -/
def Node.insertM (order : Nat) (key : Value) (position : π) :
    (h : Nat) → Action (Node π h × Arena) Bool
  | 0 => do
    let ((leaf : Leaf π), arena) ← get
    let _ ← placeM key leaf.entries
    let inserted := Node.insert order key position 0 leaf arena
    set (inserted.result, inserted.arena)
    return inserted.isNew
  | h + 1 => do
    let ((branch : Branch π (Node π h)), arena) ← get
    let place ← placeM key branch.entries
    let descend := Branch.growM order key position (insertM order key position h) place
    match branch.pairs.drop place with
    | [] => descend
    | (child, entry) :: after =>
      if sameKey key entry.key then
        let pairs := branch.pairs.take place ++ (child, entry.add position) :: after
        set (({ branch with pairs } : Branch π (Node π h)), arena)
        return false
      else descend

/-- Adds a position under a key. A full root becomes the child of a new root first. -/
def insertM (key : Value) (position : π) : Action (BTree π) Unit := .of fun tree =>
  let degree := tree.order.degree
  let sizeAfter (outcome : Except Error Bool) : Nat :=
    if outcome.toOption = some true then tree.size + 1 else tree.size
  let descend := Node.insertM degree key position tree.depth
  if tree.root.isFull degree tree.depth then
    let above : Branch π (Node π tree.depth) := ⟨tree.arena.next, [], tree.root⟩
    let (outcome, root, arena) :=
      (Branch.growM degree key position descend 0).on (above, tree.arena.taken)
    ((fun _ => ()) <$> outcome, ⟨tree.order, tree.depth + 1, root, arena, sizeAfter outcome⟩)
  else
    let (outcome, root, arena) := descend.on (tree.root, tree.arena)
    ((fun _ => ()) <$> outcome, { tree with root, arena, size := sizeAfter outcome })

end

end BTree

end RelStore
