import RelStore.BTree.Basic

/-!
# Index trees in a store of nodes

The nodes of a tree lie in numbered slots of one store and name their children by the numbers of
their slots. An operation goes from slot to slot. Nothing in a store tells that there is a node in a
slot that it comes to, or that its way ends, and the outcome is `none` where this is not so: no way
down a tree comes to more nodes than there are slots, so that this is how many steps there are at
most. `BTree` is the same tree with its nodes inside one another.
-/

namespace RelStore.BTree

variable {π : Type}

/-! ## Nodes -/

/-- A node as its slot holds it. -/
structure Cell (π : Type) where
  /-- Whether the node is a leaf. -/
  isLeaf : Bool
  /-- The keys in order. -/
  keys : List Value
  /-- The positions under each key. -/
  positions : List (List π)
  /-- The slots of the children in order. -/
  children : List Nat

/-- A list with an element put in at a place, at the end if the place is past it. -/
def insertAt {α : Type} (place : Nat) (x : α) (xs : List α) : List α :=
  xs.take place ++ x :: xs.drop place

namespace Cell

/-- A node without keys and children. -/
def blank (isLeaf : Bool) : Cell π := ⟨isLeaf, [], [], []⟩

/-- The place of a key in a node. -/
def placeOf (key : Value) (cell : Cell π) : Nat :=
  partitionPoint (fun k => k.compare key == .lt) cell.keys

/-- Whether a node has a key at a place. -/
def hasAt (key : Value) (place : Nat) (cell : Cell π) : Bool := cell.keys[place]?.any (sameKey key)

/-- Whether a node has all keys that a node of the order may have. -/
def isFull (degree : Nat) (cell : Cell π) : Bool := cell.keys.length == degree - 1

/-- The entry at a place of a node. -/
def entryAt? (place : Nat) (cell : Cell π) : Option (Entry π) := do
  some ⟨← cell.keys[place]?, ← cell.positions[place]?⟩

/-- A node with an entry put in at a place. -/
def insertEntry (place : Nat) (entry : Entry π) (cell : Cell π) : Cell π :=
  { cell with
    keys := insertAt place entry.key cell.keys
    positions := insertAt place entry.positions cell.positions }

/-- A node with another entry at a place. -/
def setEntry (place : Nat) (entry : Entry π) (cell : Cell π) : Cell π :=
  { cell with
    keys := cell.keys.set place entry.key
    positions := cell.positions.set place entry.positions }

/-- A node without the entry at a place. -/
def eraseEntry (place : Nat) (cell : Cell π) : Cell π :=
  { cell with keys := cell.keys.eraseIdx place, positions := cell.positions.eraseIdx place }

/-- What is left of a node whose upper half goes: the keys before a place and the children between
them. -/
def lowerHalf (middle : Nat) (cell : Cell π) : Cell π :=
  { cell with
    keys := cell.keys.take middle
    positions := cell.positions.take middle
    children := if cell.isLeaf then cell.children else cell.children.take (middle + 1) }

/-- The upper half of a node: the keys behind a place and the children between them. -/
def upperHalf (middle : Nat) (cell : Cell π) : Cell π where
  isLeaf := cell.isLeaf
  keys := cell.keys.drop (middle + 1)
  positions := cell.positions.drop (middle + 1)
  children := if cell.isLeaf then [] else cell.children.drop (middle + 1)

end Cell

/-! ## Stores -/

/-- A tree in a store of nodes. -/
structure Store (π : Type) where
  /-- The order of the tree. -/
  order : Order
  /-- The nodes by the numbers of their slots. -/
  cells : List (Cell π)
  /-- The slots that are free, the last released first. -/
  free : List Nat
  /-- The slot of the root. -/
  root : Nat
  /-- How many keys the tree holds. -/
  size : Nat

namespace Store

/-- The tree without keys. -/
def empty (order : Order) : Store π := ⟨order, [.blank true], [], 0, 0⟩

/-- A tree of the same order without keys. -/
def clear (store : Store π) : Store π := empty store.order

/-- A store with another node in a slot. -/
def put (store : Store π) (slot : Nat) (cell : Cell π) : Store π :=
  { store with cells := store.cells.set slot cell }

/-- Makes a node, in the slot released last if there is one. -/
def allocate (store : Store π) (isLeaf : Bool) : Nat × Store π :=
  match store.free with
  | slot :: free => (slot, { store.put slot (.blank isLeaf) with free })
  | [] => (store.cells.length, { store with cells := store.cells ++ [.blank isLeaf] })

/-- Releases the slots of subtrees: of each node before those below it, and of its last child
first. -/
def release (store : Store π) : (steps : Nat) → List Nat → Option (Store π)
  | _, [] => some store
  | 0, _ :: _ => none
  | steps + 1, slot :: stack => do
    let cell ← store.cells[slot]?
    let rest := { store.put slot (.blank true) with free := slot :: store.free }
    rest.release steps (cell.children.reverse ++ stack)

/-! ## Search -/

/-- The slot of the node that has a key and the place there, looked for from a node on down. -/
def locate (store : Store π) (key : Value) : (steps slot : Nat) → Option (Option (Nat × Nat))
  | 0, _ => none
  | steps + 1, slot => do
    let cell ← store.cells[slot]?
    let place := cell.placeOf key
    if cell.hasAt key place then some (some (slot, place))
    else if cell.isLeaf then some none
    else store.locate key steps (← cell.children[place]?)

/-- The positions under a key, in the order in which they were added. -/
def search (store : Store π) (key : Value) : Option (List π) := do
  match ← store.locate key store.cells.length store.root with
  | none => some []
  | some (slot, place) => (← store.cells[slot]?).positions[place]?

/-- Whether a tree holds a key. -/
def has (store : Store π) (key : Value) : Option Bool := do
  some (← store.locate key store.cells.length store.root).isSome

/-- How many levels there are from a node on down, counted along the first children. -/
def levels (store : Store π) : (steps slot : Nat) → Option Nat
  | 0, _ => none
  | steps + 1, slot => do
    let cell ← store.cells[slot]?
    if cell.isLeaf then some 1
    else some ((← store.levels steps (← cell.children[0]?)) + 1)

/-- How many levels a tree has. -/
def height (store : Store π) : Option Nat := store.levels store.cells.length store.root

/-! ## Insertion -/

/-- Splits the child at a place of a node. The upper half goes to a slot of its own, and the middle
entry moves up to the place. -/
def splitChild (store : Store π) (slot place : Nat) : Option (Store π) := do
  let child ← (← store.cells[slot]?).children[place]?
  let (sibling, store) := store.allocate (← store.cells[child]?).isLeaf
  let cell ← store.cells[slot]?
  let lower ← store.cells[child]?
  let middle := (store.order.degree - 1) / 2
  let entry ← lower.entryAt? middle
  let store := (store.put sibling (lower.upperHalf middle)).put child (lower.lowerHalf middle)
  some (store.put slot { cell.insertEntry place entry with
    children := insertAt (place + 1) sibling cell.children })

section

variable [DecidableEq π]

/-- Adds a position to those under the key at a place of a node. -/
def addPosition (store : Store π) (slot place : Nat) (position : π) : Option (Store π) := do
  let cell ← store.cells[slot]?
  let entry ← cell.entryAt? place
  some (store.put slot (cell.setEntry place (entry.add position)))

/-- Adds a position under a key from a node on down. Full children on the way are split. Comparisons
do not fail here: one that did would leave the splits before it, as `BTree.insertM` has it. -/
def insertFrom (key : Value) (position : π) (store : Store π) :
    (steps slot : Nat) → Option (Store π)
  | 0, _ => none
  | steps + 1, slot => do
    let cell ← store.cells[slot]?
    let place := cell.placeOf key
    if cell.hasAt key place then store.addPosition slot place position
    else if cell.isLeaf then
      some { store.put slot (cell.insertEntry place ⟨key, [position]⟩) with size := store.size + 1 }
    else
      let child ← cell.children[place]?
      if (← store.cells[child]?).isFull store.order.degree then
        let store ← store.splitChild slot place
        let cell ← store.cells[slot]?
        match key.compare (← cell.keys[place]?) with
        | .eq => store.addPosition slot place position
        | .lt => store.insertFrom key position steps (← cell.children[place]?)
        | .gt => store.insertFrom key position steps (← cell.children[place + 1]?)
      else store.insertFrom key position steps child

/-- Adds a position under a key. A full root is split first, under a new root. -/
def insert (store : Store π) (key : Value) (position : π) : Option (Store π) := do
  if (← store.cells[store.root]?).isFull store.order.degree then
    let (root, grown) := store.allocate false
    let grown ← (grown.put root ⟨false, [], [], [store.root]⟩).splitChild root 0
    { grown with root }.insertFrom key position grown.cells.length root
  else store.insertFrom key position store.cells.length store.root

/-! ## Removal -/

/-- Takes the greatest entry below a node out, if there is any. A last child that holds none is
released. The descent goes as deep as the tree: there is no limit to the depth of recursion, which a
call stack has at about a thousand levels. -/
def popMax (store : Store π) : (steps slot : Nat) → Option (Option (Entry π × Store π))
  | 0, _ => none
  | steps + 1, slot => do
    let cell ← store.cells[slot]?
    let own : Option (Entry π × Cell π) := do
      let entry ← cell.entryAt? (cell.keys.length - 1)
      some (entry, cell.eraseEntry (cell.keys.length - 1))
    if cell.isLeaf then
      if cell.keys.isEmpty then some none
      else
        let (entry, cell) ← own
        some (some (entry, store.put slot cell))
    else
      let child ← cell.children.getLast?
      match ← store.popMax steps child with
      | some popped => some (some popped)
      | none =>
        if cell.keys.isEmpty then some none
        else
          let (entry, cell) ← own
          let store := store.put slot { cell with children := cell.children.dropLast }
          some (some (entry, ← store.release store.cells.length [child]))

/-- Makes the only child of a root without keys the root, as often as there is one. -/
def collapseRoot (store : Store π) : (steps : Nat) → Option (Store π)
  | 0 => none
  | steps + 1 => do
    let cell ← store.cells[store.root]?
    match cell with
    | ⟨false, [], _, [child]⟩ =>
      let rest := { store.put store.root { cell with children := [] } with root := child }
      (← rest.release rest.cells.length [store.root]).collapseRoot steps
    | _ => some store

/-- Takes the entry at a place out of a node. In an inner node the greatest entry before it takes
its place; where there is none, the child before it goes too. -/
def removeEntry (store : Store π) (slot place : Nat) : Option (Store π) := do
  let cell ← store.cells[slot]?
  if cell.isLeaf then some (store.put slot (cell.eraseEntry place))
  else
    let child ← cell.children[place]?
    match ← store.popMax store.cells.length child with
    | some (entry, store) =>
      let cell ← store.cells[slot]?
      some (store.put slot (cell.setEntry place entry))
    | none =>
      let store := store.put slot
        { cell.eraseEntry place with children := cell.children.eraseIdx place }
      let store ← store.release store.cells.length [child]
      store.collapseRoot store.cells.length

/-- Takes a position out from under the key at a place of a node, and the key with its last
position. Tells whether the position was there. -/
def removePosition (store : Store π) (slot place : Nat) (position : π) :
    Option (Bool × Store π) := do
  let cell ← store.cells[slot]?
  let entry ← cell.entryAt? place
  if position ∈ entry.positions then
    let positions := entry.positions.erase position
    let store := store.put slot (cell.setEntry place ⟨entry.key, positions⟩)
    if positions.isEmpty then
      let store ← store.removeEntry slot place
      some (true, { store with size := store.size - 1 })
    else some (true, store)
  else some (false, store)

/-- Takes a position out from under a key, looked for from a node on down. -/
def deleteFrom (store : Store π) (steps slot : Nat) (key : Value) (position : π) :
    Option (Bool × Store π) := do
  match ← store.locate key steps slot with
  | none => some (false, store)
  | some (slot, place) => store.removePosition slot place position

/-- Takes a position out from under a key. Tells whether it was there. -/
def delete (store : Store π) (key : Value) (position : π) : Option (Bool × Store π) :=
  store.deleteFrom store.cells.length store.root key position

end

end Store

end RelStore.BTree
