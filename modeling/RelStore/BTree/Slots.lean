/-!
# Slots of nodes

The nodes of a tree are kept in numbered slots. A released slot is taken again before a new one is
added, the last released first.
-/

namespace RelStore.BTree

/-- Which slots of a store of nodes are in use. -/
structure Arena where
  /-- How many slots there are. -/
  capacity : Nat
  /-- The slots that hold no node, the last released first. -/
  free : List Nat
  deriving DecidableEq

namespace Arena

/-- A store of which only slot 0 is in use. -/
def single : Arena := ⟨1, []⟩

/-- The slot that the next node goes to. -/
def next (arena : Arena) : Nat := arena.free.head?.getD arena.capacity

/-- The store after a node has gone to the next slot. -/
def taken (arena : Arena) : Arena :=
  match arena.free with
  | [] => { arena with capacity := arena.capacity + 1 }
  | _ :: free => { arena with free }

/-- The store after slots have been released, one after the other. -/
def release (arena : Arena) (slots : List Nat) : Arena :=
  { arena with free := slots.reverse ++ arena.free }

end Arena

end RelStore.BTree
