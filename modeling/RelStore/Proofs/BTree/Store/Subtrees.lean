import RelStore.Proofs.BTree.Store.Cells

/-!
# Subtrees in a store

A subtree lies in a store if the slots of its nodes hold them (`Node.Lies`). It then still lies there
after anything that leaves these slots alone. What an operation on a part of a store leaves is told
by `Leaves`: which slots are free then and which slots it has left alone. A store holds a tree if the
tree lies in it and has the free slots, the root and the size that the store has (`Holds`).
-/

namespace RelStore.BTree

open scoped List

variable {π : Type} {h : Nat}

/-! ## Subtrees in a store -/

namespace Node

/-- A subtree lies in a store: the slots of its nodes hold them. -/
def Lies (cells : List (Cell π)) : (h : Nat) → Node π h → Prop
  | 0, (leaf : Leaf π) => cells[leaf.slot]? = some (cell 0 leaf)
  | h + 1, (branch : Branch π (Node π h)) =>
    cells[branch.slot]? = some (cell (h + 1) branch) ∧
      ∀ child ∈ branch.children, Lies cells h child

/-- The root of a subtree lies in its slot. -/
theorem Lies.own {cells : List (Cell π)} {node : Node π h} (hlies : node.Lies cells) :
    cells[slot h node]? = some (cell h node) := by
  cases h with
  | zero => exact hlies
  | succ h => exact hlies.1

/-- The slot of a node is one of its subtree. -/
theorem slot_mem_slots (node : Node π h) : slot h node ∈ slots h node := by
  cases h with
  | zero => exact List.mem_singleton_self _
  | succ h => exact List.mem_cons_self

/-- The slots of a subtree are that of its root and those below it. -/
theorem slots_eq (node : Node π h) : slots h node = slot h node :: (slots h node).tail := by
  cases h with
  | zero => rfl
  | succ h => rfl

/-- A subtree has more slots than there are levels below its root. -/
theorem lt_length_slots (node : Node π h) : h < (slots h node).length := by
  induction h with
  | zero => exact Nat.zero_lt_one
  | succ h ih =>
    change Branch π (Node π h) at node
    rw [slots, List.length_cons, List.length_append]
    have hlast := ih node.last
    omega

/-- The slots of a child are some of the branch. -/
theorem slots_subset {branch : Branch π (Node π h)} {child : Node π h}
    (hchild : child ∈ branch.children) :
    slots h child ⊆ slots (h + 1) (branch : Node π (h + 1)) := by
  intro number hnumber
  refine (slots_branch branch).mem_iff.mpr (List.mem_cons_of_mem _ ?_)
  exact List.mem_flatMap.mpr ⟨child, hchild, hnumber⟩

/-- A subtree lies in every store that has the same in its slots. -/
theorem Lies.congr {cells others : List (Cell π)} {node : Node π h} (hlies : node.Lies cells)
    (hsame : ∀ number ∈ slots h node, others[number]? = cells[number]?) : node.Lies others := by
  induction h with
  | zero => exact (hsame _ (slot_mem_slots node)).trans hlies
  | succ h ih =>
    change Branch π (Node π h) at node
    refine ⟨(hsame _ List.mem_cons_self).trans hlies.1, fun child hchild => ?_⟩
    exact ih (hlies.2 child hchild) fun number hnumber => hsame number (slots_subset hchild hnumber)

end Node

/-! ## Parts of a store -/

namespace Arena.Accounts

variable {arena : Arena} {used : List Nat}

/-- A slot in use is one of the store. -/
theorem lt (haccounts : arena.Accounts used) {slot : Nat} (hslot : slot ∈ used) :
    slot < arena.capacity :=
  List.mem_range.mp (haccounts.mem_iff.mp (List.mem_append_left _ hslot))

/-- There are not more slots in use than the store has. -/
theorem length_le (haccounts : arena.Accounts used) : used.length ≤ arena.capacity := by
  have hlength := haccounts.length_eq
  rw [List.length_append, List.length_range] at hlength
  omega

/-- No slot is in use twice. -/
theorem nodup (haccounts : arena.Accounts used) : used.Nodup :=
  (List.nodup_append.mp (haccounts.nodup_iff.mpr List.nodup_range)).1

/-- A slot in use is not free. -/
theorem notMem_free (haccounts : arena.Accounts used) {slot : Nat} (hslot : slot ∈ used) :
    slot ∉ arena.free := fun hfree =>
  (List.nodup_append.mp (haccounts.nodup_iff.mpr List.nodup_range)).2.2 slot hslot slot hfree rfl

/-- The next slot is not in use. -/
theorem next_notMem (haccounts : arena.Accounts used) : arena.next ∉ used :=
  (List.nodup_cons.mp haccounts.taken.nodup).1

end Arena.Accounts

namespace Store

/-- Which slots of a store are free. -/
def arena (store : Store π) : Arena := ⟨store.cells.length, store.free⟩

/-- A store has more slots than a subtree in it has levels below its root. -/
theorem exists_steps {store : Store π} {node : Node π h} {others : List Nat}
    (haccounts : store.arena.Accounts (node.slots h ++ others)) :
    ∃ steps, store.cells.length = steps + h + 1 := by
  have hslots := node.lt_length_slots
  have hlength := haccounts.length_le
  rw [List.length_append] at hlength
  change _ ≤ store.cells.length at hlength
  exact ⟨store.cells.length - (h + 1), by omega⟩

/-- What an operation leaves of a store: slots that are free then, and slots that it has left
alone. -/
structure Leaves (store : Store π) (arena : Arena) (others : List Nat) (left : Store π) : Prop where
  /-- The order is the same. -/
  order_eq : left.order = store.order
  /-- The root is the same. -/
  root_eq : left.root = store.root
  /-- The free slots are these. -/
  arena_eq : left.arena = arena
  /-- The other slots hold what they held. -/
  same : ∀ slot ∈ others, left.cells[slot]? = store.cells[slot]?

/-- One operation after another leaves alone what both do. -/
theorem Leaves.trans {store halfway left : Store π} {first second : Arena} {others : List Nat}
    (hfirst : store.Leaves first others halfway) (hsecond : halfway.Leaves second others left) :
    store.Leaves second others left where
  order_eq := hsecond.order_eq.trans hfirst.order_eq
  root_eq := hsecond.root_eq.trans hfirst.root_eq
  arena_eq := hsecond.arena_eq
  same := fun slot hslot => (hsecond.same slot hslot).trans (hfirst.same slot hslot)

/-- An operation that leaves alone some slots leaves alone fewer. -/
theorem Leaves.mono {store left : Store π} {arena : Arena} {others fewer : List Nat}
    (hleaves : store.Leaves arena others left) (hsubset : fewer ⊆ others) :
    store.Leaves arena fewer left :=
  { hleaves with same := fun slot hslot => hleaves.same slot (hsubset hslot) }

/-- A slot that is in use after an operation is one of the store that it leaves. -/
theorem Leaves.lt {store left : Store π} {arena : Arena} {others used : List Nat}
    (hleaves : store.Leaves arena others left) (haccounts : arena.Accounts used) {slot : Nat}
    (hslot : slot ∈ used) : slot < left.cells.length := by
  have hcapacity : left.cells.length = arena.capacity := congrArg Arena.capacity hleaves.arena_eq
  rw [hcapacity]
  exact haccounts.lt hslot

/-- Putting a node into a slot leaves the others alone. -/
theorem leaves_put (store : Store π) {slot : Nat} (cell : Cell π) {others : List Nat}
    (hslot : slot ∉ others) : store.Leaves store.arena others (store.put slot cell) where
  order_eq := rfl
  root_eq := rfl
  arena_eq := by rw [arena, put, List.length_set]; rfl
  same := fun _ hother => List.getElem?_set_ne (ne_of_mem_of_not_mem hother hslot).symm

/-- A node that has been put into a slot of the store is there. -/
theorem getElem?_put {store : Store π} {slot : Nat} (cell : Cell π)
    (hslot : slot < store.cells.length) : (store.put slot cell).cells[slot]? = some cell :=
  List.getElem?_set_self hslot

/-- A new node goes to the next slot, and the slots in use are left alone. -/
theorem exists_allocate {store : Store π} {used : List Nat} (haccounts : store.arena.Accounts used)
    (isLeaf : Bool) : ∃ left, store.allocate isLeaf = (store.arena.next, left) ∧
      store.Leaves store.arena.taken used left ∧ left.size = store.size ∧
      left.cells[store.arena.next]? = some (.blank isLeaf) := by
  have hnext := haccounts.next_notMem
  obtain ⟨order, cells, free, root, size⟩ := store
  cases free with
  | nil =>
    refine ⟨_, rfl, ⟨rfl, rfl, ?_, fun slot hslot => ?_⟩, rfl, ?_⟩
    · simp [arena, Arena.taken]
    · exact List.getElem?_append_left (haccounts.lt hslot)
    · exact List.getElem?_concat_length
  | cons slot free =>
    refine ⟨_, rfl, ⟨rfl, rfl, ?_, fun other hother => ?_⟩, rfl, ?_⟩
    · simp [arena, Arena.taken, put]
    · exact List.getElem?_set_ne (ne_of_mem_of_not_mem hother hnext).symm
    · have hslot := haccounts.mem_iff.mp (List.mem_append_right _ List.mem_cons_self)
      exact List.getElem?_set_self (List.mem_range.mp hslot)

end Store

namespace Node

/-! ## Branches in a store -/

/-- The slots below a branch, other than those below one child. -/
def slotsAround (slot : Nat) (before after : List (Node π h)) : List Nat :=
  slot :: (before ++ after).flatMap (slots h)

/-- A branch has the slots of one child and those around it. -/
theorem slots_around {branch : Branch π (Node π h)} {before after : List (Node π h)}
    {child : Node π h} (hchildren : branch.children = before ++ child :: after) :
    slots (h + 1) (branch : Node π (h + 1)) ~
      slots h child ++ slotsAround branch.slot before after := by
  refine (slots_branch branch).trans ?_
  rw [hchildren, slotsAround, List.flatMap_append, List.flatMap_append, List.flatMap_cons]
  refine .trans (.cons _ (List.perm_append_comm_assoc _ _ _)) ?_
  exact List.perm_middle.symm

/-- The children around one of a branch lie in a store that has the same in their slots. -/
theorem Lies.siblings {cells others : List (Cell π)} {branch : Branch π (Node π h)}
    (hlies : Lies cells (h + 1) (branch : Node π (h + 1))) {before after : List (Node π h)}
    {child : Node π h} (hchildren : branch.children = before ++ child :: after)
    (hsame : ∀ number ∈ (before ++ after).flatMap (slots h), others[number]? = cells[number]?) :
    ∀ sibling ∈ before ++ after, sibling.Lies others := by
  intro sibling hmem
  have hsibling : sibling ∈ branch.children := by
    rw [hchildren]
    exact (List.sublist_cons_self child after).append_left before |>.subset hmem
  exact (hlies.2 sibling hsibling).congr fun number hnumber =>
    hsame number (List.mem_flatMap.mpr ⟨sibling, hmem, hnumber⟩)

/-- A branch one of whose children has changed lies in a store if the others lie there as they
did. -/
theorem Lies.around {cells others : List (Cell π)} {branch result : Branch π (Node π h)}
    (hlies : Lies cells (h + 1) (branch : Node π (h + 1))) {before after : List (Node π h)}
    {child new : Node π h} (hchildren : branch.children = before ++ child :: after)
    (hresult : result.children = before ++ new :: after) (hslot : result.slot = branch.slot)
    (hentries : result.entries = branch.entries) (hnewSlot : slot h new = slot h child)
    (hnew : new.Lies others)
    (hsame : ∀ number ∈ slotsAround branch.slot before after, others[number]? = cells[number]?) :
    Lies others (h + 1) (result : Node π (h + 1)) := by
  have hcell : cell (h + 1) (result : Node π (h + 1)) = cell (h + 1) (branch : Node π (h + 1)) := by
    refine cell_congr hentries ?_
    rw [childSlots, childSlots, hresult, hchildren]
    simp only [List.map_append, List.map_cons, hnewSlot]
  have hown : cells[branch.slot]? = some (cell (h + 1) (branch : Node π (h + 1))) := hlies.1
  have hsiblings := hlies.siblings hchildren fun number hnumber =>
    hsame number (List.mem_cons_of_mem _ hnumber)
  obtain ⟨hbefore, hafter⟩ := List.forall_mem_append.mp hsiblings
  refine ⟨?_, ?_⟩
  · rw [hcell, hslot, hsame _ List.mem_cons_self, hown]
  · rw [hresult]
    exact List.forall_mem_append.mpr ⟨hbefore, List.forall_mem_cons.mpr ⟨hnew, hafter⟩⟩

end Node

/-! ## Putting a node back -/

namespace Node

/-- Two nodes are in the same slot and have the same children. -/
def SameBelow : (h : Nat) → Node π h → Node π h → Prop
  | 0, (leaf : Leaf π), (left : Leaf π) => left.slot = leaf.slot
  | _ + 1, (branch : Branch π (Node π _)), (left : Branch π (Node π _)) =>
    left.slot = branch.slot ∧ left.children = branch.children

/-- A node is in the slot of another one and has no other children than this one has. -/
def SubBelow : (h : Nat) → Node π h → Node π h → Prop
  | 0, (leaf : Leaf π), (left : Leaf π) => left.slot = leaf.slot
  | _ + 1, (branch : Branch π (Node π _)), (left : Branch π (Node π _)) =>
    left.slot = branch.slot ∧ left.children ⊆ branch.children

variable {node left : Node π h}

/-- A node with the same children has no others. -/
theorem SameBelow.sub (hsame : SameBelow h node left) : SubBelow h node left := by
  cases h with
  | zero => exact hsame
  | succ h => exact ⟨hsame.1, fun child hchild => hsame.2 ▸ hchild⟩

/-- A node with no other children is in the same slot. -/
theorem SubBelow.slot_eq (hsub : SubBelow h node left) : slot h left = slot h node := by
  cases h with
  | zero => exact hsub
  | succ h => exact hsub.1

/-- Nodes with the same children have the same slots of children. -/
theorem SameBelow.childSlots_eq (hsame : SameBelow h node left) :
    childSlots h left = childSlots h node := by
  cases h with
  | zero => rfl
  | succ h => exact congrArg (List.map (slot h)) hsame.2

/-- Nodes with the same children in the same slot have the same slots. -/
theorem SameBelow.slots_perm (hsame : SameBelow h node left) : slots h left ~ slots h node := by
  cases h with
  | zero =>
    change Leaf π at node left
    exact .of_eq (congrArg (fun slot => [slot]) hsame)
  | succ h =>
    change Branch π (Node π h) at node left
    refine (slots_branch left).trans (.trans (.of_eq ?_) (slots_branch node).symm)
    rw [hsame.1, hsame.2]

/-- A node with some children of another one lies in a store that has it in the slot, and below the
other one the same as before. -/
theorem Lies.subBelow {cells others : List (Cell π)} (hlies : node.Lies cells)
    (hsub : SubBelow h node left) (hown : others[slot h node]? = some (cell h left))
    (hbelow : ∀ number ∈ (slots h node).tail, others[number]? = cells[number]?) :
    left.Lies others := by
  rw [← hsub.slot_eq] at hown
  cases h with
  | zero => exact hown
  | succ h =>
    change Branch π (Node π h) at node left
    refine ⟨hown, fun child hchild => ?_⟩
    have hchild := hsub.2 hchild
    refine (hlies.2 child hchild).congr fun number hnumber => hbelow number ?_
    exact (slots_branch node).cons_inv.mem_iff.mpr
      (List.mem_flatMap.mpr ⟨child, hchild, hnumber⟩)

end Node

/-- A node with some children of another one lies in the store that it is put into, in the slot of
the other one. -/
theorem Store.lies_put {store : Store π} {node left : Node π h} {others : List Nat}
    (hlies : node.Lies store.cells)
    (haccounts : store.arena.Accounts (node.slots h ++ others))
    (hsub : Node.SubBelow h node left) :
    left.Lies (store.put (node.slot h) (left.cell h)).cells ∧
      store.Leaves store.arena others (store.put (node.slot h) (left.cell h)) := by
  rw [Node.slots_eq] at haccounts
  obtain ⟨hslot, -⟩ := List.nodup_cons.mp haccounts.nodup
  have hlt : node.slot h < store.cells.length := haccounts.lt List.mem_cons_self
  have hleaves := store.leaves_put (left.cell h) hslot
  refine ⟨hlies.subBelow hsub (getElem?_put _ hlt) fun number hnumber => ?_, ?_⟩
  · exact hleaves.same number (List.mem_append_left _ hnumber)
  · exact hleaves.mono (List.subset_append_right _ _)

/-! ## Whole trees -/

/-- A store holds a tree: it lies in the store, with all slots as the tree has them. -/
structure Store.Holds (store : Store π) (tree : BTree π) : Prop where
  /-- The order is that of the tree. -/
  order_eq : store.order = tree.order
  /-- The root is in its slot. -/
  root_eq : store.root = tree.root.slot tree.depth
  /-- The free slots are those of the tree. -/
  arena_eq : store.arena = tree.arena
  /-- The size is that of the tree. -/
  size_eq : store.size = tree.size
  /-- The nodes lie in their slots. -/
  lies : tree.root.Lies store.cells

/-- A store that holds a tree has more slots than the tree has levels below its root. -/
theorem Store.Holds.exists_steps {store : Store π} {tree : BTree π} (hholds : store.Holds tree)
    (haccounts : tree.arena.Accounts (tree.root.slots tree.depth)) :
    ∃ steps, store.cells.length = steps + tree.depth + 1 := by
  rw [← hholds.arena_eq] at haccounts
  exact @Store.exists_steps π tree.depth store tree.root [] (by rwa [List.append_nil])

end RelStore.BTree
