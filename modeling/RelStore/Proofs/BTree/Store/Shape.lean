import Mathlib.Algebra.Ring.Nat
import Mathlib.Data.List.Nodup
import RelStore.Proofs.BTree.Store.Runs

/-!
# The shape of a tree in a store, whatever the order of the keys

A way down a store is a list of places: at every node it goes on to the child at the next place
(`Store.follow`). What a tree is to look like is said of the slots that such ways come to
(`Store.WellShaped`): no two ways from the root come to one slot, all leaves lie at one depth, no
node has too many keys, and every slot is either one of a node or free. This holds after any
operations with any keys (`Store.run_wellShaped`), as it does not depend on what comparisons say: the
store holds a nested tree, and that tree is kept in order.
-/

namespace RelStore.BTree

open scoped List

variable {π : Type} {h : Nat}

/-! ## Well shaped stores -/

/-- What a node of a tree of an order looks like. -/
structure Cell.WellShaped (degree : Order) (cell : Cell π) : Prop where
  /-- A leaf has no children, and any other node has one child more than keys. -/
  children_length : cell.children.length = if cell.isLeaf then 0 else cell.keys.length + 1
  /-- There are not more keys than the order allows. -/
  keys_length : cell.keys.length ≤ degree.degree - 1
  /-- Every key has positions. -/
  positions_length : cell.positions.length = cell.keys.length
  /-- There is at least one of them, and none occurs twice. -/
  positions : ∀ positions ∈ cell.positions, positions ≠ [] ∧ positions.Nodup

namespace Store

/-- The slot that a way down from a slot comes to. -/
def follow (store : Store π) (slot : Nat) : List Nat → Option Nat
  | [] => some slot
  | place :: path => do store.follow (← (← store.cells[slot]?).children[place]?) path

/-- Whether a way down from the root comes to a slot. -/
def Reached (store : Store π) (slot : Nat) : Prop :=
  ∃ path, store.follow store.root path = some slot

/-- How many keys the node in a slot has. -/
def keyCount (store : Store π) (slot : Nat) : Nat := (store.cells[slot]?).elim 0 (·.keys.length)

/-- What a store with a tree of an order looks like. -/
structure WellShaped (degree : Order) (store : Store π) : Prop where
  /-- Only one way down from the root comes to a slot. -/
  follow_inj : ∀ path other slot, store.follow store.root path = some slot →
    store.follow store.root other = some slot → path = other
  /-- Every slot that a way comes to holds a node. -/
  cells : ∀ slot, store.Reached slot →
    ∃ cell, store.cells[slot]? = some cell ∧ cell.WellShaped degree
  /-- The leaves are the nodes on the lowest level. -/
  leaf_iff : ∀ path slot cell, store.follow store.root path = some slot →
    store.cells[slot]? = some cell → (cell.isLeaf = true ↔ store.height = some (path.length + 1))
  /-- The root is a leaf or has a key. -/
  root : ∃ cell, store.cells[store.root]? = some cell ∧ (cell.isLeaf = true ∨ cell.keys ≠ [])
  /-- No slot is free twice. -/
  free_nodup : store.free.Nodup
  /-- No slot of a node is free. -/
  free_disjoint : ∀ slot, store.Reached slot → slot ∉ store.free
  /-- Every slot of the store is that of a node or free, and there are no others. -/
  covered : ∀ slot, slot < store.cells.length ↔ store.Reached slot ∨ slot ∈ store.free
  /-- The size counts the keys of all nodes. -/
  size_eq : ∃ slots : List Nat, slots.Nodup ∧ (∀ slot, slot ∈ slots ↔ store.Reached slot) ∧
    store.size = (slots.map store.keyCount).sum

end Store

/-! ## Ways down a subtree -/

namespace Store

variable {store : Store π}

/-- No way leads on from a leaf. -/
theorem follow_leaf {leaf : Leaf π} (hlies : Node.Lies store.cells 0 leaf) (place : Nat)
    (path : List Nat) : store.follow leaf.slot (place :: path) = none := by
  have hown : store.cells[leaf.slot]? = some (Node.cell 0 leaf) := hlies
  rw [follow, hown]
  rfl

/-- A way from a branch leads on from a child. -/
theorem follow_branch {branch : Branch π (Node π h)} (hlies : Node.Lies store.cells (h + 1) branch)
    (place : Nat) (path : List Nat) :
    store.follow branch.slot (place :: path) =
      branch.children[place]?.bind fun child => store.follow (child.slot h) path := by
  have hown : store.cells[branch.slot]? = some (Node.cell (h + 1) branch) := hlies.1
  rw [follow, hown]
  change (branch.children.map (Node.slot h))[place]?.bind _ = _
  rw [List.getElem?_map]
  cases branch.children[place]? <;> rfl

/-- A way that leads on from a branch leads on from one of its children. -/
theorem exists_child_of_follow {branch : Branch π (Node π h)}
    (hlies : Node.Lies store.cells (h + 1) branch) {place : Nat} {path : List Nat} {slot : Nat}
    (hfollow : store.follow branch.slot (place :: path) = some slot) :
    ∃ child, branch.children[place]? = some child ∧ child ∈ branch.children ∧
      store.follow (child.slot h) path = some slot := by
  rw [follow_branch hlies] at hfollow
  obtain ⟨child, hchild, hfollow⟩ := Option.bind_eq_some_iff.mp hfollow
  exact ⟨child, hchild, List.mem_of_getElem? hchild, hfollow⟩

/-- A way down a subtree comes to one of its slots. -/
theorem mem_slots_of_follow {node : Node π h} (hlies : node.Lies store.cells) {path : List Nat}
    {slot : Nat} (hfollow : store.follow (node.slot h) path = some slot) : slot ∈ node.slots h := by
  induction path generalizing h with
  | nil =>
    cases hfollow
    exact Node.slot_mem_slots node
  | cons place path ih =>
    cases h with
    | zero =>
      rw [Node.slot, follow_leaf hlies] at hfollow
      cases hfollow
    | succ h =>
      change Branch π (Node π h) at node
      obtain ⟨child, -, hchild, hbelow⟩ := exists_child_of_follow hlies hfollow
      exact Node.slots_subset hchild (ih (hlies.2 child hchild) hbelow)

/-- There is a way to every slot of a subtree. -/
theorem exists_follow {node : Node π h} (hlies : node.Lies store.cells) {slot : Nat}
    (hslot : slot ∈ node.slots h) : ∃ path, store.follow (node.slot h) path = some slot := by
  induction h with
  | zero =>
    obtain rfl := List.mem_singleton.mp hslot
    exact ⟨[], rfl⟩
  | succ h ih =>
    change Branch π (Node π h) at node
    rcases List.mem_cons.mp ((Node.slots_branch node).mem_iff.mp hslot) with rfl | hbelow
    · exact ⟨[], rfl⟩
    · obtain ⟨child, hchild, hslot⟩ := List.mem_flatMap.mp hbelow
      obtain ⟨path, hpath⟩ := ih (hlies.2 child hchild) hslot
      obtain ⟨place, hplace⟩ := List.mem_iff_getElem?.mp hchild
      exact ⟨place :: path, by rw [Node.slot, follow_branch hlies, hplace]; exact hpath⟩

/-- The slots of a subtree are those that ways down it come to. -/
theorem mem_slots_iff {node : Node π h} (hlies : node.Lies store.cells) {slot : Nat} :
    slot ∈ node.slots h ↔ ∃ path, store.follow (node.slot h) path = some slot :=
  ⟨exists_follow hlies, fun ⟨_, hpath⟩ => mem_slots_of_follow hlies hpath⟩

/-- A way that leads on from a node does not come back to it. -/
theorem follow_cons_ne {node : Node π h} (hlies : node.Lies store.cells)
    (hnodup : (node.slots h).Nodup) (place : Nat) (path : List Nat) :
    store.follow (node.slot h) (place :: path) ≠ some (node.slot h) := by
  intro hfollow
  cases h with
  | zero =>
    rw [Node.slot, follow_leaf hlies] at hfollow
    cases hfollow
  | succ h =>
    change Branch π (Node π h) at node
    obtain ⟨child, -, hchild, hbelow⟩ := exists_child_of_follow hlies hfollow
    have hslots := (Node.slots_branch node).nodup_iff.mp hnodup
    refine (List.nodup_cons.mp hslots).1 (List.mem_flatMap.mpr ⟨child, hchild, ?_⟩)
    exact mem_slots_of_follow (hlies.2 child hchild) hbelow

/-- Only one of some subtrees has a slot, if none of their slots is repeated. -/
theorem place_inj {nodes : List (Node π h)} (hnodup : (nodes.flatMap (Node.slots h)).Nodup)
    {i j slot : Nat} {node other : Node π h} (hi : nodes[i]? = some node)
    (hj : nodes[j]? = some other) (hnode : slot ∈ node.slots h) (hother : slot ∈ other.slots h) :
    i = j := by
  obtain ⟨hilt, rfl⟩ := List.getElem?_eq_some_iff.mp hi
  obtain ⟨hjlt, rfl⟩ := List.getElem?_eq_some_iff.mp hj
  have hpairs := List.pairwise_iff_getElem.mp (List.nodup_flatMap.mp hnodup).2
  rcases Nat.lt_trichotomy i j with hlt | rfl | hlt
  · exact absurd hother (hpairs i j hilt hjlt hlt hnode)
  · rfl
  · exact absurd hnode (hpairs j i hjlt hilt hlt hother)

/-- Only one way down a subtree without repeated slots comes to a slot. -/
theorem follow_inj {node : Node π h} (hlies : node.Lies store.cells)
    (hnodup : (node.slots h).Nodup) {path other : List Nat} {slot : Nat}
    (hpath : store.follow (node.slot h) path = some slot)
    (hother : store.follow (node.slot h) other = some slot) : path = other := by
  induction path generalizing h other with
  | nil =>
    cases hpath
    cases other with
    | nil => rfl
    | cons place other => exact absurd hother (follow_cons_ne hlies hnodup place other)
  | cons place path ih =>
    cases other with
    | nil =>
      cases hother
      exact absurd hpath (follow_cons_ne hlies hnodup place path)
    | cons place' other =>
      cases h with
      | zero =>
        rw [Node.slot, follow_leaf hlies] at hpath
        cases hpath
      | succ h =>
        change Branch π (Node π h) at node
        obtain ⟨child, hplace, hchild, hbelow⟩ := exists_child_of_follow hlies hpath
        obtain ⟨child', hplace', hchild', hbelow'⟩ := exists_child_of_follow hlies hother
        have hslots := (List.nodup_cons.mp ((Node.slots_branch node).nodup_iff.mp hnodup)).2
        obtain rfl := place_inj hslots hplace hplace'
          (mem_slots_of_follow (hlies.2 child hchild) hbelow)
          (mem_slots_of_follow (hlies.2 child' hchild') hbelow')
        obtain rfl := Option.some.inj (hplace.symm.trans hplace')
        rw [ih (hlies.2 child hchild) ((List.nodup_flatMap.mp hslots).1 child hchild) hbelow hbelow']

end Store

/-! ## Nodes of a tree that is kept in order -/

namespace Node

/-- A branch lists its own entries and those below its children. -/
theorem toList_perm (branch : Branch π (Node π h)) :
    toList (h + 1) (branch : Node π (h + 1)) ~
      branch.entries ++ branch.children.flatMap (toList h) := by
  have hspread (pairs : List (Node π h × Entry π)) :
      spread pairs ~ pairs.map (·.2) ++ (pairs.map (·.1)).flatMap (toList h) := by
    induction pairs with
    | nil => exact List.Perm.refl _
    | cons pair pairs ih =>
      obtain ⟨child, entry⟩ := pair
      rw [spread_cons, List.map_cons, List.map_cons, List.flatMap_cons, List.cons_append]
      refine List.perm_middle.trans (List.Perm.cons entry ?_)
      exact (ih.append_left _).trans (List.perm_append_comm_assoc _ _ _)
  rw [toList_branch, Branch.children, List.flatMap_append, List.flatMap_singleton, ← List.append_assoc]
  exact (hspread branch.pairs).append_right _

/-- A subtree as it is in a tree that is kept in order. -/
structure Sound (degree : Order) (h : Nat) (node : Node π h) : Prop where
  /-- No node has too many entries. -/
  filled : Filled 0 degree.degree h node
  /-- Every entry has positions. -/
  stocked : Stocked (toList h node)

variable {degree : Order}

/-- The children of a branch are as the branch is. -/
theorem Sound.child {branch : Branch π (Node π h)} (hsound : Sound degree (h + 1) branch)
    {child : Node π h} (hchild : child ∈ branch.children) : Sound degree h child where
  filled := hsound.filled.2 child hchild
  stocked entry hentry := hsound.stocked entry ((toList_perm branch).mem_iff.mpr
    (List.mem_append_right _ (List.mem_flatMap.mpr ⟨child, hchild, hentry⟩)))

/-- The entries of a node are those of its subtree. -/
theorem Sound.own {node : Node π h} (hsound : Sound degree h node) : Stocked (ownEntries h node) := by
  cases h with
  | zero => exact hsound.stocked
  | succ h =>
    change Branch π (Node π h) at node
    exact fun entry hentry => hsound.stocked entry ((toList_perm node).mem_iff.mpr
      (List.mem_append_left _ hentry))

/-- The cell of a node looks as it is to. -/
theorem Sound.wellShaped {node : Node π h} (hsound : Sound degree h node) :
    (cell h node).WellShaped degree where
  children_length := by
    cases h with
    | zero => rfl
    | succ h =>
      change Branch π (Node π h) at node
      change (node.children.map (slot h)).length = (node.entries.map Entry.key).length + 1
      rw [List.length_map, List.length_map, Branch.length_children, Branch.entries, List.length_map]
  keys_length := by
    have hlength := hsound.filled.own.2
    rw [cell, List.length_map]
    omega
  positions_length := by rw [cell, List.length_map, List.length_map]
  positions positions hpositions := by
    obtain ⟨entry, hentry, rfl⟩ := List.mem_map.mp hpositions
    exact hsound.own entry hentry

end Node

namespace Store

variable {store : Store π} {degree : Order}

/-- A way down a subtree comes to a node as many levels lower as it is long. -/
theorem exists_of_follow {node : Node π h} (hlies : node.Lies store.cells)
    (hsound : node.Sound degree h) {path : List Nat} {slot : Nat}
    (hfollow : store.follow (node.slot h) path = some slot) :
    ∃ k, ∃ sub : Node π k, k + path.length = h ∧ sub.slot k = slot ∧ sub.Lies store.cells ∧
      sub.Sound degree k := by
  induction path generalizing h with
  | nil =>
    cases hfollow
    exact ⟨h, node, rfl, rfl, hlies, hsound⟩
  | cons place path ih =>
    cases h with
    | zero =>
      rw [Node.slot, follow_leaf hlies] at hfollow
      cases hfollow
    | succ h =>
      change Branch π (Node π h) at node
      obtain ⟨child, -, hchild, hbelow⟩ := exists_child_of_follow hlies hfollow
      obtain ⟨k, sub, hlevels, hsub⟩ := ih (hlies.2 child hchild) (hsound.child hchild) hbelow
      exact ⟨k, sub, by rw [List.length_cons, ← hlevels, Nat.add_assoc], hsub⟩

/-- The nodes of a subtree have as many keys as it lists entries. -/
theorem sum_keyCount {node : Node π h} (hlies : node.Lies store.cells) :
    ((node.slots h).map store.keyCount).sum = (node.toList h).length := by
  have hcount {k : Nat} {node : Node π k} (hlies : node.Lies store.cells) :
      store.keyCount (node.slot k) = (node.ownEntries k).length := by
    rw [keyCount, hlies.own]
    exact List.length_map _
  induction h with
  | zero => exact (Nat.add_zero _).trans (hcount hlies)
  | succ h ih =>
    change Branch π (Node π h) at node
    have hbelow : node.children.map (fun child => ((child.slots h).map store.keyCount).sum) =
        node.children.map fun child => (child.toList h).length :=
      List.map_congr_left fun child hchild => ih (hlies.2 child hchild)
    calc ((Node.slots (h + 1) node).map store.keyCount).sum
        = store.keyCount node.slot +
            ((node.children.flatMap (Node.slots h)).map store.keyCount).sum :=
          ((Node.slots_branch node).map _).sum_nat
      _ = node.entries.length + (node.children.map fun child => (child.toList h).length).sum := by
          rw [← hbelow, List.map_flatMap, List.flatMap_def, List.sum_flatten, List.map_map]
          exact congrArg (· + _) (hcount hlies)
      _ = (Node.toList (h + 1) node).length := by
          rw [(Node.toList_perm node).length_eq, List.length_append, List.length_flatMap]

/-- A store that holds a tree that is kept in order is well shaped. -/
theorem Holds.wellShaped {tree : BTree π} (hholds : store.Holds tree) (hkept : Kept degree tree) :
    store.WellShaped degree := by
  obtain ⟨-, hroot, harena, hsize, hlies⟩ := id hholds
  have haccounts : store.arena.Accounts (tree.root.slots tree.depth) := by
    rw [harena]
    exact hkept.accounts
  have hsound : tree.root.Sound degree tree.depth := ⟨hkept.filled, hkept.stocked⟩
  have hreached (slot : Nat) : slot ∈ tree.root.slots tree.depth ↔ store.Reached slot := by
    rw [Reached, hroot]
    exact mem_slots_iff hlies
  have hall : tree.root.slots tree.depth ++ store.free ~ List.range store.cells.length := haccounts
  obtain ⟨hnodup, hfree, hdisjoint⟩ :=
    List.nodup_append.mp (hall.nodup_iff.mpr List.nodup_range)
  constructor
  case follow_inj =>
    rw [hroot]
    exact fun path other slot => follow_inj hlies hnodup
  case cells =>
    rintro slot ⟨path, hpath⟩
    rw [hroot] at hpath
    obtain ⟨k, sub, -, rfl, hsub, hsubSound⟩ := exists_of_follow hlies hsound hpath
    exact ⟨_, hsub.own, hsubSound.wellShaped⟩
  case leaf_iff =>
    intro path slot cell hpath hcell
    rw [hroot] at hpath
    obtain ⟨k, sub, hlevels, rfl, hsub, -⟩ := exists_of_follow hlies hsound hpath
    rw [hsub.own] at hcell
    cases hcell
    rw [hholds.height hkept.accounts, BTree.height, ← hlevels]
    change (k == 0) = true ↔ _
    rw [beq_iff_eq, Option.some.injEq]
    omega
  case root =>
    refine ⟨_, by rw [hroot]; exact hlies.own, hkept.root_entries.imp (fun hdepth => ?_) fun hne => ?_⟩
    · exact beq_iff_eq.mpr hdepth
    · exact fun hkeys => hne (List.map_eq_nil_iff.mp hkeys)
  case free_nodup => exact hfree
  case free_disjoint =>
    exact fun slot hslot hmem => hdisjoint slot ((hreached slot).mpr hslot) slot hmem rfl
  case covered =>
    intro slot
    rw [← List.mem_range, ← hall.mem_iff, List.mem_append, hreached]
  case size_eq =>
    refine ⟨_, hnodup, hreached, ?_⟩
    rw [sum_keyCount hlies, hsize]
    exact hkept.size_eq

/-- After any operations with any keys there is a store, and it is well shaped. -/
theorem run_wellShaped [DecidableEq π] (degree : Order) (operations : List (Operation π)) :
    ∃ store, run degree operations = some store ∧ store.WellShaped degree := by
  obtain ⟨store, hrun, hholds⟩ := exists_run degree operations
  exact ⟨store, hrun, hholds.wellShaped (run_kept degree operations)⟩

end Store

end RelStore.BTree
