import RelStore.Proofs.BTree.Store.Subtrees

/-!
# Releasing subtrees of a store

The release of a subtree goes over its slots in the order of `Node.slots`, blanks them and makes them
free (`exists_release`). Taking the greatest entry below a node out releases the children that hold
none (`exists_popMax`).
-/

namespace RelStore.BTree

open scoped List

variable {π : Type} {h : Nat}

/-! ## Releasing subtrees -/

/-- Slots released after others are released together with them. -/
theorem Arena.release_append (arena : Arena) (xs ys : List Nat) :
    arena.release (xs ++ ys) = (arena.release xs).release ys := by
  rw [release, release, release, List.reverse_append, List.append_assoc]

namespace Node

/-- The slots of a branch are its own and those of its children, the last child first. -/
theorem slots_reverse (branch : Branch π (Node π h)) :
    slots (h + 1) (branch : Node π (h + 1)) =
      branch.slot :: branch.children.reverse.flatMap (slots h) := by
  rw [slots, Branch.children, List.reverse_append, List.reverse_singleton, List.singleton_append,
    List.flatMap_cons, ← List.map_reverse, List.flatMap_map]

end Node

namespace Store

/-- What the release of slots leaves of a store. -/
structure Releases (store : Store π) (slots others : List Nat) (left : Store π) : Prop where
  /-- The slots are free, and others are left alone. -/
  leaves : store.Leaves (store.arena.release slots) others left
  /-- The size is the same. -/
  size_eq : left.size = store.size

/-- Releasing slots after others leaves what releasing all of them does. -/
theorem Releases.trans {store halfway left : Store π} {xs ys others : List Nat}
    (hfirst : store.Releases xs others halfway) (hsecond : halfway.Releases ys others left) :
    store.Releases (xs ++ ys) others left where
  leaves := by
    have hleaves := hfirst.leaves.trans hsecond.leaves
    rwa [hfirst.leaves.arena_eq, ← Arena.release_append] at hleaves
  size_eq := hsecond.size_eq.trans hfirst.size_eq

/-- A slot that has been blanked and freed is released. -/
theorem releases_blank (store : Store π) {slot : Nat} {others : List Nat}
    (haccounts : store.arena.Accounts (slot :: others)) :
    store.Releases [slot] others
      { store.put slot (.blank true) with free := slot :: store.free } where
  leaves := by
    obtain ⟨-, -, harena, hsame⟩ :=
      store.leaves_put (.blank true) (List.nodup_cons.mp haccounts.nodup).1
    refine ⟨rfl, rfl, ?_, hsame⟩
    exact congrArg (fun arena => Arena.mk arena.capacity (slot :: store.free)) harena
  size_eq := rfl

/-- Releasing subtrees one after the other releases their slots, if releasing each of them does. -/
theorem exists_release_all
    (hrelease : ∀ (node : Node π h) (store : Store π) (steps : Nat) (stack others : List Nat),
      node.Lies store.cells → store.arena.Accounts (node.slots h ++ others) →
        ∃ left, store.release (steps + (node.slots h).length) (node.slot h :: stack) =
          left.release steps stack ∧ store.Releases (node.slots h) others left)
    (nodes : List (Node π h)) (store : Store π) (steps : Nat) (stack others : List Nat)
    (hlies : ∀ node ∈ nodes, node.Lies store.cells)
    (haccounts : store.arena.Accounts (nodes.flatMap (Node.slots h) ++ others)) :
    ∃ left, store.release (steps + (nodes.flatMap (Node.slots h)).length)
        (nodes.map (Node.slot h) ++ stack) = left.release steps stack ∧
      store.Releases (nodes.flatMap (Node.slots h)) others left := by
  induction nodes generalizing store with
  | nil => exact ⟨store, rfl, ⟨⟨rfl, rfl, rfl, fun _ _ => rfl⟩, rfl⟩⟩
  | cons node nodes ih =>
    obtain ⟨hnode, hnodes⟩ := List.forall_mem_cons.mp hlies
    rw [List.flatMap_cons, List.append_assoc] at haccounts
    obtain ⟨halfway, hfirst, hhalfway⟩ := hrelease node store
      (steps + (nodes.flatMap (Node.slots h)).length) (nodes.map (Node.slot h) ++ stack) _ hnode
      haccounts
    have hlies' : ∀ other ∈ nodes, other.Lies halfway.cells := by
      intro other hother
      refine (hnodes other hother).congr fun number hnumber => hhalfway.leaves.same number ?_
      exact List.mem_append_left _ (List.mem_flatMap.mpr ⟨other, hother, hnumber⟩)
    have haccounts' : halfway.arena.Accounts (nodes.flatMap (Node.slots h) ++ others) := by
      rw [hhalfway.leaves.arena_eq]
      exact haccounts.release List.perm_append_comm
    obtain ⟨left, hsecond, hleft⟩ := ih halfway hlies' haccounts'
    refine ⟨left, ?_, Releases.trans ⟨?_, hhalfway.size_eq⟩ hleft⟩
    · rw [List.flatMap_cons, List.length_append, Nat.add_comm (node.slots h).length,
        ← Nat.add_assoc, List.map_cons, List.cons_append, hfirst, hsecond]
    · exact hhalfway.leaves.mono (List.subset_append_right _ _)

/-- Releasing a subtree releases its slots, one at every step. -/
theorem exists_release (node : Node π h) (store : Store π) (steps : Nat) (stack others : List Nat)
    (hlies : node.Lies store.cells) (haccounts : store.arena.Accounts (node.slots h ++ others)) :
    ∃ left, store.release (steps + (node.slots h).length) (node.slot h :: stack) =
      left.release steps stack ∧ store.Releases (node.slots h) others left := by
  induction h generalizing store steps stack others with
  | zero =>
    change Leaf π at node
    have hown : store.cells[node.slot]? = some (Node.cell 0 node) := hlies
    change ∃ left, store.release (steps + 1) (node.slot :: stack) = _ ∧ _
    rw [Store.release, hown]
    exact ⟨_, rfl, store.releases_blank haccounts⟩
  | succ h ih =>
    change Branch π (Node π h) at node
    have hown : store.cells[node.slot]? = some (Node.cell (h + 1) node) := hlies.1
    rw [Node.slots_reverse] at haccounts ⊢
    have hrest := store.releases_blank haccounts
    have hlies' : ∀ child ∈ node.children.reverse, Node.Lies
        (store.put node.slot (.blank true)).cells h child := by
      intro child hchild
      refine (hlies.2 child (List.mem_reverse.mp hchild)).congr fun number hnumber =>
        hrest.leaves.same number ?_
      exact List.mem_append_left _ (List.mem_flatMap.mpr ⟨child, hchild, hnumber⟩)
    have haccounts' := haccounts.release (List.perm_append_singleton node.slot _).symm
    rw [← hrest.leaves.arena_eq] at haccounts'
    obtain ⟨left, hleft, hreleases⟩ :=
      exists_release_all ih node.children.reverse
        { store.put node.slot (.blank true) with free := node.slot :: store.free } steps stack
        others hlies' haccounts'
    refine ⟨left, ?_, ?_⟩
    · rw [List.length_cons, ← Nat.add_assoc, Node.slot, Store.release, hown, ← hleft,
        List.map_reverse]
      rfl
    · refine @Releases.trans _ _ _ _ [node.slot] _ _ ⟨?_, hrest.size_eq⟩ hreleases
      exact hrest.leaves.mono (List.subset_append_right _ _)

/-- There are slots enough for all steps of the release of a subtree. -/
theorem exists_release_alone {node : Node π h} {store : Store π} {others : List Nat}
    (hlies : node.Lies store.cells) (haccounts : store.arena.Accounts (node.slots h ++ others)) :
    ∃ left, store.release store.cells.length [node.slot h] = some left ∧
      store.Releases (node.slots h) others left := by
  have hlength := haccounts.length_le
  rw [List.length_append] at hlength
  change _ ≤ store.cells.length at hlength
  obtain ⟨left, hrelease, hreleases⟩ := exists_release node store
    (store.cells.length - (node.slots h).length) [] others hlies haccounts
  rw [Nat.sub_add_cancel (by omega)] at hrelease
  exact ⟨left, hrelease.trans (by rw [release]), hreleases⟩

/-! ## The greatest entry -/

end Store

namespace Node

/-- The last entry of a node's cell is that of the node. -/
theorem entryAt?_last (node : Node π h) :
    (cell h node).entryAt? ((cell h node).keys.length - 1) = (ownEntries h node).getLast? := by
  rw [entryAt?_cell, cell, List.length_map, List.getLast?_eq_getElem?]

/-- A node without its last entry has the entries of the cell without it. -/
theorem eraseEntry_last {node left : Node π h}
    (hentries : ownEntries h left = (ownEntries h node).dropLast) :
    { (cell h node).eraseEntry ((cell h node).keys.length - 1) with
      children := childSlots h left } = cell h left := by
  refine eraseEntry_cell (hentries.trans ?_)
  rw [cell, List.length_map, List.eraseIdx_length_sub_one]

/-- The last child of a branch's cell is the slot of the last child. -/
theorem getLast?_children_cell (branch : Branch π (Node π h)) :
    (cell (h + 1) branch).children.getLast? = some (branch.last.slot h) := by
  change (branch.children.map (Node.slot h)).getLast? = _
  simp [Branch.children]

/-- A branch whose last child has gone with the last entry has the cell without both. -/
theorem cell_dropLast {branch : Branch π (Node π h)} {child : Node π h} {entry : Entry π}
    (hpair : branch.pairs.getLast? = some (child, entry)) :
    { (cell (h + 1) branch).eraseEntry ((cell (h + 1) branch).keys.length - 1) with
      children := (cell (h + 1) branch).children.dropLast } =
      cell (h + 1) (⟨branch.slot, branch.pairs.dropLast, child⟩ : Branch π (Node π h)) := by
  obtain ⟨before, hpairs⟩ := List.getLast?_eq_some_iff.mp hpair
  let left : Branch π (Node π h) := ⟨branch.slot, branch.pairs.dropLast, child⟩
  have hentries : left.entries = branch.entries.dropLast := List.map_dropLast
  have hslots : (cell (h + 1) branch).children.dropLast = childSlots (h + 1) left := by
    change (branch.children.map (Node.slot h)).dropLast = left.children.map (Node.slot h)
    simp [left, Branch.children, hpairs]
  rw [hslots]
  exact eraseEntry_last hentries

end Node

namespace Store

/-- What taking the greatest entry out of a subtree gives in a store that the subtree lies in. -/
inductive Pops (store : Store π) (others : List Nat) (node : Node π h) :
    Option (Popped π (Node π h)) → Option (Entry π × Store π) → Prop where
  /-- There is no entry. -/
  | none : Pops store others node none none
  /-- The entry is taken out, and slots that are not those of the subtree are left alone. -/
  | some {popped : Popped π (Node π h)} {left : Store π}
      (hslot : popped.result.slot h = node.slot h) (hlies : popped.result.Lies left.cells)
      (hleft : store.Releases popped.released others left) :
      Pops store others node (some popped) (some (popped.entry, left))

/-- A branch without one of its children lies in the store that it is put into once the subtree of
that child has been released. -/
theorem exists_release_child {store : Store π} {branch left : Branch π (Node π h)}
    {others : List Nat} (hlies : Node.Lies store.cells (h + 1) branch)
    (haccounts : store.arena.Accounts (Node.slots (h + 1) branch ++ others))
    {before after : List (Node π h)} {child : Node π h}
    (hchildren : branch.children = before ++ child :: after) (hslot : left.slot = branch.slot)
    (hleft : left.children = before ++ after) :
    ∃ rest, (store.put branch.slot (Node.cell (h + 1) left)).release
        (store.put branch.slot (Node.cell (h + 1) left)).cells.length [child.slot h] = some rest ∧
      store.Releases (child.slots h) others rest ∧ Node.Lies rest.cells (h + 1) left := by
  let around := (before ++ after).flatMap (Node.slots h) ++ others
  have hused : store.arena.Accounts (branch.slot :: (child.slots h ++ around)) := by
    refine haccounts.perm (((Node.slots_around hchildren).append_right others).trans ?_)
    rw [Node.slotsAround, List.append_assoc]
    exact List.perm_middle
  obtain ⟨hfresh, -⟩ := List.nodup_cons.mp hused.nodup
  have hput := store.leaves_put (Node.cell (h + 1) left) hfresh
  have hchild : child.Lies (store.put branch.slot (Node.cell (h + 1) left)).cells := by
    refine (hlies.2 child (by simp [hchildren])).congr fun number hnumber => ?_
    exact hput.same number (List.mem_append_left _ hnumber)
  have hchildUsed : (store.put branch.slot (Node.cell (h + 1) left)).arena.Accounts
      (child.slots h ++ branch.slot :: around) := by
    rw [hput.arena_eq]
    exact hused.perm List.perm_middle.symm
  obtain ⟨rest, hrelease, hrest⟩ := exists_release_alone hchild hchildUsed
  have hsame : ∀ number ∈ around, rest.cells[number]? = store.cells[number]? := by
    intro number hnumber
    rw [hrest.leaves.same number (List.mem_cons_of_mem _ hnumber)]
    exact hput.same number (List.mem_append_right _ hnumber)
  refine ⟨rest, hrelease, ⟨?_, hrest.size_eq⟩, ?_, ?_⟩
  · have hleaves := (hput.mono (List.subset_append_right _ _)).trans
      (hrest.leaves.mono (List.subset_cons_self _ _))
    rw [hput.arena_eq] at hleaves
    exact hleaves.mono (List.subset_append_right _ _)
  · rw [hslot, hrest.leaves.same _ List.mem_cons_self]
    exact getElem?_put _ (hused.lt List.mem_cons_self)
  · rw [hleft]
    exact Node.Lies.siblings hlies hchildren fun number hnumber =>
      hsame number (List.mem_append_left _ hnumber)

/-- Taking the greatest entry out of a leaf puts the leaf without it into its slot. -/
theorem exists_popMax_leaf {leaf : Leaf π} {store : Store π} {others : List Nat}
    (hlies : Node.Lies store.cells 0 leaf)
    (haccounts : store.arena.Accounts (leaf.slot :: others)) (steps : Nat) :
    ∃ outcome, store.popMax (steps + 1) leaf.slot = some outcome ∧
      @Pops π 0 store others leaf (Node.popMax 0 leaf) outcome := by
  have hown : store.cells[leaf.slot]? = some (Node.cell 0 leaf) := hlies
  rw [popMax, hown, Node.popMax]
  simp only [Option.bind_eq_bind, Option.bind_some, Node.entryAt?_last]
  change ∃ outcome, (if (leaf.entries.map Entry.key).isEmpty = true then _ else _) = _ ∧ _
  rw [List.isEmpty_map]
  cases hlast : leaf.entries.getLast? with
  | none =>
    rw [List.getLast?_eq_none_iff.mp hlast]
    exact ⟨none, rfl, .none⟩
  | some entry =>
    obtain ⟨before, hentries⟩ := List.getLast?_eq_some_iff.mp hlast
    let left : Leaf π := { leaf with entries := leaf.entries.dropLast }
    have hcell := @Node.eraseEntry_last π 0 leaf left rfl
    obtain ⟨hlies, hleaves⟩ := @lies_put π 0 store leaf left others hlies haccounts rfl
    have hnonempty : leaf.entries.isEmpty = false := by simp [hentries]
    have hentry : Node.ownEntries 0 leaf = leaf.entries := rfl
    rw [hnonempty, if_neg Bool.false_ne_true, hentry, hlast]
    refine ⟨some (entry, store.put leaf.slot (Node.cell 0 left)), ?_,
      .some rfl hlies ⟨hleaves, rfl⟩⟩
    rw [← hcell]
    rfl

/-- A branch whose last child lists nothing gives its last entry, and the child is released. -/
theorem exists_popMax_own {branch : Branch π (Node π h)} {store : Store π} {others : List Nat}
    (hlies : Node.Lies store.cells (h + 1) branch)
    (haccounts : store.arena.Accounts (Node.slots (h + 1) branch ++ others))
    (hpop : branch.last.popMax h = none) {steps : Nat}
    (hbelow : store.popMax steps (branch.last.slot h) = some none) :
    ∃ outcome, store.popMax (steps + 1) branch.slot = some outcome ∧
      @Pops π (h + 1) store others branch (Node.popMax (h + 1) branch) outcome := by
  have hown : store.cells[branch.slot]? = some (Node.cell (h + 1) branch) := hlies.1
  rw [popMax, hown, Node.popMax, hpop]
  simp only [Option.bind_eq_bind, Option.bind_some, Node.entryAt?_last,
    Node.getLast?_children_cell, hbelow]
  change ∃ outcome, (if (branch.entries.map Entry.key).isEmpty = true then _ else _) = _ ∧ _
  rw [List.isEmpty_map, Branch.entries, List.isEmpty_map]
  cases hpair : branch.pairs.getLast? with
  | none =>
    rw [List.getLast?_eq_none_iff.mp hpair]
    exact ⟨none, rfl, .none⟩
  | some pair =>
    obtain ⟨child, entry⟩ := pair
    obtain ⟨before, hpairs⟩ := List.getLast?_eq_some_iff.mp hpair
    let left : Branch π (Node π h) := ⟨branch.slot, branch.pairs.dropLast, child⟩
    have hchildren : branch.children = branch.pairs.map (·.1) ++ branch.last :: [] := rfl
    have hleft : left.children = branch.pairs.map (·.1) ++ [] := by
      simp [left, Branch.children, hpairs]
    obtain ⟨rest, hrelease, hreleases, hrest⟩ :=
      exists_release_child hlies haccounts hchildren (rfl : left.slot = branch.slot) hleft
    have hentry : (Node.ownEntries (h + 1) branch).getLast? = some entry := by
      change branch.entries.getLast? = _
      rw [Branch.entries, List.getLast?_map, hpair]
      rfl
    have hnonempty : branch.pairs.isEmpty = false := by simp [hpairs]
    rw [hnonempty, if_neg Bool.false_ne_true, hentry]
    refine ⟨some (entry, rest), ?_, .some rfl hrest hreleases⟩
    rw [← Node.cell_dropLast hpair] at hrelease
    exact congrArg (Option.bind · fun rest => some (some (entry, rest))) hrelease

/-- Taking the greatest entry out of a subtree gives in the store what it gives of the subtree. -/
theorem exists_popMax (node : Node π h) (store : Store π) (steps : Nat) (others : List Nat)
    (hlies : node.Lies store.cells) (haccounts : store.arena.Accounts (node.slots h ++ others)) :
    ∃ outcome, store.popMax (steps + h + 1) (node.slot h) = some outcome ∧
      store.Pops others node (node.popMax h) outcome := by
  induction h generalizing store others with
  | zero => exact exists_popMax_leaf hlies haccounts steps
  | succ h ih =>
    change Branch π (Node π h) at node
    have hown : store.cells[node.slot]? = some (Node.cell (h + 1) node) := hlies.1
    have hchildren : node.children = node.pairs.map (·.1) ++ node.last :: [] := rfl
    have hbelow := haccounts.perm ((Node.slots_around hchildren).append_right others)
    rw [List.append_assoc] at hbelow
    obtain ⟨outcome, hpop, hpops⟩ := ih node.last store _ (hlies.2 _ (by simp [hchildren])) hbelow
    rw [Nat.add_assoc] at hpop
    generalize hresult : Node.popMax h node.last = result at hpops
    cases hpops with
    | none => exact exists_popMax_own hlies haccounts hresult hpop
    | @some popped left hslot hpopped hleft =>
      rw [Node.slot, popMax, hown, Node.popMax, hresult]
      simp only [Option.bind_eq_bind, Option.bind_some, Node.getLast?_children_cell, hpop]
      refine ⟨_, rfl, .some rfl ?_ ⟨hleft.leaves.mono (List.subset_append_right _ _), hleft.size_eq⟩⟩
      exact Node.Lies.around hlies hchildren rfl rfl rfl hslot hpopped fun number hnumber =>
        hleft.leaves.same number (List.mem_append_left _ hnumber)

end Store

end RelStore.BTree
