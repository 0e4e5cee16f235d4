import RelStore.Proofs.BTree.Store.Release
import RelStore.Proofs.BTree.Store.Search

/-!
# Removal from a tree in a store

A deletion goes down to the node that has the key and takes the position out there. What it leaves of
the store is what removal leaves of the nested tree (`Store.Holds.delete`): a node that is put back
into its slot, and the slots of a child that goes with its entry. Only then can the root be left
without keys, and its only child becomes the root (`exists_collapseRoot`).
-/

namespace RelStore.BTree

open scoped List

variable {π : Type} {h : Nat}

/-- An element at a place of a list stands between those before it and those behind. -/
theorem exists_append_cons {α : Type} {xs : List α} {i : Nat} {x : α} (hat : xs[i]? = some x) :
    ∃ before after, xs = before ++ x :: after ∧ before.length = i := by
  obtain ⟨hlt, rfl⟩ := List.getElem?_eq_some_iff.mp hat
  refine ⟨xs.take i, xs.drop (i + 1), ?_, List.length_take_of_le (Nat.le_of_lt hlt)⟩
  rw [← List.drop_eq_getElem_cons, List.take_append_drop]

/-- What is left of a branch without an entry and without the greatest one before it, which takes
its place if there is one. -/
def Branch.withoutEntry (slot : Nat) (before : List (Node π h × Entry π)) (child : Node π h)
    (after : List (Node π h × Entry π)) (last : Node π h) : Removed (Node π (h + 1)) :=
  match child.popMax h with
  | some popped =>
    ⟨(⟨slot, before ++ (popped.result, popped.entry) :: after, last⟩ : Branch π (Node π h)), true,
      popped.released⟩
  | none => ⟨(⟨slot, before ++ after, last⟩ : Branch π (Node π h)), true, child.slots h⟩

/-- The children of a branch are those before a pair, that of the pair, and those behind it. -/
theorem Branch.children_mk (slot : Nat) (before : List (Node π h × Entry π)) (child : Node π h)
    (entry : Entry π) (after : List (Node π h × Entry π)) (last : Node π h) :
    (⟨slot, before ++ (child, entry) :: after, last⟩ : Branch π (Node π h)).children =
      before.map (·.1) ++ child :: (after.map (·.1) ++ [last]) := by
  simp [Branch.children]

/-- A branch without a pair has the cell without the entry and the slot of the child. -/
theorem Node.cell_eraseIdx (slot : Nat) (before : List (Node π h × Entry π)) (child : Node π h)
    (entry : Entry π) (after : List (Node π h × Entry π)) (last : Node π h) :
    { (cell (h + 1) (⟨slot, before ++ (child, entry) :: after, last⟩ :
        Branch π (Node π h))).eraseEntry before.length with
      children := (cell (h + 1) (⟨slot, before ++ (child, entry) :: after, last⟩ :
        Branch π (Node π h))).children.eraseIdx before.length } =
      cell (h + 1) (⟨slot, before ++ after, last⟩ : Branch π (Node π h)) := by
  let node : Branch π (Node π h) := ⟨slot, before ++ (child, entry) :: after, last⟩
  let left : Branch π (Node π h) := ⟨slot, before ++ after, last⟩
  have hentries : left.entries = node.entries.eraseIdx before.length := by
    simp [left, node, Branch.entries, List.eraseIdx_append_of_length_le]
  have hslots : (cell (h + 1) node).children.eraseIdx before.length = childSlots (h + 1) left := by
    change (node.children.map (Node.slot h)).eraseIdx _ = left.children.map (Node.slot h)
    simp [left, node, Branch.children, List.eraseIdx_append_of_length_le]
  rw [hslots]
  exact eraseEntry_cell hentries

namespace Store

/-! ## Taking an entry out -/

/-- What a removal from a subtree leaves of a store that the subtree lies in. -/
structure Cuts (store : Store π) (others : List Nat) (node : Node π h) (removed : Removed (Node π h))
    (left : Store π) : Prop where
  /-- The root stays in its slot. -/
  slot_eq : removed.result.slot h = node.slot h
  /-- What is left of the subtree lies in the store. -/
  lies : removed.result.Lies left.cells
  /-- Slots that are not those of the subtree are left alone. -/
  releases : store.Releases removed.released others left

/-- What taking an entry out of a subtree gives in a store that the subtree lies in. -/
inductive Erases (store : Store π) (others : List Nat) (node : Node π h)
    (removed : Removed (Node π h)) : Option (Store π) → Prop where
  /-- No child goes with the entry, so that the root has as many entries as before or is a leaf. -/
  | kept {left : Store π} (hcuts : store.Cuts others node removed left)
      (hroot : h = 0 ∨ (removed.result.ownEntries h).length = (node.ownEntries h).length) :
      Erases store others node removed (some left)
  /-- A child goes with the entry, and the root may go then. -/
  | dropped {left : Store π} (hcuts : store.Cuts others node removed left) :
      Erases store others node removed (left.collapseRoot left.cells.length)

/-- What a deletion from a subtree gives in a store that the subtree lies in. -/
inductive Deletes (store : Store π) (others : List Nat) (node : Node π h) :
    Option (Removed (Node π h)) → Option (Bool × Store π) → Prop where
  /-- The position is not there. -/
  | absent : Deletes store others node none (some (false, store))
  /-- The position is taken out. The size counts a key that has gone. -/
  | taken {removed : Removed (Node π h)} {outcome : Option (Store π)}
      (herases : store.Erases others node removed outcome) :
      Deletes store others node (some removed) (outcome.map fun rest =>
        (true, { rest with size := if removed.keyGone then rest.size - 1 else rest.size }))

/-- A node put into its slot is what is left of one, when nothing is released. -/
theorem cuts_put {store : Store π} {node left : Node π h} {others : List Nat} {keyGone : Bool}
    (hlies : node.Lies store.cells) (haccounts : store.arena.Accounts (node.slots h ++ others))
    (hsub : Node.SubBelow h node left) :
    store.Cuts others node ⟨left, keyGone, []⟩ (store.put (node.slot h) (left.cell h)) := by
  obtain ⟨hresult, hleaves⟩ := lies_put hlies haccounts hsub
  exact ⟨hsub.slot_eq, hresult, hleaves, rfl⟩

/-- What is left of a node put into its slot is what is left of the one before. -/
theorem Cuts.after_put {store left : Store π} {node emptied : Node π h} {others : List Nat}
    {removed : Removed (Node π h)} (hlies : node.Lies store.cells)
    (haccounts : store.arena.Accounts (node.slots h ++ others))
    (hsame : Node.SameBelow h node emptied)
    (hcuts : (store.put (node.slot h) (emptied.cell h)).Cuts others emptied removed left) :
    store.Cuts others node removed left := by
  obtain ⟨-, hleaves⟩ := lies_put hlies haccounts hsame.sub
  refine ⟨hcuts.slot_eq.trans hsame.sub.slot_eq, hcuts.lies, ?_, hcuts.releases.size_eq⟩
  have htrans := hleaves.trans hcuts.releases.leaves
  rwa [hleaves.arena_eq] at htrans

/-- What is left when an entry of a node put into its slot is taken out is what is left of the one
before. -/
theorem Erases.after_put {store : Store π} {node emptied : Node π h} {others : List Nat}
    {removed : Removed (Node π h)} {outcome : Option (Store π)}
    (herases : (store.put (node.slot h) (emptied.cell h)).Erases others emptied removed outcome)
    (hlies : node.Lies store.cells) (haccounts : store.arena.Accounts (node.slots h ++ others))
    (hsame : Node.SameBelow h node emptied)
    (hlength : (emptied.ownEntries h).length = (node.ownEntries h).length) :
    store.Erases others node removed outcome := by
  cases herases with
  | kept hcuts hroot =>
    exact .kept (hcuts.after_put hlies haccounts hsame) (hroot.imp_right (·.trans hlength))
  | dropped hcuts => exact .dropped (hcuts.after_put hlies haccounts hsame)

/-- Taking the entry at a place out of a leaf puts the leaf without it into the slot. -/
theorem erases_removeEntry_leaf {store : Store π} {others : List Nat} {slot : Nat}
    {before after : List (Entry π)} {entry : Entry π}
    (hlies : Node.Lies store.cells 0 (⟨slot, before ++ entry :: after⟩ : Leaf π))
    (haccounts : store.arena.Accounts (slot :: others)) :
    @Erases π 0 store others (⟨slot, before ++ entry :: after⟩ : Leaf π)
      ⟨(⟨slot, before ++ after⟩ : Leaf π), true, []⟩ (store.removeEntry slot before.length) := by
  let leaf : Leaf π := ⟨slot, before ++ entry :: after⟩
  let left : Leaf π := ⟨slot, before ++ after⟩
  have hown : store.cells[slot]? = some (Node.cell 0 leaf) := hlies
  have hcell := @Node.eraseEntry_cell π 0 leaf left before.length (by
    simp [leaf, left, Node.ownEntries, List.eraseIdx_append_of_length_le])
  have hcuts := @cuts_put π 0 store leaf left others true hlies haccounts rfl
  rw [← hcell] at hcuts
  rw [removeEntry, hown]
  exact .kept hcuts (.inl rfl)

section

variable {store : Store π} {others : List Nat} {slot : Nat}
  {before after : List (Node π h × Entry π)} {child last : Node π h} {entry : Entry π}
  (hlies : Node.Lies store.cells (h + 1)
    (⟨slot, before ++ (child, entry) :: after, last⟩ : Branch π (Node π h)))
  (haccounts : store.arena.Accounts (Node.slots (h + 1)
    (⟨slot, before ++ (child, entry) :: after, last⟩ : Branch π (Node π h)) ++ others))
include hlies haccounts

/-- An entry of a branch goes with the child before it: the branch is put back without both, the
child is released, and the root may go then. -/
theorem erases_release_child :
    @Erases π (h + 1) store others
      (⟨slot, before ++ (child, entry) :: after, last⟩ : Branch π (Node π h))
      ⟨(⟨slot, before ++ after, last⟩ : Branch π (Node π h)), true, child.slots h⟩
      (((store.put slot (Node.cell (h + 1)
        (⟨slot, before ++ after, last⟩ : Branch π (Node π h)))).release
          (store.put slot (Node.cell (h + 1)
            (⟨slot, before ++ after, last⟩ : Branch π (Node π h)))).cells.length
          [child.slot h]).bind fun rest => rest.collapseRoot rest.cells.length) := by
  let left : Branch π (Node π h) := ⟨slot, before ++ after, last⟩
  have hleft : left.children = before.map (·.1) ++ (after.map (·.1) ++ [last]) := by
    simp [left, Branch.children]
  obtain ⟨rest, hrelease, hreleases, hrest⟩ :=
    exists_release_child hlies haccounts (Branch.children_mk ..) (rfl : left.slot = slot) hleft
  rw [hrelease]
  exact .dropped ⟨rfl, hrest, hreleases⟩

/-- An entry of a branch gives way to the greatest one of the child before it, once this one has
been taken out there. -/
theorem erases_put_popped {popped : Popped π (Node π h)} {left : Store π}
    (hpop : child.popMax h = some popped)
    (hslot : popped.result.slot h = child.slot h) (hpopped : popped.result.Lies left.cells)
    (hleft : store.Releases popped.released
      (Node.slotsAround slot (before.map (·.1)) (after.map (·.1) ++ [last]) ++ others) left) :
    @Erases π (h + 1) store others
      (⟨slot, before ++ (child, entry) :: after, last⟩ : Branch π (Node π h))
      ⟨(⟨slot, before ++ (popped.result, popped.entry) :: after, last⟩ : Branch π (Node π h)), true,
        popped.released⟩
      (left.cells[slot]?.bind fun cell =>
        some (left.put slot (cell.setEntry before.length popped.entry))) := by
  let mid : Branch π (Node π h) := ⟨slot, before ++ (popped.result, entry) :: after, last⟩
  let result : Branch π (Node π h) := ⟨slot, before ++ (popped.result, popped.entry) :: after, last⟩
  have hchildren := Branch.children_mk slot before child entry after last
  have hmidChildren := Branch.children_mk slot before popped.result entry after last
  have hmid : Node.Lies left.cells (h + 1) mid := by
    refine Node.Lies.around hlies hchildren hmidChildren rfl ?_ hslot hpopped ?_
    · simp [mid, Branch.entries]
    · exact fun number hnumber => hleft.leaves.same number (List.mem_append_left _ hnumber)
  have hbelow := haccounts.perm ((Node.slots_around hchildren).append_right others)
  rw [List.append_assoc] at hbelow
  have hused : left.arena.Accounts (Node.slots (h + 1) mid ++ others) := by
    rw [hleft.leaves.arena_eq]
    refine (hbelow.release (Node.perm_append_released (Node.slots_popMax child hpop) _)).perm ?_
    rw [← List.append_assoc]
    exact ((Node.slots_around hmidChildren).append_right others).symm
  have hown : left.cells[slot]? = some (Node.cell (h + 1) mid) := hmid.1
  have hsame : Node.SameBelow (h + 1) (mid : Node π (h + 1)) result :=
    ⟨rfl, by simp [mid, result, Branch.children]⟩
  have hset : result.entries = mid.entries.set before.length popped.entry := by
    simp [mid, result, Branch.entries]
  obtain ⟨hput, hleaves⟩ := lies_put hmid hused hsame.sub
  rw [hown, Option.bind_some, @Node.setEntry_cell π (h + 1) mid result _ _ hset hsame.childSlots_eq]
  refine .kept ⟨rfl, hput, ?_, hleft.size_eq⟩ (.inr (by simp [Node.ownEntries, Branch.entries]))
  have htrans := (hleft.leaves.mono (List.subset_append_right _ _)).trans hleaves
  rwa [hleft.leaves.arena_eq] at htrans

/-- Taking the entry at a place out of a branch puts the greatest entry before it there, or releases
the child before it. -/
theorem erases_removeEntry_branch :
    @Erases π (h + 1) store others
      (⟨slot, before ++ (child, entry) :: after, last⟩ : Branch π (Node π h))
      (Branch.withoutEntry slot before child after last) (store.removeEntry slot before.length) := by
  let node : Branch π (Node π h) := ⟨slot, before ++ (child, entry) :: after, last⟩
  have hown : store.cells[slot]? = some (Node.cell (h + 1) node) := hlies.1
  have hchildren := Branch.children_mk slot before child entry after last
  have hat : (Node.cell (h + 1) node).children[before.length]? = some (child.slot h) := by
    change (node.children.map (Node.slot h))[before.length]? = _
    simp [node, hchildren]
  have hbelow := haccounts.perm ((Node.slots_around hchildren).append_right others)
  rw [List.append_assoc] at hbelow
  obtain ⟨steps, hsteps⟩ := exists_steps hbelow
  obtain ⟨outcome, hpop, hpops⟩ :=
    exists_popMax child store steps _ (hlies.2 child (by simp [Branch.children])) hbelow
  have hleaf : (Node.cell (h + 1) node).isLeaf = false := rfl
  rw [removeEntry, hown, Branch.withoutEntry]
  simp only [Option.bind_eq_bind, Option.bind_some, hleaf, hat, hsteps, hpop]
  rw [if_neg Bool.false_ne_true]
  generalize hresult : Node.popMax h child = result at hpops ⊢
  cases hpops with
  | none =>
    have herases := erases_release_child hlies haccounts
    rw [← Node.cell_eraseIdx slot before child entry after last] at herases
    exact herases
  | some hslot hpopped hleft =>
    exact erases_put_popped hlies haccounts hresult hslot hpopped hleft

end

/-- A deletion below a child of a branch gives in the store what it gives of the branch. -/
theorem Deletes.around {store : Store π} {branch : Branch π (Node π h)} {i : Nat}
    {before after : List (Node π h)} {others : List Nat}
    {removed : Option (Removed (Node π h))} {outcome : Option (Bool × Store π)}
    (hlies : Node.Lies store.cells (h + 1) branch)
    (hchildren : branch.children = before ++ branch.childAt i :: after)
    (hreplace : ∀ grown : Grown π (Node π h),
      (branch.replace i grown).children = before ++ (grown.children ++ after))
    (hbelow : store.Deletes (Node.slotsAround branch.slot before after ++ others)
      (branch.childAt i) removed outcome) :
    @Deletes π (h + 1) store others branch
      (removed.map fun below => ⟨(branch.replace i (.one below.result) : Branch π (Node π h)),
        below.keyGone, below.released⟩) outcome := by
  cases hbelow with
  | absent => exact .absent
  | @taken removed outcome herases =>
    have around {left : Store π} (hcuts : store.Cuts (Node.slotsAround branch.slot before after ++
        others) (branch.childAt i) removed left) : @Cuts π (h + 1) store others branch
          ⟨(branch.replace i (.one removed.result) : Branch π (Node π h)), removed.keyGone,
            removed.released⟩ left := by
      refine ⟨branch.slot_replace i _, ?_, hcuts.releases.leaves.mono (List.subset_append_right _ _),
        hcuts.releases.size_eq⟩
      refine Node.Lies.around hlies hchildren (hreplace (.one _)) (branch.slot_replace i _)
        (branch.entries_replace_one i _) hcuts.slot_eq hcuts.lies fun number hnumber => ?_
      exact hcuts.releases.leaves.same number (List.mem_append_left _ hnumber)
    have hlength : (Node.ownEntries (h + 1) (branch.replace i (.one removed.result))).length =
        (Node.ownEntries (h + 1) branch).length :=
      congrArg List.length (branch.entries_replace_one i removed.result)
    refine .taken ?_
    cases herases with
    | kept hcuts => exact .kept (around hcuts) (.inr hlength)
    | dropped hcuts => exact .dropped (around hcuts)

section

variable [DecidableEq π] {key : Value} {position : π}

/-- A position that is not at a place leaves the store alone. -/
theorem removePosition_absent {store : Store π} {node : Node π h} (hlies : node.Lies store.cells)
    {i : Nat} {entry : Entry π} (hentry : (node.ownEntries h)[i]? = some entry)
    (hmem : position ∉ entry.positions) :
    store.removePosition (node.slot h) i position = some (false, store) := by
  rw [removePosition, hlies.own]
  simp only [Option.bind_eq_bind, Option.bind_some, Node.entryAt?_cell, hentry, if_neg hmem]

/-- A position at a place is taken out, and with the last one the entry. -/
theorem removePosition_eq {store : Store π} {node left : Node π h} (hlies : node.Lies store.cells)
    {i : Nat} {entry : Entry π} (hentry : (node.ownEntries h)[i]? = some entry)
    (hmem : position ∈ entry.positions)
    (hentries : left.ownEntries h =
      (node.ownEntries h).set i ⟨entry.key, entry.positions.erase position⟩)
    (hsame : Node.SameBelow h node left) :
    store.removePosition (node.slot h) i position =
      if (entry.positions.erase position).isEmpty then
        ((store.put (node.slot h) (left.cell h)).removeEntry (node.slot h) i).map fun rest =>
          (true, { rest with size := rest.size - 1 })
      else some (true, store.put (node.slot h) (left.cell h)) := by
  rw [removePosition, hlies.own]
  simp only [Option.bind_eq_bind, Option.bind_some, Node.entryAt?_cell, hentry, if_pos hmem,
    Node.setEntry_cell hentries hsame.childSlots_eq, Option.map_eq_bind]
  rfl

/-- A deletion goes on at a node that has the key itself. -/
theorem deleteFrom_own {store : Store π} {node : Node π h} (hlies : node.Lies store.cells)
    (hkey : node.hasOwn key h = true) (steps : Nat) :
    store.deleteFrom (steps + 1) (node.slot h) key position =
      store.removePosition (node.slot h) (place key (node.ownEntries h)) position := by
  rw [deleteFrom, locate_own hlies hkey]
  rfl

end

end Store

namespace Node

variable [DecidableEq π] {key : Value} {position : π}

/-- A leaf that does not have the key has nothing to take out. -/
theorem remove?_leaf {leaf : Leaf π} (hkey : hasOwn key 0 leaf = false) :
    remove? key position 0 leaf = none := by
  rw [hasOwn_leaf] at hkey
  rw [remove?]
  split
  · rfl
  · next entry after hdrop =>
    rw [hdrop] at hkey
    change sameKey key entry.key = false at hkey
    rw [hkey]
    rfl

/-- A leaf that has the key has the position taken out of its entry. -/
theorem remove?_own_leaf {slot : Nat} {before after : List (Entry π)} {entry : Entry π}
    (hplace : place key (before ++ entry :: after) = before.length)
    (hsame : sameKey key entry.key = true) :
    remove? key position 0 (⟨slot, before ++ entry :: after⟩ : Leaf π) =
      if position ∈ entry.positions then
        some (if (entry.positions.erase position).isEmpty then
          ⟨(⟨slot, before ++ after⟩ : Leaf π), true, []⟩
        else
          ⟨(⟨slot, before ++ ⟨entry.key, entry.positions.erase position⟩ :: after⟩ : Leaf π), false,
            []⟩)
      else none := by
  rw [remove?]
  simp only [hplace, List.take_left, List.drop_left, hsame, Bool.true_and, List.contains_iff_mem]
  split
  · cases entry.positions.erase position <;> rfl
  · rfl

/-- A branch that does not have the key has the position taken out below a child. -/
theorem remove?_below {branch : Branch π (Node π h)} (hkey : hasOwn key (h + 1) branch = false) :
    remove? key position (h + 1) branch =
      (remove? key position h (branch.childAt (place key branch.entries))).map fun below =>
        ⟨(branch.replace (place key branch.entries) (.one below.result) : Branch π (Node π h)),
          below.keyGone, below.released⟩ := by
  rw [hasOwn_branch] at hkey
  rw [remove?, Branch.childAt]
  unfold Branch.replace
  split
  · next hdrop => rw [hdrop]
  · next child entry after hdrop =>
    rw [hdrop] at hkey ⊢
    change sameKey key entry.key = false at hkey
    rw [if_neg (Bool.eq_false_iff.mp hkey)]

/-- A branch that has the key has the position taken out of its entry. -/
theorem remove?_own_branch {slot : Nat} {before after : List (Node π h × Entry π)}
    {child last : Node π h} {entry : Entry π}
    (hplace : place key (Branch.entries (⟨slot, before ++ (child, entry) :: after, last⟩ :
      Branch π (Node π h))) = before.length)
    (hsame : sameKey key entry.key = true) :
    remove? key position (h + 1)
        (⟨slot, before ++ (child, entry) :: after, last⟩ : Branch π (Node π h)) =
      if position ∈ entry.positions then
        some (if (entry.positions.erase position).isEmpty then
          Branch.withoutEntry slot before child after last
        else
          ⟨(⟨slot, before ++ (child, ⟨entry.key, entry.positions.erase position⟩) :: after, last⟩ :
            Branch π (Node π h)), false, []⟩)
      else none := by
  rw [remove?]
  simp only [hplace, List.take_left, List.drop_left, hsame, if_true, List.contains_iff_mem]
  split
  · cases entry.positions.erase position with
    | nil =>
      rw [Branch.withoutEntry]
      cases popMax h child <;> rfl
    | cons other positions => rfl
  · rfl

end Node

namespace Store

section

variable [DecidableEq π] {key : Value} {position : π}

/-- Taking a position out at a place of a node gives in the store what it gives of the node, if taking
the entry out does once it has no position. -/
theorem deletes_removePosition {store : Store π} {node emptied : Node π h} {others : List Nat}
    (hlies : node.Lies store.cells) (haccounts : store.arena.Accounts (node.slots h ++ others))
    {i : Nat} {entry : Entry π} (hentry : (node.ownEntries h)[i]? = some entry)
    (hentries : emptied.ownEntries h =
      (node.ownEntries h).set i ⟨entry.key, entry.positions.erase position⟩)
    (hsame : Node.SameBelow h node emptied) {gone : Removed (Node π h)}
    (hgone : gone.keyGone = true)
    (herases : ∀ store : Store π, emptied.Lies store.cells →
      store.arena.Accounts (emptied.slots h ++ others) →
        store.Erases others emptied gone (store.removeEntry (node.slot h) i)) :
    store.Deletes others node
      (if position ∈ entry.positions then
        some (if (entry.positions.erase position).isEmpty then gone else ⟨emptied, false, []⟩)
      else none)
      (store.removePosition (node.slot h) i position) := by
  by_cases hmem : position ∈ entry.positions
  · rw [if_pos hmem, removePosition_eq hlies hentry hmem hentries hsame]
    have hlength : (emptied.ownEntries h).length = (node.ownEntries h).length := by
      rw [hentries, List.length_set]
    split
    · obtain ⟨hput, hleaves⟩ := lies_put hlies haccounts hsame.sub
      have hused := haccounts.perm (hsame.slots_perm.symm.append_right others)
      rw [← hleaves.arena_eq] at hused
      have hcuts := (herases _ hput hused).after_put hlies haccounts hsame hlength
      have htaken := Deletes.taken hcuts
      rwa [hgone] at htaken
    · exact .taken (.kept (cuts_put hlies haccounts hsame.sub) (.inr hlength))
  · rw [if_neg hmem, removePosition_absent hlies hentry hmem]
    exact .absent

/-- A deletion from a leaf that has the key gives in the store what it gives of the leaf. -/
theorem deletes_own_leaf {store : Store π} {others : List Nat} {slot : Nat}
    {before after : List (Entry π)} {entry : Entry π}
    (hlies : Node.Lies store.cells 0 (⟨slot, before ++ entry :: after⟩ : Leaf π))
    (haccounts : store.arena.Accounts (slot :: others))
    (hplace : place key (before ++ entry :: after) = before.length)
    (hsame : sameKey key entry.key = true) :
    @Deletes π 0 store others (⟨slot, before ++ entry :: after⟩ : Leaf π)
      (Node.remove? key position 0 (⟨slot, before ++ entry :: after⟩ : Leaf π))
      (store.removePosition slot before.length position) := by
  let leaf : Leaf π := ⟨slot, before ++ entry :: after⟩
  let emptied : Leaf π := ⟨slot, before ++ ⟨entry.key, entry.positions.erase position⟩ :: after⟩
  let left : Leaf π := ⟨slot, before ++ after⟩
  have hentry : (Node.ownEntries 0 leaf)[before.length]? = some entry := by
    simp [leaf, Node.ownEntries]
  have hset : Node.ownEntries 0 emptied = (Node.ownEntries 0 leaf).set before.length
      ⟨entry.key, entry.positions.erase position⟩ := by
    simp [leaf, emptied, Node.ownEntries]
  rw [Node.remove?_own_leaf hplace hsame]
  exact @deletes_removePosition π 0 _ position store leaf emptied others hlies haccounts _ entry
    hentry hset rfl ⟨left, true, []⟩ rfl fun _ => erases_removeEntry_leaf

/-- A deletion from a branch that has the key gives in the store what it gives of the branch. -/
theorem deletes_own_branch {store : Store π} {others : List Nat} {slot : Nat}
    {before after : List (Node π h × Entry π)} {child last : Node π h} {entry : Entry π}
    (hlies : Node.Lies store.cells (h + 1)
      (⟨slot, before ++ (child, entry) :: after, last⟩ : Branch π (Node π h)))
    (haccounts : store.arena.Accounts (Node.slots (h + 1)
      (⟨slot, before ++ (child, entry) :: after, last⟩ : Branch π (Node π h)) ++ others))
    (hplace : place key (Branch.entries (⟨slot, before ++ (child, entry) :: after, last⟩ :
      Branch π (Node π h))) = before.length)
    (hsame : sameKey key entry.key = true) :
    @Deletes π (h + 1) store others
      (⟨slot, before ++ (child, entry) :: after, last⟩ : Branch π (Node π h))
      (Node.remove? key position (h + 1)
        (⟨slot, before ++ (child, entry) :: after, last⟩ : Branch π (Node π h)))
      (store.removePosition slot before.length position) := by
  let branch : Branch π (Node π h) := ⟨slot, before ++ (child, entry) :: after, last⟩
  let emptied : Branch π (Node π h) :=
    ⟨slot, before ++ (child, ⟨entry.key, entry.positions.erase position⟩) :: after, last⟩
  have hentry : (Node.ownEntries (h + 1) branch)[before.length]? = some entry := by
    simp [branch, Node.ownEntries, Branch.entries]
  have hset : Node.ownEntries (h + 1) emptied = (Node.ownEntries (h + 1) branch).set before.length
      ⟨entry.key, entry.positions.erase position⟩ := by
    simp [branch, emptied, Node.ownEntries, Branch.entries]
  have hbelow : Node.SameBelow (h + 1) (branch : Node π (h + 1)) emptied :=
    ⟨rfl, by simp [branch, emptied, Branch.children]⟩
  have hgone : (Branch.withoutEntry slot before child after last).keyGone = true := by
    rw [Branch.withoutEntry]
    split <;> rfl
  rw [Node.remove?_own_branch hplace hsame]
  exact deletes_removePosition hlies haccounts hentry hset hbelow hgone fun _ =>
    erases_removeEntry_branch

/-- A deletion from a node that has the key gives in the store what it gives of the node. -/
theorem deletes_own {store : Store π} {node : Node π h} {others : List Nat}
    (hlies : node.Lies store.cells) (haccounts : store.arena.Accounts (node.slots h ++ others))
    (hkey : node.hasOwn key h = true) (steps : Nat) :
    store.Deletes others node (node.remove? key position h)
      (store.deleteFrom (steps + 1) (node.slot h) key position) := by
  rw [deleteFrom_own hlies hkey]
  obtain ⟨entry, hentry, hsame⟩ := Node.exists_own hkey
  cases h with
  | zero =>
    obtain ⟨slot, entries⟩ := (node : Leaf π)
    obtain ⟨before, after, hentries, hlength⟩ := exists_append_cons hentry
    change entries = _ at hentries
    subst hentries
    rw [← hlength]
    exact deletes_own_leaf hlies haccounts hlength.symm hsame
  | succ h =>
    obtain ⟨slot, pairs, last⟩ := (node : Branch π (Node π h))
    obtain ⟨⟨child, _⟩, hpair, rfl⟩ :=
      Option.map_eq_some_iff.mp (List.getElem?_map.symm.trans hentry)
    obtain ⟨before, after, hpairs, hlength⟩ := exists_append_cons hpair
    change pairs = _ at hpairs
    subst hpairs
    rw [← hlength]
    exact deletes_own_branch hlies haccounts hlength.symm hsame

/-- A deletion from a subtree gives in the store what it gives of the subtree. -/
theorem deletes_deleteFrom (node : Node π h) (store : Store π) (steps : Nat) (others : List Nat)
    (hlies : node.Lies store.cells) (haccounts : store.arena.Accounts (node.slots h ++ others)) :
    store.Deletes others node (node.remove? key position h)
      (store.deleteFrom (steps + h + 1) (node.slot h) key position) := by
  induction h generalizing others with
  | zero =>
    cases hkey : node.hasOwn key 0 with
    | true => exact deletes_own hlies haccounts hkey steps
    | false =>
      rw [Node.remove?_leaf hkey, deleteFrom, Node.slot, locate_leaf hlies hkey]
      exact .absent
  | succ h ih =>
    cases hkey : node.hasOwn key (h + 1) with
    | true => exact deletes_own hlies haccounts hkey (steps + (h + 1))
    | false =>
      change Branch π (Node π h) at node
      obtain ⟨before, after, hchildren, -, hreplace⟩ :=
        node.exists_children_replace (place key node.entries)
      have hused := haccounts.perm ((Node.slots_around hchildren).append_right others)
      rw [List.append_assoc] at hused
      rw [Node.remove?_below hkey, deleteFrom, Node.slot, locate_below hlies hkey, ← deleteFrom]
      exact .around hlies hchildren hreplace (ih _ _ (hlies.2 _ (node.childAt_mem _)) hused)

end

/-! ## Whole trees -/

/-- Making the only child of a root without keys the root gives in the store what it gives of the
tree. -/
theorem exists_collapseRoot (root : Node π h) (store : Store π) (steps : Nat)
    (hlies : root.Lies store.cells) (hroot : store.root = root.slot h)
    (haccounts : store.arena.Accounts (root.slots h)) :
    ∃ left, store.collapseRoot (steps + h + 1) = some left ∧ left.size = store.size ∧ ∀ size,
      { left with size }.Holds (collapse store.order size h root store.arena) := by
  induction h generalizing store with
  | zero =>
    rw [collapseRoot, hroot, hlies.own]
    exact ⟨store, rfl, rfl, fun _ => ⟨rfl, hroot, rfl, rfl, hlies⟩⟩
  | succ h ih =>
    obtain ⟨slot, pairs, last⟩ := (root : Branch π (Node π h))
    have hown : store.cells[slot]? = some
        (Node.cell (h + 1) (⟨slot, pairs, last⟩ : Branch π (Node π h))) := hlies.1
    change store.root = slot at hroot
    cases pairs with
    | nil =>
      have hslots : Node.slots (h + 1) (⟨slot, [], last⟩ : Branch π (Node π h)) =
          slot :: last.slots h := by
        simp [Node.slots]
      rw [hslots] at haccounts
      let rest : Store π :=
        { store.put slot (.blank true) with root := last.slot h, free := slot :: store.free }
      have hblank := store.releases_blank haccounts
      have harena : rest.arena = store.arena.release [slot] := hblank.leaves.arena_eq
      let opened : Store π := { store.put slot ⟨false, [], [], []⟩ with root := last.slot h }
      have hrelease : opened.release opened.cells.length [slot] = some rest := by
        have hlt : slot < store.cells.length := haccounts.lt List.mem_cons_self
        have hat : opened.cells[slot]? = some ⟨false, [], [], []⟩ := getElem?_put _ hlt
        obtain ⟨length, hlength⟩ := Nat.exists_eq_add_one_of_ne_zero (Nat.ne_zero_of_lt hlt)
        have hopened : opened.cells.length = length + 1 := List.length_set.trans hlength
        rw [hopened, release, hat]
        change Store.release _ length [] = _
        have hset : opened.cells.set slot (.blank true) = store.cells.set slot (.blank true) :=
          List.set_set ..
        rw [release, put, hset]
        rfl
      have hrest : rest.arena.Accounts (last.slots h) := by
        rw [harena]
        exact haccounts.release (List.perm_append_singleton slot _).symm
      obtain ⟨left, hleft, hsize, hholds⟩ := ih last rest
        ((hlies.2 last List.mem_cons_self).congr hblank.leaves.same) rfl hrest
      rw [Nat.add_assoc] at hleft
      refine ⟨left, ?_, hsize, fun size => ?_⟩
      · rw [collapseRoot, hroot, hown]
        exact (congrArg (Option.bind · (Store.collapseRoot · (steps + (h + 1)))) hrelease).trans hleft
      · have hheld := hholds size
        rwa [harena] at hheld
    | cons pair pairs =>
      rw [collapseRoot, hroot, hown]
      exact ⟨store, rfl, rfl, fun _ => ⟨rfl, hroot, rfl, rfl, hlies⟩⟩

/-- A root that is a leaf or has an entry stays the root. -/
theorem collapse_eq {order : Order} {size depth : Nat} {root : Node π depth} {arena : Arena}
    (hroot : depth = 0 ∨ root.ownEntries depth ≠ []) :
    collapse order size depth root arena = ⟨order, depth, root, arena, size⟩ := by
  cases depth with
  | zero => rfl
  | succ depth =>
    obtain ⟨slot, pairs, last⟩ := (root : Branch π (Node π depth))
    cases pairs with
    | nil => exact absurd rfl (hroot.resolve_left (Nat.succ_ne_zero _))
    | cons pair pairs => rfl

/-- What is left of a store when an entry has been taken out of the tree in it is what is left of the
tree. -/
theorem Erases.exists_holds {store : Store π} {root : Node π h} {removed : Removed (Node π h)}
    {outcome : Option (Store π)} (herases : store.Erases [] root removed outcome)
    (hroot : store.root = root.slot h) (haccounts : store.arena.Accounts (root.slots h))
    (hslots : root.slots h ~ removed.result.slots h ++ removed.released)
    (hentries : h = 0 ∨ root.ownEntries h ≠ []) :
    ∃ left, outcome = some left ∧ left.size = store.size ∧ ∀ size, { left with size }.Holds
      (collapse store.order size h removed.result (store.arena.release removed.released)) := by
  cases herases with
  | @kept left hcuts hlength =>
    obtain ⟨hslot, hlies, ⟨horder, hsame, harena, -⟩, hsize⟩ := hcuts
    refine ⟨left, rfl, hsize, fun size => ?_⟩
    rw [collapse_eq]
    · exact ⟨horder, hsame.trans (hroot.trans hslot.symm), harena, rfl, hlies⟩
    · rcases hlength with hzero | hlength
      · exact .inl hzero
      · refine hentries.imp_right fun hne hnil => hne (List.eq_nil_of_length_eq_zero ?_)
        rw [← hlength, hnil, List.length_nil]
  | @dropped rest hcuts =>
    obtain ⟨hslot, hlies, ⟨horder, hsame, harena, -⟩, hsize⟩ := hcuts
    have hused : rest.arena.Accounts (removed.result.slots h) := by
      rw [harena]
      exact haccounts.release hslots
    obtain ⟨steps, hsteps⟩ := @exists_steps π h rest removed.result [] (by rwa [List.append_nil])
    obtain ⟨left, hleft, hleftSize, hholds⟩ :=
      exists_collapseRoot _ rest steps hlies (hsame.trans (hroot.trans hslot.symm)) hused
    rw [horder, harena] at hholds
    rw [hsteps]
    exact ⟨left, hleft, hleftSize.trans hsize, hholds⟩

/-- A store that holds a tree holds the tree with a position erased, and tells whether it was
there. -/
theorem Holds.delete [DecidableEq π] {store : Store π} {tree : BTree π}
    (hholds : store.Holds tree) (key : Value) (position : π)
    (haccounts : tree.arena.Accounts (tree.root.slots tree.depth))
    (hentries : tree.depth = 0 ∨ tree.root.ownEntries tree.depth ≠ []) :
    ∃ left, store.delete key position = some ((tree.remove? key position).isSome, left) ∧
      left.Holds (tree.erase key position) := by
  obtain ⟨steps, hsteps⟩ := hholds.exists_steps haccounts
  obtain ⟨horder, hroot, harena, hsize, hlies⟩ := hholds
  rw [← harena] at haccounts
  have hdeletes := @deletes_deleteFrom π tree.depth _ key position tree.root store steps [] hlies
    (by rwa [List.append_nil])
  rw [Store.delete, hsteps, hroot, erase, remove?]
  generalize store.deleteFrom _ (tree.root.slot tree.depth) key position = deleted at hdeletes ⊢
  cases hremove : tree.root.remove? key position tree.depth with
  | none =>
    rw [hremove] at hdeletes
    cases hdeletes with
    | absent => exact ⟨store, rfl, horder, hroot, harena, hsize, hlies⟩
  | some removed =>
    rw [hremove] at hdeletes
    cases hdeletes with
    | taken herases =>
      obtain ⟨left, rfl, hleft, hholds⟩ :=
        herases.exists_holds hroot haccounts (Node.slots_remove? tree.root hremove) hentries
      refine ⟨_, rfl, ?_⟩
      rw [hleft, hsize]
      rw [horder, harena] at hholds
      exact hholds _

end Store

end RelStore.BTree
