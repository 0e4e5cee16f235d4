import RelStore.Proofs.BTree.Store.Subtrees

/-!
# Splitting a node in a store

A child is split in three slots: those of its parent and of its lower half, which stays where it was,
and the next one, which takes the upper half (`Store.exists_splitChild`). The nodes below the child
stay in their slots.
-/

namespace RelStore.BTree

open scoped List

variable {π : Type} {h : Nat}

/-! ## Lists -/

/-- The elements up to a place. -/
theorem take_succ_append_cons {α : Type} {xs ys : List α} {x : α} {i : Nat} (hi : xs.length = i) :
    (xs ++ x :: ys).take (i + 1) = xs ++ [x] := by
  rw [List.take_append, hi, List.take_of_length_le (by omega), Nat.add_sub_cancel_left]
  rfl

/-- The elements behind a place. -/
theorem drop_succ_append_cons {α : Type} {xs ys : List α} {x : α} {i : Nat} (hi : xs.length = i) :
    (xs ++ x :: ys).drop (i + 1) = ys := by
  rw [List.drop_append, hi, List.drop_eq_nil_of_le (by omega), Nat.add_sub_cancel_left]
  rfl

/-- An element that has been put in is at its place. -/
theorem getElem?_insertAt {α : Type} {i : Nat} {x : α} {xs : List α} (hi : i ≤ xs.length) :
    (insertAt i x xs)[i]? = some x := by
  have hlength : (xs.take i).length = i := List.length_take_of_le hi
  rw [insertAt, List.getElem?_append_right (Nat.le_of_eq hlength), hlength, Nat.sub_self]
  rfl

/-- An element that has been put in can be put in as another one. -/
theorem set_insertAt {α : Type} {i : Nat} {x y : α} {xs : List α} (hi : i ≤ xs.length) :
    (insertAt i x xs).set i y = insertAt i y xs := by
  have hlength : (xs.take i).length = i := List.length_take_of_le hi
  rw [insertAt, List.set_append_right _ _ (Nat.le_of_eq hlength), hlength, Nat.sub_self]
  rfl

/-! ## Halves -/

namespace Node

/-- What a store has in the slot of a branch with a child split: the entry between the halves and
the slots of the halves. -/
theorem Lies.replace_two {cells : List (Cell π)} {branch : Branch π (Node π h)} {i : Nat}
    (hi : i ≤ branch.pairs.length) {left right : Node π h} {middle : Entry π}
    (hlies : Lies cells (h + 1) (branch.replace i (.two left middle right) : Node π (h + 1))) :
    cells[branch.slot]? = some (cell (h + 1) (branch.replace i (.two left middle right))) ∧
      (cell (h + 1) (branch.replace i (.two left middle right))).keys[i]? = some middle.key ∧
      (cell (h + 1) (branch.replace i (.two left middle right))).children[i]? =
        some (slot h left) ∧
      (cell (h + 1) (branch.replace i (.two left middle right))).children[i + 1]? =
        some (slot h right) := by
  obtain ⟨before, after, -, hbefore, hreplace⟩ := branch.exists_children_replace i
  have hchildren : childSlots (h + 1) (branch.replace i (.two left middle right)) =
      before.map (slot h) ++ slot h left :: slot h right :: after.map (slot h) := by
    rw [childSlots, hreplace, Grown.children, List.map_append]
    rfl
  have hlength : (before.map (slot h)).length = i := by rw [List.length_map, hbefore hi]
  refine ⟨?_, ?_, ?_, ?_⟩
  · rw [← branch.slot_replace i (.two left middle right)]
    exact hlies.1
  · change ((branch.replace i _).entries.map Entry.key)[i]? = _
    rw [Branch.entries_replace_two, List.getElem?_map, getElem?_insertAt]
    · rfl
    · rwa [Branch.entries, List.length_map]
  · rw [cell, hchildren, ← hlength]
    simp
  · rw [cell, hchildren, ← hlength]
    simp

/-- The cell of a branch with a child split has the entry between the halves at the place of the
child and the slot of the upper half behind that of the lower one. -/
theorem cell_replace_two {branch : Branch π (Node π h)} {i : Nat} (hi : i ≤ branch.pairs.length)
    {left right : Node π h} (middle : Entry π) (hleft : slot h left = slot h (branch.childAt i)) :
    { (cell (h + 1) branch).insertEntry i middle with
      children := insertAt (i + 1) (slot h right) (cell (h + 1) branch).children } =
        cell (h + 1) (branch.replace i (.two left middle right)) := by
  obtain ⟨before, after, hchildren, hbefore, hreplace⟩ := branch.exists_children_replace i
  have hentries : ownEntries (h + 1) (branch.replace i (.two left middle right)) =
      insertAt i middle (ownEntries (h + 1) branch) :=
    branch.entries_replace_two i left right middle
  have hlength : (before.map (slot h)).length = i := by rw [List.length_map, hbefore hi]
  have hslots : insertAt (i + 1) (slot h right) (branch.children.map (slot h)) =
      (branch.replace i (.two left middle right)).children.map (slot h) := by
    rw [hreplace, hchildren, Grown.children, List.map_append, List.map_cons, insertAt,
      take_succ_append_cons hlength, drop_succ_append_cons hlength]
    simp [hleft]
  rw [← insertEntry_cell hentries]
  exact congrArg (fun children => { (cell (h + 1) branch).insertEntry i middle with children })
    hslots

/-- A branch that takes back a child has the slots of what has become of it and those around. -/
theorem slots_replace {branch : Branch π (Node π h)} {i : Nat} {before after : List (Node π h)}
    (hreplace : ∀ grown : Grown π (Node π h),
      (branch.replace i grown).children = before ++ (grown.children ++ after))
    (grown : Grown π (Node π h)) :
    slots (h + 1) (branch.replace i grown : Node π (h + 1)) ~
      grown.children.flatMap (slots h) ++ slotsAround branch.slot before after := by
  refine (slots_branch _).trans ?_
  rw [hreplace, branch.slot_replace, slotsAround, List.flatMap_append, List.flatMap_append,
    List.flatMap_append]
  exact (List.Perm.cons _ (List.perm_append_comm_assoc _ _ _)).trans List.perm_middle.symm

/-- The slots of a branch with a child split are its slots and the next one. -/
theorem slots_replace_two {branch : Branch π (Node π h)} {i : Nat} {degree number : Nat}
    {left right : Node π h} {middle : Entry π}
    (hhalves : halves? degree number h (branch.childAt i) = some (left, middle, right)) :
    number :: slots (h + 1) (branch : Node π (h + 1)) ~
      slots (h + 1) (branch.replace i (.two left middle right) : Node π (h + 1)) := by
  obtain ⟨before, after, hchildren, -, hreplace⟩ := branch.exists_children_replace i
  have hresult := slots_replace hreplace (.two left middle right)
  simp only [Grown.children, List.flatMap_cons, List.flatMap_nil, List.append_nil] at hresult
  refine .trans ?_ hresult.symm
  exact ((slots_around hchildren).cons number).trans
    ((slots_halves? hhalves).append_right (slotsAround branch.slot before after))

/-- The halves of a node have the halves of its cell. -/
theorem cell_halves? {degree number : Nat} {node left right : Node π h} {middle : Entry π}
    (hhalves : halves? degree number h node = some (left, middle, right)) :
    (ownEntries h node)[(degree - 1) / 2]? = some middle ∧
      (cell h node).lowerHalf ((degree - 1) / 2) = cell h left ∧
      (cell h node).upperHalf ((degree - 1) / 2) = cell h right ∧
      slot h left = slot h node ∧ slot h right = number := by
  cases h with
  | zero =>
    change Leaf π at node
    rw [halves?] at hhalves
    generalize (degree - 1) / 2 = i at hhalves ⊢
    split at hhalves
    · cases hhalves
    · next entry after hdrop =>
      cases hhalves
      have hat : node.entries[i]? = some middle := by
        rw [← List.head?_drop, hdrop]
        rfl
      have hafter : node.entries.drop (i + 1) = after := by
        rw [← List.drop_drop, hdrop]
        rfl
      refine ⟨hat, ?_, ?_, rfl, rfl⟩
      · simp [Cell.lowerHalf, cell, ownEntries, childSlots, List.map_take]
      · simp [Cell.upperHalf, cell, ownEntries, childSlots, ← List.map_drop, hafter]
  | succ h =>
    obtain ⟨number, pairs, last⟩ := (node : Branch π (Node π h))
    rw [halves?] at hhalves
    generalize (degree - 1) / 2 = i at hhalves ⊢
    dsimp only at hhalves
    split at hhalves
    · cases hhalves
    · next child entry after hdrop =>
      cases hhalves
      have hsplit := List.take_append_drop i pairs
      have hlength := congrArg List.length hdrop
      rw [List.length_drop, List.length_cons] at hlength
      have hi : (pairs.take i).length = i := List.length_take_of_le (by omega)
      rw [hdrop] at hsplit
      generalize pairs.take i = before at hsplit hi ⊢
      subst hsplit hi
      refine ⟨?_, ?_, ?_, rfl, rfl⟩
      · simp [ownEntries, Branch.entries]
      · simp [Cell.lowerHalf, cell, ownEntries, childSlots, Branch.entries, Branch.children,
          take_succ_append_cons]
      · simp [Cell.upperHalf, cell, ownEntries, childSlots, Branch.entries, Branch.children,
          drop_succ_append_cons]

/-- The halves of a node lie in a store whose slots below the node are as they were. -/
theorem Lies.halves {cells others : List (Cell π)} {degree number : Nat}
    {node left right : Node π h} {middle : Entry π} (hlies : node.Lies cells)
    (hhalves : halves? degree number h node = some (left, middle, right))
    (hleft : others[slot h left]? = some (cell h left))
    (hright : others[slot h right]? = some (cell h right))
    (hsame : ∀ other ∈ (slots h node).tail, others[other]? = cells[other]?) :
    left.Lies others ∧ right.Lies others := by
  cases h with
  | zero => exact ⟨hleft, hright⟩
  | succ h =>
    change Branch π (Node π h) at node left right
    have hchildren := children_halves? hhalves
    have hkept : ∀ child ∈ node.children, child.Lies others := by
      intro child hchild
      refine (hlies.2 child hchild).congr fun other hother => hsame other ?_
      have hbelow : other ∈ node.children.flatMap (slots h) :=
        List.mem_flatMap.mpr ⟨child, hchild, hother⟩
      exact (slots_branch node).cons_inv.mem_iff.mpr hbelow
    rw [hchildren] at hkept
    obtain ⟨hl, hr⟩ := List.forall_mem_append.mp hkept
    exact ⟨⟨hleft, hl⟩, ⟨hright, hr⟩⟩

end Node

/-! ## Splitting -/

namespace Store

/-- Three slots that are written one after another hold what has been written, and others are left
alone. -/
theorem leaves_put_three (store : Store π) {i j k : Nat} {others : List Nat}
    (hslots : (i :: j :: k :: others).Nodup) (hlt : ∀ slot ∈ [i, j, k], slot < store.cells.length)
    (first second third : Cell π) :
    store.Leaves store.arena others (((store.put i first).put j second).put k third) ∧
      (((store.put i first).put j second).put k third).cells[i]? = some first ∧
      (((store.put i first).put j second).put k third).cells[j]? = some second ∧
      (((store.put i first).put j second).put k third).cells[k]? = some third := by
  simp only [List.nodup_cons, List.mem_cons, not_or] at hslots
  obtain ⟨⟨hij, hik, hi⟩, ⟨hjk, hj⟩, hk, -⟩ := hslots
  simp only [List.forall_mem_cons] at hlt
  obtain ⟨hilt, hjlt, hklt, -⟩ := hlt
  let halfway := (store.put i first).put j second
  have hfirst : store.Leaves store.arena others (store.put i first) := store.leaves_put first hi
  have hsecond : (store.put i first).Leaves (store.put i first).arena (i :: others) halfway :=
    leaves_put _ second (List.not_mem_cons_of_ne_of_not_mem (Ne.symm hij) hj)
  have hthird : halfway.Leaves halfway.arena (i :: j :: others) (halfway.put k third) :=
    leaves_put _ third (List.not_mem_cons_of_ne_of_not_mem (Ne.symm hik)
      (List.not_mem_cons_of_ne_of_not_mem (Ne.symm hjk) hk))
  have hcapacity : (store.put i first).cells.length = store.cells.length :=
    congrArg Arena.capacity hfirst.arena_eq
  have hcapacity' : halfway.cells.length = (store.put i first).cells.length :=
    congrArg Arena.capacity hsecond.arena_eq
  refine ⟨?_, ?_, ?_, ?_⟩
  · rw [hsecond.arena_eq, hfirst.arena_eq] at hthird
    rw [hfirst.arena_eq] at hsecond
    exact (hfirst.trans (hsecond.mono (List.subset_cons_self _ _))).trans
      (hthird.mono fun slot hslot => List.mem_cons_of_mem _ (List.mem_cons_of_mem _ hslot))
  · calc (halfway.put k third).cells[i]?
      _ = halfway.cells[i]? := hthird.same i List.mem_cons_self
      _ = (store.put i first).cells[i]? := hsecond.same i List.mem_cons_self
      _ = some first := getElem?_put first hilt
  · calc (halfway.put k third).cells[j]?
      _ = halfway.cells[j]? := hthird.same j (List.mem_cons_of_mem _ List.mem_cons_self)
      _ = some second := getElem?_put second (by rwa [hcapacity])
  · exact getElem?_put third (by rwa [hcapacity', hcapacity])

/-- What splitting a child at a place of a branch writes: the upper half into the next slot, the
lower one where the child is, and the branch with both. -/
theorem splitChild_eq {store made : Store π} {branch : Branch π (Node π h)}
    (hlies : Node.Lies store.cells (h + 1) branch) {i : Nat} (hi : i ≤ branch.pairs.length)
    {left right : Node π h} {middle : Entry π}
    (hhalves : Node.halves? store.order.degree store.arena.next h (branch.childAt i) =
      some (left, middle, right))
    (hmade : store.allocate (Node.cell h (branch.childAt i)).isLeaf = (store.arena.next, made))
    (horder : made.order = store.order)
    (hsame : ∀ number ∈ [(branch.childAt i).slot h, branch.slot],
      made.cells[number]? = store.cells[number]?) :
    store.splitChild branch.slot i =
      some (((made.put store.arena.next (Node.cell h right)).put ((branch.childAt i).slot h)
        (Node.cell h left)).put branch.slot
          (Node.cell (h + 1) (branch.replace i (.two left middle right)))) := by
  obtain ⟨before, after, hchildren, hbefore, -⟩ := branch.exists_children_replace i
  obtain ⟨hmiddle, hlower, hupper, hleftSlot, hrightSlot⟩ := Node.cell_halves? hhalves
  have hown : store.cells[branch.slot]? = some (Node.cell (h + 1) branch) := hlies.1
  have hat : (Node.cell (h + 1) branch).children[i]? = some ((branch.childAt i).slot h) := by
    change (branch.children.map (Node.slot h))[i]? = _
    rw [hchildren, ← hbefore hi]
    simp
  have hchild : store.cells[(branch.childAt i).slot h]? = some (Node.cell h (branch.childAt i)) :=
    (hlies.2 _ (by rw [hchildren]; exact List.mem_append_right _ List.mem_cons_self)).own
  simp only [List.forall_mem_cons] at hsame
  obtain ⟨hlowerAt, hbranchAt, -⟩ := hsame
  rw [splitChild, hown]
  simp only [Option.bind_eq_bind, Option.bind_some, hat, hchild, hmade, hbranchAt.trans hown,
    hlowerAt.trans hchild, horder, Node.entryAt?_cell, hmiddle, hlower, hupper]
  rw [← Node.cell_replace_two hi middle hleftSlot, hrightSlot]

/-- Splitting the child at a place of a branch leaves the branch with the halves, the upper one in
the next slot. -/
theorem exists_splitChild {store : Store π} {branch : Branch π (Node π h)} {others : List Nat}
    (hlies : Node.Lies store.cells (h + 1) branch)
    (haccounts : store.arena.Accounts (Node.slots (h + 1) branch ++ others)) {i : Nat}
    (hi : i ≤ branch.pairs.length) {left right : Node π h} {middle : Entry π}
    (hhalves : Node.halves? store.order.degree store.arena.next h (branch.childAt i) =
      some (left, middle, right)) :
    ∃ split, store.splitChild branch.slot i = some split ∧
      store.Leaves store.arena.taken others split ∧ split.size = store.size ∧
      Node.Lies split.cells (h + 1) (branch.replace i (.two left middle right)) := by
  obtain ⟨before, after, hchildren, -, hreplace⟩ := branch.exists_children_replace i
  obtain ⟨-, -, -, hleftSlot, hrightSlot⟩ := Node.cell_halves? hhalves
  -- The slots in use: those that are written, those below the child, and those that stay.
  have hused : store.arena.Accounts ((branch.childAt i).slot h :: branch.slot ::
      ((Node.slots h (branch.childAt i)).tail ++
        ((before ++ after).flatMap (Node.slots h) ++ others))) := by
    refine haccounts.perm (((Node.slots_around hchildren).append_right others).trans ?_)
    rw [Node.slots_eq (branch.childAt i), Node.slotsAround, List.append_assoc]
    exact List.perm_middle.cons _
  obtain ⟨made, hmade, hleaves, hsize, -⟩ :=
    exists_allocate hused (Node.cell h (branch.childAt i)).isLeaf
  have hsplit := splitChild_eq hlies hi hhalves hmade hleaves.order_eq fun number hnumber =>
    hleaves.same number (List.mem_append_left _ hnumber)
  have hlt : ∀ number ∈ [store.arena.next, (branch.childAt i).slot h, branch.slot],
      number < made.cells.length :=
    fun number hnumber => hleaves.lt hused.taken (List.mem_append_left _ hnumber)
  obtain ⟨hput, hrightAt, hleftAt, hbranchAt⟩ := made.leaves_put_three hused.taken.nodup hlt
    (Node.cell h right) (Node.cell h left)
    (Node.cell (h + 1) (branch.replace i (.two left middle right)))
  rw [hleaves.arena_eq] at hput
  have hkept := (hleaves.mono fun number hnumber =>
    List.mem_cons_of_mem _ (List.mem_cons_of_mem _ hnumber)).trans hput
  refine ⟨_, hsplit, hkept.mono fun number hnumber =>
    List.mem_append_right _ (List.mem_append_right _ hnumber), hsize, ?_, ?_⟩
  · rw [branch.slot_replace]
    exact hbranchAt
  · have hchild : (branch.childAt i).Lies store.cells :=
      hlies.2 _ (by rw [hchildren]; exact List.mem_append_right _ List.mem_cons_self)
    obtain ⟨hl, hr⟩ := hchild.halves hhalves (hleftSlot ▸ hleftAt) (hrightSlot ▸ hrightAt)
      fun number hnumber => hkept.same number (List.mem_append_left _ hnumber)
    have hsiblings := Node.Lies.siblings hlies hchildren fun number hnumber => hkept.same number
      (List.mem_append_right _ (List.mem_append_left _ hnumber))
    obtain ⟨hbefore, hafter⟩ := List.forall_mem_append.mp hsiblings
    rw [hreplace]
    refine List.forall_mem_append.mpr ⟨hbefore, List.forall_mem_append.mpr ⟨?_, hafter⟩⟩
    exact List.forall_mem_cons.mpr ⟨hl, List.forall_mem_singleton.mpr hr⟩

/-- A new root over another one goes to the next slot, and the other one is its only
child. -/
theorem exists_above {store : Store π} {root : Node π h} (hlies : root.Lies store.cells)
    (haccounts : store.arena.Accounts (root.slots h)) :
    ∃ made, store.allocate false = (store.arena.next, made) ∧
      let rooted := made.put store.arena.next ⟨false, [], [], [root.slot h]⟩
      store.Leaves store.arena.taken (root.slots h) rooted ∧ rooted.size = store.size ∧
        Node.Lies rooted.cells (h + 1) (⟨store.arena.next, [], root⟩ : Branch π (Node π h)) := by
  obtain ⟨made, hmade, hleaves, hsize, -⟩ := exists_allocate haccounts false
  have hput := made.leaves_put (⟨false, [], [], [root.slot h]⟩ : Cell π) haccounts.next_notMem
  rw [hleaves.arena_eq] at hput
  have hrooted := hleaves.trans hput
  refine ⟨made, hmade, hrooted, hsize, getElem?_put _ ?_, ?_⟩
  · exact hleaves.lt haccounts.taken List.mem_cons_self
  · exact List.forall_mem_singleton.mpr (hlies.congr hrooted.same)

end Store

end RelStore.BTree
