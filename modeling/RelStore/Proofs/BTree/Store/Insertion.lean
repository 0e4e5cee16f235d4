import RelStore.Proofs.BTree.Store.Splitting

/-!
# Insertion into a tree in a store

An insertion goes down from slot to slot, and the store that it leaves is the one in which the tree
with the position added lies (`Store.Holds.insert`). Step by step the store has done what the nested
tree does on the same level: it has added to an own entry, put an entry into a leaf, or gone on below
a child, split or not (`Follows`).
-/

namespace RelStore.BTree

open scoped List

variable {π : Type} {h : Nat}

/-- Adding a position puts the node with the position added into the slot. -/
theorem Store.addPosition_eq [DecidableEq π] {store : Store π} {node left : Node π h}
    (hlies : node.Lies store.cells) {i : Nat} {entry : Entry π}
    (hentry : (node.ownEntries h)[i]? = some entry) {position : π}
    (hentries : left.ownEntries h = (node.ownEntries h).set i (entry.add position))
    (hsame : Node.SameBelow h node left) :
    store.addPosition (node.slot h) i position = some (store.put (node.slot h) (left.cell h)) := by
  rw [addPosition, hlies.own]
  simp only [Option.bind_eq_bind, Option.bind_some, Node.entryAt?_cell, hentry,
    Node.setEntry_cell hentries hsame.childSlots_eq]

/-! ## Insertion -/

/-- What an insertion into a subtree leaves of a store that the subtree lies in. -/
structure Store.Follows (store : Store π) (others : List Nat) (inserted : Inserted (Node π h))
    (left : Store π) : Prop where
  /-- Slots that are not those of the subtree are left alone. -/
  leaves : store.Leaves inserted.arena others left
  /-- The subtree lies in the store as the insertion makes it. -/
  lies : inserted.result.Lies left.cells
  /-- The size counts a new key. -/
  size_eq : left.size = store.size + inserted.isNew.toNat

/-- A store that follows an insertion into a child follows the one into the branch. -/
theorem Store.Follows.around {store left : Store π} {branch result : Branch π (Node π h)}
    {before after : List (Node π h)} {child : Node π h} {others : List Nat}
    {inserted : Inserted (Node π h)}
    (hbelow : store.Follows (Node.slotsAround branch.slot before after ++ others) inserted left)
    (hlies : Node.Lies store.cells (h + 1) branch)
    (hchildren : branch.children = before ++ child :: after)
    (hresult : result.children = before ++ inserted.result :: after)
    (hslot : result.slot = branch.slot) (hentries : result.entries = branch.entries)
    (hnewSlot : inserted.result.slot h = child.slot h) :
    store.Follows others (⟨result, inserted.arena, inserted.isNew⟩ : Inserted (Node π (h + 1)))
      left where
  leaves := hbelow.leaves.mono (List.subset_append_right _ _)
  lies := Node.Lies.around hlies hchildren hresult hslot hentries hnewSlot hbelow.lies
    fun number hnumber => hbelow.leaves.same number (List.mem_append_left _ hnumber)
  size_eq := hbelow.size_eq

/-- A store that follows an insertion after some operation follows it before that one. -/
theorem Store.Follows.after {store split left : Store π} {arena : Arena} {others : List Nat}
    {inserted : Inserted (Node π h)} (hfollows : split.Follows others inserted left)
    (hleaves : store.Leaves arena others split) (hsize : split.size = store.size) :
    store.Follows others inserted left where
  leaves := hleaves.trans hfollows.leaves
  lies := hfollows.lies
  size_eq := by rw [hfollows.size_eq, hsize]

section

variable [DecidableEq π] {degree : Nat} {key : Value} {position : π}

/-- A branch with a child split, after the insertion has gone on in one half or added to the entry
between them. -/
def Branch.insertHalves (branch : Branch π (Node π h)) (degree : Nat) (key : Value) (position : π)
    (i : Nat) (left : Node π h) (middle : Entry π) (right : Node π h) (arena : Arena) :
    Inserted (Node π (h + 1)) :=
  match key.compare middle.key with
  | .eq => ⟨branch.replace i (.two left (middle.add position) right), arena, false⟩
  | .lt =>
    let below := left.insert degree key position h arena
    ⟨branch.replace i (.two below.result middle right), below.arena, below.isNew⟩
  | .gt =>
    let below := right.insert degree key position h arena
    ⟨branch.replace i (.two left middle below.result), below.arena, below.isNew⟩

namespace Node

/-- An insertion leaves the slot of a subtree's root. -/
theorem slot_insert (node : Node π h) (arena : Arena) :
    slot h (insert degree key position h node arena).result = slot h node := by
  cases h with
  | zero =>
    change Leaf π at node
    generalize hinsert : insert degree key position 0 node arena = inserted
    cases Leaf.inserts hinsert with
    | fresh hentries => rfl
    | joined hentries => rfl
  | succ h =>
    change Branch π (Node π h) at node
    generalize hinsert : insert degree key position (h + 1) node arena = inserted
    cases Branch.inserts hinsert with
    | own hpairs => rfl
    | below i hgrown => exact node.slot_replace i _

/-- An insertion adds to an own entry that has the key. -/
theorem exists_insert_own {node : Node π h} (arena : Arena) {entry : Entry π}
    (hentry : (ownEntries h node)[place key (ownEntries h node)]? = some entry)
    (hkey : sameKey key entry.key = true) :
    ∃ left, insert degree key position h node arena = ⟨left, arena, false⟩ ∧
      SameBelow h node left ∧ ownEntries h left =
        (ownEntries h node).set (place key (ownEntries h node)) (entry.add position) := by
  cases h with
  | zero =>
    change Leaf π at node
    change node.entries[place key node.entries]? = some entry at hentry
    obtain ⟨hlt, hat⟩ := List.getElem?_eq_some_iff.mp hentry
    have hdrop := List.drop_eq_getElem_cons hlt
    rw [hat] at hdrop
    rw [insert, hdrop]
    dsimp only
    rw [if_pos hkey]
    refine ⟨_, rfl, rfl, ?_⟩
    exact (List.set_eq_take_append_cons_drop.trans (if_pos hlt)).symm
  | succ h =>
    change Branch π (Node π h) at node
    change node.entries[place key node.entries]? = some entry at hentry
    generalize hplace : place key node.entries = i at hentry
    obtain ⟨⟨child, _⟩, hpair, rfl⟩ := Option.map_eq_some_iff.mp (List.getElem?_map.symm.trans hentry)
    obtain ⟨hlt, hat⟩ := List.getElem?_eq_some_iff.mp hpair
    have hdrop := List.drop_eq_getElem_cons hlt
    rw [hat] at hdrop
    rw [insert, hplace, hdrop]
    dsimp only
    rw [if_pos hkey]
    refine ⟨_, rfl, ⟨rfl, ?_⟩, ?_⟩
    · conv_rhs => rw [Branch.children, ← List.take_append_drop i node.pairs, hdrop]
      simp [Branch.children]
    · change Branch.entries _ = node.entries.set (place key node.entries) _
      rw [hplace, Branch.entries, Branch.entries, List.set_eq_take_append_cons_drop,
        if_pos (by rwa [List.length_map])]
      simp

/-- An insertion into a leaf that does not have the key puts an entry in. -/
theorem insert_leaf {leaf : Leaf π} (arena : Arena)
    (hkey : hasOwn key 0 leaf = false) :
    insert degree key position 0 leaf arena =
      ⟨(⟨leaf.slot, insertAt (place key leaf.entries) ⟨key, [position]⟩ leaf.entries⟩ : Leaf π),
        arena, true⟩ := by
  rw [hasOwn_leaf] at hkey
  rw [insert, insertAt]
  split
  · next hdrop => rw [hdrop]
  · next entry after hdrop =>
    rw [hdrop] at hkey ⊢
    change sameKey key entry.key = false at hkey
    rw [if_neg (Bool.eq_false_iff.mp hkey)]

/-- A child with room for an entry takes the insertion as it is. -/
theorem grow_of_room {descend : Node π h → Arena → Inserted (Node π h)} {child : Node π h}
    {arena : Arena} (hroom : isFull degree h child = false) :
    grow degree key position descend child arena =
      ⟨.one (descend child arena).result, (descend child arena).arena,
        (descend child arena).isNew⟩ := by
  have hsplit : split? degree arena.next h child = none := if_neg (by rw [hroom]; decide)
  rw [grow, hsplit]

/-- A full child is split, and one of the halves takes the insertion or the entry between them. -/
theorem grow_of_halves? {branch : Branch π (Node π h)} {i : Nat} {arena : Arena}
    {left right : Node π h} {middle : Entry π}
    (hfull : isFull degree h (branch.childAt i) = true)
    (hhalves : halves? degree arena.next h (branch.childAt i) = some (left, middle, right)) :
    let grown := grow degree key position (insert degree key position h) (branch.childAt i) arena
    (⟨branch.replace i grown.result, grown.arena, grown.isNew⟩ : Inserted (Node π (h + 1))) =
      branch.insertHalves degree key position i left middle right arena.taken := by
  intro grown
  have hsplit : split? degree arena.next h (branch.childAt i) = some (left, middle, right) :=
    (if_pos hfull).trans hhalves
  simp only [grown, grow, hsplit, Branch.insertHalves]
  cases key.compare middle.key <;> rfl

/-- An insertion into a branch that does not have the key goes on below a child. -/
theorem insert_below {branch : Branch π (Node π h)} (arena : Arena)
    (hkey : hasOwn key (h + 1) branch = false) :
    insert degree key position (h + 1) branch arena =
      let i := place key (ownEntries (h + 1) branch)
      let grown := grow degree key position (insert degree key position h) (branch.childAt i) arena
      ⟨(branch.replace i grown.result : Branch π (Node π h)), grown.arena, grown.isNew⟩ := by
  rw [hasOwn_branch] at hkey
  dsimp only [ownEntries]
  rw [insert, Branch.childAt]
  split
  · next hdrop => rw [hdrop]
  · next child entry after hdrop =>
    rw [hdrop] at hkey ⊢
    change sameKey key entry.key = false at hkey
    rw [if_neg (Bool.eq_false_iff.mp hkey)]

end Node

namespace Store

/-- The store follows an insertion that adds to an entry of the root. -/
theorem exists_insertFrom_own {store : Store π} {node : Node π h} {others : List Nat}
    (hlies : node.Lies store.cells) (haccounts : store.arena.Accounts (node.slots h ++ others))
    (hkey : node.hasOwn key h = true) (steps : Nat) :
    ∃ left, store.insertFrom key position (steps + 1) (node.slot h) = some left ∧
      store.Follows others (node.insert store.order.degree key position h store.arena) left := by
  obtain ⟨entry, hentry, hsame⟩ := Node.exists_own hkey
  obtain ⟨left, hinsert, hbelow, hentries⟩ :=
    @Node.exists_insert_own _ h _ store.order.degree key position node store.arena entry hentry hsame
  obtain ⟨hresult, hleaves⟩ := lies_put hlies haccounts hbelow.sub
  rw [hinsert]
  refine ⟨_, ?_, ⟨hleaves, hresult, rfl⟩⟩
  rw [insertFrom, hlies.own]
  simp only [Option.bind_eq_bind, Option.bind_some, Node.placeOf_cell, Node.hasAt_cell]
  rw [if_pos hkey]
  exact addPosition_eq hlies hentry hentries hbelow

/-- The store follows an insertion into a leaf. -/
theorem exists_insertFrom_leaf {store : Store π} {leaf : Leaf π} {others : List Nat}
    (hlies : Node.Lies store.cells 0 leaf) (haccounts : store.arena.Accounts (leaf.slot :: others))
    (hkey : Node.hasOwn key 0 leaf = false) (steps : Nat) :
    ∃ left, store.insertFrom key position (steps + 1) leaf.slot = some left ∧
      store.Follows others (Node.insert store.order.degree key position 0 leaf store.arena) left := by
  have hown : store.cells[leaf.slot]? = some (Node.cell 0 leaf) := hlies
  rw [Node.insert_leaf _ hkey]
  let left : Leaf π :=
    ⟨leaf.slot, insertAt (place key (Node.ownEntries 0 leaf)) ⟨key, [position]⟩ leaf.entries⟩
  have hcell : (Node.cell 0 leaf).insertEntry (place key (Node.ownEntries 0 leaf))
      ⟨key, [position]⟩ = Node.cell 0 left := @Node.insertEntry_cell _ 0 leaf left _ _ rfl
  obtain ⟨hresult, hleaves⟩ := @lies_put _ 0 store leaf left others hlies haccounts rfl
  refine ⟨{ store.put leaf.slot (Node.cell 0 left) with size := store.size + 1 }, ?_,
    ⟨⟨rfl, rfl, hleaves.arena_eq, hleaves.same⟩, hresult, rfl⟩⟩
  rw [insertFrom, hown]
  simp only [Option.bind_eq_bind, Option.bind_some, Node.placeOf_cell, Node.hasAt_cell, hkey, hcell]
  rfl

/-- The store follows an insertion that goes on in one half of a child that has been split, or adds
to the entry between them, if it follows those into the halves. -/
theorem exists_insertFrom_halves {steps : Nat}
    (hdescend : ∀ (node : Node π h) (store : Store π) (others : List Nat), node.Lies store.cells →
      store.arena.Accounts (node.slots h ++ others) →
        ∃ left, store.insertFrom key position steps (node.slot h) = some left ∧
          store.Follows others (node.insert store.order.degree key position h store.arena) left)
    {store : Store π} {branch : Branch π (Node π h)} {others : List Nat} {i : Nat}
    (hi : i ≤ branch.pairs.length) {left right : Node π h} {middle : Entry π}
    (hlies : Node.Lies store.cells (h + 1) (branch.replace i (.two left middle right)))
    (haccounts : store.arena.Accounts
      (Node.slots (h + 1) (branch.replace i (.two left middle right)) ++ others)) :
    ∃ result,
      (match key.compare middle.key with
        | .eq => store.addPosition branch.slot i position
        | .lt => store.insertFrom key position steps (left.slot h)
        | .gt => store.insertFrom key position steps (right.slot h)) = some result ∧
      store.Follows others (branch.insertHalves store.order.degree key position i left middle right
        store.arena) result := by
  obtain ⟨before, after, -, -, hreplace⟩ := branch.exists_children_replace i
  have hchildren (l r : Node π h) (m : Entry π) :
      (branch.replace i (.two l m r)).children = before ++ l :: r :: after := hreplace (.two l m r)
  have hslot (l r : Node π h) (m : Entry π) :
      (branch.replace i (.two l m r)).slot = (branch.replace i (.two left middle right)).slot := by
    rw [branch.slot_replace, branch.slot_replace]
  have hentries (l r : Node π h) :
      (branch.replace i (.two l middle r)).entries =
        (branch.replace i (.two left middle right)).entries := by
    rw [Branch.entries_replace_two, Branch.entries_replace_two]
  unfold Branch.insertHalves
  cases key.compare middle.key with
  | eq =>
    have hlength : i ≤ branch.entries.length := by rwa [Branch.entries, List.length_map]
    let result := branch.replace i (.two left (middle.add position) right)
    have hsame : Node.SameBelow (h + 1) (branch.replace i (.two left middle right)) result :=
      ⟨hslot _ _ _, by rw [hchildren, hchildren]⟩
    have hentry : (Node.ownEntries (h + 1) (branch.replace i (.two left middle right)))[i]? =
        some middle := by
      change (branch.replace i _).entries[i]? = _
      rw [Branch.entries_replace_two, getElem?_insertAt hlength]
    have hset : Node.ownEntries (h + 1) result = (Node.ownEntries (h + 1)
        (branch.replace i (.two left middle right))).set i (middle.add position) := by
      change result.entries = (branch.replace i _).entries.set i _
      rw [Branch.entries_replace_two, Branch.entries_replace_two, set_insertAt hlength]
    have hadd := addPosition_eq hlies hentry hset hsame
    obtain ⟨hput, hkept⟩ := lies_put hlies haccounts hsame.sub
    change store.addPosition (branch.replace i _).slot i position = _ at hadd
    rw [branch.slot_replace] at hadd
    exact ⟨_, hadd, ⟨hkept, hput, rfl⟩⟩
  | lt =>
    have hbelow := haccounts.perm
      ((Node.slots_around (hchildren left right middle)).append_right others)
    rw [List.append_assoc] at hbelow
    obtain ⟨result, hinsert, hfollows⟩ := hdescend left store _
      (hlies.2 left (by rw [hchildren]; simp)) hbelow
    exact ⟨result, hinsert, hfollows.around hlies (hchildren _ _ _) (hchildren _ _ _)
      (hslot _ _ _) (hentries _ _) (Node.slot_insert _ _)⟩
  | gt =>
    have hright (l r : Node π h) (m : Entry π) :
        (branch.replace i (.two l m r)).children = (before ++ [l]) ++ r :: after := by
      rw [hchildren, List.append_assoc]
      rfl
    have hbelow := haccounts.perm
      ((Node.slots_around (hright left right middle)).append_right others)
    rw [List.append_assoc] at hbelow
    obtain ⟨result, hinsert, hfollows⟩ := hdescend right store _
      (hlies.2 right (by rw [hchildren]; simp)) hbelow
    exact ⟨result, hinsert, hfollows.around hlies (hright _ _ _) (hright _ _ _) (hslot _ _ _)
      (hentries _ _) (Node.slot_insert _ _)⟩

/-- The store follows an insertion that goes on below a branch, if it follows those into the
children. -/
theorem exists_insertFrom_below {steps : Nat}
    (hdescend : ∀ (node : Node π h) (store : Store π) (others : List Nat), node.Lies store.cells →
      store.arena.Accounts (node.slots h ++ others) →
        ∃ left, store.insertFrom key position steps (node.slot h) = some left ∧
          store.Follows others (node.insert store.order.degree key position h store.arena) left)
    {store : Store π} {branch : Branch π (Node π h)} {others : List Nat}
    (hlies : Node.Lies store.cells (h + 1) branch)
    (haccounts : store.arena.Accounts (Node.slots (h + 1) branch ++ others))
    (hkey : Node.hasOwn key (h + 1) branch = false) :
    ∃ left, store.insertFrom key position (steps + 1) branch.slot = some left ∧ store.Follows others
      (Node.insert store.order.degree key position (h + 1) branch store.arena) left := by
  have hown : store.cells[branch.slot]? = some (Node.cell (h + 1) branch) := hlies.1
  have hi : place key (Node.ownEntries (h + 1) branch) ≤ branch.pairs.length :=
    branch.place_le key
  rw [Node.insert_below _ hkey, insertFrom, hown]
  simp only [Option.bind_eq_bind, Option.bind_some, Node.placeOf_cell, Node.hasAt_cell, hkey]
  generalize place key (Node.ownEntries (h + 1) branch) = i at hi ⊢
  change ∃ left, (if false = true then _ else if false = true then _ else _) = _ ∧ _
  rw [if_neg Bool.false_ne_true, if_neg Bool.false_ne_true]
  have hchild : (branch.childAt i).Lies store.cells := hlies.2 _ (branch.childAt_mem i)
  simp only [Node.childSlots_at hi, Option.bind_some, hchild.own, Node.isFull_cell]
  split
  · next hfull =>
    have hdegree := store.order.inRange.1
    obtain ⟨⟨left, middle, right⟩, hhalves⟩ :=
      Node.exists_halves? (by omega) store.arena.next hfull
    obtain ⟨split, hsplits, hleaves, hsize, hresult⟩ :=
      exists_splitChild hlies haccounts hi hhalves
    obtain ⟨hown, hkeyAt, hleftAt, hrightAt⟩ := Node.Lies.replace_two hi hresult
    have hused : split.arena.Accounts
        (Node.slots (h + 1) (branch.replace i (.two left middle right)) ++ others) := by
      rw [hleaves.arena_eq]
      exact haccounts.taken.perm ((Node.slots_replace_two hhalves).append_right others)
    obtain ⟨result, hinsert, hfollows⟩ := exists_insertFrom_halves hdescend hi hresult hused
    rw [hleaves.order_eq, hleaves.arena_eq] at hfollows
    rw [Node.grow_of_halves? hfull hhalves, hsplits]
    simp only [Option.bind_some, hown, hkeyAt, hleftAt, hrightAt]
    refine ⟨result, .trans ?_ hinsert, hfollows.after hleaves hsize⟩
    cases key.compare middle.key <;> rfl
  · next hroom =>
    obtain ⟨before, after, hchildren, -, hreplace⟩ := branch.exists_children_replace i
    have hused := haccounts.perm ((Node.slots_around hchildren).append_right others)
    rw [List.append_assoc] at hused
    obtain ⟨left, hleft, hfollows⟩ := hdescend _ store _ hchild hused
    rw [Node.grow_of_room (Bool.eq_false_iff.mpr hroom)]
    refine ⟨left, hleft, hfollows.around hlies hchildren ?_ (branch.slot_replace i _)
      (branch.entries_replace_one i _) (Node.slot_insert _ _)⟩
    exact hreplace (.one _)

/-- The store follows every insertion into a subtree that lies in it. -/
theorem exists_insertFrom (node : Node π h) (store : Store π) (steps : Nat) (others : List Nat)
    (hlies : node.Lies store.cells) (haccounts : store.arena.Accounts (node.slots h ++ others)) :
    ∃ left, store.insertFrom key position (steps + h + 1) (node.slot h) = some left ∧
      store.Follows others (node.insert store.order.degree key position h store.arena) left := by
  induction h generalizing store others with
  | zero =>
    cases hkey : node.hasOwn key 0 with
    | true => exact exists_insertFrom_own hlies haccounts hkey steps
    | false => exact exists_insertFrom_leaf hlies haccounts hkey steps
  | succ h ih =>
    cases hkey : node.hasOwn key (h + 1) with
    | true => exact exists_insertFrom_own hlies haccounts hkey (steps + (h + 1))
    | false => exact exists_insertFrom_below ih hlies haccounts hkey

/-! ## Whole trees -/

/-- A new root over the halves of a full one goes on with the insertion in one of them or adds to
the entry between them. -/
theorem insert_above {root left right : Node π h} {middle : Entry π} {number : Nat} {arena : Arena}
    (order : Order) (hfull : root.isFull order.degree h = true)
    (hhalves : root.halves? order.degree number h = some (left, middle, right)) (slot : Nat) :
    Node.insert order.degree key position (h + 1)
        (⟨slot, [(left, middle)], right⟩ : Branch π (Node π h)) arena =
      (⟨slot, [], root⟩ : Branch π (Node π h)).insertHalves order.degree key position 0 left
        middle right arena := by
  have hdegree := order.inRange.1
  obtain ⟨hleft, hright⟩ := Node.length_halves? hfull hhalves
  have hleftRoom : left.isFull order.degree h = false := beq_eq_false_iff_ne.mpr (by omega)
  have hrightRoom : right.isFull order.degree h = false := beq_eq_false_iff_ne.mpr (by omega)
  have hplace : place key (Branch.entries (⟨slot, [(left, middle)], right⟩ : Branch π (Node π h))) =
      if middle.key.compare key == .lt then 1 else 0 := by
    simp [place, Branch.entries, partitionPoint, partitionPointWithin]
  rw [Value.compare_swap] at hplace
  rw [Node.insert, Branch.insertHalves]
  simp only [hplace]
  cases hcompare : key.compare middle.key with
  | eq => simp [sameKey, hcompare, Branch.replace]
  | lt => simp [sameKey, hcompare, Branch.replace, Node.grow_of_room hleftRoom]
  | gt => simp [Branch.replace, Node.grow_of_room hrightRoom]

/-- A new root over a full one is split, and the store follows the insertion below it. -/
theorem exists_insertFrom_above {store : Store π} {root : Node π h}
    (hlies : root.Lies store.cells) (haccounts : store.arena.Accounts (root.slots h))
    (hfull : root.isFull store.order.degree h = true) :
    let top : Branch π (Node π h) := ⟨store.arena.next, [], root⟩
    let grown := Node.grow store.order.degree key position
      (Node.insert store.order.degree key position h) root store.arena.taken
    ∃ made split left, store.allocate false = (store.arena.next, made) ∧
      (made.put store.arena.next ⟨false, [], [], [root.slot h]⟩).splitChild store.arena.next 0 =
        some split ∧
      { split with root := store.arena.next }.insertFrom key position split.cells.length
        store.arena.next = some left ∧
      { store with root := store.arena.next }.Follows []
        (⟨top.replace 0 grown.result, grown.arena, grown.isNew⟩ : Inserted (Node π (h + 1)))
        left := by
  intro top grown
  obtain ⟨made, hmade, hrooted, hrootedSize, htop⟩ := exists_above hlies haccounts
  have hdegree := store.order.inRange.1
  obtain ⟨⟨left, middle, right⟩, hhalves⟩ :=
    Node.exists_halves? (by omega) store.arena.taken.next hfull
  have hslots : Node.slots (h + 1) (top : Node π (h + 1)) = store.arena.next :: root.slots h := by
    simp [Node.slots, top]
  generalize hput : made.put store.arena.next ⟨false, [], [], [root.slot h]⟩ = rooted
    at hrooted hrootedSize htop
  have hused : rooted.arena.Accounts (Node.slots (h + 1) (top : Node π (h + 1)) ++ []) := by
    rw [hrooted.arena_eq, hslots, List.append_nil]
    exact haccounts.taken
  -- The new root has no entry yet, and its only child is the full one.
  obtain ⟨split, hsplit, hleaves, hsize, hresult⟩ :=
    @exists_splitChild π h rooted top [] htop hused 0 (Nat.le_refl 0) left right middle (by
      rw [hrooted.order_eq, hrooted.arena_eq]
      exact hhalves)
  have hafter : split.arena.Accounts
      (Node.slots (h + 1) (top.replace 0 (.two left middle right)) ++ []) := by
    rw [hleaves.arena_eq]
    refine hused.taken.perm ?_
    rw [hrooted.arena_eq, List.append_nil, List.append_nil]
    exact @Node.slots_replace_two π h top 0 _ _ _ _ _ hhalves
  obtain ⟨steps, hsteps⟩ := exists_steps hafter
  obtain ⟨result, hinsert, hfollows⟩ := @exists_insertFrom π (h + 1) _ key position
    (top.replace 0 (.two left middle right)) { split with root := store.arena.next } steps [] hresult
    hafter
  rw [← hsteps] at hinsert
  refine ⟨made, split, result, hmade, hput ▸ hsplit, hinsert, ?_⟩
  have hboth := (hrooted.mono (List.nil_subset _)).trans (hrooted.arena_eq ▸ hleaves)
  have hinserted : Node.insert split.order.degree key position (h + 1)
      (top.replace 0 (.two left middle right)) split.arena =
        ⟨top.replace 0 grown.result, grown.arena, grown.isNew⟩ := by
    rw [hboth.arena_eq, hboth.order_eq]
    refine (insert_above store.order hfull hhalves _).trans ?_
    exact (@Node.grow_of_halves? π h _ _ key position top 0 _ _ _ _ hfull hhalves).symm
  change Follows _ [] (Node.insert split.order.degree key position (h + 1) _ split.arena) _
    at hfollows
  rw [hinserted] at hfollows
  exact hfollows.after ⟨hboth.order_eq, rfl, hboth.arena_eq, by simp⟩ (hsize.trans hrootedSize)

/-- A store that holds a tree holds the tree with a position added. -/
theorem Holds.insert {store : Store π} {tree : BTree π} (hholds : store.Holds tree)
    (haccounts : tree.arena.Accounts (tree.root.slots tree.depth)) :
    ∃ left, store.insert key position = some left ∧ left.Holds (tree.insert key position) := by
  obtain ⟨steps, hsteps⟩ := hholds.exists_steps haccounts
  obtain ⟨horder, hroot, harena, hsize, hlies⟩ := hholds
  rw [← harena] at haccounts
  rw [Store.insert, hroot, hlies.own]
  simp only [Option.bind_eq_bind, Option.bind_some, Node.isFull_cell]
  generalize hinsert : tree.insert key position = result
  cases hinsert ▸ tree.inserts key position with
  | below hroom hbelow =>
    rw [horder, if_neg (Bool.eq_false_iff.mp hroom)]
    obtain ⟨left, hleft, hleaves, hresult, hgrows⟩ :=
      @exists_insertFrom π tree.depth _ key position tree.root store steps [] hlies
        (by rwa [List.append_nil])
    rw [← hsteps] at hleft
    rw [horder, harena, hbelow] at hleaves hresult hgrows
    refine ⟨left, hleft, hleaves.order_eq.trans horder, ?_, hleaves.arena_eq, ?_, hresult⟩
    · rw [hleaves.root_eq, hroot, ← hbelow]
      exact (Node.slot_insert _ _).symm
    · rw [hgrows, hsize]
  | above hfull hgrown =>
    rw [← horder] at hfull
    obtain ⟨made, split, left, hmade, hsplit, hleft, hleaves, hresult, hgrows⟩ :=
      @exists_insertFrom_above π tree.depth _ key position store tree.root hlies haccounts hfull
    rw [if_pos hfull, hmade]
    simp only [hsplit, Option.bind_some]
    refine ⟨left, hleft, ?_⟩
    rw [horder, harena, hgrown] at hleaves hresult hgrows
    refine ⟨hleaves.order_eq, hleaves.root_eq, hleaves.arena_eq, ?_, hresult⟩
    rw [hgrows]
    exact congrArg (· + _) hsize

end Store

end

end RelStore.BTree
