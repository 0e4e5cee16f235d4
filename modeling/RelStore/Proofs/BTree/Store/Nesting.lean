import Mathlib.Data.List.Range
import RelStore.Proofs.BTree.Store.Shape

/-!
# The nested tree of a store

A well shaped store holds a nested tree: ways down from the root are shorter than the store has
slots (`WellShaped.length_lt`), so that some way ends at a leaf, and as all leaves lie at one depth
the nodes can be put inside one another from there up (`WellShaped.exists_root`). Below the slot that
a way comes to lies a subtree, and around it all other nodes, which stay where they are when another
subtree takes its place (`Node.exists_within`).
-/

namespace RelStore.BTree

open scoped List

variable {π : Type} {h : Nat}

/-- A list whose elements are values of a function at things with a property is the list of values
at such things. -/
theorem exists_map_eq {α β : Type} {f : β → α} {p : β → Prop} {xs : List α}
    (h : ∀ x ∈ xs, ∃ y, f y = x ∧ p y) : ∃ ys : List β, ys.map f = xs ∧ ∀ y ∈ ys, p y := by
  induction xs with
  | nil => exact ⟨[], rfl, nofun⟩
  | cons x xs ih =>
    obtain ⟨⟨y, hy, hproperty⟩, hxs⟩ := List.forall_mem_cons.mp h
    obtain ⟨ys, hys, hproperties⟩ := ih hxs
    refine ⟨y :: ys, ?_, List.forall_mem_cons.mpr ⟨hproperty, hproperties⟩⟩
    rw [List.map_cons, hy, hys]

/-! ## Nodes from cells -/

namespace Cell

/-- The entries of a node as its slot holds them. -/
def entries (cell : Cell π) : List (Entry π) :=
  (cell.keys.zip cell.positions).map fun (key, positions) => ⟨key, positions⟩

namespace WellShaped

variable {degree : Order} {cell : Cell π}

/-- The entries have the keys. -/
theorem keys_entries (hcell : cell.WellShaped degree) : cell.entries.map Entry.key = cell.keys := by
  rw [entries, List.map_map]
  exact List.map_fst_zip (Nat.le_of_eq hcell.positions_length.symm)

/-- The entries have the positions. -/
theorem positions_entries (hcell : cell.WellShaped degree) :
    cell.entries.map Entry.positions = cell.positions := by
  rw [entries, List.map_map]
  exact List.map_snd_zip (Nat.le_of_eq hcell.positions_length)

/-- There are as many entries as keys. -/
theorem length_entries (hcell : cell.WellShaped degree) :
    cell.entries.length = cell.keys.length := by
  rw [← hcell.keys_entries, List.length_map]

/-- Every entry has positions. -/
theorem stocked_entries (hcell : cell.WellShaped degree) : Stocked cell.entries := by
  intro entry hentry
  refine hcell.positions entry.positions ?_
  rw [← hcell.positions_entries]
  exact List.mem_map_of_mem hentry

/-- There are fewer entries than the order of the tree. -/
theorem length_entries_lt (hcell : cell.WellShaped degree) :
    cell.entries.length < degree.degree := by
  have hkeys := hcell.keys_length
  have hdegree := degree.inRange.1
  rw [hcell.length_entries]
  omega

end WellShaped

end Cell

namespace Node

variable {degree : Order}

/-- A branch is as in a tree that is kept in order if its own entries and its children are. -/
theorem Sound.branch {branch : Branch π (Node π h)} (hlength : branch.pairs.length < degree.degree)
    (hown : Stocked branch.entries) (hchildren : ∀ child ∈ branch.children, child.Sound degree h) :
    Sound degree (h + 1) branch where
  filled := ⟨⟨Nat.zero_le _, hlength⟩, fun child hchild => (hchildren child hchild).filled⟩
  stocked entry hentry := by
    rcases List.mem_append.mp ((toList_perm branch).mem_iff.mp hentry) with hentry | hentry
    · exact hown entry hentry
    · obtain ⟨child, hchild, hentry⟩ := List.mem_flatMap.mp hentry
      exact (hchildren child hchild).stocked entry hentry

/-- A node with the entries and the slots of children that a cell tells of has the cell. -/
theorem cell_eq {node : Node π h} {cell : Cell π} (hcell : cell.WellShaped degree)
    (hleaf : cell.isLeaf = (h == 0)) (hentries : node.ownEntries h = cell.entries)
    (hchildren : node.childSlots h = cell.children) : node.cell h = cell := by
  rw [Node.cell, hentries, hcell.keys_entries, hcell.positions_entries, hchildren, ← hleaf]

/-- The leaf that a cell tells of. -/
theorem exists_leaf {cells : List (Cell π)} {slot : Nat} {cell : Cell π}
    (hown : cells[slot]? = some cell) (hcell : cell.WellShaped degree)
    (hleaf : cell.isLeaf = true) :
    ∃ leaf : Node π 0, leaf.slot 0 = slot ∧ leaf.Lies cells ∧ leaf.Sound degree 0 := by
  have hchildren : cell.children = [] := by
    have hlength := hcell.children_length
    rw [hleaf, if_pos rfl] at hlength
    exact List.eq_nil_of_length_eq_zero hlength
  let leaf : Leaf π := ⟨slot, cell.entries⟩
  have hsame : Node.cell 0 leaf = cell := cell_eq hcell hleaf rfl hchildren.symm
  refine ⟨leaf, rfl, ?_, ⟨⟨Nat.zero_le _, hcell.length_entries_lt⟩, hcell.stocked_entries⟩⟩
  exact hown.trans (congrArg some hsame.symm)

/-- The branch that a cell tells of, with nodes in the slots of its children. -/
theorem exists_branch {cells : List (Cell π)} {slot : Nat} {cell : Cell π}
    (hown : cells[slot]? = some cell) (hcell : cell.WellShaped degree)
    (hbranch : cell.isLeaf = false) {nodes : List (Node π h)}
    (hslots : nodes.map (Node.slot h) = cell.children)
    (hnodes : ∀ node ∈ nodes, node.Lies cells ∧ node.Sound degree h) :
    ∃ branch : Node π (h + 1), branch.slot (h + 1) = slot ∧ branch.Lies cells ∧
      branch.Sound degree (h + 1) := by
  have hlength : nodes.length = cell.entries.length + 1 := by
    rw [← List.length_map (f := Node.slot h), hslots, hcell.children_length, hbranch,
      if_neg Bool.false_ne_true, hcell.length_entries]
  obtain ⟨before, last, rfl⟩ : ∃ before last, nodes = before ++ [last] := by
    have hne : nodes ≠ [] := List.ne_nil_of_length_eq_add_one hlength
    exact ⟨nodes.dropLast, nodes.getLast hne, (List.dropLast_concat_getLast hne).symm⟩
  rw [List.length_append, List.length_singleton, Nat.add_right_cancel_iff] at hlength
  let branch : Branch π (Node π h) := ⟨slot, before.zip cell.entries, last⟩
  have hentries : branch.entries = cell.entries := List.map_snd_zip (Nat.le_of_eq hlength.symm)
  have hchildren : branch.children = before ++ [last] :=
    congrArg (· ++ [last]) (List.map_fst_zip (Nat.le_of_eq hlength))
  have hsame : Node.cell (h + 1) branch = cell :=
    cell_eq hcell hbranch hentries ((congrArg (List.map (Node.slot h)) hchildren).trans hslots)
  refine ⟨branch, rfl, ⟨hown.trans (congrArg some hsame.symm), ?_⟩, Sound.branch ?_ ?_ ?_⟩
  · rw [hchildren]
    exact fun node hnode => (hnodes node hnode).1
  · have hpairs : branch.pairs.length = branch.entries.length := (List.length_map _).symm
    rw [hpairs, hentries]
    exact hcell.length_entries_lt
  · rw [hentries]
    exact hcell.stocked_entries
  · rw [hchildren]
    exact fun node hnode => (hnodes node hnode).2

end Node

/-! ## Ways down a store -/

namespace Store

variable {store : Store π} {degree : Order}

/-- A way that goes on is one way after the other. -/
theorem follow_append (slot : Nat) (path rest : List Nat) :
    store.follow slot (path ++ rest) =
      (store.follow slot path).bind fun between => store.follow between rest := by
  induction path generalizing slot with
  | nil => rfl
  | cons place path ih =>
    rw [List.cons_append, follow, follow]
    cases store.cells[slot]? with
    | none => rfl
    | some cell =>
      dsimp only [Option.bind_eq_bind, Option.bind_some]
      cases cell.children[place]? with
      | none => rfl
      | some child => exact ih child

/-- A way goes on to a child of the node that it comes to. -/
theorem follow_child {slot between : Nat} {path : List Nat} {cell : Cell π} {place child : Nat}
    (hpath : store.follow slot path = some between) (hcell : store.cells[between]? = some cell)
    (hchild : cell.children[place]? = some child) :
    store.follow slot (path ++ [place]) = some child := by
  rw [follow_append, hpath, Option.bind_some, follow, hcell]
  dsimp only [Option.bind_eq_bind, Option.bind_some]
  rw [hchild]
  rfl

/-- A way comes to a slot after each of its first places. -/
theorem exists_follow_take {slot target : Nat} {path : List Nat}
    (hpath : store.follow slot path = some target) (n : Nat) :
    ∃ between, store.follow slot (path.take n) = some between := by
  rw [← List.take_append_drop n path, follow_append] at hpath
  obtain ⟨between, hbetween, -⟩ := Option.bind_eq_some_iff.mp hpath
  exact ⟨between, hbetween⟩

/-- If only one way down a subtree comes to a slot, no slot of the subtree is repeated. -/
theorem nodup_slots {node : Node π h} (hlies : node.Lies store.cells)
    (hinj : ∀ path other target, store.follow (node.slot h) path = some target →
      store.follow (node.slot h) other = some target → path = other) :
    (node.slots h).Nodup := by
  induction h with
  | zero => exact List.nodup_singleton _
  | succ h ih =>
    change Branch π (Node π h) at node
    have honward {i : Nat} {child : Node π h} (hchild : node.children[i]? = some child)
        (path : List Nat) :
        store.follow node.slot (i :: path) = store.follow (child.slot h) path := by
      rw [follow_branch hlies, hchild, Option.bind_some]
    have hbelow {i target : Nat} {child : Node π h} (hchild : node.children[i]? = some child)
        (htarget : target ∈ child.slots h) :
        ∃ path, store.follow node.slot (i :: path) = some target := by
      obtain ⟨path, hpath⟩ := exists_follow (hlies.2 child (List.mem_of_getElem? hchild)) htarget
      exact ⟨path, (honward hchild path).trans hpath⟩
    refine (Node.slots_branch node).nodup_iff.mpr (List.nodup_cons.mpr ⟨fun hmem => ?_, ?_⟩)
    · -- A way to the node itself that goes on to a child is not the one that does not.
      obtain ⟨child, hchild, htarget⟩ := List.mem_flatMap.mp hmem
      obtain ⟨i, hi⟩ := List.mem_iff_getElem?.mp hchild
      obtain ⟨path, hpath⟩ := hbelow hi htarget
      exact List.cons_ne_nil _ _ (hinj (i :: path) [] node.slot hpath rfl)
    · refine List.nodup_flatMap.mpr ⟨fun child hchild => ?_, ?_⟩
      · obtain ⟨i, hi⟩ := List.mem_iff_getElem?.mp hchild
        refine ih (hlies.2 child hchild) fun path other target hpath hother => ?_
        rw [← honward hi] at hpath hother
        exact (List.cons.inj (hinj _ _ target hpath hother)).2
      · rw [List.pairwise_iff_getElem]
        intro i j hi hj hlt target htarget hother
        obtain ⟨path, hpath⟩ := hbelow (List.getElem?_eq_getElem hi) htarget
        obtain ⟨other, hother⟩ := hbelow (List.getElem?_eq_getElem hj) hother
        exact hlt.ne (List.cons.inj (hinj _ _ target hpath hother)).1

/-! ## Well shaped stores -/

namespace WellShaped

/-- A way down from the root is shorter than the store has slots: it comes to another one after
every place. -/
theorem length_lt (hshaped : store.WellShaped degree) {path : List Nat} {slot : Nat}
    (hpath : store.follow store.root path = some slot) : path.length < store.cells.length := by
  let slots := (List.range (path.length + 1)).map fun n =>
    (store.follow store.root (path.take n)).getD 0
  have hslot (n : Nat) : ∃ between, store.follow store.root (path.take n) = some between ∧
      (store.follow store.root (path.take n)).getD 0 = between := by
    obtain ⟨between, hbetween⟩ := exists_follow_take hpath n
    exact ⟨between, hbetween, by rw [hbetween]; rfl⟩
  have hnodup : slots.Nodup := by
    refine List.Nodup.map_on (fun m hm n hn heq => ?_) List.nodup_range
    obtain ⟨between, hfirst, hvalue⟩ := hslot m
    obtain ⟨other, hsecond, hvalue'⟩ := hslot n
    obtain rfl : between = other := hvalue.symm.trans (heq.trans hvalue')
    have hlength := congrArg List.length (hshaped.follow_inj _ _ _ hfirst hsecond)
    have hm := List.mem_range.mp hm
    have hn := List.mem_range.mp hn
    rw [List.length_take, List.length_take] at hlength
    omega
  have hsubset : slots ⊆ List.range store.cells.length := by
    intro target htarget
    obtain ⟨n, -, rfl⟩ := List.mem_map.mp htarget
    obtain ⟨between, hbetween, hvalue⟩ := hslot n
    rw [hvalue, List.mem_range]
    exact (hshaped.covered between).mpr (.inl ⟨_, hbetween⟩)
  have hlength := (List.subperm_of_subset hnodup hsubset).length_le
  rw [List.length_map, List.length_range, List.length_range] at hlength
  exact hlength

/-- The leaves lie at some depth. -/
theorem exists_depth (hshaped : store.WellShaped degree) :
    ∃ depth, store.height = some (depth + 1) := by
  by_contra hnone
  -- No node is a leaf then, so that there are ways of any length.
  have hways (n : Nat) : ∃ path slot, path.length = n ∧
      store.follow store.root path = some slot := by
    induction n with
    | zero => exact ⟨[], store.root, rfl, rfl⟩
    | succ n ih =>
      obtain ⟨path, slot, rfl, hpath⟩ := ih
      obtain ⟨cell, hown, hcell⟩ := hshaped.cells slot ⟨path, hpath⟩
      have hbranch : ¬cell.isLeaf = true := fun hleaf =>
        hnone ⟨path.length, (hshaped.leaf_iff path slot cell hpath hown).mp hleaf⟩
      have hlength := hcell.children_length
      rw [if_neg hbranch] at hlength
      obtain ⟨child, children, hchildren⟩ :=
        List.exists_cons_of_ne_nil (List.ne_nil_of_length_eq_add_one hlength)
      have hchild : cell.children[0]? = some child := by rw [hchildren, List.getElem?_cons_zero]
      exact ⟨path ++ [0], child, List.length_append, follow_child hpath hown hchild⟩
  obtain ⟨path, slot, hlength, hpath⟩ := hways store.cells.length
  have hlt := hshaped.length_lt hpath
  omega

/-- The nodes of all ways through a slot form a subtree, of as many levels as there are from it to
the leaves. -/
theorem exists_node (hshaped : store.WellShaped degree) {depth : Nat}
    (hheight : store.height = some (depth + 1)) {path : List Nat} {slot : Nat}
    (hpath : store.follow store.root path = some slot) (hdepth : path.length + h = depth) :
    ∃ node : Node π h, node.slot h = slot ∧ node.Lies store.cells ∧ node.Sound degree h := by
  induction h generalizing path slot with
  | zero =>
    obtain ⟨cell, hown, hcell⟩ := hshaped.cells slot ⟨path, hpath⟩
    refine Node.exists_leaf hown hcell ((hshaped.leaf_iff path slot cell hpath hown).mpr ?_)
    rw [hheight, ← hdepth, Nat.add_zero]
  | succ h ih =>
    obtain ⟨cell, hown, hcell⟩ := hshaped.cells slot ⟨path, hpath⟩
    have hbranch : cell.isLeaf = false := by
      rw [← Bool.not_eq_true, hshaped.leaf_iff path slot cell hpath hown, hheight,
        Option.some.injEq]
      omega
    have hnodes : ∀ child ∈ cell.children,
        ∃ node : Node π h, node.slot h = child ∧ node.Lies store.cells ∧ node.Sound degree h := by
      intro child hchild
      obtain ⟨place, hplace⟩ := List.mem_iff_getElem?.mp hchild
      refine ih (follow_child hpath hown hplace) ?_
      rw [List.length_append, List.length_singleton]
      omega
    obtain ⟨nodes, hslots, hnodes⟩ := exists_map_eq hnodes
    exact Node.exists_branch hown hcell hbranch hslots hnodes

/-- A well shaped store holds a nested tree, with all slots. -/
theorem exists_root (hshaped : store.WellShaped degree) :
    ∃ depth, ∃ root : Node π depth, root.slot depth = store.root ∧ root.Lies store.cells ∧
      root.Sound degree depth ∧ store.arena.Accounts (root.slots depth) := by
  obtain ⟨depth, hheight⟩ := hshaped.exists_depth
  have hstart : store.follow store.root [] = some store.root := rfl
  obtain ⟨root, hroot, hlies, hsound⟩ :=
    hshaped.exists_node hheight hstart (Nat.zero_add depth)
  refine ⟨depth, root, hroot, hlies, hsound, ?_⟩
  have hslots : (root.slots depth).Nodup := by
    refine nodup_slots hlies ?_
    rw [hroot]
    exact hshaped.follow_inj
  have hreached (slot : Nat) : slot ∈ root.slots depth ↔ store.Reached slot := by
    rw [Reached, ← hroot]
    exact mem_slots_iff hlies
  have hall : (root.slots depth ++ store.free).Nodup := by
    refine List.nodup_append'.mpr ⟨hslots, hshaped.free_nodup, fun slot hslot hfree => ?_⟩
    exact hshaped.free_disjoint slot ((hreached slot).mp hslot) hfree
  refine (List.perm_ext_iff_of_nodup hall List.nodup_range).mpr fun slot => ?_
  rw [List.mem_append, hreached, List.mem_range]
  exact (hshaped.covered slot).symm

end WellShaped

end Store

/-! ## What is around a subtree -/

namespace Node

/-- A subtree lies within another one, and some slots are those around it. -/
structure Within (cells : List (Cell π)) {k : Nat} (root : Node π h) (sub : Node π k)
    (others : List Nat) : Prop where
  /-- The inner subtree lies in the store. -/
  lies : sub.Lies cells
  /-- The slots of the outer subtree are those of the inner one and those around it. -/
  slots_perm : root.slots h ~ sub.slots k ++ others
  /-- A subtree that takes the place of the inner one is within a subtree that takes the place of
  the outer one, if the slots around hold what they held. -/
  replace : ∀ (new : Node π k) (left : List (Cell π)), new.slot k = sub.slot k → new.Lies left →
    (∀ number ∈ others, left[number]? = cells[number]?) →
      ∃ result : Node π h, result.slot h = root.slot h ∧ result.Lies left ∧
        result.slots h ~ new.slots k ++ others

/-- A subtree lies within itself. -/
theorem within_self {cells : List (Cell π)} {root : Node π h} (hlies : root.Lies cells) :
    Within cells root root [] where
  lies := hlies
  slots_perm := .of_eq (List.append_nil _).symm
  replace new _ hslot hnew _ := ⟨new, hslot, hnew, .of_eq (List.append_nil _).symm⟩

/-- A subtree that lies within a child of a branch lies within the branch. -/
theorem Within.branch {cells : List (Cell π)} {branch : Branch π (Node π h)}
    (hlies : Lies cells (h + 1) branch) {k : Nat} {sub : Node π k} {others : List Nat} {i : Nat}
    {before after : List (Node π h)}
    (hchildren : branch.children = before ++ branch.childAt i :: after)
    (hreplace : ∀ new, (branch.replace i (.one new)).children = before ++ new :: after)
    (hwithin : Within cells (branch.childAt i) sub others) :
    @Within π (h + 1) cells k branch sub (others ++ slotsAround branch.slot before after) where
  lies := hwithin.lies
  slots_perm := by
    rw [← List.append_assoc]
    exact (slots_around hchildren).trans (hwithin.slots_perm.append_right _)
  replace new left hslot hnew hsame := by
    obtain ⟨hothers, haround⟩ := List.forall_mem_append.mp hsame
    obtain ⟨child, hchildSlot, hchild, hslots⟩ := hwithin.replace new left hslot hnew hothers
    refine ⟨branch.replace i (.one child), branch.slot_replace i _, ?_, ?_⟩
    · exact hlies.around hchildren (hreplace child) (branch.slot_replace i _)
        (branch.entries_replace_one i child) hchildSlot hchild haround
    · have hresult := slots_around (hreplace child)
      rw [branch.slot_replace i] at hresult
      rw [← List.append_assoc]
      exact hresult.trans (hslots.append_right _)

/-- Below the slot that a way down a subtree comes to lies a subtree within it. -/
theorem exists_within {store : Store π} {degree : Order} {root : Node π h}
    (hlies : root.Lies store.cells) (hsound : root.Sound degree h) {path : List Nat} {slot : Nat}
    (hpath : store.follow (root.slot h) path = some slot) :
    ∃ k, ∃ sub : Node π k, ∃ others, sub.slot k = slot ∧ sub.Sound degree k ∧
      Within store.cells root sub others := by
  induction path generalizing h with
  | nil =>
    cases hpath
    exact ⟨h, root, [], rfl, hsound, within_self hlies⟩
  | cons place path ih =>
    cases h with
    | zero =>
      rw [Node.slot, Store.follow_leaf hlies] at hpath
      cases hpath
    | succ h =>
      change Branch π (Node π h) at root
      obtain ⟨child, hplace, hchild, hbelow⟩ := Store.exists_child_of_follow hlies hpath
      obtain ⟨k, sub, others, hslot, hsub, hwithin⟩ :=
        ih (hlies.2 child hchild) (hsound.child hchild) hbelow
      obtain ⟨before, after, hchildren, hbefore, hreplace⟩ := root.exists_children_replace place
      have hplaced : place ≤ root.pairs.length := by
        have hlt := (List.getElem?_eq_some_iff.mp hplace).1
        rw [Branch.length_children] at hlt
        omega
      obtain rfl : root.childAt place = child := by
        rw [hchildren, List.getElem?_append_right (Nat.le_of_eq (hbefore hplaced)), hbefore hplaced,
          Nat.sub_self] at hplace
        exact Option.some.inj hplace
      exact ⟨k, sub, _, hslot, hsub, hwithin.branch hlies hchildren fun new => hreplace (.one new)⟩

end Node

end RelStore.BTree
