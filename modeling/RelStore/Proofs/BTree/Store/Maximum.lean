import RelStore.Proofs.BTree.Removal
import RelStore.Proofs.BTree.Store.Nesting
import RelStore.Proofs.Outcome

/-!
# The greatest entry below a slot of a store

Below every slot that a way from the root of a well shaped store comes to lies a subtree, perhaps
with nodes without keys, whose entries are in an order (`Store.inOrder`). Taking the greatest entry
out finds none if there is no entry, and takes the last one out otherwise (`popMax_takes_last`). The
subtree then has the others in the same order and the same shape, the nodes that no way from the
root comes to any more have been released, each of them once, and the nodes elsewhere are as they
were.
-/

namespace RelStore.BTree

open scoped List

variable {π : Type} {h : Nat}

/-! ## Entries in order -/

/-- Lists with an element behind each of them as long as there are elements. -/
def interleave {α : Type} : List (List α) → List α → List α
  | lists, [] => lists.flatten
  | [], elements => elements
  | list :: lists, element :: elements => list ++ element :: interleave lists elements

/-- Elements between no lists are just the elements. -/
theorem interleave_nil {α : Type} (elements : List α) : interleave [] elements = elements := by
  cases elements <;> rfl

/-- The entries from a slot on down, those below the children between the own ones. -/
def Store.inOrder (store : Store π) : (steps slot : Nat) → Option (List (Entry π))
  | 0, _ => none
  | steps + 1, slot => do
    let cell ← store.cells[slot]?
    some (interleave (← cell.children.mapM (store.inOrder steps)) cell.entries)

namespace Node

/-- The entries in a node's cell are its own. -/
theorem entries_cell (node : Node π h) : (cell h node).entries = ownEntries h node := by
  rw [Cell.entries, cell, List.zip_map', List.map_map]
  exact List.map_id _

/-- A branch lists what is below its children between its own entries. -/
theorem interleave_toList (branch : Branch π (Node π h)) :
    interleave (branch.children.map (toList h)) branch.entries =
      toList (h + 1) (branch : Node π (h + 1)) := by
  obtain ⟨slot, pairs, last⟩ := branch
  rw [toList_branch, Branch.children, Branch.entries]
  dsimp only
  induction pairs with
  | nil => exact List.append_nil _
  | cons pair pairs ih =>
    obtain ⟨child, entry⟩ := pair
    rw [spread_cons, List.append_assoc, List.cons_append, ← ih]
    rfl

end Node

namespace Store

variable {store : Store π} {degree : Order}

/-- A subtree that lies in a store has its entries in order there. -/
theorem inOrder_eq {node : Node π h} (hlies : node.Lies store.cells) (steps : Nat) :
    store.inOrder (steps + h + 1) (node.slot h) = some (node.toList h) := by
  induction h with
  | zero =>
    change Leaf π at node
    have hentries : (Node.cell 0 node).entries = Node.toList 0 node := @Node.entries_cell π 0 node
    rw [inOrder, hlies.own]
    exact congrArg some ((interleave_nil _).trans hentries)
  | succ h ih =>
    change Branch π (Node π h) at node
    have hown : store.cells[node.slot]? = some (Node.cell (h + 1) node) := hlies.1
    have hbelow : (Node.cell (h + 1) node).children.mapM (store.inOrder (steps + h + 1)) =
        some (node.children.map (Node.toList h)) :=
      Outcome.mapM_map fun child hchild => ih (hlies.2 child hchild)
    rw [Node.slot, ← Nat.add_assoc, inOrder, hown]
    dsimp only [Option.bind_eq_bind, Option.bind_some]
    rw [hbelow, Option.bind_some, Node.entries_cell]
    exact congrArg some (Node.interleave_toList node)

/-! ## Well shaped subtrees -/

/-- Whether a way down from a slot comes to another one. -/
def Below (store : Store π) (slot other : Nat) : Prop := ∃ path, store.follow slot path = some other

/-- What the part of a store below a slot looks like, with all leaves at one depth. -/
structure ShapedBelow (degree : Order) (depth : Nat) (store : Store π) (slot : Nat) : Prop where
  /-- Only one way down comes to a slot. -/
  follow_inj : ∀ path other target, store.follow slot path = some target →
    store.follow slot other = some target → path = other
  /-- Every slot that a way comes to holds a node. -/
  cells : ∀ target, store.Below slot target →
    ∃ cell, store.cells[target]? = some cell ∧ cell.WellShaped degree
  /-- The leaves are the nodes at the depth. -/
  leaf_iff : ∀ path target cell, store.follow slot path = some target →
    store.cells[target]? = some cell → (cell.isLeaf = true ↔ path.length = depth)
  /-- No slot of a node is free. -/
  free_disjoint : ∀ target, store.Below slot target → target ∉ store.free

/-- Below the slot of a subtree that is kept in order and lies in a store, the store is well
shaped. -/
theorem shapedBelow {node : Node π h} (hlies : node.Lies store.cells) (hsound : node.Sound degree h)
    {others : List Nat} (haccounts : store.arena.Accounts (node.slots h ++ others)) :
    store.ShapedBelow degree h (node.slot h) where
  follow_inj _ _ _ := follow_inj hlies (List.nodup_append.mp haccounts.nodup).1
  cells target hbelow := by
    obtain ⟨path, hpath⟩ := hbelow
    obtain ⟨k, sub, -, rfl, hsub, hsubSound⟩ := exists_of_follow hlies hsound hpath
    exact ⟨_, hsub.own, hsubSound.wellShaped⟩
  leaf_iff path target cell hpath hcell := by
    obtain ⟨k, sub, hlevels, rfl, hsub, -⟩ := exists_of_follow hlies hsound hpath
    rw [hsub.own] at hcell
    cases hcell
    change (k == 0) = true ↔ _
    rw [beq_iff_eq, ← hlevels]
    omega
  free_disjoint target hbelow :=
    haccounts.notMem_free (List.mem_append_left _ ((mem_slots_iff hlies).mpr hbelow))

/-! ## Taking the greatest entry out -/

/-- A store in which the last entry below a slot is gone. -/
structure LosesLast (degree : Order) (depth : Nat) (store : Store π) (slot : Nat)
    (entries : List (Entry π)) (left : Store π) : Prop where
  /-- The subtree is well shaped, with its leaves where they were. -/
  shaped : left.ShapedBelow degree depth slot
  /-- It has the other entries in the same order. -/
  inOrder_eq : left.inOrder left.cells.length slot = some entries
  /-- The slots below that no way from the root comes to any more have been released, each once. -/
  released : ∃ released : List Nat, left.free = released.reverse ++ store.free ∧ released.Nodup ∧
    (∀ target ∈ released, store.Below slot target) ∧
    ∀ target, target ∈ released ↔ store.Reached target ∧ ¬left.Reached target
  /-- The nodes elsewhere are as they were. -/
  same : ∀ target, store.Reached target → ¬store.Below slot target →
    left.cells[target]? = store.cells[target]?
  /-- The order is the same. -/
  order_eq : left.order = store.order
  /-- The root is the same. -/
  root_eq : left.root = store.root
  /-- There are as many slots. -/
  length_eq : left.cells.length = store.cells.length
  /-- The size is still that of the tree with the entry. -/
  size_eq : left.size = store.size

/-- What taking the greatest entry below a slot out comes to, by the entries in order. -/
inductive TakesLast (degree : Order) (depth : Nat) (store : Store π) (slot : Nat) :
    List (Entry π) → Option (Entry π × Store π) → Prop where
  /-- There is no entry. -/
  | none : TakesLast degree depth store slot [] none
  /-- The last entry is taken out. -/
  | some {entries : List (Entry π)} {entry : Entry π} {left : Store π}
      (hloses : store.LosesLast degree depth slot entries left) :
      TakesLast degree depth store slot (entries ++ [entry]) (some (entry, left))

/-- Taking the greatest entry out of a subtree, around which lies the rest of a tree, loses the last
entry. -/
theorem losesLast {root : Node π h} {k : Nat} {sub : Node π k} {others : List Nat}
    {popped : Popped π (Node π k)} {left : Store π} (hroot : root.slot h = store.root)
    (hlies : root.Lies store.cells) (haccounts : store.arena.Accounts (root.slots h))
    (hsound : sub.Sound degree k) (hwithin : Node.Within store.cells root sub others)
    (hpop : sub.popMax k = some popped) (hslot : popped.result.slot k = sub.slot k)
    (hresult : popped.result.Lies left.cells) (hleft : store.Releases popped.released others left) :
    store.LosesLast degree k (sub.slot k) (popped.result.toList k) left := by
  have hslots := Node.slots_popMax sub hpop
  have hused := haccounts.perm hwithin.slots_perm
  have hkept : left.arena.Accounts (popped.result.slots k ++ others) := by
    rw [hleft.leaves.arena_eq]
    exact hused.release (Node.perm_append_released hslots others)
  have hresultSound : popped.result.Sound degree k := by
    refine ⟨Node.filled_popMax sub hsound.filled hpop, fun entry hentry => hsound.stocked entry ?_⟩
    rw [Node.toList_of_popMax_some hpop]
    exact List.mem_append_left _ hentry
  -- The nodes that are reached then are those of the subtree that is left and those around it.
  obtain ⟨newRoot, hnewRoot, hnewLies, hnewSlots⟩ :=
    hwithin.replace popped.result left.cells hslot hresult hleft.leaves.same
  have hbefore (target : Nat) : store.Reached target ↔
      target ∈ sub.slots k ∨ target ∈ others := by
    rw [Reached, ← hroot, ← mem_slots_iff hlies, hwithin.slots_perm.mem_iff, List.mem_append]
  have hafter (target : Nat) : left.Reached target ↔
      target ∈ popped.result.slots k ∨ target ∈ others := by
    rw [Reached, hleft.leaves.root_eq, ← hroot, ← hnewRoot, ← mem_slots_iff hnewLies,
      hnewSlots.mem_iff, List.mem_append]
  have hsub (target : Nat) : target ∈ sub.slots k ↔
      target ∈ popped.result.slots k ∨ target ∈ popped.released := by
    rw [hslots.mem_iff, List.mem_append]
  have hdistinct : ((popped.result.slots k ++ others) ++ popped.released).Nodup :=
    (Node.perm_append_released hslots others).nodup_iff.mp hused.nodup
  obtain ⟨-, hreleased, hdisjoint⟩ := List.nodup_append'.mp hdistinct
  have hlength : left.cells.length = store.cells.length :=
    congrArg Arena.capacity hleft.leaves.arena_eq
  obtain ⟨steps, hsteps⟩ := exists_steps hkept
  constructor
  case shaped =>
    rw [← hslot]
    exact shapedBelow hresult hresultSound hkept
  case inOrder_eq =>
    rw [hsteps, ← hslot]
    exact Store.inOrder_eq hresult steps
  case released =>
    refine ⟨popped.released, congrArg Arena.free hleft.leaves.arena_eq, hreleased,
      fun target htarget => ?_, fun target => ?_⟩
    · exact (mem_slots_iff hwithin.lies).mp ((hsub target).mpr (.inr htarget))
    · rw [hbefore, hafter, hsub]
      constructor
      · exact fun htarget =>
          ⟨.inl (.inr htarget), fun hmem => hdisjoint (List.mem_append.mpr hmem) htarget⟩
      · rintro ⟨(hmem | htarget) | hmem, hnot⟩
        · exact absurd (.inl hmem) hnot
        · exact htarget
        · exact absurd (.inr hmem) hnot
  case same =>
    intro target hreached hnot
    refine hleft.leaves.same target (((hbefore target).mp hreached).resolve_left fun hmem => ?_)
    exact hnot ((mem_slots_iff hwithin.lies).mp hmem)
  case order_eq => exact hleft.leaves.order_eq
  case root_eq => exact hleft.leaves.root_eq
  case length_eq => exact hlength
  case size_eq => exact hleft.size_eq

/-- Taking the greatest entry below a slot out of a well shaped store takes the last entry in order,
if there is one, and releases the nodes that go with it. -/
theorem popMax_takes_last (hshaped : store.WellShaped degree) {slot : Nat}
    (hslot : store.Reached slot) :
    ∃ depth entries outcome, store.ShapedBelow degree depth slot ∧
      store.inOrder store.cells.length slot = some entries ∧
      store.popMax store.cells.length slot = some outcome ∧
      store.TakesLast degree depth slot entries outcome := by
  obtain ⟨depth, root, hroot, hlies, hsound, haccounts⟩ := hshaped.exists_root
  obtain ⟨path, hpath⟩ := hslot
  rw [← hroot] at hpath
  obtain ⟨k, sub, others, rfl, hsub, hwithin⟩ := Node.exists_within hlies hsound hpath
  have hused := haccounts.perm hwithin.slots_perm
  obtain ⟨steps, hsteps⟩ := exists_steps hused
  obtain ⟨outcome, hpop, hpops⟩ := exists_popMax sub store steps others hwithin.lies hused
  refine ⟨k, sub.toList k, outcome, shapedBelow hwithin.lies hsub hused, ?_, ?_, ?_⟩
  · rw [hsteps]
    exact inOrder_eq hwithin.lies steps
  · rw [hsteps]
    exact hpop
  · generalize hresult : sub.popMax k = result at hpops
    cases hpops with
    | none =>
      rw [Node.toList_of_popMax_none hresult]
      exact .none
    | some hslot hpopped hleft =>
      rw [Node.toList_of_popMax_some hresult]
      exact .some (losesLast hroot hlies haccounts hsub hwithin hresult hslot hpopped hleft)

/-- Descending keys, which leave the last nodes of a tree of the least order without keys. -/
def descendingKeys : List (Operation Nat) :=
  [.insert (.int 3) 0, .insert (.int 2) 1, .insert (.int 1) 2, .insert (.int 0) 3,
    .insert (.int (-1)) 4]

/-- At the root, the last child and the leaf below it have no keys and are released. The last child
itself has no entry below it, and the last leaf below the first child has none. -/
theorem popMax_takes_last_keyless :
    let least : Order := ⟨3, by decide, by decide⟩
    ∃ store, run least descendingKeys = some store ∧ store.WellShaped least ∧
      ((store.popMax store.cells.length store.root).map (·.map (·.2.free))) =
        some (some [2, 5]) ∧
      ∀ path ∈ [[], [0], [1]], ∃ slot, store.follow store.root path = some slot ∧
        ∃ depth entries outcome, store.ShapedBelow least depth slot ∧
          store.inOrder store.cells.length slot = some entries ∧
          store.popMax store.cells.length slot = some outcome ∧
          store.TakesLast least depth slot entries outcome := by
  intro least
  obtain ⟨store, hrun, hshaped⟩ := run_wellShaped least descendingKeys
  have hreleased : ((run least descendingKeys).bind fun store =>
      (store.popMax store.cells.length store.root).map (·.map (·.2.free))) =
        some (some [2, 5]) := by decide +kernel
  have hpaths : ∀ path ∈ [[], [0], [1]], ((run least descendingKeys).bind fun store =>
      store.follow store.root path).isSome = true := by decide +kernel
  rw [hrun] at hreleased hpaths
  refine ⟨store, hrun, hshaped, hreleased, fun path hpath => ?_⟩
  obtain ⟨slot, hslot⟩ := Option.isSome_iff_exists.mp (hpaths path hpath)
  exact ⟨slot, hslot, popMax_takes_last hshaped ⟨path, hslot⟩⟩

end Store

end RelStore.BTree
