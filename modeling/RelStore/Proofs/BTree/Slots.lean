import Mathlib.Data.List.Perm.Basic
import RelStore.Proofs.BTree.Occupancy

/-!
# The slots of nodes, whatever the order of the keys

The slots of a tree's nodes and the free slots of its store are all slots of the store, each of them
once (`Arena.Accounts`). So no slot is lost, none is free while a node is in it, and none holds two
nodes. A split puts the one new node into the next slot, which is taken; a removal releases just the
slots of the nodes that go. As an insertion works below one child after another, the statement about
it carries along the slots of all nodes elsewhere (`Node.insert_accounts`).
-/

namespace RelStore.BTree

open scoped List

variable {π : Type} {h : Nat}

/-! ## Stores of nodes -/

namespace Arena

/-- Some slots in use and the free ones are all slots of a store, each of them once. -/
def Accounts (arena : Arena) (used : List Nat) : Prop :=
  (used ++ arena.free).Perm (List.range arena.capacity)

/-- In the first store, slot 0 is in use. -/
theorem accounts_single : Arena.single.Accounts [0] := List.Perm.refl _

namespace Accounts

variable {arena : Arena} {used kept released : List Nat}

/-- The order of the slots in use does not matter. -/
theorem perm (haccounts : arena.Accounts used) (hperm : used.Perm kept) : arena.Accounts kept :=
  (hperm.symm.append_right _).trans haccounts

/-- After a node has gone to the next slot, this slot is in use too. -/
theorem taken (haccounts : arena.Accounts used) : arena.taken.Accounts (arena.next :: used) := by
  obtain ⟨capacity, free⟩ := arena
  cases free with
  | nil =>
    change (capacity :: used ++ []).Perm (List.range (capacity + 1))
    rw [List.append_nil, List.range_succ]
    have hall : used.Perm (List.range capacity) := by simpa [Accounts] using haccounts
    exact (hall.cons capacity).trans (List.perm_append_singleton _ _).symm
  | cons slot free =>
    change (slot :: used ++ free).Perm (List.range capacity)
    exact List.perm_middle.symm.trans haccounts

/-- After slots have been released, the others are in use. -/
theorem release (haccounts : arena.Accounts used) (hperm : used.Perm (kept ++ released)) :
    (arena.release released).Accounts kept := by
  change (kept ++ (released.reverse ++ arena.free)).Perm (List.range arena.capacity)
  calc kept ++ (released.reverse ++ arena.free)
      = (kept ++ released.reverse) ++ arena.free := (List.append_assoc _ _ _).symm
    _ ~ (kept ++ released) ++ arena.free :=
        ((List.reverse_perm released).append_left kept).append_right _
    _ ~ used ++ arena.free := hperm.symm.append_right _
    _ ~ List.range arena.capacity := haccounts

end Accounts

end Arena

namespace Node

/-! ## The slots of a subtree -/

/-- A branch has its own slot and those of its children. -/
theorem slots_branch (branch : Branch π (Node π h)) :
    (slots (h + 1) (branch : Node π (h + 1))).Perm
      (branch.slot :: branch.children.flatMap (slots h)) := by
  rw [slots, Branch.children, List.flatMap_append, List.flatMap_map, List.flatMap_singleton]
  refine List.Perm.cons _ (List.perm_append_comm.trans (List.Perm.append_right _ ?_))
  exact (List.reverse_perm branch.pairs).flatMap_right _

/-- The halves of a node have its slot and a new one. -/
theorem slots_halves? {degree slot : Nat} {node left right : Node π h} {middle : Entry π}
    (hhalves : halves? degree slot h node = some (left, middle, right)) :
    (slot :: slots h node).Perm (slots h left ++ slots h right) := by
  cases h with
  | zero =>
    change Leaf π at node
    rw [halves?] at hhalves
    split at hhalves
    · cases hhalves
    · cases hhalves
      exact List.Perm.swap _ _ _
  | succ h =>
    change Branch π (Node π h) at node left right
    have hchildren := children_halves? hhalves
    obtain ⟨hleft, hright⟩ : left.slot = node.slot ∧ right.slot = slot := by
      rw [halves?] at hhalves
      split at hhalves
      · cases hhalves
      · cases hhalves
        exact ⟨rfl, rfl⟩
    have hsplit := (slots_branch left).append (slots_branch right)
    rw [hleft, hright] at hsplit
    calc slot :: slots (h + 1) (node : Node π (h + 1))
        ~ slot :: (node.slot :: node.children.flatMap (slots h)) := (slots_branch node).cons slot
      _ = slot :: ((node.slot :: left.children.flatMap (slots h)) ++
            right.children.flatMap (slots h)) := by
          rw [hchildren, List.flatMap_append, List.cons_append]
      _ ~ (node.slot :: left.children.flatMap (slots h)) ++
            (slot :: right.children.flatMap (slots h)) := List.perm_middle.symm
      _ ~ slots (h + 1) (left : Node π (h + 1)) ++ slots (h + 1) (right : Node π (h + 1)) :=
          hsplit.symm

section

variable [DecidableEq π] (degree : Nat) (key : Value) (position : π)

/-! ## Inserting -/

/-- Growing a child accounts for all slots, those of nodes elsewhere among them, if descending into
a node does. -/
theorem grow_accounts {descend : Node π h → Arena → Inserted (Node π h)}
    (hdescend : ∀ (node : Node π h) (arena : Arena) (others : List Nat),
      arena.Accounts (slots h node ++ others) →
        (descend node arena).arena.Accounts (slots h (descend node arena).result ++ others))
    (child : Node π h) (arena : Arena) (others : List Nat)
    (haccounts : arena.Accounts (slots h child ++ others)) :
    (grow degree key position descend child arena).arena.Accounts
      ((grow degree key position descend child arena).result.children.flatMap (slots h) ++
        others) := by
  unfold grow
  split
  · have hbelow := hdescend child arena others haccounts
    simpa [Grown.children] using hbelow
  · next left middle right hsplit =>
    -- The right half is in the slot that was the next one.
    have hhalves : arena.taken.Accounts (slots h left ++ (slots h right ++ others)) := by
      rw [← List.append_assoc]
      have hperm := slots_halves? (halves?_of_split? hsplit).2
      exact haccounts.taken.perm (hperm.append_right others)
    split
    · simpa [Grown.children] using hhalves
    · have hbelow := hdescend left arena.taken _ hhalves
      simpa [Grown.children] using hbelow
    · have hswap : arena.taken.Accounts (slots h right ++ (slots h left ++ others)) :=
        hhalves.perm (List.perm_append_comm_assoc _ _ _)
      have hbelow := hdescend right arena.taken _ hswap
      simpa [Grown.children] using hbelow.perm (List.perm_append_comm_assoc _ _ _)

/-- An insertion into a subtree accounts for all slots, those of nodes elsewhere among them. -/
theorem insert_accounts (node : Node π h) (arena : Arena) (others : List Nat)
    (haccounts : arena.Accounts (slots h node ++ others)) :
    (insert degree key position h node arena).arena.Accounts
      (slots h (insert degree key position h node arena).result ++ others) := by
  induction h generalizing arena others with
  | zero =>
    change Leaf π at node
    generalize hinsert : insert degree key position 0 node arena = inserted
    cases Leaf.inserts hinsert with
    | fresh hentries => exact haccounts
    | joined hentries => exact haccounts
  | succ h ih =>
    change Branch π (Node π h) at node
    generalize hinsert : insert degree key position (h + 1) node arena = inserted
    have hnode := haccounts.perm ((slots_branch node).append_right others)
    cases Branch.inserts hinsert with
    | own hpairs =>
      refine hnode.perm (List.Perm.append_right others ?_)
      refine .trans (.of_eq ?_) (slots_branch _).symm
      simp [Branch.children, hpairs]
    | below i hgrown =>
      subst hgrown
      obtain ⟨before, after, hchildren, -, hreplace⟩ := node.exists_children_replace i
      -- All slots but those of the child are elsewhere.
      have hchild : arena.Accounts (slots h (node.childAt i) ++
          (node.slot :: (before.flatMap (slots h) ++ after.flatMap (slots h)) ++ others)) := by
        refine hnode.perm ?_
        rw [hchildren, List.flatMap_append, List.flatMap_cons,
          ← List.append_assoc (slots h (node.childAt i))]
        refine List.Perm.append_right others ?_
        refine .trans (.cons _ (List.perm_append_comm_assoc _ _ _)) ?_
        exact List.perm_middle.symm
      have hslot : (node.replace i (grow degree key position (insert degree key position h)
          (node.childAt i) arena).result).slot = node.slot := by
        unfold Branch.replace
        split <;> split <;> rfl
      refine (grow_accounts degree key position ih _ arena _ hchild).perm ?_
      rw [← List.append_assoc]
      refine List.Perm.append_right others (.trans ?_ (slots_branch _).symm)
      rw [hreplace, hslot, List.flatMap_append, List.flatMap_append]
      exact List.perm_middle.trans (.cons _ (List.perm_append_comm_assoc _ _ _))

end

/-! ## Removing -/

/-- What leaves one of two lists in a row leaves both. -/
theorem perm_append_released {xs kept released : List Nat} (hperm : xs ~ kept ++ released)
    (others : List Nat) : xs ++ others ~ (kept ++ others) ++ released :=
  calc xs ++ others
      ~ (kept ++ released) ++ others := hperm.append_right others
    _ = kept ++ (released ++ others) := List.append_assoc _ _ _
    _ ~ kept ++ (others ++ released) := List.perm_append_comm.append_left kept
    _ = (kept ++ others) ++ released := (List.append_assoc _ _ _).symm

/-- A branch has the slots below some of its pairs and those that it has without them. -/
theorem slots_pairs (slot : Nat) (before pairs after : List (Node π h × Entry π))
    (last : Node π h) :
    slots (h + 1) (⟨slot, before ++ (pairs ++ after), last⟩ : Branch π (Node π h)) ~
      (pairs.map (·.1)).flatMap (slots h) ++
        slots (h + 1) (⟨slot, before ++ after, last⟩ : Branch π (Node π h)) := by
  have hwith := slots_branch (⟨slot, before ++ (pairs ++ after), last⟩ : Branch π (Node π h))
  have hwithout := slots_branch (⟨slot, before ++ after, last⟩ : Branch π (Node π h))
  simp only [Branch.children, List.map_append, List.flatMap_append, List.append_assoc]
    at hwith hwithout
  refine hwith.trans (.trans ?_ (hwithout.symm.append_left _))
  exact ((List.perm_append_comm_assoc _ _ _).cons slot).trans List.perm_middle.symm

/-- A subtree has the slots that it keeps when its greatest entry is taken out, and those
released. -/
theorem slots_popMax (node : Node π h) {popped : Popped π (Node π h)}
    (hpop : popMax h node = some popped) :
    slots h node ~ slots h popped.result ++ popped.released := by
  induction h with
  | zero =>
    change Leaf π at node
    obtain ⟨entry, -, rfl⟩ := Option.map_eq_some_iff.mp hpop
    exact List.Perm.refl _
  | succ h ih =>
    change Branch π (Node π h) at node
    rw [popMax] at hpop
    split at hpop
    · next below hbelow =>
      cases hpop
      exact (perm_append_released (ih node.last hbelow) _).cons node.slot
    · obtain ⟨⟨child, entry⟩, hpair, rfl⟩ := Option.map_eq_some_iff.mp hpop
      obtain ⟨before, hpairs⟩ := List.getLast?_eq_some_iff.mp hpair
      simp only [slots, hpairs, List.dropLast_concat, List.reverse_append, List.reverse_singleton,
        List.flatMap_append, List.flatMap_singleton]
      exact List.perm_append_comm.cons node.slot

variable [DecidableEq π] {key : Value} {position : π}

/-- A subtree has the slots that it keeps when a position is taken out, and those released. -/
theorem slots_remove? (node : Node π h) {removed : Removed (Node π h)}
    (hremove : remove? key position h node = some removed) :
    slots h node ~ slots h removed.result ++ removed.released := by
  induction h with
  | zero =>
    change Leaf π at node
    cases Leaf.removes hremove with
    | kept hentries hrest => exact List.Perm.refl _
    | gone hentries => exact List.Perm.refl _
  | succ h ih =>
    change Branch π (Node π h) at node
    -- Only slots below the child of one pair are released.
    have instead {before after pairs : List (Node π h × Entry π)} {child : Node π h}
        {entry : Entry π} {released : List Nat}
        (hpairs : node.pairs = before ++ ([(child, entry)] ++ after))
        (hchild : slots h child ~ (pairs.map (·.1)).flatMap (slots h) ++ released) :
        slots (h + 1) (node : Node π (h + 1)) ~
          slots (h + 1) (⟨node.slot, before ++ (pairs ++ after), node.last⟩ :
            Branch π (Node π h)) ++ released := by
      have hnode := slots_pairs node.slot before [(child, entry)] after node.last
      rw [← hpairs] at hnode
      have hresult := slots_pairs node.slot before pairs after node.last
      simp only [List.map_singleton, List.flatMap_singleton] at hnode
      exact hnode.trans ((perm_append_released hchild _).trans (hresult.symm.append_right _))
    cases Branch.removes hremove with
    | last hbelow => exact (perm_append_released (ih node.last hbelow) _).cons node.slot
    | inner hpairs hbelow => exact instead hpairs (by simpa using ih _ hbelow)
    | kept hpairs hrest => exact instead hpairs (by simp)
    | exchanged hpairs hpop => exact instead hpairs (by simpa using slots_popMax _ hpop)
    | dropped hpairs hpop => exact instead hpairs (by simp)

end Node

end RelStore.BTree
