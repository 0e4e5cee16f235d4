import RelStore.Proofs.BTree.History
import RelStore.Proofs.BTree.Listing
import RelStore.Proofs.BTree.Slots

/-!
# What is kept of an index tree, whatever the order of the keys

A tree that is `Kept` in order has no node with too many entries, a root that is a leaf or has an
entry, positions under every key, a size that counts the keys, and no slot that is neither free nor
that of a node. Any operations with any keys leave such a tree (`run_kept`), as it does not depend on
what comparisons say: it follows from what each operation does to the number of entries of a node, to
the list of entries and to the slots in use.
-/

namespace RelStore.BTree

open scoped List

variable {π : Type} {h : Nat}

/-! ## What is kept -/

/-- What every operation keeps of a tree, whatever its keys are. -/
structure Kept (degree : Order) (tree : BTree π) : Prop where
  /-- The order of the tree does not change. -/
  order_eq : tree.order = degree
  /-- Every node has fewer entries than its order. -/
  filled : Node.Filled 0 degree.degree tree.depth tree.root
  /-- A root with children has an entry. -/
  root_entries : tree.depth = 0 ∨ Node.ownEntries tree.depth tree.root ≠ []
  /-- Every entry has positions. -/
  stocked : Stocked tree.toList
  /-- The size counts the entries. -/
  size_eq : tree.size = tree.toList.length
  /-- All slots are accounted for. -/
  accounts : tree.arena.Accounts (Node.slots tree.depth tree.root)

/-! ## Operations -/

/-- The tree without keys is kept in order. -/
theorem empty_kept (degree : Order) : Kept degree (empty degree : BTree π) where
  order_eq := rfl
  filled := ⟨Nat.le_refl 0, by have := degree.inRange.1; change 0 < degree.degree; omega⟩
  root_entries := .inl rfl
  stocked := by simp [Stocked, toList_empty]
  size_eq := rfl
  accounts := Arena.accounts_single

/-- Dropping empty levels keeps a tree in order. -/
theorem kept_collapse {degree : Order} {size depth : Nat} {root : Node π depth} {arena : Arena}
    (hfilled : Node.Filled 0 degree.degree depth root) (hstocked : Stocked (Node.toList depth root))
    (hsize : size = (Node.toList depth root).length)
    (haccounts : arena.Accounts (Node.slots depth root)) :
    Kept degree (collapse degree size depth root arena) := by
  induction depth generalizing arena with
  | zero => exact ⟨rfl, hfilled, .inl rfl, hstocked, hsize, haccounts⟩
  | succ depth ih =>
    obtain ⟨slot, pairs, last⟩ := (root : Branch π (Node π depth))
    cases pairs with
    | nil =>
      -- A root without own entries has one child, which takes its place.
      have hlast : Node.Filled 0 degree.degree depth last := hfilled.2 last List.mem_cons_self
      refine ih hlast hstocked hsize (haccounts.release ?_)
      have hslots : Node.slots (depth + 1) (⟨slot, [], last⟩ : Branch π (Node π depth)) =
          slot :: Node.slots depth last := by
        simp [Node.slots]
      rw [hslots]
      exact (List.perm_append_singleton slot _).symm
    | cons pair pairs =>
      exact ⟨rfl, hfilled, .inr (List.cons_ne_nil _ _), hstocked, hsize, haccounts⟩

section

variable [DecidableEq π] {degree : Order} {tree : BTree π} {key : Value} {position : π}

/-- An insertion into a tree puts the position into its list, and the size grows with the list. -/
theorem insert_puts (tree : BTree π) (key : Value) (position : π) :
    ∃ isNew, Puts key position tree.toList (tree.insert key position).toList isNew ∧
      (tree.insert key position).size = tree.size + isNew.toNat := by
  generalize hinsert : tree.insert key position = result
  cases hinsert ▸ tree.inserts key position with
  | below hroom hbelow =>
    subst hbelow
    exact ⟨_, Node.insert_puts tree.order.degree key position tree.root tree.arena, rfl⟩
  | @above left right middle arena isNew hfull hgrown =>
    have hputs := Node.grow_puts tree.order.degree key position
      (Node.insert_puts tree.order.degree key position) tree.root tree.arena.taken
    rw [hgrown] at hputs
    -- The new root lists what the two halves and the entry between them list.
    have hlist : Grown.toList (.two left middle right) = Node.toList (tree.depth + 1)
        (⟨tree.arena.next, [(left, middle)], right⟩ : Branch π (Node π tree.depth)) := by
      simp [Grown.toList, Node.toList]
    rw [hlist] at hputs
    exact ⟨isNew, hputs, rfl⟩

/-- An insertion keeps all slots accounted for. -/
theorem insert_accounts (haccounts : tree.arena.Accounts (Node.slots tree.depth tree.root)) :
    (tree.insert key position).arena.Accounts
      (Node.slots (tree.insert key position).depth (tree.insert key position).root) := by
  generalize hinsert : tree.insert key position = result
  cases hinsert ▸ tree.inserts key position with
  | below hroom hbelow =>
    subst hbelow
    have hresult := Node.insert_accounts tree.order.degree key position tree.root tree.arena []
      (by simpa using haccounts)
    simpa using hresult
  | @above left right middle arena isNew hfull hgrown =>
    have hresult := Node.grow_accounts tree.order.degree key position
      (Node.insert_accounts tree.order.degree key position) tree.root tree.arena.taken
      [tree.arena.next] (haccounts.taken.perm (List.perm_append_singleton _ _).symm)
    rw [hgrown] at hresult
    have hslots := Node.slots_branch
      (⟨tree.arena.next, [(left, middle)], right⟩ : Branch π (Node π tree.depth))
    exact hresult.perm ((List.perm_append_singleton _ _).trans hslots.symm)

/-- An insertion leaves a root that is a leaf or has an entry. -/
theorem root_insert (hroot : tree.depth = 0 ∨ Node.ownEntries tree.depth tree.root ≠ []) :
    (tree.insert key position).depth = 0 ∨
      Node.ownEntries (tree.insert key position).depth (tree.insert key position).root ≠ [] := by
  generalize hinsert : tree.insert key position = result
  cases hinsert ▸ tree.inserts key position with
  | below hroom hbelow =>
    subst hbelow
    exact hroot.imp id fun hne => List.length_pos_iff.mp (Nat.lt_of_lt_of_le
      (List.length_pos_iff.mpr hne) (Node.length_ownEntries_insert _ key position _ _))
  | above hfull hgrown => exact .inr (List.cons_ne_nil _ _)

/-- An insertion keeps a tree in order. -/
theorem Kept.insert (hkept : Kept degree tree) : Kept degree (tree.insert key position) := by
  obtain ⟨rfl, hfilled, hroot, hstocked, hsize, haccounts⟩ := hkept
  have hdegree := tree.order.inRange.1
  obtain ⟨isNew, hputs, hgrows⟩ := tree.insert_puts key position
  exact {
    order_eq := order_insert
    filled := filled_insert (Nat.zero_le 1) (Nat.zero_le _) (by omega) hfilled
    root_entries := root_insert hroot
    stocked := hputs.stocked hstocked
    size_eq := by rw [hgrows, hsize, hputs.length_eq]
    accounts := insert_accounts haccounts }

/-- Erasing keeps a tree in order. -/
theorem Kept.erase (hkept : Kept degree tree) : Kept degree (tree.erase key position) := by
  unfold BTree.erase remove?
  cases hremove : Node.remove? key position tree.depth tree.root with
  | none => exact hkept
  | some removed =>
    have hcuts := Node.remove?_cuts tree.root hremove
    have hlength := hcuts.length_eq
    have hsize := hkept.size_eq
    rw [toList] at hsize
    change Kept degree (collapse tree.order _ _ _ _)
    rw [hkept.order_eq]
    refine kept_collapse (Node.filled_remove? tree.root hkept.filled hremove)
      (hcuts.stocked hkept.stocked) ?_
      (hkept.accounts.release (Node.slots_remove? tree.root hremove))
    rw [hsize, ← hlength]
    cases removed.keyGone <;> rfl

/-- Every operation keeps a tree in order. -/
theorem Kept.step (hkept : Kept degree tree) (operation : Operation π) :
    Kept degree (tree.step operation) := by
  cases operation with
  | insert key position => exact hkept.insert
  | delete key position => exact hkept.erase
  | clear =>
    rw [BTree.step, clear, hkept.order_eq]
    exact empty_kept degree

/-- Any operations keep a tree in order. -/
theorem run_kept (degree : Order) (operations : List (Operation π)) :
    Kept degree (run degree operations) := by
  induction operations using List.reverseRecOn with
  | nil => exact empty_kept degree
  | append_singleton operations operation ih =>
    rw [run, List.foldl_append, ← run]
    exact ih.step operation

end

end RelStore.BTree
