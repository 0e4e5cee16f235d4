import RelStore.Proofs.BTree.Store.Insertion
import RelStore.Proofs.BTree.Store.Removal

/-!
# Operations on a tree in a store

An operation on a store that holds a tree has an outcome, and leaves a store that holds the tree
after the operation (`Holds.step`). So after any operations, whatever the order of their keys, the
store holds the nested tree (`exists_run`), and answers what this does.
-/

namespace RelStore.BTree.Store

variable {π : Type}

/-- The store of the tree without keys holds it. -/
theorem holds_empty (order : Order) : (empty order : Store π).Holds (BTree.empty order) :=
  ⟨rfl, rfl, rfl, rfl, rfl⟩

variable [DecidableEq π]

/-- A store after an operation. -/
def step (store : Store π) : Operation π → Option (Store π)
  | .insert key position => store.insert key position
  | .delete key position => (store.delete key position).map (·.2)
  | .clear => some store.clear

/-- A store after some operations, one after the other, on the tree without keys. -/
def run (order : Order) (operations : List (Operation π)) : Option (Store π) :=
  operations.foldlM step (empty order)

variable {order : Order} {store : Store π} {tree : BTree π}

/-- An operation on a store that holds a tree leaves one that holds the tree after the operation. -/
theorem Holds.step (hholds : store.Holds tree) (hkept : Kept order tree)
    (operation : Operation π) :
    ∃ left, store.step operation = some left ∧ left.Holds (tree.step operation) := by
  cases operation with
  | insert key position => exact hholds.insert hkept.accounts
  | delete key position =>
    obtain ⟨left, hdelete, hleft⟩ :=
      hholds.delete key position hkept.accounts hkept.root_entries
    exact ⟨left, by rw [Store.step, hdelete]; rfl, hleft⟩
  | clear =>
    refine ⟨store.clear, rfl, ?_⟩
    rw [clear, hholds.order_eq]
    exact holds_empty tree.order

/-- After any operations there is a store, and it holds the nested tree after them. -/
theorem exists_run (order : Order) (operations : List (Operation π)) :
    ∃ store, run order operations = some store ∧ store.Holds (BTree.run order operations) := by
  induction operations using List.reverseRecOn with
  | nil => exact ⟨empty order, rfl, holds_empty order⟩
  | append_singleton operations operation ih =>
    obtain ⟨store, hrun, hholds⟩ := ih
    obtain ⟨left, hstep, hleft⟩ := hholds.step (run_kept order operations) operation
    refine ⟨left, ?_, ?_⟩
    · rw [run] at hrun
      rw [run, List.foldlM_append, hrun]
      simp [hstep]
    · rwa [BTree.run, List.foldl_append]

end RelStore.BTree.Store
