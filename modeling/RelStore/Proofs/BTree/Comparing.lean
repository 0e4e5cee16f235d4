import RelStore.BTree.Comparing
import RelStore.Proofs.Action
import RelStore.Proofs.BTree.Listing

/-!
# Index trees whose keys compare

Where a key can be compared with every key of a tree (`Meets`), no comparison on its way fails: the
operations that make the comparisons one by one end as those that take them for granted
(`insertM_on`, `eraseM_on`). For an insertion this goes by induction on the height; that a child is
split in its branch before the way goes on in one of the halves comes to the same as taking the
child back in two in the end (`Branch.growM_on`).
-/

namespace RelStore.BTree

variable {π : Type} {h : Nat}

/-- A key can be compared with the keys of entries. -/
def Meets (key : Value) (entries : List (Entry π)) : Prop :=
  ∀ entry ∈ entries, key.isComparable entry.key = true

/-- A key that meets some entries meets any of them. -/
theorem Meets.subset {key : Value} {entries others : List (Entry π)} (hmeets : Meets key entries)
    (hsub : others ⊆ entries) : Meets key others :=
  fun entry hentry => hmeets entry (hsub hentry)

/-- Keys of one set meet if the values of the set can be compared. -/
theorem meets_of_mem {keys : Set Value} {key : Value} {entries : List (Entry π)}
    (hcomparable : ∀ a ∈ keys, ∀ b ∈ keys, a.isComparable b = true) (hkey : key ∈ keys)
    (hentries : ∀ entry ∈ entries, entry.key ∈ keys) : Meets key entries :=
  fun entry hentry => hcomparable key hkey entry.key (hentries entry hentry)

end BTree

/-- Two values can be compared in either order or in none. -/
theorem Value.isComparable_comm (a b : Value) : a.isComparable b = b.isComparable a := by
  have htext : comparesByText a b = comparesByText b a := by cases a <;> cases b <;> rfl
  rw [isComparable, isComparable, htext, Bool.and_comm]

namespace BTree

/-- A key that meets some entries has a place among them. -/
theorem placeM_eq {key : Value} {entries : List (Entry π)} (hmeets : Meets key entries) :
    placeM key entries = .ok (place key entries) := by
  refine partitionPointM_eq fun entry hentry => ?_
  have hcomparable : entry.key.isComparable key = true := by
    rw [Value.isComparable_comm]
    exact hmeets entry hentry
  rw [Value.compareM, if_pos hcomparable]
  rfl

/-! ## Erasure -/

/-- No comparison fails in the search for a key that meets a subtree. -/
theorem Node.searchM_eq {key : Value} {node : Node π h} (hmeets : Meets key (toList h node)) :
    searchM key h node = .ok () := by
  induction h with
  | zero =>
    change Leaf π at node
    have hplace : placeM key node.entries = .ok (place key node.entries) := placeM_eq hmeets
    rw [searchM, hplace]
    rfl
  | succ h ih =>
    change Branch π (Node π h) at node
    have hown : node.entries ⊆ toList (h + 1) node := fun entry hentry =>
      toList_branch node ▸ List.mem_append_left _ ((entries_sublist_spread _).subset hentry)
    rw [searchM, placeM_eq (hmeets.subset hown), Outcome.ok_bind]
    split
    · refine ih (hmeets.subset fun entry hentry => ?_)
      rw [toList_branch]
      exact List.mem_append_right _ hentry
    · next child entry after hdrop =>
      split
      · rfl
      · refine ih (hmeets.subset fun entry hentry => ?_)
        rw [Branch.toList_of_drop hdrop]
        exact List.mem_append_right _ (List.mem_append_left _ hentry)

/-- A position is taken out from under a key that meets the tree. -/
theorem eraseM_on [DecidableEq π] {key : Value} {tree : BTree π}
    (hmeets : Meets key (Node.toList tree.depth tree.root)) (position : π) :
    (eraseM key position).on tree = (.ok (), tree.erase key position) := by
  rw [eraseM, Action.on_get_bind, Action.on_lift_bind, Node.searchM_eq hmeets]
  rfl

/-! ## Insertion -/

namespace Branch

variable {α : Type} {branch : Branch π α} {i : Nat}

/-- A branch whose child has been split has the halves at the place of the child and behind it. -/
theorem childAt_replace_two (hi : i ≤ branch.pairs.length) (left right : α) (middle : Entry π) :
    (branch.replace i (.two left middle right)).childAt i = left ∧
      (branch.replace i (.two left middle right)).childAt (i + 1) = right := by
  have hlength : (branch.pairs.take i).length = i := List.length_take_of_le hi
  have hbehind : (branch.pairs.take i).drop (i + 1) = [] :=
    List.drop_eq_nil_of_le (by rw [hlength]; exact Nat.le_succ i)
  unfold replace childAt
  cases hdrop : branch.pairs.drop i with
  | nil =>
    have hall : branch.pairs.length = i := Nat.le_antisymm (List.drop_eq_nil_iff.mp hdrop) hi
    simp [← hall]
  | cons pair after =>
    obtain ⟨child, entry⟩ := pair
    simp [List.drop_append, hlength, hbehind]

/-- A branch takes back the left half of a split child. -/
theorem replace_two_left (hi : i ≤ branch.pairs.length) (left right child : α)
    (middle : Entry π) :
    (branch.replace i (.two left middle right)).replace i (.one child) =
      branch.replace i (.two child middle right) := by
  have hlength : (branch.pairs.take i).length = i := List.length_take_of_le hi
  unfold replace
  cases hdrop : branch.pairs.drop i with
  | nil =>
    have hall : branch.pairs.length = i := Nat.le_antisymm (List.drop_eq_nil_iff.mp hdrop) hi
    simp [← hall]
  | cons pair after =>
    obtain ⟨_, entry⟩ := pair
    simp [hlength]

/-- A branch takes back the right half of a split child. -/
theorem replace_two_right (hi : i ≤ branch.pairs.length) (left right child : α)
    (middle : Entry π) :
    (branch.replace i (.two left middle right)).replace (i + 1) (.one child) =
      branch.replace i (.two left middle child) := by
  have hlength : (branch.pairs.take i).length = i := List.length_take_of_le hi
  have hle : (branch.pairs.take i).length ≤ i + 1 := by
    rw [hlength]
    exact Nat.le_succ i
  unfold replace
  cases hdrop : branch.pairs.drop i with
  | nil =>
    have hall : branch.pairs.length = i := Nat.le_antisymm (List.drop_eq_nil_iff.mp hdrop) hi
    simp [← hall]
  | cons pair after =>
    obtain ⟨_, entry⟩ := pair
    simp [List.drop_append, List.take_append, hlength, List.drop_eq_nil_of_le hle,
      List.take_of_length_le hle]

/-- An action on a child ends as it does on the child alone. -/
theorem onChild_on {β : Type} {act : Action (α × Arena) β} {arena after : Arena} {child : α} {b : β}
    (hact : act.on (branch.childAt i, arena) = (.ok b, child, after)) :
    (onChild i act).on (branch, arena) = (.ok b, branch.replace i (.one child), after) := by
  rw [onChild, Action.on_within, hact]

end Branch

section

variable [DecidableEq π] {key : Value}

/-- Descending into nodes that a key meets ends as it does where no comparison can fail. -/
def Descends (key : Value) (descendM : Action (Node π h × Arena) Bool)
    (descend : Node π h → Arena → Inserted (Node π h)) : Prop :=
  ∀ node arena, Meets key (Node.toList h node) →
    descendM.on (node, arena) =
      (.ok (descend node arena).isNew, (descend node arena).result, (descend node arena).arena)

/-- Growing the child at a place of a branch ends as it does where no comparison can fail. -/
theorem Branch.growM_on (degree : Nat) (position : π) {descendM : Action (Node π h × Arena) Bool}
    {descend : Node π h → Arena → Inserted (Node π h)} (hdescend : Descends key descendM descend)
    {branch : Branch π (Node π h)} {i : Nat} (hi : i ≤ branch.pairs.length)
    (hmeets : Meets key (Node.toList h (branch.childAt i))) (arena : Arena) :
    (growM degree key position descendM i).on (branch, arena) =
      let grown := Node.grow degree key position descend (branch.childAt i) arena
      (.ok grown.isNew, branch.replace i grown.result, grown.arena) := by
  rw [growM, Action.on_get_bind, Node.grow]
  dsimp only
  cases hsplit : Node.split? degree arena.next h (branch.childAt i) with
  | none => exact onChild_on (hdescend _ arena hmeets)
  | some halves =>
    obtain ⟨left, middle, right⟩ := halves
    rw [Node.toList_of_halves? (Node.halves?_of_split? hsplit).2] at hmeets
    have hleft : Meets key (Node.toList h left) := hmeets.subset (List.subset_append_left _ _)
    have hright : Meets key (Node.toList h right) :=
      hmeets.subset fun entry hentry =>
        List.mem_append_right _ (List.mem_cons_of_mem _ hentry)
    have hmiddle : key.isComparable middle.key = true :=
      hmeets middle (List.mem_append_right _ List.mem_cons_self)
    obtain ⟨hchildLeft, hchildRight⟩ := childAt_replace_two hi left right middle
    dsimp only
    rw [Action.on_set_bind, Action.on_lift_bind, Value.compareM, if_pos hmiddle]
    cases key.compare middle.key with
    | eq => rfl
    | lt =>
      dsimp only
      have hbelow := hdescend left arena.taken hleft
      rw [← hchildLeft] at hbelow
      rw [onChild_on hbelow, hchildLeft, replace_two_left hi]
    | gt =>
      dsimp only
      have hbelow := hdescend right arena.taken hright
      rw [← hchildRight] at hbelow
      rw [onChild_on hbelow, hchildRight, replace_two_right hi]

/-- A position is added to a subtree as it is where no comparison can fail. -/
theorem Node.insertM_descends (degree : Nat) (key : Value) (position : π) (h : Nat) :
    Descends key (insertM degree key position h) (insert degree key position h) := by
  induction h with
  | zero =>
    intro node arena hmeets
    change Leaf π at node
    have hplace : placeM key node.entries = .ok (place key node.entries) := placeM_eq hmeets
    rw [insertM, Action.on_get_bind]
    dsimp only
    rw [Action.on_lift_bind, hplace]
    rfl
  | succ h ih =>
    intro node arena hmeets
    change Branch π (Node π h) at node
    have hplace : placeM key node.entries = .ok (place key node.entries) := by
      refine placeM_eq (hmeets.subset fun entry hentry => ?_)
      rw [toList_branch]
      exact List.mem_append_left _ ((entries_sublist_spread _).subset hentry)
    have hgrow (hmeets : Meets key (toList h (node.childAt (place key node.entries)))) :=
      Branch.growM_on degree position ih (node.place_le key) hmeets arena
    rw [insertM, Action.on_get_bind]
    dsimp only
    rw [Action.on_lift_bind, hplace, insert]
    dsimp only
    -- The key meets the child that it goes to, in front of an own entry or behind all of them.
    cases hdrop : node.pairs.drop (place key node.entries) with
    | nil =>
      have hchild : node.childAt (place key node.entries) = node.last := by
        rw [Branch.childAt, hdrop]
      rw [hchild] at hgrow
      refine hgrow (hmeets.subset fun entry hentry => ?_)
      rw [toList_branch]
      exact List.mem_append_right _ hentry
    | cons pair after =>
      obtain ⟨child, entry⟩ := pair
      have hchild : node.childAt (place key node.entries) = child := by
        rw [Branch.childAt, hdrop]
      rw [hchild] at hgrow
      dsimp only
      split
      · rfl
      · refine hgrow (hmeets.subset fun entry hentry => ?_)
        rw [Branch.toList_of_drop hdrop]
        exact List.mem_append_right _ (List.mem_append_left _ hentry)

/-- A position is added under a key that meets the tree. -/
theorem insertM_on {tree : BTree π} (hmeets : Meets key (Node.toList tree.depth tree.root))
    (position : π) : (insertM key position).on tree = (.ok (), tree.insert key position) := by
  have hdescends := Node.insertM_descends tree.order.degree key position tree.depth
  have hsize (isNew : Bool) :
      (if (Except.ok isNew : Except Error Bool).toOption = some true then tree.size + 1
        else tree.size) = tree.size + isNew.toNat := by
    cases isNew <;> rfl
  rw [insertM, Action.on_of]
  dsimp only
  generalize hinsert : tree.insert key position = result
  cases hinsert ▸ tree.inserts key position with
  | below hroom hbelow =>
    subst hbelow
    rw [hroom, if_neg Bool.false_ne_true, hdescends tree.root tree.arena hmeets]
    dsimp only
    rw [hsize]
    rfl
  | above hfull hgrown =>
    -- The new root has the old one as its only child, at the place 0.
    let above : Branch π (Node π tree.depth) := ⟨tree.arena.next, [], tree.root⟩
    have hchild : above.childAt 0 = tree.root := rfl
    have hgrow := Branch.growM_on tree.order.degree position hdescends
      (Nat.zero_le above.pairs.length) hmeets tree.arena.taken
    rw [hchild, hgrown] at hgrow
    rw [if_pos hfull, hgrow]
    dsimp only
    rw [hsize]
    rfl

end

end BTree

end RelStore
