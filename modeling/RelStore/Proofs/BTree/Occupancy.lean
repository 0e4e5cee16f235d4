import RelStore.Proofs.BTree.Insertion
import RelStore.Proofs.BTree.Removal

/-!
# What nodes hold, whatever the order of the keys

Nothing here asks that keys can be ordered. A branch has its `children` and its entries, one fewer.
A node is `Filled` between two bounds when it and all nodes below it have at least the lower number
of entries and fewer than the upper one. An insertion keeps the upper bound because it splits full
children on its way, and a lower bound if the halves of a full node reach it
(`Node.filled_insert`); a removal keeps the upper bound (`Node.filled_remove?`). The list of entries
changes in one place only (`Puts`, `Cuts`).
-/

namespace RelStore.BTree

variable {π α : Type} {h : Nat}

/-! ## Children -/

/-- The children of a branch in order. -/
def Branch.children (branch : Branch π α) : List α := branch.pairs.map (·.1) ++ [branch.last]

/-- What has become of a child: itself, or its two halves. -/
def Grown.children : Grown π α → List α
  | .one child => [child]
  | .two left _ right => [left, right]

namespace Branch

/-- A branch has one child more than entries. -/
theorem length_children (branch : Branch π α) :
    branch.children.length = branch.pairs.length + 1 := by
  rw [children, List.length_append, List.length_map, List.length_singleton]

/-- A branch that takes back a child has what has become of it in its place. -/
theorem exists_children_replace (branch : Branch π α) (i : Nat) :
    ∃ before after, branch.children = before ++ branch.childAt i :: after ∧
      (i ≤ branch.pairs.length → before.length = i) ∧
      ∀ grown, (branch.replace i grown).children = before ++ (grown.children ++ after) := by
  unfold childAt
  split
  · next hdrop =>
    refine ⟨branch.pairs.map (·.1), [], rfl, fun hi => ?_, fun grown => ?_⟩
    · have hlength := List.drop_eq_nil_iff.mp hdrop
      rw [List.length_map]
      omega
    · cases grown with
      | one child =>
        rw [replace, hdrop]
        rfl
      | two left middle right =>
        rw [replace, hdrop]
        simp [children, Grown.children]
  · next child entry after hdrop =>
    refine ⟨(branch.pairs.take i).map (·.1), after.map (·.1) ++ [branch.last], ?_, fun hi => ?_,
      fun grown => ?_⟩
    · rw [children]
      conv_lhs => rw [← List.take_append_drop i branch.pairs, hdrop]
      rw [List.map_append, List.map_cons, List.append_assoc, List.cons_append]
    · rw [List.length_map, List.length_take_of_le hi]
    · cases grown with
      | one child =>
        rw [replace, hdrop]
        simp [children, Grown.children]
      | two left middle right =>
        rw [replace, hdrop]
        simp [children, Grown.children]

/-- A branch has the child at a place. -/
theorem childAt_mem (branch : Branch π α) (i : Nat) : branch.childAt i ∈ branch.children := by
  obtain ⟨before, after, hchildren, -, -⟩ := branch.exists_children_replace i
  rw [hchildren]
  exact List.mem_append_right _ List.mem_cons_self

/-- A branch that takes back a child has an entry more for a child more. -/
theorem length_replace (branch : Branch π α) (i : Nat) (grown : Grown π α) :
    (branch.replace i grown).pairs.length + 1 = branch.pairs.length + grown.children.length := by
  have hsplit := congrArg List.length (List.take_append_drop i branch.pairs)
  rw [List.length_append] at hsplit
  cases grown with
  | one child =>
    rw [replace]
    split
    · rfl
    · next hdrop =>
      rw [hdrop] at hsplit
      simp only [Grown.children, List.length_append, List.length_cons, List.length_nil] at hsplit ⊢
      omega
  | two left middle right =>
    rw [replace]
    split
    · simp only [Grown.children, List.length_append, List.length_cons, List.length_nil]
    · next hdrop =>
      rw [hdrop] at hsplit
      simp only [Grown.children, List.length_append, List.length_cons, List.length_nil] at hsplit ⊢
      omega

end Branch

/-! ## The cases of an insertion -/

section

variable [DecidableEq π] {degree : Nat} {key : Value} {position : π}

/-- What an insertion into a leaf leaves. -/
inductive Leaf.Inserts (key : Value) (position : π) (leaf : Leaf π) (arena : Arena) :
    Inserted (Node π 0) → Prop where
  /-- There is a new entry. -/
  | fresh {before after : List (Entry π)} (hentries : leaf.entries = before ++ after) :
      Inserts key position leaf arena
        ⟨(⟨leaf.slot, before ++ ⟨key, [position]⟩ :: after⟩ : Leaf π), arena, true⟩
  /-- An entry has the position added. -/
  | joined {before after : List (Entry π)} {entry : Entry π}
      (hentries : leaf.entries = before ++ entry :: after) :
      Inserts key position leaf arena
        ⟨(⟨leaf.slot, before ++ entry.add position :: after⟩ : Leaf π), arena, false⟩

/-- An insertion into a leaf makes an entry or adds to one. -/
theorem Leaf.inserts {leaf : Leaf π} {arena : Arena} {inserted : Inserted (Node π 0)}
    (hinsert : Node.insert degree key position 0 (leaf : Node π 0) arena = inserted) :
    leaf.Inserts key position arena inserted := by
  have hsplit := List.take_append_drop (place key leaf.entries) leaf.entries
  subst hinsert
  rw [Node.insert]
  split
  · next hdrop =>
    rw [hdrop] at hsplit
    exact .fresh hsplit.symm
  · next entry after hdrop =>
    rw [hdrop] at hsplit
    split
    · exact .joined hsplit.symm
    · exact .fresh hsplit.symm

/-- What an insertion into a branch leaves. -/
inductive Branch.Inserts (degree : Nat) (key : Value) (position : π)
    (branch : Branch π (Node π h)) (arena : Arena) : Inserted (Node π (h + 1)) → Prop where
  /-- An own entry has the position added. -/
  | own {before after : List (Node π h × Entry π)} {child : Node π h} {entry : Entry π}
      (hpairs : branch.pairs = before ++ (child, entry) :: after) :
      Inserts degree key position branch arena
        ⟨(⟨branch.slot, before ++ (child, entry.add position) :: after, branch.last⟩ :
          Branch π (Node π h)), arena, false⟩
  /-- A child has grown. -/
  | below (i : Nat) {grown : Inserted (Grown π (Node π h))}
      (hgrown : Node.grow degree key position (Node.insert degree key position h)
        (branch.childAt i) arena = grown) :
      Inserts degree key position branch arena
        ⟨(branch.replace i grown.result : Branch π (Node π h)), grown.arena, grown.isNew⟩

/-- An insertion into a branch adds to an own entry or goes on below a child. -/
theorem Branch.inserts {branch : Branch π (Node π h)} {arena : Arena}
    {inserted : Inserted (Node π (h + 1))}
    (hinsert : Node.insert degree key position (h + 1) (branch : Node π (h + 1)) arena =
      inserted) : branch.Inserts degree key position arena inserted := by
  have hsplit := List.take_append_drop (place key branch.entries) branch.pairs
  subst hinsert
  rw [Node.insert]
  split
  · next hdrop =>
    refine .below _ (?_ : Node.grow _ _ _ _ (branch.childAt _) arena = _)
    rw [childAt, hdrop]
  · next child entry after hdrop =>
    rw [hdrop] at hsplit
    split
    · exact .own hsplit.symm
    · refine .below _ (?_ : Node.grow _ _ _ _ (branch.childAt _) arena = _)
      rw [childAt, hdrop]

end

/-! ## The cases of a removal -/

section

variable [DecidableEq π] {key : Value} {position : π}

/-- What a removal from a leaf can leave. -/
inductive Leaf.Removes (position : π) (leaf : Leaf π) : Removed (Node π 0) → Prop where
  /-- The entry keeps its other positions. -/
  | kept {before after : List (Entry π)} {entry : Entry π}
      (hentries : leaf.entries = before ++ entry :: after)
      (hrest : entry.positions.erase position ≠ []) :
      Removes position leaf ⟨(⟨leaf.slot, before ++
        ⟨entry.key, entry.positions.erase position⟩ :: after⟩ : Leaf π), false, []⟩
  /-- The entry goes with its last position. -/
  | gone {before after : List (Entry π)} {entry : Entry π}
      (hentries : leaf.entries = before ++ entry :: after) :
      Removes position leaf ⟨(⟨leaf.slot, before ++ after⟩ : Leaf π), true, []⟩

/-- A removal from a leaf takes the position out of one entry. -/
theorem Leaf.removes {leaf : Leaf π} {removed : Removed (Node π 0)}
    (hremove : Node.remove? key position 0 (leaf : Node π 0) = some removed) :
    leaf.Removes position removed := by
  have hsplit := List.take_append_drop (place key leaf.entries) leaf.entries
  rw [Node.remove?] at hremove
  split at hremove
  · cases hremove
  · next entry after hdrop =>
    rw [hdrop] at hsplit
    split at hremove
    · split at hremove
      · cases hremove
        exact .gone hsplit.symm
      · next hrest =>
        cases hremove
        exact .kept hsplit.symm hrest
    · cases hremove

/-- What a removal from a branch can leave. -/
inductive Branch.Removes (key : Value) (position : π) (branch : Branch π (Node π h)) :
    Removed (Node π (h + 1)) → Prop where
  /-- The position is taken out below the last child. -/
  | last {below : Removed (Node π h)}
      (hbelow : Node.remove? key position h branch.last = some below) :
      Removes key position branch ⟨(⟨branch.slot, branch.pairs, below.result⟩ :
        Branch π (Node π h)), below.keyGone, below.released⟩
  /-- The position is taken out below another child. -/
  | inner {before after : List (Node π h × Entry π)} {child : Node π h} {entry : Entry π}
      (hpairs : branch.pairs = before ++ (child, entry) :: after) {below : Removed (Node π h)}
      (hbelow : Node.remove? key position h child = some below) :
      Removes key position branch ⟨(⟨branch.slot, before ++ ([(below.result, entry)] ++ after),
        branch.last⟩ : Branch π (Node π h)), below.keyGone, below.released⟩
  /-- An own entry keeps its other positions. -/
  | kept {before after : List (Node π h × Entry π)} {child : Node π h} {entry : Entry π}
      (hpairs : branch.pairs = before ++ (child, entry) :: after)
      (hrest : entry.positions.erase position ≠ []) :
      Removes key position branch ⟨(⟨branch.slot, before ++
        ([(child, ⟨entry.key, entry.positions.erase position⟩)] ++ after), branch.last⟩ :
          Branch π (Node π h)), false, []⟩
  /-- An own entry goes with its last position, and the greatest one before it takes its place. -/
  | exchanged {before after : List (Node π h × Entry π)} {child : Node π h} {entry : Entry π}
      (hpairs : branch.pairs = before ++ (child, entry) :: after)
      {popped : Popped π (Node π h)} (hpop : Node.popMax h child = some popped) :
      Removes key position branch ⟨(⟨branch.slot, before ++
        ([(popped.result, popped.entry)] ++ after), branch.last⟩ : Branch π (Node π h)), true,
          popped.released⟩
  /-- An own entry goes with its last position, and with the child before it, which holds none. -/
  | dropped {before after : List (Node π h × Entry π)} {child : Node π h} {entry : Entry π}
      (hpairs : branch.pairs = before ++ (child, entry) :: after)
      (hpop : Node.popMax h child = none) :
      Removes key position branch ⟨(⟨branch.slot, before ++ ([] ++ after), branch.last⟩ :
        Branch π (Node π h)), true, Node.slots h child⟩

/-- A removal from a branch takes the position out below a child or out of an own entry. -/
theorem Branch.removes {branch : Branch π (Node π h)} {removed : Removed (Node π (h + 1))}
    (hremove : Node.remove? key position (h + 1) (branch : Node π (h + 1)) = some removed) :
    branch.Removes key position removed := by
  have hsplit := List.take_append_drop (place key branch.entries) branch.pairs
  rw [Node.remove?] at hremove
  split at hremove
  · obtain ⟨below, hbelow, rfl⟩ := Option.map_eq_some_iff.mp hremove
    exact .last hbelow
  · next child entry after hdrop =>
    rw [hdrop] at hsplit
    split at hremove
    · split at hremove
      · split at hremove
        · split at hremove
          · next popped hpop =>
            cases hremove
            exact .exchanged hsplit.symm hpop
          · next hpop =>
            cases hremove
            exact .dropped hsplit.symm hpop
        · next hrest =>
          cases hremove
          exact .kept hsplit.symm hrest
      · cases hremove
    · obtain ⟨below, hbelow, rfl⟩ := Option.map_eq_some_iff.mp hremove
      exact .inner hsplit.symm hbelow

end

/-! ## Bounds on the number of entries -/

namespace Node

/-- Every node of a subtree has at least `least` entries and fewer than `degree`. -/
def Filled (least degree : Nat) : (h : Nat) → Node π h → Prop
  | 0, (leaf : Leaf π) => least ≤ leaf.entries.length ∧ leaf.entries.length < degree
  | h + 1, (branch : Branch π (Node π h)) =>
    (least ≤ branch.pairs.length ∧ branch.pairs.length < degree) ∧
      ∀ child ∈ branch.children, Filled least degree h child

/-- A node of a subtree within bounds is itself within them. -/
theorem Filled.own {least degree : Nat} {node : Node π h} (hnode : Filled least degree h node) :
    least ≤ (ownEntries h node).length ∧ (ownEntries h node).length < degree := by
  cases h with
  | zero => exact hnode
  | succ h =>
    change Branch π (Node π h) at node
    rw [ownEntries, Branch.entries, List.length_map]
    exact hnode.1

/-- A node that is not full has room for an entry. -/
theorem Filled.room {least degree : Nat} {node : Node π h} (hnode : Filled least degree h node)
    (hroom : isFull degree h node = false) : (ownEntries h node).length + 1 < degree := by
  have hlt := hnode.own.2
  rw [isFull, beq_eq_false_iff_ne] at hroom
  omega

/-- A full node has halves. -/
theorem exists_halves? {degree : Nat} (hdegree : 2 ≤ degree) (slot : Nat) {node : Node π h}
    (hfull : isFull degree h node = true) : ∃ halves, halves? degree slot h node = some halves := by
  rw [isFull, beq_iff_eq] at hfull
  have hmiddle {β : Type} {xs : List β} (hlength : xs.length = degree - 1) :
      xs.drop ((degree - 1) / 2) ≠ [] := by
    rw [Ne, List.drop_eq_nil_iff]
    omega
  cases h with
  | zero =>
    change Leaf π at node
    rw [halves?]
    split
    · next hdrop => exact absurd hdrop (hmiddle hfull)
    · exact ⟨_, rfl⟩
  | succ h =>
    change Branch π (Node π h) at node
    rw [ownEntries, Branch.entries, List.length_map] at hfull
    rw [halves?]
    split
    · next hdrop => exact absurd hdrop (hmiddle hfull)
    · exact ⟨_, rfl⟩

/-- A child that is not split is not full. -/
theorem isFull_of_split?_none {degree : Nat} (hdegree : 2 ≤ degree) {slot : Nat} {node : Node π h}
    (hsplit : split? degree slot h node = none) : isFull degree h node = false := by
  rw [split?] at hsplit
  split at hsplit
  · next hfull =>
    obtain ⟨halves, hhalves⟩ := exists_halves? hdegree slot hfull
    rw [hhalves] at hsplit
    cases hsplit
  · next hroom => exact Bool.eq_false_iff.mpr hroom

/-- A child that is split is full, and its parts are its halves. -/
theorem halves?_of_split? {degree slot : Nat} {node : Node π h}
    {halves : Node π h × Entry π × Node π h} (hsplit : split? degree slot h node = some halves) :
    isFull degree h node = true ∧ halves? degree slot h node = some halves := by
  rw [split?] at hsplit
  split at hsplit
  · next hfull => exact ⟨hfull, hsplit⟩
  · cases hsplit

/-- The halves of a full node have its entries but the middle one. -/
theorem length_halves? {degree slot : Nat} {node left right : Node π h} {middle : Entry π}
    (hfull : isFull degree h node = true)
    (hhalves : halves? degree slot h node = some (left, middle, right)) :
    (ownEntries h left).length = (degree - 1) / 2 ∧
      (ownEntries h right).length + (degree - 1) / 2 + 1 = degree - 1 := by
  rw [isFull, beq_iff_eq] at hfull
  cases h with
  | zero =>
    change Leaf π at node
    change node.entries.length = degree - 1 at hfull
    rw [halves?] at hhalves
    split at hhalves
    · cases hhalves
    · next entry after hdrop =>
      cases hhalves
      have hlength := congrArg List.length hdrop
      rw [List.length_drop, List.length_cons] at hlength
      simp only [ownEntries, List.length_take]
      omega
  | succ h =>
    change Branch π (Node π h) at node
    rw [ownEntries, Branch.entries, List.length_map] at hfull
    rw [halves?] at hhalves
    split at hhalves
    · cases hhalves
    · next child entry after hdrop =>
      cases hhalves
      have hlength := congrArg List.length hdrop
      rw [List.length_drop, List.length_cons] at hlength
      simp only [ownEntries, Branch.entries, List.length_map, List.length_take]
      omega

/-- The halves of a branch have its children. -/
theorem children_halves? {degree slot : Nat} {branch left right : Branch π (Node π h)}
    {middle : Entry π}
    (hhalves : halves? degree slot (h + 1) (branch : Node π (h + 1)) = some (left, middle, right)) :
    branch.children = left.children ++ right.children := by
  rw [halves?] at hhalves
  split at hhalves
  · cases hhalves
  · next child entry after hdrop =>
    cases hhalves
    rw [Branch.children]
    conv_lhs => rw [← List.take_append_drop ((degree - 1) / 2) branch.pairs, hdrop]
    simp [Branch.children]

/-- The halves of a full node are within bounds if the node is and the halves reach the lower
one. -/
theorem filled_halves? {least degree slot : Nat} {node left right : Node π h} {middle : Entry π}
    (hleft : least ≤ (degree - 1) / 2) (hright : least + (degree - 1) / 2 + 1 < degree)
    (hnode : Filled least degree h node) (hfull : isFull degree h node = true)
    (hhalves : halves? degree slot h node = some (left, middle, right)) :
    Filled least degree h left ∧ Filled least degree h right := by
  obtain ⟨hl, hr⟩ := length_halves? hfull hhalves
  cases h with
  | zero =>
    change (ownEntries 0 left).length = _ at hl
    exact ⟨⟨by change least ≤ (ownEntries 0 left).length; omega,
      by change (ownEntries 0 left).length < degree; omega⟩,
      ⟨by change least ≤ (ownEntries 0 right).length; omega,
      by change (ownEntries 0 right).length < degree; omega⟩⟩
  | succ h =>
    obtain ⟨-, hchildren⟩ := hnode
    rw [children_halves? hhalves] at hchildren
    obtain ⟨hleftc, hrightc⟩ := List.forall_mem_append.mp hchildren
    rw [ownEntries, Branch.entries, List.length_map] at hl hr
    exact ⟨⟨⟨by omega, by omega⟩, hleftc⟩, ⟨⟨by omega, by omega⟩, hrightc⟩⟩

/-! ## Bounds and insertion -/

/-- A branch with room for an entry that takes back a child is within bounds if what has become of
the child is. -/
theorem filled_replace {least degree : Nat} {branch : Branch π (Node π h)}
    (hbranch : Filled least degree (h + 1) (branch : Node π (h + 1)))
    (hroom : branch.pairs.length + 1 < degree) (i : Nat) {grown : Grown π (Node π h)}
    (hgrown : ∀ child ∈ grown.children, Filled least degree h child) :
    Filled least degree (h + 1) (branch.replace i grown : Node π (h + 1)) := by
  obtain ⟨⟨hleast, -⟩, hchildren⟩ := hbranch
  have hlength := branch.length_replace i grown
  have hgrownLength : grown.children.length = 1 ∨ grown.children.length = 2 := by
    cases grown with
    | one child => exact .inl rfl
    | two left middle right => exact .inr rfl
  obtain ⟨before, after, hsplit, -, hreplace⟩ := branch.exists_children_replace i
  rw [hsplit] at hchildren
  obtain ⟨hbefore, hrest⟩ := List.forall_mem_append.mp hchildren
  refine ⟨by omega, ?_⟩
  rw [hreplace]
  exact List.forall_mem_append.mpr
    ⟨hbefore, List.forall_mem_append.mpr ⟨hgrown, (List.forall_mem_cons.mp hrest).2⟩⟩

section

variable [DecidableEq π] {least degree : Nat} (hleft : least ≤ (degree - 1) / 2)
  (hright : least + (degree - 1) / 2 + 1 < degree) (key : Value) (position : π)
include hleft hright

/-- What becomes of a child within bounds is within them, if descending into a node with room for an
entry keeps the node within them. -/
theorem filled_grow {descend : Node π h → Arena → Inserted (Node π h)}
    (hdescend : ∀ (node : Node π h) (arena : Arena), Filled least degree h node →
      (ownEntries h node).length + 1 < degree → Filled least degree h (descend node arena).result)
    (child : Node π h) (arena : Arena) (hchild : Filled least degree h child) :
    ∀ grown ∈ (grow degree key position descend child arena).result.children,
      Filled least degree h grown := by
  unfold grow
  split
  · next hsplit =>
    have hroom := hchild.room (isFull_of_split?_none (by omega) hsplit)
    exact List.forall_mem_singleton.mpr (hdescend child arena hchild hroom)
  · next left middle right hsplit =>
    obtain ⟨hfull, hhalves⟩ := halves?_of_split? hsplit
    obtain ⟨hl, hr⟩ := filled_halves? hleft hright hchild hfull hhalves
    -- Both halves have lost an entry, so there is room in either of them.
    obtain ⟨hlengthl, hlengthr⟩ := length_halves? hfull hhalves
    split
    · exact List.forall_mem_cons.mpr ⟨hl, List.forall_mem_singleton.mpr hr⟩
    · have hbelow := hdescend left arena.taken hl (by omega)
      exact List.forall_mem_cons.mpr ⟨hbelow, List.forall_mem_singleton.mpr hr⟩
    · have hbelow := hdescend right arena.taken hr (by omega)
      exact List.forall_mem_cons.mpr ⟨hl, List.forall_mem_singleton.mpr hbelow⟩

/-- An insertion into a subtree with room for an entry keeps it within bounds that the halves of
full nodes keep to. -/
theorem filled_insert (node : Node π h) (arena : Arena) (hnode : Filled least degree h node)
    (hroom : (ownEntries h node).length + 1 < degree) :
    Filled least degree h (insert degree key position h node arena).result := by
  induction h generalizing arena with
  | zero =>
    change Leaf π at node
    obtain ⟨hleast, -⟩ := hnode
    change node.entries.length + 1 < degree at hroom
    generalize hinsert : insert degree key position 0 node arena = inserted
    cases Leaf.inserts hinsert with
    | fresh hentries =>
      rw [hentries, List.length_append] at hleast hroom
      simp only [Filled, List.length_append, List.length_cons]
      omega
    | joined hentries =>
      rw [hentries, List.length_append, List.length_cons] at hleast hroom
      simp only [Filled, List.length_append, List.length_cons]
      omega
  | succ h ih =>
    change Branch π (Node π h) at node
    rw [ownEntries, Branch.entries, List.length_map] at hroom
    generalize hinsert : insert degree key position (h + 1) node arena = inserted
    cases Branch.inserts hinsert with
    | own hpairs =>
      rw [Filled, Branch.children, hpairs] at hnode
      simpa [Filled, Branch.children] using hnode
    | below i hgrown =>
      subst hgrown
      refine filled_replace hnode hroom i ?_
      exact filled_grow hleft hright key position ih _ arena (hnode.2 _ (node.childAt_mem i))

end

/-- A subtree's root has no fewer entries after an insertion. -/
theorem length_ownEntries_insert [DecidableEq π] (degree : Nat) (key : Value) (position : π)
    (node : Node π h) (arena : Arena) : (ownEntries h node).length ≤
      (ownEntries h (insert degree key position h node arena).result).length := by
  cases h with
  | zero =>
    change Leaf π at node
    generalize hinsert : insert degree key position 0 node arena = inserted
    cases Leaf.inserts hinsert with
    | fresh hentries =>
      simp only [ownEntries, hentries, List.length_append, List.length_cons]
      omega
    | joined hentries => simp only [ownEntries, hentries, List.length_append, List.length_cons,
        Nat.le_refl]
  | succ h =>
    change Branch π (Node π h) at node
    generalize hinsert : insert degree key position (h + 1) node arena = inserted
    simp only [ownEntries, Branch.entries, List.length_map]
    cases Branch.inserts hinsert with
    | own hpairs => simp only [hpairs, List.length_append, List.length_cons, Nat.le_refl]
    | @below i grown hgrown =>
      have hlength := node.length_replace i grown.result
      have hpos : 0 < grown.result.children.length := by
        cases grown.result with
        | one child => exact Nat.zero_lt_one
        | two left middle right => exact Nat.zero_lt_two
      change node.pairs.length ≤ (node.replace i grown.result).pairs.length
      omega

/-! ## Bounds and removal -/

section

variable {degree : Nat}

/-- A subtree whose greatest entry has been taken out has no more entries in any node. -/
theorem filled_popMax (node : Node π h) (hnode : Filled 0 degree h node)
    {popped : Popped π (Node π h)} (hpop : popMax h node = some popped) :
    Filled 0 degree h popped.result := by
  induction h with
  | zero =>
    change Leaf π at node
    obtain ⟨entry, -, rfl⟩ := Option.map_eq_some_iff.mp hpop
    have hlt := hnode.2
    simp only [Filled, List.length_dropLast]
    omega
  | succ h ih =>
    change Branch π (Node π h) at node
    obtain ⟨⟨-, hlt⟩, hchildren⟩ := hnode
    obtain ⟨hinner, hlast⟩ := List.forall_mem_append.mp hchildren
    rw [popMax] at hpop
    split at hpop
    · next below hbelow =>
      cases hpop
      have hresult := ih node.last (List.forall_mem_singleton.mp hlast) hbelow
      exact ⟨⟨Nat.zero_le _, hlt⟩,
        List.forall_mem_append.mpr ⟨hinner, List.forall_mem_singleton.mpr hresult⟩⟩
    · -- The last child goes, and the one in front of the last entry is the last one then.
      obtain ⟨⟨child, entry⟩, hpair, rfl⟩ := Option.map_eq_some_iff.mp hpop
      obtain ⟨before, hpairs⟩ := List.getLast?_eq_some_iff.mp hpair
      rw [hpairs] at hinner hlt
      rw [List.length_append, List.length_singleton] at hlt
      simp only [hpairs, List.dropLast_concat]
      rw [List.map_append] at hinner
      exact ⟨⟨Nat.zero_le _, by simp only; omega⟩, hinner⟩

variable [DecidableEq π] {key : Value} {position : π}

/-- A subtree from which a position has been taken out has no more entries in any node. -/
theorem filled_remove? (node : Node π h) (hnode : Filled 0 degree h node)
    {removed : Removed (Node π h)} (hremove : remove? key position h node = some removed) :
    Filled 0 degree h removed.result := by
  induction h with
  | zero =>
    change Leaf π at node
    have hlt := hnode.2
    cases Leaf.removes hremove with
    | kept hentries =>
      rw [hentries, List.length_append, List.length_cons] at hlt
      exact ⟨Nat.zero_le _, by simpa using hlt⟩
    | gone hentries =>
      rw [hentries, List.length_append, List.length_cons] at hlt
      exact ⟨Nat.zero_le _, by simp only [List.length_append]; omega⟩
  | succ h ih =>
    change Branch π (Node π h) at node
    obtain ⟨⟨-, hlt⟩, hchildren⟩ := hnode
    -- Where a pair was, there is at most one pair, and its child is within bounds.
    have instead {before after pairs : List (Node π h × Entry π)} {pair : Node π h × Entry π}
        (hnode : node.pairs = before ++ pair :: after) (hone : pairs.length ≤ 1)
        (hpairs : ∀ pair ∈ pairs, Filled 0 degree h pair.1) :
        Filled 0 degree (h + 1)
          (⟨node.slot, before ++ (pairs ++ after), node.last⟩ : Branch π (Node π h)) := by
      rw [Branch.children, hnode, List.map_append, List.map_cons, List.append_assoc] at hchildren
      obtain ⟨hbefore, hrest⟩ := List.forall_mem_append.mp hchildren
      rw [hnode, List.length_append, List.length_cons] at hlt
      refine ⟨⟨Nat.zero_le _, by simp only [List.length_append]; omega⟩, ?_⟩
      simp only [Branch.children, List.map_append, List.append_assoc]
      refine List.forall_mem_append.mpr ⟨hbefore, List.forall_mem_append.mpr ⟨?_, ?_⟩⟩
      · exact List.forall_mem_map.mpr hpairs
      · exact (List.forall_mem_cons.mp hrest).2
    have hchild {before after : List (Node π h × Entry π)} {child : Node π h} {entry : Entry π}
        (hnode : node.pairs = before ++ (child, entry) :: after) : Filled 0 degree h child := by
      refine hchildren child (List.mem_append_left _ ?_)
      rw [hnode]
      simp
    cases Branch.removes hremove with
    | last hbelow =>
      obtain ⟨hinner, hlast⟩ := List.forall_mem_append.mp hchildren
      have hresult := ih node.last (List.forall_mem_singleton.mp hlast) hbelow
      exact ⟨⟨Nat.zero_le _, hlt⟩,
        List.forall_mem_append.mpr ⟨hinner, List.forall_mem_singleton.mpr hresult⟩⟩
    | inner hpairs hbelow =>
      have hresult := ih _ (hchild hpairs) hbelow
      exact instead hpairs (Nat.le_refl 1) (List.forall_mem_singleton.mpr hresult)
    | kept hpairs =>
      exact instead hpairs (Nat.le_refl 1) (List.forall_mem_singleton.mpr (hchild hpairs))
    | exchanged hpairs hpop =>
      have hresult := filled_popMax _ (hchild hpairs) hpop
      exact instead hpairs (Nat.le_refl 1) (List.forall_mem_singleton.mpr hresult)
    | dropped hpairs hpop => exact instead hpairs (Nat.zero_le 1) (by simp)

end

end Node

/-! ## Whole trees -/

section

variable [DecidableEq π] {key : Value} {position : π} {tree : BTree π}

/-- What an insertion leaves of a tree. -/
inductive Inserts (key : Value) (position : π) (tree : BTree π) : BTree π → Prop where
  /-- The root has room for an entry, and the insertion goes on below it. -/
  | below {inserted : Inserted (Node π tree.depth)}
      (hroom : Node.isFull tree.order.degree tree.depth tree.root = false)
      (hinsert : Node.insert tree.order.degree key position tree.depth tree.root tree.arena =
        inserted) :
      Inserts key position tree ⟨tree.order, tree.depth, inserted.result, inserted.arena,
        tree.size + inserted.isNew.toNat⟩
  /-- The root is full, and its halves get a new root. -/
  | above {left right : Node π tree.depth} {middle : Entry π} {arena : Arena} {isNew : Bool}
      (hfull : Node.isFull tree.order.degree tree.depth tree.root = true)
      (hgrown : Node.grow tree.order.degree key position
        (Node.insert tree.order.degree key position tree.depth) tree.root tree.arena.taken =
          ⟨.two left middle right, arena, isNew⟩) :
      Inserts key position tree ⟨tree.order, tree.depth + 1,
        (⟨tree.arena.next, [(left, middle)], right⟩ : Branch π (Node π tree.depth)), arena,
        tree.size + isNew.toNat⟩

/-- A full child grows into two. -/
theorem Node.result_grow_ne_one {degree : Nat} (hdegree : 2 ≤ degree)
    {descend : Node π h → Arena → Inserted (Node π h)} {child : Node π h} {arena : Arena}
    (hfull : Node.isFull degree h child = true) (one : Node π h) :
    (Node.grow degree key position descend child arena).result ≠ .one one := by
  unfold Node.grow
  split
  · next hsplit =>
    rw [Node.isFull_of_split?_none hdegree hsplit] at hfull
    cases hfull
  · split
    all_goals simp only [ne_eq, reduceCtorEq, not_false_eq_true]

/-- An insertion into a tree goes on below its root, or above it if it is full. -/
theorem inserts (tree : BTree π) (key : Value) (position : π) :
    tree.Inserts key position (tree.insert key position) := by
  have hsize (isNew : Bool) :
      (if isNew = true then tree.size + 1 else tree.size) = tree.size + isNew.toNat := by
    cases isNew <;> rfl
  unfold insert
  dsimp only
  simp only [hsize]
  split
  · next hfull =>
    have hdegree := tree.order.inRange.1
    split
    · next hone => exact absurd hone (Node.result_grow_ne_one (by omega) hfull _)
    · next htwo => exact .above hfull (by rw [← htwo])
  · next hroom => exact .below (Bool.eq_false_iff.mpr hroom) rfl

/-- An insertion leaves the order of a tree. -/
theorem order_insert : (tree.insert key position).order = tree.order := by
  generalize hinsert : tree.insert key position = result
  cases hinsert ▸ tree.inserts key position with
  | below hroom hbelow => rfl
  | above hfull hgrown => rfl

/-- An insertion into a tree keeps its nodes within bounds that the halves of full nodes and a root
of one entry keep to. -/
theorem filled_insert {least : Nat} (hone : least ≤ 1) (hleft : least ≤ (tree.order.degree - 1) / 2)
    (hright : least + (tree.order.degree - 1) / 2 + 1 < tree.order.degree)
    (hfilled : Node.Filled least tree.order.degree tree.depth tree.root) :
    Node.Filled least tree.order.degree (tree.insert key position).depth
      (tree.insert key position).root := by
  generalize hinsert : tree.insert key position = result
  cases hinsert ▸ tree.inserts key position with
  | below hroom hbelow =>
    subst hbelow
    exact Node.filled_insert hleft hright key position tree.root tree.arena hfilled
      (hfilled.room hroom)
  | above hfull hgrown =>
    have hchildren := Node.filled_grow hleft hright key position
      (Node.filled_insert hleft hright key position) tree.root tree.arena.taken hfilled
    rw [hgrown] at hchildren
    exact ⟨⟨hone, by simp only [List.length_singleton]; omega⟩, hchildren⟩

end

end RelStore.BTree
