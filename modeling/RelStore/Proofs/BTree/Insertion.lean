import RelStore.Proofs.BTree.Search

/-!
# What an insertion does to the contents

An insertion adds a position to the list of a subtree as `addTo` does, and it reports the key as new
when no entry has it (`Adds`). A full child is split on the way, which moves entries between nodes
and lists the same (`Node.toList_of_halves?`); whether nodes are full plays no part in it. The
statement about a subtree, `Node.insert_adds`, is proved by induction on its height: one lemma says
that growing a child does to the child's list what descending into it does (`Node.grow_adds`), and
one that a branch takes back its child, whole or in two (`Branch.toList_replace_last`,
`Branch.toList_replace_inner`).
-/

namespace RelStore.BTree

variable {π : Type} {h : Nat}

/-! ## Splitting -/

/-- The entries of a child that has grown, with the one between its halves. -/
def Grown.toList : Grown π (Node π h) → List (Entry π)
  | .one child => Node.toList h child
  | .two left middle right => Node.toList h left ++ middle :: Node.toList h right

namespace Node

/-- The halves of a node and the entry between them list what the node does. -/
theorem toList_of_halves? {degree slot : Nat} {node left right : Node π h} {middle : Entry π}
    (hhalves : halves? degree slot h node = some (left, middle, right)) :
    toList h node = toList h left ++ middle :: toList h right := by
  cases h with
  | zero =>
    change Leaf π at node
    rw [halves?] at hhalves
    split at hhalves
    · cases hhalves
    · next entry after hdrop =>
      cases hhalves
      change node.entries = node.entries.take _ ++ middle :: after
      rw [← hdrop, List.take_append_drop]
  | succ h =>
    change Branch π (Node π h) at node
    rw [halves?] at hhalves
    split at hhalves
    · cases hhalves
    · next child entry after hdrop =>
      cases hhalves
      rw [Branch.toList_of_drop hdrop, toList_branch, toList_branch, List.append_assoc]

end Node

namespace Branch

open Node

/-- A branch that takes back its last child lists the child's entries at the end. -/
theorem toList_replace_last {branch : Branch π (Node π h)} {i : Nat}
    (hdrop : branch.pairs.drop i = []) (grown : Grown π (Node π h)) :
    toList (h + 1) (branch.replace i grown : Node π (h + 1)) =
      spread branch.pairs ++ grown.toList := by
  cases grown with
  | one child =>
    rw [replace, hdrop]
    rfl
  | two left middle right =>
    rw [replace, hdrop]
    change spread (branch.pairs ++ [(left, middle)]) ++ Node.toList h right = _
    rw [spread_append, spread_cons, List.append_assoc, List.append_assoc, List.cons_append]
    rfl

/-- A branch that takes back an inner child lists the child's entries in its place. -/
theorem toList_replace_inner {branch : Branch π (Node π h)} {i : Nat} {child : Node π h}
    {entry : Entry π} {after : List (Node π h × Entry π)}
    (hdrop : branch.pairs.drop i = (child, entry) :: after) (grown : Grown π (Node π h)) :
    toList (h + 1) (branch.replace i grown : Node π (h + 1)) =
      spread (branch.pairs.take i) ++ (grown.toList ++
        entry :: (spread after ++ toList h branch.last)) := by
  cases grown with
  | one child =>
    rw [replace, hdrop]
    exact toList_mk branch.slot _ child entry after branch.last
  | two left middle right =>
    rw [replace, hdrop]
    change spread (branch.pairs.take i ++ (left, middle) :: (right, entry) :: after) ++ _ = _
    rw [spread_append, spread_cons, spread_cons, Grown.toList]
    simp only [List.append_assoc, List.cons_append]

end Branch

/-! ## Adding a position -/

section

variable [DecidableEq π]

/-- Some entries become others by adding a position under a key, which may be new among them. -/
structure Adds (key : Value) (position : π) (entries result : List (Entry π)) (isNew : Bool) :
    Prop where
  /-- The position is added where the key belongs. -/
  result_eq : result = addTo key position entries
  /-- The key is new when no entry has it. -/
  isNew_eq : isNew = (entryOf? key entries).isNone

namespace Adds

variable {key : Value} {position : π} {entries result : List (Entry π)} {isNew : Bool}

/-- Adding to what follows entries before the key is adding to the whole. -/
theorem append_left {before : List (Entry π)} (hbefore : AllBefore before key)
    (hadds : Adds key position entries result isNew) :
    Adds key position (before ++ entries) (before ++ result) isNew := by
  obtain ⟨rfl, rfl⟩ := hadds
  refine ⟨(addTo_append_of_before hbefore entries).symm, ?_⟩
  rw [entryOf?_append_of_lacks_left hbefore.lacks]

/-- Adding to what stands in front of entries after the key is adding to the whole. -/
theorem append_right {entry : Entry π} {after : List (Entry π)}
    (hlt : key.compare entry.key = .lt) (hafter : AllAfter after key)
    (hadds : Adds key position entries result isNew) :
    Adds key position (entries ++ entry :: after) (result ++ entry :: after) isNew := by
  obtain ⟨rfl, rfl⟩ := hadds
  have hrest : AllAfter (entry :: after) key := .cons hlt hafter
  refine ⟨(addTo_append_cons hlt entries after).symm, ?_⟩
  rw [entryOf?_append_of_lacks_right hrest.lacks]

/-- Adding to the entry of the key makes no new key. -/
theorem found (position : π) {entry : Entry π} (heq : key.compare entry.key = .eq)
    (after : List (Entry π)) :
    Adds key position (entry :: after) (entry.add position :: after) false := by
  refine ⟨(addTo_cons_of_eq heq after).symm, ?_⟩
  rw [entryOf?_cons_of_eq heq]
  rfl

/-- Where there is no entry, a new one is made. -/
theorem nil (position : π) :
    Adds key position ([] : List (Entry π)) [⟨key, [position]⟩] true := ⟨rfl, rfl⟩

/-- In front of entries after the key, a new one is made. -/
theorem between (position : π) {entry : Entry π} {after : List (Entry π)}
    (hlt : key.compare entry.key = .lt) (hafter : AllAfter after key) :
    Adds key position (entry :: after) (⟨key, [position]⟩ :: entry :: after) true :=
  (nil position).append_right hlt hafter

end Adds

/-! ## Inserting -/

namespace Node

variable {keys : Set Value} (order : Value.TotalPreorderOn keys) (degree : Nat) {key : Value}
  (hkey : key ∈ keys) (position : π)
include order hkey

/-- Growing a child adds to its list if descending into a node of its height does so. -/
theorem grow_adds {descend : Node π h → Arena → Inserted (Node π h)}
    (hdescend : ∀ (node : Node π h) (arena : Arena), Ordered keys (toList h node) →
      Adds key position (toList h node) (toList h (descend node arena).result)
        (descend node arena).isNew)
    (child : Node π h) (arena : Arena) (hchild : Ordered keys (toList h child)) :
    Adds key position (toList h child) (grow degree key position descend child arena).result.toList
      (grow degree key position descend child arena).isNew := by
  unfold grow
  split
  · exact hdescend child arena hchild
  -- A full child has been split, and the entry between its halves decides which one to go into.
  · next left middle right hsplit =>
    have hhalves : halves? degree arena.next h child = some (left, middle, right) := by
      unfold split? at hsplit
      split at hsplit
      · exact hsplit
      · cases hsplit
    rw [toList_of_halves? hhalves] at hchild ⊢
    obtain ⟨hleft, hrest, hbefore⟩ := ordered_append.mp hchild
    obtain ⟨hmiddle, hright, hafter⟩ := ordered_cons.mp hrest
    have hbefore : AllBefore (toList h left) middle.key := hbefore middle List.mem_cons_self
    split
    · next heq =>
      refine (Adds.found position heq _).append_left fun e he => ?_
      rw [order.congr_right (hleft.mem_keys e he) hkey hmiddle heq]
      exact hbefore e he
    · next hlt =>
      refine (hdescend left arena.taken hleft).append_right hlt fun e he => ?_
      exact order.lt_trans hkey hmiddle (hright.mem_keys e he) hlt (hafter e he)
    · next hgt =>
      have hlt : middle.key.compare key = .lt := by rw [Value.compare_swap, hgt]; rfl
      have hfront : AllBefore (toList h left ++ [middle]) key := by
        refine List.forall_mem_append.mpr ⟨fun e he => ?_, by simpa using hlt⟩
        exact order.lt_trans (hleft.mem_keys e he) hmiddle hkey (hbefore e he) hlt
      have hadds := (hdescend right arena.taken hright).append_left hfront
      rw [List.append_assoc, List.append_assoc] at hadds
      exact hadds

/-- An insertion into an ordered leaf adds the position to its entries. -/
theorem insert_adds_leaf (leaf : Leaf π) (arena : Arena) (hleaf : Ordered keys leaf.entries) :
    Adds key position leaf.entries (toList 0 (insert degree key position 0 leaf arena).result)
      (insert degree key position 0 leaf arena).isNew := by
  have hsplit := List.take_append_drop (place key leaf.entries) leaf.entries
  rw [insert]
  -- The leaf changes at the place of its key only, and what stands before it is passed over.
  cases hleaf.placed order hkey with
  | past hdrop hbefore =>
    rw [hdrop, List.append_nil] at hsplit
    simp only [hdrop, hsplit]
    have hadds := (Adds.nil position).append_left hbefore
    rw [List.append_nil] at hadds
    exact hadds
  | found entry after hdrop heq hbefore hafter =>
    rw [hdrop] at hsplit
    simp only [hdrop, if_pos (Value.sameKey_iff.mpr heq)]
    have hadds := (Adds.found position heq after).append_left hbefore
    rw [hsplit] at hadds
    exact hadds
  | between entry after hdrop hlt hbefore hafter =>
    rw [hdrop] at hsplit
    simp only [hdrop, not_sameKey_of_lt hlt, Bool.false_eq_true, if_false]
    have hadds := (Adds.between position hlt hafter).append_left hbefore
    rw [hsplit] at hadds
    exact hadds

/-- An insertion into an ordered subtree adds the position to its list. -/
theorem insert_adds (node : Node π h) (arena : Arena) (hnode : Ordered keys (toList h node)) :
    Adds key position (toList h node) (toList h (insert degree key position h node arena).result)
      (insert degree key position h node arena).isNew := by
  induction h generalizing arena with
  | zero => exact insert_adds_leaf order degree hkey position node arena hnode
  | succ h ih =>
    change Branch π (Node π h) at node
    rw [insert]
    -- The branch takes its child back, whole or in two, where it was; the rest stays.
    cases Branch.parted order hkey hnode with
    | last hdrop hbefore =>
      simp only [hdrop]
      obtain ⟨-, hlast, -⟩ := ordered_append.mp hnode
      have hgrown := grow_adds order degree hkey position ih node.last arena hlast
      have hadds := hgrown.append_left hbefore
      rw [← Branch.toList_replace_last hdrop] at hadds
      exact hadds
    | own child entry after hdrop heq hbefore hafter =>
      simp only [hdrop, if_pos (Value.sameKey_iff.mpr heq)]
      rw [Branch.toList_of_drop hdrop, Branch.toList_mk]
      have hfound := Adds.found position heq (spread after ++ toList h node.last)
      have hadds := hfound.append_left hbefore
      rw [List.append_assoc, List.append_assoc] at hadds
      exact hadds
    | inner child entry after hdrop hlt hbefore hafter =>
      simp only [hdrop, not_sameKey_of_lt hlt, Bool.false_eq_true, if_false]
      rw [Branch.toList_of_drop hdrop] at hnode ⊢
      obtain ⟨hchild, -, -⟩ := ordered_append.mp (ordered_append.mp hnode).2.1
      rw [Branch.toList_replace_inner hdrop]
      exact ((grow_adds order degree hkey position ih child arena hchild).append_right hlt
        hafter).append_left hbefore

end Node

end

end RelStore.BTree
