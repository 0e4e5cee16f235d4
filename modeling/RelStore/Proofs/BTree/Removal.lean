import RelStore.Proofs.BTree.Search

/-!
# What a removal does to the contents

A removal takes a position out of the list of a subtree as `takeFrom?` does, or finds nothing to
take, and it reports whether the list has become shorter (`Takes`). Where the last position under a
key of a branch goes, the greatest entry of the child in front of the key takes its place
(`Node.popMax_eq`), so that the list loses just the one entry; a child without entries is dropped,
which the list does not show. The statement about a subtree is `Node.remove?_takes`.
-/

namespace RelStore.BTree

variable {π : Type} {h : Nat}

namespace Node

/-! ## Taking the greatest entry out -/

/-- What a subtree lists, by what taking its greatest entry out gives: nothing, or what is left and
the entry. -/
theorem popMax_eq (node : Node π h) :
    toList h node =
      (popMax h node).elim [] fun popped => toList h popped.result ++ [popped.entry] := by
  induction h with
  | zero =>
    change Leaf π at node
    rw [popMax]
    cases hlast : node.entries.getLast? with
    | none => exact List.getLast?_eq_none_iff.mp hlast
    | some entry =>
      obtain ⟨before, hentries⟩ := List.getLast?_eq_some_iff.mp hlast
      change node.entries = node.entries.dropLast ++ [entry]
      rw [hentries, List.dropLast_concat]
  | succ h ih =>
    change Branch π (Node π h) at node
    -- The greatest entry is in the last child, or is the last own one if that child has none.
    have hlist := ih node.last
    rw [popMax, toList_branch]
    cases hpop : popMax h node.last with
    | some popped =>
      rw [hpop] at hlist
      rw [hlist]
      exact (List.append_assoc _ _ _).symm
    | none =>
      rw [hpop] at hlist
      rw [hlist]
      cases hlast : node.pairs.getLast? with
      | none =>
        rw [List.getLast?_eq_none_iff.mp hlast]
        rfl
      | some pair =>
        obtain ⟨child, entry⟩ := pair
        obtain ⟨before, hpairs⟩ := List.getLast?_eq_some_iff.mp hlast
        change spread node.pairs ++ [] = (spread node.pairs.dropLast ++ toList h child) ++ [entry]
        rw [hpairs, List.dropLast_concat]
        calc spread (before ++ [(child, entry)]) ++ []
            = spread before ++ (toList h child ++ [entry]) := by
              rw [List.append_nil, spread_append, spread_cons]
              rfl
          _ = (spread before ++ toList h child) ++ [entry] := (List.append_assoc _ _ _).symm

/-- A subtree from which nothing can be taken lists nothing. -/
theorem toList_of_popMax_none {node : Node π h} (hpop : popMax h node = none) :
    toList h node = [] := by
  rw [popMax_eq node, hpop]
  rfl

/-- A subtree lists its greatest entry at the end. -/
theorem toList_of_popMax_some {node : Node π h} {popped : Popped π (Node π h)}
    (hpop : popMax h node = some popped) :
    toList h node = toList h popped.result ++ [popped.entry] := by
  rw [popMax_eq node, hpop]
  rfl

end Node

namespace Branch

open Node

variable {slot : Nat} {before after : List (Node π h × Entry π)} {child last : Node π h}

/-- A child from which nothing can be taken may go, with the entry behind it. -/
theorem toList_drop_child (hpop : popMax h child = none) :
    toList (h + 1) (⟨slot, before ++ after, last⟩ : Branch π (Node π h)) =
      (spread before ++ toList h child) ++ (spread after ++ toList h last) := by
  rw [toList_of_popMax_none hpop, toList_branch, List.append_nil]
  dsimp only
  rw [spread_append, List.append_assoc]

/-- The greatest entry of a child may take the place of the entry behind the child. -/
theorem toList_refill {popped : Popped π (Node π h)} (hpop : popMax h child = some popped) :
    toList (h + 1)
        (⟨slot, before ++ (popped.result, popped.entry) :: after, last⟩ : Branch π (Node π h)) =
      (spread before ++ toList h child) ++ (spread after ++ toList h last) := by
  rw [toList_of_popMax_some hpop, toList_mk, List.append_assoc, List.append_assoc,
    List.singleton_append]

end Branch

/-! ## Taking a position out -/

section

variable [DecidableEq π]

/-- Taking a position out from under a key of some entries gives nothing, or other entries and
whether these are fewer. -/
inductive Takes (key : Value) (position : π) (entries : List (Entry π)) :
    Option (List (Entry π) × Bool) → Prop where
  /-- The position is not there. -/
  | absent (htake : takeFrom? key position entries = none) : Takes key position entries none
  /-- The position is taken out, and it was the last one under the key if the key is gone. -/
  | taken (rest : List (Entry π)) (keyGone : Bool)
      (htake : takeFrom? key position entries = some rest)
      (hlength : rest.length + keyGone.toNat = entries.length) :
      Takes key position entries (some (rest, keyGone))

namespace Takes

variable {key : Value} {position : π} {entries : List (Entry π)}
  {outcome : Option (List (Entry π) × Bool)}

/-- Taking from what follows entries without the key is taking from the whole. -/
theorem append_left {before : List (Entry π)} (hbefore : Lacks before key)
    (htakes : Takes key position entries outcome) :
    Takes key position (before ++ entries)
      (outcome.map fun (rest, keyGone) => (before ++ rest, keyGone)) := by
  cases htakes with
  | absent htake =>
    refine .absent ?_
    rw [takeFrom?_append_of_lacks_left hbefore, htake]
    rfl
  | taken rest keyGone htake hlength =>
    refine .taken _ keyGone ?_ ?_
    · rw [takeFrom?_append_of_lacks_left hbefore, htake]
      rfl
    · rw [List.length_append, List.length_append, Nat.add_assoc, hlength]

/-- Taking from what stands in front of entries without the key is taking from the whole. -/
theorem append_right {after : List (Entry π)} (hafter : Lacks after key)
    (htakes : Takes key position entries outcome) :
    Takes key position (entries ++ after)
      (outcome.map fun (rest, keyGone) => (rest ++ after, keyGone)) := by
  cases htakes with
  | absent htake =>
    refine .absent ?_
    rw [takeFrom?_append_of_lacks_right hafter, htake]
    rfl
  | taken rest keyGone htake hlength =>
    refine .taken _ keyGone ?_ ?_
    · rw [takeFrom?_append_of_lacks_right hafter, htake]
      rfl
    · rw [List.length_append, List.length_append, ← hlength]
      omega

/-- From entries without the key nothing is taken. -/
theorem of_lacks (position : π) (hlacks : Lacks entries key) : Takes key position entries none :=
  .absent (takeFrom?_of_lacks hlacks)

variable {entry : Entry π} (heq : key.compare entry.key = .eq) (after : List (Entry π))
include heq

/-- From the entry of the key nothing is taken if it lacks the position. -/
theorem own_absent (hnot : position ∉ entry.positions) :
    Takes key position (entry :: after) none := by
  refine .absent ?_
  rw [takeFrom?, if_pos (Value.sameKey_iff.mpr heq), if_neg hnot]

/-- The entry of the key goes with its last position. -/
theorem own_gone (hmem : position ∈ entry.positions)
    (herase : entry.positions.erase position = []) :
    Takes key position (entry :: after) (some (after, true)) := by
  refine .taken after true ?_ rfl
  rw [takeFrom?, if_pos (Value.sameKey_iff.mpr heq), if_pos hmem, herase]

/-- The entry of the key keeps its other positions. -/
theorem own_kept (hmem : position ∈ entry.positions) {first : π} {others : List π}
    (herase : entry.positions.erase position = first :: others) :
    Takes key position (entry :: after) (some (⟨entry.key, first :: others⟩ :: after, false)) := by
  refine .taken _ false ?_ rfl
  rw [takeFrom?, if_pos (Value.sameKey_iff.mpr heq), if_pos hmem, herase]

end Takes

namespace Node

variable {key : Value} {entry : Entry π}

/-- A removal that comes to the entry of the key in a leaf takes the position out of this entry. -/
theorem remove?_takes_found (position : π) {leaf : Leaf π} {after : List (Entry π)}
    (hdrop : leaf.entries.drop (place key leaf.entries) = entry :: after)
    (heq : key.compare entry.key = .eq)
    (hbefore : AllBefore (leaf.entries.take (place key leaf.entries)) key) :
    Takes key position leaf.entries
      ((remove? key position 0 (leaf : Node π 0)).map fun removed =>
        (toList 0 removed.result, removed.keyGone)) := by
  have hsplit := List.take_append_drop (place key leaf.entries) leaf.entries
  rw [hdrop] at hsplit
  rw [remove?]
  simp only [hdrop, Value.sameKey_iff.mpr heq, Bool.true_and]
  by_cases hmem : position ∈ entry.positions
  · rw [if_pos (List.contains_iff_mem.mpr hmem)]
    cases herase : entry.positions.erase position with
    | nil =>
      have htakes := (Takes.own_gone heq after hmem herase).append_left hbefore.lacks
      rw [hsplit] at htakes
      exact htakes
    | cons first others =>
      have htakes := (Takes.own_kept heq after hmem herase).append_left hbefore.lacks
      rw [hsplit] at htakes
      exact htakes
  · rw [if_neg (hmem ∘ List.contains_iff_mem.mp)]
    have htakes := (Takes.own_absent heq after hmem).append_left hbefore.lacks
    rw [hsplit] at htakes
    exact htakes

/-- A removal that comes to the entry of the key in a branch takes the position out of this entry,
and what the child in front of the entry lists stays. -/
theorem remove?_takes_own (position : π) {branch : Branch π (Node π h)} {child : Node π h}
    {after : List (Node π h × Entry π)}
    (hdrop : branch.pairs.drop (place key branch.entries) = (child, entry) :: after)
    (heq : key.compare entry.key = .eq)
    (hbefore : AllBefore (spread (branch.pairs.take (place key branch.entries)) ++ toList h child)
      key) :
    Takes key position (toList (h + 1) (branch : Node π (h + 1)))
      ((remove? key position (h + 1) (branch : Node π (h + 1))).map fun removed =>
        (toList (h + 1) removed.result, removed.keyGone)) := by
  rw [Branch.toList_of_drop hdrop, ← List.append_assoc, remove?]
  simp only [hdrop, Value.sameKey_iff.mpr heq, if_true]
  by_cases hmem : position ∈ entry.positions
  · rw [if_pos (List.contains_iff_mem.mpr hmem)]
    cases herase : entry.positions.erase position with
    | nil =>
      have htakes := (Takes.own_gone heq (spread after ++ toList h branch.last) hmem
        herase).append_left hbefore.lacks
      cases hpop : popMax h child with
      | none =>
        rw [Option.map_some, Branch.toList_drop_child hpop]
        exact htakes
      | some popped =>
        rw [Option.map_some, Branch.toList_refill hpop]
        exact htakes
    | cons first others =>
      have htakes := (Takes.own_kept heq (spread after ++ toList h branch.last) hmem
        herase).append_left hbefore.lacks
      rw [Option.map_some, Branch.toList_mk, ← List.append_assoc]
      exact htakes
  · rw [if_neg (hmem ∘ List.contains_iff_mem.mp)]
    exact (Takes.own_absent heq _ hmem).append_left hbefore.lacks

variable {keys : Set Value} (order : Value.TotalPreorderOn keys) (hkey : key ∈ keys)
  (position : π)
include order hkey

/-- A removal from an ordered leaf takes the position out of its entries. -/
theorem remove?_takes_leaf (leaf : Leaf π) (hleaf : Ordered keys leaf.entries) :
    Takes key position leaf.entries
      ((remove? key position 0 (leaf : Node π 0)).map fun removed =>
        (toList 0 removed.result, removed.keyGone)) := by
  -- The position can only be in the entry at the place of its key.
  cases hleaf.placed order hkey with
  | past hdrop hbefore =>
    rw [remove?]
    simp only [hdrop]
    exact .of_lacks position hbefore.lacks
  | found entry after hdrop heq hbefore hafter =>
    exact remove?_takes_found position hdrop heq hbefore
  | between entry after hdrop hlt hbefore hafter =>
    have hsplit := List.take_append_drop (place key leaf.entries) leaf.entries
    rw [hdrop] at hsplit
    rw [remove?]
    simp only [hdrop, not_sameKey_of_lt hlt, Bool.false_and, Bool.false_eq_true, if_false]
    refine .of_lacks position ?_
    rw [← hsplit]
    have hrest : AllAfter (entry :: after) key := .cons hlt hafter
    exact List.forall_mem_append.mpr ⟨hbefore.lacks, hrest.lacks⟩

/-- A removal from an ordered subtree takes the position out of its list. -/
theorem remove?_takes (node : Node π h) (hnode : Ordered keys (toList h node)) :
    Takes key position (toList h node)
      ((remove? key position h node).map fun removed =>
        (toList h removed.result, removed.keyGone)) := by
  induction h with
  | zero => exact remove?_takes_leaf order hkey position node hnode
  | succ h ih =>
    change Branch π (Node π h) at node
    -- The position is in the child or in the own entry at the place of its key, or nowhere.
    cases Branch.parted order hkey hnode with
    | last hdrop hbefore =>
      rw [remove?]
      simp only [hdrop]
      obtain ⟨-, hlast, -⟩ := ordered_append.mp hnode
      have htakes := (ih node.last hlast).append_left hbefore.lacks
      rw [Option.map_map] at htakes ⊢
      exact htakes
    | own child entry after hdrop heq hbefore hafter =>
      exact remove?_takes_own position hdrop heq hbefore
    | inner child entry after hdrop hlt hbefore hafter =>
      have hrest : AllAfter (entry :: (spread after ++ toList h node.last)) key :=
        .cons hlt hafter
      rw [remove?]
      simp only [hdrop, not_sameKey_of_lt hlt, Bool.false_eq_true, if_false]
      rw [Branch.toList_of_drop hdrop] at hnode ⊢
      obtain ⟨hchild, -, -⟩ := ordered_append.mp (ordered_append.mp hnode).2.1
      have htakes := ((ih child hchild).append_right hrest.lacks).append_left hbefore.lacks
      simp only [Option.map_map] at htakes ⊢
      -- Both sides put the new child between the same lists.
      convert htakes using 2
      funext removed
      exact congrArg (·, removed.keyGone) (Branch.toList_mk _ _ _ _ _ _)

end Node

end

end RelStore.BTree
