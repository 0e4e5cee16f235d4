import RelStore.Proofs.BTree.Contents

/-!
# Looking a key up in an index tree

The list of a branch is the lists of its children with its own entries between them (`spread`). The
place of a key among the own entries parts the whole list: what stands before it comes before the
key, what stands behind it comes after the key, and in between is the one child in which the key can
be, unless it is the key of an own entry (`Branch.parted`). Looking a key up, adding a position and
taking one out all go by this.
-/

namespace RelStore.BTree

variable {π : Type} {h : Nat}

namespace Node

/-- The entries of children and of the entries behind each of them, in order. -/
def spread (pairs : List (Node π h × Entry π)) : List (Entry π) :=
  pairs.flatMap fun (child, entry) => toList h child ++ [entry]

/-- A branch lists its children with its own entries between them. -/
theorem toList_branch (branch : Branch π (Node π h)) :
    toList (h + 1) (branch : Node π (h + 1)) = spread branch.pairs ++ toList h branch.last :=
  rfl

/-- Spreading a row of pairs is spreading its parts. -/
theorem spread_append (xs ys : List (Node π h × Entry π)) :
    spread (xs ++ ys) = spread xs ++ spread ys :=
  List.flatMap_append

/-- The first of some pairs lists its child and then its entry. -/
theorem spread_cons (child : Node π h) (entry : Entry π) (after : List (Node π h × Entry π)) :
    spread ((child, entry) :: after) = toList h child ++ entry :: spread after := by
  rw [spread, List.flatMap_cons, ← spread, List.append_assoc]
  rfl

/-- A branch lists its own entries among the others. -/
theorem entries_sublist_spread (pairs : List (Node π h × Entry π)) :
    (pairs.map (·.2)).Sublist (spread pairs) := by
  induction pairs with
  | nil => exact List.Sublist.refl []
  | cons pair pairs ih =>
    obtain ⟨child, entry⟩ := pair
    rw [spread_cons, List.map_cons]
    exact (ih.cons_cons entry).trans (List.sublist_append_right _ _)

/-- A branch lists the entries of each child in a row. -/
theorem toList_sublist_spread {pairs : List (Node π h × Entry π)} {pair : Node π h × Entry π}
    (hpair : pair ∈ pairs) : (toList h pair.1).Sublist (spread pairs) := by
  obtain ⟨before, after, rfl⟩ := List.append_of_mem hpair
  rw [spread_append, spread_cons]
  exact (List.sublist_append_left _ _).trans (List.sublist_append_right _ _)

/-- What children list comes before a key when the entries behind them do. -/
theorem spread_allBefore {keys : Set Value} (order : Value.TotalPreorderOn keys) {key : Value}
    (hkey : key ∈ keys) {pairs : List (Node π h × Entry π)} (hpairs : Ordered keys (spread pairs))
    (hown : AllBefore (pairs.map (·.2)) key) : AllBefore (spread pairs) key := by
  induction pairs with
  | nil => simp [spread, AllBefore]
  | cons pair pairs ih =>
    obtain ⟨child, entry⟩ := pair
    rw [spread_cons] at hpairs ⊢
    obtain ⟨hchild, hrest, hbefore⟩ := ordered_append.mp hpairs
    obtain ⟨hentry, hpairs, -⟩ := ordered_cons.mp hrest
    obtain ⟨hlt, hown⟩ := List.forall_mem_cons.mp hown
    intro e he
    rcases List.mem_append.mp he with he | he
    · exact order.lt_trans (hchild.mem_keys e he) hentry hkey
        (hbefore entry List.mem_cons_self e he) hlt
    · rcases List.mem_cons.mp he with rfl | he
      · exact hlt
      · exact ih hpairs hown e he

end Node

namespace Branch

open Node

/-- The place of a key in a branch is one of its entries or past them. -/
theorem place_le {α : Type} (key : Value) (branch : Branch π α) :
    place key branch.entries ≤ branch.pairs.length := by
  have hle := partitionPoint_le_length (fun entry => entry.key.compare key == .lt) branch.entries
  rwa [Branch.entries, List.length_map] at hle

/-- Where the place of a key is in a branch. -/
inductive Parted (key : Value) (branch : Branch π (Node π h)) : Prop where
  /-- It is in the last child, past all own entries. -/
  | last (hdrop : branch.pairs.drop (place key branch.entries) = [])
      (hbefore : AllBefore (spread branch.pairs) key)
  /-- It is the place of an own entry, which has the key. -/
  | own (child : Node π h) (entry : Entry π) (after : List (Node π h × Entry π))
      (hdrop : branch.pairs.drop (place key branch.entries) = (child, entry) :: after)
      (heq : key.compare entry.key = .eq)
      (hbefore : AllBefore (spread (branch.pairs.take (place key branch.entries)) ++
        toList h child) key)
      (hafter : AllAfter (spread after ++ toList h branch.last) key)
  /-- It is in a child in front of an own entry. -/
  | inner (child : Node π h) (entry : Entry π) (after : List (Node π h × Entry π))
      (hdrop : branch.pairs.drop (place key branch.entries) = (child, entry) :: after)
      (hlt : key.compare entry.key = .lt)
      (hbefore : AllBefore (spread (branch.pairs.take (place key branch.entries))) key)
      (hafter : AllAfter (spread after ++ toList h branch.last) key)

/-- A branch lists what stands before a pair, the pair, and what stands behind it. -/
theorem toList_mk (slot : Nat) (before : List (Node π h × Entry π)) (child : Node π h)
    (entry : Entry π) (after : List (Node π h × Entry π)) (last : Node π h) :
    toList (h + 1) (⟨slot, before ++ (child, entry) :: after, last⟩ : Branch π (Node π h)) =
      spread before ++ (toList h child ++ entry :: (spread after ++ toList h last)) := by
  rw [toList_branch]
  dsimp only
  rw [spread_append, spread_cons, List.append_assoc, List.append_assoc, List.cons_append]

/-- A branch lists what stands before the pair at a place, the pair, and what stands behind it. -/
theorem toList_of_drop {branch : Branch π (Node π h)} {i : Nat} {child : Node π h}
    {entry : Entry π} {after : List (Node π h × Entry π)}
    (hdrop : branch.pairs.drop i = (child, entry) :: after) :
    toList (h + 1) (branch : Node π (h + 1)) =
      spread (branch.pairs.take i) ++ (toList h child ++
        entry :: (spread after ++ toList h branch.last)) := by
  rw [← toList_mk branch.slot, ← hdrop, List.take_append_drop]

/-- The place of a key among the own entries parts the list of an ordered branch. -/
theorem parted {keys : Set Value} (order : Value.TotalPreorderOn keys) {key : Value}
    (hkey : key ∈ keys) {branch : Branch π (Node π h)}
    (hbranch : Ordered keys (toList (h + 1) (branch : Node π (h + 1)))) :
    Parted key branch := by
  have hspread : Ordered keys (spread branch.pairs) := (ordered_append.mp hbranch).1
  have hown : Ordered keys branch.entries := hspread.sublist (entries_sublist_spread _)
  generalize hi : place key branch.entries = i
  -- What stands before the place comes before the key, own entries and children alike.
  have htake (hbefore : AllBefore (branch.entries.take i) key) :
      AllBefore (spread (branch.pairs.take i)) key := by
    rw [← List.take_append_drop i branch.pairs, spread_append] at hspread
    refine spread_allBefore order hkey (ordered_append.mp hspread).1 ?_
    rw [List.map_take]
    exact hbefore
  have hmap : branch.entries.drop i = (branch.pairs.drop i).map (·.2) := List.map_drop.symm
  cases hown.placed order hkey with
  | past hdrop hbefore =>
    rw [hi, hmap, List.map_eq_nil_iff] at hdrop
    refine .last (hi ▸ hdrop) ?_
    have hall : branch.pairs.take i = branch.pairs := by
      rw [← List.append_nil (branch.pairs.take i), ← hdrop, List.take_append_drop]
    rw [← hall]
    exact htake fun e he => hbefore e (List.mem_of_mem_take he)
  | found entry rest hdrop heq hbefore hafter =>
    rw [hi] at hdrop hbefore
    rw [hmap, List.map_eq_cons_iff] at hdrop
    obtain ⟨⟨child, _⟩, after, hdrop, rfl, rfl⟩ := hdrop
    rw [toList_of_drop hdrop, ← List.append_assoc] at hbranch
    obtain ⟨hfront, hback, hlt⟩ := ordered_append.mp hbranch
    obtain ⟨hentry, hback, hgt⟩ := ordered_cons.mp hback
    -- The key ties with the entry, so it stands to all others as the entry does.
    refine .own child _ after (hi ▸ hdrop) heq (fun e he => ?_) fun e he => ?_
    · rw [order.congr_right (hfront.mem_keys e (hi ▸ he)) hkey hentry heq]
      exact hlt _ List.mem_cons_self e (hi ▸ he)
    · rw [order.congr_left hkey hentry (hback.mem_keys e he) heq]
      exact hgt e he
  | between entry rest hdrop hlt hbefore hafter =>
    rw [hi] at hdrop hbefore
    rw [hmap, List.map_eq_cons_iff] at hdrop
    obtain ⟨⟨child, _⟩, after, hdrop, rfl, rfl⟩ := hdrop
    rw [toList_of_drop hdrop, ← List.append_assoc] at hbranch
    obtain ⟨hentry, hback, hgt⟩ := ordered_cons.mp (ordered_append.mp hbranch).2.1
    -- What comes after the entry comes after the key as well, which is before the entry.
    refine .inner child _ after (hi ▸ hdrop) hlt (hi ▸ htake hbefore) fun e he => ?_
    exact order.lt_trans hkey hentry (hback.mem_keys e he) hlt (hgt e he)

end Branch

namespace Node

/-- Whatever a search ends in is one of the entries, also where the keys have no order. -/
theorem mem_of_find? {key : Value} {node : Node π h} {entry : Entry π}
    (hfind : find? key h node = some entry) : entry ∈ toList h node := by
  induction h with
  | zero =>
    obtain ⟨hhead, -⟩ := Option.filter_eq_some_iff.mp hfind
    exact List.mem_of_mem_drop (List.mem_of_mem_head? hhead)
  | succ h ih =>
    change Branch π (Node π h) at node
    rw [find?] at hfind
    split at hfind
    · rw [toList_branch]
      exact List.mem_append_right _ (ih hfind)
    · next child own after hdrop =>
      rw [Branch.toList_of_drop hdrop]
      refine List.mem_append_right _ ?_
      split at hfind
      · cases hfind
        exact List.mem_append_right _ List.mem_cons_self
      · exact List.mem_append_left _ (ih hfind)

/-- Whatever a search ends in has the same key, also where the keys have no order. -/
theorem sameKey_of_find? {key : Value} {node : Node π h} {entry : Entry π}
    (hfind : find? key h node = some entry) : sameKey key entry.key = true := by
  induction h with
  | zero => exact (Option.filter_eq_some_iff.mp hfind).2
  | succ h ih =>
    change Branch π (Node π h) at node
    rw [find?] at hfind
    split at hfind
    · exact ih hfind
    · split at hfind
      · next hsame =>
        cases hfind
        exact hsame
      · exact ih hfind

/-- Looking a key up along one path finds the entry of the key in the list of an ordered subtree. -/
theorem find?_eq {keys : Set Value} (order : Value.TotalPreorderOn keys) {key : Value}
    (hkey : key ∈ keys) (node : Node π h) (hnode : Ordered keys (toList h node)) :
    find? key h node = entryOf? key (toList h node) := by
  induction h with
  | zero =>
    obtain ⟨slot, entries⟩ := (node : Leaf π)
    change Ordered keys entries at hnode
    change (((entries.drop (place key entries)).head?.filter fun entry => sameKey key entry.key) =
      entryOf? key entries)
    have hsplit := List.take_append_drop (place key entries) entries
    cases hnode.placed order hkey with
    | past hdrop hbefore =>
      rw [hdrop, entryOf?_of_lacks hbefore.lacks]
      rfl
    | found entry after hdrop heq hbefore hafter =>
      rw [hdrop] at hsplit ⊢
      rw [← hsplit, entryOf?_append_of_lacks_left hbefore.lacks, entryOf?_cons_of_eq heq]
      rw [List.head?_cons, Option.filter_some, if_pos (Value.sameKey_iff.mpr heq)]
    | between entry after hdrop hlt hbefore hafter =>
      rw [hdrop] at hsplit ⊢
      have hrest : AllAfter (entry :: after) key := .cons hlt hafter
      rw [← hsplit, entryOf?_append_of_lacks_left hbefore.lacks, entryOf?_of_lacks hrest.lacks]
      rw [List.head?_cons, Option.filter_some, not_sameKey_of_lt hlt]
      rfl
  | succ h ih =>
    change Branch π (Node π h) at node
    rw [find?]
    -- The search goes on in the one part of the list that can have the key, and the others lack it.
    cases Branch.parted order hkey hnode with
    | last hdrop hbefore =>
      obtain ⟨-, hlast, -⟩ := ordered_append.mp hnode
      rw [hdrop, toList_branch, entryOf?_append_of_lacks_left hbefore.lacks]
      exact ih node.last hlast
    | own child entry after hdrop heq hbefore hafter =>
      rw [hdrop, Branch.toList_of_drop hdrop, ← List.append_assoc,
        entryOf?_append_of_lacks_left hbefore.lacks, entryOf?_cons_of_eq heq]
      exact if_pos (Value.sameKey_iff.mpr heq)
    | inner child entry after hdrop hlt hbefore hafter =>
      have hrest : AllAfter (entry :: (spread after ++ toList h node.last)) key :=
        .cons hlt hafter
      rw [Branch.toList_of_drop hdrop] at hnode ⊢
      obtain ⟨hchild, -, -⟩ := ordered_append.mp (ordered_append.mp hnode).2.1
      rw [hdrop, entryOf?_append_of_lacks_left hbefore.lacks,
        entryOf?_append_of_lacks_right hrest.lacks, ← ih child hchild]
      exact if_neg (by rw [not_sameKey_of_lt hlt]; exact Bool.false_ne_true)

/-- A visit without a first key lists a subtree. -/
theorem listFrom_none (node : Node π h) : listFrom none h node = toList h node := by
  induction h with
  | zero => rfl
  | succ h ih =>
    change Branch π (Node π h) at node
    rw [toList_branch, listFrom, ih node.last]
    have hpairs (pairs : List (Node π h × Entry π)) :
        (pairs.flatMap fun (child, entry) => listFrom none h child ++ [entry]) = spread pairs := by
      induction pairs with
      | nil => rfl
      | cons pair pairs ihpairs =>
        obtain ⟨child, entry⟩ := pair
        rw [List.flatMap_cons, ihpairs, spread_cons, ← ih child, List.append_assoc]
        rfl
    exact congrArg (· ++ _) (hpairs node.pairs)

end Node

end RelStore.BTree
