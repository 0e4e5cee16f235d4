import RelStore.BTree.Basic
import RelStore.Proofs.Halving
import RelStore.Proofs.KeyOrder

/-!
# The contents of an index tree

What a tree holds is a list of entries in ascending order of keys (`Ordered`). This file defines on
such lists what the operations of a tree are to do: `addTo` adds a position under a key, `takeFrom?`
takes one out and `entryOf?` looks a key up. Each of them passes over the entries before its key and
leaves the entries after it alone, so it can be carried out in the one part of the list where the
key belongs; the proofs about nodes need no more than these laws (`addTo_append_of_before`,
`addTo_append_cons` and their like).

The place of a key among ordered entries separates those before the key from the others
(`Ordered.placed`).
-/

namespace RelStore.BTree

variable {π : Type}

/-! ## Ordered entries -/

/-- Entries in ascending order of their keys, which are all of a set. -/
structure Ordered (keys : Set Value) (entries : List (Entry π)) : Prop where
  /-- The keys are of the set. -/
  mem_keys : ∀ entry ∈ entries, entry.key ∈ keys
  /-- Every key comes before all later ones. -/
  ascending : entries.Pairwise fun a b => a.key.compare b.key = .lt

/-- The keys of all entries come before a key. -/
def AllBefore (entries : List (Entry π)) (key : Value) : Prop :=
  ∀ entry ∈ entries, entry.key.compare key = .lt

/-- A key comes before the keys of all entries. -/
def AllAfter (entries : List (Entry π)) (key : Value) : Prop :=
  ∀ entry ∈ entries, key.compare entry.key = .lt

/-- No entry has a key. -/
def Lacks (entries : List (Entry π)) (key : Value) : Prop :=
  ∀ entry ∈ entries, sameKey key entry.key = false

/-- A key is not the same as one that comes after it. -/
theorem not_sameKey_of_lt {a b : Value} (h : a.compare b = .lt) : sameKey a b = false := by
  rw [sameKey, h]
  rfl

/-- Entries before a key do not have it. -/
theorem AllBefore.lacks {entries : List (Entry π)} {key : Value} (h : AllBefore entries key) :
    Lacks entries key := by
  intro entry hentry
  rw [Value.sameKey_comm]
  exact not_sameKey_of_lt (h entry hentry)

/-- Entries after a key do not have it. -/
theorem AllAfter.lacks {entries : List (Entry π)} {key : Value} (h : AllAfter entries key) :
    Lacks entries key :=
  fun entry hentry => not_sameKey_of_lt (h entry hentry)

/-- A key before an entry and before what follows it is before both. -/
theorem AllAfter.cons {entry : Entry π} {after : List (Entry π)} {key : Value}
    (hlt : key.compare entry.key = .lt) (h : AllAfter after key) :
    AllAfter (entry :: after) key :=
  List.forall_mem_cons.mpr ⟨hlt, h⟩

/-- Two lists of entries in a row are ordered when both are and the first is before the second. -/
theorem ordered_append {keys : Set Value} {xs ys : List (Entry π)} :
    Ordered keys (xs ++ ys) ↔
      Ordered keys xs ∧ Ordered keys ys ∧ ∀ y ∈ ys, AllBefore xs y.key := by
  constructor
  · rintro ⟨hkeys, hasc⟩
    obtain ⟨hxs, hys, hxy⟩ := List.pairwise_append.mp hasc
    exact ⟨⟨fun e he => hkeys e (List.mem_append_left _ he), hxs⟩,
      ⟨fun e he => hkeys e (List.mem_append_right _ he), hys⟩, fun y hy x hx => hxy x hx y hy⟩
  · rintro ⟨hxs, hys, hxy⟩
    refine ⟨fun e he => ?_, List.pairwise_append.mpr
      ⟨hxs.ascending, hys.ascending, fun x hx y hy => hxy y hy x hx⟩⟩
    rcases List.mem_append.mp he with he | he
    · exact hxs.mem_keys e he
    · exact hys.mem_keys e he

/-- An entry in front of ordered ones comes before all of them. -/
theorem ordered_cons {keys : Set Value} {x : Entry π} {ys : List (Entry π)} :
    Ordered keys (x :: ys) ↔
      x.key ∈ keys ∧ Ordered keys ys ∧ ∀ y ∈ ys, x.key.compare y.key = .lt := by
  constructor
  · rintro ⟨hkeys, hasc⟩
    obtain ⟨hx, hys⟩ := List.pairwise_cons.mp hasc
    exact ⟨hkeys x List.mem_cons_self, ⟨fun e he => hkeys e (List.mem_cons_of_mem _ he), hys⟩, hx⟩
  · rintro ⟨hx, hys, hxy⟩
    exact ⟨List.forall_mem_cons.mpr ⟨hx, hys.mem_keys⟩, List.pairwise_cons.mpr ⟨hxy, hys.ascending⟩⟩

/-- No entries are ordered. -/
theorem ordered_nil {keys : Set Value} : Ordered keys ([] : List (Entry π)) :=
  ⟨by simp, List.Pairwise.nil⟩

/-- Entries that are left of ordered ones are ordered. -/
theorem Ordered.sublist {keys : Set Value} {xs ys : List (Entry π)} (h : Ordered keys ys)
    (hsub : xs.Sublist ys) : Ordered keys xs :=
  ⟨fun e he => h.mem_keys e (hsub.subset he), h.ascending.sublist hsub⟩

section

variable {keys : Set Value} (order : Value.TotalPreorderOn keys) {entries : List (Entry π)}
  {key : Value}
include order

/-- A key before the first of ordered entries is before all of them. -/
theorem Ordered.allAfter {x : Entry π} {xs : List (Entry π)} (h : Ordered keys (x :: xs))
    (hkey : key ∈ keys) (hlt : key.compare x.key = .lt) : AllAfter (x :: xs) key := by
  obtain ⟨hx, hxs, hrest⟩ := ordered_cons.mp h
  refine AllAfter.cons hlt fun y hy => ?_
  exact order.lt_trans hkey hx (hxs.mem_keys y hy) hlt (hrest y hy)

/-- Where the place of a key is among ordered entries. -/
inductive Placed (key : Value) (entries : List (Entry π)) : Prop where
  /-- It is past all entries. -/
  | past (hdrop : entries.drop (place key entries) = []) (hbefore : AllBefore entries key)
  /-- It is the place of the entry that has the key. -/
  | found (entry : Entry π) (after : List (Entry π))
      (hdrop : entries.drop (place key entries) = entry :: after)
      (heq : key.compare entry.key = .eq)
      (hbefore : AllBefore (entries.take (place key entries)) key) (hafter : AllAfter after key)
  /-- It is the place of the first entry after the key. -/
  | between (entry : Entry π) (after : List (Entry π))
      (hdrop : entries.drop (place key entries) = entry :: after)
      (hlt : key.compare entry.key = .lt)
      (hbefore : AllBefore (entries.take (place key entries)) key) (hafter : AllAfter after key)

/-- The place of a key parts ordered entries: those in front of it come before the key, and those
from it on do not. -/
theorem Ordered.place_parts (h : Ordered keys entries) (hkey : key ∈ keys) :
    AllBefore (entries.take (place key entries)) key ∧
      ∀ entry ∈ entries.drop (place key entries), entry.key.compare key ≠ .lt := by
  have hearly : entries.Pairwise fun a b =>
      (b.key.compare key == .lt) = true → (a.key.compare key == .lt) = true := by
    refine h.ascending.imp_of_mem fun {a b} ha hb hab hlt => beq_iff_eq.mpr ?_
    exact order.lt_trans (h.mem_keys a ha) (h.mem_keys b hb) hkey hab (beq_iff_eq.mp hlt)
  obtain ⟨before, after, rfl, hbefore, hlate⟩ := exists_early_parts hearly
  have hplace : place key (before ++ after) = before.length := partitionPoint_append hbefore hlate
  rw [hplace, List.take_left, List.drop_left]
  exact ⟨fun e he => beq_iff_eq.mp (hbefore e he), fun e he => beq_eq_false_iff_ne.mp (hlate e he)⟩

/-- The place of a key among ordered entries is past all of them, or the entry there has the key or
is the first one after it. -/
theorem Ordered.placed (h : Ordered keys entries) (hkey : key ∈ keys) : Placed key entries := by
  obtain ⟨hbefore, hlate⟩ := h.place_parts order hkey
  have hsplit := List.take_append_drop (place key entries) entries
  cases hdrop : entries.drop (place key entries) with
  | nil =>
    rw [hdrop, List.append_nil] at hsplit
    exact .past hdrop (hsplit ▸ hbefore)
  | cons entry rest =>
    rw [hdrop] at hlate
    rw [← hsplit, hdrop] at h
    have hafter := (ordered_append.mp h).2.1
    obtain ⟨hentry, hrest, hlt⟩ := ordered_cons.mp hafter
    -- The keys after the entry come after the key, which does not come after the entry.
    cases hcmp : key.compare entry.key with
    | lt =>
      obtain ⟨-, hall⟩ := List.forall_mem_cons.mp (hafter.allAfter order hkey hcmp)
      exact .between entry rest hdrop hcmp hbefore hall
    | eq =>
      refine .found entry rest hdrop hcmp hbefore fun e he => ?_
      rw [order.congr_left hkey hentry (hrest.mem_keys e he) hcmp]
      exact hlt e he
    | gt =>
      refine absurd ?_ (hlate entry List.mem_cons_self)
      rw [Value.compare_swap, hcmp]
      rfl

end

/-! ## Looking a key up -/

/-- The entry of a key. -/
def entryOf? (key : Value) (entries : List (Entry π)) : Option (Entry π) :=
  entries.find? fun entry => sameKey key entry.key

/-- Where no entry has a key, none is found. -/
theorem entryOf?_of_lacks {key : Value} {entries : List (Entry π)} (h : Lacks entries key) :
    entryOf? key entries = none :=
  List.find?_eq_none.mpr fun entry hentry => by rw [h entry hentry]; exact Bool.false_ne_true

/-- Looking a key up passes over entries without it. -/
theorem entryOf?_append_of_lacks_left {key : Value} {before : List (Entry π)}
    (h : Lacks before key) (after : List (Entry π)) :
    entryOf? key (before ++ after) = entryOf? key after := by
  rw [entryOf?, List.find?_append, ← entryOf?, entryOf?_of_lacks h, Option.none_or, entryOf?]

/-- Looking a key up leaves entries without it. -/
theorem entryOf?_append_of_lacks_right {key : Value} {after : List (Entry π)}
    (h : Lacks after key) (before : List (Entry π)) :
    entryOf? key (before ++ after) = entryOf? key before := by
  rw [entryOf?, List.find?_append, ← entryOf?, ← entryOf?, entryOf?_of_lacks h, Option.or_none]

/-- The entry that has a key is found in front of all others. -/
theorem entryOf?_cons_of_eq {key : Value} {entry : Entry π} (h : key.compare entry.key = .eq)
    (after : List (Entry π)) : entryOf? key (entry :: after) = some entry := by
  rw [entryOf?, List.find?_cons, Value.sameKey_iff.mpr h]

/-- The positions under a key. -/
def positionsOf (key : Value) (entries : List (Entry π)) : List π :=
  ((entryOf? key entries).map Entry.positions).getD []

/-- The first of some entries holds the positions under its key. -/
theorem positionsOf_cons (key : Value) (entry : Entry π) (after : List (Entry π)) :
    positionsOf key (entry :: after) =
      if sameKey key entry.key then entry.positions else positionsOf key after := by
  rw [positionsOf, entryOf?, List.find?_cons]
  cases sameKey key entry.key <;> rfl

/-- Where no entry has a key, there are no positions under it. -/
theorem positionsOf_of_lacks {key : Value} {entries : List (Entry π)} (h : Lacks entries key) :
    positionsOf key entries = [] := by
  rw [positionsOf, entryOf?_of_lacks h]
  rfl

/-! ## Adding a position -/

section

variable [DecidableEq π]

/-- Entries with a position added under a key: in the entry of the key, or in a new entry in front
of the first one after the key. -/
def addTo (key : Value) (position : π) : List (Entry π) → List (Entry π)
  | [] => [⟨key, [position]⟩]
  | entry :: rest =>
    match key.compare entry.key with
    | .lt => ⟨key, [position]⟩ :: entry :: rest
    | .eq => entry.add position :: rest
    | .gt => entry :: addTo key position rest

/-- Adding a position under the key of an entry adds it to the entry. -/
theorem addTo_cons_of_eq {key : Value} {position : π} {entry : Entry π}
    (h : key.compare entry.key = .eq) (after : List (Entry π)) :
    addTo key position (entry :: after) = entry.add position :: after := by
  rw [addTo, h]

/-- Adding a position under a key before an entry makes a new entry. -/
theorem addTo_cons_of_lt {key : Value} {position : π} {entry : Entry π}
    (h : key.compare entry.key = .lt) (after : List (Entry π)) :
    addTo key position (entry :: after) = ⟨key, [position]⟩ :: entry :: after := by
  rw [addTo, h]

/-- Adding a position passes over the entries before its key. -/
theorem addTo_append_of_before {key : Value} {position : π} {before : List (Entry π)}
    (h : AllBefore before key) (after : List (Entry π)) :
    addTo key position (before ++ after) = before ++ addTo key position after := by
  induction before with
  | nil => rfl
  | cons x xs ih =>
    obtain ⟨hx, hxs⟩ := List.forall_mem_cons.mp h
    have hgt : key.compare x.key = .gt := by rw [Value.compare_swap, hx]; rfl
    rw [List.cons_append, addTo, hgt, ih hxs, List.cons_append]

/-- Adding a position leaves what follows an entry after its key. -/
theorem addTo_append_cons {key : Value} {position : π} {entry : Entry π}
    (h : key.compare entry.key = .lt) (xs after : List (Entry π)) :
    addTo key position (xs ++ entry :: after) = addTo key position xs ++ entry :: after := by
  -- In front of the entry both sides take the same steps; at the entry, the key ends up before it.
  induction xs with
  | nil =>
    rw [List.nil_append, addTo_cons_of_lt h]
    rfl
  | cons x xs ih =>
    rw [List.cons_append, addTo, addTo]
    cases key.compare x.key with
    | lt => rfl
    | eq => rfl
    | gt => rw [ih]; rfl

/-! ## Taking a position out -/

/-- Entries with a position taken out from under a key, if it is there. An entry goes with its last
position. -/
def takeFrom? (key : Value) (position : π) : List (Entry π) → Option (List (Entry π))
  | [] => none
  | entry :: rest =>
    if sameKey key entry.key then
      if position ∈ entry.positions then
        match entry.positions.erase position with
        | [] => some rest
        | positions => some (⟨entry.key, positions⟩ :: rest)
      else none
    else (takeFrom? key position rest).map (entry :: ·)

/-- From entries without a key nothing is taken. -/
theorem takeFrom?_of_lacks {key : Value} {position : π} {entries : List (Entry π)}
    (h : Lacks entries key) : takeFrom? key position entries = none := by
  induction entries with
  | nil => rfl
  | cons x xs ih =>
    obtain ⟨hx, hxs⟩ := List.forall_mem_cons.mp h
    rw [takeFrom?, if_neg (by rw [hx]; exact Bool.false_ne_true), ih hxs]
    rfl

/-- Taking a position out passes over entries without its key. -/
theorem takeFrom?_append_of_lacks_left {key : Value} {position : π} {before : List (Entry π)}
    (h : Lacks before key) (after : List (Entry π)) :
    takeFrom? key position (before ++ after) =
      (takeFrom? key position after).map (before ++ ·) := by
  induction before with
  | nil =>
    rw [List.nil_append]
    cases takeFrom? key position after <;> rfl
  | cons x xs ih =>
    obtain ⟨hx, hxs⟩ := List.forall_mem_cons.mp h
    rw [List.cons_append, takeFrom?, if_neg (by rw [hx]; exact Bool.false_ne_true), ih hxs,
      Option.map_map]
    rfl

/-- Taking a position out leaves entries without its key. -/
theorem takeFrom?_append_of_lacks_right {key : Value} {position : π} {after : List (Entry π)}
    (h : Lacks after key) (before : List (Entry π)) :
    takeFrom? key position (before ++ after) =
      (takeFrom? key position before).map (· ++ after) := by
  induction before with
  | nil =>
    rw [List.nil_append, takeFrom?_of_lacks h]
    rfl
  | cons x xs ih =>
    rw [List.cons_append, takeFrom?, takeFrom?]
    split
    · split
      · cases x.positions.erase position <;> rfl
      · rfl
    · rw [ih, Option.map_map, Option.map_map]
      rfl

/-- A position is taken out just when it is under the key. -/
theorem isSome_takeFrom?_iff {key : Value} {position : π} {entries : List (Entry π)} :
    (takeFrom? key position entries).isSome = true ↔ position ∈ positionsOf key entries := by
  induction entries with
  | nil => simp [takeFrom?, positionsOf, entryOf?]
  | cons x xs ih =>
    rw [takeFrom?, positionsOf_cons]
    cases sameKey key x.key with
    | true =>
      by_cases hmem : position ∈ x.positions
      · rw [if_pos rfl, if_pos hmem, if_pos rfl]
        cases x.positions.erase position <;> simpa using hmem
      · rw [if_pos rfl, if_neg hmem, if_pos rfl]
        simpa using hmem
    | false =>
      rw [if_neg Bool.false_ne_true, if_neg Bool.false_ne_true, Option.isSome_map]
      exact ih

end

end RelStore.BTree
