import RelStore.Proofs.BTree.Contents

/-!
# Well-kept contents

The entries that a tree comes to hold are in ascending order, and each has positions of which none
occurs twice (`WellKept`). Adding a position and taking one out keep them so. What is under a key
afterwards depends only on what was under it before (`positionsOf_addTo`,
`positionsOf_takeFrom?`): the order of the entries is needed to see that no other key is touched.
-/

namespace RelStore.BTree

variable {π : Type}

/-- The entries that a tree may hold: in order, each with positions of which none occurs twice. -/
structure WellKept (keys : Set Value) (entries : List (Entry π)) : Prop
    extends Ordered keys entries where
  /-- Every key has a position. -/
  positions_ne_nil : ∀ entry ∈ entries, entry.positions ≠ []
  /-- No key has a position twice. -/
  positions_nodup : ∀ entry ∈ entries, entry.positions.Nodup

/-- No entries are well kept. -/
theorem wellKept_nil {keys : Set Value} : WellKept keys ([] : List (Entry π)) :=
  { ordered_nil with positions_ne_nil := by simp, positions_nodup := by simp }

/-- Order is a property of the keys alone. -/
theorem ordered_iff_keys {keys : Set Value} {entries : List (Entry π)} :
    Ordered keys entries ↔ (∀ k ∈ entries.map Entry.key, k ∈ keys) ∧
      (entries.map Entry.key).Pairwise fun a b => a.compare b = .lt := by
  rw [List.pairwise_map, List.forall_mem_map]
  exact ⟨fun h => ⟨h.mem_keys, h.ascending⟩, fun h => ⟨h.1, h.2⟩⟩

/-- Every entry holds the positions under its key. -/
theorem Ordered.positionsOf_key {keys : Set Value} {entries : List (Entry π)}
    (h : Ordered keys entries) {entry : Entry π} (hentry : entry ∈ entries) :
    positionsOf entry.key entries = entry.positions := by
  induction entries with
  | nil => cases hentry
  | cons x xs ih =>
    obtain ⟨-, hxs, hlt⟩ := ordered_cons.mp h
    rw [positionsOf_cons]
    rcases List.mem_cons.mp hentry with rfl | hentry
    · rw [if_pos (Value.sameKey_self _)]
    · have hne : sameKey entry.key x.key = false := by
        rw [Value.sameKey_comm]
        exact not_sameKey_of_lt (hlt entry hentry)
      rw [if_neg (by rw [hne]; exact Bool.false_ne_true)]
      exact ih hxs hentry

/-- Keys that are the same have the same positions. -/
theorem Ordered.positionsOf_congr {keys : Set Value} (order : Value.TotalPreorderOn keys)
    {entries : List (Entry π)} (h : Ordered keys entries) {k k' : Value} (hk : k ∈ keys)
    (hk' : k' ∈ keys) (hsame : sameKey k k' = true) :
    positionsOf k entries = positionsOf k' entries := by
  induction entries with
  | nil => rfl
  | cons x xs ih =>
    obtain ⟨hx, hxs, -⟩ := ordered_cons.mp h
    have hiff : sameKey k x.key = sameKey k' x.key := by
      rw [sameKey, sameKey, order.congr_left hk hk' hx (Value.sameKey_iff.mp hsame)]
    rw [positionsOf_cons, positionsOf_cons, hiff, ih hxs]

section

variable [DecidableEq π]

/-- Positions with one more at the end, unless it is there already. -/
def addPosition (position : π) (positions : List π) : List π :=
  if position ∈ positions then positions else positions ++ [position]

/-- An entry with a position added keeps its key. -/
theorem Entry.add_eq (position : π) (entry : Entry π) :
    entry.add position = ⟨entry.key, addPosition position entry.positions⟩ := by
  unfold Entry.add addPosition
  split <;> rfl

/-- A position is among those with one more when it was there or is the one. -/
theorem mem_addPosition {p position : π} {positions : List π} :
    p ∈ addPosition position positions ↔ p ∈ positions ∨ p = position := by
  unfold addPosition
  split
  · next hmem => exact ⟨.inl, fun h => h.elim id fun heq => heq ▸ hmem⟩
  · simp

/-- Adding a position makes no position occur twice. -/
theorem addPosition_nodup {position : π} {positions : List π} (h : positions.Nodup) :
    (addPosition position positions).Nodup := by
  unfold addPosition
  split
  · exact h
  · next hnot =>
    refine List.nodup_append.mpr ⟨h, by simp, fun a ha b hb hab => ?_⟩
    rw [hab, List.mem_singleton.mp hb] at ha
    exact hnot ha

/-- After adding a position there is one. -/
theorem addPosition_ne_nil {position : π} {positions : List π} :
    addPosition position positions ≠ [] := by
  unfold addPosition
  split
  · next hmem => exact List.ne_nil_of_mem hmem
  · exact List.append_ne_nil_of_right_ne_nil _ (by simp)

/-- After adding a position, every entry is the new one, an old one, or the old one of the key with
the position added. -/
theorem mem_addTo {key : Value} {position : π} {entries : List (Entry π)} {y : Entry π}
    (hy : y ∈ addTo key position entries) :
    y = ⟨key, [position]⟩ ∨ y ∈ entries ∨ ∃ x ∈ entries, y = x.add position := by
  induction entries with
  | nil => exact .inl (List.mem_singleton.mp hy)
  | cons x xs ih =>
    rw [addTo] at hy
    cases hcmp : key.compare x.key with
    | lt =>
      rw [hcmp] at hy
      rcases List.mem_cons.mp hy with hy | hy
      · exact .inl hy
      · exact .inr (.inl hy)
    | eq =>
      rw [hcmp] at hy
      rcases List.mem_cons.mp hy with hy | hy
      · exact .inr (.inr ⟨x, List.mem_cons_self, hy⟩)
      · exact .inr (.inl (List.mem_cons_of_mem _ hy))
    | gt =>
      rw [hcmp] at hy
      rcases List.mem_cons.mp hy with rfl | hy
      · exact .inr (.inl List.mem_cons_self)
      · rcases ih hy with hy | hy | ⟨x', hx', hy⟩
        · exact .inl hy
        · exact .inr (.inl (List.mem_cons_of_mem _ hy))
        · exact .inr (.inr ⟨x', List.mem_cons_of_mem _ hx', hy⟩)

/-- After adding a position, every key is the key of it or an old one. -/
theorem key_mem_addTo {key : Value} {position : π} {entries : List (Entry π)} {y : Entry π}
    (hy : y ∈ addTo key position entries) : y.key = key ∨ ∃ x ∈ entries, y.key = x.key := by
  rcases mem_addTo hy with rfl | hy | ⟨x, hx, rfl⟩
  · exact .inl rfl
  · exact .inr ⟨y, hy, rfl⟩
  · rw [Entry.add_eq]
    exact .inr ⟨x, hx, rfl⟩

/-- After taking a position out, every entry is an old one, or the old one of the key with its other
positions. -/
theorem mem_takeFrom? {key : Value} {position : π} {entries rest : List (Entry π)}
    (htake : takeFrom? key position entries = some rest) {y : Entry π} (hy : y ∈ rest) :
    y ∈ entries ∨ ∃ x ∈ entries, y.key = x.key ∧ y.positions = x.positions.erase position ∧
      y.positions ≠ [] := by
  induction entries generalizing rest with
  | nil => cases htake
  | cons x xs ih =>
    rw [takeFrom?] at htake
    split at htake
    · split at htake
      · split at htake
        · cases htake
          exact .inl (List.mem_cons_of_mem _ hy)
        · next hne =>
          cases htake
          rcases List.mem_cons.mp hy with rfl | hy
          · exact .inr ⟨x, List.mem_cons_self, rfl, rfl, hne⟩
          · exact .inl (List.mem_cons_of_mem _ hy)
      · cases htake
    · obtain ⟨rest', htake', rfl⟩ := Option.map_eq_some_iff.mp htake
      rcases List.mem_cons.mp hy with rfl | hy
      · exact .inl List.mem_cons_self
      · rcases ih htake' hy with hy | ⟨x', hx', hrest⟩
        · exact .inl (List.mem_cons_of_mem _ hy)
        · exact .inr ⟨x', List.mem_cons_of_mem _ hx', hrest⟩

/-- The keys after taking a position out are left of the old ones. -/
theorem keys_takeFrom?_sublist {key : Value} {position : π} {entries rest : List (Entry π)}
    (htake : takeFrom? key position entries = some rest) :
    (rest.map Entry.key).Sublist (entries.map Entry.key) := by
  induction entries generalizing rest with
  | nil => cases htake
  | cons x xs ih =>
    rw [takeFrom?] at htake
    split at htake
    · split at htake
      · split at htake
        · cases htake
          exact List.sublist_cons_self _ _
        · cases htake
          exact List.Sublist.refl _
      · cases htake
    · obtain ⟨rest', htake', rfl⟩ := Option.map_eq_some_iff.mp htake
      exact (ih htake').cons_cons _

/-- Taking a position out keeps entries well kept. -/
theorem WellKept.takeFrom? {keys : Set Value} {key : Value} {position : π}
    {entries rest : List (Entry π)} (hkept : WellKept keys entries)
    (htake : takeFrom? key position entries = some rest) : WellKept keys rest := by
  -- The order is one of the keys alone, and the keys that are left are some of the old ones.
  have hsub := keys_takeFrom?_sublist htake
  obtain ⟨hkeys, hasc⟩ := ordered_iff_keys.mp hkept.toOrdered
  have hordered := ordered_iff_keys.mpr ⟨fun k hk => hkeys k (hsub.subset hk), hasc.sublist hsub⟩
  refine { hordered with positions_ne_nil := fun y hy => ?_, positions_nodup := fun y hy => ?_ }
  · rcases mem_takeFrom? htake hy with hy | ⟨x, hx, -, -, hne⟩
    · exact hkept.positions_ne_nil y hy
    · exact hne
  · rcases mem_takeFrom? htake hy with hy | ⟨x, hx, -, hpos, -⟩
    · exact hkept.positions_nodup y hy
    · rw [hpos]
      exact (hkept.positions_nodup x hx).erase position

variable {keys : Set Value} (order : Value.TotalPreorderOn keys) {key : Value} (hkey : key ∈ keys)
include order hkey

/-- Adding a position keeps entries in order. -/
theorem Ordered.addTo (position : π) {entries : List (Entry π)} (h : Ordered keys entries) :
    Ordered keys (addTo key position entries) := by
  induction entries with
  | nil => exact ordered_cons.mpr ⟨hkey, ordered_nil, by simp⟩
  | cons x xs ih =>
    obtain ⟨hx, hxs, hlt⟩ := ordered_cons.mp h
    rw [BTree.addTo]
    cases hcmp : key.compare x.key with
    | lt =>
      exact ordered_cons.mpr ⟨hkey, h, h.allAfter order hkey hcmp⟩
    | eq =>
      rw [Entry.add_eq]
      exact ordered_cons.mpr ⟨hx, hxs, hlt⟩
    | gt =>
      refine ordered_cons.mpr ⟨hx, ih hxs, fun y hy => ?_⟩
      rcases key_mem_addTo hy with hy | ⟨x', hx', hy⟩
      · rw [hy, Value.compare_swap, hcmp]
        rfl
      · rw [hy]
        exact hlt x' hx'

/-- Adding a position keeps entries well kept. -/
theorem WellKept.addTo (position : π) {entries : List (Entry π)} (hkept : WellKept keys entries) :
    WellKept keys (addTo key position entries) := by
  refine { hkept.toOrdered.addTo order hkey position with
    positions_ne_nil := fun y hy => ?_, positions_nodup := fun y hy => ?_ }
  · rcases mem_addTo hy with rfl | hy | ⟨x, hx, rfl⟩
    · exact List.cons_ne_nil _ _
    · exact hkept.positions_ne_nil y hy
    · rw [Entry.add_eq]
      exact addPosition_ne_nil
  · rcases mem_addTo hy with rfl | hy | ⟨x, hx, rfl⟩
    · simp
    · exact hkept.positions_nodup y hy
    · rw [Entry.add_eq]
      exact addPosition_nodup (hkept.positions_nodup x hx)

/-- Adding a position under a key shows under the keys that are the same, and under no others. -/
theorem positionsOf_addTo (position : π) {k : Value} (hk : k ∈ keys) {entries : List (Entry π)}
    (h : Ordered keys entries) :
    positionsOf k (addTo key position entries) =
      if sameKey k key then addPosition position (positionsOf k entries)
      else positionsOf k entries := by
  induction entries with
  | nil =>
    rw [addTo, positionsOf_cons]
    rfl
  | cons x xs ih =>
    obtain ⟨hx, hxs, hlt⟩ := ordered_cons.mp h
    cases hcmp : key.compare x.key with
    | lt =>
      rw [addTo_cons_of_lt hcmp, positionsOf_cons]
      split
      · next hsame =>
        -- No old key is the new one, so there are no old positions.
        have hlt : k.compare x.key = .lt := by
          rw [order.congr_left hk hkey hx (Value.sameKey_iff.mp hsame)]
          exact hcmp
        rw [positionsOf_of_lacks (h.allAfter order hk hlt).lacks]
        rfl
      · rfl
    | eq =>
      rw [addTo_cons_of_eq hcmp, Entry.add_eq, positionsOf_cons, positionsOf_cons]
      have hiff : sameKey k key = sameKey k x.key := by
        rw [sameKey, sameKey, order.congr_right hk hkey hx hcmp]
      rw [hiff]
      split <;> rfl
    | gt =>
      rw [addTo, hcmp, positionsOf_cons, positionsOf_cons, ih hxs]
      cases hsame : sameKey k x.key with
      | false => rfl
      | true =>
        -- The key comes after the entry, so it is not the same as the key of the entry.
        have hne : sameKey k key = false := by
          rw [sameKey, order.congr_left hk hx hkey (Value.sameKey_iff.mp hsame),
            Value.compare_swap, hcmp]
          rfl
        rw [hne]
        rfl

/-- Taking a position out from under a key shows under the keys that are the same, and under no
others. -/
theorem positionsOf_takeFrom? {position : π} {k : Value} (hk : k ∈ keys)
    {entries rest : List (Entry π)} (h : Ordered keys entries)
    (htake : takeFrom? key position entries = some rest) :
    positionsOf k rest =
      if sameKey k key then (positionsOf k entries).erase position
      else positionsOf k entries := by
  induction entries generalizing rest with
  | nil => cases htake
  | cons x xs ih =>
    obtain ⟨hx, hxs, hlt⟩ := ordered_cons.mp h
    rw [positionsOf_cons]
    rw [takeFrom?] at htake
    split at htake
    · next hfound =>
      have hfound := Value.sameKey_iff.mp hfound
      have hiff : sameKey k key = sameKey k x.key := by
        rw [sameKey, sameKey, order.congr_right hk hkey hx hfound]
      rw [hiff]
      split at htake
      · split at htake
        · next herase =>
          cases htake
          cases hsame : sameKey k x.key with
          | false => rfl
          | true =>
            -- The entry is gone, and no later one has its key.
            have hafter : AllAfter xs k := by
              intro y hy
              rw [order.congr_left hk hx (hxs.mem_keys y hy) (Value.sameKey_iff.mp hsame)]
              exact hlt y hy
            rw [positionsOf_of_lacks hafter.lacks]
            exact herase.symm
        · cases htake
          rw [positionsOf_cons]
          split <;> rfl
      · cases htake
    · next hnot =>
      obtain ⟨rest', htake', rfl⟩ := Option.map_eq_some_iff.mp htake
      rw [positionsOf_cons, ih hxs htake']
      cases hsame : sameKey k x.key with
      | false => rfl
      | true =>
        have hne : sameKey k key = false := by
          rw [Value.sameKey_comm, sameKey,
            order.congr_right hkey hk hx (Value.sameKey_iff.mp hsame)]
          simpa [sameKey] using hnot
        rw [hne]
        rfl

end

end RelStore.BTree
