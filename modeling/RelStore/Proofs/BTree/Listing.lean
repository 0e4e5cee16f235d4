import RelStore.Proofs.BTree.Occupancy
import RelStore.Proofs.BTree.WellKept

/-!
# What operations do to the list of entries, whatever the order of the keys

Without an order of the keys, an operation may work at any place of a subtree's list of entries, but
it still works at one place only. An insertion makes an entry there or adds to the one that is there
(`Puts`); a removal takes a position out of an entry there, or the entry itself (`Cuts`). The number
of entries follows from this, and that every entry has positions of which none occurs twice
(`Stocked`).
-/

namespace RelStore.BTree

variable {π : Type} {h : Nat}

/-- Every entry has positions, of which none occurs twice. -/
def Stocked (entries : List (Entry π)) : Prop :=
  ∀ entry ∈ entries, entry.positions ≠ [] ∧ entry.positions.Nodup

/-- An entry among others, all of them with positions. -/
theorem stocked_append_cons {before after : List (Entry π)} {entry : Entry π} :
    Stocked (before ++ entry :: after) ↔
      Stocked before ∧ (entry.positions ≠ [] ∧ entry.positions.Nodup) ∧ Stocked after := by
  rw [Stocked, List.forall_mem_append, List.forall_mem_cons]
  rfl

namespace Branch

open Node

/-- A branch that takes back a child lists in its place what has become of it. -/
theorem exists_toList_replace (branch : Branch π (Node π h)) (i : Nat) :
    ∃ before after,
      toList (h + 1) (branch : Node π (h + 1)) =
        before ++ (toList h (branch.childAt i) ++ after) ∧
      ∀ grown, toList (h + 1) (branch.replace i grown : Node π (h + 1)) =
        before ++ (grown.toList ++ after) := by
  unfold childAt
  split
  · next hdrop =>
    refine ⟨spread branch.pairs, [], ?_, fun grown => ?_⟩
    · rw [toList_branch, List.append_nil]
    · rw [toList_replace_last hdrop, List.append_nil]
  · next child entry after hdrop =>
    exact ⟨_, _, toList_of_drop hdrop, toList_replace_inner hdrop⟩

end Branch

section

variable [DecidableEq π] {key : Value} {position : π} {xs ys : List (Entry π)}

/-! ## Adding a position -/

/-- Some entries become others by a position that is added, and there may be a new entry. -/
inductive Puts (key : Value) (position : π) :
    List (Entry π) → List (Entry π) → Bool → Prop where
  /-- There is a new entry. -/
  | fresh (before after : List (Entry π)) :
      Puts key position (before ++ after) (before ++ ⟨key, [position]⟩ :: after) true
  /-- An entry has the position added. -/
  | joined (before : List (Entry π)) (entry : Entry π) (after : List (Entry π)) :
      Puts key position (before ++ entry :: after) (before ++ entry.add position :: after) false

namespace Puts

variable {isNew : Bool}

/-- What is done to a part of some entries is done to the whole. -/
theorem within (hputs : Puts key position xs ys isNew) (before after : List (Entry π)) :
    Puts key position (before ++ (xs ++ after)) (before ++ (ys ++ after)) isNew := by
  cases hputs with
  | fresh front back =>
    have hputs : Puts key position _ _ true := .fresh (before ++ front) (back ++ after)
    simpa only [List.append_assoc, List.cons_append] using hputs
  | joined front entry back =>
    have hputs : Puts key position _ _ false := .joined (before ++ front) entry (back ++ after)
    simpa only [List.append_assoc, List.cons_append] using hputs

/-- There is one entry more when it is new. -/
theorem length_eq (hputs : Puts key position xs ys isNew) :
    ys.length = xs.length + isNew.toNat := by
  cases hputs with
  | fresh before after =>
    simp only [List.length_append, List.length_cons, Bool.toNat_true]
    omega
  | joined before entry after => simp only [List.length_append, List.length_cons, Bool.toNat_false,
      Nat.add_zero]

/-- All entries have positions if they had. -/
theorem stocked (hputs : Puts key position xs ys isNew) (hxs : Stocked xs) : Stocked ys := by
  cases hputs with
  | fresh before after =>
    obtain ⟨hbefore, hafter⟩ := List.forall_mem_append.mp hxs
    refine stocked_append_cons.mpr ⟨hbefore, ⟨?_, ?_⟩, hafter⟩
    · exact List.cons_ne_nil _ _
    · exact List.nodup_cons.mpr ⟨List.not_mem_nil, List.nodup_nil⟩
  | joined before entry after =>
    obtain ⟨hbefore, ⟨-, hnodup⟩, hafter⟩ := stocked_append_cons.mp hxs
    rw [Entry.add_eq]
    refine stocked_append_cons.mpr ⟨hbefore, ⟨?_, ?_⟩, hafter⟩
    · exact addPosition_ne_nil
    · exact addPosition_nodup hnodup

/-- The keys are those from before and the one that the position is under. -/
theorem forall_key {p : Value → Prop} (hputs : Puts key position xs ys isNew) (hkey : p key)
    (hxs : ∀ entry ∈ xs, p entry.key) : ∀ entry ∈ ys, p entry.key := by
  cases hputs with
  | fresh before after =>
    obtain ⟨hbefore, hafter⟩ := List.forall_mem_append.mp hxs
    exact List.forall_mem_append.mpr ⟨hbefore, List.forall_mem_cons.mpr ⟨hkey, hafter⟩⟩
  | joined before entry after =>
    obtain ⟨hbefore, hrest⟩ := List.forall_mem_append.mp hxs
    obtain ⟨hentry, hafter⟩ := List.forall_mem_cons.mp hrest
    rw [Entry.add_eq]
    exact List.forall_mem_append.mpr ⟨hbefore, List.forall_mem_cons.mpr ⟨hentry, hafter⟩⟩

end Puts

namespace Node

/-- Growing a child puts the position into its list, if descending into a node does so. -/
theorem grow_puts (degree : Nat) (key : Value) (position : π)
    {descend : Node π h → Arena → Inserted (Node π h)}
    (hdescend : ∀ (node : Node π h) (arena : Arena),
      Puts key position (toList h node) (toList h (descend node arena).result)
        (descend node arena).isNew)
    (child : Node π h) (arena : Arena) :
    Puts key position (toList h child) (grow degree key position descend child arena).result.toList
      (grow degree key position descend child arena).isNew := by
  unfold grow
  split
  · exact hdescend child arena
  · next left middle right hsplit =>
    rw [toList_of_halves? (halves?_of_split? hsplit).2]
    split
    · exact .joined _ middle _
    · exact (hdescend left arena.taken).within [] (middle :: toList h right)
    · have hputs := (hdescend right arena.taken).within (toList h left ++ [middle]) []
      simpa only [List.append_nil, List.append_assoc, List.singleton_append, Grown.toList]
        using hputs

/-- An insertion into a subtree puts the position into its list. -/
theorem insert_puts (degree : Nat) (key : Value) (position : π) (node : Node π h) (arena : Arena) :
    Puts key position (toList h node) (toList h (insert degree key position h node arena).result)
      (insert degree key position h node arena).isNew := by
  induction h generalizing arena with
  | zero =>
    change Leaf π at node
    generalize hinsert : insert degree key position 0 node arena = inserted
    cases Leaf.inserts hinsert with
    | fresh hentries =>
      change Puts key position node.entries _ _
      rw [hentries]
      exact .fresh _ _
    | joined hentries =>
      change Puts key position node.entries _ _
      rw [hentries]
      exact .joined _ _ _
  | succ h ih =>
    change Branch π (Node π h) at node
    generalize hinsert : insert degree key position (h + 1) node arena = inserted
    cases Branch.inserts hinsert with
    | @own before after child entry hpairs =>
      rw [toList_branch, hpairs, spread_append, spread_cons, Branch.toList_mk]
      have hputs : Puts key position _ _ false := .joined (spread before ++ toList h child) entry
        (spread after ++ toList h node.last)
      simpa only [List.append_assoc, List.cons_append] using hputs
    | below i hgrown =>
      subst hgrown
      obtain ⟨before, after, hlist, hreplace⟩ := node.exists_toList_replace i
      rw [hlist, hreplace]
      exact (grow_puts degree key position ih _ arena).within before after

end Node

/-! ## Taking a position out -/

/-- Some entries become others by a position that is taken out, and an entry may go with it. -/
inductive Cuts (position : π) : List (Entry π) → List (Entry π) → Bool → Prop where
  /-- An entry keeps its other positions. -/
  | kept (before : List (Entry π)) {entry : Entry π} (hrest : entry.positions.erase position ≠ [])
      (after : List (Entry π)) :
      Cuts position (before ++ entry :: after)
        (before ++ ⟨entry.key, entry.positions.erase position⟩ :: after) false
  /-- An entry goes. -/
  | gone (before : List (Entry π)) (entry : Entry π) (after : List (Entry π)) :
      Cuts position (before ++ entry :: after) (before ++ after) true

namespace Cuts

variable {keyGone : Bool}

/-- What is done to a part of some entries is done to the whole. -/
theorem within (hcuts : Cuts position xs ys keyGone) (before after : List (Entry π)) :
    Cuts position (before ++ (xs ++ after)) (before ++ (ys ++ after)) keyGone := by
  cases hcuts with
  | kept front hrest back =>
    have hcuts := Cuts.kept (before ++ front) hrest (back ++ after)
    simpa only [List.append_assoc, List.cons_append] using hcuts
  | gone front entry back =>
    have hcuts : Cuts position _ _ true := .gone (before ++ front) entry (back ++ after)
    simpa only [List.append_assoc, List.cons_append] using hcuts

/-- There is one entry less when it is gone. -/
theorem length_eq (hcuts : Cuts position xs ys keyGone) :
    ys.length + keyGone.toNat = xs.length := by
  cases hcuts with
  | kept before hrest after => simp only [List.length_append, List.length_cons, Bool.toNat_false,
      Nat.add_zero]
  | gone before entry after =>
    simp only [List.length_append, List.length_cons, Bool.toNat_true]
    omega

/-- All entries have positions if they had. -/
theorem stocked (hcuts : Cuts position xs ys keyGone) (hxs : Stocked xs) : Stocked ys := by
  cases hcuts with
  | kept before hrest after =>
    obtain ⟨hbefore, ⟨-, hnodup⟩, hafter⟩ := stocked_append_cons.mp hxs
    exact stocked_append_cons.mpr ⟨hbefore, ⟨hrest, hnodup.erase position⟩, hafter⟩
  | gone before entry after =>
    obtain ⟨hbefore, -, hafter⟩ := stocked_append_cons.mp hxs
    exact List.forall_mem_append.mpr ⟨hbefore, hafter⟩

end Cuts

namespace Node

/-- A removal from a subtree cuts the position out of its list. -/
theorem remove?_cuts (node : Node π h) {removed : Removed (Node π h)}
    (hremove : remove? key position h node = some removed) :
    Cuts position (toList h node) (toList h removed.result) removed.keyGone := by
  induction h with
  | zero =>
    change Leaf π at node
    cases Leaf.removes hremove with
    | kept hentries hrest =>
      change Cuts position node.entries _ _
      rw [hentries]
      exact .kept _ hrest _
    | gone hentries =>
      change Cuts position node.entries _ _
      rw [hentries]
      exact .gone _ _ _
  | succ h ih =>
    change Branch π (Node π h) at node
    -- The list changes below the child of one pair or in its entry; the rest is passed over.
    have toList_pair {before after : List (Node π h × Entry π)} {child : Node π h}
        {entry : Entry π} (hpairs : node.pairs = before ++ (child, entry) :: after) :
        toList (h + 1) (node : Node π (h + 1)) = spread before ++
          (toList h child ++ entry :: (spread after ++ toList h node.last)) := by
      rw [← Branch.toList_mk node.slot, ← hpairs]
    cases Branch.removes hremove with
    | last hbelow =>
      have hcuts := (ih node.last hbelow).within (spread node.pairs) []
      simpa only [toList_branch, List.append_nil] using hcuts
    | inner hpairs hbelow =>
      rw [toList_pair hpairs, List.singleton_append, Branch.toList_mk]
      exact (ih _ hbelow).within _ _
    | @kept before after child entry hpairs hrest =>
      rw [toList_pair hpairs, List.singleton_append, Branch.toList_mk]
      have hcuts := Cuts.kept (spread before ++ toList h child) hrest
        (spread after ++ toList h node.last)
      simpa only [List.append_assoc] using hcuts
    | @exchanged before after child entry hpairs popped hpop =>
      rw [toList_pair hpairs, toList_of_popMax_some hpop, List.singleton_append, Branch.toList_mk]
      have hcuts : Cuts position _ _ true :=
        .gone (spread before ++ (toList h popped.result ++ [popped.entry])) entry
          (spread after ++ toList h node.last)
      simpa only [List.append_assoc, List.singleton_append, List.cons_append, List.nil_append]
        using hcuts
    | @dropped before after child entry hpairs hpop =>
      rw [toList_pair hpairs, toList_of_popMax_none hpop, List.nil_append, List.nil_append,
        toList_branch]
      have hcuts : Cuts position _ _ true :=
        .gone (spread before) entry (spread after ++ toList h node.last)
      simpa only [spread_append, List.append_assoc] using hcuts

end Node

end

end RelStore.BTree
