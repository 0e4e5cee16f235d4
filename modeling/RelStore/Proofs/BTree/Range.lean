import Mathlib.Data.List.TakeWhile
import RelStore.BTree.Cursor
import RelStore.Proofs.BTree.History

/-!
# Ranges of an index tree

A cursor visits what is before it up to the first entry past the upper bound (`Cursor.toList_eq`),
hence from the root of a tree what the tree lists from the lower bound on (`toList_iterator`); this
holds of any tree, also where the keys have no order. Where they have one, nothing is passed over on
the way down that is not before the lower bound (`Node.listFrom_eq_filter`), and all that comes
after an entry past the upper bound is past it too, so the visit gives the entries between the
bounds (`run_iterator`).
-/

namespace RelStore.BTree

open Std (OrientedCmp)

variable {π : Type} {h : Nat}

/-! ## Cursors -/

/-- Frames that give no next entry have nothing before them up to the upper bound. -/
theorem Frame.takeWhile_pending_of_next?_none {start stop : Option Value}
    {stack : List (Frame π)} (hnext : next? start stop stack = none) :
    (pending start stack).takeWhile
      (fun entry => stop.all fun bound => entry.key.compare bound != .gt) = [] := by
  induction stack with
  | nil => rfl
  | cons frame stack ih =>
    rw [next?] at hnext
    split at hnext
    · next hnone =>
      rw [pending_cons, listBehind_of_entry?_none start hnone, List.nil_append]
      exact ih hnext
    · next entry hsome =>
      split at hnext
      · next hpast =>
        rw [pending_advance start hsome, List.takeWhile_cons, if_neg]
        cases stop with
        | none => cases hpast
        | some bound => simpa using hpast
      · cases hnext

/-- A next entry is not past the upper bound. -/
theorem Frame.within_of_next?_some {start stop : Option Value} {stack later : List (Frame π)}
    {entry : Entry π} (hnext : next? start stop stack = some (entry, later)) :
    (stop.all fun bound => entry.key.compare bound != .gt) = true := by
  induction stack with
  | nil => cases hnext
  | cons frame stack ih =>
    rw [next?] at hnext
    split at hnext
    · exact ih hnext
    · split at hnext
      · cases hnext
      · next hwithin =>
        cases hnext
        cases stop with
        | none => rfl
        | some bound => simpa using hwithin

/-- A cursor visits what is before it up to the first entry past the upper bound. -/
theorem Cursor.toList_eq (cursor : Cursor π) :
    cursor.toList = cursor.pending.takeWhile
      (fun entry => cursor.stop.all fun bound => entry.key.compare bound != .gt) := by
  induction cursor using toList.induct with
  | case1 cursor hnext =>
    have hend : Frame.next? cursor.start cursor.stop cursor.stack = none :=
      Option.map_eq_none_iff.mp hnext
    rw [toList, pending, Frame.takeWhile_pending_of_next?_none hend]
    split
    · rfl
    · next hsome =>
      rw [hnext] at hsome
      cases hsome
  | case2 cursor entry later hnext ih =>
    obtain ⟨⟨_, stack⟩, hstack, hlater⟩ := Option.map_eq_some_iff.mp hnext
    have hwithin := Frame.within_of_next?_some hstack
    have hpending := pending_of_next?_some hnext
    cases hlater
    rw [hpending, List.takeWhile_cons, if_pos hwithin, ← ih, toList]
    split
    · next hnone =>
      rw [hnext] at hnone
      cases hnone
    · next hsome =>
      rw [hnext] at hsome
      cases hsome
      rfl

/-- A cursor over a tree visits its range. -/
theorem toList_iterator (tree : BTree π) (start stop : Option Value) :
    (tree.iterator start stop).toList = tree.range start stop := by
  rw [Cursor.toList_eq, Cursor.pending, iterator, Node.pending_leftPath, range]
  exact congrArg _ (List.append_nil _)

/-! ## Bounds -/

/-- Whether a key lies between two bounds, as far as they are given. -/
def between (start stop : Option Value) (key : Value) : Bool :=
  (start.all fun bound => (bound.compare key).isLE) &&
    stop.all fun bound => (key.compare bound).isLE

section

variable {keys : Set Value} (order : Value.TotalPreorderOn keys) {start stop : Value}

/-- Children between entries that are not before a lower bound list from the bound on what is not
before it, if each of them does. -/
theorem Node.flatMap_listFrom_eq_filter {pairs : List (Node π h × Entry π)}
    (hchildren : ∀ pair ∈ pairs, listFrom (some start) h pair.1 =
      (toList h pair.1).filter fun entry => (start.compare entry.key).isLE)
    (hown : ∀ entry ∈ pairs.map (·.2), (start.compare entry.key).isLE = true) :
    (pairs.flatMap fun (child, entry) => listFrom (some start) h child ++ [entry]) =
      (spread pairs).filter fun entry => (start.compare entry.key).isLE := by
  induction pairs with
  | nil => rfl
  | cons pair pairs ih =>
    obtain ⟨child, entry⟩ := pair
    obtain ⟨hchild, hchildren⟩ := List.forall_mem_cons.mp hchildren
    obtain ⟨hentry, hown⟩ := List.forall_mem_cons.mp hown
    rw [List.flatMap_cons, ih hchildren hown, spread_cons, List.filter_append,
      List.filter_cons, if_pos hentry, ← hchild, List.append_assoc, List.singleton_append]

include order

/-- A visit of an ordered subtree from a lower bound on lists the entries that are not before it. -/
theorem Node.listFrom_eq_filter (hstart : start ∈ keys) (node : Node π h)
    (hnode : Ordered keys (toList h node)) :
    listFrom (some start) h node =
      (toList h node).filter fun entry => (start.compare entry.key).isLE := by
  have early {entries : List (Entry π)} (hbefore : AllBefore entries start) :
      entries.filter (fun entry => (start.compare entry.key).isLE) = [] :=
    List.filter_eq_nil_iff.mpr fun entry hentry =>
      OrientedCmp.not_isLE_of_lt (hbefore entry hentry)
  have late {entries : List (Entry π)} (hlate : ∀ entry ∈ entries, entry.key.compare start ≠ .lt) :
      ∀ entry ∈ entries, (start.compare entry.key).isLE = true := fun entry hentry =>
    Ordering.isLE_iff_ne_gt.mpr (mt OrientedCmp.gt_iff_lt.mp (hlate entry hentry))
  induction h with
  | zero =>
    change Leaf π at node
    change Ordered keys node.entries at hnode
    obtain ⟨hbefore, hlate⟩ := hnode.place_parts order hstart
    change node.entries.drop (place start node.entries) = node.entries.filter _
    conv_rhs => rw [← List.take_append_drop (place start node.entries) node.entries]
    rw [List.filter_append, early hbefore, List.filter_eq_self.mpr (late hlate), List.nil_append]
  | succ h ih =>
    change Branch π (Node π h) at node
    rw [toList_branch] at hnode
    obtain ⟨hpairs, hlast, -⟩ := ordered_append.mp hnode
    obtain ⟨hbefore, hlate⟩ :=
      (hpairs.sublist (entries_sublist_spread _)).place_parts order hstart
    rw [toList_branch, listFrom, ih node.last hlast, List.filter_append]
    congr 1
    -- Only the pairs from the place on are visited, and all that the others list is too early.
    change ((node.pairs.drop (place start node.entries)).flatMap _) = _
    change AllBefore (node.entries.take (place start node.entries)) start at hbefore
    change ∀ entry ∈ node.entries.drop (place start node.entries), _ at hlate
    generalize place start node.entries = i at hbefore hlate ⊢
    rw [Branch.entries, ← List.map_take] at hbefore
    rw [Branch.entries, ← List.map_drop] at hlate
    rw [← List.take_append_drop i node.pairs, spread_append] at hpairs
    obtain ⟨hfront, hback, -⟩ := ordered_append.mp hpairs
    conv_rhs => rw [← List.take_append_drop i node.pairs]
    rw [spread_append, List.filter_append, early (spread_allBefore order hstart hfront hbefore),
      List.nil_append]
    refine flatMap_listFrom_eq_filter (fun pair hpair => ih pair.1 ?_) (late hlate)
    exact hback.sublist (toList_sublist_spread hpair)

/-- The first of ordered entries up to an upper bound are all that are not past it. -/
theorem Ordered.takeWhile_eq_filter {entries : List (Entry π)} (hentries : Ordered keys entries)
    (hstop : stop ∈ keys) :
    (entries.takeWhile fun entry => entry.key.compare stop != .gt) =
      entries.filter fun entry => (entry.key.compare stop).isLE := by
  induction entries with
  | nil => rfl
  | cons entry entries ih =>
    by_cases hpast : entry.key.compare stop = .gt
    · -- All entries behind one that is past the bound are past it.
      have hafter := hentries.allAfter order hstop (OrientedCmp.gt_iff_lt.mp hpast)
      rw [List.takeWhile_cons, if_neg (by rw [hpast]; decide), eq_comm, List.filter_eq_nil_iff]
      exact fun e he => OrientedCmp.not_isLE_of_lt (hafter e he)
    · rw [List.takeWhile_cons, if_pos (bne_iff_ne.mpr hpast),
        ih (ordered_cons.mp hentries).2.1, List.filter_cons,
        if_pos (Ordering.isLE_iff_ne_gt.mpr hpast)]

/-- The range of a valid tree between two bounds is what lies between them. -/
theorem Valid.range_eq {tree : BTree π} (htree : Valid keys tree) {start stop : Option Value}
    (hstart : ∀ bound ∈ start, bound ∈ keys) (hstop : ∀ bound ∈ stop, bound ∈ keys) :
    tree.range start stop = tree.entries.filter fun entry => between start stop entry.key := by
  have hordered := htree.wellKept.toOrdered
  have hfrom : Node.listFrom start tree.depth tree.root =
      tree.toList.filter fun entry => start.all fun bound => (bound.compare entry.key).isLE := by
    cases start with
    | none => rw [Node.listFrom_none, ← toList, eq_comm, List.filter_eq_self]; exact fun _ _ => rfl
    | some start => exact Node.listFrom_eq_filter order (hstart start rfl) tree.root hordered
  have hupTo {entries : List (Entry π)} (hentries : Ordered keys entries) :
      (entries.takeWhile fun entry => stop.all fun bound => entry.key.compare bound != .gt) =
        entries.filter fun entry => stop.all fun bound => (entry.key.compare bound).isLE := by
    cases stop with
    | none =>
      exact (List.takeWhile_eq_self_iff.mpr fun _ _ => rfl).trans
        (List.filter_eq_self.mpr fun _ _ => rfl).symm
    | some stop => exact hentries.takeWhile_eq_filter order (hstop stop rfl)
  rw [range, hfrom, entries_eq_toList, hupTo (hordered.sublist List.filter_sublist),
    List.filter_filter]
  exact List.filter_congr fun entry _ => Bool.and_comm _ _

end

section

variable [DecidableEq π]

/-- A scan of a tree between two bounds, each of them given or not, visits the entries between them
in ascending order, and a search of the range gives their positions: so it is after any operations
with keys on which the order of values is a total preorder, when the bounds are of these too. -/
theorem run_iterator {keys : Set Value} (order : Value.TotalPreorderOn keys) (degree : Order)
    (operations : List (Operation π)) (hkeys : ∀ operation ∈ operations, operation.KeyIn keys)
    (start stop : Option Value) (hstart : ∀ bound ∈ start, bound ∈ keys)
    (hstop : ∀ bound ∈ stop, bound ∈ keys) :
    let tree := run degree operations
    let visited := (tree.iterator start stop).toList
    tree.entries = (tree.iterator none none).toList ∧
      visited = tree.entries.filter (fun entry => between start stop entry.key) ∧
      visited.Pairwise (fun a b => a.key.compare b.key = .lt) ∧
      tree.searchRange start stop = visited.flatMap Entry.positions := by
  intro tree visited
  have hvalid : Valid keys tree := (run_reflects order degree hkeys).valid
  have hvisited : visited = tree.entries.filter fun entry => between start stop entry.key := by
    rw [← hvalid.range_eq order hstart hstop]
    exact tree.toList_iterator start stop
  refine ⟨(tree.toList_iterator none none).symm, hvisited, ?_, ?_⟩
  · rw [hvisited, entries_eq_toList]
    exact hvalid.wellKept.ascending.sublist List.filter_sublist
  · exact congrArg (List.flatMap Entry.positions) (tree.toList_iterator start stop).symm

/-- Between the two truth values, after one has been deleted, lies what is left of them; the other
way round there is nothing between them. -/
theorem run_iterator_boolean :
    let operations : List (Operation Nat) :=
      [.insert (.bool true) 0, .insert .null 1, .insert (.bool false) 2, .insert (.bool true) 3,
        .delete (.bool false) 2]
    let tree := run .default operations
    (tree.iterator (some (.bool false)) (some (.bool true))).toList = [⟨.bool true, [0, 3]⟩] ∧
      tree.searchRange (some (.bool false)) (some (.bool true)) = [0, 3] ∧
      (tree.iterator (some (.bool true)) (some (.bool false))).toList = [] := by
  intro operations tree
  have hnull := DataType.boolean.null_mem_keys
  have htruth (b : Bool) : Value.bool b ∈ DataType.boolean.keys := ⟨rfl, nofun⟩
  have hkeys : ∀ operation ∈ operations, operation.KeyIn DataType.boolean.keys := by
    simp only [operations, List.forall_mem_cons, List.not_mem_nil, false_imp_iff, implies_true,
      and_true, Operation.KeyIn]
    exact ⟨htruth true, hnull, htruth false, htruth true, htruth false⟩
  have hbound (b : Bool) : ∀ bound ∈ some (Value.bool b), bound ∈ DataType.boolean.keys := by
    rintro bound ⟨⟩
    exact htruth b
  have scan := run_iterator DataType.boolean.keys_totalPreorder .default operations hkeys
  obtain ⟨-, hup, -, hpositions⟩ := scan _ _ (hbound false) (hbound true)
  obtain ⟨-, hdown, -, -⟩ := scan _ _ (hbound true) (hbound false)
  exact ⟨hup.trans (by decide), hpositions.trans (by rw [hup]; decide), hdown.trans (by decide)⟩

end

end RelStore.BTree
