import Mathlib.Algebra.Ring.Nat
import RelStore.Proofs.BTree.Kept

/-!
# The height of trees that only grow

The halves of a full node have an entry each as soon as a node may have four children. A tree that
only grows has then an entry in every node, and its number of levels is at most the logarithm of its
number of keys. Trees of the least order, whose full nodes have two entries, leave nothing to the
right half: keys that come in descending order fill the nodes on the way to the first leaf with two
entries each, the nodes beside it stay empty, and every other key makes the tree higher
(`run_insertions_height`).
-/

namespace RelStore.BTree

variable {π : Type} {h : Nat}

/-! ## An entry in every node -/

/-- A subtree with an entry in every node has as many entries as a binary one of its height. -/
theorem Node.two_pow_le_length {degree : Nat} (node : Node π h) (hnode : Filled 1 degree h node) :
    2 ^ (h + 1) ≤ (toList h node).length + 1 := by
  induction h with
  | zero =>
    have hpos := hnode.1
    change 2 ^ 1 ≤ (toList 0 node).length + 1
    change 1 ≤ (toList 0 node).length at hpos
    omega
  | succ h ih =>
    change Branch π (Node π h) at node
    obtain ⟨⟨hpos, -⟩, hchildren⟩ := hnode
    obtain ⟨hinner, hlast⟩ := List.forall_mem_append.mp hchildren
    obtain ⟨⟨child, entry⟩, after, hpairs⟩ := List.exists_cons_of_length_pos hpos
    rw [hpairs] at hinner
    have hfirst := ih child (hinner child List.mem_cons_self)
    have hlast := ih node.last (List.forall_mem_singleton.mp hlast)
    rw [toList_branch, hpairs, spread_cons, List.length_append, List.length_append,
      List.length_cons, Nat.pow_succ]
    omega

section

variable [DecidableEq π] {degree : Order}

/-- Insertions, one after the other. -/
def insertions (inserted : List (Value × π)) : List (Operation π) :=
  inserted.map fun (key, position) => .insert key position

/-- The last of some insertions is one into the tree that the others have made. -/
theorem run_insertions_concat (inserted : List (Value × π)) (key : Value) (position : π) :
    run degree (insertions (inserted ++ [(key, position)])) =
      (run degree (insertions inserted)).insert key position := by
  rw [insertions, List.map_append, run, List.foldl_append]
  rfl

/-- What holds of all inserted keys holds of the keys of a tree. -/
theorem forall_key_run_insertions (p : Value → Prop) {inserted : List (Value × π)}
    (hinserted : ∀ x ∈ inserted, p x.1) :
    ∀ entry ∈ (run degree (insertions inserted)).toList, p entry.key := by
  induction inserted using List.reverseRecOn with
  | nil => exact fun entry hentry => absurd hentry List.not_mem_nil
  | append_singleton inserted last ih =>
    obtain ⟨key, position⟩ := last
    obtain ⟨hinserted, hlast⟩ := List.forall_mem_append.mp hinserted
    obtain ⟨isNew, hputs, -⟩ := (run degree (insertions inserted)).insert_puts key position
    rw [run_insertions_concat]
    exact hputs.forall_key (hlast _ List.mem_cons_self) (ih hinserted)

/-- The first insertion makes an entry in the root. -/
theorem insert_empty (degree : Order) (key : Value) (position : π) :
    (empty degree).insert key position =
      ⟨degree, 0, (⟨0, [⟨key, [position]⟩]⟩ : Leaf π), .single, 1⟩ := by
  have hdegree := degree.inRange.1
  have hroom : Node.isFull degree.degree 0 (⟨0, []⟩ : Leaf π) = false :=
    beq_eq_false_iff_ne.mpr (by change 0 ≠ degree.degree - 1; omega)
  exact if_neg (Bool.eq_false_iff.mp hroom)

/-- Where the halves of full nodes have entries, insertions leave an entry in every node. -/
theorem filled_run_insertions (hdegree : 4 ≤ degree.degree) {inserted : List (Value × π)}
    (hne : inserted ≠ []) :
    Node.Filled 1 degree.degree (run degree (insertions inserted)).depth
      (run degree (insertions inserted)).root := by
  induction inserted using List.reverseRecOn with
  | nil => exact absurd rfl hne
  | append_singleton inserted last ih =>
    obtain ⟨key, position⟩ := last
    rw [run_insertions_concat]
    by_cases hnil : inserted = []
    · subst hnil
      have hfirst : run degree (insertions ([] : List (Value × π))) = empty degree := rfl
      rw [hfirst, insert_empty]
      exact ⟨Nat.le_refl 1, by change 1 < degree.degree; omega⟩
    · have horder := (run_kept degree (insertions inserted)).order_eq
      have hfilled := ih hnil
      generalize run degree (insertions inserted) = tree at horder hfilled ⊢
      subst horder
      exact filled_insert (Nat.le_refl 1) (by omega) (by omega) hfilled

end

/-! ## Nothing in the right halves -/

namespace Node

/-- The nodes on the way to the first leaf have two entries each, but `count` of them at the top. -/
def Front (count : Nat) : (h : Nat) → Node π h → Prop
  | 0, (leaf : Leaf π) => leaf.entries.length = count
  | h + 1, (branch : Branch π (Node π h)) =>
    branch.pairs.length = count ∧ Front 2 h (branch.childAt 0)

/-- The count is that of the root's entries. -/
theorem Front.length_eq {count : Nat} {node : Node π h} (hfront : Front count h node) :
    (ownEntries h node).length = count := by
  cases h with
  | zero => exact hfront
  | succ h =>
    change Branch π (Node π h) at node
    rw [ownEntries, Branch.entries, List.length_map]
    exact hfront.1

/-- The place of a key before all entries is the first one. -/
theorem place_of_allAfter {key : Value} {entries : List (Entry π)} (hafter : AllAfter entries key) :
    place key entries = 0 := by
  have hlate : ∀ entry ∈ entries, (entry.key.compare key == .lt) = false := by
    intro entry hentry
    rw [Value.compare_swap, hafter entry hentry]
    rfl
  exact @partitionPoint_append _ _ [] entries (by simp) hlate

/-- The left half of two entries is the first one, with all that lies in front of it. -/
theorem front_of_halves? {slot : Nat} {node left right : Node π h} {middle : Entry π}
    (hfront : Front 2 h node) (hhalves : halves? 3 slot h node = some (left, middle, right)) :
    Front 1 h left := by
  cases h with
  | zero =>
    change Leaf π at node
    change node.entries.length = 2 at hfront
    rw [halves?] at hhalves
    split at hhalves
    · cases hhalves
    · cases hhalves
      change (node.entries.take 1).length = 1
      rw [List.length_take]
      omega
  | succ h =>
    change Branch π (Node π h) at node
    obtain ⟨hlength, hbelow⟩ := hfront
    rw [halves?] at hhalves
    split at hhalves
    · cases hhalves
    · cases hhalves
      obtain ⟨first, second, hpairs⟩ := List.length_eq_two.mp hlength
      rw [Branch.childAt, hpairs] at hbelow
      rw [Front, Branch.childAt, hpairs]
      exact ⟨rfl, hbelow⟩

section

variable [DecidableEq π] {key : Value} (position : π)

/-- A key before all others splits a front of full nodes and makes the left half full again, if it
does so with a front that has room. -/
theorem exists_grow_front {descend : Node π h → Arena → Inserted (Node π h)}
    (hdescend : ∀ (node : Node π h) (arena : Arena), Front 1 h node → AllAfter (toList h node) key →
      Front 2 h (descend node arena).result ∧ (descend node arena).isNew = true)
    {child : Node π h} (arena : Arena) (hfront : Front 2 h child)
    (hafter : AllAfter (toList h child) key) :
    ∃ left middle right, (grow 3 key position descend child arena).result = .two left middle right ∧
      Front 2 h left ∧ (grow 3 key position descend child arena).isNew = true := by
  have hfull : isFull 3 h child = true := beq_iff_eq.mpr hfront.length_eq
  obtain ⟨⟨left, middle, right⟩, hhalves⟩ := exists_halves? (by decide) arena.next hfull
  have hsplit : split? 3 arena.next h child = some (left, middle, right) := by
    rw [split?, if_pos hfull, hhalves]
  rw [toList_of_halves? hhalves] at hafter
  obtain ⟨hleft, hrest⟩ := List.forall_mem_append.mp hafter
  have hmiddle : key.compare middle.key = .lt := (List.forall_mem_cons.mp hrest).1
  obtain ⟨hbelow, hnew⟩ := hdescend left arena.taken (front_of_halves? hfront hhalves) hleft
  rw [grow, hsplit]
  simp only [hmiddle]
  exact ⟨_, _, _, rfl, hbelow, hnew⟩

/-- A key before all others makes a front with room at the top full. -/
theorem insert_front (node : Node π h) (arena : Arena) (hfront : Front 1 h node)
    (hafter : AllAfter (toList h node) key) :
    Front 2 h (insert 3 key position h node arena).result ∧
      (insert 3 key position h node arena).isNew = true := by
  induction h generalizing arena with
  | zero =>
    change Leaf π at node
    obtain ⟨entry, hentries⟩ := List.length_eq_one_iff.mp hfront
    change AllAfter node.entries key at hafter
    have hplace := place_of_allAfter hafter
    rw [hentries] at hafter hplace
    have hne := not_sameKey_of_lt (hafter entry List.mem_cons_self)
    have hinsert : insert 3 key position 0 node arena =
        ⟨(⟨node.slot, [⟨key, [position]⟩, entry]⟩ : Leaf π), arena, true⟩ := by
      simp [insert, hentries, hplace, hne]
    rw [hinsert]
    exact ⟨rfl, rfl⟩
  | succ h ih =>
    change Branch π (Node π h) at node
    obtain ⟨hlength, hbelow⟩ := hfront
    obtain ⟨⟨child, entry⟩, hpairs⟩ := List.length_eq_one_iff.mp hlength
    have hbelow : Front 2 h child := by
      rw [Branch.childAt, hpairs] at hbelow
      exact hbelow
    rw [toList_branch, hpairs, spread_cons, List.append_assoc] at hafter
    obtain ⟨hchild, hrest⟩ := List.forall_mem_append.mp hafter
    have hlt : key.compare entry.key = .lt := hrest entry List.mem_cons_self
    have hplace : place key node.entries = 0 := by
      rw [Branch.entries, hpairs]
      exact place_of_allAfter (List.forall_mem_singleton.mpr hlt)
    obtain ⟨left, middle, right, hgrown, hleft, hnew⟩ :=
      exists_grow_front position ih arena hbelow hchild
    have hinsert : insert 3 key position (h + 1) node arena =
        ⟨(⟨node.slot, [(left, middle), (right, entry)], node.last⟩ : Branch π (Node π h)),
          (grow 3 key position (insert 3 key position h) child arena).arena, true⟩ := by
      simp [insert, hpairs, hplace, not_sameKey_of_lt hlt, hgrown, hnew, Branch.replace]
    rw [hinsert]
    exact ⟨⟨rfl, hleft⟩, rfl⟩

end

end Node

section

variable [DecidableEq π]

/-- A tree of the least order that has grown to one side: its keys are two for each level, but
`count` for the highest one. -/
structure Leaning (number count : Nat) (tree : BTree π) : Prop where
  /-- The order is the least one. -/
  degree_eq : tree.order.degree = 3
  /-- The keys are on the way to the first leaf. -/
  front : Node.Front count tree.depth tree.root
  /-- There are so many on this way. -/
  number_eq : number = 2 * tree.depth + count
  /-- There are no others. -/
  size_eq : tree.size = number

variable {degree : Order} {tree : BTree π} {key : Value} {position : π} {number : Nat}

/-- A key before all others fills the root of a leaning tree. -/
theorem Leaning.insert_one (htree : Leaning number 1 tree) (hafter : AllAfter tree.toList key) :
    Leaning (number + 1) 2 (tree.insert key position) := by
  obtain ⟨hdegree, hfront, hnumber, hsize⟩ := htree
  have hroom : Node.isFull 3 tree.depth tree.root = false :=
    beq_eq_false_iff_ne.mpr (by rw [hfront.length_eq]; decide)
  obtain ⟨hresult, hnew⟩ := Node.insert_front position tree.root tree.arena hfront hafter
  generalize hinsert : tree.insert key position = result
  cases hinsert ▸ tree.inserts key position with
  | below _ hbelow =>
    rw [hdegree] at hbelow
    subst hbelow
    exact ⟨hdegree, hresult, by rw [hnumber], by rw [hsize, hnew]; rfl⟩
  | above hfull =>
    rw [hdegree, hroom] at hfull
    cases hfull

/-- A key before all others makes a leaning tree with a full root one level higher. -/
theorem Leaning.insert_two (htree : Leaning number 2 tree) (hafter : AllAfter tree.toList key) :
    Leaning (number + 1) 1 (tree.insert key position) := by
  obtain ⟨hdegree, hfront, hnumber, hsize⟩ := htree
  have hfull : Node.isFull 3 tree.depth tree.root = true := beq_iff_eq.mpr hfront.length_eq
  obtain ⟨left, middle, right, hresult, hleft, hnew⟩ :=
    Node.exists_grow_front position (Node.insert_front position) tree.arena.taken hfront hafter
  generalize hinsert : tree.insert key position = result
  cases hinsert ▸ tree.inserts key position with
  | below hroom =>
    rw [hdegree, hfull] at hroom
    cases hroom
  | above _ hgrown =>
    rw [hdegree] at hgrown
    rw [hgrown] at hresult hnew
    cases hresult
    cases hnew
    exact ⟨hdegree, ⟨rfl, hleft⟩, by change number + 1 = 2 * (tree.depth + 1) + 1; omega,
      by rw [hsize]; rfl⟩

/-- Descending keys make a tree of the least order lean. -/
theorem leaning_run_insertions (hdegree : degree.degree = 3) {inserted : List (Value × π)}
    (hne : inserted ≠ []) (hdescending : inserted.Pairwise fun a b => b.1.compare a.1 = .lt) :
    Leaning inserted.length 1 (run degree (insertions inserted)) ∨
      Leaning inserted.length 2 (run degree (insertions inserted)) := by
  induction inserted using List.reverseRecOn with
  | nil => exact absurd rfl hne
  | append_singleton inserted last ih =>
    obtain ⟨key, position⟩ := last
    obtain ⟨hdescending, -, hbefore⟩ := List.pairwise_append.mp hdescending
    have hafter : AllAfter (run degree (insertions inserted)).toList key :=
      forall_key_run_insertions (fun k => key.compare k = .lt) fun a ha =>
        hbefore a ha _ List.mem_cons_self
    rw [run_insertions_concat, List.length_append, List.length_singleton]
    by_cases hnil : inserted = []
    · subst hnil
      have hfirst : run degree (insertions ([] : List (Value × π))) = empty degree := rfl
      rw [hfirst, insert_empty]
      exact .inl ⟨hdegree, rfl, rfl, rfl⟩
    · rcases ih hnil hdescending with hone | htwo
      · exact .inr (hone.insert_one hafter)
      · exact .inl (htwo.insert_two hafter)

/-- The height of a tree into which keys are only inserted is at most the logarithm of their number
when a node may have four children or more. In a tree of the least order descending keys make it
half their number. -/
theorem run_insertions_height (degree : Order) (inserted : List (Value × π))
    (hne : inserted ≠ []) :
    let tree := run degree (insertions inserted)
    (4 ≤ degree.degree → 2 ^ tree.height ≤ tree.size + 1) ∧
      (degree.degree = 3 → (inserted.Pairwise fun a b => b.1.compare a.1 = .lt) →
        tree.size = inserted.length ∧ tree.height = (inserted.length + 1) / 2) := by
  intro tree
  constructor
  · intro hdegree
    rw [(run_kept degree (insertions inserted)).size_eq]
    exact Node.two_pow_le_length tree.root (filled_run_insertions hdegree hne)
  · intro hdegree hdescending
    rcases leaning_run_insertions hdegree hne hdescending with hone | htwo
    · refine ⟨hone.size_eq, ?_⟩
      have hnumber : inserted.length = 2 * tree.depth + 1 := hone.number_eq
      change tree.depth + 1 = _
      omega
    · refine ⟨htwo.size_eq, ?_⟩
      have hnumber : inserted.length = 2 * tree.depth + 2 := htwo.number_eq
      change tree.depth + 1 = _
      omega

/-- Five descending keys give a tree of the least order three levels, and one of the next order
two. -/
theorem run_insertions_height_five :
    let least : Order := ⟨3, by decide, by decide⟩
    let inserted : List (Value × Nat) :=
      [(.string "e", 0), (.string "d", 1), (.string "c", 2), (.string "b", 3), (.string "a", 4)]
    (run least (insertions inserted)).size = 5 ∧ (run least (insertions inserted)).height = 3 ∧
      2 ^ (run .default (insertions inserted)).height ≤ 6 := by
  intro least inserted
  have hne : inserted ≠ [] := List.cons_ne_nil _ _
  have hdescending : inserted.Pairwise fun a b => b.1.compare a.1 = .lt := by decide
  obtain ⟨hsize, hheight⟩ := (run_insertions_height least inserted hne).2 rfl hdescending
  have hlog := (run_insertions_height .default inserted hne).1 (by decide)
  exact ⟨hsize, hheight.trans (by decide), hlog⟩

end

end RelStore.BTree
