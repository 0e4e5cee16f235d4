import Mathlib.Data.Set.Basic
import RelStore.Table

/-!
# The order of keys

Trees search by `Value.compare`, which is no order on all values: values of different kinds compare
by their texts, and `nan` ties with every number. Its two directions agree on all values
(`Value.compare_swap`). That it is transitive is a property of a set of keys, of which a tree needs
it (`Value.TotalPreorderOn`), and it holds of NULL together with the values of one column type
(`DataType.keys_totalPreorder`). Integers and floats count as one type there, since they share the
number line.
-/

namespace RelStore

open Std (OrientedCmp ReflCmp TransCmp)

/-! ## The orders that the order of values is made of -/

/-- The order of texts is the order of lists of code points, point by point. -/
theorem Text.compare_eq_compareLex (s t : Text) :
    s.compare t = List.compareLex (compareOn CodePoint.code) s t := by
  induction s generalizing t with
  | nil => cases t <;> rfl
  | cons a s ih =>
    cases t with
    | nil => rfl
    | cons b t =>
      rw [Text.compare, List.compareLex_cons_cons, ih]
      rfl

instance : TransCmp Text.compare := by
  have h : Text.compare = List.compareLex (compareOn CodePoint.code) := by
    funext s t
    exact Text.compare_eq_compareLex s t
  rw [h]
  infer_instance

instance : TransCmp Value.compareBool := by
  have h : Value.compareBool = Ord.compare := by
    funext a b
    cases a <;> cases b <;> rfl
  rw [h]
  infer_instance

/-- Which part of the number line a place belongs to, counted from the lower end. -/
def Point.part : Point → Nat
  | below => 0
  | finite _ => 1
  | above => 2

/-- How far a place is from zero, if it is a finite one. -/
def Point.units : Point → Int
  | finite units => units
  | _ => 0

instance : TransCmp Point.compare := by
  -- A place is a part of the line and, in the middle part, a number of units.
  have h : Point.compare = compareLex (compareOn Point.part) (compareOn Point.units) := by
    funext p q
    cases p <;> cases q <;> rfl
  rw [h]
  infer_instance

instance : OrientedCmp Value.comparePoints where
  eq_swap {p q} := by
    have point (p q : Point) : p.compare q = (q.compare p).swap := OrientedCmp.eq_swap
    cases p <;> cases q <;> first | rfl | exact point _ _

namespace Value

/-! ## Both directions of a comparison -/

/-- Two numbers compare by their places. -/
theorem compare_of_isNumeric {a b : Value} (ha : a.isNumeric = true) (hb : b.isNumeric = true) :
    a.compare b = comparePoints a.point? b.point? := by
  cases a <;> cases b <;> first | rfl | exact Bool.noConfusion ha | exact Bool.noConfusion hb

/-- Comparing two values the other way round gives the opposite answer. -/
theorem compare_swap (a b : Value) : a.compare b = (b.compare a).swap := by
  by_cases h : a.isNumeric = true ∧ b.isNumeric = true
  · rw [compare_of_isNumeric h.1 h.2, compare_of_isNumeric h.2 h.1]
    exact OrientedCmp.eq_swap
  · -- Every other pair is compared by a fixed answer, by truth values or by texts.
    have text (s t : Text) : s.compare t = (t.compare s).swap := OrientedCmp.eq_swap
    have bool (x y : Bool) : compareBool x y = (compareBool y x).swap := OrientedCmp.eq_swap
    cases a <;> cases b <;> first
      | rfl
      | exact text _ _
      | exact bool _ _
      | exact absurd ⟨rfl, rfl⟩ h

instance : OrientedCmp compare where
  eq_swap {a b} := compare_swap a b

/-- Every value ties with itself. -/
theorem compare_self (a : Value) : a.compare a = .eq := ReflCmp.compare_self

/-- Being the same key is symmetric. -/
theorem sameKey_comm (a b : Value) : BTree.sameKey a b = BTree.sameKey b a := by
  unfold BTree.sameKey
  rw [compare_swap a b]
  cases b.compare a <;> rfl

/-- Two values are the same key when they tie. -/
theorem sameKey_iff {a b : Value} : BTree.sameKey a b = true ↔ a.compare b = .eq := by
  simp [BTree.sameKey]

/-- Every value is the same key as itself. -/
theorem sameKey_self (a : Value) : BTree.sameKey a a = true := sameKey_iff.mpr (compare_self a)

/-- No value comes before NULL. -/
theorem isLE_null {a : Value} : (null.compare a).isLE = true := by cases a <;> rfl

/-- A value that has the mark of NULL is NULL. -/
theorem eq_null_of_isNull {a : Value} (h : a.isNull = true) : a = null := by
  cases a <;> first | rfl | cases h

/-- A value that does not come before another one is not NULL if the other is not. -/
theorem isNull_of_isLE {a b : Value} (h : (a.compare b).isLE = true) (ha : a.isNull = false) :
    b.isNull = false := by
  cases b with
  | null => cases a <;> first | exact Bool.noConfusion ha | exact Bool.noConfusion h
  | _ => rfl

/-- A value that is the same key as NULL is NULL. -/
theorem isNull_of_sameKey {a b : Value} (h : BTree.sameKey a b = true) : a.isNull = b.isNull := by
  cases a <;> cases b <;> first | rfl | cases h

/-! ## Sets of keys -/

/-- The order of values is a total preorder on a set of keys: its two directions agree, and it is
transitive. -/
def TotalPreorderOn (keys : Set Value) : Prop :=
  TransCmp fun a b : keys => (a : Value).compare b

namespace TotalPreorderOn

variable {keys : Set Value} (order : TotalPreorderOn keys) {a b c : Value}
include order

/-- Of three keys in ascending order, the first comes before the last. -/
theorem lt_trans (ha : a ∈ keys) (hb : b ∈ keys) (hc : c ∈ keys) (hab : a.compare b = .lt)
    (hbc : b.compare c = .lt) : a.compare c = .lt := by
  exact @TransCmp.lt_trans keys _ order ⟨a, ha⟩ ⟨b, hb⟩ ⟨c, hc⟩ hab hbc

/-- Keys that tie compare alike with a third key on their right. -/
theorem congr_left (ha : a ∈ keys) (hb : b ∈ keys) (hc : c ∈ keys) (hab : a.compare b = .eq) :
    a.compare c = b.compare c := by
  exact @TransCmp.congr_left keys _ order ⟨a, ha⟩ ⟨b, hb⟩ ⟨c, hc⟩ hab

/-- Keys that tie compare alike with a third key on their left. -/
theorem congr_right (ha : a ∈ keys) (hb : b ∈ keys) (hc : c ∈ keys) (hbc : b.compare c = .eq) :
    a.compare b = a.compare c := by
  rw [compare_swap a b, compare_swap a c, order.congr_left hb hc ha hbc]

end TotalPreorderOn

/-- The order of values is a total preorder on a set of keys if it is one on the numbers, texts or
other ranks by which all its keys but NULL compare. -/
theorem totalPreorderOn_of_rank {β : Type} (cmp : β → β → Ordering) [TransCmp cmp]
    (rank : Value → β) {keys : Set Value}
    (h : ∀ a ∈ keys, ∀ b ∈ keys, a.isNull = false → b.isNull = false →
      a.compare b = cmp (rank a) (rank b)) : TotalPreorderOn keys := by
  have trans : ∀ {a b c : Value}, a ∈ keys → b ∈ keys → c ∈ keys → (a.compare b).isLE = true →
      (b.compare c).isLE = true → (a.compare c).isLE = true := by
    intro a b c ha hb hc hab hbc
    -- NULL stands in front of all values. If the first key is not NULL, neither are the others,
    -- and all three compare by their ranks.
    cases hna : a.isNull with
    | true =>
      rw [eq_null_of_isNull hna]
      exact isLE_null
    | false =>
      have hnb : b.isNull = false := isNull_of_isLE hab hna
      have hnc : c.isNull = false := isNull_of_isLE hbc hnb
      rw [h a ha b hb hna hnb] at hab
      rw [h b hb c hc hnb hnc] at hbc
      rw [h a ha c hc hna hnc]
      exact TransCmp.isLE_trans hab hbc
  exact { eq_swap := compare_swap _ _, isLE_trans := fun {a b c} => trans a.2 b.2 c.2 }

end Value

/-! ## The keys of a column type -/

namespace DataType

/-- The keys that an index on a column of a type holds or is asked for: NULL and the values that
order like the type's own. -/
def keys (type : DataType) : Set Value :=
  {v | Table.sameOrdering v type = true ∧ v ≠ .float .nan}

/-- NULL is a key of every column type. -/
theorem null_mem_keys (type : DataType) : Value.null ∈ type.keys := by
  cases type <;> exact ⟨rfl, nofun⟩

/-- The keys of number columns but NULL are numbers, each with its place on the number line. -/
theorem exists_point_of_mem_keys {v : Value} (hv : v ∈ int.keys) (hnull : v.isNull = false) :
    v.isNumeric = true ∧ ∃ p, v.point? = some p := by
  obtain ⟨hordered, hnan⟩ := hv
  cases v with
  | int n => exact ⟨rfl, _, rfl⟩
  | float x =>
    cases x with
    | nan => exact absurd rfl hnan
    | _ => exact ⟨rfl, _, rfl⟩
  | null => cases hnull
  | _ => cases hordered

/-- The keys of truth value columns but NULL are truth values. -/
theorem exists_bool_of_mem_keys {v : Value} (hv : v ∈ boolean.keys) (hnull : v.isNull = false) :
    ∃ b, v = .bool b := by
  cases v with
  | bool b => exact ⟨b, rfl⟩
  | null => cases hnull
  | _ => cases hv.1

/-- The keys of text columns but NULL are texts. -/
theorem exists_text_of_mem_keys {v : Value} (hv : v ∈ string.keys) (hnull : v.isNull = false) :
    ∃ s, v = .string s := by
  cases v with
  | string s => exact ⟨s, rfl⟩
  | null => cases hnull
  | _ => cases hv.1

/-- The order of values is a total preorder on the keys of number columns. -/
theorem numeric_totalPreorder : Value.TotalPreorderOn int.keys := by
  refine Value.totalPreorderOn_of_rank Point.compare (·.point?.getD .below) ?_
  intro a ha b hb hna hnb
  obtain ⟨hnuma, p, hp⟩ := exists_point_of_mem_keys ha hna
  obtain ⟨hnumb, q, hq⟩ := exists_point_of_mem_keys hb hnb
  rw [Value.compare_of_isNumeric hnuma hnumb, hp, hq]
  rfl

/-- The order of values is a total preorder on the keys of a column type. -/
theorem keys_totalPreorder (type : DataType) : Value.TotalPreorderOn type.keys := by
  cases type with
  -- Integers and floats share the number line, on which `nan` alone has no place.
  | int => exact numeric_totalPreorder
  | float => exact numeric_totalPreorder
  | boolean =>
    refine Value.totalPreorderOn_of_rank Value.compareBool (·.toBool?.getD false) ?_
    intro a ha b hb hna hnb
    obtain ⟨x, rfl⟩ := exists_bool_of_mem_keys ha hna
    obtain ⟨y, rfl⟩ := exists_bool_of_mem_keys hb hnb
    rfl
  | string =>
    refine Value.totalPreorderOn_of_rank Text.compare (·.render) ?_
    intro a ha b hb hna hnb
    obtain ⟨s, rfl⟩ := exists_text_of_mem_keys ha hna
    obtain ⟨t, rfl⟩ := exists_text_of_mem_keys hb hnb
    rfl

/-- Keys of one column type compare without their texts. -/
theorem isComparable_of_mem_keys {type : DataType} {a b : Value} (ha : a ∈ type.keys)
    (hb : b ∈ type.keys) : a.isComparable b = true := by
  have hordered : a.comparesByText b = false := by
    obtain ⟨ha, -⟩ := ha
    obtain ⟨hb, -⟩ := hb
    cases type <;> cases a <;> first
      | exact Bool.noConfusion ha
      | cases b <;> first
        | rfl
        | exact Bool.noConfusion hb
  rw [Value.isComparable, hordered]
  rfl

/-- What a literal that orders like a column type shares its key with has the same key as the
literal, also where the literal is `nan`. -/
theorem sameKey_of_sameOrdering {type : DataType} {v k c : Value}
    (hordered : Table.sameOrdering v type = true) (hk : k ∈ type.keys) (hc : c ∈ type.keys)
    (hvk : BTree.sameKey v k = true) (hkc : BTree.sameKey k c = true) :
    BTree.sameKey v c = true := by
  by_cases hnan : v = .float .nan
  · -- Only a number can tie with `nan`, and `nan` ties with all of them.
    subst hnan
    have hnull : c.isNull = false := by
      rw [← Value.isNull_of_sameKey hkc, ← Value.isNull_of_sameKey hvk]
      rfl
    have hnumeric : c.isNumeric = true := by
      cases type with
      | int => exact (exists_point_of_mem_keys hc hnull).1
      | float => exact (exists_point_of_mem_keys hc hnull).1
      | boolean => cases hordered
      | string => cases hordered
    rw [Value.sameKey_iff, Value.compare_of_isNumeric rfl hnumeric]
    rfl
  · rw [Value.sameKey_iff] at hvk hkc ⊢
    rw [(keys_totalPreorder type).congr_left ⟨hordered, hnan⟩ hk hc hvk, hkc]

end DataType

end RelStore
