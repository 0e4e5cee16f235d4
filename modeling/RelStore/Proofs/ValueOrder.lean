import Mathlib.Algebra.Order.Field.Power
import Mathlib.Algebra.Order.Field.Rat
import Mathlib.Order.Compare
import RelStore.Proofs.Numerals

/-!
# Where the order of values is one

`Value.compare` puts NULL first, compares two numbers by their exact sizes (`Value.compare_eq_cmp`)
and any other two values by their texts (`Value.compare_eq_text`). Each of these rules is an order,
and numbers of the same size have the same text (`Value.render_eq_of_compare`), but the text of the
greater number may come first: `10` is greater than `9`, and its text is not. A value that is no
number and has its text between these two then makes a circle with the numbers. Among some values
the order is transitive just when there is no such circle (`Value.totalPreorderOn_iff`).
-/

namespace RelStore

open Std (TransCmp OrientedCmp)

/-! ## Sizes -/

/-- A size: a rational number, or one of the two ends past all of them. -/
abbrev Size := WithBot (WithTop ℚ)

/-- A rational number as a size. -/
def Size.ofRat (q : ℚ) : Size := (q : WithTop ℚ)

/-- The greater of two rational numbers is the greater size. -/
theorem Size.ofRat_strictMono : StrictMono Size.ofRat :=
  fun _ _ hlt => WithBot.coe_lt_coe.mpr (WithTop.coe_lt_coe.mpr hlt)

/-- The size of a float, which `nan` lacks. -/
def Binary64.size? : Binary64 → Option Size
  | .finite negative mantissa exponent _ =>
    let size : ℚ := mantissa * 2 ^ ((exponent : ℤ) - 1074)
    some (.ofRat (if negative then -size else size))
  | .infinite negative => some (if negative then ⊥ else ⊤)
  | .nan => none

/-- The size of a value that is a number. -/
def Value.size? : Value → Option Size
  | .int n => some (.ofRat n)
  | .float x => x.size?
  | _ => none

/-- The size of the numbers at a place. -/
def Point.size : Point → Size
  | .below => ⊥
  | .finite units => .ofRat (units / unitsPerOne)
  | .above => ⊤

/-- A power of two is the rational one. -/
theorem cast_twoTo (k : Nat) : (twoTo k : ℚ) = 2 ^ k := Nat.cast_pow 2 k

/-- There are `2^1074` units in one. -/
theorem unitsPerOne_pos : (0 : ℚ) < unitsPerOne := Nat.cast_pos.mpr (twoTo_pos 1074)

/-- Places are in the order of the sizes. -/
theorem Point.compare_eq_cmp (p q : Point) : p.compare q = cmp p.size q.size := by
  cases p with
  | below => cases q <;> rfl
  | finite a =>
    cases q with
    | below => rfl
    | finite b =>
      have hmono : StrictMono fun units : ℤ => (Point.finite units).size := by
        intro a b hlt
        exact Size.ofRat_strictMono
          (div_lt_div_of_pos_right (Int.cast_lt.mpr hlt) unitsPerOne_pos)
      exact (cmp_eq_compare a b).symm.trans (hmono.cmp_map_eq a b).symm
    | above => rfl
  | above => cases q <;> rfl

/-- The size of a float is that of its place. -/
theorem Binary64.size?_eq (x : Binary64) : x.size? = x.point?.map Point.size := by
  cases x with
  | finite negative mantissa exponent canonical =>
    have hsize : (mantissa * 2 ^ ((exponent : ℤ) - 1074) : ℚ) =
        ((mantissa * twoTo exponent : Nat) : ℤ) / unitsPerOne := by
      rw [zpow_sub₀ two_ne_zero, zpow_natCast, zpow_ofNat, Int.cast_natCast, Nat.cast_mul,
        cast_twoTo, unitsPerOne, cast_twoTo, mul_div_assoc]
    cases negative with
    | false => exact congrArg (fun size => some (Size.ofRat size)) hsize
    | true =>
      have hneg : (-(mantissa * 2 ^ ((exponent : ℤ) - 1074)) : ℚ) =
          (-((mantissa * twoTo exponent : Nat) : ℤ) : ℤ) / unitsPerOne := by
        rw [hsize, Int.cast_neg, neg_div]
      exact congrArg (fun size => some (Size.ofRat size)) hneg
  | infinite negative => cases negative <;> rfl
  | nan => rfl

/-- The size of a number is that of its place. -/
theorem Value.size?_eq (v : Value) : v.size? = v.point?.map Point.size := by
  cases v with
  | int n =>
    have hsize : (n : ℚ) = (n * (unitsPerOne : ℤ) : ℤ) / unitsPerOne := by
      rw [Int.cast_mul, Int.cast_natCast, mul_div_cancel_right₀ _ unitsPerOne_pos.ne']
    exact congrArg (fun size => some (Size.ofRat size)) hsize
  | float x => exact x.size?_eq
  | _ => rfl

namespace Value

/-- A value that has a size is a number. -/
theorem isNumeric_of_size? {a : Value} {p : Size} (h : a.size? = some p) :
    a.isNumeric = true := by
  cases a <;> first | rfl | cases h

/-- Numbers compare by their sizes, an integer with a float exactly. -/
theorem compare_eq_cmp {a b : Value} {p q : Size} (ha : a.size? = some p)
    (hb : b.size? = some q) : a.compare b = cmp p q := by
  rw [compare_of_isNumeric (isNumeric_of_size? ha) (isNumeric_of_size? hb)]
  rw [size?_eq] at ha hb
  obtain ⟨place, hplace, rfl⟩ := Option.map_eq_some_iff.mp ha
  obtain ⟨other, hother, rfl⟩ := Option.map_eq_some_iff.mp hb
  rw [hplace, hother]
  exact Point.compare_eq_cmp place other

end Value

/-! ## Texts of numbers -/

namespace Binary64

/-- A number other than zero has one mantissa and one exponent in the format. -/
theorem Canonical.eq_of_units {m e m' e' : Nat} (h : Canonical m e) (h' : Canonical m' e')
    (hunits : m * twoTo e = m' * twoTo e') (hpos : m ≠ 0) : m = m' ∧ e = e' := by
  -- With a greater exponent the other mantissa would be too short for the format.
  have hle {m e m' e' : Nat} (h : Canonical m e) (h' : Canonical m' e')
      (hunits : m * twoTo e = m' * twoTo e') (hpos : m ≠ 0) : e' ≤ e := by
    by_contra hlt
    obtain ⟨k, rfl⟩ : ∃ k, e' = e + (k + 1) := ⟨e' - e - 1, by omega⟩
    have hm : m = m' * twoTo (k + 1) := by
      rw [Nat.add_comm e, twoTo_add, ← Nat.mul_assoc] at hunits
      exact Nat.eq_of_mul_eq_mul_right (twoTo_pos e) hunits
    have hlong : twoTo 52 ≤ m' := h'.2.2.resolve_right (by omega)
    have hlong' : twoTo 53 ≤ m' * twoTo (k + 1) := by
      rw [Nat.add_comm k, twoTo_add 1, twoTo_add 52 1, ← Nat.mul_assoc]
      exact (Nat.mul_le_mul_right _ hlong).trans (Nat.le_mul_of_pos_right _ (twoTo_pos k))
    exact absurd h.1 (by omega)
  have hpos' : m' ≠ 0 := by
    rintro rfl
    rw [Nat.zero_mul] at hunits
    exact hpos ((Nat.mul_eq_zero.mp hunits).resolve_right (twoTo_pos e).ne')
  have he : e = e' := Nat.le_antisymm (hle h' h hunits.symm hpos') (hle h h' hunits hpos)
  subst he
  exact ⟨Nat.eq_of_mul_eq_mul_right (twoTo_pos e) hunits, rfl⟩

/-- Numbers that are as many units away from zero are the same, unless they are zero. -/
theorem eq_of_units? {x y : Binary64} {units : Int} (hx : x.units? = some units)
    (hy : y.units? = some units) (hne : units ≠ 0) : x = y := by
  cases x with
  | infinite negative => cases hx
  | nan => cases hx
  | finite negative m e canonical =>
    cases y with
    | infinite negative => cases hy
    | nan => cases hy
    | finite negative' m' e' canonical' =>
      have hx : (if negative then -((m * twoTo e : Nat) : Int) else (m * twoTo e : Nat)) = units :=
        Option.some.inj hx
      have hy : (if negative' then -((m' * twoTo e' : Nat) : Int) else (m' * twoTo e' : Nat)) =
          units := Option.some.inj hy
      have hsize : m * twoTo e = m' * twoTo e' ∧ negative = negative' := by
        cases negative <;> cases negative' <;>
          simp only [Bool.false_eq_true, if_true, if_false] at hx hy <;>
          refine ⟨by omega, ?_⟩ <;> first | rfl | omega
      obtain ⟨hunits, rfl⟩ := hsize
      have hpos : m ≠ 0 := by
        rintro rfl
        rw [Nat.zero_mul] at hx
        apply hne
        rw [← hx]
        cases negative <;> rfl
      obtain ⟨rfl, rfl⟩ := canonical.eq_of_units canonical' hunits hpos
      rfl

/-- A number that is some units away from zero has its place there. -/
theorem units?_eq_some {x : Binary64} {units : Int} (h : x.point? = some (.finite units)) :
    x.units? = some units := by
  cases x with
  | finite negative m e canonical => exact congrArg some (Point.finite.inj (Option.some.inj h))
  | infinite negative => cases negative <;> cases h
  | nan => cases h

end Binary64

namespace Value

/-- A number at the place of an integer has the text of this integer. -/
theorem render_of_integral {a : Value} {units : Int} (ha : a.point? = some (.finite units))
    (hwhole : units % unitsPerOne = 0) : a.render = .ofInt (units / unitsPerOne) := by
  cases a with
  | int n =>
    have hunits : n * (unitsPerOne : Int) = units := Point.finite.inj (Option.some.inj ha)
    have hne : (unitsPerOne : Int) ≠ 0 := Int.natCast_ne_zero.mpr (twoTo_pos 1074).ne'
    rw [← hunits, Int.mul_ediv_cancel n hne]
    rfl
  | float x =>
    have hint : x.toInt? = some (units / unitsPerOne) := by
      rw [Binary64.toInt?, Binary64.units?_eq_some ha]
      exact if_pos hwhole
    rw [render, hint]
  | null => cases ha
  | bool b => cases ha
  | string s => cases ha

/-- Only a float has a place between two integers. -/
theorem exists_float_of_not_integral {a : Value} {units : Int}
    (ha : a.point? = some (.finite units)) (hnot : units % unitsPerOne ≠ 0) :
    ∃ x : Binary64, a = .float x ∧ x.units? = some units := by
  cases a with
  | int n =>
    have hunits : n * (unitsPerOne : Int) = units := Point.finite.inj (Option.some.inj ha)
    rw [← hunits, Int.mul_emod_left] at hnot
    exact absurd rfl hnot
  | float x => exact ⟨x, rfl, Binary64.units?_eq_some ha⟩
  | null => cases ha
  | bool b => cases ha
  | string s => cases ha

/-- Only an infinite float has its place at an end of the number line. -/
theorem eq_infinite_of_point? {a : Value} (negative : Bool)
    (ha : a.point? = some (if negative then .below else .above)) :
    a = .float (.infinite negative) := by
  cases a with
  | float x =>
    cases x with
    | infinite other => cases negative <;> cases other <;> first | rfl | cases ha
    | _ => cases negative <;> cases ha
  | _ => cases negative <;> cases ha

/-- Numbers at the same place have the same text. -/
theorem render_eq_of_point? {a b : Value} {p : Point} (ha : a.point? = some p)
    (hb : b.point? = some p) : a.render = b.render := by
  cases p with
  | finite units =>
    by_cases hwhole : units % unitsPerOne = 0
    · rw [render_of_integral ha hwhole, render_of_integral hb hwhole]
    · -- Between two integers there is one float at a place.
      obtain ⟨x, rfl, hx⟩ := exists_float_of_not_integral ha hwhole
      obtain ⟨y, rfl, hy⟩ := exists_float_of_not_integral hb hwhole
      have hne : units ≠ 0 := by
        rintro rfl
        exact hwhole (Int.zero_emod _)
      rw [Binary64.eq_of_units? hx hy hne]
  | below => rw [eq_infinite_of_point? true ha, eq_infinite_of_point? true hb]
  | above => rw [eq_infinite_of_point? false ha, eq_infinite_of_point? false hb]

/-! ## The order -/

/-- Numbers are not NULL. -/
theorem isNull_of_isNumeric {a : Value} (h : a.isNumeric = true) : a.isNull = false := by
  cases a <;> first | rfl | exact Bool.noConfusion h

/-- Numbers other than `nan` are keys of number columns. -/
theorem mem_keys_of_isNumeric {a : Value} (ha : a.isNumeric = true) (hnan : a ≠ .float .nan) :
    a ∈ DataType.int.keys := ⟨(Bool.or_eq_true _ _).mpr (.inr ha), hnan⟩

/-- A number other than `nan` has a place. -/
theorem exists_point_of_isNumeric {a : Value} (ha : a.isNumeric = true) (hnan : a ≠ .float .nan) :
    ∃ p, a.point? = some p :=
  (DataType.exists_point_of_mem_keys (mem_keys_of_isNumeric ha hnan) (isNull_of_isNumeric ha)).2

/-- A number other than `nan` has a size. -/
theorem exists_size_of_isNumeric {a : Value} (ha : a.isNumeric = true) (hnan : a ≠ .float .nan) :
    ∃ p, a.size? = some p := by
  obtain ⟨place, hplace⟩ := exists_point_of_isNumeric ha hnan
  exact ⟨place.size, by rw [size?_eq, hplace, Option.map_some]⟩

/-- Numbers that tie have the same text. -/
theorem render_eq_of_compare {a b : Value} (ha : a.isNumeric = true) (hb : b.isNumeric = true)
    (hnan : a ≠ .float .nan) (hnan' : b ≠ .float .nan) (h : a.compare b = .eq) :
    a.render = b.render := by
  obtain ⟨p, hp⟩ := exists_point_of_isNumeric ha hnan
  obtain ⟨q, hq⟩ := exists_point_of_isNumeric hb hnan'
  have hpq : p.compare q = .eq := by
    rw [compare_of_isNumeric ha hb, hp, hq] at h
    exact h
  have hsame : p = q := by
    cases p <;> cases q <;> first
      | rfl
      | cases hpq
      | exact congrArg Point.finite (Int.compare_eq_eq.mp hpq)
  exact render_eq_of_point? hp (hsame ▸ hq)

/-- Values other than NULL that are not both numbers compare by their texts. -/
theorem compare_eq_text {a b : Value} (ha : a.isNull = false) (hb : b.isNull = false)
    (hnot : (a.isNumeric && b.isNumeric) = false) :
    a.compare b = a.render.compare b.render := by
  have bool (x y : Bool) : compareBool x y = (render (.bool x)).compare (render (.bool y)) := by
    cases x <;> cases y <;> rfl
  cases a <;> cases b <;> first
    | rfl
    | exact bool _ _
    | exact Bool.noConfusion ha
    | exact Bool.noConfusion hb
    | exact Bool.noConfusion hnot

/-- The third value is no number and makes a circle with two numbers: its text stands between
theirs, but that of the greater number comes first. -/
structure Circle (low high other : Value) : Prop where
  /-- The first value is a number. -/
  low_isNumeric : low.isNumeric = true
  /-- The second value is a number. -/
  high_isNumeric : high.isNumeric = true
  /-- The second number is the greater one. -/
  low_lt_high : low.compare high = .lt
  /-- The third value is not NULL. -/
  other_isNull : other.isNull = false
  /-- The third value is not a number. -/
  other_isNumeric : other.isNumeric = false
  /-- The text of the greater number does not come after that of the third value. -/
  high_le_other : (high.render.compare other.render).isLE = true
  /-- The text of the third value does not come after that of the lesser number. -/
  other_le_low : (other.render.compare low.render).isLE = true

section

variable {a b c : Value}

/-- Without a circle, what comes after the greater of two numbers comes after the lesser one. -/
theorem isLE_text_of_isLE_left (hnone : ¬Circle a b c) (ha : a.isNumeric = true)
    (hb : b.isNumeric = true) (hnana : a ≠ .float .nan) (hnanb : b ≠ .float .nan)
    (hnc : c.isNull = false) (hqc : c.isNumeric = false) (hab : (a.compare b).isLE = true)
    (hbc : (b.render.compare c.render).isLE = true) : (a.render.compare c.render).isLE = true := by
  by_contra hnot
  rcases Ordering.isLE_iff_eq_lt_or_eq_eq.mp hab with hlt | heq
  · have hca : (c.render.compare a.render).isLE = true := by
      rw [OrientedCmp.lt_of_not_isLE hnot]
      rfl
    exact hnone ⟨ha, hb, hlt, hnc, hqc, hbc, hca⟩
  · rw [render_eq_of_compare ha hb hnana hnanb heq] at hnot
    exact hnot hbc

/-- Without a circle, what comes before the lesser of two numbers comes before the greater one. -/
theorem isLE_text_of_isLE_right (hnone : ¬Circle b c a) (hb : b.isNumeric = true)
    (hc : c.isNumeric = true) (hnanb : b ≠ .float .nan) (hnanc : c ≠ .float .nan)
    (hna : a.isNull = false) (hqa : a.isNumeric = false)
    (hab : (a.render.compare b.render).isLE = true) (hbc : (b.compare c).isLE = true) :
    (a.render.compare c.render).isLE = true := by
  by_contra hnot
  rcases Ordering.isLE_iff_eq_lt_or_eq_eq.mp hbc with hlt | heq
  · have hca : (c.render.compare a.render).isLE = true := by
      rw [OrientedCmp.lt_of_not_isLE hnot]
      rfl
    exact hnone ⟨hb, hc, hlt, hna, hqa, hca, hab⟩
  · rw [← render_eq_of_compare hb hc hnanb hnanc heq] at hnot
    exact hnot hab

/-- Without a circle, a value whose text stands between those of two numbers does not have the
greater number before it. -/
theorem isLE_of_isLE_text (hnone : ¬Circle c a b) (ha : a.isNumeric = true)
    (hc : c.isNumeric = true) (hnb : b.isNull = false) (hqb : b.isNumeric = false)
    (hab : (a.render.compare b.render).isLE = true)
    (hbc : (b.render.compare c.render).isLE = true) : (a.compare c).isLE = true := by
  by_contra hnot
  exact hnone ⟨hc, ha, OrientedCmp.lt_of_not_isLE hnot, hnb, hqb, hab, hbc⟩

/-- Among values without `nan` and without circles, the order is transitive. -/
theorem isLE_trans_of_not_circle {keys : Set Value} (hnan : .float .nan ∉ keys)
    (hnone : ∀ low ∈ keys, ∀ high ∈ keys, ∀ other ∈ keys, ¬Circle low high other)
    (ha : a ∈ keys) (hb : b ∈ keys) (hc : c ∈ keys) (hab : (a.compare b).isLE = true)
    (hbc : (b.compare c).isLE = true) : (a.compare c).isLE = true := by
  have hplace {v : Value} (hv : v ∈ keys) : v ≠ .float .nan := ne_of_mem_of_not_mem hv hnan
  -- If the first value is not NULL, neither are the others.
  cases hna : a.isNull with
  | true =>
    rw [eq_null_of_isNull hna]
    exact isLE_null
  | false =>
    have hnb : b.isNull = false := isNull_of_isLE hab hna
    have hnc : c.isNull = false := isNull_of_isLE hbc hnb
    -- Two of the three compare by their texts, unless both are numbers.
    cases hqa : a.isNumeric with
    | false =>
      have hnot (x : Value) : (a.isNumeric && x.isNumeric) = false := by rw [hqa, Bool.false_and]
      rw [compare_eq_text hna hnb (hnot b)] at hab
      rw [compare_eq_text hna hnc (hnot c)]
      cases hqbc : b.isNumeric && c.isNumeric with
      | false =>
        rw [compare_eq_text hnb hnc hqbc] at hbc
        exact TransCmp.isLE_trans hab hbc
      | true =>
        obtain ⟨hqb, hqc⟩ := Bool.and_eq_true_iff.mp hqbc
        exact isLE_text_of_isLE_right (hnone b hb c hc a ha) hqb hqc (hplace hb) (hplace hc) hna
          hqa hab hbc
    | true =>
      cases hqb : b.isNumeric with
      | false =>
        rw [compare_eq_text hna hnb (by rw [hqb, Bool.and_false])] at hab
        rw [compare_eq_text hnb hnc (by rw [hqb, Bool.false_and])] at hbc
        cases hqc : c.isNumeric with
        | false =>
          rw [compare_eq_text hna hnc (by rw [hqc, Bool.and_false])]
          exact TransCmp.isLE_trans hab hbc
        | true => exact isLE_of_isLE_text (hnone c hc a ha b hb) hqa hqc hnb hqb hab hbc
      | true =>
        cases hqc : c.isNumeric with
        | false =>
          rw [compare_eq_text hnb hnc (by rw [hqc, Bool.and_false])] at hbc
          rw [compare_eq_text hna hnc (by rw [hqc, Bool.and_false])]
          exact isLE_text_of_isLE_left (hnone a ha b hb c hc) hqa hqb (hplace ha) (hplace hb) hnc
            hqc hab hbc
        | true =>
          exact @TransCmp.isLE_trans DataType.int.keys _ DataType.numeric_totalPreorder
            ⟨a, mem_keys_of_isNumeric hqa (hplace ha)⟩ ⟨b, mem_keys_of_isNumeric hqb (hplace hb)⟩
            ⟨c, mem_keys_of_isNumeric hqc (hplace hc)⟩ hab hbc

end

/-- Among values without `nan`, the order is a total preorder when there are no circles. -/
theorem totalPreorderOn_iff {keys : Set Value} (hnan : .float .nan ∉ keys) :
    TotalPreorderOn keys ↔
      ∀ low ∈ keys, ∀ high ∈ keys, ∀ other ∈ keys, ¬Circle low high other := by
  constructor
  · intro order low hlow high hhigh other hother h
    have hhighOther : (high.compare other).isLE = true := by
      rw [compare_eq_text (isNull_of_isNumeric h.high_isNumeric) h.other_isNull
        (by rw [h.other_isNumeric, Bool.and_false])]
      exact h.high_le_other
    have hotherLow : (other.compare low).isLE = true := by
      rw [compare_eq_text h.other_isNull (isNull_of_isNumeric h.low_isNumeric)
        (by rw [h.other_isNumeric, Bool.false_and])]
      exact h.other_le_low
    have hhighLow : (high.compare low).isLE = true :=
      @TransCmp.isLE_trans keys _ order ⟨high, hhigh⟩ ⟨other, hother⟩ ⟨low, hlow⟩ hhighOther
        hotherLow
    rw [compare_swap, h.low_lt_high] at hhighLow
    cases hhighLow
  · intro hnone
    exact {
      eq_swap := compare_swap _ _
      isLE_trans := fun {a b c} => isLE_trans_of_not_circle hnan hnone a.2 b.2 c.2 }

/-- Among values of which none is `nan` and every integer can be written, any two can be compared,
with opposite answers in the two directions; NULL comes first, and numbers compare by their exact
sizes. That the order is transitive as well is the case just when there are no circles. -/
theorem compare_laws {keys : Set Value} (hnan : .float .nan ∉ keys)
    (hwritable : ∀ v ∈ keys, v.isWritable = true) :
    (∀ a ∈ keys, ∀ b ∈ keys, a.isComparable b = true ∧ a.compare b = (b.compare a).swap) ∧
    (∀ b ∈ keys, b.isNull = false → null.compare b = .lt) ∧
    (∀ a ∈ keys, ∀ b ∈ keys, a.isNumeric = true → b.isNumeric = true →
      ∃ p q, a.size? = some p ∧ b.size? = some q ∧ a.compare b = cmp p q) ∧
    (TotalPreorderOn keys ↔
      ∀ low ∈ keys, ∀ high ∈ keys, ∀ other ∈ keys, ¬Circle low high other) := by
  refine ⟨fun a ha b hb => ⟨?_, compare_swap a b⟩, ?_, ?_, totalPreorderOn_iff hnan⟩
  · rw [isComparable, hwritable a ha, hwritable b hb, Bool.and_true, Bool.or_true]
  · intro b _ hnull
    cases b <;> first | rfl | exact Bool.noConfusion hnull
  · intro a ha b hb hnuma hnumb
    obtain ⟨p, hp⟩ := exists_size_of_isNumeric hnuma (ne_of_mem_of_not_mem ha hnan)
    obtain ⟨q, hq⟩ := exists_size_of_isNumeric hnumb (ne_of_mem_of_not_mem hb hnan)
    exact ⟨p, q, hp, hq, compare_eq_cmp hp hq⟩

/-- The text of `10` ties with the number 10 and comes before the text of the number 9, so the order
of these three is not transitive. -/
theorem compare_laws_ten :
    let keys : Set Value := {.int 9, .int 10, .string "10"}
    .float .nan ∉ keys ∧ (∀ v ∈ keys, v.isWritable = true) ∧ ¬TotalPreorderOn keys := by
  intro keys
  have hnan : .float .nan ∉ keys := by simp [keys]
  have hwritable : ∀ v ∈ keys, v.isWritable = true := by
    rintro v (rfl | rfl | rfl) <;> decide +kernel
  obtain ⟨-, -, -, hiff⟩ := compare_laws hnan hwritable
  refine ⟨hnan, hwritable, fun order => ?_⟩
  refine hiff.mp order (.int 9) (.inl rfl) (.int 10) (.inr (.inl rfl)) (.string "10")
    (.inr (.inr rfl)) ⟨rfl, rfl, ?_, rfl, rfl, ?_, ?_⟩
  · decide +kernel
  · decide +kernel
  · decide +kernel

end Value

end RelStore
