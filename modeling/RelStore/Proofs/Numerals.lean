import RelStore.Proofs.Coercion
import RelStore.Proofs.Encoding
import RelStore.Proofs.KeyOrder

/-!
# Numbers as keys

A number that a counter gives is converted to the type of its column. Different numbers become
different keys (`coerce_apart`): integers are what they are, the digits of a number give it back
(`Text.ofNat_inj`), and floats hold the integers below `2^53` exactly (`Binary64.point?_ofInt`).
-/

namespace RelStore

open BTree (sameKey)

/-! ## Digits -/

/-- Texts that tie are the same. -/
theorem Text.eq_of_compare {s t : Text} (h : s.compare t = .eq) : s = t := by
  induction s generalizing t with
  | nil =>
    cases t with
    | nil => rfl
    | cons b t => cases h
  | cons a s ih =>
    cases t with
    | nil => cases h
    | cons b t =>
      obtain ⟨hhead, hrest⟩ := Ordering.then_eq_eq.mp h
      rw [CodePoint.code_inj (Nat.compare_eq_eq.mp hhead), ih hrest]

/-- The digits of a number give it back. -/
theorem Text.ofNat_inj {m n : Nat} (h : Text.ofNat m = Text.ofNat n) : m = n := by
  rw [← ofDigits_ofNat m, h, ofDigits_ofNat]

/-! ## Floats -/

/-- A multiple of the divisor is not rounded. -/
theorem roundHalfEven_mul {n den : Nat} (h : 0 < den) : roundHalfEven (n * den) den = n := by
  unfold roundHalfEven
  dsimp only
  rw [Nat.mul_mod_left, Nat.mul_div_cancel n h, if_pos (.inl h)]

/-- Two to the power of a sum is a product. -/
theorem twoTo_add (j k : Nat) : twoTo (j + k) = twoTo j * twoTo k := Nat.pow_add 2 j k

/-- A power of two is positive. -/
theorem twoTo_pos (k : Nat) : 0 < twoTo k := Nat.two_pow_pos k

/-- A number with zeros behind it has that many more binary digits. -/
theorem log2_mul_twoTo {n : Nat} (h : n ≠ 0) (k : Nat) : (n * twoTo k).log2 = n.log2 + k := by
  have hlow : twoTo n.log2 ≤ n := Nat.log2_self_le h
  have hhigh : n < twoTo (n.log2 + 1) := Nat.lt_log2_self
  refine (Nat.log2_eq_iff (Nat.mul_ne_zero h (twoTo_pos k).ne')).mpr ⟨?_, ?_⟩
  · change twoTo (n.log2 + k) ≤ _
    rw [twoTo_add]
    exact Nat.mul_le_mul_right _ hlow
  · change _ < twoTo (n.log2 + k + 1)
    rw [Nat.add_right_comm, twoTo_add]
    exact Nat.mul_lt_mul_of_pos_right hhigh (twoTo_pos k)

namespace Binary64

/-- An integer of at most 53 binary digits is brought to 53 of them at the exponent at which they
count as many units as it. -/
theorem units_eq {n : Nat} (hlog : n.log2 ≤ 52) :
    n * twoTo (52 - n.log2) * twoTo (n.log2 + 1022) = n * unitsPerOne := by
  have hexponents : 52 - n.log2 + (n.log2 + 1022) = 1074 := by omega
  rw [Nat.mul_assoc, ← twoTo_add, hexponents, unitsPerOne]

/-- A natural number as a float is the nearest one. -/
theorem ofInt_natCast (n : Nat) : ofInt n = nearest false n 1 := by
  rw [ofInt, decide_eq_false (by omega), Int.natAbs_natCast]

/-- A positive integer below `2^53` gets a mantissa of 53 bits: itself with zeros behind it. -/
theorem ofInt_eq {n : Nat} (hpos : n ≠ 0) (hsmall : n < twoTo 53) :
    ∃ canonical,
      ofInt n = .finite false (n * twoTo (52 - n.log2)) (n.log2 + 1022) canonical := by
  have hlow : twoTo n.log2 ≤ n := Nat.log2_self_le hpos
  have hhigh : n < twoTo (n.log2 + 1) := Nat.lt_log2_self
  have hlog : n.log2 ≤ 52 := Nat.lt_succ_iff.mp ((Nat.log2_lt hpos).mpr hsmall)
  have hcanonical : Canonical (n * twoTo (52 - n.log2)) (n.log2 + 1022) := by
    refine ⟨?_, by omega, .inl ?_⟩
    · have hsplit : (53 : Nat) = n.log2 + 1 + (52 - n.log2) := by omega
      rw [hsplit, twoTo_add]
      exact Nat.mul_lt_mul_of_pos_right hhigh (twoTo_pos _)
    · have hsplit : (52 : Nat) = n.log2 + (52 - n.log2) := by omega
      conv_lhs => rw [hsplit, twoTo_add]
      exact Nat.mul_le_mul_right _ hlow
  have hexponent : (n * unitsPerOne / 1).log2 + 1 - 53 = n.log2 + 1022 := by
    rw [Nat.div_one, unitsPerOne, log2_mul_twoTo hpos]
    omega
  have hrounded : ofInt n =
      ofRounded false (roundHalfEven (n * unitsPerOne) (1 * twoTo (n.log2 + 1022)))
        (n.log2 + 1022) := by
    rw [ofInt_natCast, ← hexponent]
    rfl
  refine ⟨hcanonical, ?_⟩
  rw [hrounded, Nat.one_mul, ← units_eq hlog, roundHalfEven_mul (twoTo_pos _), ofRounded,
    dif_pos hcanonical]

/-- An integer below `2^53` has the same place as a float. -/
theorem point?_ofInt {n : Nat} (hsmall : n < twoTo 53) :
    (ofInt n).point? = some (Point.ofInt n) := by
  by_cases hpos : n = 0
  · have hnearest : nearest false 0 1 = zero false := by
      unfold nearest
      simp only [Nat.zero_mul]
      rfl
    have hplace : Point.ofInt (0 : Nat) = .finite 0 := by
      rw [Point.ofInt, Int.natCast_zero, Int.zero_mul]
    rw [hpos, ofInt_natCast, hnearest, hplace]
    rfl
  · obtain ⟨canonical, heq⟩ := ofInt_eq hpos hsmall
    have hlog : n.log2 ≤ 52 := Nat.lt_succ_iff.mp ((Nat.log2_lt hpos).mpr hsmall)
    have hplace : (finite false (n * twoTo (52 - n.log2)) (n.log2 + 1022) canonical).point? =
        some (.finite (n * twoTo (52 - n.log2) * twoTo (n.log2 + 1022) : Nat)) := rfl
    rw [heq, hplace, units_eq hlog, Int.natCast_mul, Point.ofInt]

end Binary64

/-! ## Keys -/

/-- Numbers at the places of different integers do not tie. -/
theorem Value.compare_ne_of_places {a b : Value} (ha : a.isNumeric = true)
    (hb : b.isNumeric = true) {m n : Int} (hm : a.point? = some (Point.ofInt m))
    (hn : b.point? = some (Point.ofInt n)) (hne : m ≠ n) : a.compare b ≠ .eq := by
  have hunits : (unitsPerOne : Int) ≠ 0 := Int.natCast_ne_zero.mpr (twoTo_pos 1074).ne'
  have hplaces : Value.comparePoints (some (Point.ofInt m)) (some (Point.ofInt n)) =
      Ord.compare (m * (unitsPerOne : Int)) (n * unitsPerOne) := rfl
  rw [Value.compare_of_isNumeric ha hb, hm, hn, hplaces]
  intro heq
  exact hne (Int.eq_of_mul_eq_mul_right hunits (Int.compare_eq_eq.mp heq))

/-- A number that is converted to a float is the float nearest to it. -/
theorem eq_ofInt_of_coerce {n : Int} {v : Value} (h : coerce .float (.int n) = .ok v) :
    v = .float (.ofInt n) := by
  obtain ⟨x, hx, rfl⟩ := Option.map_eq_some_iff.mp (toType?_of_coerce h)
  have hfilter : (some (Binary64.ofInt n)).filter Binary64.isFinite = some x := hx
  rw [Option.some.inj (Option.filter_eq_some_iff.mp hfilter).1]

/-- A number that is converted to a truth value is one or zero. -/
theorem eq_bool_of_coerce {n : Int} {v : Value} (h : coerce .boolean (.int n) = .ok v) :
    n = 1 ∧ v = .bool true ∨ n = 0 ∧ v = .bool false := by
  obtain ⟨b, hb, rfl⟩ := Option.map_eq_some_iff.mp (toType?_of_coerce h)
  unfold Value.toBool? at hb
  dsimp only at hb
  split at hb
  · next hone => exact .inl ⟨hone, congrArg Value.bool (Option.some.inj hb).symm⟩
  · split at hb
    · next hzero => exact .inr ⟨hzero, congrArg Value.bool (Option.some.inj hb).symm⟩
    · cases hb

/-- Different numbers are different keys when they have been converted to a column type, as floats
if they are below `2^53`. -/
theorem coerce_apart {type : DataType} {m n : Nat} (hne : m ≠ n)
    (hsmall : type = .float → m < twoTo 53 ∧ n < twoTo 53) {v w : Value}
    (hv : coerce type (.int m) = .ok v) (hw : coerce type (.int n) = .ok w) :
    sameKey v w = false := by
  rw [← Bool.not_eq_true, Value.sameKey_iff]
  have hne' : (m : Int) ≠ n := mt Int.ofNat.inj hne
  cases type with
  | int =>
    cases toType?_of_coerce hv
    cases toType?_of_coerce hw
    exact Value.compare_ne_of_places rfl rfl rfl rfl hne'
  | float =>
    obtain ⟨hm, hn⟩ := hsmall rfl
    rw [eq_ofInt_of_coerce hv, eq_ofInt_of_coerce hw]
    exact Value.compare_ne_of_places rfl rfl (Binary64.point?_ofInt hm) (Binary64.point?_ofInt hn)
      hne'
  | boolean =>
    rcases eq_bool_of_coerce hv with ⟨hm, rfl⟩ | ⟨hm, rfl⟩ <;>
      rcases eq_bool_of_coerce hw with ⟨hn, rfl⟩ | ⟨hn, rfl⟩
    · omega
    · exact nofun
    · exact nofun
    · omega
  | string =>
    cases toType?_of_coerce hv
    cases toType?_of_coerce hw
    have hdigits (k : Nat) : Value.render (.int k) = Text.ofNat k := by
      have hnotNeg : ¬(k : Int) < 0 := by omega
      have hrender : Value.render (.int k) = Text.ofInt k := rfl
      rw [hrender, Text.ofInt, if_neg hnotNeg, Int.natAbs_natCast]
    intro heq
    have hsame : Value.render (.int m) = Value.render (.int n) := Text.eq_of_compare heq
    rw [hdigits, hdigits] at hsame
    exact hne (Text.ofNat_inj hsame)

end RelStore
