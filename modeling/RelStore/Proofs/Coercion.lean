import RelStore.Coercion
import RelStore.Proofs.Decimals
import RelStore.Proofs.KeyOrder

/-!
# Converted values

NULL is converted to itself, and another value to the one of the type that it stands for, if it has
a text or needs none (`coerce_eq_ok_iff`). What a conversion gives stands for itself
(`Value.toType?_of_toType?`), so that a second one changes nothing (`coerce_idempotent`). Integers
and truth values are also read back from their texts (`coerce_stable`).
-/

namespace RelStore

variable {type : DataType} {v w : Value}

/-- What is converted, and to what: NULL, and every value that stands for one of the type, unless
its text is needed and too long. -/
theorem coerce_eq_ok_iff : coerce type v = .ok w ↔ v = .null ∧ w = .null ∨
    v.isNull = false ∧ (type = .int ∨ v.isWritable = true) ∧ v.toType? type = some w := by
  unfold coerce
  by_cases hnull : v.isNull = true
  · obtain rfl : v = .null := Value.eq_null_of_isNull hnull
    rw [if_pos hnull, Except.ok.injEq]
    constructor
    · rintro rfl
      exact .inl ⟨rfl, rfl⟩
    · rintro (⟨-, rfl⟩ | ⟨hnot, -⟩)
      · rfl
      · cases hnot
  · have hnotNull : v ≠ .null := by
      rintro rfl
      exact hnull rfl
    rw [if_neg hnull, or_iff_right fun h => hnotNull h.1,
      and_iff_right (Bool.eq_false_iff.mpr hnull)]
    have hguard : type ≠ .int ∧ (!v.isWritable) = true ↔ ¬(type = .int ∨ v.isWritable = true) := by
      rw [not_or, Bool.not_eq_true', Bool.not_eq_true]
    by_cases htext : type = .int ∨ v.isWritable = true
    · rw [if_neg (mt hguard.mp (not_not_intro htext)), and_iff_right htext]
      cases v.toType? type with
      | none => exact ⟨nofun, nofun⟩
      | some converted => rw [Except.ok.injEq, Option.some.injEq]
    · rw [if_pos (hguard.mpr htext)]
      exact ⟨nofun, fun h => absurd h.1 htext⟩

/-- A value that cannot be converted is no duplicate. -/
theorem coerce_ne_duplicate {name : Text} (type : DataType) (offered : Value) :
    coerce type offered ≠ .error (.duplicateValue name v) := by
  unfold coerce
  split
  · exact nofun
  · split
    · exact nofun
    · split <;> exact nofun

/-- A float that a value is converted to is finite: every way to it ends in the check. -/
theorem Value.isFinite_of_toFloat? {x : Binary64} (h : v.toFloat? = some x) :
    x.isFinite = true := by
  unfold Value.toFloat? at h
  split at h
  · exact (Option.filter_eq_some_iff.mp h).2
  · exact (Option.filter_eq_some_iff.mp h).2
  · exact (Option.filter_eq_some_iff.mp h).2
  · cases h
  · cases h

/-- A value that has been converted to a type is converted to itself. -/
theorem Value.toType?_of_toType? (h : v.toType? type = some w) :
    w.toType? type = some w ∧ w.isNull = false ∧ (type = .int ∨ w.isWritable = true) := by
  cases type with
  | int =>
    obtain ⟨n, -, rfl⟩ := Option.map_eq_some_iff.mp h
    exact ⟨rfl, rfl, .inl rfl⟩
  | float =>
    obtain ⟨x, hx, rfl⟩ := Option.map_eq_some_iff.mp h
    have hfinite : x.isFinite = true := Value.isFinite_of_toFloat? hx
    have hsame : Value.toFloat? (.float x) = some x := Option.filter_eq_some_iff.mpr ⟨rfl, hfinite⟩
    exact ⟨congrArg (Option.map Value.float) hsame, rfl, .inr rfl⟩
  | boolean =>
    obtain ⟨b, -, rfl⟩ := Option.map_eq_some_iff.mp h
    exact ⟨rfl, rfl, .inr rfl⟩
  | string =>
    cases h
    exact ⟨rfl, rfl, .inr rfl⟩

/-- What a conversion gives is converted to itself, and it is NULL just when NULL was given. -/
theorem coerce_idempotent (h : coerce type v = .ok w) :
    coerce type w = .ok w ∧ w.isNull = v.isNull := by
  rcases coerce_eq_ok_iff.mp h with ⟨rfl, rfl⟩ | ⟨hnull, -, hconverted⟩
  · exact ⟨h, rfl⟩
  · obtain ⟨hsame, hnotNull, htext⟩ := Value.toType?_of_toType? hconverted
    exact ⟨coerce_eq_ok_iff.mpr (.inr ⟨hnotNull, htext, hsame⟩), hnotNull.trans hnull.symm⟩

/-- A number that is converted to a column type is what it is read as. -/
theorem toType?_of_coerce {n : Int} (h : coerce type (.int n) = .ok v) :
    Value.toType? type (.int n) = some v := by
  rcases coerce_eq_ok_iff.mp h with ⟨hnull, -⟩ | ⟨-, -, hconverted⟩
  · cases hnull
  · exact hconverted

/-! ## Texts of values -/

/-- An integer that has a text is read back from it, and not by way of a float. -/
theorem toInt?_ofInt {n : Int} (h : isWritable n = true) :
    Value.toInt? (.string (.ofInt n)) = some n := by
  rw [Value.toInt?, readInteger?_ofInt, if_pos h]

/-- A truth value is read back from its word. -/
theorem toBool?_render (b : Bool) : Value.toBool? (.string (Value.render (.bool b))) = some b := by
  cases b with
  | false => decide
  | true => decide

/-- Conversion is stable, and texts keep values: what a conversion gives is converted to itself,
only NULL gives NULL, and an integer of no more digits than the limit or a truth value that has been
made a text is converted back. -/
theorem coerce_stable :
    (∀ type v w, coerce type v = .ok w → coerce type w = .ok w) ∧
    (∀ type v, coerce type v = .ok .null ↔ v = .null) ∧
    (∀ n : Int, decimalLength n.natAbs ≤ digitLimit →
      coerce .string (.int n) = .ok (.string (.ofInt n)) ∧
      coerce .int (.string (.ofInt n)) = .ok (.int n)) ∧
    ∀ b : Bool, coerce .string (.bool b) = .ok (.string (if b then "true" else "false")) ∧
      coerce .boolean (.string (if b then "true" else "false")) = .ok (.bool b) := by
  refine ⟨fun type v w h => (coerce_idempotent h).1, fun type v => ⟨fun h => ?_, ?_⟩,
    fun n hdigits => ?_, fun b => ⟨?_, ?_⟩⟩
  · exact Value.eq_null_of_isNull (coerce_idempotent h).2.symm
  · rintro rfl
    exact coerce_eq_ok_iff.mpr (.inl ⟨rfl, rfl⟩)
  · have hwritable : isWritable n = true := isWritable_iff.mpr hdigits
    have hread := toInt?_ofInt hwritable
    exact ⟨coerce_eq_ok_iff.mpr (.inr ⟨rfl, .inr hwritable, rfl⟩),
      coerce_eq_ok_iff.mpr (.inr ⟨rfl, .inl rfl, congrArg (Option.map Value.int) hread⟩)⟩
  · exact coerce_eq_ok_iff.mpr (.inr ⟨rfl, .inr rfl, rfl⟩)
  · exact coerce_eq_ok_iff.mpr
      (.inr ⟨rfl, .inr rfl, congrArg (Option.map Value.bool) (toBool?_render b)⟩)

/-- A text with blanks around it that is no integer is converted by way of a float, which loses its
fraction. The greatest number that can be written, with a minus sign, is not. -/
theorem coerce_stable_texts :
    coerce .int (.string "\t-1_0.75E1\n") = .ok (.int (-107)) ∧
    coerce .int (.int (-107)) = .ok (.int (-107)) ∧
    decimalLength (1 - tenTo 4300 : Int).natAbs ≤ digitLimit ∧
    coerce .int (.string (.ofInt (1 - tenTo 4300))) = .ok (.int (1 - tenTo 4300)) ∧
    coerce .boolean (.string "false") = .ok (.bool false) := by
  have hread : coerce .int (.string "\t-1_0.75E1\n") = .ok (.int (-107)) := by decide +kernel
  have hdigits : decimalLength (1 - tenTo 4300 : Int).natAbs ≤ digitLimit :=
    isWritable_iff.mp (by decide +kernel)
  obtain ⟨hstable, -, hints, hbools⟩ := coerce_stable
  exact ⟨hread, hstable _ _ _ hread, hdigits, (hints _ hdigits).2, (hbools false).2⟩

end RelStore
