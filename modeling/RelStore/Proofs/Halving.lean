import Mathlib.Data.List.Basic
import RelStore.Halving

/-!
# What halving finds

Where the early elements of a list come before the others, halving counts them.
-/

namespace RelStore

variable {α : Type}

/-- Halving counts nothing in the empty list. -/
theorem partitionPointWithin_nil (early : α → Bool) (steps : Nat) :
    partitionPointWithin early steps ([] : List α) = 0 := by
  cases steps with
  | zero => rfl
  | succ steps => rw [partitionPointWithin, List.drop_nil]

/-- Halving a list that is not empty goes on in the half that the middle element decides on. -/
theorem partitionPointWithin_succ (early : α → Bool) (steps : Nat) {xs : List α}
    (hlt : xs.length / 2 < xs.length) :
    partitionPointWithin early (steps + 1) xs =
      if early xs[xs.length / 2] then
        xs.length / 2 + 1 + partitionPointWithin early steps (xs.drop (xs.length / 2 + 1))
      else partitionPointWithin early steps (xs.take (xs.length / 2)) := by
  rw [partitionPointWithin, List.drop_eq_getElem_cons hlt]

/-- Halving within a number of steps counts the early elements of a list in which they come first,
if the steps cover the length of the list. -/
theorem partitionPointWithin_append {early : α → Bool} (steps : Nat)
    {before after : List α} (hlength : (before ++ after).length ≤ steps)
    (hbefore : ∀ x ∈ before, early x = true) (hafter : ∀ x ∈ after, early x = false) :
    partitionPointWithin early steps (before ++ after) = before.length := by
  induction steps generalizing before after with
  | zero =>
    have hnil : before = [] := by
      rw [List.length_append] at hlength
      exact List.eq_nil_of_length_eq_zero (by omega)
    rw [partitionPointWithin, hnil, List.length_nil]
  | succ steps ih =>
    rcases Nat.eq_zero_or_pos (before ++ after).length with hzero | hpos
    · obtain ⟨rfl, rfl⟩ := List.append_eq_nil_iff.mp (List.eq_nil_of_length_eq_zero hzero)
      exact partitionPointWithin_nil early (steps + 1)
    · have hlt : (before ++ after).length / 2 < (before ++ after).length := by omega
      rw [partitionPointWithin_succ early steps hlt]
      generalize (before ++ after).length / 2 = mid at hlt ⊢
      by_cases hside : mid < before.length
      · -- The middle is early: the rest of the early ones are to its right.
        have hearly : early (before ++ after)[mid] = true := by
          rw [List.getElem_append_left hside]
          exact hbefore _ (List.getElem_mem _)
        have hsplit : (before ++ after).drop (mid + 1) = before.drop (mid + 1) ++ after :=
          List.drop_append_of_le_length (by omega)
        rw [if_pos hearly, hsplit, ih]
        · rw [List.length_drop]
          omega
        · rw [← hsplit, List.length_drop]
          omega
        · exact fun x hx => hbefore x (List.mem_of_mem_drop hx)
        · exact hafter
      · -- The middle is not early: all early ones are to its left.
        have hlate : early (before ++ after)[mid] = false := by
          rw [List.getElem_append_right (by omega)]
          exact hafter _ (List.getElem_mem _)
        have hsplit : (before ++ after).take mid = before ++ after.take (mid - before.length) := by
          rw [List.take_append, List.take_of_length_le (by omega)]
        rw [if_neg (by rw [hlate]; exact Bool.false_ne_true), hsplit, ih]
        · rw [← hsplit, List.length_take]
          omega
        · exact hbefore
        · exact fun x hx => hafter x (List.mem_of_mem_take hx)

/-- Halving goes by what is asked of the elements. -/
theorem partitionPointWithin_map {β : Type} (f : β → α) (early : α → Bool) (steps : Nat)
    (xs : List β) : partitionPointWithin early steps (xs.map f) =
      partitionPointWithin (fun x => early (f x)) steps xs := by
  induction steps generalizing xs with
  | zero => rfl
  | succ steps ih =>
    rw [partitionPointWithin, partitionPointWithin, List.length_map, ← List.map_drop, ← List.map_take]
    cases xs.drop (xs.length / 2) with
    | nil => rfl
    | cons middle right =>
      rw [List.map_cons]
      dsimp only
      rw [ih, ih]

/-- Halving ends at a place in the list. -/
theorem partitionPointWithin_le_length (early : α → Bool) (steps : Nat) (xs : List α) :
    partitionPointWithin early steps xs ≤ xs.length := by
  induction steps generalizing xs with
  | zero => exact Nat.zero_le _
  | succ steps ih =>
    rw [partitionPointWithin]
    split
    · exact Nat.zero_le _
    · next middle right hdrop =>
      have hlength := congrArg List.length hdrop
      rw [List.length_drop, List.length_cons] at hlength
      have hright := ih right
      have hleft := ih (xs.take (xs.length / 2))
      rw [List.length_take] at hleft
      split <;> omega

/-- Halving counts the early elements of a list in which they come first. -/
theorem partitionPoint_append {early : α → Bool} {before after : List α}
    (hbefore : ∀ x ∈ before, early x = true) (hafter : ∀ x ∈ after, early x = false) :
    partitionPoint early (before ++ after) = before.length :=
  partitionPointWithin_append _ (Nat.le_refl _) hbefore hafter

/-- Halving goes by what is asked of the elements. -/
theorem partitionPoint_map {β : Type} (f : β → α) (early : α → Bool) (xs : List β) :
    partitionPoint early (xs.map f) = partitionPoint (fun x => early (f x)) xs := by
  rw [partitionPoint, partitionPointWithin_map, List.length_map]
  rfl

/-- Halving ends at a place in the list. -/
theorem partitionPoint_le_length (early : α → Bool) (xs : List α) :
    partitionPoint early xs ≤ xs.length :=
  partitionPointWithin_le_length early xs.length xs

/-- Search by halving finds the same where it cannot fail to tell if an element is early. -/
theorem partitionPointM_eq {ε : Type} {early : α → Bool} {earlyM : α → Except ε Bool}
    {xs : List α} (h : ∀ x ∈ xs, earlyM x = .ok (early x)) :
    partitionPointM earlyM xs = .ok (partitionPoint early xs) := by
  unfold partitionPointM partitionPoint
  generalize xs.length = steps
  induction steps generalizing xs with
  | zero => rfl
  | succ steps ih =>
    rw [partitionPointWithinM, partitionPointWithin]
    split
    · rfl
    · next middle right hdrop =>
      have hsub : middle :: right ⊆ xs := hdrop ▸ List.drop_subset _ _
      rw [h middle (hsub List.mem_cons_self)]
      change (if early middle then _ else _) = _
      split
      · rw [ih fun x hx => h x (hsub (List.mem_cons_of_mem _ hx))]
        rfl
      · exact ih fun x hx => h x (List.take_subset _ _ hx)

/-- A list falls apart into its early elements and the others, if what comes before an early one is
early. -/
theorem exists_early_parts {early : α → Bool} {xs : List α}
    (hxs : xs.Pairwise fun a b => early b = true → early a = true) :
    ∃ before after, xs = before ++ after ∧ (∀ x ∈ before, early x = true) ∧
      ∀ x ∈ after, early x = false := by
  induction xs with
  | nil => exact ⟨[], [], rfl, by simp, by simp⟩
  | cons x xs ih =>
    obtain ⟨hx, hxs⟩ := List.pairwise_cons.mp hxs
    cases hearly : early x with
    | true =>
      obtain ⟨before, after, rfl, hbefore, hafter⟩ := ih hxs
      exact ⟨x :: before, after, rfl, List.forall_mem_cons.mpr ⟨hearly, hbefore⟩, hafter⟩
    | false =>
      refine ⟨[], x :: xs, rfl, by simp, List.forall_mem_cons.mpr ⟨hearly, fun y hy => ?_⟩⟩
      cases hlate : early y with
      | true => exact absurd (hx y hy hlate) (by rw [hearly]; exact Bool.false_ne_true)
      | false => rfl

end RelStore
