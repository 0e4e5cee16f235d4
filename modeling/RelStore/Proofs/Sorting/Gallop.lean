import RelStore.Proofs.Halving
import RelStore.Sorting.Merge

/-!
# Galloping

Strides that widen, and halving after them, find the same as halving alone: how many elements at the
start of a list are early, where these come before the others (`gallop_append`).
-/

namespace RelStore.Sorting

variable {α : Type} {early : α → Bool} {before after : List α}

/-- Strides stop around the boundary between the early elements and the others: the one place is
that of an early element, and the other one is past all of them. -/
theorem stride_parts (hbefore : ∀ x ∈ before, early x = true)
    (hafter : ∀ x ∈ after, early x = false) (steps : Nat) {last next : Nat}
    (hlast : last < before.length) (hnext : last < next)
    (hsteps : (before ++ after).length < steps + next) :
    (stride early (before ++ after) steps last next).1 < before.length ∧
      before.length ≤ (stride early (before ++ after) steps last next).2 := by
  induction steps generalizing last next with
  | zero =>
    rw [List.length_append] at hsteps
    exact ⟨hlast, by rw [stride]; omega⟩
  | succ steps ih =>
    rw [stride]
    split
    · next x hx =>
      obtain ⟨hlt, rfl⟩ := List.getElem?_eq_some_iff.mp hx
      split
      · next hearly =>
        have hside : next < before.length := by
          by_contra hge
          rw [List.getElem_append_right (by omega), hafter _ (List.getElem_mem _)] at hearly
          exact Bool.false_ne_true hearly
        exact ih hside (by omega) (by omega)
      · next hlate =>
        refine ⟨hlast, ?_⟩
        by_contra hside
        rw [List.getElem_append_left (by omega)] at hlate
        exact hlate (hbefore _ (List.getElem_mem _))
    · exact ⟨hlast, by rw [List.length_append]; exact Nat.le_add_right _ _⟩

/-- Galloping counts the early elements of a list in which they come first. -/
theorem gallop_append (reversed : Bool) (hbefore : ∀ x ∈ before, early x = true)
    (hafter : ∀ x ∈ after, early x = false) :
    gallop reversed early (before ++ after) = before.length := by
  unfold gallop
  cases before with
  | nil =>
    have hhead : ([] ++ after).head?.any early = false := by
      cases after with
      | nil => rfl
      | cons x after => exact hafter x List.mem_cons_self
    rw [if_neg (by rw [hhead]; exact Bool.false_ne_true), List.length_nil]
  | cons first before =>
    have hhead : (first :: before ++ after).head?.any early = true :=
      hbefore first List.mem_cons_self
    obtain ⟨hlast, hnext⟩ := stride_parts hbefore hafter (first :: before ++ after).length
      (Nat.zero_lt_succ _) Nat.zero_lt_one (Nat.lt_succ_self _)
    rw [if_pos hhead]
    generalize first :: before = before at hbefore hlast hnext ⊢
    generalize stride early (before ++ after) (before ++ after).length 0 1 = places at hlast hnext ⊢
    obtain ⟨last, next⟩ := places
    dsimp only at hlast hnext ⊢
    -- What lies between the two places is early up to the boundary.
    have hbetween : ((before ++ after).take next).drop (last + 1) =
        before.drop (last + 1) ++ after.take (next - before.length) := by
      rw [List.take_append, List.take_of_length_le hnext, List.drop_append_of_le_length hlast]
    have hfront : ∀ x ∈ before.drop (last + 1), early x = true :=
      fun x hx => hbefore x (List.mem_of_mem_drop hx)
    have hback : ∀ x ∈ after.take (next - before.length), early x = false :=
      fun x hx => hafter x (List.mem_of_mem_take hx)
    rw [hbetween]
    split
    · have hhalving : partitionPoint (!early ·) ((after.take (next - before.length)).reverse ++
          (before.drop (last + 1)).reverse) =
            (after.take (next - before.length)).reverse.length := by
        refine partitionPoint_append (fun x hx => ?_) fun x hx => ?_
        · rw [hback x (List.mem_reverse.mp hx)]
          rfl
        · rw [hfront x (List.mem_reverse.mp hx)]
          rfl
      rw [List.reverse_append, hhalving, List.length_reverse, List.length_append, List.length_drop]
      omega
    · rw [partitionPoint_append hfront hback, List.length_drop]
      omega

end RelStore.Sorting
