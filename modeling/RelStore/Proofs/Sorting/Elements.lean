import RelStore.Proofs.Sorting.Stable

/-!
# Sorting loses nothing

Whatever the comparisons say, and though no order may agree with them, a list that has been sorted
has the elements that it had before (`stableSort_perm`): every step of a merge moves elements from
the parts to what has been merged (`Merging.outcome_gallopBoth`), and the runs of a list are pieces
of it (`flatten_runsWithin_perm`).
-/

namespace RelStore.Sorting

variable {α : Type}

/-! ## Merging -/

namespace Merging

/-- A gallop through the short part loses nothing. -/
theorem outcome_gallopShort (reversed : Bool) (wins : α → α → Bool) (m : Merging α) :
    (m.gallopShort reversed wins).1.outcome.Perm m.outcome := by
  unfold gallopShort
  dsimp only
  split
  · exact outcome_takeShort _ m
  · rw [outcome_takeLong]
    exact outcome_takeShort _ m

/-- A gallop through the long part loses nothing. -/
theorem outcome_gallopLong (reversed : Bool) (wins : α → α → Bool) (m : Merging α) :
    (m.gallopLong reversed wins).1.outcome.Perm m.outcome := by
  unfold gallopLong
  dsimp only
  split
  · exact .of_eq (outcome_takeLong _ m)
  · exact (outcome_takeShort 1 _).trans (.of_eq (outcome_takeLong _ m))

/-- A gallop through both parts loses nothing. -/
theorem outcome_gallopBoth (reversed : Bool) (wins : α → α → Bool) (m : Merging α) :
    (m.gallopBoth reversed wins).1.outcome.Perm m.outcome := by
  have hlong := outcome_gallopLong reversed wins
  have hshort := outcome_gallopShort reversed wins
  cases reversed with
  | true =>
    unfold gallopBoth
    simp only [if_true]
    split
    · exact hlong m
    · exact (hshort _).trans (hlong m)
  | false =>
    unfold gallopBoth
    simp only [Bool.false_eq_true, if_false]
    split
    · exact hshort m
    · exact (hlong _).trans (hshort m)

end Merging

/-- A merge has the elements that it has merged and those that were left. -/
theorem mergeWithin_perm (reversed : Bool) (wins : α → α → Bool) (steps : Nat) (pace : Pace)
    (patience : Nat) (m : Merging α) :
    (mergeWithin reversed wins steps pace patience m).1.Perm m.outcome := by
  induction steps generalizing pace patience m with
  | zero => exact .refl _
  | succ steps ih =>
    unfold mergeWithin
    split
    · exact .refl _
    · cases pace with
      | contest longStreak shortStreak =>
        dsimp only
        split
        · exact (ih _ _ _).trans (.of_eq (Merging.outcome_takeLong 1 m))
        · exact (ih _ _ _).trans (Merging.outcome_takeShort 1 m)
      | gallop =>
        have hboth := m.outcome_gallopBoth reversed wins
        dsimp only
        split
        · exact hboth
        · split
          · exact (ih _ _ _).trans hboth
          · exact (ih _ _ _).trans hboth

/-- Two merged parts have the elements of both. -/
theorem mergeParts_perm (reversed : Bool) (wins : α → α → Bool) (patience : Nat)
    (long short : List α) :
    (mergeParts reversed wins patience long short).1.Perm (long ++ short) := by
  refine (mergeWithin_perm reversed wins _ _ patience _).trans (.of_eq ?_)
  rw [Merging.outcome_takeLong]
  rfl

/-- Two merged runs have the elements of both. -/
theorem mergeRuns_perm (less : α → α → Bool) (patience : Nat) (first second : List α) :
    (mergeRuns less patience first second).1.Perm (first ++ second) := by
  unfold mergeRuns
  dsimp only
  generalize gallop false _ first = early
  generalize second.length - gallop true _ second.reverse = kept
  split
  · exact .refl _
  · -- What lies between the parts in place is merged forward or backward.
    have hbetween (left right : List α) :
        (if left.length ≤ right.length then mergeParts false less patience right left
          else
            ((mergeParts true (fun l s => less s l) patience left.reverse right.reverse).1.reverse,
              (mergeParts true (fun l s => less s l) patience left.reverse right.reverse).2)).1.Perm
          (left ++ right) := by
      split
      · exact (mergeParts_perm ..).trans List.perm_append_comm
      · exact (List.reverse_perm _).trans ((mergeParts_perm ..).trans
          ((List.reverse_perm left).append (List.reverse_perm right)))
    refine (((hbetween _ _).append_left (first.take early)).append_right
      (second.drop kept)).trans (.of_eq ?_)
    rw [← List.append_assoc, List.take_append_drop, List.append_assoc, List.take_append_drop]

/-! ## Runs -/

/-- The run at the start of a list and the rest have the elements of the list. -/
theorem initialRun_perm (less : α → α → Bool) (xs : List α) :
    ((initialRun less xs).1 ++ (initialRun less xs).2).Perm xs := by
  match xs with
  | [] => exact .refl _
  | [x] => exact .refl _
  | x :: y :: rest =>
    rw [initialRun]
    dsimp only
    generalize runLength _ x (y :: rest) + 1 = length
    refine List.Perm.trans ?_ (.of_eq (List.take_append_drop length (x :: y :: rest)))
    refine List.Perm.append_right _ ?_
    split
    · exact List.reverse_perm _
    · exact .refl _

/-- Elements that are put one by one into a list are added to its elements. -/
theorem foldl_insertSorted_perm (less : α → α → Bool) (sorted xs : List α) :
    (xs.foldl (insertSorted less) sorted).Perm (sorted ++ xs) := by
  induction xs generalizing sorted with
  | nil => exact .of_eq (List.append_nil sorted).symm
  | cons x xs ih =>
    have hinsert : (insertSorted less sorted x).Perm (x :: sorted) := by
      rw [insertSorted]
      refine List.perm_middle.trans ?_
      rw [List.take_append_drop]
    exact (ih _).trans ((hinsert.append_right xs).trans List.perm_middle.symm)

/-- A run that has been filled up and the rest have the elements of the list. -/
theorem filledRun_perm (less : α → α → Bool) (least : Nat) (xs : List α) :
    ((filledRun less least xs).1 ++ (filledRun less least xs).2).Perm xs := by
  refine List.Perm.trans ?_ (initialRun_perm less xs)
  unfold filledRun
  generalize initialRun less xs = run
  obtain ⟨run, rest⟩ := run
  dsimp only
  refine ((foldl_insertSorted_perm less run _).append_right _).trans (.of_eq ?_)
  rw [List.append_assoc, List.take_append_drop]

/-- The runs of a list have its elements. -/
theorem flatten_runsWithin_perm (less : α → α → Bool) (least steps : Nat) {xs : List α}
    (hsteps : xs.length ≤ steps) : (runsWithin less least steps xs).flatten.Perm xs := by
  induction steps generalizing xs with
  | zero =>
    obtain rfl := List.eq_nil_of_length_eq_zero (Nat.le_zero.mp hsteps)
    exact .refl _
  | succ steps ih =>
    cases xs with
    | nil => exact .refl _
    | cons x xs =>
      have hlength : (filledRun less least (x :: xs)).2.length ≤ steps :=
        Nat.le_trans (length_filledRun_le least x xs) (Nat.le_of_succ_le_succ hsteps)
      rw [runsWithin]
      exact ((ih hlength).append_left _).trans (filledRun_perm less least (x :: xs))

/-! ## Sorting -/

namespace Pending

/-- Merging the last run with those before it loses nothing. -/
theorem collapse_perm (less : α → α → Bool) (power : Nat) (below : List (List α × Nat))
    (top : List α) (patience : Nat) :
    ((collapse less power below top patience).2.1 ::
      (collapse less power below top patience).1.map (·.1)).flatten.Perm
        (top :: below.map (·.1)).flatten := by
  induction below generalizing top patience with
  | nil => exact .refl _
  | cons entry below ih =>
    obtain ⟨run, boundary⟩ := entry
    rw [collapse]
    split
    · refine (ih _ _).trans ?_
      simp only [List.map_cons, List.flatten_cons, ← List.append_assoc]
      exact ((mergeRuns_perm less patience run top).trans List.perm_append_comm).append_right _
    · exact .refl _

/-- Adding runs one after the other adds their elements. -/
theorem foldl_push_perm (less : α → α → Bool) (n : Nat) (runs : List (List α))
    (pending : Pending α) :
    (runs.foldl (push less n) pending).stack.flatten.Perm
      (pending.stack ++ runs).flatten := by
  induction runs generalizing pending with
  | nil => rw [List.append_nil]; exact .refl _
  | cons run runs ih =>
    have hpush : (pending.push less n run).stack.flatten.Perm (run :: pending.stack).flatten :=
      (collapse_perm less _ pending.below pending.top pending.patience).append_left run
    refine (ih _).trans ?_
    simp only [List.flatten_append, List.flatten_cons, ← List.append_assoc] at hpush ⊢
    exact (hpush.trans List.perm_append_comm).append_right _

/-- Merging all runs loses nothing. -/
theorem mergeAll_perm (less : α → α → Bool) (steps : Nat) {below : List (List α × Nat)}
    (top : List α) (patience : Nat) (hsteps : below.length ≤ steps) :
    (mergeAll less steps below top patience).Perm (top :: below.map (·.1)).flatten := by
  induction steps generalizing below top patience with
  | zero =>
    obtain rfl := List.eq_nil_of_length_eq_zero (Nat.le_zero.mp hsteps)
    exact .of_eq (List.append_nil top).symm
  | succ steps ih =>
    match below, hsteps with
    | [], _ => exact .of_eq (List.append_nil top).symm
    | [(run, _)], _ =>
      refine (mergeRuns_perm less patience run top).trans (List.perm_append_comm.trans ?_)
      exact .of_eq (by simp)
    | (run, power) :: (earlier, boundary) :: below, hsteps =>
      rw [List.length_cons, List.length_cons] at hsteps
      rw [mergeAll]
      split
      · refine (ih top _ (by rw [List.length_cons]; omega)).trans ?_
        simp only [List.map_cons, List.flatten_cons]
        refine List.Perm.append_left top ?_
        rw [← List.append_assoc]
        exact ((mergeRuns_perm less patience earlier run).trans
          List.perm_append_comm).append_right _
      · refine (ih _ _ (by rw [List.length_cons]; omega)).trans ?_
        simp only [List.map_cons, List.flatten_cons]
        rw [← List.append_assoc top]
        exact ((mergeRuns_perm less patience run top).trans List.perm_append_comm).append_right _

end Pending

/-- A sorted list has the elements of the list. -/
theorem stableSort_perm (less : α → α → Bool) (xs : List α) : (stableSort less xs).Perm xs := by
  have hruns : (runs less xs).flatten.Perm xs :=
    flatten_runsWithin_perm less (leastRunLength xs.length) xs.length (Nat.le_refl _)
  rw [stableSort]
  generalize runs less xs = runs at hruns ⊢
  cases runs with
  | nil => exact hruns
  | cons first rest =>
    exact (Pending.mergeAll_perm less _ _ _ (Nat.le_refl _)).trans
      ((Pending.foldl_push_perm less xs.length rest _).trans hruns)

end RelStore.Sorting
