import RelStore.Proofs.Sorting.Merge
import RelStore.Sorting.Run

/-!
# Runs are sorted pieces of a list

Whatever run is cut from the start of a list is sorted and consists of the elements that are no
longer in the rest (`filledRun_sorted`). The runs of a list are thus sorted, hold the elements of
the list in this order of runs, and earlier elements stand in earlier runs (`runsWithin_sorted`).
-/

namespace RelStore.Sorting

variable {α : Type} {less : α → α → Bool} {before : α → α → Prop}

/-- As far as a run goes it is in order, if the step tells the order. -/
theorem pairwise_take_runLength {order : α → α → Prop} [IsStrictOrder α order]
    {step : α → α → Bool} {first : α} {xs : List α}
    (hstep : (first :: xs).Pairwise fun a b => step a b = true → order a b) :
    (first :: xs.take (runLength step first xs)).Pairwise order := by
  rw [← List.isChain_iff_pairwise]
  induction xs generalizing first with
  | nil => exact .singleton first
  | cons second xs ih =>
    obtain ⟨hfirst, hrest⟩ := List.pairwise_cons.mp hstep
    rw [runLength]
    split
    · next hsecond => exact .cons_cons (hfirst second List.mem_cons_self hsecond) (ih hrest)
    · exact .singleton first

/-- A run that has been filled up takes an element at least. -/
theorem length_filledRun_le (least : Nat) (x : α) (xs : List α) :
    (filledRun less least (x :: xs)).2.length ≤ xs.length := by
  have hinitial : (initialRun less (x :: xs)).2.length ≤ xs.length := by
    cases xs with
    | nil => exact Nat.le_refl 0
    | cons y rest =>
      rw [initialRun]
      dsimp only
      rw [List.length_drop, List.length_cons]
      omega
  rw [filledRun]
  dsimp only
  rw [List.length_drop]
  omega

section

variable [IsStrictOrder α before]

/-- The run at the start of a list is sorted, and its elements are those that the rest lacks. -/
theorem initialRun_sorted {xs : List α} (hxs : xs.Pairwise (Decides less before)) :
    ∃ taken, xs = taken ++ (initialRun less xs).2 ∧ (initialRun less xs).1.Perm taken ∧
      (initialRun less xs).1.Pairwise before := by
  match xs, hxs with
  | [], _ => exact ⟨[], rfl, .refl _, .nil⟩
  | [x], _ => exact ⟨[x], rfl, .refl _, List.pairwise_singleton _ _⟩
  | x :: y :: rest, hxs =>
    rw [initialRun]
    refine ⟨_, (List.take_append_drop _ _).symm, ?_, ?_⟩
    · split
      · exact List.reverse_perm _
      · exact .refl _
    · split
      · next hless =>
        rw [hless]
        -- A run in reverse order is one in order for the order turned round.
        refine List.pairwise_reverse.mpr ?_
        refine @pairwise_take_runLength _ (Function.swap before) _ _ _ _ ?_
        exact hxs.imp fun hab hstep => hab.later (by simpa using hstep)
      · next hless =>
        rw [Bool.eq_false_iff.mpr hless]
        refine pairwise_take_runLength (hxs.imp fun hab hstep => hab.earlier ?_)
        simpa using hstep

/-- An element put into a sorted list that its elements decide with finds its place. -/
theorem insertSorted_sorted {sorted : List α} {x : α} (hsorted : sorted.Pairwise before)
    (hdecides : ∀ y ∈ sorted, Decides less before y x) :
    (insertSorted less sorted x).Pairwise before ∧
      (insertSorted less sorted x).Perm (x :: sorted) := by
  obtain ⟨front, back, rfl, hfront, hback⟩ := exists_cut_of_later hsorted hdecides
  have hplace : partitionPoint (fun y => !less x y) (front ++ back) = front.length :=
    partitionPoint_append (fun y hy => (hfront y hy).1) fun y hy => (hback y hy).1
  rw [insertSorted, hplace, List.take_left, List.drop_left]
  obtain ⟨hf, hb, hfb⟩ := List.pairwise_append.mp hsorted
  refine ⟨List.pairwise_append.mpr ⟨hf, List.pairwise_cons.mpr ⟨fun y hy => ?_, hb⟩, ?_⟩,
    List.perm_middle⟩
  · exact (hback y hy).2
  · intro y hy z hz
    rcases List.mem_cons.mp hz with rfl | hz
    · exact (hfront y hy).2
    · exact hfb y hy z hz

/-- Elements put one by one into a sorted list that stood before them find their places. -/
theorem foldl_insertSorted_sorted {sorted xs : List α} (hsorted : sorted.Pairwise before)
    (hxs : xs.Pairwise (Decides less before))
    (hdecides : ∀ y ∈ sorted, ∀ x ∈ xs, Decides less before y x) :
    (xs.foldl (insertSorted less) sorted).Pairwise before ∧
      (xs.foldl (insertSorted less) sorted).Perm (sorted ++ xs) := by
  induction xs generalizing sorted with
  | nil => exact ⟨hsorted, by rw [List.append_nil]; exact .refl _⟩
  | cons x xs ih =>
    obtain ⟨hx, hxs⟩ := List.pairwise_cons.mp hxs
    obtain ⟨hinsert, hperm⟩ :=
      insertSorted_sorted hsorted fun y hy => hdecides y hy x List.mem_cons_self
    obtain ⟨hresult, hall⟩ := ih hinsert hxs fun y hy z hz => by
      rcases List.mem_cons.mp (hperm.mem_iff.mp hy) with rfl | hy
      · exact hx z hz
      · exact hdecides y hy z (List.mem_cons_of_mem _ hz)
    exact ⟨hresult, hall.trans ((hperm.append_right xs).trans List.perm_middle.symm)⟩

/-- A run that has been filled up is sorted, and its elements are those that the rest lacks. -/
theorem filledRun_sorted (least : Nat) {xs : List α} (hxs : xs.Pairwise (Decides less before)) :
    ∃ taken, xs = taken ++ (filledRun less least xs).2 ∧
      (filledRun less least xs).1.Perm taken ∧ (filledRun less least xs).1.Pairwise before := by
  obtain ⟨taken, hsplit, hperm, hsorted⟩ := initialRun_sorted hxs
  rw [filledRun]
  generalize initialRun less xs = run at hsplit hperm hsorted ⊢
  obtain ⟨run, rest⟩ := run
  dsimp only at hsplit hperm hsorted ⊢
  subst hsplit
  obtain ⟨-, hrest, hcross⟩ := List.pairwise_append.mp hxs
  generalize least - run.length = lacking
  obtain ⟨hfilled, hall⟩ := foldl_insertSorted_sorted hsorted
    (hrest.sublist (List.take_sublist lacking rest))
    fun y hy x hx => hcross y (hperm.mem_iff.mp hy) x (List.mem_of_mem_take hx)
  refine ⟨taken ++ rest.take lacking, ?_, hall.trans (hperm.append_right _), hfilled⟩
  rw [List.append_assoc, List.take_append_drop]

/-- The runs of a list are sorted, hold its elements, and decide with one another as their elements
did. -/
theorem runsWithin_sorted (least steps : Nat) {xs : List α}
    (hxs : xs.Pairwise (Decides less before)) (hsteps : xs.length ≤ steps) :
    (∀ run ∈ runsWithin less least steps xs, run.Pairwise before) ∧
      (runsWithin less least steps xs).Pairwise
        (fun first second => ∀ x ∈ first, ∀ y ∈ second, Decides less before x y) ∧
      (runsWithin less least steps xs).flatten.Perm xs := by
  induction steps generalizing xs with
  | zero =>
    obtain rfl := List.eq_nil_of_length_eq_zero (Nat.le_zero.mp hsteps)
    exact ⟨by simp [runsWithin], by simp [runsWithin], by simp [runsWithin]⟩
  | succ steps ih =>
    cases xs with
    | nil => exact ⟨by simp [runsWithin], by simp [runsWithin], by simp [runsWithin]⟩
    | cons x xs =>
      obtain ⟨taken, hsplit, hperm, hsorted⟩ := filledRun_sorted least hxs
      have hlength : (filledRun less least (x :: xs)).2.length ≤ steps :=
        Nat.le_trans (length_filledRun_le least x xs) (Nat.le_of_succ_le_succ hsteps)
      rw [runsWithin]
      generalize filledRun less least (x :: xs) = run at hsplit hperm hsorted hlength ⊢
      obtain ⟨run, rest⟩ := run
      dsimp only at hsplit hperm hsorted hlength ⊢
      rw [hsplit] at hxs ⊢
      obtain ⟨-, hrest, hcross⟩ := List.pairwise_append.mp hxs
      obtain ⟨hruns, hdecides, hflat⟩ := ih hrest hlength
      refine ⟨List.forall_mem_cons.mpr ⟨hsorted, hruns⟩, List.pairwise_cons.mpr ⟨?_, hdecides⟩, ?_⟩
      · intro later hlater a ha b hb
        exact hcross a (hperm.mem_iff.mp ha) b
          (hflat.mem_iff.mp (List.mem_flatten.mpr ⟨later, hlater, hb⟩))
      · rw [List.flatten_cons]
        exact hperm.append hflat

end

end RelStore.Sorting
