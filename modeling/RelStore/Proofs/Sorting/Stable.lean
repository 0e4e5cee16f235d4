import RelStore.Proofs.Sorting.Runs
import RelStore.Sorting.Basic

/-!
# Stable sorting sorts

Runs that wait to be merged stand in a stack, the latest on top (`Stacked`). Merging two neighbours
keeps it one (`Stacked.merge`), whatever powers decide which neighbours are next, so that any list
is sorted in the end (`stableSort_sorted`): in a strict order that the comparisons of later elements
with earlier ones tell. Such an order leaves no ties, so it also says where elements go of which
none is less.
-/

namespace RelStore.Sorting

variable {α : Type} {less : α → α → Bool} {before : α → α → Prop}

/-- Runs, the latest first, that are sorted and decide with one another. -/
structure Stacked (less : α → α → Bool) (before : α → α → Prop) (stack : List (List α)) : Prop where
  /-- Every run is sorted. -/
  sorted : ∀ run ∈ stack, run.Pairwise before
  /-- The elements of a later run decide with those of an earlier one. -/
  decides : stack.Pairwise fun later earlier =>
    ∀ x ∈ earlier, ∀ y ∈ later, Decides less before x y

/-- The runs that wait to be merged, the latest first. -/
def Pending.stack (pending : Pending α) : List (List α) :=
  pending.top :: pending.below.map (·.1)

section

variable [IsStrictOrder α before]

/-- Merging two neighbours leaves a stack of the same elements. -/
theorem Stacked.merge (patience : Nat) (above : List (List α)) {below : List (List α)}
    {later earlier : List α}
    (hstack : Stacked less before (above ++ later :: earlier :: below)) :
    Stacked less before (above ++ (mergeRuns less patience earlier later).1 :: below) ∧
      (above ++ (mergeRuns less patience earlier later).1 :: below).flatten.Perm
        (above ++ later :: earlier :: below).flatten := by
  obtain ⟨hsorted, hdecides⟩ := hstack
  obtain ⟨hsortedAbove, hsorted⟩ := List.forall_mem_append.mp hsorted
  obtain ⟨hlater, hsorted⟩ := List.forall_mem_cons.mp hsorted
  obtain ⟨hearlier, hsortedBelow⟩ := List.forall_mem_cons.mp hsorted
  obtain ⟨habove, hdecides, hcross⟩ := List.pairwise_append.mp hdecides
  obtain ⟨hlaterRest, hdecides⟩ := List.pairwise_cons.mp hdecides
  obtain ⟨hearlierRest, hbelow⟩ := List.pairwise_cons.mp hdecides
  obtain ⟨hmerged, hperm⟩ :=
    mergeRuns_sorted patience hearlier hlater (hlaterRest earlier List.mem_cons_self)
  generalize (mergeRuns less patience earlier later).1 = merged at hmerged hperm ⊢
  refine ⟨⟨?_, ?_⟩, ?_⟩
  · exact List.forall_mem_append.mpr
      ⟨hsortedAbove, List.forall_mem_cons.mpr ⟨hmerged, hsortedBelow⟩⟩
  · refine List.pairwise_append.mpr ⟨habove, List.pairwise_cons.mpr ⟨?_, hbelow⟩, ?_⟩
    · intro run hrun x hx y hy
      rcases List.mem_append.mp (hperm.mem_iff.mp hy) with hy | hy
      · exact hearlierRest run hrun x hx y hy
      · exact hlaterRest run (List.mem_cons_of_mem _ hrun) x hx y hy
    · intro top htop run hrun x hx y hy
      rcases List.mem_cons.mp hrun with rfl | hrun
      · rcases List.mem_append.mp (hperm.mem_iff.mp hx) with hx | hx
        · exact hcross top htop earlier (by simp) x hx y hy
        · exact hcross top htop later (by simp) x hx y hy
      · exact hcross top htop run (by simp [hrun]) x hx y hy
  · simp only [List.flatten_append, List.flatten_cons]
    refine List.Perm.append_left _ ?_
    rw [← List.append_assoc]
    exact (hperm.trans List.perm_append_comm).append_right _

namespace Pending

/-- Merging the last run with those before it leaves a stack of the same elements. -/
theorem collapse_stacked (power : Nat) {above : List (List α)} {below : List (List α × Nat)}
    {top : List α} (patience : Nat)
    (hstack : Stacked less before (above ++ top :: below.map (·.1))) :
    Stacked less before (above ++ (collapse less power below top patience).2.1 ::
        (collapse less power below top patience).1.map (·.1)) ∧
      (above ++ (collapse less power below top patience).2.1 ::
        (collapse less power below top patience).1.map (·.1)).flatten.Perm
        (above ++ top :: below.map (·.1)).flatten := by
  induction below generalizing top patience with
  | nil => exact ⟨hstack, .refl _⟩
  | cons entry below ih =>
    obtain ⟨run, boundary⟩ := entry
    rw [collapse]
    split
    · obtain ⟨hmerged, hperm⟩ := hstack.merge patience above
      obtain ⟨hresult, hall⟩ := ih (mergeRuns less patience run top).2 hmerged
      exact ⟨hresult, hall.trans hperm⟩
    · exact ⟨hstack, .refl _⟩

/-- Adding a run leaves a stack of the same elements. -/
theorem push_stacked (n : Nat) {above : List (List α)} {pending : Pending α} {run : List α}
    (hstack : Stacked less before (above ++ run :: pending.stack)) :
    Stacked less before (above ++ (pending.push less n run).stack) ∧
      (above ++ (pending.push less n run).stack).flatten.Perm
        (above ++ run :: pending.stack).flatten := by
  rw [List.append_cons] at hstack ⊢
  have hresult := collapse_stacked (boundaryPower n pending.start pending.top.length run.length)
    pending.patience hstack
  rw [List.append_assoc] at hresult
  exact hresult

/-- Adding runs one after the other leaves a stack of the same elements. -/
theorem foldl_push_stacked (n : Nat) {runs : List (List α)} {pending : Pending α}
    (hstack : Stacked less before (runs.reverse ++ pending.stack)) :
    Stacked less before (runs.foldl (push less n) pending).stack ∧
      (runs.foldl (push less n) pending).stack.flatten.Perm
        (runs.reverse ++ pending.stack).flatten := by
  induction runs generalizing pending with
  | nil => exact ⟨hstack, .refl _⟩
  | cons run runs ih =>
    rw [List.reverse_cons, List.append_assoc, List.singleton_append] at hstack ⊢
    obtain ⟨hpushed, hperm⟩ := push_stacked n hstack
    obtain ⟨hresult, hall⟩ := ih hpushed
    exact ⟨hresult, hall.trans hperm⟩

/-- Merging all runs gives their elements, sorted. -/
theorem mergeAll_sorted (steps : Nat) {below : List (List α × Nat)} {top : List α} (patience : Nat)
    (hsteps : below.length ≤ steps) (hstack : Stacked less before (top :: below.map (·.1))) :
    (mergeAll less steps below top patience).Pairwise before ∧
      (mergeAll less steps below top patience).Perm (top :: below.map (·.1)).flatten := by
  induction steps generalizing below top patience with
  | zero =>
    obtain rfl := List.eq_nil_of_length_eq_zero (Nat.le_zero.mp hsteps)
    exact ⟨hstack.sorted top List.mem_cons_self, by simp [mergeAll]⟩
  | succ steps ih =>
    match below, hsteps, hstack with
    | [], _, hstack => exact ⟨hstack.sorted top List.mem_cons_self, by simp [mergeAll]⟩
    | [(run, _)], _, hstack =>
      have hruns := hstack.sorted
      obtain ⟨htop, hruns⟩ := List.forall_mem_cons.mp hruns
      obtain ⟨hsorted, hperm⟩ := mergeRuns_sorted patience (hruns run List.mem_cons_self) htop
        ((List.pairwise_cons.mp hstack.decides).1 run List.mem_cons_self)
      refine ⟨hsorted, hperm.trans ?_⟩
      simpa using List.perm_append_comm
    | (run, power) :: (earlier, boundary) :: below, hsteps, hstack =>
      rw [List.length_cons, List.length_cons] at hsteps
      rw [mergeAll]
      split
      · obtain ⟨hmerged, hperm⟩ := hstack.merge patience [top]
        generalize mergeRuns less patience earlier run = merged at hmerged hperm ⊢
        have hmerged : Stacked less before (top :: ((merged.1, power) :: below).map (·.1)) :=
          hmerged
        obtain ⟨hresult, hall⟩ :=
          ih merged.2 (by rw [List.length_cons]; omega) hmerged
        exact ⟨hresult, hall.trans hperm⟩
      · obtain ⟨hmerged, hperm⟩ := hstack.merge patience []
        generalize mergeRuns less patience run top = merged at hmerged hperm ⊢
        have hmerged : Stacked less before (merged.1 :: ((earlier, boundary) :: below).map (·.1)) :=
          hmerged
        obtain ⟨hresult, hall⟩ := ih merged.2 (by rw [List.length_cons]; omega) hmerged
        exact ⟨hresult, hall.trans hperm⟩

end Pending

/-- A list whose later elements decide with the earlier ones is sorted. -/
theorem stableSort_sorted {xs : List α} (hxs : xs.Pairwise (Decides less before)) :
    (stableSort less xs).Pairwise before ∧ (stableSort less xs).Perm xs := by
  obtain ⟨hsorted, hdecides, hperm⟩ :=
    runsWithin_sorted (leastRunLength xs.length) xs.length hxs (Nat.le_refl _)
  change (runs less xs).flatten.Perm xs at hperm
  change ∀ run ∈ runs less xs, _ at hsorted
  change (runs less xs).Pairwise _ at hdecides
  rw [stableSort]
  generalize runs less xs = runs at hsorted hdecides hperm ⊢
  cases runs with
  | nil => exact ⟨.nil, hperm⟩
  | cons first rest =>
    have hstack : Stacked less before (rest.reverse ++ [first]) := by
      rw [← List.reverse_cons]
      exact ⟨fun run hrun => hsorted run (List.mem_reverse.mp hrun),
        List.pairwise_reverse.mpr hdecides⟩
    dsimp only
    obtain ⟨hpending, hall⟩ :=
      @Pending.foldl_push_stacked _ less before _ xs.length rest ⟨[], first, 0, gallopLimit⟩ hstack
    generalize rest.foldl (Pending.push less xs.length) ⟨[], first, 0, gallopLimit⟩ = pending
      at hpending hall ⊢
    obtain ⟨hresult, hmerged⟩ :=
      Pending.mergeAll_sorted pending.below.length pending.patience (Nat.le_refl _) hpending
    refine ⟨hresult, hmerged.trans (hall.trans ?_)⟩
    refine List.Perm.trans ?_ hperm
    change (rest.reverse ++ [first]).flatten.Perm (first :: rest).flatten
    rw [← List.reverse_cons]
    exact (List.reverse_perm _).flatten

end

end RelStore.Sorting
