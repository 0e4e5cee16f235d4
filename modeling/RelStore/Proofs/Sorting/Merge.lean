import Mathlib.Data.List.Induction
import Mathlib.Order.RelClasses
import RelStore.Proofs.Sorting.Gallop

/-!
# Merging is sorting

A sort compares elements in one direction only: a later one with an earlier one, whether it comes
before it. `Decides` says that the answer tells which of the two comes first in some strict order,
which leaves no ties. Of a merge under way, what has been merged comes before all that is left
(`Merging.Sound`); every step, be it by heads or by galloping, keeps this and loses nothing
(`Merging.Step`). Two runs, of which the first holds the earlier elements, thus merge into one that
is sorted (`mergeRuns_sorted`).
-/

namespace RelStore.Sorting

variable {α : Type}

/-- The comparison of a later element with an earlier one tells which of the two comes first. -/
def Decides (less : α → α → Bool) (before : α → α → Prop) (earlier later : α) : Prop :=
  if less later earlier = true then before later earlier else before earlier later

section

variable {less : α → α → Bool} {before : α → α → Prop} {a b : α}

/-- A later element that is less comes first. -/
theorem Decides.later (h : Decides less before a b) (hless : less b a = true) : before b a := by
  rwa [Decides, if_pos hless] at h

/-- An earlier element comes first unless the later one is less. -/
theorem Decides.earlier (h : Decides less before a b) (hless : less b a = false) : before a b := by
  rwa [Decides, if_neg (by rw [hless]; exact Bool.false_ne_true)] at h

/-- A later element that comes after an earlier one is not less. -/
theorem Decides.less_eq_false [IsStrictOrder α before] (h : Decides less before a b)
    (hab : before a b) : less b a = false := by
  cases hless : less b a with
  | false => rfl
  | true => exact absurd (h.later hless) (asymm_of before hab)

/-- A later element that comes before an earlier one is less. -/
theorem Decides.less_eq_true [IsStrictOrder α before] (h : Decides less before a b)
    (hba : before b a) : less b a = true := by
  cases hless : less b a with
  | true => rfl
  | false => exact absurd (h.earlier hless) (asymm_of before hba)

variable [IsStrictOrder α before]

/-- What comes before the head of a sorted list comes before all of it. -/
theorem before_of_head {x y : α} {ys : List α} (hxy : before x y) (hys : (y :: ys).Pairwise before) :
    ∀ z ∈ y :: ys, before x z :=
  List.forall_mem_cons.mpr
    ⟨hxy, fun z hz => trans_of before hxy ((List.pairwise_cons.mp hys).1 z hz)⟩

/-- A later element cuts a sorted list into those that come before it and those that come after
it. -/
theorem exists_cut_of_later {xs : List α} {y : α} (hxs : xs.Pairwise before)
    (hdecides : ∀ x ∈ xs, Decides less before x y) :
    ∃ front back, xs = front ++ back ∧
      (∀ x ∈ front, (!less y x) = true ∧ before x y) ∧
      ∀ x ∈ back, (!less y x) = false ∧ before y x := by
  have hearly : xs.Pairwise fun a b => (!less y b) = true → (!less y a) = true := by
    refine hxs.imp_of_mem fun {a b} ha hb hab hlate => ?_
    have hby := (hdecides b hb).earlier (by simpa using hlate)
    rw [(hdecides a ha).less_eq_false (trans_of before hab hby)]
    rfl
  obtain ⟨front, back, rfl, hfront, hback⟩ := exists_early_parts hearly
  refine ⟨front, back, rfl, fun x hx => ⟨hfront x hx, ?_⟩, fun x hx => ⟨hback x hx, ?_⟩⟩
  · exact (hdecides x (List.mem_append_left _ hx)).earlier (by simpa using hfront x hx)
  · exact (hdecides x (List.mem_append_right _ hx)).later (by simpa using hback x hx)

/-- An earlier element cuts a sorted list into those that come before it and those that come after
it. -/
theorem exists_cut_of_earlier {ys : List α} {x : α} (hys : ys.Pairwise before)
    (hdecides : ∀ y ∈ ys, Decides less before x y) :
    ∃ front back, ys = front ++ back ∧
      (∀ y ∈ front, less y x = true ∧ before y x) ∧ ∀ y ∈ back, less y x = false ∧ before x y := by
  have hearly : ys.Pairwise fun a b => less b x = true → less a x = true := by
    refine hys.imp_of_mem fun {a b} ha hb hab hlate => ?_
    exact (hdecides a ha).less_eq_true (trans_of before hab ((hdecides b hb).later hlate))
  obtain ⟨front, back, rfl, hfront, hback⟩ := exists_early_parts hearly
  refine ⟨front, back, rfl, fun y hy => ⟨hfront y hy, ?_⟩, fun y hy => ⟨hback y hy, ?_⟩⟩
  · exact (hdecides y (List.mem_append_left _ hy)).later (hfront y hy)
  · exact (hdecides y (List.mem_append_right _ hy)).earlier (hback y hy)

end

namespace Merging

/-- How many elements are left to merge. -/
def rest (m : Merging α) : Nat := m.long.length + m.short.length

/-- What holds of a merge under way, in the order that it merges into. -/
structure Sound (order : α → α → Prop) (wins : α → α → Bool) (m : Merging α) : Prop where
  /-- What has been merged and what is left of the long part are in order. -/
  long : (m.merged ++ m.long).Pairwise order
  /-- What has been merged and what is left of the short part are in order. -/
  short : (m.merged ++ m.short).Pairwise order
  /-- The heads tell which of them comes first. -/
  decides : ∀ l ∈ m.long, ∀ s ∈ m.short, Decides wins order s l
  /-- The last element of the short part comes after all of the long one. -/
  last : ∀ s ∈ m.short.getLast?, ∀ l ∈ m.long, order l s

/-- What a step of a merge leads to. -/
structure Step (order : α → α → Prop) (wins : α → α → Bool) (m next : Merging α) : Prop where
  /-- The merge stays sound. -/
  sound : Sound order wins next
  /-- No element is lost or made. -/
  perm : next.outcome.Perm m.outcome
  /-- No more is left to merge. -/
  rest_le : next.rest ≤ m.rest
  /-- Something has been merged, unless the merge is settled. -/
  rest_lt : next.isSettled = false → next.rest < m.rest

/-- A merge that is not settled has a head in both parts. -/
theorem exists_heads {m : Merging α} (hopen : m.isSettled = false) :
    ∃ l ls s ss, m.long = l :: ls ∧ m.short = s :: ss := by
  obtain ⟨merged, long, short⟩ := m
  cases long with
  | nil => cases hopen
  | cons l ls =>
    cases short with
    | nil => cases hopen
    | cons s ss => exact ⟨l, ls, s, ss, rfl, rfl⟩

section

variable {order : α → α → Prop} {wins : α → α → Bool} {m : Merging α}

/-- The long part wins when its head does. -/
theorem longWins_eq {l s : α} {ls ss : List α} (hlong : m.long = l :: ls)
    (hshort : m.short = s :: ss) : m.longWins wins = wins l s := by
  rw [longWins, hlong, hshort]

/-- A sound merge that is settled is sorted. -/
theorem Sound.outcome_sorted (hm : Sound order wins m) (hsettled : m.isSettled = true) :
    m.outcome.Pairwise order := by
  obtain ⟨hmerged, hshort, hmergedShort⟩ := List.pairwise_append.mp hm.short
  refine List.pairwise_append.mpr ⟨hm.long, hshort, fun x hx s hs => ?_⟩
  rcases List.mem_append.mp hx with hx | hx
  · exact hmergedShort x hx s hs
  · -- What is left of the long part stands before a single element.
    rcases Bool.or_eq_true_iff.mp hsettled with hempty | hone
    · rw [List.isEmpty_iff.mp hempty] at hx
      cases hx
    · obtain ⟨last, hlast⟩ : ∃ last, m.short = [last] := by
        apply List.length_eq_one_iff.mp
        have := List.length_pos_of_mem hs
        have := of_decide_eq_true hone
        omega
      rw [hlast] at hs
      obtain rfl := List.mem_singleton.mp hs
      exact hm.last s (by rw [hlast]; rfl) x hx

/-- Elements of the long part that come before all of the short one can be merged. -/
theorem Sound.takeLong (hm : Sound order wins m) {count : Nat}
    (hfirst : ∀ l ∈ m.long.take count, ∀ s ∈ m.short, order l s) :
    Sound order wins (m.takeLong count) where
  long := by
    change (m.merged ++ m.long.take count ++ m.long.drop count).Pairwise order
    rw [List.append_assoc, List.take_append_drop]
    exact hm.long
  short := by
    obtain ⟨hmerged, hshort, hmergedShort⟩ := List.pairwise_append.mp hm.short
    have hlong := hm.long.sublist ((List.take_sublist count m.long).append_left m.merged)
    refine List.pairwise_append.mpr ⟨hlong, hshort, fun x hx s hs => ?_⟩
    rcases List.mem_append.mp hx with hx | hx
    · exact hmergedShort x hx s hs
    · exact hfirst x hx s hs
  decides := fun l hl => hm.decides l (List.mem_of_mem_drop hl)
  last := fun s hs l hl => hm.last s hs l (List.mem_of_mem_drop hl)

/-- Elements of the short part that come before all of the long one can be merged. -/
theorem Sound.takeShort (hm : Sound order wins m) {count : Nat}
    (hfirst : ∀ s ∈ m.short.take count, ∀ l ∈ m.long, order s l) :
    Sound order wins (m.takeShort count) where
  long := by
    obtain ⟨hmerged, hlong, hmergedLong⟩ := List.pairwise_append.mp hm.long
    have hshort := hm.short.sublist ((List.take_sublist count m.short).append_left m.merged)
    refine List.pairwise_append.mpr ⟨hshort, hlong, fun x hx l hl => ?_⟩
    rcases List.mem_append.mp hx with hx | hx
    · exact hmergedLong x hx l hl
    · exact hfirst x hx l hl
  short := by
    change (m.merged ++ m.short.take count ++ m.short.drop count).Pairwise order
    rw [List.append_assoc, List.take_append_drop]
    exact hm.short
  decides := fun l hl s hs => hm.decides l hl s (List.mem_of_mem_drop hs)
  last := by
    intro s hs
    change s ∈ (m.short.drop count).getLast? at hs
    rw [List.getLast?_drop] at hs
    split at hs
    · cases hs
    · exact hm.last s hs

/-- Merging elements of the long part loses nothing. -/
theorem outcome_takeLong (count : Nat) (m : Merging α) :
    (m.takeLong count).outcome = m.outcome := by
  change m.merged ++ m.long.take count ++ m.long.drop count ++ m.short = _
  rw [List.append_assoc m.merged, List.take_append_drop]
  rfl

/-- Merging elements of the short part loses nothing. -/
theorem outcome_takeShort (count : Nat) (m : Merging α) :
    (m.takeShort count).outcome.Perm m.outcome := by
  change (m.merged ++ m.short.take count ++ m.long ++ m.short.drop count).Perm
    (m.merged ++ m.long ++ m.short)
  conv_rhs => rw [← List.take_append_drop count m.short]
  rw [List.append_assoc, List.append_assoc, List.append_assoc]
  exact (List.perm_append_comm_assoc _ _ _).append_left _

/-- Merging elements of the long part leaves the others. -/
theorem rest_takeLong (count : Nat) (m : Merging α) :
    (m.takeLong count).rest = m.long.length - count + m.short.length := by
  rw [rest, takeLong, List.length_drop]

/-- Merging elements of the short part leaves the others. -/
theorem rest_takeShort (count : Nat) (m : Merging α) :
    (m.takeShort count).rest = m.long.length + (m.short.length - count) := by
  rw [rest, takeShort, List.length_drop]

/-- A step after one that may have merged nothing. -/
theorem Step.after {passed next : Merging α} (hstep : Step order wins passed next)
    (hperm : passed.outcome.Perm m.outcome) (hrest : passed.rest ≤ m.rest) :
    Step order wins m next where
  sound := hstep.sound
  perm := hstep.perm.trans hperm
  rest_le := Nat.le_trans hstep.rest_le hrest
  rest_lt := fun hopen => Nat.lt_of_lt_of_le (hstep.rest_lt hopen) hrest

/-- A step that settles a merge need not merge anything. -/
theorem Step.of_settled {passed : Merging α} (hsound : Sound order wins passed)
    (hperm : passed.outcome.Perm m.outcome) (hrest : passed.rest ≤ m.rest)
    (hsettled : passed.isSettled = true) : Step order wins m passed where
  sound := hsound
  perm := hperm
  rest_le := hrest
  rest_lt := fun hopen => absurd hsettled (by rw [hopen]; exact Bool.false_ne_true)

section

variable [IsStrictOrder α order]

/-- Where the long part has won, its head can be merged. -/
theorem Sound.step_takeLong (hm : Sound order wins m) (hopen : m.isSettled = false)
    (hwins : m.longWins wins = true) : Step order wins m (m.takeLong 1) := by
  obtain ⟨l, ls, s, ss, hlong, hshort⟩ := exists_heads hopen
  have hfirst : order l s := by
    refine (hm.decides l (by rw [hlong]; simp) s (by rw [hshort]; simp)).later ?_
    rwa [longWins_eq hlong hshort] at hwins
  have hafter := hm.short.sublist (List.sublist_append_right m.merged m.short)
  rw [hshort] at hafter
  refine ⟨hm.takeLong ?_, by rw [outcome_takeLong], ?_, fun _ => ?_⟩
  · rw [hlong, hshort]
    intro x hx
    obtain rfl := List.mem_singleton.mp hx
    exact before_of_head hfirst hafter
  · rw [rest_takeLong, rest]
    omega
  · rw [rest_takeLong, rest, hlong, List.length_cons]
    omega

/-- Where the long part has not won, the head of the short one can be merged. -/
theorem Sound.step_takeShort (hm : Sound order wins m) (hopen : m.isSettled = false)
    (hwins : m.longWins wins = false) : Step order wins m (m.takeShort 1) := by
  obtain ⟨l, ls, s, ss, hlong, hshort⟩ := exists_heads hopen
  have hfirst : order s l := by
    refine (hm.decides l (by rw [hlong]; simp) s (by rw [hshort]; simp)).earlier ?_
    rwa [longWins_eq hlong hshort] at hwins
  have hafter := hm.long.sublist (List.sublist_append_right m.merged m.long)
  rw [hlong] at hafter
  refine ⟨hm.takeShort ?_, outcome_takeShort 1 m, ?_, fun _ => ?_⟩
  · rw [hlong, hshort]
    intro x hx
    obtain rfl := List.mem_singleton.mp hx
    exact before_of_head hfirst hafter
  · rw [rest_takeShort, rest]
    omega
  · rw [rest_takeShort, rest, hshort, List.length_cons]
    omega

/-- Galloping through the short part is a step. -/
theorem Sound.step_gallopShort (hm : Sound order wins m) (hopen : m.isSettled = false)
    (reversed : Bool) : Step order wins m (m.gallopShort reversed wins).1 := by
  obtain ⟨l, ls, s, ss, hlong, -⟩ := exists_heads hopen
  have hl : l ∈ m.long := by rw [hlong]; exact List.mem_cons_self
  have hafter := hm.long.sublist (List.sublist_append_right m.merged m.long)
  rw [hlong] at hafter
  have hsorted := hm.short.sublist (List.sublist_append_right m.merged m.short)
  obtain ⟨front, back, hshort, hfront, hback⟩ := exists_cut_of_later hsorted (hm.decides l hl)
  have hcount : gallop reversed (fun s => m.long.head?.all fun l => !wins l s) m.short =
      front.length := by
    rw [hlong, hshort]
    exact gallop_append reversed (fun x hx => (hfront x hx).1) fun x hx => (hback x hx).1
  have hpassed : Sound order wins (m.takeShort front.length) := by
    refine hm.takeShort fun x hx => ?_
    rw [hshort, List.take_left] at hx
    rw [hlong]
    exact before_of_head (hfront x hx).2 hafter
  have hperm := outcome_takeShort front.length m
  have hrest : (m.takeShort front.length).rest ≤ m.rest := by
    rw [rest_takeShort, rest]
    omega
  rw [gallopShort, hcount]
  dsimp only
  split
  · next hsettled => exact .of_settled hpassed hperm hrest hsettled
  · next hleft =>
    have hleft := Bool.eq_false_iff.mpr hleft
    refine (hpassed.step_takeLong hleft ?_).after hperm hrest
    obtain ⟨-, -, b, bs, -, hheads⟩ := exists_heads hleft
    have hdrop : (m.takeShort front.length).short = back := by
      change m.short.drop front.length = back
      rw [hshort, List.drop_left]
    have hkept : (m.takeShort front.length).long = l :: ls := hlong
    rw [longWins_eq hkept hheads]
    have hb := (hback b (by rw [← hdrop, hheads]; exact List.mem_cons_self)).1
    simpa using hb

/-- Galloping through the long part is a step. -/
theorem Sound.step_gallopLong (hm : Sound order wins m) (hopen : m.isSettled = false)
    (reversed : Bool) : Step order wins m (m.gallopLong reversed wins).1 := by
  obtain ⟨-, -, s, ss, -, hshort⟩ := exists_heads hopen
  have hs : s ∈ m.short := by rw [hshort]; exact List.mem_cons_self
  have hafter := hm.short.sublist (List.sublist_append_right m.merged m.short)
  rw [hshort] at hafter
  have hsorted := hm.long.sublist (List.sublist_append_right m.merged m.long)
  obtain ⟨front, back, hlong, hfront, hback⟩ :=
    exists_cut_of_earlier hsorted fun l hl => hm.decides l hl s hs
  have hcount : gallop reversed (fun l => m.short.head?.all fun s => wins l s) m.long =
      front.length := by
    rw [hlong, hshort]
    exact gallop_append reversed (fun x hx => (hfront x hx).1) fun x hx => (hback x hx).1
  have hpassed : Sound order wins (m.takeLong front.length) := by
    refine hm.takeLong fun x hx => ?_
    rw [hlong, List.take_left] at hx
    rw [hshort]
    exact before_of_head (hfront x hx).2 hafter
  have hperm : (m.takeLong front.length).outcome.Perm m.outcome := by rw [outcome_takeLong]
  have hrest : (m.takeLong front.length).rest ≤ m.rest := by
    rw [rest_takeLong, rest]
    omega
  rw [gallopLong, hcount]
  dsimp only
  split
  · next hsettled => exact .of_settled hpassed hperm hrest hsettled
  · next hleft =>
    have hleft := Bool.eq_false_iff.mpr hleft
    refine (hpassed.step_takeShort hleft ?_).after hperm hrest
    obtain ⟨b, bs, -, -, hheads, -⟩ := exists_heads hleft
    have hdrop : (m.takeLong front.length).long = back := by
      change m.long.drop front.length = back
      rw [hlong, List.drop_left]
    have hkept : (m.takeLong front.length).short = s :: ss := hshort
    rw [longWins_eq hheads hkept]
    exact (hback b (by rw [← hdrop, hheads]; exact List.mem_cons_self)).1

/-- Galloping through both parts is a step. -/
theorem Sound.step_gallopBoth (hm : Sound order wins m) (hopen : m.isSettled = false)
    (reversed : Bool) : Step order wins m (m.gallopBoth reversed wins).1 := by
  have hshort (next : Merging α) (hnext : Sound order wins next) (hleft : next.isSettled = false) :=
    hnext.step_gallopShort hleft reversed
  have hlong (next : Merging α) (hnext : Sound order wins next) (hleft : next.isSettled = false) :=
    hnext.step_gallopLong hleft reversed
  have hboth {first second : Merging α → Merging α × Nat}
      (hfirst : ∀ next, Sound order wins next → next.isSettled = false →
        Step order wins next (first next).1)
      (hsecond : ∀ next, Sound order wins next → next.isSettled = false →
        Step order wins next (second next).1) :
      Step order wins m (if (first m).1.isSettled then ((first m).1, (first m).2) else
        ((second (first m).1).1, max (first m).2 (second (first m).1).2)).1 := by
    have hstep := hfirst m hm hopen
    split
    · exact hstep
    · next hleft =>
      exact (hsecond _ hstep.sound (Bool.eq_false_iff.mpr hleft)).after hstep.perm hstep.rest_le
  cases reversed with
  | false => exact hboth hshort hlong
  | true => exact hboth hlong hshort

end

end

end Merging

section

variable {order : α → α → Prop} {wins : α → α → Bool}

/-- A settled merge ends at once. -/
theorem mergeWithin_of_settled (reversed : Bool) (steps : Nat) (pace : Pace) (patience : Nat)
    {m : Merging α} (hsettled : m.isSettled = true) :
    mergeWithin reversed wins steps pace patience m = (m.outcome, patience) := by
  cases steps with
  | zero => rfl
  | succ steps =>
    unfold mergeWithin
    exact if_pos hsettled

/-- A sound merge ends in the elements that it has merged and those that were left, sorted. -/
theorem mergeWithin_sorted [IsStrictOrder α order] (reversed : Bool) (steps : Nat) (pace : Pace)
    (patience : Nat) {m : Merging α} (hm : m.Sound order wins) (hsteps : m.rest ≤ steps) :
    (mergeWithin reversed wins steps pace patience m).1.Pairwise order ∧
      (mergeWithin reversed wins steps pace patience m).1.Perm m.outcome := by
  cases hsettled : m.isSettled with
  | true =>
    rw [mergeWithin_of_settled reversed steps pace patience hsettled]
    exact ⟨hm.outcome_sorted hsettled, .refl _⟩
  | false =>
    induction steps generalizing pace patience m with
    | zero =>
      obtain ⟨l, ls, -, -, hlong, -⟩ := Merging.exists_heads hsettled
      rw [Merging.rest, hlong, List.length_cons] at hsteps
      omega
    | succ steps ih =>
      -- Whatever the pace is, a step settles the merge or leaves less to it.
      have go {next : Merging α} (hstep : m.Step order wins next) (pace : Pace) (patience : Nat) :
          (mergeWithin reversed wins steps pace patience next).1.Pairwise order ∧
            (mergeWithin reversed wins steps pace patience next).1.Perm m.outcome := by
        cases hnext : next.isSettled with
        | true =>
          rw [mergeWithin_of_settled reversed steps pace patience hnext]
          exact ⟨hstep.sound.outcome_sorted hnext, hstep.perm⟩
        | false =>
          have hless := hstep.rest_lt hnext
          obtain ⟨hsorted, hperm⟩ := ih pace patience hstep.sound (by omega) hnext
          exact ⟨hsorted, hperm.trans hstep.perm⟩
      unfold mergeWithin
      rw [if_neg (by rw [hsettled]; exact Bool.false_ne_true)]
      cases pace with
      | contest longStreak shortStreak =>
        dsimp only
        split
        · next hwins => exact go (hm.step_takeLong hsettled hwins) _ _
        · next hwins => exact go (hm.step_takeShort hsettled (Bool.eq_false_iff.mpr hwins)) _ _
      | gallop =>
        have hstep := hm.step_gallopBoth hsettled reversed
        dsimp only
        split
        · next hnext => exact ⟨hstep.sound.outcome_sorted hnext, hstep.perm⟩
        · split
          · exact go hstep _ _
          · exact go hstep _ _

/-- Two sorted parts, of which the first element of the long one comes first and the last element of
the short one comes last, merge into one that is sorted. -/
theorem mergeParts_sorted [IsStrictOrder α order] (reversed : Bool) (patience : Nat)
    {long short : List α} (hlong : long.Pairwise order) (hshort : short.Pairwise order)
    (hdecides : ∀ l ∈ long, ∀ s ∈ short, Decides wins order s l)
    (hfirst : ∀ l ∈ long.head?, ∀ s ∈ short, order l s)
    (hlast : ∀ s ∈ short.getLast?, ∀ l ∈ long, order l s) :
    (mergeParts reversed wins patience long short).1.Pairwise order ∧
      (mergeParts reversed wins patience long short).1.Perm (long ++ short) := by
  have hm : (Merging.mk [] long short).Sound order wins := ⟨hlong, hshort, hdecides, hlast⟩
  have hsound : ((Merging.mk [] long short).takeLong 1).Sound order wins := by
    refine hm.takeLong fun l hl s hs => hfirst l ?_ s hs
    cases long with
    | nil => cases hl
    | cons head tail => exact Option.mem_some.mpr (List.mem_singleton.mp hl).symm
  have hsteps : ((Merging.mk [] long short).takeLong 1).rest ≤ long.length + short.length := by
    rw [Merging.rest_takeLong]
    exact Nat.add_le_add_right (Nat.sub_le long.length 1) short.length
  have hmerged := mergeWithin_sorted reversed (long.length + short.length) (.contest 0 0) patience
    hsound hsteps
  rwa [Merging.outcome_takeLong] at hmerged

end

section

variable {less : α → α → Bool} {before : α → α → Prop} [IsStrictOrder α before]

/-- The elements of a sorted run that come before the head of another one come first. -/
theorem exists_early_front {first second : List α} (hfirst : first.Pairwise before)
    (hsecond : second.Pairwise before)
    (hdecides : ∀ x ∈ first, ∀ y ∈ second, Decides less before x y) :
    ∃ front left, first = front ++ left ∧
      gallop false (fun x => second.head?.all fun y => !less y x) first = front.length ∧
      (∀ x ∈ front, ∀ y ∈ second, before x y) ∧ ∀ x ∈ left, ∀ y ∈ second.head?, before y x := by
  cases second with
  | nil =>
    have hcount := @gallop_append _ (fun x => ([] : List α).head?.all fun y => !less y x) first []
      false (fun _ _ => rfl) (by simp)
    rw [List.append_nil] at hcount
    exact ⟨first, [], (List.append_nil _).symm, hcount, by simp, by simp⟩
  | cons y ys =>
    obtain ⟨front, left, rfl, hfront, hleft⟩ :=
      exists_cut_of_later hfirst fun x hx => hdecides x hx y List.mem_cons_self
    refine ⟨front, left, rfl, ?_, fun x hx => before_of_head (hfront x hx).2 hsecond, ?_⟩
    · exact gallop_append false (fun x hx => (hfront x hx).1) fun x hx => (hleft x hx).1
    · intro x hx z hz
      obtain rfl := Option.mem_some.mp hz
      exact (hleft x hx).2

/-- The elements of a sorted run that come after the last one of another run come last. -/
theorem exists_late_back {left second : List α} (hleft : left.Pairwise before)
    (hsecond : second.Pairwise before)
    (hdecides : ∀ x ∈ left, ∀ y ∈ second, Decides less before x y) :
    ∃ right back, second = right ++ back ∧
      gallop true (fun y => left.getLast?.all fun x => !less y x) second.reverse = back.length ∧
      (∀ y ∈ back, ∀ x ∈ left, before x y) ∧ ∀ y ∈ right, ∀ x ∈ left.getLast?, before y x := by
  induction left using List.reverseRecOn with
  | nil =>
    have hcount := @gallop_append _ (fun y => ([] : List α).getLast?.all fun x => !less y x)
      second.reverse [] true (fun _ _ => rfl) (by simp)
    rw [List.append_nil, List.length_reverse] at hcount
    exact ⟨[], second, rfl, hcount, by simp, by simp⟩
  | append_singleton xs x =>
    have hx : x ∈ xs ++ [x] := List.mem_append_right _ List.mem_cons_self
    obtain ⟨right, back, rfl, hright, hback⟩ := exists_cut_of_earlier hsecond (hdecides x hx)
    refine ⟨right, back, rfl, ?_, fun y hy z hz => ?_, fun y hy z hz => ?_⟩
    · rw [List.getLast?_concat, List.reverse_append, ← List.length_reverse]
      refine gallop_append true (fun y hy => ?_) fun y hy => ?_
      · change (!less y x) = true
        rw [(hback y (List.mem_reverse.mp hy)).1]
        rfl
      · change (!less y x) = false
        rw [(hright y (List.mem_reverse.mp hy)).1]
        rfl
    · obtain ⟨-, hxy⟩ := hback y hy
      rcases List.mem_append.mp hz with hz | hz
      · exact trans_of before ((List.pairwise_append.mp hleft).2.2 z hz x List.mem_cons_self) hxy
      · rw [List.mem_singleton.mp hz]
        exact hxy
    · rw [List.getLast?_concat] at hz
      obtain rfl := Option.mem_some.mp hz
      exact (hright y hy).2

/-- What lies between the parts of two runs that are in place merges into a sorted list, forward or
backward. -/
theorem mergeBetween_sorted (patience : Nat) {left right : List α} (hleft : left.Pairwise before)
    (hright : right.Pairwise before)
    (hdecides : ∀ x ∈ left, ∀ y ∈ right, Decides less before x y)
    (hhead : ∀ x ∈ left, ∀ y ∈ right.head?, before y x)
    (hend : ∀ y ∈ right, ∀ x ∈ left.getLast?, before y x) :
    let merged := if left.length ≤ right.length then mergeParts false less patience right left
      else
        ((mergeParts true (fun l s => less s l) patience left.reverse right.reverse).1.reverse,
          (mergeParts true (fun l s => less s l) patience left.reverse right.reverse).2)
    merged.1.Pairwise before ∧ merged.1.Perm (left ++ right) := by
  dsimp only
  split
  · obtain ⟨hsorted, hperm⟩ := mergeParts_sorted false patience hright hleft
      (fun l hl s hs => hdecides s hs l hl) (fun l hl s hs => hhead s hs l hl)
      fun s hs l hl => hend l hl s hs
    exact ⟨hsorted, hperm.trans List.perm_append_comm⟩
  · -- Backward, the order is turned round, and the first run is the long part.
    obtain ⟨hsorted, hperm⟩ := @mergeParts_sorted _ (Function.swap before) (fun l s => less s l) _
      true patience left.reverse right.reverse (List.pairwise_reverse.mpr hleft)
      (List.pairwise_reverse.mpr hright)
      (fun l hl s hs => hdecides l (List.mem_reverse.mp hl) s (List.mem_reverse.mp hs))
      (fun l hl s hs => hend s (List.mem_reverse.mp hs) l (by rwa [List.head?_reverse] at hl))
      fun s hs l hl => hhead l (List.mem_reverse.mp hl) s (by rwa [List.getLast?_reverse] at hs)
    refine ⟨List.pairwise_reverse.mpr hsorted, ?_⟩
    exact (List.reverse_perm _).trans
      (hperm.trans ((List.reverse_perm left).append (List.reverse_perm right)))

/-- Two sorted runs, of which the first holds the earlier elements, merge into one that is sorted. -/
theorem mergeRuns_sorted (patience : Nat) {first second : List α} (hfirst : first.Pairwise before)
    (hsecond : second.Pairwise before)
    (hdecides : ∀ x ∈ first, ∀ y ∈ second, Decides less before x y) :
    (mergeRuns less patience first second).1.Pairwise before ∧
      (mergeRuns less patience first second).1.Perm (first ++ second) := by
  obtain ⟨front, left, rfl, hfront, hfrontBefore, hhead⟩ :=
    exists_early_front hfirst hsecond hdecides
  obtain ⟨hfrontSorted, hleft, hfrontLeft⟩ := List.pairwise_append.mp hfirst
  have hdecides (x : α) (hx : x ∈ left) := hdecides x (List.mem_append_right _ hx)
  obtain ⟨right, back, rfl, hback, hbackAfter, hend⟩ := exists_late_back hleft hsecond hdecides
  obtain ⟨hright, hbackSorted, hrightBack⟩ := List.pairwise_append.mp hsecond
  have hkeep : (right ++ back).length - back.length = right.length := by
    rw [List.length_append]
    omega
  unfold mergeRuns
  simp only [hfront, List.drop_left, List.take_left, hback, hkeep]
  split
  · next hempty =>
    refine ⟨List.pairwise_append.mpr ⟨hfirst, hsecond, fun x hx y hy => ?_⟩, .refl _⟩
    rcases List.mem_append.mp hx with hx | hx
    · exact hfrontBefore x hx y hy
    · -- The first run has a part that is not in place, so the second one has none.
      rcases Bool.or_eq_true_iff.mp hempty with hnone | hnone
      · rw [List.isEmpty_iff.mp hnone] at hx
        cases hx
      · rw [List.isEmpty_iff.mp hnone, List.nil_append] at hy
        exact hbackAfter y hy x hx
  · have hrightHead : ∀ x ∈ left, ∀ y ∈ right.head?, before y x := by
      refine fun x hx y hy => hhead x hx y ?_
      rw [List.head?_append, Option.mem_def.mp hy, Option.some_or, Option.mem_some]
    have hdecides (x : α) (hx : x ∈ left) (y : α) (hy : y ∈ right) :=
      hdecides x hx y (List.mem_append_left _ hy)
    obtain ⟨hsorted, hperm⟩ :=
      mergeBetween_sorted patience hleft hright hdecides hrightHead hend
    constructor
    · refine List.pairwise_append.mpr ⟨List.pairwise_append.mpr ⟨hfrontSorted, hsorted, ?_⟩,
        hbackSorted, ?_⟩
      · intro x hx y hy
        rcases List.mem_append.mp (hperm.mem_iff.mp hy) with hy | hy
        · exact hfrontLeft x hx y hy
        · exact hfrontBefore x hx y (List.mem_append_left _ hy)
      · intro x hx y hy
        rcases List.mem_append.mp hx with hx | hx
        · exact hfrontBefore x hx y (List.mem_append_right _ hy)
        · rcases List.mem_append.mp (hperm.mem_iff.mp hx) with hx | hx
          · exact hbackAfter y hy x hx
          · exact hrightBack x hx y hy
    · have hall := (hperm.append_left front).append_right back
      simpa only [List.append_assoc] using hall

end

end RelStore.Sorting
