import RelStore.Halving

/-!
# Merging two runs

Two runs are merged by comparing their heads. When one of them has won often enough in a row, as
often as the merge has patience for, the merge gallops: it looks, in widening strides and then by
halving, how far the one run goes before the head of the other. The patience rises when galloping
does not pay and falls while it does; it lasts from one merge to the next.

What is in place already at the two ends takes no part. The shorter of the other two parts is called
`short` and the other one `long`; the merge goes forward when the first run is the short one, and
backward from the ends of the runs otherwise.
-/

namespace RelStore.Sorting

variable {α : Type}

/-- Widening strides through a list while its elements are early: the place of the last one found
early, and the next place, which is not, or is past the end. -/
def stride (early : α → Bool) (xs : List α) : Nat → Nat → Nat → Nat × Nat
  | 0, last, next => (last, next)
  | steps + 1, last, next =>
    match xs[next]? with
    | some x => if early x then stride early xs steps next (2 * next + 1) else (last, next)
    | none => (last, xs.length)

/-- How many elements at the start of a list are early, when the early ones come before the others.
A list that stands in reverse order is halved from its end. -/
def gallop (reversed : Bool) (early : α → Bool) (xs : List α) : Nat :=
  if xs.head?.any early then
    let (last, next) := stride early xs xs.length 0 1
    let between := (xs.take next).drop (last + 1)
    let more :=
      if reversed then between.length - partitionPoint (!early ·) between.reverse
      else partitionPoint early between
    last + 1 + more
  else 0

/-- A merge under way. -/
structure Merging (α : Type) where
  /-- What has been merged. -/
  merged : List α
  /-- What is left of the long part. -/
  long : List α
  /-- What is left of the short part. -/
  short : List α

namespace Merging

/-- Whether nothing is left to compare. The last element of the short part goes to the end. -/
def isSettled (m : Merging α) : Bool := m.long.isEmpty || m.short.length ≤ 1

/-- The outcome of a merge that is settled. -/
def outcome (m : Merging α) : List α := m.merged ++ m.long ++ m.short

/-- Merges the first elements of the long part. -/
def takeLong (count : Nat) (m : Merging α) : Merging α :=
  ⟨m.merged ++ m.long.take count, m.long.drop count, m.short⟩

/-- Merges the first elements of the short part. -/
def takeShort (count : Nat) (m : Merging α) : Merging α :=
  ⟨m.merged ++ m.short.take count, m.long, m.short.drop count⟩

/-- Whether the head of the long part wins, that is, goes before the head of the short one. -/
def longWins (wins : α → α → Bool) (m : Merging α) : Bool :=
  match m.long, m.short with
  | l :: _, s :: _ => wins l s
  | _, _ => false

/-- Gallops through the short part up to the head of the long one, and merges this head too. Also
tells how far it went. -/
def gallopShort (reversed : Bool) (wins : α → α → Bool) (m : Merging α) : Merging α × Nat :=
  let count := gallop reversed (fun s => m.long.head?.all fun l => !wins l s) m.short
  let passed := m.takeShort count
  (if passed.isSettled then passed else passed.takeLong 1, count)

/-- Gallops through the long part up to the head of the short one, and merges this head too. Also
tells how far it went. -/
def gallopLong (reversed : Bool) (wins : α → α → Bool) (m : Merging α) : Merging α × Nat :=
  let count := gallop reversed (fun l => m.short.head?.all fun s => wins l s) m.long
  let passed := m.takeLong count
  (if passed.isSettled then passed else passed.takeShort 1, count)

/-- Gallops through both parts, first through the one of the first run. Also tells how far it went
at most. -/
def gallopBoth (reversed : Bool) (wins : α → α → Bool) (m : Merging α) : Merging α × Nat :=
  let first := if reversed then gallopLong reversed wins else gallopShort reversed wins
  let second := if reversed then gallopShort reversed wins else gallopLong reversed wins
  let (halfway, before) := first m
  if halfway.isSettled then (halfway, before)
  else
    let (passed, after) := second halfway
    (passed, max before after)

end Merging

/-- How a merge goes on. -/
inductive Pace where
  /-- By comparing heads; how often the long and the short part have just won in a row. -/
  | contest (longStreak shortStreak : Nat)
  /-- By galloping. -/
  | gallop

/-- How far a gallop has to go to pay. -/
def gallopLimit : Nat := 7

/-- Goes on with a merge. Gives the merged list and the patience after it. Every step merges an
element, so as many steps as there are elements left suffice. -/
def mergeWithin (reversed : Bool) (wins : α → α → Bool) :
    Nat → Pace → Nat → Merging α → List α × Nat
  | 0, _, patience, m => (m.outcome, patience)
  | steps + 1, pace, patience, m =>
    if m.isSettled then (m.outcome, patience)
    else
      match pace with
      | .contest longStreak shortStreak =>
        if m.longWins wins then
          let pace := if patience ≤ longStreak + 1 then .gallop else .contest (longStreak + 1) 0
          mergeWithin reversed wins steps pace patience (m.takeLong 1)
        else
          let pace := if patience ≤ shortStreak + 1 then .gallop else .contest 0 (shortStreak + 1)
          mergeWithin reversed wins steps pace patience (m.takeShort 1)
      | .gallop =>
        let (m, passed) := m.gallopBoth reversed wins
        if m.isSettled then (m.outcome, patience)
        else if gallopLimit ≤ passed then
          mergeWithin reversed wins steps .gallop (max 1 (patience - 1)) m
        else mergeWithin reversed wins steps (.contest 0 0) (patience + 1) m

/-- Merges two parts, of which the long one is known to come first. -/
def mergeParts (reversed : Bool) (wins : α → α → Bool) (patience : Nat) (long short : List α) :
    List α × Nat :=
  mergeWithin reversed wins (long.length + short.length) (.contest 0 0) patience
    ((Merging.mk [] long short).takeLong 1)

/-- Merges two runs, the elements of the first one before those of the second one that they tie
with. Gives the merged run and the patience after it. -/
def mergeRuns (less : α → α → Bool) (patience : Nat) (first second : List α) : List α × Nat :=
  let early := gallop false (fun x => second.head?.all fun y => !less y x) first
  let left := first.drop early
  let late := gallop true (fun y => left.getLast?.all fun x => !less y x) second.reverse
  let right := second.take (second.length - late)
  if left.isEmpty || right.isEmpty then (first ++ second, patience)
  else
    let (merged, patience) :=
      if left.length ≤ right.length then mergeParts false less patience right left
      else
        let (merged, patience) :=
          mergeParts true (fun l s => less s l) patience left.reverse right.reverse
        (merged.reverse, patience)
    (first.take early ++ merged ++ second.drop (second.length - late), patience)

end RelStore.Sorting
