import RelStore.Sorting.Merge
import RelStore.Sorting.Run

/-!
# Stable sorting

`stableSort` cuts a list into runs and merges neighbouring runs. Elements that tie keep their order.

Which runs are merged first is told by the powers of the boundaries between them. The power of a
boundary says how often the list has to be halved until a cut comes to lie between the middles of
the two runs. A new run merges those before it whose boundaries have greater powers than its own.
-/

namespace RelStore.Sorting

variable {α : Type}

/-- How many halvings of a list of `n` elements it takes to tell `a / n` from `b / n`. -/
def halvings (n : Nat) : Nat → Nat → Nat → Nat
  | 0, _, _ => 0
  | steps + 1, a, b => if a / n = b / n then halvings n steps (2 * a) (2 * b) + 1 else 1

/-- The power of the boundary between two runs of a list of `n` elements, where the first run has
`length` elements and `start` ones before it, and the second run has `next` elements. -/
def boundaryPower (n start length next : Nat) : Nat :=
  let middle := 2 * start + length
  halvings n (n.log2 + 2) middle (middle + length + next)

/-- Runs that wait to be merged. -/
structure Pending (α : Type) where
  /-- The runs before the last one, the latest first, each with the power of the boundary after
  it. -/
  below : List (List α × Nat)
  /-- The last run. -/
  top : List α
  /-- How many elements stand before the last run. -/
  start : Nat
  /-- The patience of the merges to come. -/
  patience : Nat

namespace Pending

/-- Merges the last run with those before it whose boundaries have greater powers than `power`. -/
def collapse (less : α → α → Bool) (power : Nat) :
    List (List α × Nat) → List α → Nat → List (List α × Nat) × List α × Nat
  | [], top, patience => ([], top, patience)
  | (run, boundary) :: below, top, patience =>
    if power < boundary then
      let (merged, patience) := mergeRuns less patience run top
      collapse less power below merged patience
    else ((run, boundary) :: below, top, patience)

/-- Adds a run after the last one, in a list of `n` elements. -/
def push (less : α → α → Bool) (n : Nat) (pending : Pending α) (run : List α) : Pending α :=
  let length := pending.top.length
  let power := boundaryPower n pending.start length run.length
  let (below, top, patience) := collapse less power pending.below pending.top pending.patience
  ⟨(top, power) :: below, run, pending.start + length, patience⟩

/-- Merges all runs. Each merge leaves one run less, so as many steps as there are runs before the
last one suffice. -/
def mergeAll (less : α → α → Bool) : Nat → List (List α × Nat) → List α → Nat → List α
  | steps + 1, (run, power) :: (earlier, boundary) :: below, top, patience =>
    if earlier.length < top.length then
      let (merged, patience) := mergeRuns less patience earlier run
      mergeAll less steps ((merged, power) :: below) top patience
    else
      let (merged, patience) := mergeRuns less patience run top
      mergeAll less steps ((earlier, boundary) :: below) merged patience
  | _, [(run, _)], top, patience => (mergeRuns less patience run top).1
  | _, _, top, _ => top

end Pending

/-- A list sorted so that ties keep their order. -/
def stableSort (less : α → α → Bool) (xs : List α) : List α :=
  match runs less xs with
  | [] => []
  | first :: rest =>
    let pending := rest.foldl (Pending.push less xs.length) ⟨[], first, 0, gallopLimit⟩
    Pending.mergeAll less pending.below.length pending.below pending.top pending.patience

end RelStore.Sorting
