import RelStore.Halving

/-!
# Runs of a list

A list is cut into runs that are each in order. A run is the longest stretch at the start of the
list that is in order, or strictly in reverse order and then turned round. A run shorter than the
least length is filled up: the elements after it are put in one by one, each found its place by
halving and after the elements that it ties with.
-/

namespace RelStore.Sorting

variable {α : Type}

/-- How many elements after `first` go on, each standing to the one before it as `step` says. -/
def runLength (step : α → α → Bool) (first : α) : List α → Nat
  | [] => 0
  | second :: rest => if step first second then runLength step second rest + 1 else 0

/-- The run at the start of a list, brought into order, and the elements after it. -/
def initialRun (less : α → α → Bool) : List α → List α × List α
  | [] => ([], [])
  | [x] => ([x], [])
  | x :: y :: rest =>
    let descending := less y x
    let step (a b : α) : Bool := less b a == descending
    let length := runLength step x (y :: rest) + 1
    let run := (x :: y :: rest).take length
    (if descending then run.reverse else run, (x :: y :: rest).drop length)

/-- A sorted list with an element put in after those that it does not precede. -/
def insertSorted (less : α → α → Bool) (sorted : List α) (x : α) : List α :=
  let place := partitionPoint (fun y => !less x y) sorted
  sorted.take place ++ x :: sorted.drop place

/-- The run at the start of a list, filled up to a least length, and the elements after it. -/
def filledRun (less : α → α → Bool) (least : Nat) (xs : List α) : List α × List α :=
  let (run, rest) := initialRun less xs
  let lacking := least - run.length
  ((rest.take lacking).foldl (insertSorted less) run, rest.drop lacking)

/-- The runs of a list, of which all but the last have a least length. Every run takes at least one
element, so as many steps as there are elements suffice. -/
def runsWithin (less : α → α → Bool) (least : Nat) : Nat → List α → List (List α)
  | 0, _ | _, [] => []
  | steps + 1, x :: xs =>
    let (run, rest) := filledRun less least (x :: xs)
    run :: runsWithin less least steps rest

/-- The least length of the runs of a list of `n` elements: all of them below 64, and otherwise the
part of them, rounded up, that halving brings below 64. -/
def leastRunLength (n : Nat) : Nat :=
  let parts := Nat.shiftLeft 1 (n.log2 - 5)
  (n + parts - 1) / parts

/-- The runs of a list. -/
def runs (less : α → α → Bool) (xs : List α) : List (List α) :=
  runsWithin less (leastRunLength xs.length) xs.length xs

end RelStore.Sorting
