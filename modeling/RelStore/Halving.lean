/-!
# Search by halving

Places in an ordered list are found by halving: the middle element decides in which half to go on.
-/

namespace RelStore

variable {α : Type}

/-- Search by halving in at most `steps` steps. -/
def partitionPointWithin (early : α → Bool) : Nat → List α → Nat
  | 0, _ => 0
  | steps + 1, xs =>
    match xs.drop (xs.length / 2) with
    | [] => 0
    | middle :: right =>
      if early middle then xs.length / 2 + 1 + partitionPointWithin early steps right
      else partitionPointWithin early steps (xs.take (xs.length / 2))

/-- How many elements at the start of a list are early, when the early ones come before the others.
In any list it is a place that halving ends at. -/
def partitionPoint (early : α → Bool) (xs : List α) : Nat :=
  partitionPointWithin early xs.length xs

/-- Search by halving in at most `steps` steps, where it may fail to tell if an element is early. -/
def partitionPointWithinM {ε : Type} (early : α → Except ε Bool) : Nat → List α → Except ε Nat
  | 0, _ => return 0
  | steps + 1, xs =>
    match xs.drop (xs.length / 2) with
    | [] => return 0
    | middle :: right => do
      if ← early middle then
        return xs.length / 2 + 1 + (← partitionPointWithinM early steps right)
      else partitionPointWithinM early steps (xs.take (xs.length / 2))

/-- How many elements at the start of a list are early, unless it cannot be told of an element that
halving looks at. -/
def partitionPointM {ε : Type} (early : α → Except ε Bool) (xs : List α) : Except ε Nat :=
  partitionPointWithinM early xs.length xs

end RelStore
