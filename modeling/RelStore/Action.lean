import RelStore.Error

/-!
# Actions

An action changes a state step by step and may fail on the way. What it has changed until then stays
changed: the state that a failed action leaves is the one that it has come to. That it is the one at
the start has to be proved of every action anew.
-/

namespace RelStore

/-- A computation on a state that ends in a result or in an error, and leaves a state either way. -/
abbrev Action (σ α : Type) := ExceptT Error (StateM σ) α

namespace Action

variable {σ τ α : Type}

/-- The action that a function from the state to the outcome and the state after it describes. -/
def of (f : σ → Except Error α × σ) : Action σ α := ExceptT.mk (f : StateM σ (Except Error α))

/-- What an action ends in that begins with a state, and the state that it leaves. -/
def on (act : Action σ α) (s : σ) : Except Error α × σ := (ExceptT.run act).run s

/-- Carries out an action on a part of the state. -/
def within (part : σ → τ) (put : τ → σ → σ) (act : Action τ α) : Action σ α := .of fun s =>
  let (outcome, changed) := act.on (part s)
  (outcome, put changed s)

/-- What an action ends in that is carried out on the items of a list, one after the other, and the
items that it leaves. Those behind one on which it fails stay as they are. -/
def onAll (act : Action σ Unit) : List σ → Except Error Unit × List σ
  | [] => (.ok (), [])
  | item :: rest =>
    match act.on item with
    | (.ok _, item) =>
      let (outcome, rest) := act.onAll rest
      (outcome, item :: rest)
    | (.error error, item) => (.error error, item :: rest)

/-- Carries out an action on the items of a list, one after the other. -/
def each (act : Action σ Unit) : Action (List σ) Unit := .of act.onAll

end Action

end RelStore
