/-!
# Mappings in order of arrival

Rows, headers, counters and objects are lists of named entries whose order shows in every answer. A
name that is put again keeps its place and takes the new value; a new name goes to the end.
-/

namespace RelStore

/-- Named entries in the order in which the names first arrived. -/
abbrev Mapping (κ α : Type) := List (κ × α)

namespace Mapping

variable {κ α β : Type}

/-- The names in order of arrival. -/
def names (m : Mapping κ α) : List κ := m.map (·.1)

/-- The same names with other values. -/
def mapValues (f : α → β) (m : Mapping κ α) : Mapping κ β := m.map fun entry => (entry.1, f entry.2)

variable [DecidableEq κ]

/-- The entry under a name. -/
def get? (m : Mapping κ α) (name : κ) : Option α := m.lookup name

/-- Whether there is an entry under a name. -/
def has (m : Mapping κ α) (name : κ) : Bool := (m.get? name).isSome

/-- Enters a value under a name: in the name's place when it has one, else at the end. -/
def put (m : Mapping κ α) (name : κ) (value : α) : Mapping κ α :=
  match m with
  | [] => [(name, value)]
  | (n, v) :: rest => if n = name then (n, value) :: rest else (n, v) :: put rest name value

/-- Enters a list of named values, one after the other. -/
def putAll (m : Mapping κ α) (entries : List (κ × α)) : Mapping κ α :=
  entries.foldl (fun m entry => m.put entry.1 entry.2) m

/-- The mapping of a list of named values, in which a repeated name keeps its first place and its
last value. -/
def ofList (entries : List (κ × α)) : Mapping κ α := putAll [] entries

end Mapping

end RelStore
