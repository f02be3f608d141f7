import CommandSequence.Character.Basic

/-!
# Dictionaries

A dictionary keeps its entries in the order in which their keys were first written. Writing a key
again replaces its value where it stands.
-/

namespace CommandSequence

/-- Entries in the order in which their keys were first written. -/
abbrev Dictionary (α : Type) := List (String × α)

namespace Dictionary

variable {α : Type}

/-- The dictionary after writing a key. -/
def put (key : String) (value : α) : Dictionary α → Dictionary α
  | [] => [(key, value)]
  | (k, v) :: rest => if k = key then (k, value) :: rest else (k, v) :: put key value rest

/-- The dictionary after writing every entry in turn. -/
def ofList (entries : List (String × α)) : Dictionary α :=
  entries.foldl (fun d (key, value) => d.put key value) []

/-- The value of a key. -/
def get? (key : String) (d : Dictionary α) : Option α :=
  d.lookup key

end Dictionary

end CommandSequence
