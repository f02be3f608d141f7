import CommandSequence.Dictionary
import CommandSequence.Number.Basic

/-!
# JSON values

The values of JSON, with integers and floating-point numbers kept apart and the members of an object
in the order in which their keys were first written. Besides the finite numbers, the infinities and
NaN are values.
-/

namespace CommandSequence.Json

/-- A JSON value. -/
inductive Value where
  | null
  | boolean (b : Bool)
  | number (n : Number)
  | string (s : String)
  | array (items : List Value)
  | object (members : List (String × Value))

namespace Value

instance : Inhabited Value := ⟨.null⟩

/-- Whether the value counts as true: null, false, zero and whatever is empty do not. -/
def truthy : Value → Bool
  | .null => false
  | .boolean b => b
  | .number n => !n.isZero
  | .string s => !s.isEmpty
  | .array items => !items.isEmpty
  | .object members => !members.isEmpty

mutual

/-- The numbers in the value that are not finite, in order. -/
def nonFinite : Value → List Binary64
  | .number (.float x) => if x.isFinite then [] else [x]
  | .array items => nonFiniteItems items
  | .object members => nonFiniteMembers members
  | _ => []

@[inherit_doc nonFinite]
def nonFiniteItems : List Value → List Binary64
  | [] => []
  | item :: rest => item.nonFinite ++ nonFiniteItems rest

@[inherit_doc nonFinite]
def nonFiniteMembers : List (String × Value) → List Binary64
  | [] => []
  | (_, value) :: rest => value.nonFinite ++ nonFiniteMembers rest

end

mutual

/-- The numbers in the value that cannot be written, in order. -/
def unwritable : Value → List Number
  | .number n => if n.isWritable then [] else [n]
  | .array items => unwritableItems items
  | .object members => unwritableMembers members
  | _ => []

@[inherit_doc unwritable]
def unwritableItems : List Value → List Number
  | [] => []
  | item :: rest => item.unwritable ++ unwritableItems rest

@[inherit_doc unwritable]
def unwritableMembers : List (String × Value) → List Number
  | [] => []
  | (_, value) :: rest => value.unwritable ++ unwritableMembers rest

end

mutual

/-- The value with every number that is not finite replaced by null. -/
def nullNonFinite : Value → Value
  | .number (.float x) => if x.isFinite then .number (.float x) else .null
  | .array items => .array (nullNonFiniteItems items)
  | .object members => .object (nullNonFiniteMembers members)
  | value => value

@[inherit_doc nullNonFinite]
def nullNonFiniteItems : List Value → List Value
  | [] => []
  | item :: rest => item.nullNonFinite :: nullNonFiniteItems rest

@[inherit_doc nullNonFinite]
def nullNonFiniteMembers : List (String × Value) → List (String × Value)
  | [] => []
  | (key, value) :: rest => (key, value.nullNonFinite) :: nullNonFiniteMembers rest

end

end Value

end CommandSequence.Json
