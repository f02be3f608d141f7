import CommandSequence.Json.Value
import CommandSequence.Text.Shown

/-!
# JSON values in messages

A message shows a value on one line, with `None`, `True` and `False` for null and the truth values,
and strings in single quotes.
-/

namespace CommandSequence.Json.Value

/-- A truth value. -/
def shownBoolean : Bool → List Char
  | true => String.toList "True"
  | false => String.toList "False"

mutual

/-- A value as a message shows it. -/
def shown : Value → List Char
  | .null => String.toList "None"
  | .boolean b => shownBoolean b
  | .number n => n.shown
  | .string s => Shown.quote s.toList
  | .array items => ('[' : Char) :: (shownItems items ++ [(']' : Char)])
  | .object members => ('{' : Char) :: (shownMembers members ++ [('}' : Char)])

/-- The items of an array, with commas between them. -/
def shownItems : List Value → List Char
  | [] => []
  | [item] => item.shown
  | item :: rest => item.shown ++ (',' : Char) :: (' ' : Char) :: shownItems rest

/-- The members of an object, with commas between them. -/
def shownMembers : List (String × Value) → List Char
  | [] => []
  | [(key, value)] => Shown.quote key.toList ++ (':' : Char) :: (' ' : Char) :: value.shown
  | (key, value) :: rest =>
    Shown.quote key.toList ++ (':' : Char) :: (' ' : Char) :: value.shown ++ (',' : Char) ::
      (' ' : Char) :: shownMembers rest

end

mutual

/-- Whether a message can show a value: its integers must be short enough to be written. -/
def showable : Value → Bool
  | .number (.int n) => Decimal.writable n
  | .array items => showableItems items
  | .object members => showableMembers members
  | _ => true

@[inherit_doc showable]
def showableItems : List Value → Bool
  | [] => true
  | item :: rest => item.showable && showableItems rest

@[inherit_doc showable]
def showableMembers : List (String × Value) → Bool
  | [] => true
  | (_, value) :: rest => value.showable && showableMembers rest

end

/-- A value as a message shows it in running text: a string stands without quotes. -/
def shownBare : Value → List Char
  | .string s => s.toList
  | value => value.shown

end CommandSequence.Json.Value
