import CommandSequence.Json.Value
import CommandSequence.Text.Quoted

/-!
# JSON text

A value is written on one line, with a blank after every comma and colon, or over several lines with
a fixed indentation for each level of nesting. Empty arrays and objects stay on one line either way.
-/

namespace CommandSequence.Json

/-- The indentation of each level, or none for a single line. -/
abbrev Indent := Option Nat

/-- The line break before an item at a level. -/
def Indent.break (indent : Indent) (level : Nat) : List Char :=
  match indent with
  | none => []
  | some width => '\n' :: List.replicate (width * level) (' ' : Char)

/-- What separates two items at a level. -/
def Indent.separator (indent : Indent) (level : Nat) : List Char :=
  match indent with
  | none => [',', ' ']
  | some _ => ',' :: indent.break level

/-- A floating-point number in JSON. -/
def writeFloat (x : Binary64) : List Char :=
  match x with
  | .infinite false => String.toList "Infinity"
  | .infinite true => String.toList "-Infinity"
  | .nan => String.toList "NaN"
  | x => x.write

/-- A number in JSON. -/
def writeNumber : Number → List Char
  | .int n => Decimal.ofInt n
  | .float x => writeFloat x

namespace Value

mutual

/-- The text of a value whose first line stands at a level. -/
def writeAt (indent : Indent) (level : Nat) : Value → List Char
  | .null => String.toList "null"
  | .boolean true => String.toList "true"
  | .boolean false => String.toList "false"
  | .number n => writeNumber n
  | .string s => Quoted.encode s.toList
  | .array [] => ['[', ']']
  | .array (item :: rest) =>
    ('[' : Char) :: (indent.break (level + 1) ++ item.writeAt indent (level + 1)
      ++ writeItems indent (level + 1) rest ++ indent.break level ++ [(']' : Char)])
  | .object [] => ['{', '}']
  | .object ((key, value) :: rest) =>
    ('{' : Char) ::
      (indent.break (level + 1) ++ Quoted.encode key.toList ++ (':' : Char) :: (' ' : Char) ::
        value.writeAt indent (level + 1) ++ writeMembers indent (level + 1) rest ++
        indent.break level ++ [('}' : Char)])

/-- The items after the first, each after a separator. -/
def writeItems (indent : Indent) (level : Nat) : List Value → List Char
  | [] => []
  | item :: rest =>
    indent.separator level ++ item.writeAt indent level ++ writeItems indent level rest

/-- The members after the first, each after a separator. -/
def writeMembers (indent : Indent) (level : Nat) : List (String × Value) → List Char
  | [] => []
  | (key, value) :: rest =>
    indent.separator level ++ Quoted.encode key.toList ++ (':' : Char) :: (' ' : Char) ::
      value.writeAt indent level ++ writeMembers indent level rest

end

/-- The text of a value. -/
def write (indent : Indent) (value : Value) : List Char :=
  value.writeAt indent 0

end Value

end CommandSequence.Json
