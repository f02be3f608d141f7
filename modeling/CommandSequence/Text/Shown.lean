import CommandSequence.Character.Digit
import CommandSequence.Character.Printable

/-!
# Strings shown in messages

A message shows a string between single quotes, or between double quotes when it holds a single
quote and no double one. The backslash, the quote in use, line ends, tabs and every character that
is not printable are escaped.
-/

namespace CommandSequence.Shown

open Character

/-- A character as it is shown between quotes of one kind. -/
def escape (quote c : Char) : List Char :=
  if c == quote || c == '\\' then ['\\', c]
  else if c == '\n' then ['\\', 'n']
  else if c == '\r' then ['\\', 'r']
  else if c == '\t' then ['\\', 't']
  else if isPrintable c then [c]
  else if c.toNat < 0x100 then '\\' :: 'x' :: hexDigits 2 c.toNat
  else if c.toNat < 0x10000 then '\\' :: 'u' :: hexDigits 4 c.toNat
  else '\\' :: 'U' :: hexDigits 8 c.toNat

/-- A string between the quotes that suit it. -/
def quote (text : List Char) : List Char :=
  let mark : Char := if text.contains '\'' && !text.contains '"' then '"' else '\''
  mark :: (text.flatMap (escape mark) ++ [mark])

/-- The quoted form of a string. -/
def string (s : String) : String :=
  String.ofList (quote s.toList)

end CommandSequence.Shown
