import CommandSequence.Character.Basic

/-!
# Lines

Three views of line ends: the count of the lines of a text, where any of the Unicode line boundaries
ends a line; universal line ends, where a carriage return, alone or before a line feed, is read as a
line feed; and the closing line feed that every text must have.
-/

namespace CommandSequence.Lines

/-- Whether the character ends a line. -/
def isBoundary (c : Char) : Bool :=
  let n := c.toNat
  (0x0A ≤ n && n ≤ 0x0D) || (0x1C ≤ n && n ≤ 0x1E) || n == 0x85 || n == 0x2028 || n == 0x2029

/-- The count of lines that a text holds, `inside` telling whether a line has begun. -/
def countFrom (inside : Bool) : List Char → Nat
  | [] => if inside then 1 else 0
  | '\r' :: '\n' :: rest => countFrom false rest + 1
  | c :: rest => if isBoundary c then countFrom false rest + 1 else countFrom true rest

/-- The count of lines of a text. -/
def count (text : List Char) : Nat :=
  countFrom false text

/-- The text with every carriage return, alone or before a line feed, read as a line feed. -/
def universal : List Char → List Char
  | [] => []
  | '\r' :: '\n' :: rest => '\n' :: universal rest
  | c :: rest => (if c == '\r' then '\n' else c) :: universal rest

/-- The text with a line feed at its end. -/
def terminate (text : List Char) : List Char :=
  if text.getLast? == some ('\n' : Char) then text else text ++ [('\n' : Char)]

end CommandSequence.Lines
