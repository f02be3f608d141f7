import CommandSequence.Character.Digit

/-!
# Quoted strings

A string is quoted with double quotes. Inside, the quote, the backslash and the control characters
are escaped; every other character stands for itself. Reading also accepts the escapes `\/` and
`\uhhhh`, the latter in pairs for characters beyond the basic plane. A code that is half of such a
pair and stands without the other half gives a character as well.
-/

namespace CommandSequence.Quoted

open Character

/-- The letter of the escape sequence that stands for a character, if it has one. -/
def escapeLetter? (c : Char) : Option Char :=
  if c == '"' then some '"'
  else if c == '\\' then some '\\'
  else if c == '\n' then some 'n'
  else if c == '\r' then some 'r'
  else if c == '\t' then some 't'
  else if c == '\x08' then some 'b'
  else if c == '\x0c' then some 'f'
  else none

/-- A character as it is written between quotes. -/
def escape (c : Char) : List Char :=
  match escapeLetter? c with
  | some letter => ['\\', letter]
  | none => if c.toNat < 0x20 then '\\' :: 'u' :: hexDigits 4 c.toNat else [c]

/-- A string between quotes. -/
def encode (text : List Char) : List Char :=
  ('"' : Char) :: (text.flatMap escape ++ [('"' : Char)])

/-- The character that an escape letter stands for. -/
def ofLetter? (letter : Char) : Option Char :=
  if letter == '"' then some '"'
  else if letter == '\\' then some '\\'
  else if letter == '/' then some '/'
  else if letter == 'n' then some '\n'
  else if letter == 'r' then some '\r'
  else if letter == 't' then some '\t'
  else if letter == 'b' then some '\x08'
  else if letter == 'f' then some '\x0c'
  else none

/-- The number that four hexadecimal digits spell. -/
def unit? (a b c d : Char) : Option Nat := do
  return (← hexValue? a) * 4096 + (← hexValue? b) * 256 + (← hexValue? c) * 16 + (← hexValue? d)

/-- Whether a code unit is the first, or the second, of a surrogate pair. -/
def isLeading (unit : Nat) : Bool := 0xD800 ≤ unit && unit < 0xDC00

@[inherit_doc isLeading]
def isTrailing (unit : Nat) : Bool := 0xDC00 ≤ unit && unit < 0xE000

/-- The character of a surrogate pair. -/
def ofPair (leading trailing : Nat) : Char :=
  Char.ofNat (0x10000 + (leading - 0xD800) * 0x400 + (trailing - 0xDC00))

/-- The characters of a code unit after the first half of a pair, if one is open: the two halves are
one character, and any other code units are characters of their own. -/
def resolve (leading : Option Nat) (unit : Nat) : List Char :=
  match leading with
  | none => [Char.ofNat unit]
  | some first =>
    if isTrailing unit then [ofPair first unit] else [Char.ofNat first, Char.ofNat unit]

/-- The first half of a pair, if one is open, as a character of its own. -/
def alone (leading : Option Nat) : List Char :=
  (leading.map Char.ofNat).toList

/-- Characters in front of those that have been decoded. -/
def prepend (front : List Char) : Option (List Char × List Char) → Option (List Char × List Char) :=
  Option.map fun (s, left) => (front ++ s, left)

/-- The string up to the closing quote, and what is left after it. The opening quote has been read,
and `leading` is the first half of a surrogate pair if the escape just read is one. Control
characters are refused unless `controls` admits them. -/
def decodeTail? (controls : Bool) (leading : Option Nat) :
    List Char → Option (List Char × List Char)
  | [] => none
  | '\\' :: 'u' :: a :: b :: c :: d :: rest =>
    match unit? a b c d with
    | none => none
    | some unit =>
      if isLeading unit then prepend (alone leading) (decodeTail? controls (some unit) rest)
      else prepend (resolve leading unit) (decodeTail? controls none rest)
  | '\\' :: letter :: rest =>
    match ofLetter? letter with
    | none => none
    | some c => prepend (alone leading ++ [c]) (decodeTail? controls none rest)
  | c :: rest =>
    if c == '"' then some (alone leading, rest)
    else if c == '\\' || (!controls && c.toNat < 0x20) then none
    else prepend (alone leading ++ [c]) (decodeTail? controls none rest)

/-- The string that a whole quoted text stands for, control characters admitted. -/
def decode? : List Char → Option (List Char)
  | '"' :: rest =>
    match decodeTail? true none rest with
    | some (text, []) => some text
    | _ => none
  | _ => none

end CommandSequence.Quoted
