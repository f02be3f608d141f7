import CommandSequence.Character.Blank
import CommandSequence.Issue
import CommandSequence.Number.Decimal

/-!
# Integers and booleans given as text

Where a text stands for an integer, blanks around it, a plus sign, leading zeros, a fraction of
zeros and single underscores between digits are overlooked. Zeros may also stand before the minus
sign of a negative integer. A boolean is one of twelve words.
-/

namespace CommandSequence.LenientText

open Character

/-- A minus sign at the front of a text, and what is left after it. -/
def cutMinus : List Char → List Char × List Char
  | '-' :: rest => (['-'], rest)
  | text => ([], text)

/-- Whether a text begins with an integer in canonical spelling that is too long to be read. The
sign counts, and what follows the digits does not matter. -/
def beginsOversized (text : List Char) : Bool :=
  let (sign, magnitude) := cutMinus text
  let digits := magnitude.takeWhile isAsciiDigit
  digits.head? != some ('0' : Char) && sign.length + digits.length > Decimal.digitLimit

/-- An integer in its canonical spelling, if it is short enough: a minus sign or none, and digits
without leading zeros. -/
def canonicalInt? (text : List Char) : Option Int :=
  let (sign, digits) := cutMinus text
  if digits == [('0' : Char)] then some 0
  else if digits.isEmpty || digits.head? == some ('0' : Char) || !digits.all isAsciiDigit
    || beginsOversized text then none
  else some (if sign.isEmpty then Decimal.value digits else -(Decimal.value digits : Int))

/-- The text without leading zeros, of which one stays before a point or at the end. Underscores may
stand between the zeros, and a minus sign after them. The text must begin with a digit or a minus
sign. -/
def stripZeros? : List Char → Option (List Char)
  | '0' :: rest =>
    let zeros := rest.takeWhile fun c : Char => c == '0' || c == '_'
    match rest.dropWhile fun c : Char => c == '0' || c == '_' with
    | [] => some [zeros.getLast?.getD '0']
    | '.' :: more => some ((zeros.getLast?.getD '0') :: '.' :: more)
    | c :: more => if c == '-' || ('1' ≤ c && c ≤ '9') then some (c :: more) else none
  | c :: rest => if c == '-' || ('1' ≤ c && c ≤ '9') then some (c :: rest) else none
  | [] => none

/-- The text without a fraction of zeros, of which there is at least one. -/
def stripFraction (text : List Char) : List Char :=
  match text.dropWhile fun c : Char => c != '.' with
  | _ :: '0' :: zeros => if zeros.all (· == '0') then text.takeWhile (· != '.') else text
  | _ => text

/-- Whether two underscores stand side by side. -/
def doubled : List Char → Bool
  | '_' :: '_' :: _ => true
  | _ :: rest => doubled rest
  | [] => false

/-- The text without single underscores inside it. -/
def stripUnderscores (text : List Char) : List Char :=
  if text.head? == some ('_' : Char) || text.getLast? == some ('_' : Char) || doubled text then text
  else text.filter (· != '_')

/-- The text without a plus sign, which no minus sign may follow. -/
def stripPlus? : List Char → Option (List Char)
  | '+' :: '-' :: _ => none
  | '+' :: rest => some rest
  | text => some text

/-- The text with all removed that is overlooked in an integer. A minus sign stays in front of what
is left. -/
def clean? (text : List Char) : Option (List Char) := do
  let (sign, magnitude) := cutMinus (← stripPlus? (trimBoth isWhiteSpace text))
  return sign ++ stripUnderscores (stripFraction (← stripZeros? magnitude))

/-- The integer that a text stands for. Only a text that is too long as it stands is reported as
such; one that is too long once it is cleaned is unreadable. -/
def readInt (text : List Char) : Except IssueCause Int :=
  if beginsOversized text then .error .oversizedInteger
  else match canonicalInt? text <|> (clean? text).bind canonicalInt? with
    | some n => .ok n
    | none => .error .unreadableInteger

/-- The words for true and false. -/
def trueWords : List String := ["1", "on", "t", "true", "y", "yes"]

@[inherit_doc trueWords]
def falseWords : List String := ["0", "off", "f", "false", "n", "no"]

/-- The boolean that a text stands for, in either case. -/
def readBool (text : List Char) : Except IssueCause Bool :=
  let word := String.ofList (text.map Char.toLower)
  if trueWords.contains word then .ok true
  else if falseWords.contains word then .ok false
  else .error .unreadableBoolean

end CommandSequence.LenientText
