import CommandSequence.Json.Value
import CommandSequence.Text.Quoted

/-!
# Reading JSON text

A text is one value between blanks. Besides the standard's values, `NaN`, `Infinity` and `-Infinity`
are read as numbers. A later member of an object replaces an earlier one of the same key where it
stands. What a reader demands beyond that, of control characters and of sizes, is up to it.
-/

namespace CommandSequence.Json

open Character

/-- Why a text is not read as JSON. -/
inductive ReadError where
  /-- The text is not that of a value. -/
  | malformed
  /-- A number has too many digits. -/
  | numberTooLong
  /-- Too many arrays and objects are inside one another. -/
  | tooDeep
deriving DecidableEq, Repr

/-- What a reader demands of a text. -/
structure Demands where
  /-- whether control characters may stand in strings -/
  controls : Bool
  /-- whether strings may hold half of a surrogate pair -/
  halves : Bool
  /-- whether the sign and whole part of every number are to be as short as the digits of an
  integer -/
  shortNumbers : Bool
  /-- how many arrays and objects may be inside one another, those with nothing in them apart -/
  depth : Nat
deriving DecidableEq, Repr

namespace Demands

/-- What is demanded of a single token: little more than that it can be read. -/
def token : Demands := ⟨true, true, false, 990⟩

/-- What is demanded of the text of a document. -/
def document : Demands := ⟨false, false, true, 200⟩

/-- What is demanded inside an array or object. -/
def inside (d : Demands) : Except ReadError Demands :=
  match d.depth with
  | 0 => .error .tooDeep
  | depth + 1 => .ok { d with depth }

end Demands

/-- Whether the character separates tokens. -/
def isSpace (c : Char) : Bool :=
  c == ' ' || c == '\t' || c == '\n' || c == '\r'

/-- The text after the blanks at its front. -/
def skipSpace (text : List Char) : List Char :=
  text.dropWhile isSpace

/-- The text after a word at its front. -/
def afterWord? (word text : List Char) : Option (List Char) :=
  if word.isPrefixOf text then some (text.drop word.length) else none

/-- The fraction at the front of a text, with its point, and what is left. -/
def cutFraction : List Char → List Char × List Char
  | '.' :: rest =>
    let digits := rest.takeWhile isAsciiDigit
    if digits.isEmpty then ([], '.' :: rest) else ('.' :: digits, rest.dropWhile isAsciiDigit)
  | rest => ([], rest)

/-- The exponent at the front of a text, with its mark, and what is left. -/
def cutExponent (text : List Char) : List Char × List Char :=
  match text with
  | mark :: rest =>
    if mark == 'e' || mark == 'E' then
      let (sign, digits) : List Char × List Char := match rest with
        | '+' :: more => (['+'], more)
        | '-' :: more => (['-'], more)
        | more => ([], more)
      let run := digits.takeWhile isAsciiDigit
      if run.isEmpty then ([], text) else (mark :: (sign ++ run), digits.dropWhile isAsciiDigit)
    else ([], text)
  | [] => ([], [])

/-- The digits of a whole number at the front of a text: zero alone, or a run without a leading
zero. -/
def cutWhole : List Char → List Char × List Char
  | '0' :: rest => (['0'], rest)
  | text => (text.takeWhile isAsciiDigit, text.dropWhile isAsciiDigit)

/-- The number at the front of a text whose sign has been taken off, and what is left after it. -/
def readMagnitude (d : Demands) (sign text : List Char) : Except ReadError (Number × List Char) :=
  let (whole, afterWhole) := cutWhole text
  if whole.isEmpty then .error .malformed
  else if d.shortNumbers && Decimal.digitLimit < (sign ++ whole).length then .error .numberTooLong
  else
    let (fraction, afterFraction) := cutFraction afterWhole
    let (exponent, left) := cutExponent afterFraction
    if fraction.isEmpty && exponent.isEmpty then
      match Number.readInt (sign ++ whole) with
      | .ok n => .ok (.int n, left)
      | .error _ => .error .numberTooLong
    else .ok (.float (Number.readFloat (sign ++ whole ++ fraction ++ exponent)), left)

/-- The number at the front of a text, and what is left after it. -/
def readNumber (d : Demands) (text : List Char) : Except ReadError (Number × List Char) :=
  match text with
  | '-' :: rest => readMagnitude d ['-'] rest
  | rest => readMagnitude d [] rest

/-- The value that is a single word at the front of a text, and what is left after it. -/
def readWord? (text : List Char) : Option (Value × List Char) :=
  let words : List (String × Value) := [("null", .null), ("true", .boolean true),
    ("false", .boolean false), ("NaN", .number (.float .nan)),
    ("Infinity", .number (.float (.infinite false))),
    ("-Infinity", .number (.float (.infinite true)))]
  words.findSome? fun (word, value) =>
    (afterWord? word.toList text).map fun left => (value, left)

/-- The string at the front of a text, after its opening quote, and what is left after it. -/
def readString (d : Demands) (text : List Char) : Except ReadError (String × List Char) :=
  match Quoted.decodeTail? d.controls none text with
  | some (s, left) =>
    if d.halves || (String.ofList s).isEncodable then .ok (String.ofList s, left)
    else .error .malformed
  | none => .error .malformed

mutual

/-- The value at the front of a text, blanks before it skipped, and what is left after it. -/
def readValue : (fuel : Nat) → Demands → List Char → Except ReadError (Value × List Char)
  | 0, _, _ => .error .malformed
  | fuel + 1, d, text =>
    match skipSpace text with
    | '"' :: rest => (readString d rest).map fun (s, left) => (.string s, left)
    | '[' :: rest =>
      match skipSpace rest with
      | ']' :: left => .ok (.array [], left)
      | _ => do
        let (items, left) ← readItems fuel (← d.inside) rest
        return (.array items, left)
    | '\x7b' :: rest =>
      match skipSpace rest with
      | '\x7d' :: left => .ok (.object [], left)
      | _ => do
        let (members, left) ← readMembers fuel (← d.inside) rest
        return (.object (Dictionary.ofList members), left)
    | rest =>
      match readWord? rest with
      | some found => .ok found
      | none => (readNumber d rest).map fun (n, left) => (.number n, left)

/-- The items of an array up to its closing bracket, and what is left after it. -/
def readItems : (fuel : Nat) → Demands → List Char → Except ReadError (List Value × List Char)
  | 0, _, _ => .error .malformed
  | fuel + 1, d, text => do
    let (item, rest) ← readValue fuel d text
    match skipSpace rest with
    | ']' :: left => return ([item], left)
    | ',' :: rest =>
      let (items, left) ← readItems fuel d rest
      return (item :: items, left)
    | _ => throw .malformed

/-- The members of an object up to its closing brace, and what is left after it. -/
def readMembers :
    (fuel : Nat) → Demands → List Char → Except ReadError (List (String × Value) × List Char)
  | 0, _, _ => .error .malformed
  | fuel + 1, d, text =>
    match skipSpace text with
    | '"' :: rest => do
      let (key, rest) ← readString d rest
      match skipSpace rest with
      | ':' :: rest =>
        let (value, rest) ← readValue fuel d rest
        match skipSpace rest with
        | '\x7d' :: left => return ([(key, value)], left)
        | ',' :: rest =>
          let (members, left) ← readMembers fuel d rest
          return ((key, value) :: members, left)
        | _ => throw .malformed
      | _ => throw .malformed
    | _ => .error .malformed

end

/-- The value that a whole text stands for. Each step of the reader takes two units of fuel for a
character at most, so the fuel never runs out. -/
def read (d : Demands) (text : List Char) : Except ReadError Value := do
  let (value, left) ← readValue (2 * text.length + 2) d text
  if (skipSpace left).isEmpty then return value else throw .malformed

end CommandSequence.Json
