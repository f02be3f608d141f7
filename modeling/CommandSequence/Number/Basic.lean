import CommandSequence.Number.Numeral
import CommandSequence.Number.Shortest

/-!
# Numbers

A number is an integer or a binary64 number, and the two kinds are never confused: a numeral of a
sign and digits alone is an integer, every other numeral is floating-point. The text of a number
reads back as the same number of the same kind.
-/

namespace CommandSequence

open Character

/-- An integer or a floating-point number. -/
inductive Number where
  | int (n : Int)
  | float (x : Binary64)
deriving DecidableEq

/-- Why a number has no text or a text no number. -/
inductive NumberError where
  /-- An integer has more digits than are read or written. -/
  | integerTooLong
  /-- An integer has no floating-point number near it, or an infinite number no integer. -/
  | outOfRange
  /-- NaN has no integer near it. -/
  | notANumber
deriving DecidableEq, Repr

namespace Number

instance : Inhabited Number := ⟨.int 0⟩

/-- The sign of a numeral, and the numeral without it. -/
def splitSign : List Char → Bool × List Char
  | '-' :: rest => (true, rest)
  | '+' :: rest => (false, rest)
  | rest => (false, rest)

/-- An integer from digits with an optional sign. -/
def readInt (text : List Char) : Except NumberError Int :=
  let (negative, digits) := splitSign text
  match Decimal.value? digits with
  | some n => .ok (if negative then -(n : Int) else n)
  | none => .error .integerTooLong

/-- The floating-point number nearest to a numeral. -/
def readFloat (text : List Char) : Binary64 :=
  let (negative, magnitude) := splitSign text
  let whole := magnitude.takeWhile isDigit
  let afterWhole := magnitude.dropWhile isDigit
  let (fraction, afterFraction) := match afterWhole with
    | '.' :: rest => (rest.takeWhile isDigit, rest.dropWhile isDigit)
    | rest => ([], rest)
  let exponent : Int := match afterFraction with
    | _ :: rest =>
      let (below, digits) := splitSign rest
      if below then -(Decimal.value digits : Int) else Decimal.value digits
    | [] => 0
  Binary64.ofDecimal negative (Decimal.value (whole ++ fraction)) (exponent - fraction.length)

/-- The text without one final line feed. -/
def dropFinalNewline (text : List Char) : List Char :=
  if text.getLast? == some ('\n' : Char) then text.dropLast else text

/-- Whether a numeral is that of an integer. -/
def isIntegerNumeral (text : List Char) : Bool :=
  let digits := (splitSign text).2
  !digits.isEmpty && digits.all isDigit

/-- The number that a text spells, if it spells one. A final line feed is allowed. -/
def read? (text : List Char) : Except NumberError (Option Number) :=
  let numeral := dropFinalNewline text
  if isIntegerNumeral numeral then (readInt numeral).map (some ∘ .int)
  else if Numeral.accepts numeral then .ok (some (.float (readFloat numeral)))
  else .ok none

/-- The text of a number. -/
def write : Number → Except NumberError (List Char)
  | .int n => if Decimal.writable n then .ok (Decimal.ofInt n) else .error .integerTooLong
  | .float x => .ok x.write

/-- A number as a message shows it, however long it is. -/
def shown : Number → List Char
  | .int n => Decimal.ofInt n
  | .float x => x.write

/-- The integer that a number without a fractional part is, else the number. -/
def normalize : Number → Number
  | .int n => .int n
  | .float x => match x.toInt? with
    | some n => .int n
    | none => .float x

/-- The greatest integer that is at most the number. -/
def floor : Number → Except NumberError Int
  | .int n => .ok n
  | .float x => match x.floor? with
    | some n => .ok n
    | none => .error (if x = .nan then .notANumber else .outOfRange)

/-- Whether the number is neither infinite nor NaN. -/
def isFinite : Number → Bool
  | .int _ => true
  | .float x => x.isFinite

/-- Whether the number can be written: it is finite, and as an integer it has no more digits than
are written. -/
def isWritable : Number → Bool
  | .int n => Decimal.writable n
  | .float x => x.isFinite

/-- Whether the number is zero. -/
def isZero : Number → Bool
  | .int n => n == 0
  | .float x => x.isZero

/-- Whether the number is greater than zero. -/
def isPositive : Number → Bool
  | .int n => 0 < n
  | .float x => x.isPositive

/-- The floating-point number nearest to a number, which must be finite for an integer. -/
def toBinary64 : Number → Except NumberError Binary64
  | .float x => .ok x
  | .int n => match Binary64.ofInt n with
    | .infinite _ => .error .outOfRange
    | x => .ok x

/-- The sum; it is an integer if both numbers are. -/
def add : Number → Number → Except NumberError Number
  | .int a, .int b => .ok (.int (a + b))
  | a, b => do return .float ((← a.toBinary64).add (← b.toBinary64))

/-- The product; it is an integer if both numbers are. -/
def mul : Number → Number → Except NumberError Number
  | .int a, .int b => .ok (.int (a * b))
  | a, b => do return .float ((← a.toBinary64).mul (← b.toBinary64))

end Number

end CommandSequence
