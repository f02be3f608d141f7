import CommandSequence.Character.Digit
import CommandSequence.Number.Power

/-!
# Natural numbers and integers in decimal

A run of digits is read in base ten, whatever scripts its digits come from; a number is written in
ASCII digits without leading zeros. Reading and writing an integer is bounded by a count of digits.
-/

namespace CommandSequence.Decimal

open Character

/-- The longest integer, in digits, that is read from text or written as text. -/
def digitLimit : Nat := 4300

/-- The value of a run of digits, the most significant first. -/
def value (digits : List Char) : Nat :=
  digits.foldl (fun n c => 10 * n + (digitValue? c).getD 0) 0

/-- A natural number in ASCII digits. -/
def ofNat (n : Nat) : List Char :=
  (Nat.toDigits 10 n).map Char.scalar

/-- An integer in ASCII digits, with a minus sign if it is negative. -/
def ofInt (n : Int) : List Char :=
  if n < 0 then '-' :: ofNat n.natAbs else ofNat n.natAbs

/-- Whether the integer has few enough digits to be written. -/
def writable (n : Int) : Bool :=
  n.natAbs < tenPow digitLimit

/-- The value of a run of digits that is short enough to be read. -/
def value? (digits : List Char) : Option Nat :=
  if digits.length ≤ digitLimit then some (value digits) else none

/-- Zeros stand between the sign and the first digit until the text has the width. -/
def zeroFill (width : Nat) (text : List Char) : List Char :=
  let zeros := List.replicate (width - text.length) ('0' : Char)
  match text with
  | '-' :: digits => '-' :: (zeros ++ digits)
  | '+' :: digits => '+' :: (zeros ++ digits)
  | _ => zeros ++ text

end CommandSequence.Decimal
