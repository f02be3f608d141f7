import CommandSequence.Number.Binary64
import CommandSequence.Number.Decimal

/-!
# The shortest decimal that reads back

A positive count of units is written with the fewest decimal digits whose value is nearer to it than
to every other number. For each digit count there are two candidates, the neighbours on that decimal
grid; a candidate is taken only if it reads back, so that the result reads back whatever the search
does. The exact expansion, which always reads back, stands behind the search.
-/

namespace CommandSequence

/-- A decimal number `digits * 10 ^ exponent`. -/
structure Decimal.Scientific where
  digits : Nat
  exponent : Int
deriving DecidableEq, Repr

namespace Binary64

open Decimal (Scientific)

/-- The least `place ≥ start` with `units * 10 ^ place` at least one, searched for `fuel` steps. -/
def firstPlace (units : Nat) : (fuel start : Nat) → Nat
  | 0, start => start
  | fuel + 1, start =>
    if one ≤ units * tenPow start then start else firstPlace units fuel (start + 1)

/-- The exponent of the leading decimal digit of a positive count of units. -/
def leadingExponent (units : Nat) : Int :=
  if one ≤ units then ((Nat.toDigits 10 (units / one)).length : Int) - 1
  else -(firstPlace units 330 1 : Int)

/-- Whether a decimal reads back as the count of units. -/
def readsBack (units : Nat) (d : Scientific) : Bool :=
  match ofDecimal false d.digits d.exponent with
  | .finite _ u _ => u == units
  | _ => false

/-- The two neighbours of a count of units on the grid of multiples of `10 ^ exponent`, the nearer
one first; a tie puts the even one first. -/
def neighbours (units : Nat) (exponent : Int) : List Scientific :=
  let den := if 0 ≤ exponent then one * tenPow exponent.toNat else one
  let num := if 0 ≤ exponent then units else units * tenPow (-exponent).toNat
  let below := num / den
  let rest := num % den
  let lower : Scientific := ⟨below, exponent⟩
  let upper : Scientific := ⟨below + 1, exponent⟩
  if 2 * rest < den || (2 * rest == den && below % 2 == 0) then [lower, upper] else [upper, lower]

/-- The exact decimal expansion of a count of units. -/
def exactDecimal (units : Nat) : Scientific :=
  ⟨units * (tenPow 1074 / one), -1074⟩

/-- The decimal with the fewest digits that reads back; of two, the nearer. -/
def shortest (units : Nat) : Scientific :=
  let top := leadingExponent units
  let candidates := (List.range 17).flatMap fun (n : Nat) => neighbours units (top - n)
  (candidates.find? (readsBack units)).getD (exactDecimal units)

/-- How a decimal is laid out as text: without an exponent while the leading digit's exponent lies
in `[least, limit)`, else with the exponent mark, a sign and at least `width` exponent digits. -/
structure Layout where
  least : Int
  limit : Int
  mark : Char
  width : Nat

/-- Numbers from `0.0001` up to `10 ^ 16` are written without an exponent. -/
def Layout.standard : Layout := ⟨-4, 16, 'e', 2⟩

/-- A decimal as text. A number without an exponent always has a fractional part. -/
def Layout.write (layout : Layout) (d : Scientific) : List Char :=
  let significant := ((Decimal.ofNat d.digits).reverse.dropWhile fun c : Char => c == '0').reverse
  let top := d.exponent + ((Decimal.ofNat d.digits).length : Int) - 1
  if layout.least ≤ top ∧ top < layout.limit then
    if top < 0 then
      '0' :: '.' :: (List.replicate (-top - 1).toNat ('0' : Char) ++ significant)
    else
      let whole := top.toNat + 1
      if significant.length ≤ whole then
        significant ++ List.replicate (whole - significant.length) ('0' : Char) ++
          [('.' : Char), '0']
      else significant.take whole ++ ('.' : Char) :: significant.drop whole
  else
    let sign : Char := if top < 0 then '-' else '+'
    let mantissa := match significant with
      | [] => []
      | [digit] => [digit]
      | digit :: more => digit :: '.' :: more
    mantissa ++ layout.mark :: sign
      :: Decimal.zeroFill layout.width (Decimal.ofNat top.natAbs)

/-- The text of a number: the shortest decimal that reads back, or a name. -/
def write : Binary64 → List Char
  | .finite negative units _ =>
    let magnitude : List Char :=
      if units = 0 then ['0', '.', '0'] else Layout.standard.write (shortest units)
    if negative then '-' :: magnitude else magnitude
  | .infinite false => String.toList "inf"
  | .infinite true => String.toList "-inf"
  | .nan => String.toList "nan"

end Binary64

end CommandSequence
