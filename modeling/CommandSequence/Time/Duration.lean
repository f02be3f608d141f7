import CommandSequence.Time.Error
import CommandSequence.Time.Tag
import CommandSequence.Character.Blank

/-!
# Durations

A duration has a count for each of seven units and one sign for the whole. It is written in one of
three ways: fields with unit suffixes, whose counts are kept as written; a clock tag; or a bare
number of one unit, which is carried into the coarser units. A year has 365 days throughout.
-/

namespace CommandSequence

open Character

/-- The units of a duration. -/
inductive DurationUnit where
  | years | days | hours | minutes | seconds | milliseconds | microseconds
deriving DecidableEq, Repr

namespace DurationUnit

/-- The units from the coarsest to the finest. -/
def all : List DurationUnit :=
  [.years, .days, .hours, .minutes, .seconds, .milliseconds, .microseconds]

/-- The name of a unit. -/
def name : DurationUnit → String
  | .years => "years"
  | .days => "days"
  | .hours => "hours"
  | .minutes => "minutes"
  | .seconds => "seconds"
  | .milliseconds => "milliseconds"
  | .microseconds => "microseconds"

/-- The unit of a name. -/
def ofName? (s : String) : Option DurationUnit :=
  all.find? (·.name == s)

/-- The suffix that marks a field of the unit. -/
def suffix : DurationUnit → List Char
  | .years => ['y']
  | .days => ['d']
  | .hours => ['h']
  | .minutes => ['m']
  | .seconds => ['s']
  | .milliseconds => ['m', 's']
  | .microseconds => ['u', 's']

/-- The next finer unit and how many of it make one; microseconds have none. -/
def finer? : DurationUnit → Option (DurationUnit × Nat)
  | .years => some (.days, 365)
  | .days => some (.hours, 24)
  | .hours => some (.minutes, 60)
  | .minutes => some (.seconds, 60)
  | .seconds => some (.milliseconds, 1000)
  | .milliseconds => some (.microseconds, 1000)
  | .microseconds => none

/-- The next coarser unit. -/
def coarser? : DurationUnit → Option DurationUnit
  | .years => none
  | .days => some .years
  | .hours => some .days
  | .minutes => some .hours
  | .seconds => some .minutes
  | .milliseconds => some .seconds
  | .microseconds => some .milliseconds

/-- How many of the unit make one of the next coarser unit; years are not carried. -/
def perCoarser? (u : DurationUnit) : Option Nat :=
  u.coarser?.bind fun c => c.finer?.map (·.2)

end DurationUnit

/-- A duration: a count of each unit, and a sign for the whole. -/
structure Duration where
  years : Number := .int 0
  days : Number := .int 0
  hours : Number := .int 0
  minutes : Number := .int 0
  seconds : Number := .int 0
  milliseconds : Number := .int 0
  microseconds : Number := .int 0
  negative : Bool := false
deriving DecidableEq

namespace Duration

/-- The count of a unit. -/
def count (d : Duration) : DurationUnit → Number
  | .years => d.years
  | .days => d.days
  | .hours => d.hours
  | .minutes => d.minutes
  | .seconds => d.seconds
  | .milliseconds => d.milliseconds
  | .microseconds => d.microseconds

/-- The duration with the given counts and sign. -/
def ofCounts (count : DurationUnit → Number) (negative : Bool) : Duration where
  years := count .years
  days := count .days
  hours := count .hours
  minutes := count .minutes
  seconds := count .seconds
  milliseconds := count .milliseconds
  microseconds := count .microseconds
  negative := negative

/-! ## Fields with unit suffixes -/

/-- The suffix of a unit at the front of a text. The suffix of minutes must not be the beginning of
that of milliseconds. -/
def afterSuffix? (u : DurationUnit) (text : List Char) : Option (List Char) :=
  if u.suffix.isPrefixOf text then
    let rest := text.drop u.suffix.length
    if u = .minutes ∧ rest.head? = some ('s' : Char) then none else some rest
  else none

/-- A field of a unit after any blanks: its signed decimal value as written, and what is left. -/
def readField? (u : DurationUnit) (text : List Char) : Option (List Char × List Char) := do
  let text := text.dropWhile isBlank
  let (sign, magnitude) := if TagGrammar.signed text then (text.take 1, text.drop 1) else ([], text)
  let (whole, rest) ← Cut.run? isDigit magnitude
  let (fraction, rest) := match (Cut.char? '.' rest).bind (Cut.run? isDigit) with
    | some (digits, rest) => ('.' :: digits, rest)
    | none => ([], rest)
  return (sign ++ whole ++ fraction, ← afterSuffix? u rest)

/-- The fields of the units, in order, each of them optional, and what is left. -/
def readFields : List DurationUnit → List Char → List (DurationUnit × List Char) × List Char
  | [], text => ([], text)
  | u :: units, text =>
    match readField? u text with
    | some (value, rest) =>
      let (fields, left) := readFields units rest
      ((u, value) :: fields, left)
    | none => readFields units text

/-- The magnitude of a field; one without a fractional part is an integer. -/
def fieldValue (written : List Char) : Number :=
  (Number.float (Number.readFloat written).abs).normalize

/-- A duration written in fields with unit suffixes, `1d 2h 30m`. The counts are kept as written; a
leading minus sign, and a minus sign on any field, make the whole negative. -/
def ofFields? (text : List Char) : Option Duration :=
  let (minus, body) := match text with
    | '-' :: rest => (true, rest)
    | rest => (false, rest)
  let (fields, left) := readFields DurationUnit.all body
  if Cut.atEnd left then
    some (ofCounts (fun u => ((fields.lookup u).map fieldValue).getD (.int 0))
      (minus || fields.any fun (_, written) => written.head? == some ('-' : Char)))
  else none

/-! ## Clock tags -/

/-- The pieces of a clock tag as counts. The fraction is a decimal fraction of a second: its first
three digits are milliseconds and the next three microseconds. -/
def ofClockTag (tag : ClockTag) : Duration :=
  let fraction := (tag.fraction ++ List.replicate 6 ('0' : Char)).take 6
  { days := .int (Decimal.value tag.days)
    hours := .int (Decimal.value tag.hours)
    minutes := .int (Decimal.value tag.minutes)
    seconds := .int (Decimal.value tag.seconds)
    milliseconds := .int (Decimal.value (fraction.take 3))
    microseconds := .int (Decimal.value (fraction.drop 3))
    negative := tag.negative }

/-- A duration written as a clock tag. -/
def ofTag? (text : List Char) : Option Duration :=
  (ClockTag.read? text).map ofClockTag

/-! ## Bare numbers -/

/-- Carries whole counts, finest first, into the coarser units; the last unit takes what is left. -/
def carry : List (DurationUnit × Nat) → (carried : Nat) → List (DurationUnit × Nat)
  | [], _ => []
  | (u, n) :: rest, carried =>
    match u.perCoarser? with
    | some ratio => (u, (n + carried) % ratio) :: carry rest ((n + carried) / ratio)
    | none => (u, n + carried) :: carry rest 0

/-- The fraction of one unit as a whole count of the next finer unit: the product of the two nearest
floating-point numbers, rounded to an integer. -/
def fractionCount (fraction : List Char) (ratio : Nat) : Nat :=
  match (Number.readFloat fraction).mul (Binary64.ofInt ratio) with
  | .finite _ units _ => roundDiv units Binary64.one
  | _ => 0

/-- A duration written as a bare number of a unit, carried from microseconds up to years. A fraction
counts in the next finer unit; a fraction of a microsecond is dropped. -/
def ofNumber? (unit : DurationUnit) (text : List Char) : Except TimeError (Option Duration) :=
  let (negative, magnitude) := Number.splitSign text
  match Cut.run? isDigit magnitude with
  | none => .ok none
  | some (whole, rest) =>
    let fraction? := (Cut.char? '.' rest).bind (Cut.run? isDigit)
    let left := (fraction?.map (·.2)).getD rest
    if Cut.atEnd left then
      match Decimal.value? whole with
      | none => .error (.number .integerTooLong)
      | some n =>
        let finer : DurationUnit → Nat := fun u =>
          match fraction?, unit.finer? with
          | some (digits, _), some (f, ratio) =>
            if u = f then fractionCount ('.' :: digits) ratio else 0
          | _, _ => 0
        let counts := DurationUnit.all.reverse.map fun u =>
          (u, if u = unit then n else finer u)
        let carried := carry counts 0
        .ok (some (ofCounts (fun u => .int ((carried.lookup u).getD 0)) negative))
    else .ok none

/-- The unit of a name. -/
def unitOfName (name : String) : Except TimeError DurationUnit :=
  match DurationUnit.ofName? name with
  | some u => .ok u
  | none => .error (.unknownUnit name)

end Duration

end CommandSequence
