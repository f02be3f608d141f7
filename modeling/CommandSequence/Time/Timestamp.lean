import CommandSequence.Time.Duration
import CommandSequence.Time.Instant

/-!
# Day-of-year timestamps

An instant is written `YYYY-DDDThh:mm:ss[.mmm]`. Two readers go back: one finds such a timestamp
anywhere in a text and rolls fields that are out of range over into the next unit; the other reads a
whole text as a calendar timestamp, with a day of the year or a month and day, and with any of the
time fields missing.
-/

namespace CommandSequence

open Character

/-! ## Writing -/

/-- The fields of an instant, with leading zeros. -/
structure InstantFields where
  year : List Char
  day : List Char
  hours : List Char
  minutes : List Char
  seconds : List Char
  milliseconds : List Char
deriving DecidableEq

/-- A natural number with leading zeros. -/
def padded (width n : Nat) : List Char :=
  Decimal.zeroFill width (Decimal.ofNat n)

namespace Instant

/-- The fields of an instant. -/
def fields (i : Instant) : Except TimeError InstantFields := do
  let day ← i.countedDay
  return {
    year := padded 4 i.year
    day := padded 3 day
    hours := padded 2 i.hour
    minutes := padded 2 i.minute
    seconds := padded 2 i.second
    milliseconds := padded 3 i.millisecond }

/-- The timestamp of an instant. The milliseconds are written only if they are wanted and not
zero. -/
def timestamp (i : Instant) (withMilliseconds : Bool) : Except TimeError (List Char) := do
  let f ← i.fields
  let whole := f.year ++ ('-' : Char) :: f.day ++ ('T' : Char) :: f.hours ++ (':' : Char) ::
    f.minutes ++ (':' : Char) :: f.seconds
  return if withMilliseconds && 0 < i.millisecond then whole ++ ('.' : Char) :: f.milliseconds
    else whole

end Instant

/-! ## Finding a timestamp in a text -/

/-- The numbers of a timestamp that stands in a text. -/
structure FoundTimestamp where
  year : Nat
  day : Nat
  hours : Nat
  minutes : Nat
  seconds : Nat
  milliseconds : Nat
deriving DecidableEq, Repr

namespace FoundTimestamp

/-- The timestamp at the front of a text: `YYYY-DDDThh:mm:ss`, a point or none, and three digits of
milliseconds or none. -/
def atFront? (text : List Char) : Option FoundTimestamp := do
  let (year, rest) ← Cut.exactly? isDigit 4 text
  let (day, rest) ← Cut.exactly? isDigit 3 (← Cut.char? '-' rest)
  let (hours, rest) ← Cut.exactly? isDigit 2 (← Cut.char? 'T' rest)
  let (minutes, rest) ← Cut.exactly? isDigit 2 (← Cut.char? ':' rest)
  let (seconds, rest) ← Cut.exactly? isDigit 2 (← Cut.char? ':' rest)
  let milliseconds := ((Cut.exactly? isDigit 3 (Cut.skipChar '.' rest)).map (·.1)).getD []
  return ⟨Decimal.value year, Decimal.value day, Decimal.value hours, Decimal.value minutes,
    Decimal.value seconds, Decimal.value milliseconds⟩

/-- The first timestamp in a text. -/
def find? : List Char → Option FoundTimestamp
  | [] => atFront? []
  | c :: rest => (atFront? (c :: rest)).or (find? rest)

/-- The instant of a timestamp; fields out of range roll over into the next unit. -/
def instant (t : FoundTimestamp) : Except TimeError Instant :=
  Instant.afterYearStart t.year
    (((((t.day : Int) - 1) * 24 + t.hours) * 60 + t.minutes) * 60000000
      + t.seconds * 1000000 + t.milliseconds * 1000)

end FoundTimestamp

/-- The milliseconds since the beginning of 1970 of the first timestamp in a text, and zero if there
is none. -/
def timestampMilliseconds (text : List Char) : Except TimeError Int :=
  match FoundTimestamp.find? text with
  | none => .ok 0
  | some t => t.instant.map (·.milliseconds)

/-! ## Calendar timestamps -/

/-- The day of a calendar timestamp. -/
inductive CalendarDay where
  | ofYear (day : Nat)
  | ofMonth (month day : Nat)
deriving DecidableEq, Repr

/-- A calendar timestamp with the fields that were written, and zero for those that were not; `time`
is the time of day as written. -/
structure Timestamp where
  year : Nat
  day : CalendarDay
  hour : Nat
  minute : Nat
  second : Nat
  milliseconds : Number
  time : List Char
deriving DecidableEq

namespace Timestamp

/-- The readings of a piece at the front of a text, in the order in which they are tried, each with
what is left after it. -/
abbrev Readings (α : Type) := List (α × List Char)

/-- A single digit. -/
def oneDigit : List Char → Readings (List Char)
  | c :: rest => if isAsciiDigit c then [([c], rest)] else []
  | [] => []

/-- Two digits, the first of them within bounds. -/
def twoDigits (least greatest : Char) : List Char → Readings (List Char)
  | a :: b :: rest => if least ≤ a && a ≤ greatest && isAsciiDigit b then [([a, b], rest)] else []
  | _ => []

/-- Two digits `3x` or `1x` whose second is at most a bound. -/
def bounded (first greatest : Char) : List Char → Readings (List Char)
  | a :: b :: rest => if a == first && '0' ≤ b && b ≤ greatest then [([a, b], rest)] else []
  | _ => []

/-- A month: `01`, `1` or `12`. -/
def month (text : List Char) : Readings (List Char) :=
  twoDigits '0' '0' text ++ oneDigit text ++ bounded '1' '2' text

/-- A day of a month. -/
def dayOfMonth (text : List Char) : Readings (List Char) :=
  twoDigits '0' '2' text ++ oneDigit text ++ bounded '3' '1' text

/-- An hour. -/
def hourOfDay (text : List Char) : Readings (List Char) :=
  oneDigit text ++ twoDigits '0' '2' text

/-- A minute or second. -/
def sixtieth (text : List Char) : Readings (List Char) :=
  oneDigit text ++ twoDigits '0' '5' text

/-- From `limit` digits down to one, as many as there are. -/
def digitsUpTo (limit : Nat) (text : List Char) : Readings (List Char) :=
  let run := (text.takeWhile isDigit).take limit
  (List.range run.length).reverse.map fun n => (text.take (n + 1), text.drop (n + 1))

/-- The readings of a piece after a given character. -/
def after {α : Type} (c : Char) (piece : List Char → Readings α) (text : List Char) : Readings α :=
  ((Cut.char? c text).map piece).getD []

/-- The readings of a piece that may be missing: present ones first. -/
def optionally {α : Type} (piece : List Char → Readings α) (text : List Char) :
    Readings (Option α) :=
  (piece text).map (fun (a, rest) => (some a, rest)) ++ [(none, text)]

/-- The time of day of a timestamp: hour, minute, second and fraction as written. -/
structure Clock where
  hour : List Char
  minute : Option (List Char)
  second : Option (List Char × Option (List Char))
deriving DecidableEq

/-- The readings of a second with a fraction of at most `places` digits. -/
def secondOfMinute (places : Nat) (text : List Char) :
    Readings (List Char × Option (List Char)) :=
  (sixtieth text).flatMap fun (second, rest) =>
    (optionally (after '.' (digitsUpTo places)) rest).map fun (fraction, rest) =>
      ((second, fraction), rest)

/-- The readings of a time of day. -/
def clock (places : Nat) (text : List Char) : Readings Clock :=
  (hourOfDay text).flatMap fun (hour, rest) =>
    (optionally (after ':' sixtieth) rest).flatMap fun (minute, rest) =>
      (optionally (after ':' (secondOfMinute places)) rest).map fun (second, rest) =>
        (⟨hour, minute, second⟩, rest)

/-- The readings of a day: a month and day of the month first, then a day of the year. -/
def calendarDay (text : List Char) : Readings CalendarDay :=
  ((month text).flatMap fun (m, rest) =>
    (after '-' dayOfMonth rest).map fun (d, rest) =>
      (.ofMonth (Decimal.value m) (Decimal.value d), rest))
  ++ (digitsUpTo 3 text).map fun (d, rest) => (.ofYear (Decimal.value d), rest)

/-- A reading of the time of day together with the text that it covers. -/
def clockWritten (places : Nat) (text : List Char) : Readings (Clock × List Char) :=
  (clock places text).map fun (c, rest) => ((c, text.take (text.length - rest.length)), rest)

/-- The readings of `T` and a time of day, either of which may be missing. -/
def timePart (places : Nat) (text : List Char) : Readings (Option (Clock × List Char)) :=
  (after 'T' (optionally (clockWritten places)) text)
    ++ (after 't' (optionally (clockWritten places)) text) ++ [(none, text)]

/-- The milliseconds of a fraction of a second: the fraction times a thousand, rounded to the given
count of decimal places. -/
def fractionMilliseconds (places : Nat) (digits : List Char) : Number :=
  let product := (Number.readFloat ('.' :: digits)).mul (Binary64.ofInt 1000)
  (Number.float (product.roundPlaces places)).normalize

/-- The time of day of a timestamp that has none. -/
def midnight : List Char := String.toList "00:00:00"

/-- The timestamp of a year, a day and a time part. -/
def ofParts (places : Nat) (year : List Char) (day : CalendarDay) :
    Option (Clock × List Char) → Timestamp
  | none => ⟨Decimal.value year, day, 0, 0, 0, fractionMilliseconds places ['0'], midnight⟩
  | some (clock, written) =>
    let value (piece : Option (List Char)) : Nat := Decimal.value (piece.getD [])
    { year := Decimal.value year
      day := day
      hour := Decimal.value clock.hour
      minute := value clock.minute
      second := value (clock.second.map (·.1))
      milliseconds := fractionMilliseconds places ((clock.second.bind (·.2)).getD ['0'])
      time := written }

/-- A whole text as a calendar timestamp whose fraction has at most `places` digits. -/
def read? (places : Nat) (text : List Char) : Option Timestamp := do
  let (year, rest) ← Cut.exactly? isDigit 4 text
  let rest ← Cut.char? '-' rest
  let readings := (calendarDay rest).flatMap fun (day, rest) =>
    (timePart places rest).map fun (time, rest) => (ofParts places year day time, rest)
  (readings.find? fun (_, rest) => Cut.atEnd rest).map (·.1)

end Timestamp

/-- A text read as a time: a calendar timestamp, or else a clock tag. -/
inductive TimeReading where
  | timestamp (t : Timestamp)
  | duration (d : Duration)
deriving DecidableEq

/-- The greatest limit on fraction digits. -/
def maxPlaces : Int := 4294967294

/-- Reads a calendar timestamp with a limit on its fraction digits, or a clock tag. -/
def readTime (places : Int) (text : List Char) : Except TimeError (Option TimeReading) :=
  if places = 0 then .error .noFractionDigits
  else if maxPlaces < places then .error .instantOutOfRange
  else match Timestamp.read? places.toNat text with
    | some t => .ok (some (.timestamp t))
    | none => .ok ((Duration.ofTag? text).map .duration)

/-- Reads a duration in any of its forms: fields with unit suffixes, a clock tag, or a bare number
of a unit. A calendar timestamp is not a duration. -/
def Duration.read (places : Int) (unit : String) (text : List Char) : Except TimeError Duration :=
  match Duration.ofFields? text with
  | some d => .ok d
  | none => do
    match ← readTime places text with
    | some (.duration d) => return d
    | _ =>
      match ← Duration.ofNumber? (← Duration.unitOfName unit) text with
      | some d => return d
      | none => throw (.notDuration text)

end CommandSequence
