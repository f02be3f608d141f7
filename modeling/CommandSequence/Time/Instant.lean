import CommandSequence.Time.Error

/-!
# Instants and the civil calendar

An instant is a count of microseconds of universal time since the beginning of 1970, within the
years 1 to 9999 of the proleptic Gregorian calendar. The calendar is reduced to day numbers: day 0
is the first day of year 1, and 146097 days make the 400-year cycle.
-/

namespace CommandSequence

namespace Calendar

/-- The days before the first day of a year. -/
def daysBeforeYear (year : Nat) : Nat :=
  365 * (year - 1) + (year - 1) / 4 - (year - 1) / 100 + (year - 1) / 400

/-- Whether a year has 366 days. -/
def isLeap (year : Nat) : Bool :=
  year % 4 == 0 && (year % 100 != 0 || year % 400 == 0)

/-- The days of the months of a year. -/
def monthLengths (year : Nat) : List Nat :=
  [31, if isLeap year then 29 else 28, 31, 30, 31, 30, 31, 31, 30, 31, 30, 31]

/-- The year of a day number, and the day within it, from 1. The cycles of 400, 100 and 4 years and
the single year are taken off in turn; the last day of a cycle of 100 or of one year would otherwise
count as a cycle of its own. -/
def yearAndDay (day : Nat) : Nat × Nat :=
  let inCycle := day % 146097
  let centuries := min 3 (inCycle / 36524)
  let inCentury := inCycle - centuries * 36524
  let inFour := inCentury % 1461
  let years := min 3 (inFour / 365)
  (400 * (day / 146097) + 100 * centuries + 4 * (inCentury / 1461) + years + 1,
    inFour - years * 365 + 1)

/-- The month, from 1, and the day of the month of a day counted from 0 within months of given
lengths. -/
def monthAndDay : (month : Nat) → List Nat → (day : Nat) → Nat × Nat
  | month, [], day => (month, day + 1)
  | month, length :: lengths, day =>
    if day < length then (month, day + 1) else monthAndDay (month + 1) lengths (day - length)

/-- The day number of the beginning of 1970. -/
def epochDay : Nat := 719162

/-- The microseconds of a day. -/
def dayMicroseconds : Nat := 86400000000

end Calendar

open Calendar

/-- A count of microseconds of universal time since the beginning of 1970. -/
structure Instant where
  microseconds : Int
deriving DecidableEq, Repr

namespace Instant

/-- The instant of a count of microseconds, within the years 1 to 9999. -/
def ofMicroseconds (microseconds : Int) : Except TimeError Instant :=
  if -62135596800000000 ≤ microseconds ∧ microseconds < 253402300800000000 then .ok ⟨microseconds⟩
  else .error .instantOutOfRange

/-- The instant of a count of milliseconds. -/
def ofMilliseconds (milliseconds : Int) : Except TimeError Instant :=
  ofMicroseconds (milliseconds * 1000)

/-- The count of milliseconds, rounded down. -/
def milliseconds (i : Instant) : Int :=
  i.microseconds.fdiv 1000

/-- The day number of an instant. -/
def day (i : Instant) : Nat :=
  (i.microseconds.fdiv dayMicroseconds + epochDay).toNat

/-- The microseconds since the beginning of the day. -/
def timeOfDay (i : Instant) : Nat :=
  (i.microseconds.fmod dayMicroseconds).toNat

/-- The year of an instant. -/
def year (i : Instant) : Nat := (yearAndDay i.day).1

/-- The day of the year, from 1. -/
def dayOfYear (i : Instant) : Nat := (yearAndDay i.day).2

/-- The month, from 1, and the day of the month. -/
def monthDay (i : Instant) : Nat × Nat :=
  monthAndDay 1 (monthLengths i.year) (i.dayOfYear - 1)

def hour (i : Instant) : Nat := i.timeOfDay / 3600000000
def minute (i : Instant) : Nat := i.timeOfDay / 60000000 % 60
def second (i : Instant) : Nat := i.timeOfDay / 1000000 % 60
def microsecond (i : Instant) : Nat := i.timeOfDay % 1000000
def millisecond (i : Instant) : Nat := i.microsecond / 1000

/-- Counting the days of a year begins on the last day of the year before, so the first year has no
day count. -/
def countedDay (i : Instant) : Except TimeError Nat :=
  if i.year ≤ 1 then .error .instantOutOfRange else .ok i.dayOfYear

/-- The instant a number of microseconds after the beginning of a year. -/
def afterYearStart (year : Nat) (microseconds : Int) : Except TimeError Instant :=
  if 1 ≤ year ∧ year ≤ 9999 then
    ofMicroseconds (((daysBeforeYear year : Int) - epochDay) * dayMicroseconds + microseconds)
  else .error (.yearOutOfRange year)

end Instant

/-- A date and time of day as given, with its offset from universal time in minutes. -/
structure LocalTime where
  year : Int
  month : Int
  day : Int
  hour : Int := 0
  minute : Int := 0
  second : Int := 0
  microsecond : Int := 0
  offset : Int := 0
deriving DecidableEq, Repr

namespace LocalTime

/-- The instant of a local time, whose fields are checked from the coarsest to the finest. -/
def instant (t : LocalTime) : Except TimeError Instant :=
  let inYears := 1 ≤ t.year ∧ t.year ≤ 9999
  let lengths := monthLengths t.year.toNat
  if ¬ (-1440 < t.offset ∧ t.offset < 1440) then .error (.offsetOutOfRange t.offset)
  else if [t.year, t.month, t.day, t.hour, t.minute, t.second, t.microsecond].any
    (fun field => field < -2147483648 ∨ 2147483647 < field) then .error .instantOutOfRange
  else if ¬ inYears then .error (.yearOutOfRange t.year)
  else if ¬ (1 ≤ t.month ∧ t.month ≤ 12) then .error .monthOutOfRange
  else if ¬ (1 ≤ t.day ∧ t.day ≤ lengths.getD (t.month - 1).toNat 0) then .error .dayOutOfRange
  else if ¬ (0 ≤ t.hour ∧ t.hour ≤ 23) then .error .hourOutOfRange
  else if ¬ (0 ≤ t.minute ∧ t.minute ≤ 59) then .error .minuteOutOfRange
  else if ¬ (0 ≤ t.second ∧ t.second ≤ 59) then .error .secondOutOfRange
  else if ¬ (0 ≤ t.microsecond ∧ t.microsecond ≤ 999999) then .error .microsecondOutOfRange
  else
    let days := (lengths.take (t.month - 1).toNat).foldl Nat.add 0 + (t.day - 1).toNat
    let minutes := t.hour * 60 + t.minute - t.offset
    Instant.afterYearStart t.year.toNat
      (days * dayMicroseconds + (minutes * 60 + t.second) * 1000000 + t.microsecond)

end LocalTime

end CommandSequence
