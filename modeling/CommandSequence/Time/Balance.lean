import CommandSequence.Time.Timestamp

/-!
# Writing and rebalancing durations

A duration is written as a clock tag, its years folded into days. Rebalancing brings every field of
a duration into range: the duration is anchored on a timestamp of 1970, read as an instant, which
carries with calendar arithmetic, and written from that instant's fields.
-/

namespace CommandSequence

/-- A number with leading zeros; one without a fractional part is written as an integer. -/
def Number.padded (width : Nat) (n : Number) : Except TimeError (List Char) :=
  (TimeError.ofNumber n.normalize.write).map (Decimal.zeroFill width)

/-- The greatest integer at most a number, with leading zeros. -/
def Number.paddedFloor (width : Nat) (n : Number) : Except TimeError (List Char) := do
  Number.padded width (.int (← TimeError.ofNumber n.floor))

/-- The fields of a duration, with leading zeros. Days, milliseconds and microseconds are empty when
they are zero. -/
structure DurationFields where
  years : List Char
  days : List Char
  hours : List Char
  minutes : List Char
  seconds : List Char
  milliseconds : List Char
  microseconds : List Char
  sign : List Char
deriving DecidableEq

namespace Duration

/-- A padded number, or nothing for zero. -/
def unlessZero (width : Nat) (n : Number) : Except TimeError (List Char) :=
  if n.isZero then .ok [] else n.padded width

/-- The sign of a duration. -/
def sign (d : Duration) : List Char :=
  if d.negative then ['-'] else []

/-- The fields of a duration. -/
def fields (d : Duration) : Except TimeError DurationFields := do
  return {
    years := ← d.years.padded 4
    days := ← unlessZero 3 d.days
    hours := ← d.hours.padded 2
    minutes := ← d.minutes.padded 2
    seconds := ← d.seconds.padded 2
    milliseconds := ← unlessZero 3 d.milliseconds
    microseconds := ← unlessZero 3 d.microseconds
    sign := d.sign }

/-- The duration with its years folded into days at 365 days each. -/
def foldYears (d : Duration) : Except TimeError Duration :=
  if d.years.isZero then .ok d
  else do
    let yearDays ← TimeError.ofNumber (d.years.mul (.int 365))
    return { d with years := .int 0, days := ← TimeError.ofNumber (yearDays.add d.days) }

/-- A duration as a clock tag, `[-][DDDT]hh:mm:ss[.ffffff]`. The fraction has three digits, or six
if there are microseconds, or is missing. -/
def tag (d : Duration) : Except TimeError (List Char) := do
  let f ← (← d.foldYears).fields
  let day := if f.days.isEmpty then [] else f.days ++ [('T' : Char)]
  let fraction :=
    if !f.microseconds.isEmpty then
      let milliseconds : List Char :=
        if f.milliseconds.isEmpty then ['0', '0', '0'] else f.milliseconds
      ('.' : Char) :: (milliseconds ++ f.microseconds)
    else if !f.milliseconds.isEmpty then ('.' : Char) :: f.milliseconds
    else []
  return f.sign ++ day ++ f.hours ++ (':' : Char) :: f.minutes ++ (':' : Char) ::
    f.seconds ++ fraction

/-- A duration as a timestamp. The year 1970 stands for no years, and the day is at least 1. -/
def anchor (d : Duration) : Except TimeError (List Char) := do
  let year ← if d.years.isZero then .ok (String.toList "1970") else d.years.paddedFloor 4
  let day ← Number.padded 3 (.int (max 1 (← TimeError.ofNumber d.days.floor)))
  let hours ← d.hours.paddedFloor 2
  let minutes ← d.minutes.paddedFloor 2
  let seconds ← d.seconds.paddedFloor 2
  let milliseconds ← d.milliseconds.paddedFloor 3
  return year ++ ('-' : Char) :: day ++ ('T' : Char) :: hours ++ (':' : Char) :: minutes
    ++ (':' : Char) :: seconds ++ ('.' : Char) :: milliseconds

/-- The day segment of a rebalanced duration: written if the duration had days, or if the carry went
beyond the first day; without days of its own the first day counts as none. -/
def balancedDay (d : Duration) (day : Nat) : List Char :=
  let written : Int := if d.days.isPositive then day else (day : Int) - 1
  if d.days.isPositive || 1 < day then
    Decimal.zeroFill 3 (Decimal.ofInt written) ++ [('T' : Char)]
  else []

end Duration

/-- The course of a rebalancing: the timestamp in between, once it has been read back, and the
outcome. -/
structure Balancing where
  anchored : Option (List Char)
  result : Except TimeError (List Char)

/-- Rebalances a duration; a bare number counts seconds. -/
def balance (places : Int) (text : List Char) : Balancing :=
  let reading : Except TimeError (Duration × List Char × Option TimeReading) := do
    let d ← Duration.read places "seconds" text
    let anchored ← d.anchor
    let instant ← Instant.ofMilliseconds (← timestampMilliseconds anchored)
    let balanced ← readTime places (← instant.timestamp true)
    return (d, anchored, balanced)
  match reading with
  | .error e => ⟨none, .error e⟩
  | .ok (d, anchored, some (.timestamp t)) =>
    match t.day with
    | .ofYear day => ⟨some anchored, do
        let milliseconds ← t.milliseconds.padded 3
        return d.sign ++ d.balancedDay day ++ padded 2 t.hour ++ (':' : Char) :: padded 2 t.minute
          ++ (':' : Char) :: padded 2 t.second ++ ('.' : Char) :: milliseconds⟩
    | .ofMonth .. => ⟨some anchored, .error .timestampUnread⟩
  | .ok (_, anchored, _) => ⟨some anchored, .error .timestampUnread⟩

end CommandSequence
