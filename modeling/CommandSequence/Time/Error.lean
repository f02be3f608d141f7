import CommandSequence.Number.Basic
import CommandSequence.Text.Shown

/-!
# Failures of reading and computing with times

Each constructor is one cause; `TimeError.message?` has the wording of those that have one.
-/

namespace CommandSequence

/-- Why a time or duration has no reading, or an instant does not exist. -/
inductive TimeError where
  /-- The text has none of the forms of a duration. -/
  | notDuration (text : List Char)
  /-- There is no duration unit of this name. -/
  | unknownUnit (name : String)
  /-- There is no tag grammar of this name. -/
  | unknownGrammar (name : String)
  /-- A number has no text, no integer or no floating-point value near it. -/
  | number (cause : NumberError)
  /-- The instant lies outside the years 1 to 9999. -/
  | instantOutOfRange
  | yearOutOfRange (year : Int)
  | monthOutOfRange
  | dayOutOfRange
  | hourOutOfRange
  | minuteOutOfRange
  | secondOutOfRange
  | microsecondOutOfRange
  /-- The offset from universal time is a day or more; it is given in minutes. -/
  | offsetOutOfRange (minutes : Int)
  /-- A calendar timestamp cannot be limited to no fraction digits at all. -/
  | noFractionDigits
  /-- The rebalanced timestamp has more fraction digits than calendar timestamps may have. -/
  | timestampUnread
deriving DecidableEq

namespace TimeError

/-- The forms in which a duration can be written. -/
def durationForms : String :=
  "Invalid time format: Must be of format:\n    1y 3d 2h 24m 35s 18ms 70us,\n" ++
    "    [+/-]DOYThh:mm:ss[.sss],\n    duration"

/-- A span of whole days and of the seconds of a day. -/
def spanText (minutes : Int) : String :=
  let days := minutes.fdiv 1440
  let seconds := (minutes.fmod 1440) * 60
  let days' : List String := if days = 0 then [] else ["days=" ++ toString days]
  let seconds' : List String := if seconds = 0 then [] else ["seconds=" ++ toString seconds]
  "datetime.timedelta(" ++ String.intercalate ", " (days' ++ seconds') ++ ")"

/-- The wording of a failure, for the causes that have one. -/
def message? : TimeError → Option String
  | .notDuration text =>
    some (durationForms ++ "\n    got: " ++ String.ofList (Shown.quote text))
  | .unknownUnit name => some ("Unknown duration unit: " ++ Shown.string name)
  | .unknownGrammar name => some (Shown.string name ++ " is not a valid TimeTypes")
  | .number .notANumber => some "cannot convert float NaN to integer"
  | .number _ => none
  | .instantOutOfRange => none
  | .yearOutOfRange year => some ("year " ++ toString year ++ " is out of range")
  | .monthOutOfRange => some "month must be in 1..12"
  | .dayOutOfRange => some "day is out of range for month"
  | .hourOutOfRange => some "hour must be in 0..23"
  | .minuteOutOfRange => some "minute must be in 0..59"
  | .secondOutOfRange => some "second must be in 0..59"
  | .microsecondOutOfRange => some "microsecond must be in 0..999999"
  | .offsetOutOfRange minutes => some ("offset must be a timedelta strictly between "
      ++ "-timedelta(hours=24) and timedelta(hours=24), not " ++ spanText minutes ++ ".")
  | .noFractionDigits => none
  | .timestampUnread => none

/-- A failure of arithmetic as a failure of time. -/
def ofNumber {α : Type} : Except NumberError α → Except TimeError α
  | .ok a => .ok a
  | .error cause => .error (.number cause)

end TimeError

end CommandSequence
