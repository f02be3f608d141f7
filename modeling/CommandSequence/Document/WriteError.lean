import CommandSequence.Json.Writer
import CommandSequence.Text.Shown

/-!
# What cannot be written as sequence text

A document can hold what sequence text cannot express. `WriteError` has one constructor for each
cause and `WriteError.message?` the wording of those that have one.
-/

namespace CommandSequence

/-- Why something cannot be written as sequence text. -/
inductive WriteError where
  /-- A number is infinite or NaN. -/
  | notFinite (x : Binary64)
  /-- A truth value stands in the place of a number. -/
  | notNumber (b : Bool)
  /-- An integer is too long to be written. -/
  | integerTooLong
  /-- An allowable value has a character that a value list cannot carry. -/
  | unsafeValue (s : String)
  /-- An allowable value is a text that reads as a number. -/
  | numericValue (s : String)
  /-- A metadata value holds a number that JSON does not have. Where the value would have been laid
  out over lines, the number is known. -/
  | badMetadata (key : String) (number : Option Binary64)
  /-- A metadata value holds an integer that is too long to be written. -/
  | overlongMetadata (key : String)
  /-- A description has more than one line. -/
  | longDescription (s : String)
  /-- A request has no timing. -/
  | untimedRequest (name : String)
  /-- The value of a repetition, as a message shows it, is no array. -/
  | notArray (shown : List Char)
  /-- What stands in the place of an argument is none. -/
  | notArgument
  /-- A value that has no text stands where texts are put together. -/
  | notText
deriving DecidableEq

namespace WriteError

/-- The wording of an error, for the causes that have one. -/
def message? : WriteError → Option String
  | .notFinite x => some ("Cannot serialize non-finite number " ++ String.ofList x.write)
  | .notNumber b => some ("Expected a number, got " ++ if b then "True" else "False")
  | .unsafeValue s =>
    some ("Allowable value " ++ Shown.string s ++ " cannot be written in a value list")
  | .numericValue s =>
    some ("Allowable value " ++ Shown.string s ++ " would read back as a number")
  | .badMetadata key number =>
    some ("Metadata " ++ Shown.string key
      ++ " is not JSON serializable: Out of range float values are not JSON compliant"
      ++ (number.map fun x => ": " ++ String.ofList x.write).getD "")
  | .overlongMetadata key =>
    some ("Metadata " ++ Shown.string key
      ++ " is not JSON serializable: Exceeds the limit ("
      ++ String.ofList (Decimal.ofNat Decimal.digitLimit)
      ++ " digits) for integer string conversion; "
      ++ "use sys.set_int_max_str_digits() to increase the limit")
  | .longDescription s => some ("Description cannot span lines: " ++ Shown.string s)
  | .untimedRequest name =>
    some ("Request " ++ Shown.string name ++ " has neither a time nor a ground epoch")
  | .notArray shown => some ("Repeat argument value is not an array: " ++ String.ofList shown)
  | .integerTooLong | .notArgument | .notText => none

end WriteError

end CommandSequence
