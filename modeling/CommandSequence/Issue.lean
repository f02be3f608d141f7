import CommandSequence.Text.Shown

/-!
# Issues found in data

Data that does not fit its declared shape is reported as a list of issues, each with the path to the
place it concerns and its cause. `IssueCause.message?` is the wording of a cause.
-/

namespace CommandSequence

/-- A step of the path to a place in structured data. -/
inductive PathStep where
  | field (name : String)
  | index (n : Nat)
deriving DecidableEq, Repr

/-- What is wrong at a place. -/
inductive IssueCause where
  | malformed
  | missing
  | unexpected
  | notString
  /-- A string holds half of a surrogate pair. -/
  | notUnicode
  | emptyString
  | patternMismatch (pattern : String)
  | notDictionary
  | notRecord
  | notArray
  | emptyArray
  | emptyDictionary
  | notBoolean
  | notInteger
  | notFloat
  | fractionalInteger
  | infiniteInteger
  | oversizedInteger
  | unreadableInteger
  | unreadableBoolean
  | below (bound : Int)
  | notChoice (choices : List String)
  | noVariant
  | unknownVariant (given : String) (expected : List String)
  | rejected (reason : String)
deriving DecidableEq, Repr

namespace IssueCause

/-- Whether the cause is that something is empty. -/
def isEmptiness : IssueCause → Bool
  | .emptyArray | .emptyDictionary => true
  | _ => false

/-- The choices of a literal in words. -/
def choicesText (choices : List String) : String :=
  match choices.map Shown.string |>.reverse with
  | [] => ""
  | [only] => only
  | last :: before => String.intercalate ", " before.reverse ++ " or " ++ last

/-- The wording of a cause. A text that is not JSON has a wording that depends on where it breaks
off, which is not reported. -/
def message? : IssueCause → Option String
  | .malformed => none
  | .missing => some "Field required"
  | .unexpected => some "Extra inputs are not permitted"
  | .notString => some "Input should be a valid string"
  | .notUnicode =>
    some "Input should be a valid string, unable to parse raw data as a unicode string"
  | .emptyString => some "String should have at least 1 character"
  | .patternMismatch pattern => some ("String should match pattern '" ++ pattern ++ "'")
  | .notDictionary | .notRecord => some "Input should be an object"
  | .notArray => some "Input should be a valid array"
  | .emptyArray => some "Tuple should have at least 1 item after validation, not 0"
  | .emptyDictionary => some "Dictionary should have at least 1 item after validation, not 0"
  | .notBoolean => some "Input should be a valid boolean"
  | .notInteger => some "Input should be a valid integer"
  | .notFloat => some "Input should be a valid number"
  | .fractionalInteger =>
    some "Input should be a valid integer, got a number with a fractional part"
  | .infiniteInteger => some "Input should be a finite number"
  | .oversizedInteger =>
    some "Unable to parse input string as an integer, exceeded maximum size"
  | .unreadableInteger =>
    some "Input should be a valid integer, unable to parse string as an integer"
  | .unreadableBoolean => some "Input should be a valid boolean, unable to interpret input"
  | .below bound => some ("Input should be greater than or equal to " ++ toString bound)
  | .notChoice choices => some ("Input should be " ++ choicesText choices)
  | .noVariant => some "Unable to extract tag using discriminator 'type'"
  | .unknownVariant given expected =>
    some ("Input tag '" ++ given ++ "' found using 'type' does not match any of the expected tags: "
      ++ String.intercalate ", " (expected.map Shown.string))
  | .rejected reason => some ("Value error, " ++ reason)

end IssueCause

/-- One thing that is wrong with data. -/
structure Issue where
  path : List PathStep
  cause : IssueCause
deriving DecidableEq, Repr

namespace Issue

/-- The issue as seen from the place that a step leads from. -/
def under (step : PathStep) (i : Issue) : Issue :=
  { i with path := step :: i.path }

/-- An array whose items are all faulty is itself reported as empty. Such an echo is dropped in
favour of the issues of its items. -/
def isEcho (issues : List Issue) (i : Issue) : Bool :=
  i.cause.isEmptiness && issues.any fun other =>
    i.path.length < other.path.length && i.path.isPrefixOf other.path

/-- The issues without echoes. -/
def withoutEchoes (issues : List Issue) : List Issue :=
  issues.filter fun i => !isEcho issues i

/-- The count of issues, echoes included, in the data of a named record. -/
def summary (record : String) (issues : List Issue) : String :=
  toString issues.length ++ " validation error" ++ (if issues.length = 1 then "" else "s")
    ++ " for " ++ record

end Issue

end CommandSequence
