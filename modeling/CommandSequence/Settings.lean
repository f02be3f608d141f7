import CommandSequence.Character.Lowercase
import CommandSequence.Json.Writer
import CommandSequence.LenientText

/-!
# Settings

The settings of a conversion and of the command line, and their reading from environment variables,
whose names are the settings' names after a common prefix, in either case.
-/

namespace CommandSequence

/-- The settings, with their defaults. -/
structure Settings where
  /-- How much is reported in the course of a conversion. -/
  verbosity : Int := 0
  /-- Whether diagnostics of the grammar are wanted; they change no result. -/
  debugMode : Bool := false
  /-- Whether the time tags of a text are checked against the tag grammars. -/
  validateTimeTags : Bool := true
  /-- The greatest count of fraction digits in a calendar timestamp. -/
  decimalPrecision : Int := 6
  /-- The indentation of metadata in sequence text; zero puts each value on one line. -/
  metadataIndent : Int := 2
deriving DecidableEq, Repr

namespace Settings

/-- The layout of metadata values in sequence text. -/
def indent (s : Settings) : Json.Indent :=
  if s.metadataIndent = 0 then none else some s.metadataIndent.toNat

/-- What the name of every environment variable begins with, in lower case. -/
def variablePrefix : String := "seqn_"

/-- The names of the settings. -/
def names : List String :=
  ["verbosity", "debug_mode", "validate_time_tags", "decimal_precision", "metadata_indent"]

/-- The value of the last variable of a setting's name. -/
def valueOf? (environment : List (String × String)) (name : String) : Option String :=
  (environment.reverse.find? fun (variableName, _) =>
    String.ofList (Character.lowercase variableName.toList) == variablePrefix ++ name).map (·.2)

/-- The outcome of reading one setting: its value, or the issue found with it. -/
def setting {α : Type} (environment : List (String × String)) (name : String) (default : α)
    (read : List Char → Except IssueCause α) : Except Issue α :=
  match valueOf? environment name with
  | none => .ok default
  | some value => match read value.toList with
    | .ok a => .ok a
    | .error cause => .error ⟨[.field name], cause⟩

/-- An integer of at least a bound. -/
def readAtLeast (bound : Int) (text : List Char) : Except IssueCause Int := do
  let n ← LenientText.readInt text
  if n < bound then throw (.below bound) else return n

/-- The issue of an outcome. -/
def issueOf {α : Type} : Except Issue α → List Issue
  | .ok _ => []
  | .error issue => [issue]

/-- The settings that an environment gives, or everything that is wrong with it. -/
def ofEnvironment (environment : List (String × String)) : Except (List Issue) Settings :=
  let default : Settings := {}
  let verbosity := setting environment "verbosity" default.verbosity LenientText.readInt
  let debugMode := setting environment "debug_mode" default.debugMode LenientText.readBool
  let validate := setting environment "validate_time_tags" default.validateTimeTags
    LenientText.readBool
  let precision := setting environment "decimal_precision" default.decimalPrecision (readAtLeast 1)
  let indent := setting environment "metadata_indent" default.metadataIndent (readAtLeast 0)
  match verbosity, debugMode, validate, precision, indent with
  | .ok verbosity, .ok debugMode, .ok validate, .ok precision, .ok indent =>
    .ok ⟨verbosity, debugMode, validate, precision, indent⟩
  | _, _, _, _, _ => .error (issueOf verbosity ++ issueOf debugMode ++ issueOf validate
      ++ issueOf precision ++ issueOf indent)

end Settings

end CommandSequence
