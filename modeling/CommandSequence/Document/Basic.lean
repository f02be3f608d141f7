import CommandSequence.Json.Value
import CommandSequence.Text.Shown
import CommandSequence.Time.Tag

/-!
# Sequence documents

A document is a command sequence: declarations, time-tagged steps, out-of-band commands and
requests. An optional group that is absent is an empty list, so that absent and empty are the same
thing. Metadata are JSON values under keys in the order of their first writing; the key `lgo` of the
document's own metadata carries the load-and-go flag.
-/

namespace CommandSequence

/-- Metadata: JSON values under keys. -/
abbrev Metadata := Dictionary Json.Value

/-- When something happens: at an absolute time, when the previous command completes, or at an
offset from the previous command or from the sequence's epoch. A tag that is missing leaves the time
open. -/
inductive Time where
  | absolute (tag : Option String)
  | commandComplete
  | commandRelative (tag : Option String)
  | epochRelative (tag : Option String)
deriving DecidableEq

/-- An argument that is not a group, with the name that it may have. A hexadecimal literal is kept
as written. -/
inductive BaseArgument where
  | string (value : String) (name : Option String)
  | number (value : Number) (name : Option String)
  | boolean (value : Bool) (name : Option String)
  | symbol (value : String) (name : Option String)
  | hex (value : String) (name : Option String)
deriving DecidableEq

/-- Why a number argument is refused that is infinite or NaN. -/
def BaseArgument.finiteReason : String := "number arguments must be finite"

/-- An argument: a single one, or a repetition of argument sets. -/
inductive Argument where
  | base (argument : BaseArgument)
  | repetition (sets : List (List BaseArgument)) (name : Option String)
deriving DecidableEq

/-- The value that a model directive sets. -/
inductive ModelValue where
  | boolean (b : Bool)
  | number (n : Number)
  | string (s : String)
deriving DecidableEq

/-- A modelled variable set to a value at an offset. -/
structure Model where
  variableName : String
  value : ModelValue
  offset : String
deriving DecidableEq

/-- The two ways of starting another sequence. -/
inductive CallKind where
  | activate
  | load
deriving DecidableEq, Repr

/-- The two kinds of ground activity. -/
inductive GroundKind where
  | block
  | event
deriving DecidableEq, Repr

/-- What a step does. -/
inductive Action where
  | command (stem : String)
  | call (kind : CallKind) (sequence : String) (engine : Option Int) (epoch : Option String)
  | ground (kind : GroundKind) (name : String)
deriving DecidableEq

/-- A time-tagged step. -/
structure Step where
  time : Time
  action : Action
  arguments : List Argument
  description : Option String
  metadata : Metadata
  models : List Model

/-- The timing of a request by a ground epoch: its name and an offset from it. -/
structure GroundEpoch where
  name : Option String
  delta : Option String
deriving DecidableEq

/-- A named block of steps. If it has both a time and a ground epoch, the time counts. -/
structure Request where
  name : String
  steps : List Step
  time : Option Time
  groundEpoch : Option GroundEpoch
  description : Option String
  metadata : Metadata

/-- A command that is executed immediately. -/
structure ImmediateCommand where
  stem : String
  arguments : List Argument
  description : Option String
  metadata : Metadata

/-- A command to the hardware, which has no arguments. -/
structure HardwareCommand where
  stem : String
  description : Option String
  metadata : Metadata

/-- A range of allowable values, both ends included. -/
structure Range where
  min : Number
  max : Number
deriving DecidableEq

/-- The types of variables. -/
inductive VariableType where
  | float
  | int
  | string
  | uint
  | enumeration
deriving DecidableEq, Repr

namespace VariableType

/-- Every type. -/
def all : List VariableType := [.float, .int, .string, .uint, .enumeration]

/-- The keyword of a type. -/
def keyword : VariableType → String
  | .float => "FLOAT"
  | .int => "INT"
  | .string => "STRING"
  | .uint => "UINT"
  | .enumeration => "ENUM"

/-- The type of a keyword. -/
def ofKeyword? (word : String) : Option VariableType :=
  all.find? (·.keyword == word)

end VariableType

/-- A discrete allowable value. -/
inductive AllowableValue where
  | number (n : Number)
  | text (s : String)
deriving DecidableEq

/-- A declared variable. -/
structure Declaration where
  name : String
  type : Option VariableType
  enumName : Option String
  ranges : List Range
  values : List AllowableValue
deriving DecidableEq

/-- A command sequence. -/
structure Document where
  id : String
  metadata : Metadata
  parameters : List Declaration
  locals : List Declaration
  steps : List Step
  immediateCommands : List ImmediateCommand
  hardwareCommands : List HardwareCommand
  requests : List Request

namespace Document

/-- The metadata key of the load-and-go flag. -/
def loadAndGoKey : String := "lgo"

/-- Whether the sequence runs as soon as it is loaded. -/
def loadAndGo (d : Document) : Bool :=
  (d.metadata.get? loadAndGoKey).any Json.Value.truthy

end Document

/-- The pattern of identifiers, as reports show it. -/
def identifierPattern : String := "^[A-Za-z_][A-Za-z0-9_]*$"

/-- Whether a text is an identifier. -/
def isIdentifier (text : List Char) : Bool :=
  match text with
  | c :: rest => Character.isWordStart c && rest.all Character.isWord
  | [] => false

/-- The pattern of hexadecimal literals, as reports show it. -/
def hexPattern : String := "^0[xX][0-9A-Fa-f]+$"

/-- Whether a text is a hexadecimal literal. -/
def isHexLiteral (text : List Char) : Bool :=
  match text with
  | '0' :: x :: digits =>
    (x == 'x' || x == 'X') && !digits.isEmpty
      && digits.all fun c => (Character.hexValue? c).isSome
  | _ => false

/-- The words of the truth values. -/
def truthWords : List String := ["true", "false"]

/-- Why a word is refused as a symbol. -/
def truthWordReason (word : String) : String :=
  Shown.string word ++ " is a boolean literal, use a boolean argument"

/-- Whether a section command of this stem would be read as a request's time tag: `C` alone, or one
of the letters `A`, `R`, `E`, `G` alone or before a digit and further digits or `T`s. One line feed
may follow. -/
def readsAsTimeTag (stem : List Char) : Bool :=
  match stem with
  | letter :: rest =>
    let bare := Number.dropFinalNewline rest
    if letter == 'C' then bare.isEmpty
    else if (['A', 'R', 'E', 'G'] : List Char).contains letter then
      match bare with
      | [] => true
      | c :: more => Character.isAsciiDigit c
          && more.all fun c => Character.isAsciiDigit c || c == 'T'
    else false
  | [] => false

/-- Why a stem is refused in a section. -/
def timeTagReason (stem : String) : String :=
  "stem " ++ Shown.string stem ++ " reads as a time tag at the start of a section line"

end CommandSequence
