import CommandSequence.Document.Basic
import CommandSequence.Issue
import CommandSequence.Source.Line
import CommandSequence.Time.Tag

/-!
# What keeps data from being a document

A text of the right grammar, or a JSON value, can still fail to describe a document. `FaultCause`
has one constructor for each cause and `Fault.message` its wording.
-/

namespace CommandSequence

/-- The directives that only steps which start another sequence may have. -/
inductive CallDirective where
  | engine
  | epoch
deriving DecidableEq, Repr

/-- The keyword of a directive. -/
def CallDirective.keyword : CallDirective → String
  | .engine => "@ENGINE"
  | .epoch => "@EPOCH"

/-- Why something does not describe a document. -/
inductive FaultCause where
  /-- A quoted token is not a string. -/
  | badString (token : List Char)
  /-- An integer literal is too long to be read. -/
  | integerTooLong
  /-- A time tag satisfies none of the grammars of its letter. -/
  | badTimeTag (token : List Char) (grammars : List TagGrammar)
  /-- An engine is not an integer. -/
  | badEngine (x : Binary64)
  /-- A directive stands at a step that starts no other sequence. -/
  | misplacedDirective (directive : CallDirective)
  /-- A directive is repeated. -/
  | repeatedDirective (directive : CallDirective)
  /-- A block declares nothing. -/
  | emptyBlock (block : Source.Block)
  /-- A section holds no command. -/
  | emptySection (kind : Source.Section)
  /-- A declaration names a type that there is not. -/
  | unknownType (word : List Char) (name : String)
  /-- A part of a range list is no range. -/
  | badRange (part : List Char)
  /-- A request has no steps. -/
  | emptyRequest (name : String)
  /-- A text names no sequence. -/
  | missingId
  /-- The data of a record do not fit its shape. -/
  | badRecord (subject record : String) (issues : List Issue)
deriving DecidableEq

namespace FaultCause

/-- The name of a block in messages. -/
def blockName : Source.Block → String
  | .parameters => "@INPUT_PARAMS"
  | .locals => "@LOCALS"

/-- The keyword of a section. -/
def sectionName : Source.Section → String
  | .immediate => "@IMMEDIATE"
  | .hardware => "@HARDWARE"

/-- The path to a place as a message shows it. -/
def pathText (path : List PathStep) : String :=
  String.intercalate "." (path.map fun
    | .field name => name
    | .index n => toString n)

/-- The lines of an issue in a message. -/
def issueText (i : Issue) : String :=
  "\n" ++ pathText i.path ++ "\n  " ++ i.cause.message?.getD "Invalid JSON"

/-- The wording of a cause. -/
def message : FaultCause → String
  | .badString token => "Invalid string literal " ++ String.ofList token
  | .integerTooLong => "Integer literal has more than " ++ toString Decimal.digitLimit ++ " digits"
  | .badTimeTag token grammars => "Invalid time tag " ++ String.ofList (Shown.quote token)
      ++ ", expected " ++ String.intercalate " or " (grammars.map TagGrammar.name)
  | .badEngine x => "@ENGINE expects an integer, got " ++ String.ofList x.write
  | .misplacedDirective directive =>
    directive.keyword ++ " only applies to @ACTIVATE and @LOAD steps"
  | .repeatedDirective directive => "Duplicate " ++ directive.keyword ++ " directive"
  | .emptyBlock block => blockName block ++ " block declares no variables"
  | .emptySection kind => sectionName kind ++ " section contains no commands"
  | .unknownType word name => "Unknown variable type " ++ String.ofList (Shown.quote word)
      ++ " for " ++ Shown.string name
  | .badRange part => "Malformed allowable range " ++ String.ofList (Shown.quote part)
      ++ ", expected min...max"
  | .emptyRequest name => "Request " ++ Shown.string name ++ " contains no steps"
  | .missingId => "Missing @ID directive"
  | .badRecord subject record issues =>
    "Invalid " ++ subject ++ ": " ++ Issue.summary record issues
      ++ String.join (issues.map issueText)

end FaultCause

/-- A fault: its cause and, if it is known, where it is in the text. -/
structure Fault where
  cause : FaultCause
  position : Option Source.Position
deriving DecidableEq

namespace Fault

/-- A fault at a place. -/
def located (position : Source.Position) (cause : FaultCause) : Fault :=
  ⟨cause, some position⟩

/-- The wording of a fault. -/
def message (f : Fault) : String :=
  f.cause.message ++ match f.position with
    | some p => " (line " ++ toString p.line ++ ", column " ++ toString p.column ++ ")"
    | none => ""

end Fault

end CommandSequence
