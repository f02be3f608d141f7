import CommandSequence.Document.Basic
import CommandSequence.Document.WriteError
import CommandSequence.Number.Basic
import CommandSequence.Text.Quoted

/-!
# Documents as sequence text

The text of a document has one layout: the identifier, declarations and metadata; the load-and-go
directive, the steps, the sections and the requests, each after a blank line. A step's own
directives follow its line, the engine and epoch before metadata and these before models. The same
document always has the same text.
-/

namespace CommandSequence

/-- The text of a number, which must be finite. -/
def Number.literal : Number → Except WriteError (List Char)
  | .int n => if Decimal.writable n then .ok (Decimal.ofInt n) else .error .integerTooLong
  | .float x => if x.isFinite then .ok x.write else .error (.notFinite x)

namespace ToText

/-- A quoted string. -/
def quoted (s : String) : List Char :=
  Quoted.encode s.toList

/-- A keyword or other fixed piece of text. -/
def fixed (s : String) : List Char :=
  s.toList

/-- Pieces joined by a separator. -/
def joined (separator : List Char) (pieces : List (List Char)) : List Char :=
  separator.intercalate pieces

/-- The truth values. -/
def boolean : Bool → List Char
  | true => fixed "true"
  | false => fixed "false"

/-- The end of a line: its description, unless that is empty, and the line feed. -/
def ending (description : Option String) : Except WriteError (List Char) :=
  match description with
  | none => .ok ['\n']
  | some s =>
    if s.isEmpty then .ok ['\n']
    else if s.toList.contains '\n' || s.toList.contains '\r' then .error (.longDescription s)
    else .ok ((' ' : Char) :: ('#' : Char) :: (' ' : Char) :: (s.toList ++ [('\n' : Char)]))

end ToText

open ToText (quoted fixed joined)

/-! ## Metadata and models -/

/-- The line, or lines, of a metadata entry. -/
def Metadata.writeEntry (indent : Json.Indent) (key : String) (value : Json.Value) :
    Except WriteError (List Char) :=
  match value.unwritable with
  | [] =>
    .ok (fixed "@METADATA " ++ quoted key ++ (' ' : Char) :: value.write indent ++ [('\n' : Char)])
  | .int _ :: _ => .error (.overlongMetadata key)
  | .float x :: _ => .error (.badMetadata key (indent.map fun _ => x))

/-- The lines of metadata. -/
def Metadata.write (indent : Json.Indent) (m : Metadata) : Except WriteError (List Char) := do
  return (← m.mapM fun (key, value) => Metadata.writeEntry indent key value).flatten

/-- The value of a model. -/
def ModelValue.write : ModelValue → Except WriteError (List Char)
  | .boolean b => .ok (ToText.boolean b)
  | .string s => .ok (quoted s)
  | .number n => n.literal

/-- The line of a model. -/
def Model.write (m : Model) : Except WriteError (List Char) := do
  return fixed "@MODEL " ++ quoted m.variableName ++ (' ' : Char) :: (← m.value.write)
    ++ (' ' : Char) :: quoted m.offset ++ [('\n' : Char)]

/-! ## Arguments -/

/-- A single argument. -/
def BaseArgument.write : BaseArgument → Except WriteError (List Char)
  | .string s _ => .ok (quoted s)
  | .number n _ => n.literal
  | .boolean b _ => .ok (ToText.boolean b)
  | .symbol s _ | .hex s _ => .ok s.toList

/-- An argument. The sets of a repetition become one bracketed group. -/
def Argument.write : Argument → Except WriteError (List Char)
  | .base a => a.write
  | .repetition sets _ => do
    return ('[' : Char) :: (joined [' '] (← sets.flatten.mapM BaseArgument.write) ++ [(']' : Char)])

/-- Arguments, each after a blank. -/
def Argument.writeAll (arguments : List Argument) : Except WriteError (List Char) := do
  return ((← arguments.mapM Argument.write).map ((' ' : Char) :: ·)).flatten

/-! ## Steps and requests -/

/-- A time: its letter and its tag. -/
def Time.write : Time → List Char
  | .absolute tag => 'A' :: (tag.getD "").toList
  | .commandComplete => ['C']
  | .commandRelative tag => 'R' :: (tag.getD "").toList
  | .epochRelative tag => 'E' :: (tag.getD "").toList

/-- The keyword of a kind of call. -/
def CallKind.keyword : CallKind → String
  | .activate => "@ACTIVATE"
  | .load => "@LOAD"

/-- The keyword of a kind of ground activity. -/
def GroundKind.keyword : GroundKind → String
  | .block => "@GROUND_BLOCK"
  | .event => "@GROUND_EVENT"

/-- What a step does, as the step's line has it. -/
def Action.write : Action → List Char
  | .command stem => stem.toList
  | .call kind sequence _ _ =>
    fixed kind.keyword ++ ('(' : Char) :: quoted sequence ++ [(')' : Char)]
  | .ground kind name => fixed kind.keyword ++ ('(' : Char) :: quoted name ++ [(')' : Char)]

/-- The lines of an engine and an epoch. -/
def Action.writeDirectives : Action → Except WriteError (List Char)
  | .call _ _ engine epoch => do
    let engineLine ← match engine with
      | some n => (Number.int n).literal.map fun text => fixed "@ENGINE " ++ text ++ [('\n' : Char)]
      | none => .ok []
    let epochLine := match epoch with
      | some name => fixed "@EPOCH " ++ quoted name ++ [('\n' : Char)]
      | none => []
    return engineLine ++ epochLine
  | _ => .ok []

/-- The lines of a step. -/
def Step.write (indent : Json.Indent) (s : Step) : Except WriteError (List Char) := do
  let directives ← s.action.writeDirectives
  let arguments ← Argument.writeAll s.arguments
  let ending ← ToText.ending s.description
  let metadata ← s.metadata.write indent
  let models ← s.models.mapM Model.write
  return s.time.write ++ (' ' : Char) :: s.action.write ++ arguments ++ ending ++
    directives ++ metadata ++ models.flatten

/-- The timing of a request: its time, or else its ground epoch. -/
def Request.writeTiming (r : Request) : Except WriteError (List Char) :=
  match r.time, r.groundEpoch with
  | some time, _ => .ok time.write
  | none, some epoch =>
    .ok (('G' : Char) :: (epoch.delta.getD "").toList ++ (' ' : Char) ::
      quoted (epoch.name.getD ""))
  | none, none => .error (.untimedRequest r.name)

/-- The lines of a request. -/
def Request.write (indent : Json.Indent) (r : Request) : Except WriteError (List Char) := do
  let timing ← r.writeTiming
  let ending ← ToText.ending r.description
  let steps ← r.steps.mapM (Step.write indent)
  let metadata ← r.metadata.write indent
  return timing ++ fixed " @REQUEST_BEGIN(" ++ quoted r.name ++ (')' : Char) :: ending ++
    steps.flatten ++ fixed "@REQUEST_END\n" ++ metadata

/-! ## Sections -/

/-- The lines of an immediate command. -/
def ImmediateCommand.write (indent : Json.Indent) (c : ImmediateCommand) :
    Except WriteError (List Char) := do
  let arguments ← Argument.writeAll c.arguments
  let ending ← ToText.ending c.description
  return c.stem.toList ++ arguments ++ ending ++ (← c.metadata.write indent)

/-- The lines of a hardware command. -/
def HardwareCommand.write (indent : Json.Indent) (c : HardwareCommand) :
    Except WriteError (List Char) := do
  let ending ← ToText.ending c.description
  return c.stem.toList ++ ending ++ (← c.metadata.write indent)

/-! ## Declarations -/

/-- A range. -/
def Range.write (r : Range) : Except WriteError (List Char) := do
  let min ← r.min.literal
  return min ++ fixed "..." ++ (← r.max.literal)

/-- The characters that an allowable value must not have. -/
def AllowableValue.isUnsafe (c : Char) : Bool :=
  c == ',' || c == '"' || c == '\\' || c == '\r' || c == '\n'

/-- An allowable value. A text is written bare, and only if it reads back as itself. -/
def AllowableValue.write : AllowableValue → Except WriteError (List Char)
  | .number n => n.literal
  | .text s =>
    if s.toList.any isUnsafe then .error (.unsafeValue s)
    else match Number.read? s.toList with
      | .error _ => .error .integerTooLong
      | .ok (some _) => .error (.numericValue s)
      | .ok none => .ok s.toList

/-- A list between quotes, after a blank. -/
def Declaration.writeList (pieces : List (List Char)) : List Char :=
  (' ' : Char) :: ('"' : Char) :: (joined [','] pieces ++ [('"' : Char)])

/-- The line of a declaration. An empty list of ranges stands before a list of values that would
otherwise read as ranges. -/
def Declaration.write (d : Declaration) : Except WriteError (List Char) := do
  let ranges ← d.ranges.mapM Range.write
  let values ← d.values.mapM AllowableValue.write
  let type := match d.type with
    | some type => ' ' :: type.keyword.toList
    | none => []
  let enumName := match d.enumName with
    | some name => (' ' : Char) :: name.toList
    | none => []
  return d.name.toList ++ type ++ enumName
    ++ (if ranges.isEmpty && values.isEmpty then [] else writeList ranges)
    ++ (if values.isEmpty then [] else writeList values) ++ [('\n' : Char)]

/-- The lines of a block of declarations, if it has any. -/
def Declaration.writeBlock (block : String) (declarations : List Declaration) :
    Except WriteError (List Char) := do
  let lines ← declarations.mapM Declaration.write
  if lines.isEmpty then return []
  else return ('@' : Char) :: fixed block ++ fixed "_BEGIN\n" ++ lines.flatten ++ ('@' : Char) ::
    fixed block ++ fixed "_END\n"

/-! ## The document -/

/-- A part of a document after its heading, if there is anything in it. -/
def Document.writePart (heading : String) (lines : List (List Char)) : List Char :=
  if lines.isEmpty then [] else fixed heading ++ lines.flatten

/-- The text of a document. -/
def Document.write (indent : Json.Indent) (d : Document) : Except WriteError (List Char) := do
  let parameters ← Declaration.writeBlock "INPUT_PARAMS" d.parameters
  let locals ← Declaration.writeBlock "LOCALS" d.locals
  let metadata ← Metadata.write indent (d.metadata.filter (·.1 != loadAndGoKey))
  let steps ← d.steps.mapM (Step.write indent)
  let immediate ← d.immediateCommands.mapM (ImmediateCommand.write indent)
  let hardware ← d.hardwareCommands.mapM (HardwareCommand.write indent)
  let requests ← d.requests.mapM (Request.write indent)
  return fixed "@ID " ++ quoted d.id ++ ('\n' : Char) :: parameters ++ locals ++ metadata
    ++ (if d.loadAndGo then fixed "\n@LOAD_AND_GO" else [])
    ++ writePart "\n" steps ++ writePart "\n@IMMEDIATE\n" immediate
    ++ writePart "\n@HARDWARE\n" hardware ++ (requests.map (('\n' : Char) :: ·)).flatten

end CommandSequence
