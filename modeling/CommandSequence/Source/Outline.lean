import CommandSequence.Source.Line
import CommandSequence.Text.Lines

/-!
# The outline of a text

Lines belong together: directives to the step above them, steps to the request around them, metadata
to the request or command above it, declarations and commands to their block or section. The outline
is built from the last line to the first, so that each line finds what belongs to it already
collected.
-/

namespace CommandSequence.Source

/-- A step with the directives below it. -/
structure StepItem where
  line : StepLine
  directives : List Directive

/-- A request with its steps and the metadata below it. -/
structure RequestItem where
  line : RequestLine
  steps : List StepItem
  metadata : List MetadataLine

/-- A command of a section with the metadata below it. -/
structure CommandItem where
  line : CommandLine
  metadata : List MetadataLine

/-- A top-level construct of a text. -/
inductive Item where
  | comment (text : Token)
  | id (position : Position) (name : Token)
  | loadAndGo (position : Position)
  | metadata (line : MetadataLine)
  | block (position : Position) (block : Block) (declarations : List DeclarationItem)
  | step (step : StepItem)
  | request (request : RequestItem)
  | section (position : Position) (kind : Section) (commands : List CommandItem)

namespace Outline

/-- What has been collected, from the end of the text, and waits for the line that it belongs to. -/
structure Pending where
  /-- directives below the line being looked for -/
  directives : List Directive := []
  /-- the metadata below the end of the request being looked at, inside one -/
  requestMetadata : Option (List MetadataLine) := none
  /-- the steps of that request -/
  steps : List StepItem := []
  declarations : List DeclarationItem := []
  commands : List CommandItem := []
  items : List Item := []

/-- The metadata among directives. -/
def metadataOf (directives : List Directive) : List MetadataLine :=
  directives.filterMap fun
    | .metadata line => some line
    | _ => none

namespace Pending

/-- The collection with one more top-level item in front. -/
def addItem (p : Pending) (item : Item) : Pending :=
  { p with items := item :: p.items }

/-- The collection after the line above it. -/
def add (line : Line) (p : Pending) : Pending :=
  match line with
  | .blank => p
  | .comment text => p.addItem (.comment text)
  | .id position name => p.addItem (.id position name)
  | .loadAndGo position => p.addItem (.loadAndGo position)
  | .metadata line => p.addItem (.metadata line)
  | .declaration item => { p with declarations := item :: p.declarations }
  | .blockBegin position block =>
    { p with declarations := [] }.addItem (.block position block p.declarations)
  | .blockEnd _ => { p with declarations := [] }
  | .directive d => { p with directives := d :: p.directives }
  | .step line =>
    let step : StepItem := ⟨line, p.directives⟩
    match p.requestMetadata with
    | some _ => { p with directives := [], steps := step :: p.steps }
    | none => { p with directives := [] }.addItem (.step step)
  | .requestEnd =>
    { p with directives := [], steps := [], requestMetadata := some (metadataOf p.directives) }
  | .requestBegin line =>
    { p with directives := [], steps := [], requestMetadata := none }.addItem
      (.request ⟨line, p.steps, p.requestMetadata.getD []⟩)
  | .command _ line =>
    { p with directives := [], commands := ⟨line, metadataOf p.directives⟩ :: p.commands }
  | .sectionBegin position kind =>
    { p with commands := [] }.addItem (.section position kind p.commands)

end Pending

/-- The items that lines make up. -/
def ofLines (lines : List Line) : List Item :=
  (lines.foldr Pending.add {}).items

end Outline

/-- A text read as a whole: its items, and where its first token stands. -/
structure Outline where
  items : List Item
  position : Position

namespace Outline

/-- The outline of a text, to which a final line feed is added if it has none. -/
def read (text : List Char) : Except SyntaxError Outline := do
  let terminated := Lines.terminate text
  return ⟨ofLines (← readLines terminated), (Cursor.ofText terminated).skipBlanks.position⟩

end Outline

end CommandSequence.Source
