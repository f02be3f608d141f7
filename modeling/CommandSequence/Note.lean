import CommandSequence.Document.OfText
import CommandSequence.Files.Path
import CommandSequence.LooseArgument
import CommandSequence.Settings
import CommandSequence.Text.Lines
import CommandSequence.Time.Balance

/-!
# Notes on the course of a conversion

What a conversion reports while it runs. Each note has the verbosity from which on it is shown. The
notes of an operation are derived from its input beside its result, so that the operation itself
knows nothing of them.
-/

namespace CommandSequence

/-- The two ways of converting a file. -/
inductive Direction where
  /-- from sequence text to JSON -/
  | compile
  /-- from JSON to sequence text -/
  | decompile
deriving DecidableEq, Repr

/-- The name of a direction. -/
def Direction.name : Direction → String
  | .compile => "compile"
  | .decompile => "decompile"

/-- A note on the course of a conversion. -/
inductive Note where
  /-- A text has been read into an outline of so many items. -/
  | outlined (items : Nat)
  /-- A document has been made, with so many steps. -/
  | described (id : String) (steps : Nat)
  /-- A document has been written, on so many lines. -/
  | written (id : String) (lines : Nat)
  /-- A duration is being rebalanced by way of a timestamp. -/
  | balancing (text anchored : List Char)
  /-- Something has been left out. -/
  | skipped (warning : LooseArgument.Warning)
  | checking
  | input (path : Path)
  | output (path : Path)
  | reading
  /-- So many characters have been read from the file of a name. -/
  | read (characters : Nat) (name : List Char)
  | converting (direction : Direction)
  /-- So many characters have been written. -/
  | wrote (characters : Nat) (path : Path)
  | succeeded
  | sequence (id : String)
  | steps (count : Nat)
  | requests (count : Nat)
  | target (path : Path)

namespace Note

/-- The verbosity from which on a note is shown; a warning is always shown. -/
def level? : Note → Option Int
  | .reading | .converting _ | .succeeded | .sequence _ | .steps _ | .requests _ | .target _ =>
    some 1
  | .outlined _ | .described .. | .written .. | .checking | .input _ | .output _ | .read ..
  | .wrote .. => some 2
  | .balancing .. => some 3
  | .skipped _ => none

/-- The wording of a note. -/
def message : Note → String
  | .outlined items => "Parsed " ++ toString items ++ " top-level nodes"
  | .described id count =>
    "Extracted document " ++ Shown.string id ++ " with " ++ toString count ++ " steps"
  | .written id lines =>
    "Serialized document " ++ Shown.string id ++ " to " ++ toString lines ++ " lines"
  | .balancing text anchored => "Balancing " ++ String.ofList (Shown.quote text) ++ " via "
      ++ String.ofList (Shown.quote anchored)
  | .skipped warning => warning.message
  | .checking => "Checking environment..."
  | .input path => "Input file: " ++ String.ofList path.toText
  | .output path => "Output file: " ++ String.ofList path.toText
  | .reading => "Reading source file..."
  | .read characters name =>
    "Read " ++ toString characters ++ " characters from " ++ String.ofList name
  | .converting direction => "Converting (" ++ direction.name ++ ")..."
  | .wrote characters path =>
    "Wrote " ++ toString characters ++ " characters to " ++ String.ofList path.toText
  | .succeeded => "✓ Conversion successful!"
  | .sequence id => "  Sequence: " ++ id
  | .steps count => "  Steps:    " ++ toString count
  | .requests count => "  Requests: " ++ toString count
  | .target path => "  Output:   " ++ String.ofList path.toText

/-- Whether a note is shown at a verbosity. -/
def isShown (verbosity : Int) (n : Note) : Bool :=
  match n.level? with
  | some level => level ≤ verbosity
  | none => true

/-! ## The notes of operations -/

/-- The notes on reading a text into an outline. -/
def ofOutline (text : List Char) : List Note :=
  match Source.Outline.read text with
  | .ok outline => [.outlined outline.items.length]
  | .error _ => []

/-- The notes on reading a text into a document. -/
def ofText (validate : Bool) (text : List Char) : List Note :=
  ofOutline text ++ match Document.ofText validate text with
    | .ok d => [.described d.id d.steps.length]
    | .error _ => []

/-- The notes on writing a document. -/
def ofWriting (indent : Json.Indent) (d : Document) : List Note :=
  match d.write indent with
  | .ok text => [.written d.id (Lines.count text)]
  | .error _ => []

/-- The notes on rebalancing a duration. -/
def ofBalancing (places : Int) (text : List Char) : List Note :=
  match (balance places text).anchored with
  | some anchored => [.balancing text anchored]
  | none => []

end Note

end CommandSequence
