import CommandSequence.Document.Fault
import CommandSequence.Json.Reader
import CommandSequence.Json.Shape
import CommandSequence.LenientText

/-!
# Documents from JSON

The shape of every record of a document. All issues of a value are reported, in the order of the
fields and items, and a document is read only if there is none.
-/

namespace CommandSequence

open Json (Value Checked Shape Members)
open Json.Shape (required withDefault optional group record variants)

/-! ## Identifiers and metadata -/

/-- An identifier. -/
def Json.Shape.identifier : Shape String :=
  Json.Shape.matching identifierPattern isIdentifier

/-- Metadata, which may be empty. -/
def Metadata.shape : Shape Metadata
  | .object members => .pass members
  | _ => .fail .notDictionary

/-- Metadata that are not empty. -/
def Metadata.filledShape : Shape Metadata := fun v =>
  (Metadata.shape v).refine fun m => if m.isEmpty then .fail .emptyDictionary else .pass m

/-- The metadata of a record that may have none. -/
def Metadata.ofMembers (members : Members) : Checked Metadata :=
  (optional members "metadata" Metadata.filledShape).refine fun m => .pass (m.getD [])

/-! ## Times -/

namespace Time

/-- A time with a tag. -/
def taggedShape (build : Option String → Time) : Shape Time :=
  record ["type", "tag"] fun members =>
    build <$> optional members "tag" Json.Shape.nonEmptyString

/-- A time. -/
def shape : Shape Time := variants [
  ("ABSOLUTE", taggedShape .absolute),
  ("COMMAND_COMPLETE", record ["type"] fun _ => .pass .commandComplete),
  ("COMMAND_RELATIVE", taggedShape .commandRelative),
  ("EPOCH_RELATIVE", taggedShape .epochRelative)]

end Time

/-! ## Arguments -/

namespace BaseArgument

/-- A finite number. -/
def finiteNumber : Shape Number := fun v =>
  (Json.Shape.number v).refine fun n =>
    if n.isFinite then .pass n else .fail (.rejected finiteReason)

/-- An identifier that is no word of a truth value. -/
def symbolWord : Shape String := fun v =>
  (Json.Shape.identifier v).refine fun s =>
    if truthWords.contains s then .fail (.rejected (truthWordReason s)) else .pass s

/-- An argument with a value of a shape. -/
def ofValue {α : Type} (build : α → Option String → BaseArgument) (shape : Shape α) :
    Shape BaseArgument :=
  record ["type", "value", "name"] fun members =>
    build <$> required members "value" shape <*> optional members "name" Json.Shape.string

/-- The kinds of single arguments. -/
def shapes : List (String × Shape BaseArgument) := [
  ("string", ofValue .string Json.Shape.string),
  ("number", ofValue .number finiteNumber),
  ("boolean", ofValue .boolean Json.Shape.boolean),
  ("symbol", ofValue .symbol symbolWord),
  ("hex", ofValue .hex (Json.Shape.matching hexPattern isHexLiteral))]

/-- A single argument. -/
def shape : Shape BaseArgument := variants shapes

end BaseArgument

namespace Argument

/-- A repetition. -/
def repetitionShape : Shape Argument :=
  record ["type", "value", "name"] fun members =>
    .repetition
      <$> required members "value" (Json.Shape.array (Json.Shape.array BaseArgument.shape))
      <*> optional members "name" Json.Shape.string

/-- An argument. -/
def shape : Shape Argument :=
  variants ((BaseArgument.shapes.map fun (name, shape) => (name, fun v => .base <$> shape v))
    ++ [(("repeat" : String), repetitionShape)])

/-- The arguments of a record that may have an empty list of them. -/
def ofMembers (members : Members) : Checked (List Argument) :=
  withDefault members "args" [] (Json.Shape.array shape)

end Argument

/-! ## Steps -/

/-- What is wrong with a value that no model can have, reported once for each kind of value. -/
def ModelValue.issues : List Issue :=
  [⟨[.field "bool"], .notBoolean⟩] ++ Json.Shape.numberIssues ++ [⟨[.field "str"], .notString⟩]

/-- The value of a model. -/
def ModelValue.shape : Shape ModelValue
  | .boolean b => .pass (.boolean b)
  | .number n => .pass (.number n)
  | .string s => .pass (.string s)
  | _ => .error ModelValue.issues

/-- A model. -/
def Model.shape : Shape Model :=
  record ["variable", "value", "offset"] fun members =>
    Model.mk <$> required members "variable" Json.Shape.string
      <*> required members "value" ModelValue.shape
      <*> required members "offset" Json.Shape.string

/-- The bound of the floating-point numbers that are read as integers. -/
def integralBound : Nat := twoPow 63

/-- An integer, which may be given as a truth value, a floating-point number or a text. -/
def Json.Shape.lenientInt : Shape Int
  | .number (.int n) => .pass n
  | .boolean b => .pass (if b then 1 else 0)
  | .number (.float x) =>
    if !x.isFinite then .fail .infiniteInteger
    else match x.toInt? with
      | none => .fail .fractionalInteger
      | some n => if n.natAbs < integralBound then .pass n else .fail .oversizedInteger
  | .string s =>
    match LenientText.readInt s.toList with
    | .ok n => .pass n
    | .error cause => .fail cause
  | _ => .fail .notInteger

namespace Step

/-- The fields that every kind of step has. -/
def commonFields : List String := ["time", "description", "metadata", "models", "type"]

/-- A step from its action and arguments, the fields that every step has coming first. -/
def ofMembers (members : Members) (does : Checked (Action × List Argument)) : Checked Step :=
  (fun time description metadata models (action, arguments) =>
      Step.mk time action arguments description metadata models)
    <$> required members "time" Time.shape
    <*> optional members "description" Json.Shape.string
    <*> Metadata.ofMembers members
    <*> group members "models" Model.shape
    <*> does

/-- A command. -/
def commandShape : Shape Step :=
  record (commonFields ++ [("stem" : String), "args"]) fun members =>
    ofMembers members ((fun stem arguments => (.command stem, arguments))
      <$> required members "stem" Json.Shape.identifier
      <*> Argument.ofMembers members)

/-- A step that starts another sequence. -/
def callShape (kind : CallKind) : Shape Step :=
  record (commonFields ++ [("sequence" : String), "args", "engine", "epoch"]) fun members =>
    ofMembers members ((fun sequence arguments engine epoch =>
        (.call kind sequence engine epoch, arguments))
      <$> required members "sequence" Json.Shape.string
      <*> group members "args" Argument.shape
      <*> optional members "engine" Json.Shape.lenientInt
      <*> optional members "epoch" Json.Shape.string)

/-- A ground activity. -/
def groundShape (kind : GroundKind) : Shape Step :=
  record (commonFields ++ [("name" : String), "args"]) fun members =>
    ofMembers members ((fun name arguments => (.ground kind name, arguments))
      <$> required members "name" Json.Shape.string
      <*> group members "args" Argument.shape)

/-- A step. -/
def shape : Shape Step := variants [
  ("command", commandShape),
  ("activate", callShape .activate),
  ("load", callShape .load),
  ("ground_block", groundShape .block),
  ("ground_event", groundShape .event)]

end Step

/-! ## Requests and sections -/

/-- A ground epoch. -/
def GroundEpoch.shape : Shape GroundEpoch :=
  record ["name", "delta"] fun members =>
    GroundEpoch.mk <$> optional members "name" Json.Shape.nonEmptyString
      <*> optional members "delta" Json.Shape.nonEmptyString

/-- The word that may name the kind of a request. -/
def Request.kindShape : Shape Unit :=
  Json.Shape.choice ["request"] fun word => if word = "request" then some () else none

/-- A request. -/
def Request.shape : Shape Request :=
  record ["type", "name", "steps", "time", "ground_epoch", "description", "metadata"] fun members =>
    (fun _ => Request.mk) <$> withDefault members "type" () Request.kindShape
      <*> required members "name" Json.Shape.string
      <*> required members "steps" (Json.Shape.filledArray Step.shape)
      <*> optional members "time" Time.shape
      <*> optional members "ground_epoch" GroundEpoch.shape
      <*> optional members "description" Json.Shape.string
      <*> Metadata.ofMembers members

/-- The stem of a command of a section, which must not be one that reads as a time tag. -/
def Json.Shape.sectionStem : Shape String := fun v =>
  (Json.Shape.identifier v).refine fun s =>
    if readsAsTimeTag s.toList then .fail (.rejected (timeTagReason s)) else .pass s

/-- An immediate command. -/
def ImmediateCommand.shape : Shape ImmediateCommand :=
  record ["stem", "args", "description", "metadata"] fun members =>
    ImmediateCommand.mk <$> required members "stem" Json.Shape.sectionStem
      <*> Argument.ofMembers members
      <*> optional members "description" Json.Shape.string
      <*> Metadata.ofMembers members

/-- A hardware command. -/
def HardwareCommand.shape : Shape HardwareCommand :=
  record ["stem", "description", "metadata"] fun members =>
    HardwareCommand.mk <$> required members "stem" Json.Shape.sectionStem
      <*> optional members "description" Json.Shape.string
      <*> Metadata.ofMembers members

/-! ## Declarations -/

/-- A range. -/
def Range.shape : Shape Range :=
  record ["min", "max"] fun members =>
    Range.mk <$> required members "min" Json.Shape.number
      <*> required members "max" Json.Shape.number

/-- The type of a variable. -/
def VariableType.shape : Shape VariableType :=
  Json.Shape.choice (VariableType.all.map VariableType.keyword) VariableType.ofKeyword?

/-- An allowable value. -/
def AllowableValue.shape : Shape AllowableValue
  | .number n => .pass (.number n)
  | .string s => .pass (.text s)
  | _ => .error (Json.Shape.numberIssues ++ [⟨[.field "str"], .notString⟩])

/-- A declaration. -/
def Declaration.shape : Shape Declaration :=
  record ["name", "type", "enum_name", "allowable_ranges", "allowable_values"] fun members =>
    Declaration.mk <$> required members "name" Json.Shape.identifier
      <*> optional members "type" VariableType.shape
      <*> optional members "enum_name" Json.Shape.identifier
      <*> group members "allowable_ranges" Range.shape
      <*> group members "allowable_values" AllowableValue.shape

/-! ## The document -/

namespace Document

/-- A document. -/
def shape : Shape Document :=
  record ["id", "metadata", "parameters", "locals", "steps", "immediate_commands",
      "hardware_commands", "requests"] fun members =>
    Document.mk <$> required members "id" Json.Shape.string
      <*> withDefault members "metadata" [] Metadata.shape
      <*> group members "parameters" Declaration.shape
      <*> group members "locals" Declaration.shape
      <*> group members "steps" Step.shape
      <*> group members "immediate_commands" ImmediateCommand.shape
      <*> group members "hardware_commands" HardwareCommand.shape
      <*> group members "requests" Request.shape

/-- The fault of data with issues. -/
def fault (issues : List Issue) : Fault :=
  ⟨.badRecord "sequence document" "Document" issues, none⟩

/-- The document that a value describes. -/
def ofJson (v : Value) : Except Fault Document :=
  match Document.shape v with
  | .ok d => .ok d
  | .error issues => .error (fault issues)

/-- The document that a JSON text describes. The text itself may hold no half of a surrogate
pair. -/
def ofJsonText (text : List Char) : Except Fault Document :=
  if (String.ofList text).isEncodable then
    match Json.read .document text with
    | .ok v => ofJson v
    | .error _ => .error (fault [⟨[], .malformed⟩])
  else .error (fault [⟨[], .notUnicode⟩])

end Document

end CommandSequence
