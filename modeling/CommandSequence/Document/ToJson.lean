import CommandSequence.Document.Basic
import CommandSequence.Json.Writer

/-!
# Documents as JSON

Every record is an object with its fields in a fixed order. A field without a value and an optional
group without members are left out; the arguments of commands and the document's metadata are always
written. A number in metadata that is not finite is written as null. In the JSON text the keys of
metadata have no halves of surrogate pairs: these are replaced before the document is written.
-/

namespace CommandSequence

open Json (Value)

/-- A field that is always written. -/
def ToJson.field (name : String) (value : Value) : List (String × Value) :=
  [(name, value)]

/-- A field that is written if it has a value. -/
def ToJson.optional {α : Type} (name : String) (write : α → Value) :
    Option α → List (String × Value)
  | some a => [(name, write a)]
  | none => []

/-- A group that is written if it has members. -/
def ToJson.group {α : Type} (name : String) (write : α → Value) : List α → List (String × Value)
  | [] => []
  | items => [(name, .array (items.map write))]

open ToJson (field optional group)

/-- The object of metadata. -/
def Metadata.toJson (m : Metadata) : Value :=
  (Value.object m).nullNonFinite

/-- The field of metadata that are written if there are any. -/
def Metadata.field (m : Metadata) : List (String × Value) :=
  if m.isEmpty then [] else [("metadata", m.toJson)]

namespace Time

/-- The name of a kind of time. -/
def kind : Time → String
  | .absolute _ => "ABSOLUTE"
  | .commandComplete => "COMMAND_COMPLETE"
  | .commandRelative _ => "COMMAND_RELATIVE"
  | .epochRelative _ => "EPOCH_RELATIVE"

/-- The tag of a time. -/
def tag? : Time → Option String
  | .absolute tag | .commandRelative tag | .epochRelative tag => tag
  | .commandComplete => none

/-- The object of a time. -/
def toJson (t : Time) : Value :=
  .object (field "type" (.string t.kind) ++ optional "tag" Value.string t.tag?)

end Time

namespace BaseArgument

/-- The name of a kind of argument. -/
def kind : BaseArgument → String
  | .string .. => "string"
  | .number .. => "number"
  | .boolean .. => "boolean"
  | .symbol .. => "symbol"
  | .hex .. => "hex"

/-- The value of an argument. -/
def value : BaseArgument → Value
  | .string s _ | .symbol s _ | .hex s _ => .string s
  | .number n _ => .number n
  | .boolean b _ => .boolean b

/-- The name of an argument. -/
def name? : BaseArgument → Option String
  | .string _ name | .number _ name | .boolean _ name | .symbol _ name | .hex _ name => name

/-- The object of an argument. -/
def toJson (a : BaseArgument) : Value :=
  .object (field "type" (.string a.kind) ++ field "value" a.value
    ++ optional "name" Value.string a.name?)

end BaseArgument

/-- The object of an argument. -/
def Argument.toJson : Argument → Value
  | .base a => a.toJson
  | .repetition sets name =>
    .object (field "type" (.string "repeat")
      ++ field "value" (.array (sets.map fun set => .array (set.map BaseArgument.toJson)))
      ++ optional "name" Value.string name)

/-- The value of a model. -/
def ModelValue.toJson : ModelValue → Value
  | .boolean b => .boolean b
  | .number n => .number n
  | .string s => .string s

/-- The object of a model. -/
def Model.toJson (m : Model) : Value :=
  .object (field "variable" (.string m.variableName) ++ field "value" m.value.toJson
    ++ field "offset" (.string m.offset))

/-- The name of a kind of call. -/
def CallKind.name : CallKind → String
  | .activate => "activate"
  | .load => "load"

/-- The name of a kind of ground activity. -/
def GroundKind.name : GroundKind → String
  | .block => "ground_block"
  | .event => "ground_event"

/-- The fields of an action with its arguments. -/
def Action.toJson (arguments : List Argument) : Action → List (String × Value)
  | .command stem =>
    field "type" (.string "command") ++ field "stem" (.string stem)
      ++ field "args" (.array (arguments.map Argument.toJson))
  | .call kind sequence engine epoch =>
    field "type" (.string kind.name) ++ field "sequence" (.string sequence)
      ++ group "args" Argument.toJson arguments
      ++ optional "engine" (fun n : Int => Value.number (.int n)) engine
      ++ optional "epoch" Value.string epoch
  | .ground kind name =>
    field "type" (.string kind.name) ++ field "name" (.string name)
      ++ group "args" Argument.toJson arguments

/-- The object of a step. -/
def Step.toJson (s : Step) : Value :=
  .object (field "time" s.time.toJson ++ optional "description" Value.string s.description
    ++ s.metadata.field ++ group "models" Model.toJson s.models ++ s.action.toJson s.arguments)

/-- The object of a ground epoch. -/
def GroundEpoch.toJson (g : GroundEpoch) : Value :=
  .object (optional "name" Value.string g.name ++ optional "delta" Value.string g.delta)

/-- The object of a request. -/
def Request.toJson (r : Request) : Value :=
  .object (field "type" (.string "request") ++ field "name" (.string r.name)
    ++ field "steps" (.array (r.steps.map Step.toJson)) ++ optional "time" Time.toJson r.time
    ++ optional "ground_epoch" GroundEpoch.toJson r.groundEpoch
    ++ optional "description" Value.string r.description ++ r.metadata.field)

/-- The object of an immediate command. -/
def ImmediateCommand.toJson (c : ImmediateCommand) : Value :=
  .object (field "stem" (.string c.stem) ++ field "args" (.array (c.arguments.map Argument.toJson))
    ++ optional "description" Value.string c.description ++ c.metadata.field)

/-- The object of a hardware command. -/
def HardwareCommand.toJson (c : HardwareCommand) : Value :=
  .object (field "stem" (.string c.stem) ++ optional "description" Value.string c.description
    ++ c.metadata.field)

/-- The object of a range. -/
def Range.toJson (r : Range) : Value :=
  .object (field "min" (.number r.min) ++ field "max" (.number r.max))

/-- An allowable value. -/
def AllowableValue.toJson : AllowableValue → Value
  | .number n => .number n
  | .text s => .string s

/-- The object of a declaration. -/
def Declaration.toJson (d : Declaration) : Value :=
  .object (field "name" (.string d.name)
    ++ optional "type" (fun t : VariableType => Value.string t.keyword) d.type
    ++ optional "enum_name" Value.string d.enumName
    ++ group "allowable_ranges" Range.toJson d.ranges
    ++ group "allowable_values" AllowableValue.toJson d.values)

namespace Document

/-- The object of a document. -/
def toJson (d : Document) : Value :=
  .object (field "id" (.string d.id) ++ field "metadata" d.metadata.toJson
    ++ group "parameters" Declaration.toJson d.parameters
    ++ group "locals" Declaration.toJson d.locals ++ group "steps" Step.toJson d.steps
    ++ group "immediate_commands" ImmediateCommand.toJson d.immediateCommands
    ++ group "hardware_commands" HardwareCommand.toJson d.hardwareCommands
    ++ group "requests" Request.toJson d.requests)

end Document

/-! ## Keys of metadata -/

/-- A key of metadata as it is dumped: three replacement characters stand for each half of a
surrogate pair. -/
def Metadata.dumpedKey (key : String) : String :=
  .ofList (key.toList.flatMap fun c =>
    if c.isScalar then [c] else ['\uFFFD', '\uFFFD', '\uFFFD'])

/-- Metadata as they are dumped. Of keys that become the same, the first keeps its place and the
last its value. -/
def Metadata.dumped (m : Metadata) : Metadata :=
  Dictionary.ofList (m.map fun (key, value) => (dumpedKey key, value))

/-- The step with its metadata changed. -/
def Step.mapMetadata (f : Metadata → Metadata) (s : Step) : Step :=
  { s with metadata := f s.metadata }

/-- The request with its metadata and those of its steps changed. -/
def Request.mapMetadata (f : Metadata → Metadata) (r : Request) : Request :=
  { r with steps := r.steps.map (Step.mapMetadata f), metadata := f r.metadata }

/-- The command with its metadata changed. -/
def ImmediateCommand.mapMetadata (f : Metadata → Metadata) (c : ImmediateCommand) :
    ImmediateCommand :=
  { c with metadata := f c.metadata }

@[inherit_doc ImmediateCommand.mapMetadata]
def HardwareCommand.mapMetadata (f : Metadata → Metadata) (c : HardwareCommand) :
    HardwareCommand :=
  { c with metadata := f c.metadata }

namespace Document

/-- The document with its metadata and those of all its parts changed. -/
def mapMetadata (f : Metadata → Metadata) (d : Document) : Document :=
  { d with
    metadata := f d.metadata
    steps := d.steps.map (Step.mapMetadata f)
    immediateCommands := d.immediateCommands.map (ImmediateCommand.mapMetadata f)
    hardwareCommands := d.hardwareCommands.map (HardwareCommand.mapMetadata f)
    requests := d.requests.map (Request.mapMetadata f) }

/-- The document as it is dumped. -/
def dumped (d : Document) : Document :=
  d.mapMetadata Metadata.dumped

/-- The JSON text of a document. -/
def toJsonText (indent : Json.Indent) (d : Document) : List Char :=
  d.dumped.toJson.write indent

end Document

end CommandSequence
