import CommandSequence.Document.Basic
import CommandSequence.Document.ToJson
import CommandSequence.Proofs.Json.Value
import CommandSequence.Proofs.Number.Written

/-!
# Valid documents

What both readers guarantee of every document that they give: words are spelled as their places
demand, integers are short enough to be written, no tag is empty, every request has a step, and the
keys of metadata are distinct at every depth. The writers need no more than this to be undone by the
readers.
-/

namespace CommandSequence

open Json (Value)

/-- Metadata whose keys are distinct at every depth and whose integers are not too long. -/
def Metadata.Valid (m : Metadata) : Prop :=
  (Value.object m).Sound (Number.Fits false)

theorem Metadata.Valid.sound {m : Metadata} (h : m.Valid) :
    ∀ entry ∈ m, entry.2.Sound (Number.Fits false) := by
  cases h with
  | object _ hvalues => exact hvalues

/-- A time whose tag is not empty. -/
def Time.Valid (t : Time) : Prop :=
  t.tag? ≠ some ("" : String)

namespace BaseArgument

/-- An argument spelled as its kind demands. -/
def Valid : BaseArgument → Prop
  | .string .. | .boolean .. => True
  | .number n _ => n.isFinite = true ∧ n.Fits false
  | .symbol s _ => isIdentifier s.toList = true ∧ truthWords.contains s = false
  | .hex s _ => isHexLiteral s.toList = true

end BaseArgument

namespace Argument

@[inherit_doc BaseArgument.Valid]
def Valid : Argument → Prop
  | .base a => a.Valid
  | .repetition sets _ => ∀ set ∈ sets, ∀ a ∈ set, a.Valid

end Argument

namespace ModelValue

/-- A value that, if it is an integer, is not too long. -/
def Valid : ModelValue → Prop
  | .number n => n.Fits false
  | _ => True

end ModelValue

namespace Action

/-- An action whose stem is an identifier and whose engine is not too long. -/
def Valid : Action → Prop
  | .command stem => isIdentifier stem.toList = true
  | .call _ _ engine _ => ∀ n, engine = some n → (Number.int n).Fits false
  | .ground .. => True

end Action

/-- A step all of whose parts are valid. -/
structure Step.Valid (s : Step) : Prop where
  time : s.time.Valid
  action : s.action.Valid
  arguments : ∀ a ∈ s.arguments, a.Valid
  metadata : s.metadata.Valid
  models : ∀ m ∈ s.models, m.value.Valid

/-- A ground epoch whose name and offset are not empty. -/
structure GroundEpoch.Valid (g : GroundEpoch) : Prop where
  name : g.name ≠ some ("" : String)
  encodable : ∀ name, g.name = some name → name.isEncodable = true
  delta : g.delta ≠ some ("" : String)

/-- A request with at least one step, all of whose parts are valid. -/
structure Request.Valid (r : Request) : Prop where
  filled : r.steps ≠ []
  steps : ∀ s ∈ r.steps, s.Valid
  time : ∀ t, r.time = some t → t.Valid
  groundEpoch : ∀ g, r.groundEpoch = some g → g.Valid
  metadata : r.metadata.Valid

/-- A stem that a section can have: an identifier that does not read as a time tag. -/
def IsSectionStem (stem : String) : Prop :=
  isIdentifier stem.toList = true ∧ readsAsTimeTag stem.toList = false

/-- An immediate command all of whose parts are valid. -/
structure ImmediateCommand.Valid (c : ImmediateCommand) : Prop where
  stem : IsSectionStem c.stem
  arguments : ∀ a ∈ c.arguments, a.Valid
  metadata : c.metadata.Valid

/-- A hardware command all of whose parts are valid. -/
structure HardwareCommand.Valid (c : HardwareCommand) : Prop where
  stem : IsSectionStem c.stem
  metadata : c.metadata.Valid

/-- A range whose ends, if they are integers, are not too long. -/
structure Range.Valid (r : Range) : Prop where
  min : r.min.Fits false
  max : r.max.Fits false

namespace AllowableValue

@[inherit_doc ModelValue.Valid]
def Valid : AllowableValue → Prop
  | .number n => n.Fits false
  | .text _ => True

end AllowableValue

/-- A declaration of identifiers, all of whose numbers are valid. -/
structure Declaration.Valid (d : Declaration) : Prop where
  name : isIdentifier d.name.toList = true
  enumName : ∀ name, d.enumName = some name → isIdentifier name.toList = true
  ranges : ∀ r ∈ d.ranges, r.Valid
  values : ∀ v ∈ d.values, v.Valid

/-- A document all of whose parts are valid. -/
structure Document.Valid (d : Document) : Prop where
  metadata : d.metadata.Valid
  parameters : ∀ p ∈ d.parameters, p.Valid
  locals : ∀ p ∈ d.locals, p.Valid
  steps : ∀ s ∈ d.steps, s.Valid
  immediateCommands : ∀ c ∈ d.immediateCommands, c.Valid
  hardwareCommands : ∀ c ∈ d.hardwareCommands, c.Valid
  requests : ∀ r ∈ d.requests, r.Valid

end CommandSequence
