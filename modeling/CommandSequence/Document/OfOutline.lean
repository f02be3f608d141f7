import CommandSequence.Character.Blank
import CommandSequence.Document.Fault
import CommandSequence.Source.Outline
import CommandSequence.Text.Cut
import CommandSequence.Text.Quoted

/-!
# The document of an outline

Each construct of an outline has one function that gives its meaning or the first fault in it, in
the order in which its tokens are written; what a construct demands of its parts as a whole is
checked after them. `Document.ofOutline` gathers the meanings of the items: steps and requests keep
their order, and a metadata key that is written again keeps its place and takes the later value.
-/

namespace CommandSequence.OfOutline

open Source (Token)

/-! ## Tokens -/

/-- The string that a token quotes. -/
def string (token : Token) : Except Fault String :=
  match Quoted.decode? token.text with
  | some text => .ok (String.ofList text)
  | none => .error (.located token.position (.badString token.text))

/-- The number that a text spells, if it spells one. -/
def number? (text : List Char) : Except Fault (Option Number) :=
  match Number.read? text with
  | .ok n => .ok n
  | .error _ => .error ⟨.integerTooLong, none⟩

/-- The number that a numeral token spells. -/
def number (token : Token) : Except Fault Number := do
  return (← number? token.text).getD default

/-- The truth value of a token. -/
def boolean (token : Token) : Bool :=
  token.text == String.toList "true"

/-- The word that a token is. -/
def word (token : Token) : String :=
  String.ofList token.text

/-- A text, unless it is empty. -/
def nonEmpty (s : String) : Option String :=
  if s.isEmpty then none else some s

/-- The description in a comment: what follows the mark and one blank. -/
def description (token : Option Token) : Option String :=
  token.bind fun token =>
    let text := token.text.drop 1
    nonEmpty (String.ofList (if text.head? == some (' ' : Char) then text.drop 1 else text))

/-! ## Metadata -/

mutual

/-- A JSON value. -/
def value : Source.Value → Except Fault Json.Value
  | .scalar token =>
    match token.kind with
    | .string => (string token).map .string
    | .number => (number token).map .number
    | .boolean => .ok (.boolean (boolean token))
    | _ => .ok .null
  | .array _ items => (values items).map .array
  | .object _ written => (members written).map fun entries => .object (Dictionary.ofList entries)

/-- The items of an array. -/
def values : List Source.Value → Except Fault (List Json.Value)
  | [] => .ok []
  | item :: rest => do
    let head ← value item
    return head :: (← values rest)

/-- The members of an object, as written. -/
def members : List (Token × Source.Value) → Except Fault (List (String × Json.Value))
  | [] => .ok []
  | (key, item) :: rest => do
    let name ← string key
    let head ← value item
    return (name, head) :: (← members rest)

end

/-- A metadata entry. -/
def entry (line : Source.MetadataLine) : Except Fault (String × Json.Value) := do
  let key ← string line.key
  return (key, ← value line.value)

/-- The metadata of entries. -/
def metadata (lines : List Source.MetadataLine) : Except Fault Metadata := do
  return Dictionary.ofList (← lines.mapM entry)

/-! ## Arguments -/

/-- A single argument. -/
def baseArgument (token : Token) : Except Fault BaseArgument :=
  match token.kind with
  | .string => do return .string (← string token) none
  | .number => do
    let n ← number token
    if n.isFinite then return .number n none
    else throw (.located token.position (.badRecord "NumberArgument" "NumberArgument"
      [⟨[.field "value"], .rejected BaseArgument.finiteReason⟩]))
  | .boolean => return .boolean (boolean token) none
  | .hex => return .hex (word token) none
  | _ => return .symbol (word token) none

/-- An argument. A group is one argument set; without items it has no set at all. -/
def argument : Source.Argument → Except Fault Argument
  | .single token => do return .base (← baseArgument token)
  | .group _ items => do
    let set ← items.mapM baseArgument
    return .repetition (if set.isEmpty then [] else [set]) none

/-! ## Times -/

/-- The grammars that the tag after a letter may satisfy. -/
def grammars (letter : Char) : List TagGrammar :=
  if letter == 'A' then [.absolute]
  else if letter == 'R' then [.relative, .relativeSimple]
  else [.epoch, .epochSimple]

/-- The tag after the letter of a time token, if there is one. -/
def tag (validate : Bool) (token : Token) : Except Fault (Option String) :=
  match token.text with
  | [] => .ok none
  | letter :: text =>
    if validate && !text.isEmpty && !(grammars letter).any (·.accepts text) then
      .error (.located token.position (.badTimeTag token.text (grammars letter)))
    else .ok (nonEmpty (String.ofList text))

/-- The time of a time token. -/
def time (validate : Bool) (token : Token) : Except Fault Time :=
  match token.kind with
  | .absoluteTime => (tag validate token).map .absolute
  | .commandComplete => .ok .commandComplete
  | .commandRelative => (tag validate token).map .commandRelative
  | _ => (tag validate token).map .epochRelative

/-! ## Steps -/

/-- The meaning of a directive. -/
inductive Effect where
  | metadata (key : String) (value : Json.Value)
  | model (model : Model)
  | engine (position : Source.Position) (n : Int)
  | epoch (position : Source.Position) (name : String)

namespace Effect

/-- The metadata entry that a directive is. -/
def metadata? : Effect → Option (String × Json.Value)
  | .metadata key value => some (key, value)
  | _ => none

/-- The model that a directive is. -/
def model? : Effect → Option Model
  | .model m => some m
  | _ => none

/-- The engine that a directive gives. -/
def engine? : Effect → Option (Source.Position × Int)
  | .engine position n => some (position, n)
  | _ => none

/-- The epoch that a directive gives. -/
def epoch? : Effect → Option (Source.Position × String)
  | .epoch position name => some (position, name)
  | _ => none

/-- Which directive for calls a directive is, and where it stands. -/
def call? : Effect → Option (CallDirective × Source.Position)
  | .engine position _ => some (.engine, position)
  | .epoch position _ => some (.epoch, position)
  | _ => none

end Effect

/-- The value that a model line gives. -/
def modelValue (token : Token) : Except Fault ModelValue :=
  match token.kind with
  | .string => (string token).map .string
  | .number => (number token).map .number
  | _ => .ok (.boolean (boolean token))

/-- A model. The variable's name may be quoted or not. -/
def model (line : Source.ModelLine) : Except Fault Model := do
  let name ← if line.variableName.kind == .string then string line.variableName
    else .ok (word line.variableName)
  let given ← modelValue line.value
  return ⟨name, given, ← string line.offset⟩

/-- The effect of a directive. -/
def effect : Source.Directive → Except Fault Effect
  | .metadata line => do
    let (key, given) ← entry line
    return .metadata key given
  | .model line => (model line).map .model
  | .engine position token => do
    match ← number token with
    | .int n => return .engine position n
    | .float x => throw (.located position (.badEngine x))
  | .epoch position token => (string token).map (.epoch position)

/-- The arguments that a line's arguments mean. -/
def arguments (written : List Source.Argument) : Except Fault (List Argument) :=
  written.mapM argument

/-- What a step does, its engine and epoch left open. -/
def action (kind : Source.StepKind) (subject : Token) : Except Fault Action :=
  match kind with
  | .command => .ok (.command (word subject))
  | .activate => do return .call .activate (← string subject) none none
  | .load => do return .call .load (← string subject) none none
  | .groundBlock => do return .ground .block (← string subject)
  | .groundEvent => do return .ground .event (← string subject)

/-- The first fault among directives for calls, `seen` being those that stand before: they need a
step that starts another sequence, and each may stand there once. -/
def checkCalls (isCall : Bool) (seen : List CallDirective) :
    List (CallDirective × Source.Position) → Except Fault Unit
  | [] => .ok ()
  | (directive, position) :: rest =>
    if !isCall then .error (.located position (.misplacedDirective directive))
    else if seen.contains directive then .error (.located position (.repeatedDirective directive))
    else checkCalls isCall (directive :: seen) rest

/-- Whether an action starts another sequence. -/
def isCall : Action → Bool
  | .call .. => true
  | _ => false

/-- The action with the engine and epoch that directives give it. -/
def withCalls (effects : List Effect) : Action → Action
  | .call kind sequence _ _ =>
    .call kind sequence ((effects.findSome? Effect.engine?).map (·.2))
      ((effects.findSome? Effect.epoch?).map (·.2))
  | other => other

/-- A step. -/
def step (validate : Bool) (item : Source.StepItem) : Except Fault Step := do
  let line := item.line
  let moment ← time validate line.tag
  let does ← action line.kind line.subject
  let given ← arguments line.arguments
  let effects ← item.directives.mapM effect
  checkCalls (isCall does) [] (effects.filterMap Effect.call?)
  return {
    time := moment
    action := withCalls effects does
    arguments := given
    description := description line.description
    metadata := Dictionary.ofList (effects.filterMap Effect.metadata?)
    models := effects.filterMap Effect.model? }

/-! ## Requests -/

/-- A ground epoch, whose name must hold no half of a surrogate pair. -/
def groundEpoch (position : Source.Position) (name : String) (delta : Option String) :
    Except Fault GroundEpoch :=
  if name.isEncodable then .ok ⟨nonEmpty name, delta⟩
  else .error (.located position (.badRecord "GroundEpoch" "GroundEpoch"
    [⟨[.field "name"], .notUnicode⟩]))

/-- The time or ground epoch of a request. -/
def timing (validate : Bool) : Source.Timing → Except Fault (Time ⊕ GroundEpoch)
  | .tag token => (time validate token).map .inl
  | .groundEpoch token name => do
    let called ← string name
    let delta ← tag validate token
    return .inr (← groundEpoch token.position called delta)

/-- A request, which has at least one step. -/
def request (validate : Bool) (item : Source.RequestItem) : Except Fault Request := do
  let line := item.line
  let moment ← timing validate line.timing
  let name ← string line.name
  let steps ← item.steps.mapM (step validate)
  let notes ← metadata item.metadata
  if steps.isEmpty then throw (.located line.timing.position (.emptyRequest name))
  return {
    name
    steps
    time := moment.getLeft?
    groundEpoch := moment.getRight?
    description := description line.description
    metadata := notes }

/-! ## Sections -/

/-- The stem of a command of a section, which must not be one that reads as a time tag. -/
def stem (record : String) (token : Token) : Except Fault String :=
  if readsAsTimeTag token.text then
    .error (.located token.position (.badRecord record record
      [⟨[.field "stem"], .rejected (timeTagReason (word token))⟩]))
  else .ok (word token)

/-- An immediate command. -/
def immediateCommand (item : Source.CommandItem) : Except Fault ImmediateCommand := do
  let line := item.line
  let given ← arguments line.arguments
  let notes ← metadata item.metadata
  return ⟨← stem "ImmediateCommand" line.stem, given, description line.description, notes⟩

/-- A hardware command. -/
def hardwareCommand (item : Source.CommandItem) : Except Fault HardwareCommand := do
  let notes ← metadata item.metadata
  return ⟨← stem "HardwareCommand" item.line.stem, description item.line.description, notes⟩

/-! ## Declarations -/

/-- The type and enumeration that the words after a name give. A single word that is no type names
an enumeration. -/
def typing (name : String) : List Token → Except Fault (Option VariableType × Option String)
  | [] => .ok (none, none)
  | [only] =>
    match VariableType.ofKeyword? (word only) with
    | some type => .ok (some type, none)
    | none => .ok (none, some (word only))
  | type :: enumeration :: _ =>
    match VariableType.ofKeyword? (word type) with
    | some found => .ok (some found, some (word enumeration))
    | none => .error (.located type.position (.unknownType type.text name))

/-- The text before the first three points and the text after them, if they occur. -/
def splitAtDots : List Char → List Char × Option (List Char)
  | '.' :: '.' :: '.' :: rest => ([], some rest)
  | c :: rest =>
    let (before, after) := splitAtDots rest
    (c :: before, after)
  | [] => ([], none)

/-- The range that a part of a range list is. -/
def range (position : Source.Position) (part : List Char) : Except Fault Range := do
  let (before, after) := splitAtDots part
  let low ← number? (Character.trimBoth Character.isBlank before)
  let high ← number? (Character.trimBoth Character.isBlank (after.getD []))
  match low, high with
  | some low, some high => return ⟨low, high⟩
  | _, _ => throw (.located position (.badRange part))

/-- The value that a part of a value list is: a number, or else a text. -/
def allowableValue (part : List Char) : Except Fault AllowableValue := do
  match ← number? part with
  | some n => return .number n
  | none => return .text (String.ofList part)

/-- The ranges that the first string of a declaration lists; an empty one lists none. -/
def ranges (position : Source.Position) : List String → Except Fault (List Range)
  | [] => .ok []
  | list :: _ => if list.isEmpty then .ok [] else (Cut.split ',' list.toList).mapM (range position)

/-- The values that the second string of a declaration lists. -/
def allowableValues : List String → Except Fault (List AllowableValue)
  | _ :: list :: _ => (Cut.split ',' list.toList).mapM allowableValue
  | _ => .ok []

/-- A declaration. -/
def declaration (item : Source.DeclarationItem) : Except Fault Declaration := do
  let lists ← (item.details.filter (·.kind == .string)).mapM string
  let name := word item.name
  let (type, enumName) ← typing name (item.details.filter (·.kind != .string))
  let allowed ← ranges item.name.position lists
  return ⟨name, type, enumName, allowed, ← allowableValues lists⟩

/-! ## Items -/

/-- The meaning of an item. -/
inductive Part where
  | comment
  | id (name : String)
  | metadata (key : String) (value : Json.Value)
  | declarations (block : Source.Block) (list : List Declaration)
  | step (step : Step)
  | request (request : Request)
  | immediate (commands : List ImmediateCommand)
  | hardware (commands : List HardwareCommand)

/-- A list that must not be empty. -/
def filled {α : Type} (position : Source.Position) (cause : FaultCause) (list : List α) :
    Except Fault (List α) :=
  if list.isEmpty then .error (.located position cause) else .ok list

/-- The meaning of an item. -/
def part (validate : Bool) : Source.Item → Except Fault Part
  | .comment _ => .ok .comment
  | .id _ name => (string name).map .id
  | .loadAndGo _ => .ok (.metadata Document.loadAndGoKey (.boolean true))
  | .metadata line => do
    let (key, given) ← entry line
    return .metadata key given
  | .block position block list => do
    return .declarations block
      (← filled position (.emptyBlock block) (← list.mapM declaration))
  | .step item => (step validate item).map .step
  | .request item => (request validate item).map .request
  | .section position .immediate commands => do
    return .immediate
      (← filled position (.emptySection .immediate) (← commands.mapM immediateCommand))
  | .section position .hardware commands => do
    return .hardware
      (← filled position (.emptySection .hardware) (← commands.mapM hardwareCommand))

namespace Part

/-- The identifier that a part gives. -/
def id? : Part → Option String
  | .id name => some name
  | _ => none

/-- The metadata entry that a part is. -/
def metadata? : Part → Option (String × Json.Value)
  | .metadata key value => some (key, value)
  | _ => none

/-- The declarations that a part adds to a block. -/
def declarationsOf (block : Source.Block) : Part → List Declaration
  | .declarations b list => if b = block then list else []
  | _ => []

/-- The step that a part is. -/
def step? : Part → Option Step
  | .step s => some s
  | _ => none

/-- The request that a part is. -/
def request? : Part → Option Request
  | .request r => some r
  | _ => none

/-- The immediate commands that a part adds. -/
def immediateCommands : Part → List ImmediateCommand
  | .immediate commands => commands
  | _ => []

/-- The hardware commands that a part adds. -/
def hardwareCommands : Part → List HardwareCommand
  | .hardware commands => commands
  | _ => []

end Part

/-- The document that parts make up. -/
def gather (parts : List Part) : Except Fault Document :=
  match parts.findSome? Part.id? with
  | none => .error (.located .origin .missingId)
  | some id => .ok {
      id
      metadata := Dictionary.ofList (parts.filterMap Part.metadata?)
      parameters := parts.flatMap (Part.declarationsOf .parameters)
      locals := parts.flatMap (Part.declarationsOf .locals)
      steps := parts.filterMap Part.step?
      immediateCommands := parts.flatMap Part.immediateCommands
      hardwareCommands := parts.flatMap Part.hardwareCommands
      requests := parts.filterMap Part.request? }

end CommandSequence.OfOutline

namespace CommandSequence

/-- The document that an outline describes. Time tags are checked against the tag grammars if
`validate` is set. -/
def Document.ofOutline (validate : Bool) (outline : Source.Outline) : Except Fault Document := do
  OfOutline.gather (← outline.items.mapM (OfOutline.part validate))

end CommandSequence
