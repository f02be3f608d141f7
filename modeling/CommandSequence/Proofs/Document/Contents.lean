import CommandSequence.Character.Blank
import CommandSequence.Document.ToJson
import CommandSequence.Proofs.Dictionary
import CommandSequence.Proofs.Source.Nodes
import CommandSequence.Text.Cut
import CommandSequence.Text.Quoted

/-!
# What a syntax tree says

The relations of this module read a document off a syntax tree (`Contents.DocumentOf`). They know
the rules of nodes and the texts of tokens, but nothing of how documents are made: the entries of a
group stand in the order of the nodes that they are read off, one for each (`List.Forall₂`), and
metadata have the keys of their entries in the order of first writing, each with the value written
last (`Contents.DictionaryOf`). A group without members is absent from the object of its record.
-/

namespace CommandSequence

/-- The engine that an action is given. -/
def Action.engine? : Action → Option Int
  | .call _ _ engine _ => engine
  | _ => none

/-- The epoch that an action is given. -/
def Action.epoch? : Action → Option String
  | .call _ _ _ epoch => epoch
  | _ => none

/-- Whether the value is an object with the key. -/
def Json.Value.has (key : String) : Json.Value → Bool
  | .object members => (members.lookup key).isSome
  | _ => false

namespace Contents

open Source (Token Tree Terminal)

/-! ## Tokens -/

/-- The token quotes the string. -/
def StringOf (token : Token) (s : String) : Prop :=
  Quoted.decode? token.text = some s.toList

/-- The token spells the number. -/
def NumberOf (token : Token) (n : Number) : Prop :=
  Number.read? token.text = .ok (some n)

/-- The token is the truth value. -/
def BooleanOf (token : Token) (b : Bool) : Prop :=
  b = true ↔ token.text = String.toList "true"

/-- The token is the word. -/
def WordOf (token : Token) (word : String) : Prop :=
  token.text = word.toList

/-- The text, or nothing if it is empty. -/
def FilledOf (text : String) (s : Option String) : Prop :=
  s.getD "" = text ∧ s ≠ some ("" : String)

/-- The tag is what follows the letter of the token. -/
def TagOf (token : Token) (tag : Option String) : Prop :=
  FilledOf (String.ofList (token.text.drop 1)) tag

/-- The description is what follows the mark and one blank. -/
def DescriptionOf : Option Token → Option String → Prop
  | none, description => description = none
  | some token, description =>
    let text := token.text.drop 1
    FilledOf (String.ofList (if text.head? = some (' ' : Char) then text.drop 1 else text))
      description

/-! ## Metadata -/

/-- The dictionary has the keys of the entries in the order of their first writing, each with the
value that was written last. -/
structure DictionaryOf {α : Type} (entries : List (String × α)) (d : Dictionary α) : Prop where
  keys : d.map Prod.fst = (entries.map Prod.fst).eraseDups
  values : ∀ key, d.get? key = (Dictionary.written key entries).getLast?

mutual

/-- The JSON value of a tree. -/
inductive ValueOf : Tree → Json.Value → Prop where
  | string {place : Option Source.Position} {token : Token} {s : String} (h : StringOf token s) :
    ValueOf (.node "json_string" place [.leaf token]) (.string s)
  | number {place : Option Source.Position} {token : Token} {n : Number} (h : NumberOf token n) :
    ValueOf (.node "json_number" place [.leaf token]) (.number n)
  | boolean {place : Option Source.Position} {token : Token} {b : Bool} (h : BooleanOf token b) :
    ValueOf (.node "json_boolean" place [.leaf token]) (.boolean b)
  | null (place : Option Source.Position) (token : Token) :
    ValueOf (.node "json_null" place [.leaf token]) .null
  | array {place : Option Source.Position} {trees : List Tree} {items : List Json.Value}
    (h : List.Forall₂ ValueOf trees items) : ValueOf (.node "json_array" place trees) (.array items)
  | object {place : Option Source.Position} {trees : List Tree}
    {members : List (String × Json.Value)} {d : Dictionary Json.Value}
    (h : List.Forall₂ MemberOf trees members) (hd : DictionaryOf members d) :
    ValueOf (.node "json_object" place trees) (.object d)

/-- The key and value of the tree of a member. -/
inductive MemberOf : Tree → String × Json.Value → Prop where
  | mk {place : Option Source.Position} {token : Token} {tree : Tree} {key : String}
    {value : Json.Value} (hkey : StringOf token key) (h : ValueOf tree value) :
    MemberOf (.node "json_pair" place [.leaf token, tree]) (key, value)

end

/-- The key and value of the tree of a metadata entry. -/
inductive EntryOf : Tree → String × Json.Value → Prop where
  | mk {place : Option Source.Position} {token : Token} {tree : Tree} {key : String}
    {value : Json.Value} (hkey : StringOf token key) (h : ValueOf tree value) :
    EntryOf (.node "metadata_entry" place [.leaf token, tree]) (key, value)

/-- The metadata of the trees of entries. -/
def MetadataOf (trees : List Tree) (m : Metadata) : Prop :=
  ∃ entries, List.Forall₂ EntryOf trees entries ∧ DictionaryOf entries m

/-! ## Arguments and times -/

/-- The single argument of a tree. -/
inductive BaseArgumentOf : Tree → BaseArgument → Prop where
  | string {place : Option Source.Position} {token : Token} {s : String} (h : StringOf token s) :
    BaseArgumentOf (.node "string_argument" place [.leaf token]) (.string s none)
  | number {place : Option Source.Position} {token : Token} {n : Number} (h : NumberOf token n) :
    BaseArgumentOf (.node "number_argument" place [.leaf token]) (.number n none)
  | boolean {place : Option Source.Position} {token : Token} {b : Bool} (h : BooleanOf token b) :
    BaseArgumentOf (.node "boolean_argument" place [.leaf token]) (.boolean b none)
  | hex {place : Option Source.Position} {token : Token} {s : String} (h : WordOf token s) :
    BaseArgumentOf (.node "hex_argument" place [.leaf token]) (.hex s none)
  | symbol {place : Option Source.Position} {token : Token} {s : String} (h : WordOf token s) :
    BaseArgumentOf (.node "symbol_argument" place [.leaf token]) (.symbol s none)

/-- The argument of a tree. A group has its items as one set, without items it has no set. -/
inductive ArgumentOf : Tree → Argument → Prop where
  | base {tree : Tree} {a : BaseArgument} (h : BaseArgumentOf tree a) : ArgumentOf tree (.base a)
  | empty (place : Option Source.Position) :
    ArgumentOf (.node "repeat_argument" place []) (.repetition [] none)
  | group {place : Option Source.Position} {tree : Tree} {trees : List Tree}
    {set : List BaseArgument} (h : List.Forall₂ BaseArgumentOf (tree :: trees) set) :
    ArgumentOf (.node "repeat_argument" place (tree :: trees)) (.repetition [set] none)

/-- The arguments of a tree. -/
inductive ArgumentsOf : Tree → List Argument → Prop where
  | mk {place : Option Source.Position} {trees : List Tree} {arguments : List Argument}
    (h : List.Forall₂ ArgumentOf trees arguments) : ArgumentsOf (.node "args" place trees) arguments

/-- The time of a tree. -/
inductive TimeOf : Tree → Time → Prop where
  | absolute {place : Option Source.Position} {token : Token} {tag : Option String}
    (h : TagOf token tag) : TimeOf (.node "absolute_time" place [.leaf token]) (.absolute tag)
  | commandComplete (place : Option Source.Position) (token : Token) :
    TimeOf (.node "command_complete" place [.leaf token]) .commandComplete
  | commandRelative {place : Option Source.Position} {token : Token} {tag : Option String}
    (h : TagOf token tag) :
    TimeOf (.node "command_relative" place [.leaf token]) (.commandRelative tag)
  | epochRelative {place : Option Source.Position} {token : Token} {tag : Option String}
    (h : TagOf token tag) :
    TimeOf (.node "epoch_relative" place [.leaf token]) (.epochRelative tag)

/-! ## Steps -/

/-- The group of a record is written just if it has members. -/
def GroupOf {α : Type} (object : Json.Value) (key : String) (members : List α) : Prop :=
  object.has key = true ↔ members ≠ []

/-- The value that a model's token gives. -/
inductive ModelValueOf (token : Token) : ModelValue → Prop where
  | string {s : String} (hkind : token.kind = .string) (h : StringOf token s) :
    ModelValueOf token (.string s)
  | number {n : Number} (hkind : token.kind = .number) (h : NumberOf token n) :
    ModelValueOf token (.number n)
  | boolean {b : Bool} (hstring : token.kind ≠ .string) (hnumber : token.kind ≠ .number)
    (h : BooleanOf token b) : ModelValueOf token (.boolean b)

/-- The model of a tree, whose variable may be quoted or not. -/
inductive ModelOf : Tree → Model → Prop where
  | mk {place : Option Source.Position} {name value offset : Token} {m : Model}
    (hname : if name.kind = .string then StringOf name m.variableName
      else WordOf name m.variableName)
    (hvalue : ModelValueOf value m.value) (hoffset : StringOf offset m.offset) :
    ModelOf (.node "model_entry" place [.leaf name, .leaf value, .leaf offset]) m

/-- The engine of a tree. -/
inductive EngineOf : Tree → Int → Prop where
  | mk {place : Option Source.Position} {token : Token} {n : Int} (h : NumberOf token (.int n)) :
    EngineOf (.node "engine" place [.leaf token]) n

/-- The epoch of a tree. -/
inductive EpochOf : Tree → String → Prop where
  | mk {place : Option Source.Position} {token : Token} {s : String} (h : StringOf token s) :
    EpochOf (.node "epoch" place [.leaf token]) s

/-- What a node of the rule and with the subject does. -/
inductive SubjectOf (token : Token) : Literal → Action → Prop where
  | command {stem : String} (h : WordOf token stem) : SubjectOf token "command" (.command stem)
  | activate {sequence : String} (h : StringOf token sequence) (engine : Option Int)
    (epoch : Option String) : SubjectOf token "activate" (.call .activate sequence engine epoch)
  | load {sequence : String} (h : StringOf token sequence) (engine : Option Int)
    (epoch : Option String) : SubjectOf token "load" (.call .load sequence engine epoch)
  | groundBlock {name : String} (h : StringOf token name) :
    SubjectOf token "ground_block" (.ground .block name)
  | groundEvent {name : String} (h : StringOf token name) :
    SubjectOf token "ground_event" (.ground .event name)

/-- What a tree does, and its arguments. -/
inductive ActionOf : Tree → Action → List Argument → Prop where
  | mk {rule : Literal} {place : Option Source.Position} {token : Token} {tree : Tree} {a : Action}
    {arguments : List Argument} (hsubject : SubjectOf token rule a)
    (harguments : ArgumentsOf tree arguments) :
    ActionOf (.node rule place [.leaf token, tree]) a arguments

/-- The step of a tree. The arguments of a command are written even if there are none. -/
structure StepOf (tree : Tree) (s : Step) : Prop where
  rule : tree.isOf "step" = true
  line : ∃ time action rest, tree.children = time :: action :: rest ∧ TimeOf time s.time ∧
    ActionOf action s.action s.arguments
  description : DescriptionOf tree.tokens.head? s.description
  engine : List.Forall₂ EngineOf (tree.nodes "engine") s.action.engine?.toList
  epoch : List.Forall₂ EpochOf (tree.nodes "epoch") s.action.epoch?.toList
  metadata : MetadataOf (tree.nodes "metadata_entry") s.metadata
  models : List.Forall₂ ModelOf (tree.nodes "model_entry") s.models
  arguments_written : s.toJson.has "args" = true ↔
    (∃ stem, s.action = .command stem) ∨ s.arguments ≠ []
  metadata_written : GroupOf s.toJson "metadata" (tree.nodes "metadata_entry")
  models_written : GroupOf s.toJson "models" (tree.nodes "model_entry")

/-! ## Requests and sections -/

/-- The time or ground epoch of a tree. -/
inductive TimingOf : Tree → Option Time → Option GroundEpoch → Prop where
  | time {tree : Tree} {t : Time} (h : TimeOf tree t) : TimingOf tree (some t) none
  | groundEpoch {place : Option Source.Position} {token name : Token} {g : GroundEpoch}
    {called : String} (hname : StringOf name called) (hcalled : FilledOf called g.name)
    (hdelta : TagOf token g.delta) :
    TimingOf (.node "ground_epoch" place [.leaf token, .leaf name]) none (some g)

/-- The request of a tree. -/
structure RequestOf (tree : Tree) (r : Request) : Prop where
  rule : tree.isOf "request" = true
  line : ∃ timing name rest, tree.children = timing :: .leaf name :: rest ∧
    TimingOf timing r.time r.groundEpoch ∧ StringOf name r.name
  description : DescriptionOf (tree.tokens.drop 1).head? r.description
  steps : List.Forall₂ StepOf (tree.nodes "step") r.steps
  filled : r.steps ≠ []
  metadata : MetadataOf (tree.nodes "metadata_entry") r.metadata
  metadata_written : GroupOf r.toJson "metadata" (tree.nodes "metadata_entry")

/-- The immediate command of a tree. Its arguments are written even if there are none. -/
structure ImmediateOf (tree : Tree) (c : ImmediateCommand) : Prop where
  rule : tree.isOf "immediate_command" = true
  line : ∃ stem arguments rest, tree.children = .leaf stem :: arguments :: rest ∧
    WordOf stem c.stem ∧ ArgumentsOf arguments c.arguments
  description : DescriptionOf (tree.tokens.drop 1).head? c.description
  metadata : MetadataOf (tree.nodes "metadata_entry") c.metadata
  arguments_written : c.toJson.has "args" = true
  metadata_written : GroupOf c.toJson "metadata" (tree.nodes "metadata_entry")

/-- The hardware command of a tree. -/
structure HardwareOf (tree : Tree) (c : HardwareCommand) : Prop where
  rule : tree.isOf "hardware_command" = true
  line : ∃ stem rest, tree.children = .leaf stem :: rest ∧ WordOf stem c.stem
  description : DescriptionOf (tree.tokens.drop 1).head? c.description
  metadata : MetadataOf (tree.nodes "metadata_entry") c.metadata
  metadata_written : GroupOf c.toJson "metadata" (tree.nodes "metadata_entry")

/-! ## Declarations -/

/-- The type and enumeration of the words after a name. A single word that is no type names an
enumeration. -/
inductive TypingOf : List Token → Option VariableType → Option String → Prop where
  | none : TypingOf [] none none
  | type {token : Token} {t : VariableType} (h : WordOf token t.keyword) :
    TypingOf [token] (some t) none
  | enumeration {token : Token} {name : String} (h : WordOf token name)
    (hno : ∀ t : VariableType, t.keyword ≠ name) : TypingOf [token] none (some name)
  | both {first second : Token} {t : VariableType} {name : String} (h : WordOf first t.keyword)
    (hname : WordOf second name) : TypingOf [first, second] (some t) (some name)

/-- The range of a part of a list: two numbers with three points between them. -/
def RangeOf (part : List Char) (r : Range) : Prop :=
  ∃ low high, part = low ++ ('.' : Char) :: '.' :: '.' :: high ∧
    Number.read? (Character.trimBoth Character.isBlank low) = .ok (some r.min) ∧
    Number.read? (Character.trimBoth Character.isBlank high) = .ok (some r.max)

/-- The ranges of a list; an empty one lists none. -/
def RangesOf (list : String) (ranges : List Range) : Prop :=
  if list = "" then ranges = []
  else List.Forall₂ RangeOf (Cut.split ',' list.toList) ranges

/-- The value of a part of a list: a number, or else a text. -/
inductive AllowableValueOf (part : List Char) : AllowableValue → Prop where
  | number {n : Number} (h : Number.read? part = .ok (some n)) : AllowableValueOf part (.number n)
  | text {s : String} (h : Number.read? part = .ok none) (hs : part = s.toList) :
    AllowableValueOf part (.text s)

/-- The ranges and values of the strings of a declaration. -/
inductive ListsOf : List String → List Range → List AllowableValue → Prop where
  | none : ListsOf [] [] []
  | ranges {list : String} {ranges : List Range} (h : RangesOf list ranges) :
    ListsOf [list] ranges []
  | both {list other : String} {ranges : List Range} {values : List AllowableValue}
    (h : RangesOf list ranges)
    (hvalues : List.Forall₂ AllowableValueOf (Cut.split ',' other.toList) values) :
    ListsOf [list, other] ranges values

/-- The declaration of a tree. -/
structure DeclarationOf (tree : Tree) (d : Declaration) : Prop where
  rule : tree.isOf "variable_declaration" = true
  line : ∃ name details lists, tree.children = (name :: details).map .leaf ∧ WordOf name d.name ∧
    TypingOf (details.filter (·.kind != .string)) d.type d.enumName ∧
    List.Forall₂ StringOf (details.filter (·.kind == .string)) lists ∧
    ListsOf lists d.ranges d.values
  ranges_written : GroupOf d.toJson "allowable_ranges" d.ranges
  values_written : GroupOf d.toJson "allowable_values" d.values

/-! ## Documents -/

/-- The entry of a tree of the header: of metadata, or the load-and-go flag. -/
inductive HeaderEntryOf : Tree → String × Json.Value → Prop where
  | metadata {tree : Tree} {entry : String × Json.Value} (h : EntryOf tree entry) :
    HeaderEntryOf tree entry
  | loadAndGo (place : Option Source.Position) :
    HeaderEntryOf (.node "load_and_go" place []) ("lgo", .boolean true)

/-- The entries of the header. -/
def headerEntries (tree : Tree) : List Tree :=
  tree.children.filter fun t => t.isOf "metadata_entry" || t.isOf "load_and_go"

/-- The nodes of a rule inside the blocks or sections of another. -/
def inside (outer rule : Literal) (tree : Tree) : List Tree :=
  (tree.nodes outer).flatMap (Tree.nodes rule)

/-- The document of a tree. Its metadata are written even if there are none. -/
structure DocumentOf (tree : Tree) (d : Document) : Prop where
  id : ∃ place token rest, tree.nodes "id_declaration" =
    .node "id_declaration" place [.leaf token] :: rest ∧ StringOf token d.id
  metadata : ∃ entries, List.Forall₂ HeaderEntryOf (headerEntries tree) entries ∧
    DictionaryOf entries d.metadata
  parameters : List.Forall₂ DeclarationOf (inside "parameter_block" "variable_declaration" tree)
    d.parameters
  locals : List.Forall₂ DeclarationOf (inside "local_block" "variable_declaration" tree) d.locals
  steps : List.Forall₂ StepOf (tree.nodes "step") d.steps
  immediate : List.Forall₂ ImmediateOf (inside "immediate_block" "immediate_command" tree)
    d.immediateCommands
  hardware : List.Forall₂ HardwareOf (inside "hardware_block" "hardware_command" tree)
    d.hardwareCommands
  requests : List.Forall₂ RequestOf (tree.nodes "request") d.requests
  metadata_written : d.toJson.has "metadata" = true
  parameters_written : GroupOf d.toJson "parameters"
    (inside "parameter_block" "variable_declaration" tree)
  locals_written : GroupOf d.toJson "locals"
    (inside "local_block" "variable_declaration" tree)
  steps_written : GroupOf d.toJson "steps" (tree.nodes "step")
  immediate_written : GroupOf d.toJson "immediate_commands"
    (inside "immediate_block" "immediate_command" tree)
  hardware_written : GroupOf d.toJson "hardware_commands"
    (inside "hardware_block" "hardware_command" tree)
  requests_written : GroupOf d.toJson "requests" (tree.nodes "request")

end Contents

end CommandSequence
