import CommandSequence.Source.Outline

/-!
# The syntax tree

The tree view of an outline: each construct is a node labelled with its rule, with the place of its
first token, and its leaves are the tokens that carry meaning. A node without tokens has no place.
-/

namespace CommandSequence.Source

/-- A node of a syntax tree. -/
inductive Tree where
  | node (rule : Literal) (position : Option Position) (children : List Tree)
  | leaf (token : Token)

namespace Tree

/-- A node that has one token. -/
def wrapped (rule : Literal) (token : Token) : Tree :=
  .node rule (some token.position) [.leaf token]

/-- A description, if there is one. -/
def ofDescription (description : Option Token) : List Tree :=
  (description.map Tree.leaf).toList

/-- The rule of a scalar value. -/
def scalarRule : Terminal → Literal
  | .string => "json_string"
  | .number => "json_number"
  | .boolean => "json_boolean"
  | _ => "json_null"

mutual

/-- The tree of a value. -/
def ofValue : Value → Tree
  | .scalar token => wrapped (scalarRule token.kind) token
  | .array position items => .node "json_array" (some position) (ofItems items)
  | .object position members => .node "json_object" (some position) (ofMembers members)

@[inherit_doc ofValue]
def ofItems : List Value → List Tree
  | [] => []
  | item :: rest => ofValue item :: ofItems rest

/-- The trees of the members of an object. -/
def ofMembers : List (Token × Value) → List Tree
  | [] => []
  | (key, value) :: rest =>
    .node "json_pair" (some key.position) [.leaf key, ofValue value] :: ofMembers rest

end

/-- The rule of a single-token argument. -/
def argumentRule : Terminal → Literal
  | .string => "string_argument"
  | .number => "number_argument"
  | .boolean => "boolean_argument"
  | .hex => "hex_argument"
  | _ => "symbol_argument"

/-- The tree of a single-token argument. -/
def ofSingle (token : Token) : Tree :=
  wrapped (argumentRule token.kind) token

/-- The tree of an argument. -/
def ofArgument : Argument → Tree
  | .single token => ofSingle token
  | .group position items => .node "repeat_argument" (some position) (items.map ofSingle)

/-- The tree of a list of arguments. -/
def ofArguments (arguments : List Argument) : Tree :=
  .node "args" (arguments.head?.map Argument.position) (arguments.map ofArgument)

/-- The rule of a time tag. -/
def tagRule : Terminal → Literal
  | .absoluteTime => "absolute_time"
  | .commandComplete => "command_complete"
  | .commandRelative => "command_relative"
  | _ => "epoch_relative"

/-- The tree of a time tag. -/
def ofTag (token : Token) : Tree :=
  wrapped (tagRule token.kind) token

/-- The tree of a metadata line. -/
def ofMetadata (line : MetadataLine) : Tree :=
  .node "metadata_entry" (some line.position) [.leaf line.key, ofValue line.value]

/-- The tree of a directive. -/
def ofDirective : Directive → Tree
  | .metadata line => ofMetadata line
  | .model line =>
    .node "model_entry" (some line.position)
      [.leaf line.variableName, .leaf line.value, .leaf line.offset]
  | .engine position number => .node "engine" (some position) [.leaf number]
  | .epoch position name => .node "epoch" (some position) [.leaf name]

/-- The rule of what a step does. -/
def stepRule : StepKind → Literal
  | .command => "command"
  | .activate => "activate"
  | .load => "load"
  | .groundBlock => "ground_block"
  | .groundEvent => "ground_event"

/-- The tree of a step. -/
def ofStep (step : StepItem) : Tree :=
  let line := step.line
  .node "step" (some line.tag.position)
    (ofTag line.tag
      :: .node (stepRule line.kind) (some line.position)
        [.leaf line.subject, ofArguments line.arguments]
      :: (ofDescription line.description ++ step.directives.map ofDirective))

/-- The tree of a request's timing. -/
def ofTiming : Timing → Tree
  | .tag token => ofTag token
  | .groundEpoch token name =>
    .node "ground_epoch" (some token.position) [.leaf token, .leaf name]

/-- The tree of a request. -/
def ofRequest (request : RequestItem) : Tree :=
  let line := request.line
  .node "request" (some line.timing.position)
    (ofTiming line.timing :: .leaf line.name
      :: (ofDescription line.description ++ request.steps.map ofStep
        ++ request.metadata.map ofMetadata))

/-- The tree of a command of a section. -/
def ofCommand (kind : Section) (command : CommandItem) : Tree :=
  let line := command.line
  let rest := ofDescription line.description ++ command.metadata.map ofMetadata
  match kind with
  | .immediate => .node "immediate_command" (some line.stem.position)
      (.leaf line.stem :: ofArguments line.arguments :: rest)
  | .hardware => .node "hardware_command" (some line.stem.position) (.leaf line.stem :: rest)

/-- The tree of a declaration. -/
def ofDeclaration (item : DeclarationItem) : Tree :=
  .node "variable_declaration" (some item.name.position) ((item.name :: item.details).map .leaf)

/-- The tree of an item. -/
def ofItem : Item → Tree
  | .comment text => wrapped "file_comment" text
  | .id position name => .node "id_declaration" (some position) [.leaf name]
  | .loadAndGo position => .node "load_and_go" (some position) []
  | .metadata line => ofMetadata line
  | .block position block declarations =>
    let rule := match block with
      | .parameters => "parameter_block"
      | .locals => "local_block"
    .node rule (some position) (declarations.map ofDeclaration)
  | .step step => ofStep step
  | .request request => ofRequest request
  | .section position kind commands =>
    let rule := match kind with
      | .immediate => "immediate_block"
      | .hardware => "hardware_block"
    .node rule (some position) (commands.map (ofCommand kind))

end Tree

/-- The tree of an outline. -/
def Outline.tree (outline : Outline) : Tree :=
  .node "start" (some outline.position) (outline.items.map Tree.ofItem)

end CommandSequence.Source
