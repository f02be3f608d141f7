import CommandSequence.Proofs.Number.LongRuns
import CommandSequence.Proofs.Source.Taken
import CommandSequence.Source.Tree
import Mathlib.Computability.RegularExpressions

/-!
# The shape of syntax trees

The rule of a node says which children it has: `Tree.shape` gives it as a regular expression over
the labels of the children. A tree is grammatical (`Tree.Grammatical`) if each of its nodes has such
children and each of its numerals spells a number. There is one lemma for each construct, from what
is known of its tokens.
-/

namespace CommandSequence.Source.Tree

/-- What a child is known by: the rule of a node or the kind of a token. -/
inductive Label where
  | rule (name : Literal)
  | token (kind : Terminal)
deriving DecidableEq

namespace Label

/-- One child, of the given labels. -/
def one (labels : List Label) : RegularExpression Label :=
  (labels.map .char).sum

/-- One child, of the given labels, or none. -/
def maybe (labels : List Label) : RegularExpression Label :=
  1 + one labels

/-- Any count of children, all of the given labels. -/
def many (labels : List Label) : RegularExpression Label :=
  .star (one labels)

variable {labels word word' : List Label} {s : Label} {P Q : RegularExpression Label}

theorem mem_one (h : s ∈ labels) : [s] ∈ (one labels).matches' := by
  induction labels with
  | nil => cases h
  | cons first labels ih =>
    rw [one, List.map_cons, List.sum_cons, RegularExpression.matches'_add]
    rcases List.mem_cons.1 h with rfl | h
    · exact .inl rfl
    · exact .inr (ih h)

theorem nil_mem_maybe : [] ∈ (maybe labels).matches' :=
  .inl rfl

theorem mem_maybe (h : s ∈ labels) : [s] ∈ (maybe labels).matches' :=
  .inr (mem_one h)

theorem mem_many (h : ∀ s ∈ word, s ∈ labels) : word ∈ (many labels).matches' := by
  rw [many, RegularExpression.matches'_star, Language.mem_kstar]
  refine ⟨word.map fun s => [s], (List.flatMap_singleton' word).symm, ?_⟩
  simp only [List.mem_map, forall_exists_index, and_imp, forall_apply_eq_imp_iff₂]
  exact fun s hs => mem_one (h s hs)

theorem append_mem (h : word ∈ P.matches') (h' : word' ∈ Q.matches') :
    word ++ word' ∈ (P * Q).matches' := by
  rw [RegularExpression.matches'_mul]
  exact Language.append_mem_mul h h'

end Label

open Label (one maybe many)

/-- The label of a tree. -/
def label : Tree → Label
  | .node rule _ _ => .rule rule
  | .leaf token => .token token.kind

/-- The rules of time tags. -/
def timeRules : List Label :=
  [.rule "absolute_time", .rule "command_complete", .rule "command_relative",
    .rule "epoch_relative"]

/-- The rules of single arguments. -/
def argumentRules : List Label :=
  [.rule "string_argument", .rule "number_argument", .rule "boolean_argument", .rule "hex_argument",
    .rule "symbol_argument"]

/-- The rules of values. -/
def valueRules : List Label :=
  [.rule "json_object", .rule "json_array", .rule "json_string", .rule "json_number",
    .rule "json_boolean", .rule "json_null"]

/-- The rules of what steps do. -/
def stepRules : List Label :=
  [.rule "command", .rule "activate", .rule "load", .rule "ground_block", .rule "ground_event"]

/-- The rules of directives. -/
def directiveRules : List Label :=
  [.rule "metadata_entry", .rule "model_entry", .rule "engine", .rule "epoch"]

/-- The rules of items. -/
def itemRules : List Label :=
  [.rule "file_comment", .rule "id_declaration", .rule "load_and_go", .rule "metadata_entry",
    .rule "parameter_block", .rule "local_block", .rule "step", .rule "request",
    .rule "immediate_block", .rule "hardware_block"]

/-- The children of a node of the rule. -/
def shape (rule : Literal) : RegularExpression Label :=
  let description := maybe [.token .description]
  let metadata := many [.rule "metadata_entry"]
  match rule with
  | "start" => many itemRules
  | "file_comment" => one [.token .description]
  | "id_declaration" => one [.token .string]
  | "load_and_go" => 1
  | "parameter_block" | "local_block" => many [.rule "variable_declaration"]
  | "variable_declaration" =>
    one [.token .identifier] * (maybe [.token .identifier] * maybe [.token .identifier])
      * (maybe [.token .string] * maybe [.token .string])
  | "step" => one timeRules * one stepRules * description * many directiveRules
  | "command" => one [.token .identifier] * one [.rule "args"]
  | "activate" | "load" | "ground_block" | "ground_event" =>
    one [.token .string] * one [.rule "args"]
  | "engine" => one [.token .number]
  | "epoch" => one [.token .string]
  | "request" =>
    one (.rule "ground_epoch" :: timeRules) * one [.token .string] * description
      * many [.rule "step"] * metadata
  | "ground_epoch" => one [.token .groundEpoch] * one [.token .string]
  | "immediate_block" => many [.rule "immediate_command"]
  | "immediate_command" =>
    one [.token .identifier] * one [.rule "args"] * description * metadata
  | "hardware_block" => many [.rule "hardware_command"]
  | "hardware_command" => one [.token .identifier] * description * metadata
  | "absolute_time" => one [.token .absoluteTime]
  | "command_complete" => one [.token .commandComplete]
  | "command_relative" => one [.token .commandRelative]
  | "epoch_relative" => one [.token .epochRelative]
  | "args" => many (.rule "repeat_argument" :: argumentRules)
  | "repeat_argument" => many argumentRules
  | "string_argument" | "json_string" => one [.token .string]
  | "number_argument" | "json_number" => one [.token .number]
  | "boolean_argument" | "json_boolean" => one [.token .boolean]
  | "hex_argument" => one [.token .hex]
  | "symbol_argument" => one [.token .identifier]
  | "json_null" => one [.token .null]
  | "metadata_entry" | "json_pair" => one [.token .string] * one valueRules
  | "model_entry" =>
    one [.token .string, .token .identifier] *
      one [.token .string, .token .number, .token .boolean] * one [.token .string]
  | "json_object" => many [.rule "json_pair"]
  | "json_array" => many valueRules
  | _ => 0

/-- Every node has the children that its rule demands, and every numeral spells a number. -/
inductive Grammatical : Tree → Prop where
  | leaf {token : Token} (h : token.kind = .number → Number.read? token.text ≠ .ok none) :
    Grammatical (.leaf token)
  | node {rule : Literal} {position : Option Position} {children : List Tree}
    (hshape : children.map label ∈ (shape rule).matches')
    (hchildren : ∀ child ∈ children, Grammatical child) : Grammatical (.node rule position children)

variable {token : Token} {kinds : List Terminal} {position : Option Position} {rule : Literal}

/-! ## Tokens -/

/-- A token that was cut as its kind is makes a leaf. -/
theorem grammatical_leaf (h : token.Of kinds) : (leaf token).Grammatical := by
  obtain ⟨text, left, hcut⟩ := h.cut
  refine .leaf fun hkind => ?_
  rw [hkind] at hcut
  exact Number.read?_ne_none (Numeral.Stage.accepts_of_cut? hcut)

theorem grammatical_wrapped (h : token.Of kinds)
    (hshape : [.token token.kind] ∈ (shape rule).matches') : (wrapped rule token).Grammatical :=
  .node hshape (by simpa using grammatical_leaf h)

/-- The token in a description, if there is one, is of its kind. -/
def IsDescription (description : Option Token) : Prop :=
  ∀ token ∈ description, token.Of [.description]

theorem grammatical_ofDescription {description : Option Token} (h : IsDescription description) :
    ∀ child ∈ ofDescription description, child.Grammatical := by
  cases description with
  | none => exact List.forall_mem_nil _
  | some token => simpa [ofDescription] using grammatical_leaf (h token rfl)

theorem ofDescription_mem {description : Option Token} (h : IsDescription description) :
    (ofDescription description).map label ∈ (maybe [.token .description]).matches' := by
  cases description with
  | none => exact Label.nil_mem_maybe
  | some token =>
    have hkind := List.mem_singleton.1 (h token rfl).kind
    simp only [ofDescription, Option.map_some, Option.toList_some, List.map_cons, List.map_nil,
      label, hkind]
    exact Label.mem_maybe (List.mem_singleton.2 rfl)

/-! ## Values -/

theorem label_ofValue (v : Value) : (ofValue v).label ∈ valueRules := by
  cases v with
  | scalar token =>
    simp only [ofValue, wrapped, label]
    cases token.kind <;> decide
  | array => simp [ofValue, label, valueRules]
  | object => simp [ofValue, label, valueRules]

theorem grammatical_scalar (h : token.Of [.string, .number, .boolean, .null]) :
    (ofValue (.scalar token)).Grammatical := by
  refine grammatical_wrapped h ?_
  have hkind := h.kind
  simp only [List.mem_cons, List.not_mem_nil, or_false] at hkind
  rcases hkind with hkind | hkind | hkind | hkind <;> rw [hkind] <;>
    exact Label.mem_one (List.mem_singleton.2 rfl)

/-- Every item of the array is grammatical. -/
def AreItems (items : List Value) : Prop :=
  ∀ child ∈ ofItems items, child.Grammatical

/-- Every member of the object is grammatical. -/
def AreMembers (members : List (Token × Value)) : Prop :=
  ∀ child ∈ ofMembers members, child.Grammatical

theorem grammatical_array {place : Position} {items : List Value} (h : AreItems items) :
    (ofValue (.array place items)).Grammatical := by
  refine .node (Label.mem_many ?_) h
  induction items with
  | nil => exact List.forall_mem_nil _
  | cons item items ih =>
    obtain ⟨-, hitems⟩ := List.forall_mem_cons.1 h
    exact List.forall_mem_cons.2 ⟨label_ofValue item, ih hitems⟩

theorem grammatical_object {place : Position} {members : List (Token × Value)}
    (h : AreMembers members) : (ofValue (.object place members)).Grammatical := by
  refine .node (Label.mem_many ?_) h
  induction members with
  | nil => exact List.forall_mem_nil _
  | cons member members ih =>
    obtain ⟨-, hmembers⟩ := List.forall_mem_cons.1 h
    exact List.forall_mem_cons.2 ⟨List.mem_singleton.2 rfl, ih hmembers⟩

/-- A key and a value, of a member or of a metadata entry. -/
theorem keyed_mem {key : Token} (v : Value) (h : key.Of [.string]) :
    [leaf key, ofValue v].map label ∈ (one [.token .string] * one valueRules).matches' := by
  have hlabel : [Label.token key.kind] ∈ (one [.token .string]).matches' := by
    rw [List.mem_singleton.1 h.kind]
    exact Label.mem_one (List.mem_singleton.2 rfl)
  exact Label.append_mem hlabel (Label.mem_one (label_ofValue v))

theorem grammatical_keyed {key : Token} {v : Value} (hkey : key.Of [.string])
    (hvalue : (ofValue v).Grammatical) : ∀ child ∈ [leaf key, ofValue v], child.Grammatical := by
  simpa using ⟨grammatical_leaf hkey, hvalue⟩

theorem AreMembers.cons {key : Token} {v : Value} {members : List (Token × Value)}
    (hkey : key.Of [.string]) (hvalue : (ofValue v).Grammatical) (h : AreMembers members) :
    AreMembers ((key, v) :: members) :=
  List.forall_mem_cons.2 ⟨.node (keyed_mem v hkey) (grammatical_keyed hkey hvalue), h⟩

theorem AreItems.cons {v : Value} {items : List Value} (hvalue : (ofValue v).Grammatical)
    (h : AreItems items) : AreItems (v :: items) :=
  List.forall_mem_cons.2 ⟨hvalue, h⟩

theorem grammatical_ofMetadata {line : MetadataLine} (hkey : line.key.Of [.string])
    (hvalue : (ofValue line.value).Grammatical) : (ofMetadata line).Grammatical :=
  .node (keyed_mem line.value hkey) (grammatical_keyed hkey hvalue)

/-! ## Arguments and times -/

theorem label_ofArgument (a : Argument) :
    (ofArgument a).label ∈ .rule "repeat_argument" :: argumentRules := by
  cases a with
  | single token =>
    simp only [ofArgument, ofSingle, wrapped, label]
    cases token.kind <;> decide
  | group => exact List.mem_cons_self

theorem label_ofSingle (token : Token) : (ofSingle token).label ∈ argumentRules := by
  simp only [ofSingle, wrapped, label]
  cases token.kind <;> decide

theorem grammatical_ofSingle (h : token.Of Line.argumentKinds) : (ofSingle token).Grammatical := by
  refine grammatical_wrapped h ?_
  have hkind := h.kind
  simp only [Line.argumentKinds, List.mem_cons, List.not_mem_nil, or_false] at hkind
  rcases hkind with hkind | hkind | hkind | hkind | hkind <;> rw [hkind] <;>
    exact Label.mem_one (List.mem_singleton.2 rfl)

theorem grammatical_group {place : Position} {items : List Token}
    (h : ∀ token ∈ items, token.Of Line.argumentKinds) :
    (ofArgument (.group place items)).Grammatical := by
  refine .node (Label.mem_many ?_) ?_
  · simpa using fun token _ => label_ofSingle token
  · simpa using fun token hmem => grammatical_ofSingle (h token hmem)

/-- Every argument is grammatical. -/
def AreArguments (arguments : List Argument) : Prop :=
  ∀ a ∈ arguments, (ofArgument a).Grammatical

theorem grammatical_ofArguments {arguments : List Argument} (h : AreArguments arguments) :
    (ofArguments arguments).Grammatical := by
  refine .node (Label.mem_many ?_) ?_
  · simpa using fun a _ => label_ofArgument a
  · exact List.forall_mem_map.2 h

theorem label_ofTag (token : Token) : (ofTag token).label ∈ timeRules := by
  simp only [ofTag, wrapped, label]
  cases token.kind <;> decide

theorem grammatical_ofTag (h : token.Of timeTags) : (ofTag token).Grammatical := by
  refine grammatical_wrapped h ?_
  have hkind := h.kind
  simp only [timeTags, List.mem_cons, List.not_mem_nil, or_false] at hkind
  rcases hkind with hkind | hkind | hkind | hkind <;> rw [hkind] <;>
    exact Label.mem_one (List.mem_singleton.2 rfl)

/-! ## Steps -/

theorem label_ofDirective (d : Directive) : (ofDirective d).label ∈ directiveRules := by
  cases d <;> simp [ofDirective, ofMetadata, label, directiveRules]

theorem label_leaf {kind : Terminal} (h : token.Of [kind]) :
    (leaf token).label ∈ [Label.token kind] :=
  List.mem_singleton.2 (congrArg Label.token (List.mem_singleton.1 h.kind))

theorem grammatical_engine {place : Position} (h : token.Of [.number]) :
    (ofDirective (.engine place token)).Grammatical :=
  .node (Label.mem_one (label_leaf h)) (by simpa using grammatical_leaf h)

theorem grammatical_epoch {place : Position} (h : token.Of [.string]) :
    (ofDirective (.epoch place token)).Grammatical :=
  .node (Label.mem_one (label_leaf h)) (by simpa using grammatical_leaf h)

theorem grammatical_model {line : ModelLine} (hname : line.variableName.Of [.string, .identifier])
    (hvalue : line.value.Of [.string, .number, .boolean]) (hoffset : line.offset.Of [.string]) :
    (ofDirective (.model line)).Grammatical := by
  have hlabel {token : Token} {kinds : List Terminal} (h : token.Of kinds) :
      (leaf token).label ∈ kinds.map Label.token :=
    List.mem_map_of_mem h.kind
  refine .node (Label.append_mem (Label.append_mem (Label.mem_one (hlabel hname))
    (Label.mem_one (hlabel hvalue))) (Label.mem_one (hlabel hoffset))) ?_
  simpa using ⟨grammatical_leaf hname, grammatical_leaf hvalue, grammatical_leaf hoffset⟩

/-- The kind of token that names the subject of a step. -/
def subjectKind : StepKind → Terminal
  | .command => .identifier
  | _ => .string

/-- With whatever directives, the step of the line is grammatical. -/
def IsStepLine (line : StepLine) : Prop :=
  ∀ ds : List Directive, (∀ d ∈ ds, (ofDirective d).Grammatical) →
    (ofStep ⟨line, ds⟩).Grammatical

theorem isStepLine {line : StepLine} (htag : line.tag.Of timeTags)
    (hsubject : line.subject.Of [subjectKind line.kind]) (harguments : AreArguments line.arguments)
    (hdescription : IsDescription line.description) : IsStepLine line := by
  intro ds hds
  have hargs : (ofArguments line.arguments).label ∈ [Label.rule "args"] := List.mem_singleton.2 rfl
  have hrule : Label.rule (stepRule line.kind) ∈ stepRules := by cases line.kind <;> decide
  have haction : (Tree.node (stepRule line.kind) (some line.position)
      [leaf line.subject, ofArguments line.arguments]).Grammatical := by
    refine .node ?_ (by simpa using ⟨grammatical_leaf hsubject, grammatical_ofArguments harguments⟩)
    have hword := Label.append_mem (Label.mem_one (label_leaf hsubject)) (Label.mem_one hargs)
    cases hkind : line.kind <;> rw [hkind] at hword <;> exact hword
  have hdirectives : ∀ s ∈ (ds.map ofDirective).map label, s ∈ directiveRules := by
    simpa using fun d _ => label_ofDirective d
  refine .node ?_ ?_
  · rw [List.map_cons, List.map_cons, List.map_append]
    exact Label.append_mem
      (Label.append_mem (Label.append_mem (Label.mem_one (label_ofTag line.tag))
      (Label.mem_one hrule)) (ofDescription_mem hdescription)) (Label.mem_many hdirectives)
  · simp only [List.forall_mem_cons, List.forall_mem_append, List.forall_mem_map]
    exact ⟨grammatical_ofTag htag, haction, grammatical_ofDescription hdescription, hds⟩

/-! ## Requests and sections -/

theorem label_ofTiming (t : Timing) : (ofTiming t).label ∈ .rule "ground_epoch" :: timeRules := by
  cases t with
  | tag token => exact List.mem_cons_of_mem _ (label_ofTag token)
  | groundEpoch => exact List.mem_cons_self

theorem grammatical_groundEpoch {name : Token} (htoken : token.Of [.groundEpoch])
    (hname : name.Of [.string]) : (ofTiming (.groundEpoch token name)).Grammatical := by
  refine .node (Label.append_mem (Label.mem_one (label_leaf htoken))
    (Label.mem_one (label_leaf hname))) ?_
  simpa using ⟨grammatical_leaf htoken, grammatical_leaf hname⟩

theorem metadata_mem (lines : List MetadataLine) :
    (lines.map ofMetadata).map label ∈ (many [.rule "metadata_entry"]).matches' := by
  refine Label.mem_many ?_
  simp [ofMetadata, label]

/-- With whatever steps and metadata, the request of the line is grammatical. -/
def IsRequestLine (line : RequestLine) : Prop :=
  ∀ (steps : List StepItem) (metadata : List MetadataLine), (∀ s ∈ steps, (ofStep s).Grammatical) →
    (∀ m ∈ metadata, (ofMetadata m).Grammatical) → (ofRequest ⟨line, steps, metadata⟩).Grammatical

theorem isRequestLine {line : RequestLine} (htiming : (ofTiming line.timing).Grammatical)
    (hname : line.name.Of [.string]) (hdescription : IsDescription line.description) :
    IsRequestLine line := by
  intro steps metadata hsteps hmetadata
  have hstep : ∀ s ∈ (steps.map ofStep).map label, s ∈ [Label.rule "step"] := by
    simp [ofStep, label]
  refine .node ?_ ?_
  · rw [List.map_cons, List.map_cons, List.map_append, List.map_append]
    exact Label.append_mem (Label.append_mem (Label.append_mem (Label.append_mem
      (Label.mem_one (label_ofTiming line.timing)) (Label.mem_one (label_leaf hname)))
      (ofDescription_mem hdescription)) (Label.mem_many hstep)) (metadata_mem metadata)
  · simp only [List.forall_mem_cons, List.forall_mem_append, List.forall_mem_map]
    exact ⟨htiming, grammatical_leaf hname, ⟨grammatical_ofDescription hdescription, hsteps⟩,
      hmetadata⟩

/-- In either section and with whatever metadata, the command of the line is grammatical. -/
def IsCommandLine (line : CommandLine) : Prop :=
  ∀ (kind : Section) (metadata : List MetadataLine), (∀ m ∈ metadata, (ofMetadata m).Grammatical) →
    (ofCommand kind ⟨line, metadata⟩).Grammatical

theorem isCommandLine {line : CommandLine} (hstem : line.stem.Of [.identifier])
    (harguments : AreArguments line.arguments) (hdescription : IsDescription line.description) :
    IsCommandLine line := by
  intro kind metadata hmetadata
  have hargs : (ofArguments line.arguments).label ∈ [Label.rule "args"] := List.mem_singleton.2 rfl
  have hrest : ∀ child ∈ ofDescription line.description ++ metadata.map ofMetadata,
      child.Grammatical := by
    simp only [List.forall_mem_append, List.forall_mem_map]
    exact ⟨grammatical_ofDescription hdescription, hmetadata⟩
  cases kind with
  | immediate =>
    refine .node ?_ ?_
    · rw [List.map_cons, List.map_cons, List.map_append]
      exact Label.append_mem (Label.append_mem (Label.append_mem (Label.mem_one (label_leaf hstem))
        (Label.mem_one hargs)) (ofDescription_mem hdescription)) (metadata_mem metadata)
    · exact List.forall_mem_cons.2 ⟨grammatical_leaf hstem,
        List.forall_mem_cons.2 ⟨grammatical_ofArguments harguments, hrest⟩⟩
  | hardware =>
    refine .node ?_ (List.forall_mem_cons.2 ⟨grammatical_leaf hstem, hrest⟩)
    rw [List.map_cons, List.map_append]
    exact Label.append_mem (Label.append_mem (Label.mem_one (label_leaf hstem))
      (ofDescription_mem hdescription)) (metadata_mem metadata)

/-! ## Declarations -/

/-- At most two children of a kind. -/
theorem pair_mem {kind : Terminal} {tokens : List Token} (h : ∀ token ∈ tokens, token.Of [kind])
    (hlength : tokens.length ≤ 2) :
    (tokens.map leaf).map label ∈ (maybe [.token kind] * maybe [.token kind]).matches' := by
  match tokens with
  | [] => exact Label.append_mem Label.nil_mem_maybe Label.nil_mem_maybe
  | [first] =>
    exact Label.append_mem (Label.mem_maybe (label_leaf (h first (by simp)))) Label.nil_mem_maybe
  | [first, second] =>
    exact Label.append_mem (Label.mem_maybe (label_leaf (h first (by simp))))
      (Label.mem_maybe (label_leaf (h second (by simp))))

theorem grammatical_ofDeclaration {name : Token} {words strings : List Token}
    (hname : name.Of [.identifier]) (hwords : ∀ token ∈ words, token.Of [.identifier])
    (hstrings : ∀ token ∈ strings, token.Of [.string])
    (hlengths : words.length ≤ 2 ∧ strings.length ≤ 2) :
    (ofDeclaration ⟨name, words ++ strings⟩).Grammatical := by
  refine .node ?_ ?_
  · rw [List.map_cons, List.map_cons, List.map_append, List.map_append]
    exact Label.append_mem (Label.append_mem (Label.mem_one (label_leaf hname))
      (pair_mem hwords hlengths.1)) (pair_mem hstrings hlengths.2)
  · simp only [List.map_cons, List.forall_mem_cons, List.forall_mem_map, List.forall_mem_append]
    exact ⟨grammatical_leaf hname, fun token hmem => grammatical_leaf (hwords token hmem),
      fun token hmem => grammatical_leaf (hstrings token hmem)⟩

end CommandSequence.Source.Tree
