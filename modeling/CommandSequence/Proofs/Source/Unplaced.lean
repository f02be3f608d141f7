import CommandSequence.Source.Outline

/-!
# Lines wherever they stand

A line without its places (`Line.unplaced`) is the line as if all its tokens stood at the beginning
of a text; likewise for the pieces of a line and for the items that lines make up. Blank lines and
comments say nothing (`Line.isIdle`). How lines are put together does not depend on where they
stand, and lines that say nothing make up comments alone, so what lines say (`substance`) determines
their items but for comments (`Outline.ofLines_substance`).
-/

namespace CommandSequence.Source

/-! ## Pieces of lines -/

/-- The token at the beginning of a text. -/
def Token.unplaced (token : Token) : Token :=
  { token with position := .origin }

namespace Value

mutual

/-- The value with its tokens at the beginning of a text. -/
def unplaced : Value → Value
  | .scalar token => .scalar token.unplaced
  | .array _ items => .array .origin (unplacedItems items)
  | .object _ members => .object .origin (unplacedMembers members)

@[inherit_doc unplaced]
def unplacedItems : List Value → List Value
  | [] => []
  | item :: rest => item.unplaced :: unplacedItems rest

@[inherit_doc unplaced]
def unplacedMembers : List (Token × Value) → List (Token × Value)
  | [] => []
  | (key, value) :: rest => (key.unplaced, value.unplaced) :: unplacedMembers rest

end

end Value

/-- The argument with its tokens at the beginning of a text. -/
def Argument.unplaced : Argument → Argument
  | .single token => .single token.unplaced
  | .group _ items => .group .origin (items.map Token.unplaced)

/-- The line of a step at the beginning of a text. -/
def StepLine.unplaced (line : StepLine) : StepLine where
  tag := line.tag.unplaced
  kind := line.kind
  position := .origin
  subject := line.subject.unplaced
  arguments := line.arguments.map Argument.unplaced
  description := line.description.map Token.unplaced

/-- The time tag or ground epoch at the beginning of a text. -/
def Timing.unplaced : Timing → Timing
  | .tag token => .tag token.unplaced
  | .groundEpoch token name => .groundEpoch token.unplaced name.unplaced

/-- The first line of a request at the beginning of a text. -/
def RequestLine.unplaced (line : RequestLine) : RequestLine :=
  ⟨line.timing.unplaced, line.name.unplaced, line.description.map Token.unplaced⟩

/-- The metadata line at the beginning of a text. -/
def MetadataLine.unplaced (line : MetadataLine) : MetadataLine :=
  ⟨.origin, line.key.unplaced, line.value.unplaced⟩

/-- The model line at the beginning of a text. -/
def ModelLine.unplaced (line : ModelLine) : ModelLine :=
  ⟨.origin, line.variableName.unplaced, line.value.unplaced, line.offset.unplaced⟩

/-- The directive at the beginning of a text. -/
def Directive.unplaced : Directive → Directive
  | .metadata line => .metadata line.unplaced
  | .model line => .model line.unplaced
  | .engine _ number => .engine .origin number.unplaced
  | .epoch _ name => .epoch .origin name.unplaced

/-- The line of a command at the beginning of a text. -/
def CommandLine.unplaced (line : CommandLine) : CommandLine where
  stem := line.stem.unplaced
  arguments := line.arguments.map Argument.unplaced
  description := line.description.map Token.unplaced

/-- The declaration at the beginning of a text. -/
def DeclarationItem.unplaced (item : DeclarationItem) : DeclarationItem :=
  ⟨item.name.unplaced, item.details.map Token.unplaced⟩

/-- The line at the beginning of a text. -/
def Line.unplaced : Line → Line
  | .blank => .blank
  | .comment text => .comment text.unplaced
  | .id _ name => .id .origin name.unplaced
  | .loadAndGo _ => .loadAndGo .origin
  | .metadata line => .metadata line.unplaced
  | .blockBegin _ b => .blockBegin .origin b
  | .declaration item => .declaration item.unplaced
  | .blockEnd b => .blockEnd b
  | .step line => .step line.unplaced
  | .directive d => .directive d.unplaced
  | .requestBegin line => .requestBegin line.unplaced
  | .requestEnd => .requestEnd
  | .sectionBegin _ kind => .sectionBegin .origin kind
  | .command kind line => .command kind line.unplaced

/-! ## Items -/

/-- The step at the beginning of a text. -/
def StepItem.unplaced (item : StepItem) : StepItem :=
  ⟨item.line.unplaced, item.directives.map Directive.unplaced⟩

/-- The request at the beginning of a text. -/
def RequestItem.unplaced (item : RequestItem) : RequestItem where
  line := item.line.unplaced
  steps := item.steps.map StepItem.unplaced
  metadata := item.metadata.map MetadataLine.unplaced

/-- The command at the beginning of a text. -/
def CommandItem.unplaced (item : CommandItem) : CommandItem :=
  ⟨item.line.unplaced, item.metadata.map MetadataLine.unplaced⟩

/-- The item at the beginning of a text. -/
def Item.unplaced : Item → Item
  | .comment text => .comment text.unplaced
  | .id _ name => .id .origin name.unplaced
  | .loadAndGo _ => .loadAndGo .origin
  | .metadata line => .metadata line.unplaced
  | .block _ b declarations => .block .origin b (declarations.map DeclarationItem.unplaced)
  | .step item => .step item.unplaced
  | .request item => .request item.unplaced
  | .section _ kind commands => .section .origin kind (commands.map CommandItem.unplaced)

namespace Outline

/-- What has been collected, as if it stood at the beginning of a text. -/
def Pending.unplaced (p : Pending) : Pending where
  directives := p.directives.map Directive.unplaced
  requestMetadata := p.requestMetadata.map (List.map MetadataLine.unplaced)
  steps := p.steps.map StepItem.unplaced
  declarations := p.declarations.map DeclarationItem.unplaced
  commands := p.commands.map CommandItem.unplaced
  items := p.items.map Item.unplaced

theorem metadataOf_unplaced (ds : List Directive) :
    metadataOf (ds.map Directive.unplaced) = (metadataOf ds).map MetadataLine.unplaced := by
  unfold metadataOf
  rw [List.filterMap_map, List.map_filterMap]
  refine congrArg (fun f => List.filterMap f ds) (funext fun d => ?_)
  cases d <;> rfl

theorem Pending.add_unplaced (line : Line) (p : Pending) :
    (p.add line).unplaced = p.unplaced.add line.unplaced := by
  cases line with
  | step line =>
    simp only [add, Line.unplaced, unplaced]
    cases p.requestMetadata <;>
      simp [addItem, Item.unplaced, StepItem.unplaced]
  | requestEnd => simp [add, Line.unplaced, unplaced, metadataOf_unplaced]
  | requestBegin line =>
    simp only [add, Line.unplaced, unplaced, addItem]
    cases p.requestMetadata <;> simp [Item.unplaced, RequestItem.unplaced]
  | command kind line =>
    simp [add, Line.unplaced, unplaced, metadataOf_unplaced, CommandItem.unplaced]
  | _ => simp [add, Line.unplaced, unplaced, addItem, Item.unplaced]

/-- How lines are put together does not depend on where they stand. -/
theorem ofLines_unplaced (lines : List Line) :
    ofLines (lines.map Line.unplaced) = (ofLines lines).map Item.unplaced := by
  have hfold : (lines.map Line.unplaced).foldr Pending.add {} =
      (lines.foldr Pending.add {}).unplaced := by
    induction lines with
    | nil => rfl
    | cons line lines ih =>
      rw [List.map_cons, List.foldr_cons, List.foldr_cons, ih, Pending.add_unplaced]
  unfold ofLines
  rw [hfold]
  rfl

end Outline

/-! ## Lines that say nothing -/

/-- The line says nothing. -/
def Line.isIdle : Line → Bool
  | .blank | .comment _ => true
  | _ => false

/-- The item is a comment. -/
def Item.isComment : Item → Bool
  | .comment _ => true
  | _ => false

/-- What lines say: those that say anything, apart from their places. -/
def substance (lines : List Line) : List Line :=
  (lines.map Line.unplaced).filter fun line => !line.isIdle

theorem substance_cons {line : Line} (h : line.isIdle = true) (lines : List Line) :
    substance (line :: lines) = substance lines := by
  have hunplaced : line.unplaced.isIdle = true := by
    cases line
    all_goals first | rfl | cases h
  simp [substance, hunplaced]

namespace Outline

/-- Lines that say nothing make up comments alone. -/
theorem ofLines_filter (lines : List Line) : ofLines (lines.filter fun line => !line.isIdle) =
    (ofLines lines).filter fun item => !item.isComment := by
  let plain (p : Pending) : Pending :=
    { p with items := p.items.filter fun item => !item.isComment }
  have hadd (line : Line) (p : Pending) : plain (p.add line) =
      if line.isIdle then plain p else (plain p).add line := by
    cases line with
    | step line =>
      simp only [plain, Pending.add]
      cases p.requestMetadata <;> rfl
    | _ => rfl
  have hfold : (lines.filter fun line => !line.isIdle).foldr Pending.add {} =
      plain (lines.foldr Pending.add {}) := by
    induction lines with
    | nil => rfl
    | cons line lines ih =>
      rw [List.foldr_cons, hadd, ← ih]
      cases hidle : line.isIdle <;> simp [hidle]
  unfold ofLines
  rw [hfold]

theorem ofLines_substance (lines : List Line) : ofLines (substance lines) =
    ((ofLines lines).map Item.unplaced).filter fun item => !item.isComment := by
  rw [substance, ofLines_filter, ofLines_unplaced]

end Outline

end CommandSequence.Source
