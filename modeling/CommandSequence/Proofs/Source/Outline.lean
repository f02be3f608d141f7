import CommandSequence.Source.Outline

/-!
# The lines of an outline

`Item.lines` lists the lines that an item is made of. The outline of the lines of items is the items
again (`Outline.ofLines_lines`): collecting from the end, the lines of one item add just that item,
as long as nothing below waits for a line above.
-/

namespace CommandSequence.Source

/-- The lines of a step. -/
def StepItem.lines (s : StepItem) : List Line :=
  .step s.line :: s.directives.map .directive

/-- The lines of metadata below a request or command. -/
def metadataLines (lines : List MetadataLine) : List Line :=
  lines.map fun line => .directive (.metadata line)

/-- The lines of a request. -/
def RequestItem.lines (r : RequestItem) : List Line :=
  .requestBegin r.line ::
    (r.steps.flatMap StepItem.lines ++ .requestEnd :: metadataLines r.metadata)

/-- The lines of a command of a section. -/
def CommandItem.lines (kind : Section) (c : CommandItem) : List Line :=
  .command kind c.line :: metadataLines c.metadata

/-- The lines of an item. -/
def Item.lines : Item → List Line
  | .comment text => [.comment text]
  | .id position name => [.id position name]
  | .loadAndGo position => [.loadAndGo position]
  | .metadata line => [.metadata line]
  | .block position kind declarations =>
    .blockBegin position kind :: (declarations.map .declaration ++ [.blockEnd kind])
  | .step s => s.lines
  | .request r => r.lines
  | .section position kind commands =>
    .sectionBegin position kind :: commands.flatMap (CommandItem.lines kind)

namespace Outline

namespace Pending

variable {p : Pending}

/-- Nothing that has been collected waits for the line that it belongs to. -/
structure Idle (p : Pending) : Prop where
  directives : p.directives = []
  requestMetadata : p.requestMetadata = none
  steps : p.steps = []
  declarations : p.declarations = []
  commands : p.commands = []

theorem foldr_directives (ds : List Directive) (p : Pending) :
    (ds.map Line.directive).foldr add p = { p with directives := ds ++ p.directives } := by
  induction ds with
  | nil => rfl
  | cons d ds ih => rw [List.map_cons, List.foldr_cons, ih]; rfl

theorem metadataOf_map (lines : List MetadataLine) :
    metadataOf (lines.map Directive.metadata) = lines := by
  rw [metadataOf, List.filterMap_map]
  exact List.filterMap_some

theorem foldr_metadataLines (lines : List MetadataLine) (p : Pending) :
    (metadataLines lines).foldr add p =
      { p with directives := lines.map Directive.metadata ++ p.directives } := by
  have hmap : metadataLines lines = (lines.map Directive.metadata).map Line.directive := by
    rw [metadataLines, List.map_map]
    rfl
  rw [hmap, foldr_directives]

theorem foldr_declarations (ds : List DeclarationItem) (p : Pending) :
    (ds.map Line.declaration).foldr add p = { p with declarations := ds ++ p.declarations } := by
  induction ds with
  | nil => rfl
  | cons d ds ih => rw [List.map_cons, List.foldr_cons, ih]; rfl

/-- Inside a request, the lines of steps add the steps. -/
theorem foldr_steps {metadata : List MetadataLine} (steps : List StepItem)
    (hdirectives : p.directives = []) (hrequest : p.requestMetadata = some metadata) :
    (steps.flatMap StepItem.lines).foldr add p = { p with steps := steps ++ p.steps } := by
  induction steps with
  | nil => rfl
  | cons s steps ih =>
    rw [List.flatMap_cons, List.foldr_append, ih, StepItem.lines, List.foldr_cons, foldr_directives]
    simp [add, hrequest, hdirectives]

theorem foldr_commands (kind : Section) (commands : List CommandItem)
    (hdirectives : p.directives = []) :
    (commands.flatMap (CommandItem.lines kind)).foldr add p =
      { p with commands := commands ++ p.commands } := by
  induction commands with
  | nil => rfl
  | cons c commands ih =>
    rw [List.flatMap_cons, List.foldr_append, ih, CommandItem.lines, List.foldr_cons,
      foldr_metadataLines]
    simp [add, hdirectives, metadataOf_map]

/-- The lines of an item add the item. -/
theorem foldr_lines (item : Item) (h : p.Idle) : item.lines.foldr add p = p.addItem item := by
  obtain ⟨directives, metadata, steps, declarations, commands, items⟩ := p
  obtain ⟨rfl, rfl, rfl, rfl, rfl⟩ := h
  cases item with
  | comment => rfl
  | id => rfl
  | loadAndGo => rfl
  | metadata => rfl
  | block position kind ds =>
    rw [Item.lines, List.foldr_cons, List.foldr_append, foldr_declarations]
    simp [add, addItem]
  | step s =>
    rw [Item.lines, StepItem.lines, List.foldr_cons, foldr_directives]
    simp [add, addItem]
  | request r =>
    rw [Item.lines, RequestItem.lines, List.foldr_cons, List.foldr_append, List.foldr_cons,
      foldr_metadataLines, foldr_steps r.steps rfl rfl]
    simp [add, addItem, metadataOf_map]
  | «section» position kind commands =>
    rw [Item.lines, List.foldr_cons, foldr_commands kind commands rfl]
    simp [add, addItem]

end Pending

/-- The outline of the lines of items is the items. -/
theorem ofLines_lines (items : List Item) : ofLines (items.flatMap Item.lines) = items := by
  have hfoldr : (items.flatMap Item.lines).foldr Pending.add {} = { items } := by
    induction items with
    | nil => rfl
    | cons item items ih =>
      rw [List.flatMap_cons, List.foldr_append, ih]
      exact Pending.foldr_lines item ⟨rfl, rfl, rfl, rfl, rfl⟩
  rw [ofLines, hfoldr]

end Outline

end CommandSequence.Source
