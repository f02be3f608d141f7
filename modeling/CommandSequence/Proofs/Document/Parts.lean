import CommandSequence.Document.OfOutline
import CommandSequence.Proofs.Outcome

/-!
# Parts and what they are gathered from

Each item of an outline has a part as its meaning, and each part comes from one kind of items
(`meansOf_of_part`). The fields of a document are gathered from its parts (`gather_eq_ok`). What
holds of parts is shown from these two.
-/

namespace CommandSequence.OfOutline

variable {validate : Bool}

/-- A part is the meaning of an item. -/
inductive MeansOf (validate : Bool) : Source.Item → Part → Prop
  | comment (text : Source.Token) : MeansOf validate (.comment text) .comment
  | id {position : Source.Position} {name : Source.Token} {s : String} (h : string name = .ok s) :
    MeansOf validate (.id position name) (.id s)
  | loadAndGo (position : Source.Position) :
    MeansOf validate (.loadAndGo position) (.metadata Document.loadAndGoKey (.boolean true))
  | metadata {line : Source.MetadataLine} {key : String} {value : Json.Value}
    (h : entry line = .ok (key, value)) : MeansOf validate (.metadata line) (.metadata key value)
  | declarations {position : Source.Position} {block : Source.Block}
    {items : List Source.DeclarationItem} {list : List Declaration}
    (h : items.mapM declaration = .ok list) (hfilled : list ≠ []) :
    MeansOf validate (.block position block items) (.declarations block list)
  | step {item : Source.StepItem} {s : Step} (h : OfOutline.step validate item = .ok s) :
    MeansOf validate (.step item) (.step s)
  | request {item : Source.RequestItem} {r : Request}
      (h : OfOutline.request validate item = .ok r) :
    MeansOf validate (.request item) (.request r)
  | immediate {position : Source.Position} {items : List Source.CommandItem}
    {commands : List ImmediateCommand} (h : items.mapM immediateCommand = .ok commands)
    (hfilled : commands ≠ []) :
    MeansOf validate (.section position .immediate items) (.immediate commands)
  | hardware {position : Source.Position} {items : List Source.CommandItem}
    {commands : List HardwareCommand} (h : items.mapM hardwareCommand = .ok commands)
    (hfilled : commands ≠ []) :
    MeansOf validate (.section position .hardware items) (.hardware commands)

theorem filled_eq_ok {α : Type} {position : Source.Position} {cause : FaultCause} {l l' : List α} :
    filled position cause l = .ok l' ↔ l = l' ∧ l' ≠ [] := by
  cases l with
  | nil => simp [filled]
  | cons a l =>
    refine ⟨fun h => ?_, fun ⟨h, _⟩ => congrArg Except.ok h⟩
    cases h
    exact ⟨rfl, List.cons_ne_nil a l⟩

/-- What the items of a list mean, if they mean anything. -/
theorem mapM_filled_eq_ok {α β : Type} {position : Source.Position} {cause : FaultCause}
    {f : α → Except Fault β} {wrap : List β → Part} {items : List α} {p : Part}
    (h : (do return wrap (← filled position cause (← items.mapM f))) = Except.ok p) :
    ∃ list, items.mapM f = .ok list ∧ list ≠ [] ∧ p = wrap list := by
  obtain ⟨list, hlist, h⟩ := bind_eq_ok.1 h
  obtain ⟨list', hfilled, hp⟩ := bind_eq_ok.1 h
  obtain ⟨rfl, hne⟩ := filled_eq_ok.1 hfilled
  cases hp
  exact ⟨list, hlist, hne, rfl⟩

theorem meansOf_of_part (item : Source.Item) :
    Yields (part validate item) (MeansOf validate item) := by
  intro p h
  cases item with
  | comment text =>
    cases h
    exact .comment text
  | id position name =>
    obtain ⟨s, hs, rfl⟩ := map_eq_ok.1 h
    exact .id hs
  | loadAndGo position =>
    cases h
    exact .loadAndGo position
  | metadata line =>
    obtain ⟨⟨key, value⟩, hentry, hp⟩ := bind_eq_ok.1 h
    cases hp
    exact .metadata hentry
  | block position block items =>
    obtain ⟨list, hlist, hfilled, rfl⟩ := mapM_filled_eq_ok h
    exact .declarations hlist hfilled
  | step item =>
    obtain ⟨s, hs, rfl⟩ := map_eq_ok.1 h
    exact .step hs
  | request item =>
    obtain ⟨r, hr, rfl⟩ := map_eq_ok.1 h
    exact .request hr
  | «section» position kind items =>
    cases kind with
    | immediate =>
      obtain ⟨commands, hcommands, hfilled, rfl⟩ := mapM_filled_eq_ok h
      exact .immediate hcommands hfilled
    | hardware =>
      obtain ⟨commands, hcommands, hfilled, rfl⟩ := mapM_filled_eq_ok h
      exact .hardware hcommands hfilled

/-- The fields of a gathered document. -/
theorem gather_eq_ok {parts : List Part} {d : Document} :
    gather parts = .ok d ↔ ∃ id, parts.findSome? Part.id? = some id ∧ d = {
      id
      metadata := Dictionary.ofList (parts.filterMap Part.metadata?)
      parameters := parts.flatMap (Part.declarationsOf .parameters)
      locals := parts.flatMap (Part.declarationsOf .locals)
      steps := parts.filterMap Part.step?
      immediateCommands := parts.flatMap Part.immediateCommands
      hardwareCommands := parts.flatMap Part.hardwareCommands
      requests := parts.filterMap Part.request? } := by
  unfold gather
  cases parts.findSome? Part.id? with
  | none => simp
  | some id => simp [eq_comm]

end CommandSequence.OfOutline
