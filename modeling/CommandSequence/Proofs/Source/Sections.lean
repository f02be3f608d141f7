import CommandSequence.Proofs.Source.Declarations
import CommandSequence.Proofs.Source.Items

/-!
# Reading sections and blocks back

Commands stand in sections and declarations in blocks, each between lines of their own. Both are
written only if there is something in them.
-/

namespace CommandSequence

open OfOutline (Part)
open Source (Terminal Token Cursor Place Region Line Item CommandItem MetadataLine)

namespace ReadBack

variable {place : Place} {text rest : List Char} {validate : Bool} {indent : Json.Indent}

/-! ## Sections -/

/-- The places in a section. -/
def InSection (region : Region) (place : Place) : Prop :=
  place = { region } ∨ Below region .command place

theorem InSection.region {region : Region} (h : InSection region place) :
    place.region = region := by
  rcases h with rfl | h
  · rfl
  · exact h.1

theorem opensCommand_of_opensAll (hopens : place.opensAll [.identifier] = true)
    (hwords : (Source.Lexes.worded.all fun k =>
      k.tagLetter?.isSome || !(Source.Level.sought place.levels).contains k) = true) :
    OpensCommand place := by
  refine ⟨Source.Place.opens_of_opensAll hopens _ (by decide), fun k hk hletter hmem => ?_⟩
  have hword := List.all_eq_true.1 hwords k hk
  rw [hletter] at hword
  simp [hmem] at hword

theorem InSection.opensCommand {region : Region}
    (hregion : region = .immediate ∨ region = .hardware)
    (h : InSection region place) : OpensCommand place := by
  rcases h with rfl | ⟨rfl, htail⟩
  · rcases hregion with rfl | rfl <;> exact opensCommand_of_opensAll rfl rfl
  · obtain ⟨region, tail, afterMetadata⟩ := place
    cases htail
    dsimp only at hregion
    rcases hregion with rfl | rfl <;> cases afterMetadata <;>
      exact opensCommand_of_opensAll (by decide) (by decide)

/-- The lines of commands of a section. -/
def GivesCommands {α : Type} (kind : Source.Section) (meaning : CommandItem → Except Fault α)
    (commands : List α) (lines : List Line) : Prop :=
  ∃ items : List CommandItem, lines = items.flatMap (CommandItem.lines kind) ∧
    items.mapM meaning = .ok commands

theorem givesCommands_flatten {α : Type} {kind : Source.Section}
    {meaning : CommandItem → Except Fault α} {canon : α → α} {commands : List α}
    {runs : List (List Line)}
    (h : List.Forall₂ (fun c run => GivesCommands kind meaning [canon c] run) commands runs) :
    GivesCommands kind meaning (commands.map canon) runs.flatten := by
  induction h with
  | nil => exact ⟨[], rfl, rfl⟩
  | cons hfirst _ ih =>
    obtain ⟨first, rfl, hgives⟩ := hfirst
    obtain ⟨items, hlines, hitems⟩ := ih
    refine ⟨first ++ items, by rw [List.flatten_cons, hlines, List.flatMap_append], ?_⟩
    rw [List.mapM_append, hgives, hitems]
    rfl

/-- A command's own line and the metadata below it. -/
theorem readsLines_command {α : Type} {kind : Source.Section}
    {meaning : CommandItem → Except Fault α} {command : α} {region : Region} {P : Line → Prop}
    {text' : List Char} {m : Metadata}
    (hline : ∀ rest, ReadsLine place text rest { region, tail := .command } P)
    (hvalid : m.Valid) (hmetadata : m.write indent = .ok text')
    (hP : ∀ line entries, P line → entries.mapM OfOutline.entry = .ok m → ∃ item : CommandItem,
      line = .command kind item.line ∧ item.metadata = entries ∧ meaning item = .ok command) :
    ReadsLines place (text ++ text') rest (InSection region)
      (GivesCommands kind meaning [command]) := by
  have hfirst (rest : List Char) : ReadsLines place text rest (Below region .command)
      fun lines => ∃ line, lines = [line] ∧ P line :=
    ReadsLines.line (hline rest) ⟨rfl, rfl⟩ fun line h => ⟨line, rfl, h⟩
  refine ((hfirst _).append fun p hp =>
    readsLines_metadata hp (by decide) hvalid hmetadata).mono (fun _ h => .inr h) ?_
  rintro _ ⟨_, _, rfl, ⟨line, rfl, hline⟩, entries, rfl, hentries⟩
  obtain ⟨item, rfl, rfl, hmeaning⟩ := hP line entries hline hentries
  exact ⟨[item], by simp [CommandItem.lines], by rw [List.mapM_cons, hmeaning]; rfl⟩

/-- The lines of an immediate command. -/
theorem readsLines_immediate {command : ImmediateCommand} (hvalid : command.Valid)
    (hplace : InSection .immediate place) (hwrite : command.write indent = .ok text) :
    ReadsLines place text rest (InSection .immediate)
      (GivesCommands .immediate OfOutline.immediateCommand [command.canon]) := by
  obtain ⟨arguments, harguments, hwrite⟩ := bind_eq_ok.1 hwrite
  obtain ⟨ending, hending, hwrite⟩ := bind_eq_ok.1 hwrite
  obtain ⟨metadata, hmetadata, heq⟩ := bind_eq_ok.1 hwrite
  cases heq
  rw [List.append_assoc (command.stem.toList)]
  refine readsLines_command (fun rest => readsLine_immediate hvalid
    (hplace.opensCommand (.inl rfl)) hplace.region harguments hending) hvalid.metadata hmetadata ?_
  rintro _ entries ⟨line, rfl, hstem, hgiven, hdescription⟩ hentries
  refine ⟨⟨line, entries⟩, rfl, rfl, ?_⟩
  unfold OfOutline.immediateCommand
  simp only [hgiven, metadata_ofOutline hvalid.metadata hentries, hstem, hdescription, Bind.bind,
    Except.bind]
  rfl

/-- The lines of a hardware command. -/
theorem readsLines_hardware {command : HardwareCommand} (hvalid : command.Valid)
    (hplace : InSection .hardware place) (hwrite : command.write indent = .ok text) :
    ReadsLines place text rest (InSection .hardware)
      (GivesCommands .hardware OfOutline.hardwareCommand [command.canon]) := by
  obtain ⟨ending, hending, hwrite⟩ := bind_eq_ok.1 hwrite
  obtain ⟨metadata, hmetadata, heq⟩ := bind_eq_ok.1 hwrite
  cases heq
  refine readsLines_command (fun rest => readsLine_hardware hvalid
    (hplace.opensCommand (.inr rfl)) hplace.region hending) hvalid.metadata hmetadata ?_
  rintro _ entries ⟨line, rfl, hstem, hdescription⟩ hentries
  refine ⟨⟨line, entries⟩, rfl, rfl, ?_⟩
  unfold OfOutline.hardwareCommand
  simp only [metadata_ofOutline hvalid.metadata hentries, hstem, hdescription, Bind.bind,
    Except.bind]
  rfl

/-- A section: its heading and its commands, if there are any. -/
theorem readsLines_section {α : Type} {kind : Source.Section} {keyword heading : String}
    {write : α → Except WriteError (List Char)} {meaning : CommandItem → Except Fault α}
    {canon : α → α} {commands : List α} {texts : List (List Char)} {region : Region}
    {wrap : List α → Part} {S : Place → Prop} (opener : Terminal)
    (hkeyword : opener.literal? = some keyword) (hload : opener ≠ .load)
    (hheading : heading.toList = ('\n' : Char) :: (keyword.toList ++ [('\n' : Char)]))
    (hplace : place.Opens opener) (hstay : S place) (hsection : ∀ p, InSection region p → S p)
    (hopener : ∀ (token : Token) (c after : Cursor), token.kind = opener →
      Line.readNewline c = .ok after →
      Line.readFrom place token c = .ok (.sectionBegin token.position kind, { region }, after))
    (hpart : ∀ position items cs, items.mapM meaning = .ok cs → cs.isEmpty = false →
      OfOutline.part validate (.section position kind items) = .ok (wrap cs))
    (hwrite : commands.mapM write = .ok texts)
    (hread : ∀ c ∈ commands, ∀ text p rest, write c = .ok text → InSection region p →
      ReadsLines p text rest (InSection region) (GivesCommands kind meaning [canon c])) :
    ReadsLines place (Document.writePart heading texts) rest S
      (GivesParts validate (if commands.isEmpty then [] else [wrap (commands.map canon)])) := by
  cases commands with
  | nil =>
    cases hwrite
    exact .nil hstay .nil
  | cons command commands =>
    have hfilled : texts.isEmpty = false := by
      cases mapM_eq_ok.1 hwrite
      rfl
    have hfirst (rest : List Char) : ReadsLines place (keyword.toList ++ [('\n' : Char)]) rest
        (InSection region) fun lines => ∃ position, lines = [.sectionBegin position kind] :=
      readsLines_keyword opener { region } _ hkeyword hplace hload (.inl rfl) rfl hopener
    rw [Document.writePart, hfilled]
    simp only [ToText.fixed, hheading, Bool.false_eq_true, if_false, List.cons_append]
    refine ((hfirst _).append fun p hp => ReadsLines.flatten hp hwrite hread).blank.mono hsection ?_
    rintro _ ⟨_, _, rfl, ⟨position, rfl⟩, runs, rfl, hruns⟩
    obtain ⟨items, hitems, hmeaning⟩ := givesCommands_flatten hruns
    exact .single (by rw [hitems]; rfl) (hpart position items _ hmeaning rfl)

/-! ## Blocks of declarations -/

/-- The places in a block of declarations. -/
def InBlock (block : Source.Block) (place : Place) : Prop :=
  place.region = .declarations block ∧ place.afterMetadata = false ∧
    (place.tail = .closed ∨ place.tail = .declaration)

theorem InBlock.opens {block : Source.Block} (h : InBlock block place) :
    ∀ kind ∈ [.identifier, block.closer], place.Opens kind := by
  obtain ⟨region, tail, afterMetadata⟩ := place
  obtain ⟨rfl, rfl, rfl | rfl⟩ := h <;> cases block <;>
    exact Source.Place.opens_of_opensAll (by decide)

theorem InBlock.words {block : Source.Block} (h : InBlock block place) :
    ∀ k ∈ Source.Lexes.worded, k ∉ Source.Level.sought place.levels := by
  obtain ⟨region, tail, afterMetadata⟩ := place
  obtain ⟨rfl, rfl, rfl | rfl⟩ := h <;> cases block <;> decide

/-- The opener of a block. -/
def blockOpener : Source.Block → Terminal
  | .parameters => .parametersBegin
  | .locals => .localsBegin

/-- The name of a block in its keywords. -/
def blockName : Source.Block → String
  | .parameters => "INPUT_PARAMS"
  | .locals => "LOCALS"

/-- The parts that a block of declarations is. -/
def blockParts (block : Source.Block) (declarations : List Declaration) : List Part :=
  if declarations.isEmpty then [] else [.declarations block (declarations.map Declaration.reread)]

theorem givesDeclarations_flatten {declarations : List Declaration} {runs : List (List Line)}
    (h : List.Forall₂ (fun d lines => ∃ item, lines = [.declaration item] ∧
      OfOutline.declaration item = .ok d.reread) declarations runs) :
    ∃ items : List Source.DeclarationItem, runs.flatten = items.map .declaration ∧
      items.mapM OfOutline.declaration = .ok (declarations.map Declaration.reread) := by
  induction h with
  | nil => exact ⟨[], rfl, rfl⟩
  | cons hfirst _ ih =>
    obtain ⟨item, rfl, hitem⟩ := hfirst
    obtain ⟨items, hlines, hitems⟩ := ih
    refine ⟨item :: items, by rw [List.flatten_cons, hlines]; rfl, ?_⟩
    rw [List.mapM_cons, hitem, hitems]
    rfl

/-- The lines of declarations between the lines that begin and end a block. -/
theorem readsLines_enclosed {block : Source.Block} {S : Place → Prop}
    {P : List Source.DeclarationItem → Prop} (hplace : place.Opens (blockOpener block))
    (hnext : S { region := Region.afterBlock block })
    (hbody : ∀ p rest, InBlock block p → ReadsLines p text rest (InBlock block) fun lines =>
      ∃ items : List Source.DeclarationItem, lines = items.map .declaration ∧ P items) :
    ReadsLines place
      (('@' : Char) :: ToText.fixed (blockName block) ++ ToText.fixed "_BEGIN\n" ++ text
        ++ ('@' : Char) :: ToText.fixed (blockName block) ++ ToText.fixed "_END\n") rest S
      fun lines => ∃ position items, P items ∧ lines = (Item.block position block items).lines := by
  have hbegin (rest : List Char) : ReadsLines place
      (('@' : Char) :: ToText.fixed (blockName block) ++ ToText.fixed "_BEGIN\n") rest
        (InBlock block)
      fun lines => ∃ position, lines = [.blockBegin position block] := by
    cases block
    · exact readsLines_keyword .parametersBegin { region := .declarations .parameters } _ rfl
        hplace (by decide) ⟨rfl, rfl, .inl rfl⟩ rfl fun token c after hkind hnewline => by
          simp only [Line.readFrom, hkind, hnewline]; rfl
    · exact readsLines_keyword .localsBegin { region := .declarations .locals } _ rfl
        hplace (by decide) ⟨rfl, rfl, .inl rfl⟩ rfl fun token c after hkind hnewline => by
          simp only [Line.readFrom, hkind, hnewline]; rfl
  have hend (p : Place) (rest : List Char) (hp : InBlock block p) : ReadsLines p
      (('@' : Char) :: ToText.fixed (blockName block) ++ ToText.fixed "_END\n") rest S
      fun lines => ∃ _ : Source.Position, lines = [.blockEnd block] := by
    have hopens := hp.opens block.closer (by simp)
    cases block
    · exact readsLines_keyword .parametersEnd { region := .parameterized }
        (fun _ => .blockEnd .parameters) rfl hopens (by decide) hnext rfl
        fun token c after hkind hnewline => by
          simp only [Line.readFrom, hkind, hnewline]; rfl
    · exact readsLines_keyword .localsEnd { region := .header } (fun _ => .blockEnd .locals) rfl
        hopens (by decide) hnext rfl
        fun token c after hkind hnewline => by
          simp only [Line.readFrom, hkind, hnewline]; rfl
  rw [List.append_assoc _ (('@' : Char) :: ToText.fixed (blockName block))]
  refine (((hbegin _).append fun p hp => hbody p _ hp).append fun p hp => hend p rest hp).mono
    (fun _ h => h) ?_
  rintro _ ⟨_, _, rfl, ⟨_, _, rfl, ⟨position, rfl⟩, items, rfl, hitems⟩, -, rfl⟩
  exact ⟨position, items, hitems, by simp [Item.lines]⟩

/-- A block of declarations, if there are any. -/
theorem readsLines_block {block : Source.Block} {declarations : List Declaration}
    {S : Place → Prop} (hvalid : ∀ d ∈ declarations, d.Valid)
    (hplace : place.Opens (blockOpener block)) (hstay : S place)
    (hnext : S { region := Region.afterBlock block })
    (hwrite : Declaration.writeBlock (blockName block) declarations = .ok text) :
    ReadsLines place text rest S (GivesParts validate (blockParts block declarations)) := by
  obtain ⟨texts, htexts, heq⟩ := bind_eq_ok.1 hwrite
  cases declarations with
  | nil =>
    cases htexts
    cases heq
    exact .nil hstay .nil
  | cons d declarations =>
    have hfilled : texts.isEmpty = false := by
      cases mapM_eq_ok.1 htexts
      rfl
    simp only [hfilled, Bool.false_eq_true, if_false] at heq
    cases heq
    have hlist (p : Place) (rest : List Char) (hp : InBlock block p) :
        ReadsLines p texts.flatten rest (InBlock block) fun lines =>
          ∃ items : List Source.DeclarationItem, lines = items.map .declaration ∧
            items.mapM OfOutline.declaration =
              .ok ((d :: declarations).map Declaration.reread) := by
      refine (ReadsLines.flatten hp htexts fun d hd text p rest hwrite hp => ?_).mono
        (fun _ h => h) fun _ ⟨runs, heq, hruns⟩ => heq ▸ givesDeclarations_flatten hruns
      refine ReadsLines.line
        (readsLine_declaration (hvalid d hd) (hp.opens _ (by simp)) hp.words hp.1 hwrite)
        ⟨rfl, rfl, .inr rfl⟩ ?_
      rintro _ ⟨item, rfl, hitem⟩
      exact ⟨item, rfl, hitem⟩
    refine (readsLines_enclosed hplace hnext hlist).mono (fun _ h => h) ?_
    rintro _ ⟨position, items, hmeaning, rfl⟩
    have hpart : OfOutline.part validate (.block position block items) =
        .ok (.declarations block ((d :: declarations).map Declaration.reread)) := by
      simp only [OfOutline.part, hmeaning, Bind.bind, Except.bind, OfOutline.filled]
      rfl
    exact .single rfl hpart

end ReadBack

end CommandSequence
