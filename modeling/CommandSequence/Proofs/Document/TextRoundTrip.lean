import CommandSequence.Document.OfText
import CommandSequence.Proofs.Source.Sections

/-!
# The text of a document is read back

The text of a document is its parts one after the other (`Document.parts`): each is read from the
place that the part before it leaves, and together they are gathered into `Document.reread`. So a
valid document whose tags are readable is read back from its text (`ofText_write`).
-/

namespace CommandSequence

open OfOutline (Part)
open Source (Terminal Token Cursor Place Region Line Item nextLine)

namespace ReadBack

variable {place : Place} {text rest : List Char} {validate : Bool} {indent : Json.Indent}

/-! ## The header -/

/-- The places of a header after its identifier and blocks. -/
def InHeader (place : Place) : Prop :=
  place.tail = .closed ∧ (place.region = .header ∨
    place.afterMetadata = false ∧ (place.region = .identified ∨ place.region = .parameterized))

theorem InHeader.between (h : InHeader place) : place.Between Source.headerOpeners false := by
  obtain ⟨region, tail, afterMetadata⟩ := place
  obtain ⟨rfl, rfl | ⟨rfl, rfl | rfl⟩⟩ := h
  · exact ⟨Source.Place.opens_of_opensAll (by cases afterMetadata <;> rfl), by simp, rfl⟩
  · exact ⟨Source.Place.opens_of_opensAll rfl, by simp, rfl⟩
  · exact ⟨Source.Place.opens_of_opensAll rfl, by simp, rfl⟩

/-- The metadata of a header. -/
theorem readsLines_header {m : Metadata} {texts : List (List Char)} (hplace : InHeader place)
    (hvalid : ∀ entry ∈ m, entry.2.Sound (Number.Fits false))
    (hwrite : m.mapM (fun (key, value) => Metadata.writeEntry indent key value) = .ok texts) :
    ReadsLines place texts.flatten rest InHeader
      (GivesParts validate (m.map fun (key, value) => .metadata key value)) := by
  refine (ReadsLines.flatten hplace hwrite fun entry hentry text p rest hwrite hp => ?_).mono
    (fun _ h => h) fun lines ⟨runs, hlines, hruns⟩ => hlines ▸ GivesParts.flatten hruns
  refine ReadsLines.line (readsLine_header (hp.between.opens _ (by decide)) hp.1
    (hvalid entry hentry) hwrite) ⟨rfl, .inl rfl⟩ ?_
  rintro _ ⟨given, rfl, hgives⟩
  have hpart : OfOutline.part validate (.metadata given) = .ok (.metadata entry.1 entry.2) := by
    rw [OfOutline.part, hgives]
    rfl
  exact .single rfl hpart

/-- The line of the load-and-go flag, before the end of its line. -/
theorem readsLines_loadAndGo (hplace : InHeader place) :
    ReadsLines place (ToText.fixed "@LOAD_AND_GO") ('\n' :: rest) InHeader
      (GivesParts validate [.metadata Document.loadAndGoKey (.boolean true)]) := by
  intro c hc
  have hline : ReadsLines place (String.toList "@LOAD_AND_GO" ++ [('\n' : Char)]) rest InHeader
      fun lines => ∃ position, lines = [.loadAndGo position] :=
    readsLines_keyword .loadAndGo { region := .header } _ rfl
      (hplace.between.opens _ (by decide)) (by decide) ⟨rfl, .inl rfl⟩ rfl
      fun token c after hkind hnewline => by simp only [Line.readFrom, hkind, hnewline]; rfl
  obtain ⟨_, place', after, ⟨position, rfl⟩, hplace', hafter, -, hread⟩ := hline c (by
    rw [List.append_assoc]
    exact hc)
  have hpart : OfOutline.part validate (.loadAndGo position) =
    .ok (.metadata Document.loadAndGoKey (.boolean true)) := rfl
  exact ⟨_, place', after, .single rfl hpart, hplace', hafter,
    (by decide : 1 ≤ (String.toList "@LOAD_AND_GO").length), hread⟩

/-! ## The body -/

/-- The places outside requests that admit the kinds, before or after the body's end. -/
def Anywhere (kinds : List Terminal) (place : Place) : Prop :=
  ∃ late, place.Between kinds late

theorem between_step (h : Below .body .step place) : place.Between Source.bodyOpeners false := by
  obtain ⟨region, tail, afterMetadata⟩ := place
  obtain ⟨rfl, rfl⟩ := h
  exact ⟨Source.Place.opens_of_opensAll (by cases afterMetadata <;> rfl), by simp, rfl⟩

theorem bodyRegion_of_between {kinds : List Terminal} (h : place.Between kinds false) :
    Line.bodyRegion place.region = .body := by
  have houtside := h.outside
  have hlate := h.late
  cases hregion : place.region with
  | request late => exact absurd hregion (houtside late)
  | immediate => rw [hregion] at hlate; cases hlate
  | hardware => rw [hregion] at hlate; cases hlate
  | trailer => rw [hregion] at hlate; cases hlate
  | _ => rfl

/-- What may begin a line between requests, at the end of a text. -/
def requestOpeners : List Terminal := .endOfInput :: Source.openers

theorem between_request {late : Bool}
    (h : Below (if late then .trailer else .body) .request place) :
    place.Between requestOpeners late := by
  obtain ⟨region, tail, afterMetadata⟩ := place
  obtain ⟨rfl, rfl⟩ := h
  cases late <;>
    exact ⟨Source.Place.opens_of_opensAll (by cases afterMetadata <;> rfl), by simp, rfl⟩

/-- In a section, whatever may begin a line there both before its first command and after one. -/
theorem between_inSection {region : Region} {kinds : List Terminal}
    (hregion : region = .immediate ∨ region = .hardware)
    (hstart : ({ region } : Place).opensAll kinds = true)
    (hcommand : ∀ afterMetadata, ({ region, tail := .command, afterMetadata } : Place).opensAll
      kinds = true) (h : InSection region place) : place.Between kinds true := by
  have houtside : (∀ late, region ≠ .request late) ∧ region.isLate = true := by
    rcases hregion with rfl | rfl <;> exact ⟨fun _ h => (by cases h), rfl⟩
  rcases h with rfl | ⟨rfl, htail⟩
  · exact ⟨Source.Place.opens_of_opensAll hstart, houtside.1, houtside.2⟩
  · obtain ⟨region, tail, afterMetadata⟩ := place
    cases htail
    exact ⟨Source.Place.opens_of_opensAll (hcommand afterMetadata), houtside.1, houtside.2⟩

theorem between_immediate (h : InSection .immediate place) :
    place.Between (.hardware :: requestOpeners) true :=
  between_inSection (.inl rfl) rfl (by decide) h

theorem between_hardware (h : InSection .hardware place) : place.Between requestOpeners true :=
  between_inSection (.inr rfl) rfl (by decide) h

/-- The steps of a document. -/
theorem readsLines_steps {steps : List Step} {texts : List (List Char)}
    (hplace : place.Between Source.bodyOpeners false) (hvalid : ∀ s ∈ steps, s.Valid)
    (htags : ∀ s ∈ steps, s.time.Tagged (TagReadable validate))
    (hwrite : steps.mapM (Step.write indent) = .ok texts) :
    ReadsLines place (Document.writePart "\n" texts) rest
      (Source.Place.Between Source.bodyOpeners false)
      (GivesParts validate (steps.map fun s => .step s.canon)) := by
  have hread : ReadsLines place texts.flatten rest (Source.Place.Between Source.bodyOpeners false)
      (GivesParts validate (steps.map fun s => .step s.canon)) := by
    refine (ReadsLines.flatten hplace hwrite fun s hs text p rest hwrite hp => ?_).mono
      (fun _ h => h) fun lines ⟨runs, hlines, hruns⟩ => hlines ▸ GivesParts.flatten hruns
    have hopens := hp.opens s.time.terminal (by
      have hmem := terminal_mem_timeTags s.time
      revert hmem
      generalize s.time.terminal = kind
      revert kind
      decide)
    refine (readsLines_step (hvalid s hs) (htags s hs) hopens hp.late hwrite).mono ?_ ?_
    · intro p' hp'
      rw [bodyRegion_of_between hp] at hp'
      exact between_step hp'
    · rintro _ ⟨item, rfl, hitem⟩
      have hpart : OfOutline.part validate (.step item) = .ok (.step s.canon) := by
        rw [OfOutline.part, hitem]
        rfl
      exact .single rfl hpart
  unfold Document.writePart
  split
  · next hempty =>
    rw [List.isEmpty_iff] at hempty
    rw [hempty] at hread
    exact hread
  · exact hread.blank

/-- The requests of a document. -/
theorem readsLines_requests {requests : List Request} {texts : List (List Char)}
    (hplace : Anywhere requestOpeners place) (hvalid : ∀ r ∈ requests, r.Valid)
    (htags : ∀ r ∈ requests, r.Tagged (TagReadable validate))
    (hwrite : requests.mapM (Request.write indent) = .ok texts) :
    ReadsLines place (texts.map (('\n' : Char) :: ·)).flatten rest (Anywhere requestOpeners)
      (GivesParts validate (requests.map fun r => .request r.canon)) := by
  have hlead : requests.mapM (fun r => (r.write indent).map (('\n' : Char) :: ·)) =
      .ok (texts.map (('\n' : Char) :: ·)) := by
    rw [mapM_eq_ok] at hwrite ⊢
    exact List.forall₂_map_right_iff.2 (hwrite.imp fun r text h => by rw [h]; rfl)
  refine (ReadsLines.flatten hplace hlead fun r hr text p rest hled ⟨late, hp⟩ => ?_).mono
    (fun _ h => h) fun lines ⟨runs, hlines, hruns⟩ => hlines ▸ GivesParts.flatten hruns
  obtain ⟨text, htext, rfl⟩ := map_eq_ok.1 hled
  refine (readsLines_request (hvalid r hr) (htags r hr) hp (by decide) htext).blank.mono
    (fun p hp => ⟨late, between_request hp⟩) ?_
  rintro _ ⟨item, rfl, hitem⟩
  have hpart : OfOutline.part validate (.request item) = .ok (.request r.canon) := by
    rw [OfOutline.part, hitem]
    rfl
  exact .single rfl hpart

/-- The sections of a document. -/
theorem readsLines_sections {immediate : List ImmediateCommand} {hardware : List HardwareCommand}
    {texts texts' : List (List Char)} (hplace : place.Between Source.bodyOpeners false)
    (himmediate : ∀ c ∈ immediate, c.Valid) (hhardware : ∀ c ∈ hardware, c.Valid)
    (hwrite : immediate.mapM (ImmediateCommand.write indent) = .ok texts)
    (hwrite' : hardware.mapM (HardwareCommand.write indent) = .ok texts') :
    ReadsLines place (Document.writePart "\n@IMMEDIATE\n" texts
        ++ Document.writePart "\n@HARDWARE\n" texts') rest (Anywhere requestOpeners)
      (GivesParts validate
        ((if immediate.isEmpty then [] else [.immediate (immediate.map ImmediateCommand.canon)])
          ++ if hardware.isEmpty then []
            else [.hardware (hardware.map HardwareCommand.canon)])) := by
  refine ReadsLines.append_parts (S := Anywhere (.hardware :: requestOpeners)) ?_
    fun p ⟨late, hp⟩ => ?_
  · refine readsLines_section .immediate rfl (by decide) rfl (hplace.opens _ (by decide))
      ⟨false, hplace.mono (by decide)⟩ (fun p hp => ⟨true, between_immediate hp⟩) ?_ ?_ hwrite
      fun c hc text p rest hwrite hp => readsLines_immediate (himmediate c hc) hp hwrite
    · intro token c after hkind hnewline
      simp only [Line.readFrom, hkind, hnewline]
      rfl
    · intro position items cs hmeaning hfilled
      simp only [OfOutline.part, hmeaning, Bind.bind, Except.bind, OfOutline.filled, hfilled]
      rfl
  · refine readsLines_section .hardware rfl (by decide) rfl (hp.opens _ (by decide))
      ⟨late, hp.mono (by decide)⟩ (fun p hp => ⟨true, between_hardware hp⟩) ?_ ?_ hwrite'
      fun c hc text p rest hwrite hp => readsLines_hardware (hhardware c hc) hp hwrite
    · intro token c after hkind hnewline
      simp only [Line.readFrom, hkind, hnewline]
      rfl
    · intro position items cs hmeaning hfilled
      simp only [OfOutline.part, hmeaning, Bind.bind, Except.bind, OfOutline.filled, hfilled]
      rfl

end ReadBack

/-! ## The whole text -/

namespace Document

open ReadBack

/-- The parts of the text of a document. -/
def parts (d : Document) : List Part :=
  [.id d.id] ++ (blockParts .parameters d.parameters ++ blockParts .locals d.locals)
    ++ (d.metadata.filter (·.1 != loadAndGoKey)).map (fun (key, value) => .metadata key value)
    ++ (if d.loadAndGo then [.metadata loadAndGoKey (.boolean true)] else [])
    ++ d.steps.map (fun s => .step s.canon)
    ++ ((if d.immediateCommands.isEmpty then []
        else [.immediate (d.immediateCommands.map ImmediateCommand.canon)])
      ++ if d.hardwareCommands.isEmpty then []
        else [.hardware (d.hardwareCommands.map HardwareCommand.canon)])
    ++ d.requests.map (fun r => .request r.canon)

/-- What is picked of the parts of a document, if nothing is of blocks and sections. -/
theorem filterMap_parts {α : Type} (pick : Part → Option α) (d : Document)
    (hblock : ∀ block l, pick (.declarations block l) = none)
    (himmediate : ∀ l, pick (.immediate l) = none) (hhardware : ∀ l, pick (.hardware l) = none) :
    d.parts.filterMap pick = (pick (.id d.id)).toList
      ++ (d.metadata.filter (·.1 != loadAndGoKey)).filterMap (fun (k, v) => pick (.metadata k v))
      ++ (if d.loadAndGo then (pick (.metadata loadAndGoKey (.boolean true))).toList else [])
      ++ d.steps.filterMap (fun s => pick (.step s.canon))
      ++ d.requests.filterMap (fun r => pick (.request r.canon)) := by
  have hsingle (part : Part) : [part].filterMap pick = (pick part).toList := by
    cases h : pick part <;> simp [h]
  simp only [parts, blockParts, List.filterMap_append, apply_ite (List.filterMap pick),
    List.filterMap_map, Function.comp_def, hsingle, List.filterMap_nil, hblock, himmediate,
    hhardware, Option.toList_none, ite_self, List.append_nil]

/-- What is picked of the blocks and sections of a document, if nothing is of the other parts. -/
theorem flatMap_parts {α : Type} (pick : Part → List α) (d : Document)
    (hid : ∀ name, pick (.id name) = []) (hmetadata : ∀ key value, pick (.metadata key value) = [])
    (hstep : ∀ s, pick (.step s) = []) (hrequest : ∀ r, pick (.request r) = [])
    (hblock : ∀ block, pick (.declarations block []) = []) (himmediate : pick (.immediate []) = [])
    (hhardware : pick (.hardware []) = []) :
    d.parts.flatMap pick = pick (.declarations .parameters (d.parameters.map Declaration.reread))
      ++ pick (.declarations .locals (d.locals.map Declaration.reread))
      ++ (pick (.immediate (d.immediateCommands.map ImmediateCommand.canon))
      ++ pick (.hardware (d.hardwareCommands.map HardwareCommand.canon))) := by
  have hnone {β : Type} (l : List β) : l.flatMap (fun _ => ([] : List α)) = [] := by
    simp [List.flatMap_eq_nil_iff]
  have hfilled {β γ : Type} (wrap : List γ → Part) (f : β → γ) (l : List β)
      (hwrap : pick (wrap []) = []) :
      (if l.isEmpty then [] else pick (wrap (l.map f))) = pick (wrap (l.map f)) := by
    cases l with
    | nil => exact hwrap.symm
    | cons => rfl
  simp only [parts, blockParts, List.flatMap_append, apply_ite (List.flatMap pick),
    List.flatMap_map, List.flatMap_singleton, List.flatMap_nil, hid, hmetadata, hstep, hrequest,
    hnone, ite_self, List.append_nil, List.nil_append]
  rw [hfilled (.declarations .parameters) _ _ (hblock _),
    hfilled (.declarations .locals) _ _ (hblock _),
    hfilled .immediate _ _ himmediate, hfilled .hardware _ _ hhardware]

theorem distinct_rereadMetadata {d : Document} (h : Dictionary.Distinct d.metadata) :
    Dictionary.Distinct d.rereadMetadata := by
  have hothers := Dictionary.distinct_filter (·.1 != loadAndGoKey) h
  unfold rereadMetadata
  cases d.loadAndGo with
  | false => simpa using hothers
  | true =>
    unfold Dictionary.Distinct at hothers ⊢
    rw [List.map_append, List.nodup_append]
    refine ⟨hothers, by simp, ?_⟩
    rintro key hkey _ hflag rfl
    obtain ⟨entry, hentry, rfl⟩ := List.mem_map.1 hkey
    simp only [if_true, List.map_cons, List.map_nil, List.mem_singleton] at hflag
    have hne := (List.mem_filter.1 hentry).2
    rw [hflag] at hne
    simp at hne

/-- The parts of a document are gathered into its rereading. -/
theorem gather_parts {d : Document} (hkeys : Dictionary.Distinct d.metadata) :
    OfOutline.gather d.parts = .ok d.reread := by
  have hid : d.parts.findSome? Part.id? = some d.id := rfl
  have hmetadata : d.parts.filterMap Part.metadata? = d.rereadMetadata := by
    rw [filterMap_parts _ d (fun _ _ => rfl) (fun _ => rfl) fun _ => rfl]
    simp [Part.metadata?, rereadMetadata]
  have hsteps : d.parts.filterMap Part.step? = d.steps.map Step.canon := by
    rw [filterMap_parts _ d (fun _ _ => rfl) (fun _ => rfl) fun _ => rfl]
    simp [Part.step?]
  have hrequests : d.parts.filterMap Part.request? = d.requests.map Request.canon := by
    rw [filterMap_parts _ d (fun _ _ => rfl) (fun _ => rfl) fun _ => rfl]
    simp [Part.request?]
  have hdeclarations (block : Source.Block) : d.parts.flatMap (Part.declarationsOf block) =
      (if block = .parameters then d.parameters else d.locals).map Declaration.reread := by
    rw [flatMap_parts _ d (fun _ => rfl) (fun _ _ => rfl) (fun _ => rfl) (fun _ => rfl)
      (fun _ => by simp [Part.declarationsOf]) rfl rfl]
    cases block <;> simp [Part.declarationsOf]
  have himmediate : d.parts.flatMap Part.immediateCommands =
      d.immediateCommands.map ImmediateCommand.canon := by
    rw [flatMap_parts _ d (fun _ => rfl) (fun _ _ => rfl) (fun _ => rfl) (fun _ => rfl)
      (fun _ => rfl) rfl rfl]
    simp [Part.immediateCommands]
  have hhardware : d.parts.flatMap Part.hardwareCommands =
      d.hardwareCommands.map HardwareCommand.canon := by
    rw [flatMap_parts _ d (fun _ => rfl) (fun _ _ => rfl) (fun _ => rfl) (fun _ => rfl)
      (fun _ => rfl) rfl rfl]
    simp [Part.hardwareCommands]
  simp only [OfOutline.gather, hid, hmetadata, hsteps, hrequests, hdeclarations, himmediate,
    hhardware, Dictionary.ofList_of_distinct (distinct_rereadMetadata hkeys)]
  rfl

/-- A text is empty or begins with a line feed. -/
def Apart (text : List Char) : Prop :=
  text = [] ∨ ∃ more, text = ('\n' : Char) :: more

theorem Apart.append {text more : List Char} (h : Apart text) (h' : Apart more) :
    Apart (text ++ more) := by
  rcases h with rfl | ⟨left, rfl⟩
  · exact h'
  · exact .inr ⟨left ++ more, rfl⟩

theorem apart_writePart {heading : String} {left : List Char}
    (h : heading.toList = ('\n' : Char) :: left)
    (lines : List (List Char)) : Apart (writePart heading lines) := by
  unfold writePart
  split
  · exact .inl rfl
  · exact .inr ⟨left ++ lines.flatten, by rw [ToText.fixed, h]; rfl⟩

theorem apart_lines (lines : List (List Char)) :
    Apart (lines.map (('\n' : Char) :: ·)).flatten := by
  cases lines with
  | nil => exact .inl rfl
  | cons line lines => exact .inr ⟨line ++ (lines.map (('\n' : Char) :: ·)).flatten, by simp⟩

/-- What stands below the header. -/
theorem apart_body (steps immediate hardware requests : List (List Char)) :
    Apart (writePart "\n" steps
      ++ ((writePart "\n@IMMEDIATE\n" immediate ++ writePart "\n@HARDWARE\n" hardware)
      ++ (requests.map (('\n' : Char) :: ·)).flatten)) :=
  (apart_writePart rfl _).append (((apart_writePart rfl _).append (apart_writePart rfl _)).append
    (apart_lines _))

/-- A line end follows a flag that does not end in one: in the text or after it. -/
theorem exists_lineEnd {front flag body rest : List Char} (hbody : Apart body)
    (hflag : flag.getLast? = some ('O' : Char))
    (hrest : (front ++ (flag ++ body)).getLast? = some ('\n' : Char) ∨ rest = [('\n' : Char)]) :
    ∃ more, body ++ rest = ('\n' : Char) :: more := by
  rcases hbody with rfl | ⟨more, rfl⟩
  · rcases hrest with hlast | rfl
    · rw [List.append_nil, List.getLast?_append, hflag] at hlast
      cases hlast
    · exact ⟨[], rfl⟩
  · exact ⟨more ++ rest, rfl⟩

/-- The written text of a document in pieces: up to the load-and-go flag, and from there. -/
theorem write_eq_ok {d : Document} {indent : Json.Indent} {text : List Char}
    (h : d.write indent = .ok text) :
    ∃ parameters locals metadata steps immediate hardware requests,
      Declaration.writeBlock "INPUT_PARAMS" d.parameters = .ok parameters ∧
      Declaration.writeBlock "LOCALS" d.locals = .ok locals ∧
      (d.metadata.filter (·.1 != loadAndGoKey)).mapM
        (fun (key, value) => Metadata.writeEntry indent key value) = .ok metadata ∧
      d.steps.mapM (Step.write indent) = .ok steps ∧
      d.immediateCommands.mapM (ImmediateCommand.write indent) = .ok immediate ∧
      d.hardwareCommands.mapM (HardwareCommand.write indent) = .ok hardware ∧
      d.requests.mapM (Request.write indent) = .ok requests ∧
      text = ToText.fixed "@ID " ++ (ToText.quoted d.id ++ [('\n' : Char)]) ++
        (parameters ++ locals)
        ++ metadata.flatten ++ (if d.loadAndGo then ToText.fixed "\n@LOAD_AND_GO" else [])
        ++ writePart "\n" steps
        ++ (writePart "\n@IMMEDIATE\n" immediate ++ writePart "\n@HARDWARE\n" hardware)
        ++ (requests.map (('\n' : Char) :: ·)).flatten := by
  obtain ⟨parameters, hparameters, h⟩ := bind_eq_ok.1 h
  obtain ⟨locals, hlocals, h⟩ := bind_eq_ok.1 h
  obtain ⟨_, hmetadata, h⟩ := bind_eq_ok.1 h
  obtain ⟨metadata, hentries, heq⟩ := bind_eq_ok.1 hmetadata
  cases heq
  obtain ⟨steps, hsteps, h⟩ := bind_eq_ok.1 h
  obtain ⟨immediate, himmediate, h⟩ := bind_eq_ok.1 h
  obtain ⟨hardware, hhardware, h⟩ := bind_eq_ok.1 h
  obtain ⟨requests, hrequests, heq⟩ := bind_eq_ok.1 h
  cases heq
  exact ⟨parameters, locals, metadata, steps, immediate, hardware, requests, hparameters, hlocals,
    hentries, hsteps, himmediate, hhardware, hrequests, by simp⟩

/-- The line of the identifier. -/
theorem readsLines_id {id : String} {validate : Bool} (rest : List Char) :
    ReadsLines Place.start (ToText.fixed "@ID " ++ (ToText.quoted id ++ [('\n' : Char)])) rest
      (· = { region := .identified }) (GivesParts validate [.id id]) := by
  refine ReadsLines.line (readsLine_id (Source.Place.opens_of_single rfl)) rfl ?_
  rintro _ ⟨position, name, rfl, hname⟩
  have hpart : OfOutline.part validate (.id position name) = .ok (.id id) := by
    rw [OfOutline.part, hname]
    rfl
  exact .single rfl hpart

/-- The blocks of a header. -/
theorem readsLines_blocks {d : Document} {parameters locals : List Char} {validate : Bool}
    (hvalid : d.Valid)
    (hparameters : Declaration.writeBlock "INPUT_PARAMS" d.parameters = .ok parameters)
    (hlocals : Declaration.writeBlock "LOCALS" d.locals = .ok locals) (rest : List Char) :
    ReadsLines { region := .identified } (parameters ++ locals) rest InHeader
      (GivesParts validate
        (blockParts .parameters d.parameters ++ blockParts .locals d.locals)) := by
  refine ReadsLines.append_parts
    (S := fun p => p = { region := .identified } ∨ p = { region := .parameterized })
    (readsLines_block hvalid.parameters ?_ (.inl rfl) (.inr rfl) hparameters) fun p hp =>
    readsLines_block hvalid.locals ?_ ?_ ⟨rfl, .inl rfl⟩ hlocals
  · exact Source.Place.opens_of_single rfl
  · rcases hp with rfl | rfl <;>
      exact Source.Place.opens_of_single rfl
  · rcases hp with rfl | rfl
    · exact ⟨rfl, .inr ⟨rfl, .inl rfl⟩⟩
    · exact ⟨rfl, .inr ⟨rfl, .inr rfl⟩⟩

/-- The load-and-go flag, before a line end. -/
theorem readsLines_flag {loadAndGo : Bool} {validate : Bool} {p : Place} {rest : List Char}
    (hp : InHeader p) (hrest : loadAndGo = true → ∃ more, rest = ('\n' : Char) :: more) :
    ReadsLines p (if loadAndGo then ToText.fixed "\n@LOAD_AND_GO" else []) rest InHeader
      (GivesParts validate
        (if loadAndGo then [.metadata loadAndGoKey (.boolean true)] else [])) := by
  cases loadAndGo with
  | false => exact .nil hp .nil
  | true =>
    obtain ⟨more, rfl⟩ := hrest rfl
    exact (readsLines_loadAndGo hp).blank

/-- The text of a document is read as the document's parts, if a line end follows. -/
theorem readsLines_write {d : Document} {indent : Json.Indent} {text rest : List Char}
    {validate : Bool} (hvalid : d.Valid) (htags : d.Tagged (TagReadable validate))
    (hwrite : d.write indent = .ok text)
    (hrest : text.getLast? = some ('\n' : Char) ∨ rest = [('\n' : Char)]) :
    ReadsLines Place.start text rest (Anywhere requestOpeners) (GivesParts validate d.parts) := by
  obtain ⟨parameters, locals, metadata, steps, immediate, hardware, requests, hparameters, hlocals,
    hmetadata, hsteps, himmediate, hhardware, hrequests, rfl⟩ := write_eq_ok hwrite
  have hsound : ∀ entry ∈ d.metadata.filter (·.1 != loadAndGoKey),
      entry.2.Sound (Number.Fits false) :=
    fun entry hentry => hvalid.metadata.sound entry (List.mem_filter.1 hentry).1
  have hflag : d.loadAndGo = true → ∃ more, writePart "\n" steps
      ++ ((writePart "\n@IMMEDIATE\n" immediate ++ writePart "\n@HARDWARE\n" hardware)
      ++ ((requests.map (('\n' : Char) :: ·)).flatten ++ rest)) = ('\n' : Char) :: more := by
    intro hgo
    have hbody := apart_body steps immediate hardware requests
    rw [hgo, if_pos rfl, List.append_assoc, List.append_assoc _ (writePart "\n" steps),
      List.append_assoc] at hrest
    have hlast : (ToText.fixed "\n@LOAD_AND_GO").getLast? = some ('O' : Char) := by decide
    obtain ⟨more, hmore⟩ := exists_lineEnd hbody hlast hrest
    exact ⟨more, by rw [← hmore]; simp⟩
  have hheader (more : List Char) : ReadsLines Place.start
      (ToText.fixed "@ID " ++ (ToText.quoted d.id ++ [('\n' : Char)]) ++ (parameters ++ locals)
        ++ metadata.flatten) more InHeader (GivesParts validate ([.id d.id]
        ++ (blockParts .parameters d.parameters ++ blockParts .locals d.locals)
        ++ (d.metadata.filter (·.1 != loadAndGoKey)).map fun (key, value) =>
          .metadata key value)) :=
    ((readsLines_id _).append_parts
      fun p hp => hp ▸ readsLines_blocks hvalid hparameters hlocals _).append_parts
      fun p hp => readsLines_header hp hsound hmetadata
  exact ((((hheader _).append_parts
    fun p hp => readsLines_flag hp hflag).append_parts
    fun p hp => readsLines_steps (hp.between.mono (by decide)) hvalid.steps htags.steps
      hsteps).append_parts
    fun p hp => readsLines_sections hp hvalid.immediateCommands hvalid.hardwareCommands himmediate
      hhardware).append_parts
    fun p hp => readsLines_requests hp hvalid.requests htags.requests hrequests

theorem terminate_eq (text : List Char) : ∃ rest, Lines.terminate text = text ++ rest ∧
    (text.getLast? = some ('\n' : Char) ∧ rest = [] ∨ rest = [('\n' : Char)]) := by
  unfold Lines.terminate
  split
  · next hlast => exact ⟨[], (List.append_nil _).symm, .inl ⟨beq_iff_eq.1 hlast, rfl⟩⟩
  · exact ⟨['\n'], rfl, .inr rfl⟩

/-- A text that is read as the lines of items, up to a place where it may end, has the items as its
outline. -/
theorem read_of_readsLines {text rest : List Char} {P : List Item → Prop}
    (hterminate : Lines.terminate text = text ++ rest) (hnext : nextLine rest = [])
    (hfront : nextLine (text ++ rest) = text ++ rest)
    (h : ReadsLines Place.start text rest (Anywhere requestOpeners)
      fun lines => ∃ items : List Item, lines = items.flatMap Item.lines ∧ P items) :
    ∃ outline, Source.Outline.read text = .ok outline ∧ P outline.items := by
  have hstart : (Cursor.ofText (text ++ rest)).Before (nextLine (text ++ rest)) := by
    rw [hfront]
    exact ⟨rfl, Nat.le_refl _⟩
  obtain ⟨lines, place, after, ⟨items, rfl, hitems⟩, ⟨late, hplace⟩, hafter, hlength, hread⟩ :=
    h _ hstart
  rw [hnext] at hafter
  have hend : Source.Line.read place after = .ok none := by
    have hlevels := (hplace.opens .endOfInput (by decide)).2
    rw [Source.Line.read, Cursor.read_end hafter hlevels]
    rfl
  have hall : Source.readLines (text ++ rest) = .ok (items.flatMap Item.lines) := by
    obtain ⟨n, hn⟩ : ∃ n, (Cursor.ofText (text ++ rest)).bound + 1 =
        n + 1 + (items.flatMap Item.lines).length := by
      refine ⟨(text ++ rest).length - (items.flatMap Item.lines).length, ?_⟩
      change (text ++ rest).length + 1 = _
      rw [List.length_append]
      omega
    have hlast : Source.Line.readAll (n + 1) place after = .ok [] := by
      rw [Source.Line.readAll, hend]
      rfl
    have hread' := hread (n + 1)
    rw [← hn, hlast] at hread'
    simpa [Source.readLines, Except.map] using hread'
  refine ⟨⟨items, (Cursor.ofText (text ++ rest)).skipBlanks.position⟩, ?_, hitems⟩
  rw [Source.Outline.read]
  simp only [hterminate, hall, Bind.bind, Except.bind, pure, Except.pure,
    Source.Outline.ofLines_lines]

/-- The same for a text to which a final line feed may have to be added. -/
theorem read_of_readsLines_terminated {text : List Char} {P : List Item → Prop}
    (hbegins : ∀ rest, nextLine (text ++ rest) = text ++ rest)
    (h : ∀ rest, text.getLast? = some ('\n' : Char) ∨ rest = [('\n' : Char)] →
      ReadsLines Place.start text rest (Anywhere requestOpeners)
        fun lines => ∃ items : List Item, lines = items.flatMap Item.lines ∧ P items) :
    ∃ outline, Source.Outline.read text = .ok outline ∧ P outline.items := by
  obtain ⟨rest, hterminate, hrest⟩ := terminate_eq text
  have hnext : nextLine rest = [] := by
    rcases hrest with ⟨-, rfl⟩ | rfl <;> rfl
  exact read_of_readsLines hterminate hnext (hbegins rest) (h rest (hrest.imp And.left fun h => h))

/-- A valid document whose tags are readable is read back from its text. -/
theorem ofText_write {d : Document} {indent : Json.Indent} {text : List Char} {validate : Bool}
    (hvalid : d.Valid) (htags : d.Tagged (TagReadable validate))
    (hwrite : d.write indent = .ok text) : ofText validate text = .ok d.reread := by
  have hbegins (rest : List Char) : nextLine (text ++ rest) = text ++ rest := by
    obtain ⟨parameters, locals, metadata, steps, immediate, hardware, requests, -, -, -, -, -, -, -,
      rfl⟩ := write_eq_ok hwrite
    simp only [List.append_assoc]
    exact Source.nextLine_cons (by decide) _
  obtain ⟨outline, hread, hitems⟩ := read_of_readsLines_terminated hbegins fun rest hrest =>
    readsLines_write hvalid htags hwrite hrest
  rw [ofText, hread]
  simp only [ofOutline, hitems, gather_parts (distinct_of_valid hvalid.metadata), Bind.bind,
    Except.bind]

end Document

end CommandSequence
