import CommandSequence.Proofs.Document.Effects
import CommandSequence.Proofs.Source.Outline
import CommandSequence.Proofs.Source.Runs
import CommandSequence.Proofs.Source.Steps

/-!
# Reading items back

The runs of lines that belong together: directives below a step, metadata below a step, request or
command, the steps of a request. A run is that of an item, and the item's meaning is what was
written (`GivesStepItem`, `GivesRequestItem`, `GivesParts`). Which places a run may begin at is said
by the kinds of tokens that they admit (`Between`).
-/

namespace CommandSequence

open OfOutline (Effect Part)
open Source (Terminal Token Cursor Place Region Line Item StepItem RequestItem CommandItem
  MetadataLine metadataLines)

namespace Source.Place

/-- Every one of the kinds may begin the line at a place. -/
def opensAll (place : Place) (kinds : List Terminal) : Bool :=
  kinds.all fun kind => (Level.sought place.levels).contains kind
    && (Level.refusing? place.levels kind).isNone

theorem opens_of_opensAll {place : Place} {kinds : List Terminal}
    (h : place.opensAll kinds = true) : ∀ kind ∈ kinds, place.Opens kind := by
  intro kind hkind
  have hopens := List.all_eq_true.1 h kind hkind
  rw [Bool.and_eq_true, List.contains_iff_mem, Option.isNone_iff_eq_none] at hopens
  exact hopens

theorem opens_of_single {place : Place} {kind : Terminal} (h : place.opensAll [kind] = true) :
    place.Opens kind :=
  opens_of_opensAll h kind (List.mem_singleton.2 rfl)

/-- The place is outside requests and admits the kinds, `late` telling whether the body has
ended. -/
structure Between (kinds : List Terminal) (late : Bool) (place : Place) : Prop where
  opens : ∀ kind ∈ kinds, place.Opens kind
  outside : ∀ b, place.region ≠ .request b
  late : place.region.isLate = late

theorem Between.mono {kinds fewer : List Terminal} {late : Bool} {place : Place}
    (h : place.Between kinds late) (hkinds : fewer ⊆ kinds) : place.Between fewer late :=
  ⟨fun kind hkind => h.opens kind (hkinds hkind), h.outside, h.late⟩

end Source.Place

namespace ReadBack

variable {place : Place} {text rest : List Char} {validate : Bool} {indent : Json.Indent}

/-! ## Metadata -/

/-- The lines are metadata below a line, with these entries. -/
def GivesEntries (m : List (String × Json.Value)) (lines : List Line) : Prop :=
  ∃ entries, lines = metadataLines entries ∧ entries.mapM OfOutline.entry = .ok m

theorem givesEntries_flatten {m : List (String × Json.Value)} {runs : List (List Line)}
    (h : List.Forall₂ (fun entry run => GivesEntries [entry] run) m runs) :
    GivesEntries m runs.flatten := by
  induction h with
  | nil => exact ⟨[], rfl, rfl⟩
  | @cons entry run m runs hfirst _ ih =>
    obtain ⟨first, rfl, hgives⟩ := hfirst
    obtain ⟨others, hothers, hmore⟩ := ih
    refine ⟨first ++ others, by rw [List.flatten_cons, hothers, metadataLines, metadataLines,
      metadataLines, List.map_append], ?_⟩
    rw [List.mapM_append, hgives, hmore]
    rfl

theorem distinct_of_valid {m : Metadata} (h : m.Valid) : Dictionary.Distinct m := by
  cases h with
  | object hkeys _ => exact hkeys

theorem metadata_ofOutline {m : Metadata} {entries : List MetadataLine} (hvalid : m.Valid)
    (h : entries.mapM OfOutline.entry = .ok m) : OfOutline.metadata entries = .ok m := by
  rw [OfOutline.metadata, h]
  exact congrArg Except.ok (Dictionary.ofList_of_distinct (distinct_of_valid hvalid))

/-- The places below a step, request or command, in a region. -/
def Below (region : Region) (tail : Source.Tail) (place : Place) : Prop :=
  place.region = region ∧ place.tail = tail

theorem opens_metadata {region : Region} {tail : Source.Tail} (h : Below region tail place)
    (htail : tail ∈ [Source.Tail.step, .request, .command]) : place.Opens .metadata := by
  obtain ⟨rfl, rfl⟩ := h
  obtain ⟨region, tail, afterMetadata⟩ := place
  simp only [List.mem_cons, List.not_mem_nil, or_false] at htail
  refine Source.Place.opens_of_single ?_
  rcases htail with rfl | rfl | rfl <;> cases afterMetadata <;> rfl

/-- Metadata below a step, request or command. -/
theorem readsLines_metadata {m : Metadata} {region : Region} {tail : Source.Tail}
    (hplace : Below region tail place) (htail : tail ∈ [Source.Tail.step, .request, .command])
    (hvalid : m.Valid) (hwrite : m.write indent = .ok text) :
    ReadsLines place text rest (Below region tail) (GivesEntries m) := by
  obtain ⟨texts, htexts, heq⟩ := bind_eq_ok.1 hwrite
  cases heq
  cases hvalid with
  | object _ hsound =>
  refine (ReadsLines.flatten hplace htexts fun entry hentry text p rest hwrite hp => ?_).mono
    (fun _ h => h) fun lines ⟨runs, hlines, hruns⟩ => hlines ▸ givesEntries_flatten hruns
  refine ReadsLines.line (readsLine_metadata (opens_metadata hp htail)
    (fun h => by rw [hp.2] at h; subst h; revert htail; decide) (hsound entry hentry) hwrite) hp ?_
  rintro _ ⟨given, rfl, hgives⟩
  exact ⟨[given], rfl, by rw [List.mapM_cons, hgives]; rfl⟩

/-! ## Directives -/

/-- The lines are directives with these effects. -/
def GivesEffects (effects : List Effect) (lines : List Line) : Prop :=
  ∃ (directives : List Source.Directive) (given : List Effect),
    lines = directives.map Line.directive ∧ directives.mapM OfOutline.effect = .ok given ∧
      given.map Effect.unplaced = effects

theorem GivesEffects.append {effects effects' : List Effect} {lines lines' : List Line}
    (h : GivesEffects effects lines) (h' : GivesEffects effects' lines') :
    GivesEffects (effects ++ effects') (lines ++ lines') := by
  obtain ⟨directives, given, rfl, hgives, rfl⟩ := h
  obtain ⟨directives', given', rfl, hgives', rfl⟩ := h'
  refine ⟨directives ++ directives', given ++ given', by rw [List.map_append], ?_,
    by rw [List.map_append]⟩
  rw [List.mapM_append, hgives, hgives']
  rfl

theorem GivesEffects.of_entries {m : List (String × Json.Value)} {lines : List Line}
    (h : GivesEntries m lines) :
    GivesEffects (m.map fun (key, value) => Effect.metadata key value) lines := by
  obtain ⟨entries, rfl, hentries⟩ := h
  refine ⟨entries.map .metadata, m.map fun (key, value) => .metadata key value,
    by rw [metadataLines, List.map_map]; rfl, ?_, by simp [Effect.unplaced, Function.comp_def]⟩
  rw [mapM_eq_ok] at hentries ⊢
  rw [List.forall₂_map_left_iff, List.forall₂_map_right_iff]
  refine hentries.imp fun entry given hgives => ?_
  rw [OfOutline.effect, hgives]
  rfl

theorem opens_directives {region : Region} (h : Below region .step place) :
    ∀ kind ∈ Source.directives, place.Opens kind := by
  obtain ⟨rfl, htail⟩ := h
  obtain ⟨region, tail, afterMetadata⟩ := place
  cases htail
  exact Source.Place.opens_of_opensAll (by cases afterMetadata <;> rfl)

theorem below_resumed {region : Region} {tail : Source.Tail} (h : Below region tail place) :
    Below region tail (resumed place) :=
  h

/-- The line of one directive. -/
theorem readsLines_directive {region : Region} {effect : Effect} {place' : Place}
    {P : Line → Prop} (hplace : Below region .step place')
    (hline : ReadsLine place text rest place' P)
    (hP : ∀ line, P line → ∃ directive given, line = .directive directive ∧
      OfOutline.effect directive = .ok given ∧ given.unplaced = effect) :
    ReadsLines place text rest (Below region .step) (GivesEffects [effect]) := by
  refine ReadsLines.line hline hplace fun line hP' => ?_
  obtain ⟨directive, given, rfl, hgives, rfl⟩ := hP line hP'
  exact ⟨[directive], [given], rfl, by rw [List.mapM_cons, hgives]; rfl, rfl⟩

/-- The line of an epoch, if there is one. -/
theorem readsLines_epoch {epoch : Option String} {region : Region}
    (hplace : Below region .step place)
    (htext : text = match epoch with
      | some name => ToText.fixed "@EPOCH " ++ ToText.quoted name ++ [('\n' : Char)]
      | none => []) :
    ReadsLines place text rest (Below region .step)
      (GivesEffects (epoch.map (Effect.epoch .origin)).toList) := by
  subst htext
  cases epoch with
  | none => exact .nil hplace ⟨[], [], rfl, rfl, rfl⟩
  | some name =>
    simp only [List.append_assoc]
    refine readsLines_directive (below_resumed hplace)
      (readsLine_epoch (opens_directives hplace _ (by decide))) ?_
    rintro line ⟨directive, position, rfl, hgives⟩
    exact ⟨directive, _, rfl, hgives, rfl⟩

/-- The directives of an action. -/
theorem readsLines_action {action : Action} {region : Region} (hplace : Below region .step place)
    (hwrite : action.writeDirectives = .ok text) :
    ReadsLines place text rest (Below region .step) (GivesEffects action.effects) := by
  cases action with
  | call kind sequence engine epoch =>
    cases engine with
    | none =>
      cases hwrite
      exact readsLines_epoch hplace rfl
    | some n =>
      obtain ⟨engineLine, hengine, heq⟩ := bind_eq_ok.1 hwrite
      obtain ⟨digits, hdigits, rfl⟩ := map_eq_ok.1 hengine
      cases heq
      have hline (rest : List Char) : ReadsLines place
          (ToText.fixed "@ENGINE " ++ digits ++ [('\n' : Char)])
          rest (Below region .step) (GivesEffects [.engine .origin n]) := by
        rw [List.append_assoc]
        refine readsLines_directive (below_resumed hplace)
          (readsLine_engine (opens_directives hplace _ (by decide)) hdigits) ?_
        rintro line ⟨directive, position, rfl, hgives⟩
        exact ⟨directive, _, rfl, hgives, rfl⟩
      refine ((hline _).append fun p hp => readsLines_epoch hp rfl).mono (fun _ h => h) ?_
      rintro _ ⟨a, b, rfl, ha, hb⟩
      exact ha.append hb
  | _ =>
    cases hwrite
    exact .nil hplace ⟨[], [], rfl, rfl, rfl⟩

/-- Models below a step. -/
theorem readsLines_models {models : List Model} {texts : List (List Char)} {region : Region}
    (hplace : Below region .step place) (hwrite : models.mapM Model.write = .ok texts) :
    ReadsLines place texts.flatten rest (Below region .step)
      (GivesEffects (models.map Effect.model)) := by
  refine (ReadsLines.flatten (R := fun m => GivesEffects [.model m]) hplace hwrite
    fun m _ text p rest hwrite hp => ?_).mono (fun _ h => h) ?_
  · refine readsLines_directive (below_resumed hp)
      (readsLine_model (opens_directives hp _ (by decide)) hwrite) ?_
    rintro line ⟨directive, rfl, hgives⟩
    exact ⟨directive, _, rfl, hgives, rfl⟩
  · rintro _ ⟨runs, rfl, hruns⟩
    clear hwrite
    induction hruns with
    | nil => exact ⟨[], [], rfl, rfl, rfl⟩
    | cons hfirst _ ih => exact hfirst.append ih

/-! ## Steps -/

/-- The lines are those of a step. -/
def GivesStepItem (validate : Bool) (s : Step) (lines : List Line) : Prop :=
  ∃ item : StepItem, lines = item.lines ∧ OfOutline.step validate item = .ok s

/-- A step's line and its directives give the step. -/
theorem GivesStep.ofOutline {s : Step} {item : StepItem} {given : List Effect}
    (h : GivesStep validate s item.line) (hkeys : Dictionary.Distinct s.metadata)
    (hdirectives : item.directives.mapM OfOutline.effect = .ok given)
    (hgiven : given.map Effect.unplaced = s.effects) :
    OfOutline.step validate item = .ok s.canon := by
  obtain ⟨hcalls, haction, hmetadata, hmodels⟩ := Step.ofEffects hkeys hgiven
  unfold OfOutline.step
  simp only [h.time, h.action, h.arguments, h.description, hdirectives, hcalls, haction, hmetadata,
    hmodels, Bind.bind, Except.bind]
  rfl

/-- The lines of a step. -/
theorem readsLines_step {s : Step} (hvalid : s.Valid) (htag : s.time.Tagged (TagReadable validate))
    (hplace : place.Opens s.time.terminal) (hlate : place.region.isLate = false)
    (hwrite : s.write indent = .ok text) :
    ReadsLines place text rest (Below (Line.bodyRegion place.region) .step)
      (GivesStepItem validate s.canon) := by
  obtain ⟨directives, hdirectives, hwrite⟩ := bind_eq_ok.1 hwrite
  obtain ⟨arguments, harguments, hwrite⟩ := bind_eq_ok.1 hwrite
  obtain ⟨ending, hending, hwrite⟩ := bind_eq_ok.1 hwrite
  obtain ⟨metadata, hmetadata, hwrite⟩ := bind_eq_ok.1 hwrite
  obtain ⟨models, hmodels, heq⟩ := bind_eq_ok.1 hwrite
  cases heq
  have hfirst (rest : List Char) : ReadsLines place
      (s.time.write ++ (' ' : Char) :: s.action.write ++ arguments ++ ending) rest
      (Below (Line.bodyRegion place.region) .step)
      fun lines => ∃ line, lines = [.step line] ∧ GivesStep validate s line := by
    simp only [List.append_assoc, List.cons_append]
    refine ReadsLines.line (readsLine_step hvalid htag hplace hlate harguments hending)
      ⟨rfl, rfl⟩ ?_
    rintro _ ⟨line, rfl, hgives⟩
    exact ⟨line, rfl, hgives⟩
  refine ((((hfirst _).append fun p hp => readsLines_action hp hdirectives).append
    fun p hp => readsLines_metadata hp (by decide) hvalid.metadata hmetadata).append
    fun p hp => readsLines_models hp hmodels).mono (fun _ h => h) ?_
  rintro _ ⟨_, _, rfl, ⟨_, _, rfl, ⟨_, _, rfl, ⟨line, rfl, hgives⟩, haction⟩, hentries⟩, hmodels⟩
  obtain ⟨directives, given, heq, hmapM, hgiven⟩ :=
    (haction.append (.of_entries hentries)).append hmodels
  refine ⟨⟨line, directives⟩, ?_,
    hgives.ofOutline (distinct_of_valid hvalid.metadata) hmapM hgiven⟩
  rw [StepItem.lines, ← heq]
  simp

/-! ## Requests -/

/-- The lines are those of a request. -/
def GivesRequestItem (validate : Bool) (r : Request) (lines : List Line) : Prop :=
  ∃ item : RequestItem, lines = item.lines ∧ OfOutline.request validate item = .ok r

/-- The lines of steps. -/
def GivesStepItems (validate : Bool) (steps : List Step) (lines : List Line) : Prop :=
  ∃ items : List StepItem, lines = items.flatMap StepItem.lines ∧
    items.mapM (OfOutline.step validate) = .ok steps

theorem givesStepItems_flatten {steps : List Step} {runs : List (List Line)}
    (h : List.Forall₂ (fun s run => GivesStepItem validate s.canon run) steps runs) :
    GivesStepItems validate (steps.map Step.canon) runs.flatten := by
  induction h with
  | nil => exact ⟨[], rfl, rfl⟩
  | cons hfirst _ ih =>
    obtain ⟨item, rfl, hitem⟩ := hfirst
    obtain ⟨items, hlines, hitems⟩ := ih
    refine ⟨item :: items, by rw [List.flatten_cons, hlines, List.flatMap_cons], ?_⟩
    rw [List.mapM_cons, hitem, hitems]
    rfl

/-- The places inside a request. -/
def Inside (late : Bool) (place : Place) : Prop :=
  place = { region := .request late } ∨ Below (.request late) .step place

theorem Inside.opens {late : Bool} (h : Inside late place) :
    ∀ kind ∈ .requestEnd :: Source.timeTags, place.Opens kind := by
  rcases h with rfl | ⟨hregion, htail⟩
  · exact Source.Place.opens_of_opensAll rfl
  · obtain ⟨region, tail, afterMetadata⟩ := place
    cases hregion
    cases htail
    exact Source.Place.opens_of_opensAll (by cases afterMetadata <;> rfl)

theorem Inside.region {late : Bool} (h : Inside late place) : place.region = .request late := by
  rcases h with rfl | h
  · rfl
  · exact h.1

/-- A line of a keyword alone. -/
theorem readsLines_keyword {keyword : String} {S : Place → Prop} (kind : Terminal) (place' : Place)
    (line : Source.Position → Line) (hkeyword : kind.literal? = some keyword)
    (hplace : place.Opens kind) (hload : kind ≠ .load) (hplace' : S place')
    (htext : text = keyword.toList ++ [('\n' : Char)])
    (hfrom : ∀ (token : Token) (c after : Cursor), token.kind = kind →
      Line.readNewline c = .ok after →
      Line.readFrom place token c = .ok (line token.position, place', after)) :
    ReadsLines place text rest S fun lines => ∃ position, lines = [line position] := by
  subst htext
  refine ReadsLines.line (R := fun found => ∃ position, found = line position)
    (readsLine_keyword hkeyword hplace hload fun token c after hkind hnewline => ?_) hplace' ?_
  · exact ⟨_, hfrom token c after hkind hnewline, _, rfl⟩
  · rintro _ ⟨position, rfl⟩
    exact ⟨position, rfl⟩

/-- The line that ends a request. -/
theorem readsLines_requestEnd {late : Bool} (hplace : Inside late place) :
    ReadsLines place (ToText.fixed "@REQUEST_END\n") rest
      (Below (if late then .trailer else .body) .request)
      fun lines => ∃ _ : Source.Position, lines = [.requestEnd] := by
  refine readsLines_keyword .requestEnd ⟨if late then .trailer else .body, .request, false⟩
    (fun _ => .requestEnd) rfl (hplace.opens _ (by decide)) (by decide) ⟨rfl, rfl⟩ rfl
    fun token c after hkind hnewline => ?_
  simp only [Line.readFrom, hkind, hnewline, hplace.region]
  cases late <;> rfl

/-- The first line of a request, its steps and the metadata below it give the request. -/
theorem GivesRequest.ofOutline {r : Request} {item : RequestItem}
    (h : GivesRequest validate r item.line)
    (hvalid : r.Valid)
    (hsteps : item.steps.mapM (OfOutline.step validate) = .ok (r.steps.map Step.canon))
    (hmetadata : item.metadata.mapM OfOutline.entry = .ok r.metadata) :
    OfOutline.request validate item = .ok r.canon := by
  obtain ⟨moment, htiming, htime, hepoch⟩ := h.timing
  have hfilled : (r.steps.map Step.canon).isEmpty = false := by
    rw [List.isEmpty_eq_false_iff, ne_eq, List.map_eq_nil_iff]
    exact hvalid.filled
  unfold OfOutline.request
  simp only [htiming, h.name, h.description, hsteps, metadata_ofOutline hvalid.metadata hmetadata,
    hfilled, htime, hepoch, Bind.bind, Except.bind]
  rfl

/-- The lines of a request. -/
theorem readsLines_request {r : Request} (hvalid : r.Valid)
    (htag : r.Tagged (TagReadable validate)) {kinds : List Terminal} {late : Bool}
    (hplace : place.Between kinds late) (hkinds : Source.openers ⊆ kinds)
    (hwrite : r.write indent = .ok text) :
    ReadsLines place text rest (Below (if late then .trailer else .body) .request)
      (GivesRequestItem validate r.canon) := by
  obtain ⟨timing, htiming, hwrite⟩ := bind_eq_ok.1 hwrite
  obtain ⟨ending, hending, hwrite⟩ := bind_eq_ok.1 hwrite
  obtain ⟨steps, hsteps, hwrite⟩ := bind_eq_ok.1 hwrite
  obtain ⟨metadata, hmetadata, heq⟩ := bind_eq_ok.1 hwrite
  cases heq
  have hfirst (rest : List Char) : ReadsLines place
      (timing ++ ToText.fixed " @REQUEST_BEGIN(" ++ ToText.quoted r.name ++ (')' : Char) :: ending)
        rest (Inside late)
      fun lines => ∃ line, lines = [.requestBegin line] ∧ GivesRequest validate r line := by
    have hfixed : ToText.fixed " @REQUEST_BEGIN(" =
        (' ' : Char) :: (String.toList "@REQUEST_BEGIN" ++ [('(' : Char)]) := rfl
    simp only [hfixed, List.append_assoc, List.cons_append, List.nil_append]
    refine ReadsLines.line (readsLine_request hvalid htag (hplace.mono hkinds).opens
      hplace.outside htiming hending) (.inl (by rw [Line.insideRequest, hplace.late])) ?_
    rintro _ ⟨line, rfl, hgives⟩
    exact ⟨line, rfl, hgives⟩
  have hbody (p : Place) (rest : List Char) (hp : Inside late p) : ReadsLines p steps.flatten rest
      (Inside late) (GivesStepItems validate (r.steps.map Step.canon)) := by
    refine (ReadsLines.flatten hp hsteps fun s hs text p rest hwrite hp => ?_).mono
      (fun _ h => h) fun lines ⟨runs, hlines, hruns⟩ => hlines ▸ givesStepItems_flatten hruns
    refine (readsLines_step (hvalid.steps s hs) (htag.steps s hs) (hp.opens _
      (List.mem_cons_of_mem _ (terminal_mem_timeTags _))) (by rw [hp.region]; rfl) hwrite).mono
      (fun p' hp' => .inr ?_) fun _ h => h
    rwa [hp.region] at hp'
  refine ((((hfirst _).append fun p hp => hbody p _ hp).append
    fun p hp => readsLines_requestEnd hp).append
    fun p hp => readsLines_metadata hp (by decide) hvalid.metadata hmetadata).mono
      (fun _ h => h) ?_
  rintro _ ⟨_, _, rfl, ⟨_, _, rfl, ⟨_, _, rfl, ⟨line, rfl, hgives⟩, items, rfl, hitems⟩, -, rfl⟩,
    entries, rfl, hentries⟩
  exact ⟨⟨line, items, entries⟩, by simp [RequestItem.lines],
    hgives.ofOutline hvalid hitems hentries⟩

/-! ## Parts of a document -/

/-- The lines are those of items that mean these parts. -/
def GivesParts (validate : Bool) (parts : List Part) (lines : List Line) : Prop :=
  ∃ items : List Item, lines = items.flatMap Item.lines ∧
    items.mapM (OfOutline.part validate) = .ok parts

namespace GivesParts

theorem nil : GivesParts validate [] [] :=
  ⟨[], rfl, rfl⟩

theorem single {item : Item} {part : Part} {lines : List Line} (hlines : lines = item.lines)
    (hpart : OfOutline.part validate item = .ok part) : GivesParts validate [part] lines :=
  ⟨[item], by rw [hlines, List.flatMap_singleton], by rw [List.mapM_cons, hpart]; rfl⟩

theorem append {parts parts' : List Part} {lines lines' : List Line}
    (h : GivesParts validate parts lines) (h' : GivesParts validate parts' lines') :
    GivesParts validate (parts ++ parts') (lines ++ lines') := by
  obtain ⟨items, rfl, hitems⟩ := h
  obtain ⟨items', rfl, hitems'⟩ := h'
  refine ⟨items ++ items', by rw [List.flatMap_append], ?_⟩
  rw [List.mapM_append, hitems, hitems']
  rfl

theorem flatten {α : Type} {f : α → Part} {l : List α} {runs : List (List Line)}
    (h : List.Forall₂ (fun a run => GivesParts validate [f a] run) l runs) :
    GivesParts validate (l.map f) runs.flatten := by
  induction h with
  | nil => exact nil
  | cons hfirst _ ih => exact append hfirst ih

end GivesParts

/-- One run of lines after another, each with its parts. -/
theorem ReadsLines.append_parts {text' : List Char} {S S' : Place → Prop} {parts parts' : List Part}
    (h : ReadsLines place text (text' ++ rest) S (GivesParts validate parts))
    (h' : ∀ p, S p → ReadsLines p text' rest S' (GivesParts validate parts')) :
    ReadsLines place (text ++ text') rest S' (GivesParts validate (parts ++ parts')) := by
  refine (h.append h').mono (fun _ h => h) ?_
  rintro _ ⟨a, b, rfl, ha, hb⟩
  exact ha.append hb

end ReadBack

end CommandSequence
