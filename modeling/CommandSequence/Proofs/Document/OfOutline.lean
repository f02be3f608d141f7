import CommandSequence.Document.OfText
import CommandSequence.Proofs.Document.Canon
import CommandSequence.Proofs.Document.Parts
import CommandSequence.Proofs.Document.Tags
import CommandSequence.Proofs.Source.Trees

/-!
# Documents from outlines are valid

What an outline means is valid, its tags are readable and its declarations are unambiguous, because
the tokens that it is made of have the form of their kinds. So every document that is read from a
text can be written and read back (`Document.readable_of_ofText`).
-/

namespace CommandSequence

open Source (Token Terminal)

namespace OfOutline

variable {validate : Bool} {token : Token}

/-! ## Numbers and metadata -/

theorem fits_number? {text : List Char} :
    Yields (number? text) fun n => ∀ x, n = some x → x.Fits false := by
  intro n h
  unfold number? at h
  split at h
  · next found hread =>
    cases h
    rintro x rfl
    unfold Number.read? at hread
    simp only at hread
    split at hread
    · obtain ⟨n, hn, heq⟩ := map_eq_ok.1 hread
      cases heq
      exact Number.fits_of_readInt hn fun h => nomatch h
    · split at hread
      · cases hread; trivial
      · cases hread
  · cases h

theorem fits_number : Yields (number token) (Number.Fits false) := by
  refine fits_number?.bind fun n hn => .ok ?_
  cases n with
  | none => exact Number.fits_of_lt Nat.one_pos (by decide) (by decide) fun h => nomatch h
  | some x => exact hn x rfl

theorem yields_mapM {α β : Type} {f : α → Except Fault β} {l : List α} {P : β → Prop}
    (hf : ∀ x ∈ l, Yields (f x) P) : Yields (l.mapM f) fun out => ∀ y ∈ out, P y :=
  fun _ h => forall_mem_of_mapM h hf

mutual

/-- The numbers of a value fit, and the keys of its objects are distinct. -/
theorem sound_value : (v : Source.Value) → Yields (value v) (Json.Value.Sound (Number.Fits false))
  | .scalar token => by
    intro v h
    rw [value] at h
    split at h
    · obtain ⟨s, -, rfl⟩ := map_eq_ok.1 h
      exact .string s
    · obtain ⟨n, hn, rfl⟩ := map_eq_ok.1 h
      exact .number (fits_number n hn)
    · cases h; exact .boolean _
    · cases h; exact .null
  | .array _ items => by
    intro v h
    rw [value] at h
    obtain ⟨vs, hvs, rfl⟩ := map_eq_ok.1 h
    exact .array (sound_values items vs hvs)
  | .object _ written => by
    intro v h
    rw [value] at h
    obtain ⟨entries, hentries, rfl⟩ := map_eq_ok.1 h
    exact .object (Dictionary.distinct_ofList entries) fun m hm =>
      sound_members written entries hentries m (Dictionary.mem_ofList hm)

@[inherit_doc sound_value]
theorem sound_values : (items : List Source.Value) →
    Yields (values items) fun vs => ∀ v ∈ vs, v.Sound (Number.Fits false)
  | [] => by
    rw [values]
    exact .ok fun _ h => nomatch h
  | item :: rest => by
    rw [values]
    exact (sound_value item).bind fun v hv => (sound_values rest).bind fun vs hvs =>
      .ok (List.forall_mem_cons.2 ⟨hv, hvs⟩)

@[inherit_doc sound_value]
theorem sound_members : (written : List (Token × Source.Value)) →
    Yields (members written) fun ms => ∀ m ∈ ms, m.2.Sound (Number.Fits false)
  | [] => by
    rw [members]
    exact .ok fun _ h => nomatch h
  | (key, item) :: rest => by
    rw [members]
    exact .bind_any fun name => (sound_value item).bind fun v hv =>
      (sound_members rest).bind fun ms hms => .ok (List.forall_mem_cons.2 ⟨hv, hms⟩)

end

theorem sound_entry (line : Source.MetadataLine) :
    Yields (entry line) fun found => found.2.Sound (Number.Fits false) :=
  .bind_any fun _ => (sound_value line.value).bind fun _ hv => .ok hv

theorem valid_ofList {entries : List (String × Json.Value)}
    (h : ∀ e ∈ entries, e.2.Sound (Number.Fits false)) :
    Metadata.Valid (Dictionary.ofList entries) :=
  .object (Dictionary.distinct_ofList entries) fun e he => h e (Dictionary.mem_ofList he)

theorem valid_metadata (lines : List Source.MetadataLine) :
    Yields (metadata lines) Metadata.Valid :=
  (yields_mapM fun line _ => sound_entry line).bind fun _ h => .ok (valid_ofList h)

/-! ## Arguments -/

theorem valid_baseArgument (h : token.IsArgument) :
    Yields (baseArgument token) BaseArgument.Valid := by
  unfold baseArgument
  split
  · exact .bind_any fun s => .ok trivial
  · refine fits_number.bind fun n hn => ?_
    split
    · next hfinite => exact .ok ⟨hfinite, hn⟩
    · exact .error
  · exact .ok trivial
  · next hhex => exact .ok (by simpa [BaseArgument.Valid, word] using h.hex hhex)
  · next hstring hnumber hboolean hhex =>
    have hidentifier : token.kind = .identifier := by
      have hkind := h.kind
      simp only [Source.Line.argumentKinds, List.mem_cons, List.not_mem_nil, or_false] at hkind
      simp_all
    exact .ok (by simpa [BaseArgument.Valid, word] using h.symbol hidentifier)

theorem valid_argument {a : Source.Argument} (h : a.Lexed) :
    Yields (argument a) Argument.Valid := by
  cases a with
  | single token => exact (valid_baseArgument h).bind fun a ha => .ok ha
  | group position items =>
    refine (yields_mapM fun token htoken => valid_baseArgument (h token htoken)).bind
      fun set hset => .ok fun set' hmem => ?_
    split at hmem
    · cases hmem
    · rw [List.mem_singleton.1 hmem]
      exact hset

theorem valid_arguments {written : List Source.Argument} (h : ∀ a ∈ written, a.Lexed) :
    Yields (arguments written) fun found => ∀ a ∈ found, a.Valid :=
  yields_mapM fun a ha => valid_argument (h a ha)

/-! ## Times -/

theorem nonEmpty_ne (s : String) : nonEmpty s ≠ some ("" : String) := by
  unfold nonEmpty
  split
  · exact nofun
  · next hfilled =>
    rintro heq
    rw [Option.some.inj heq] at hfilled
    exact hfilled rfl

theorem toList_nonEmpty (text : List Char) :
    ((nonEmpty (String.ofList text)).getD "").toList = text := by
  unfold nonEmpty
  split
  · next hempty =>
    have hnil : text = [] := List.isEmpty_iff.1 hempty
    rw [hnil]
    rfl
  · simp

/-- A tag is readable, and not empty. -/
theorem readable_tag (h : token.IsTag) : Yields (tag validate token) fun found =>
    found ≠ some ("" : String) ∧ TagReadable validate token.kind (found.getD "").toList := by
  obtain ⟨letter, body, hletter, htext, hbody⟩ := h
  unfold tag
  rw [htext]
  dsimp only
  split
  · exact .error
  · next haccepts =>
    refine .ok ⟨nonEmpty_ne _, ?_⟩
    rw [toList_nonEmpty]
    refine ⟨hbody, fun hvalidate hfilled l hl => ?_⟩
    rw [hletter] at hl
    cases hl
    subst hvalidate
    simpa [hfilled] using haccepts

theorem readable_time (hkind : token.kind ∈ Source.timeTags) (h : token.IsTag) :
    Yields (time validate token) fun t => t.Valid ∧ t.Tagged (TagReadable validate) := by
  have htag : Yields (tag validate token) _ := readable_tag h
  simp only [Source.timeTags, List.mem_cons, List.not_mem_nil, or_false] at hkind
  unfold time
  rcases hkind with hkind | hkind | hkind | hkind
  all_goals
    rw [hkind] at htag ⊢
    dsimp only
  case inr.inl => exact .ok ⟨fun h => (by cases h), rfl, fun _ h => absurd rfl h⟩
  all_goals
    rintro _ hmap
    obtain ⟨found, hfound, rfl⟩ := map_eq_ok.1 hmap
    exact htag found hfound

/-! ## Steps and requests -/

/-- The value of a model, and an engine, fit if they are integers. -/
theorem valid_model (line : Source.ModelLine) : Yields (model line) fun m => m.value.Valid := by
  have hvalue : Yields (modelValue line.value) ModelValue.Valid := by
    unfold modelValue
    intro v h
    split at h
    · obtain ⟨s, -, rfl⟩ := map_eq_ok.1 h
      trivial
    · obtain ⟨n, hn, rfl⟩ := map_eq_ok.1 h
      exact fits_number n hn
    · cases h
      trivial
  unfold model
  dsimp only
  split <;> exact .bind_any fun name => hvalue.bind fun v hv => .bind_any fun offset => .ok hv

/-- What a directive gives to its step is valid. -/
structure ValidEffect (e : Effect) : Prop where
  metadata : ∀ entry, e.metadata? = some entry → entry.2.Sound (Number.Fits false)
  model : ∀ m, e.model? = some m → m.value.Valid
  engine : ∀ found, e.engine? = some found → (Number.int found.2).Fits false

theorem valid_effect (d : Source.Directive) : Yields (effect d) ValidEffect := by
  cases d with
  | metadata line =>
    refine (sound_entry line).bind fun entry hentry => .ok
      ⟨fun found hfound => ?_, fun _ h => (by cases h), fun _ h => by cases h⟩
    cases hfound
    exact hentry
  | model line =>
    intro e h
    obtain ⟨m, hm, rfl⟩ := map_eq_ok.1 h
    refine ⟨fun _ h => (by cases h), fun found hfound => ?_, fun _ h => by cases h⟩
    cases hfound
    exact valid_model line m hm
  | engine position token =>
    refine fits_number.bind fun n hn => ?_
    cases n with
    | int n =>
      refine .ok ⟨fun _ h => (by cases h), fun _ h => (by cases h), fun found hfound => ?_⟩
      cases hfound
      exact hn
    | float x => exact .error
  | epoch position token =>
    intro e h
    obtain ⟨name, -, rfl⟩ := map_eq_ok.1 h
    exact ⟨fun _ h => (by cases h), fun _ h => (by cases h), fun _ h => by cases h⟩

theorem valid_action {kind : Source.StepKind} {subject : Token}
    (h : kind = .command → isIdentifier subject.text = true) :
    Yields (action kind subject) Action.Valid := by
  cases kind with
  | command => exact .ok (by simpa [Action.Valid, word] using h rfl)
  | activate => exact .bind_any fun s => .ok fun _ h => by cases h
  | load => exact .bind_any fun s => .ok fun _ h => by cases h
  | groundBlock => exact .bind_any fun s => .ok trivial
  | groundEvent => exact .bind_any fun s => .ok trivial

theorem valid_withCalls {effects : List Effect} (h : ∀ e ∈ effects, ValidEffect e) {a : Action}
    (ha : a.Valid) : (withCalls effects a).Valid := by
  cases a with
  | call kind sequence engine epoch =>
    intro n hn
    obtain ⟨found, hfound, rfl⟩ := Option.map_eq_some_iff.1 hn
    obtain ⟨e, he, hengine⟩ := List.exists_of_findSome?_eq_some hfound
    exact (h e he).engine found hengine
  | _ => exact ha

theorem valid_step {item : Source.StepItem} (h : item.line.Lexed) :
    Yields (step validate item) fun s => s.Valid ∧ s.time.Tagged (TagReadable validate) := by
  unfold step
  refine (readable_time h.tag.1 h.tag.2).bind fun moment hmoment => ?_
  refine (valid_action h.subject).bind fun does hdoes => ?_
  refine (valid_arguments h.arguments).bind fun given hgiven => ?_
  refine (yields_mapM fun d _ => valid_effect d).bind fun effects heffects => ?_
  refine .bind_any fun _ => .ok
    ⟨⟨hmoment.1, valid_withCalls heffects hdoes, hgiven, valid_ofList ?_, ?_⟩, hmoment.2⟩
  · intro entry hentry
    obtain ⟨e, he, hmetadata⟩ := List.mem_filterMap.1 hentry
    exact (heffects e he).metadata entry hmetadata
  · intro m hm
    obtain ⟨e, he, hmodel⟩ := List.mem_filterMap.1 hm
    exact (heffects e he).model m hmodel

/-- A ground epoch is made of a name that UTF-8 has bytes for. -/
theorem groundEpoch_eq_ok {position : Source.Position} {name : String} {delta : Option String}
    {g : GroundEpoch} : groundEpoch position name delta = .ok g ↔
      name.isEncodable = true ∧ g = ⟨nonEmpty name, delta⟩ := by
  unfold groundEpoch
  split
  · next h => simp [h, eq_comm]
  · next h => simp [h]

theorem valid_groundEpoch {position : Source.Position} {name : String} {delta : Option String}
    (hdelta : delta ≠ some ("" : String)) :
    Yields (groundEpoch position name delta) fun g => g.Valid ∧ g.delta = delta := by
  intro g hg
  obtain ⟨hencodable, rfl⟩ := groundEpoch_eq_ok.1 hg
  refine ⟨⟨nonEmpty_ne name, fun called h => ?_, hdelta⟩, rfl⟩
  have hcalled : called = name := by
    simp only [nonEmpty] at h
    split at h
    · cases h
    · exact (Option.some.inj h).symm
  rw [hcalled]
  exact hencodable

/-- The timing of a request is valid, and its tag is readable. -/
theorem readable_timing {t : Source.Timing} (h : t.Lexed) :
    Yields (timing validate t) fun moment =>
      (∀ t, moment.getLeft? = some t → t.Valid ∧ t.Tagged (TagReadable validate)) ∧
      ∀ g, moment.getRight? = some g → g.Valid ∧ g.Tagged (TagReadable validate) := by
  cases t with
  | tag token =>
    intro moment hmoment
    obtain ⟨t, ht, rfl⟩ := map_eq_ok.1 hmoment
    refine ⟨fun found hfound => ?_, fun _ h => by cases h⟩
    cases hfound
    exact readable_time h.1 h.2 t ht
  | groundEpoch token name =>
    refine .bind_any fun called => (readable_tag h.2).bind fun delta hdelta =>
      (valid_groundEpoch hdelta.1).bind fun g hg => .ok
        ⟨fun _ h => (by cases h), fun found hfound => ?_⟩
    cases hfound
    rw [h.1, ← hg.2] at hdelta
    exact ⟨hg.1, hdelta.2⟩

theorem valid_request {item : Source.RequestItem} (htiming : item.line.timing.Lexed)
    (hsteps : ∀ s ∈ item.steps, s.line.Lexed) :
    Yields (request validate item) fun r => r.Valid ∧ r.Tagged (TagReadable validate) := by
  unfold request
  refine (readable_timing htiming).bind fun moment hmoment => .bind_any fun name => ?_
  refine (yields_mapM fun s hs => valid_step (hsteps s hs)).bind fun steps hsteps => ?_
  refine (valid_metadata item.metadata).bind fun notes hnotes => ?_
  split
  · exact .error
  · next hfilled =>
    refine .ok ⟨⟨fun h => hfilled (List.isEmpty_iff.2 h), fun s hs => (hsteps s hs).1,
      fun t ht => (hmoment.1 t ht).1, fun g hg => (hmoment.2 g hg).1, hnotes⟩,
      fun t ht => (hmoment.1 t ht).2, fun _ g hg => (hmoment.2 g hg).2, fun s hs => (hsteps s hs).2⟩

/-! ## Sections -/

theorem isSectionStem_stem {record : String} (h : isIdentifier token.text = true) :
    Yields (stem record token) IsSectionStem := by
  unfold stem
  split
  · exact .error
  · next hreads => exact .ok ⟨by simpa [word] using h, by simpa [word] using hreads⟩

theorem valid_immediateCommand {item : Source.CommandItem} (h : item.line.Lexed) :
    Yields (immediateCommand item) ImmediateCommand.Valid :=
  (valid_arguments h.arguments).bind fun _ hgiven => (valid_metadata item.metadata).bind
    fun _ hnotes => (isSectionStem_stem h.stem).bind fun _ hstem =>
      .ok ⟨hstem, hgiven, hnotes⟩

theorem valid_hardwareCommand {item : Source.CommandItem} (h : item.line.Lexed) :
    Yields (hardwareCommand item) HardwareCommand.Valid :=
  (valid_metadata item.metadata).bind fun _ hnotes =>
    (isSectionStem_stem h.stem).bind fun _ hstem => .ok ⟨hstem, hnotes⟩

/-! ## Declarations -/

/-- A typing names no enumeration like a type, unless it has a type. -/
theorem unambiguous_typing {name : String} {words : List Token}
    (h : ∀ token ∈ words, isIdentifier token.text = true) :
    Yields (typing name words) fun found =>
      (∀ e, found.2 = some e → isIdentifier e.toList = true) ∧
      (found.1 = none → ∀ e, found.2 = some e → VariableType.ofKeyword? e = none) := by
  unfold typing
  split
  · exact .ok ⟨fun _ h => (by cases h), fun _ _ h => by cases h⟩
  · next only =>
    split
    · exact .ok ⟨fun _ h => (by cases h), fun h => by cases h⟩
    · next hword =>
      refine .ok ⟨fun e he => ?_, fun _ e he => ?_⟩
      · cases he
        simpa [word] using h only (by simp)
      · cases he
        exact hword
  · next type enumeration rest =>
    split
    · refine .ok ⟨fun e he => ?_, fun h => by cases h⟩
      cases he
      simpa [word] using h enumeration (by simp)
    · exact .error

theorem valid_range {position : Source.Position} {part : List Char} :
    Yields (range position part) Range.Valid := by
  unfold range
  refine fits_number?.bind fun low hlow => fits_number?.bind fun high hhigh => ?_
  split
  · exact .ok ⟨hlow _ rfl, hhigh _ rfl⟩
  · exact .error

theorem valid_allowableValue {part : List Char} :
    Yields (allowableValue part) AllowableValue.Valid := by
  refine fits_number?.bind fun n hn => ?_
  cases n with
  | some n => exact .ok (hn n rfl)
  | none => exact .ok trivial

theorem valid_declaration {item : Source.DeclarationItem} (h : item.Lexed) :
    Yields (declaration item) fun d => d.Valid ∧ d.Unambiguous := by
  unfold declaration
  refine .bind_any fun lists => ?_
  have hwords : ∀ token ∈ item.details.filter (·.kind != .string),
      isIdentifier token.text = true := by
    intro token hmem
    obtain ⟨htoken, hkind⟩ := List.mem_filter.1 hmem
    exact h.words token htoken (by simpa using hkind)
  refine (unambiguous_typing hwords).bind fun typed htyped => ?_
  have hranges : Yields (ranges item.name.position lists) fun rs => ∀ r ∈ rs, r.Valid := by
    unfold ranges
    split
    · exact .ok (List.forall_mem_nil _)
    · split
      · exact .ok (List.forall_mem_nil _)
      · exact yields_mapM fun part _ => valid_range
  have hvalues : Yields (allowableValues lists) fun vs => ∀ v ∈ vs, v.Valid := by
    unfold allowableValues
    split
    · exact yields_mapM fun part _ => valid_allowableValue
    · exact .ok (List.forall_mem_nil _)
  refine hranges.bind fun rs hrs => hvalues.bind fun vs hvs => .ok ⟨⟨?_, htyped.1, hrs, hvs⟩,
    htyped.2⟩
  simpa [word] using h.name

/-! ## Items -/

/-- What a part of a document guarantees. -/
def Part.Readable (validate : Bool) : Part → Prop
  | .metadata _ value => value.Sound (Number.Fits false)
  | .declarations _ list => ∀ d ∈ list, d.Valid ∧ d.Unambiguous
  | .step s => s.Valid ∧ s.time.Tagged (TagReadable validate)
  | .request r => r.Valid ∧ r.Tagged (TagReadable validate)
  | .immediate commands => ∀ c ∈ commands, c.Valid
  | .hardware commands => ∀ c ∈ commands, c.Valid
  | _ => True

theorem readable_part {item : Source.Item} (h : item.Lexed) :
    Yields (part validate item) (Part.Readable validate) := by
  intro p hp
  cases meansOf_of_part item p hp with
  | comment => trivial
  | id => trivial
  | loadAndGo => exact .boolean true
  | metadata hentry => exact sound_entry _ _ hentry
  | declarations hlist => exact yields_mapM (fun d hd => valid_declaration (h d hd)) _ hlist
  | step hs => exact valid_step h _ hs
  | request hr => exact valid_request h.1 h.2 _ hr
  | immediate hcommands =>
    exact yields_mapM (fun c hc => valid_immediateCommand (h c hc)) _ hcommands
  | hardware hcommands =>
    exact yields_mapM (fun c hc => valid_hardwareCommand (h c hc)) _ hcommands

end OfOutline

/-! ## Documents -/

/-- A document that can be written and read back: it is valid, its tags are readable, and its
declarations are unambiguous. -/
structure Document.Readable (validate : Bool) (d : Document) : Prop where
  valid : d.Valid
  tagged : d.Tagged (TagReadable validate)
  parameters : ∀ p ∈ d.parameters, p.Unambiguous
  locals : ∀ p ∈ d.locals, p.Unambiguous

namespace OfOutline

variable {validate : Bool} {parts : List Part}

theorem of_mem_flatMap {α : Type} {f : Part → List α} {P : α → Prop}
    (h : ∀ p ∈ parts, p.Readable validate)
    (hf : ∀ p : Part, p.Readable validate → ∀ a ∈ f p, P a) :
    ∀ a ∈ parts.flatMap f, P a := by
  intro a ha
  obtain ⟨p, hp, ha⟩ := List.mem_flatMap.1 ha
  exact hf p (h p hp) a ha

theorem of_mem_filterMap {α : Type} {f : Part → Option α} {P : α → Prop}
    (h : ∀ p ∈ parts, p.Readable validate)
    (hf : ∀ p : Part, p.Readable validate → ∀ a, f p = some a → P a) :
    ∀ a ∈ parts.filterMap f, P a := by
  intro a ha
  obtain ⟨p, hp, ha⟩ := List.mem_filterMap.1 ha
  exact hf p (h p hp) a ha

theorem of_declarationsOf {p : Part} (h : p.Readable validate) (block : Source.Block) :
    ∀ d ∈ p.declarationsOf block, d.Valid ∧ d.Unambiguous := by
  cases p with
  | declarations b list =>
    change ∀ d ∈ if b = block then list else [], _
    split
    · exact h
    · exact List.forall_mem_nil _
  | _ => exact List.forall_mem_nil _

/-- A document gathered from parts that guarantee it can be written and read back. -/
theorem readable_gather (h : ∀ p ∈ parts, p.Readable validate) :
    Yields (gather parts) (Document.Readable validate) := by
  have hdeclarations (block : Source.Block) :=
    of_mem_flatMap h fun p hp => of_declarationsOf hp block
  have hsteps := of_mem_filterMap (f := Part.step?)
    (P := fun s => s.Valid ∧ s.time.Tagged (TagReadable validate)) h fun p hp s hs => by
      cases p <;> cases hs
      exact hp
  have hrequests := of_mem_filterMap (f := Part.request?)
    (P := fun r => r.Valid ∧ r.Tagged (TagReadable validate)) h fun p hp r hr => by
      cases p <;> cases hr
      exact hp
  have himmediate := of_mem_flatMap (f := Part.immediateCommands)
    (P := ImmediateCommand.Valid) h fun p hp => by
      cases p
      case immediate => exact hp
      all_goals exact List.forall_mem_nil _
  have hhardware := of_mem_flatMap (f := Part.hardwareCommands)
    (P := HardwareCommand.Valid) h fun p hp => by
      cases p
      case hardware => exact hp
      all_goals exact List.forall_mem_nil _
  have hmetadata := of_mem_filterMap (f := Part.metadata?)
    (P := fun e => e.2.Sound (Number.Fits false)) h fun p hp e he => by
      cases p <;> cases he
      exact hp
  unfold gather
  split
  · exact .error
  · refine .ok ⟨⟨valid_ofList hmetadata, ?_, ?_, ?_, himmediate, hhardware, ?_⟩, ⟨?_, ?_⟩, ?_, ?_⟩
    · exact fun d hd => (hdeclarations .parameters d hd).1
    · exact fun d hd => (hdeclarations .locals d hd).1
    · exact fun s hs => (hsteps s hs).1
    · exact fun r hr => (hrequests r hr).1
    · exact fun s hs => (hsteps s hs).2
    · exact fun r hr => (hrequests r hr).2
    · exact fun d hd => (hdeclarations .parameters d hd).2
    · exact fun d hd => (hdeclarations .locals d hd).2

end OfOutline

namespace Document

theorem ofText_eq_ok {validate : Bool} {text : List Char} {d : Document} :
    ofText validate text = .ok d ↔ ∃ outline, Source.Outline.read text = .ok outline ∧
      ofOutline validate outline = .ok d := by
  unfold ofText
  cases Source.Outline.read text with
  | error e => simp
  | ok outline =>
    cases hdocument : ofOutline validate outline with
    | error f => simp [hdocument]
    | ok d => simp [hdocument]

/-- Every document that is read from a text can be written and read back. -/
theorem readable_of_ofText {validate : Bool} {text : List Char} {d : Document}
    (h : ofText validate text = .ok d) : d.Readable validate := by
  obtain ⟨outline, hread, hdocument⟩ := ofText_eq_ok.1 h
  obtain ⟨parts, hparts, hgather⟩ := bind_eq_ok.1 hdocument
  refine OfOutline.readable_gather (forall_mem_of_mapM hparts fun item hitem part hpart => ?_) d
    hgather
  exact OfOutline.readable_part (Source.Outline.lexed_of_read hread item hitem) part hpart

end Document

end CommandSequence
