import CommandSequence.Document.ToText
import CommandSequence.Proofs.Document.Dumped
import CommandSequence.Proofs.Document.Tags
import CommandSequence.Proofs.Document.TextRoundTrip
import CommandSequence.Proofs.Json.Kept

/-!
# Documents whose texts a file keeps

A file keeps the JSON text of a document exactly if UTF-8 has bytes for every string that is dumped
(`Document.kept_toJsonText`). If UTF-8 has bytes for all strings of a document, a file takes its
sequence text too (`Document.kept_write`): strings are quoted, descriptions and allowable values are
refused if they have a line end, and all else is made of words, numbers and tags. It gives the
sequence text back if no tag has a carriage return.
-/

namespace CommandSequence

open Lines (Keeps Kept kept_nil kept_cons kept_append kept_flatten kept_intercalate kept_string)
open Json (Value)

variable {back : Bool} {text : List Char} {indent : Json.Indent}

/-! ## Words and tags -/

/-- A test that fails on a carriage return keeps it out. -/
theorem not_mem_of_all {p : Char → Bool} (hp : p '\r' = false) (h : ∀ c ∈ text, p c = true) :
    ('\r' : Char) ∉ text := fun hmem => by
  rw [h _ hmem] at hp
  cases hp

theorem not_mem_identifier (h : isIdentifier text = true) : ('\r' : Char) ∉ text := by
  cases text with
  | nil => cases h
  | cons c rest =>
    simp only [isIdentifier, Bool.and_eq_true, List.all_eq_true] at h
    have hc : ('\r' : Char) ≠ c := by
      rintro rfl
      exact absurd h.1 (by decide)
    simpa [hc] using not_mem_of_all (by decide) h.2

theorem not_mem_hexLiteral (h : isHexLiteral text = true) : ('\r' : Char) ∉ text := by
  unfold isHexLiteral at h
  split at h
  · next x digits =>
    simp only [Bool.and_eq_true, Bool.or_eq_true, beq_iff_eq, List.all_eq_true] at h
    have hdigits : ('\r' : Char) ∉ digits := not_mem_of_all (by decide) h.2
    rcases h.1.1 with rfl | rfl <;> simp [hdigits]
  · cases h

/-- No tag of the terminal's form has a carriage return. -/
theorem not_mem_tagBody {kind : Source.Terminal} (h : kind.isTagBody text = true) :
    ('\r' : Char) ∉ text := by
  have hinner : kind.tagInner '\r' = false := by cases kind <;> rfl
  have hsign : kind.tagSign '\r' = false := by cases kind <;> rfl
  cases text with
  | nil => exact List.not_mem_nil
  | cons c more =>
    simp only [Source.Terminal.isTagBody] at h
    split at h
    · next hsigned =>
      have hc : ('\r' : Char) ≠ c := by
        rintro rfl
        rw [hsign] at hsigned
        cases hsigned
      simpa [hc] using not_mem_of_all hinner (List.all_eq_true.1 h)
    · exact not_mem_of_all hinner (List.all_eq_true.1 (Bool.and_eq_true .. ▸ h).2)

theorem kept_identifier {s : String} (hs : s.isEncodable = true)
    (h : isIdentifier s.toList = true) : Kept back s.toList :=
  kept_string hs fun _ => not_mem_identifier h

/-- A tag does not stand in the way of giving a text back. -/
def TagKept (back : Bool) (_ : Source.Terminal) (tag : List Char) : Prop :=
  back = true → ('\r' : Char) ∉ tag

/-- An optional string, empty if it is absent. -/
theorem kept_getD {o : Option String} (hs : ∀ s, o = some s → s.isEncodable = true)
    (h : back = true → ('\r' : Char) ∉ (o.getD "").toList) : Kept back (o.getD "").toList := by
  cases o with
  | none => exact kept_nil
  | some s => exact kept_string (hs s rfl) h

/-! ## Parts of steps -/

theorem kept_ending {description : Option String}
    (hs : ∀ s, description = some s → s.isEncodable = true)
    (h : ToText.ending description = .ok text) : Kept back text := by
  unfold ToText.ending at h
  split at h
  · cases h
    exact .of_back (by decide)
  · next s =>
    split at h
    · cases h
      exact .of_back (by decide)
    · split at h
      · cases h
      · next hbreaks =>
        cases h
        simp only [Bool.or_eq_true, List.contains_iff_mem, not_or] at hbreaks
        have hs : Kept back s.toList := kept_string (hs s rfl) fun _ => hbreaks.2
        simp [hs]

theorem kept_metadata {m : Metadata} (hvalid : ∀ entry ∈ m, entry.2.Sound (Number.Fits false))
    (hs : ∀ entry ∈ m, entry.1.isEncodable = true ∧ entry.2.isEncodable = true)
    (h : m.write indent = .ok text) : Kept back text := by
  obtain ⟨lines, hlines, heq⟩ := bind_eq_ok.1 h
  cases heq
  refine kept_flatten (forall_mem_of_mapM hlines fun entry hentry line hline => ?_)
  have hvalue : Kept back (entry.2.write indent) :=
    (kept_writeAt (hvalid entry hentry) 0).2 (hs entry hentry).2
  rw [(ReadBack.writeEntry_eq_ok hline (hvalid entry hentry)).1]
  have hfixed : Kept back (ToText.fixed "@METADATA ") := .of_back (by decide)
  simp [hfixed, ToText.quoted, kept_encode, (hs entry hentry).1, hvalue]

theorem kept_model {m : Model} (hs : m.toJson.isEncodable = true) (h : m.write = .ok text) :
    Kept back text := by
  simp only [Model.toJson, Value.isEncodable, Value.membersEncodable_append,
    Value.membersEncodable_field, Bool.and_eq_true] at hs
  obtain ⟨⟨hvariable, hencodable⟩, hoffset⟩ := hs
  obtain ⟨value, hvalue, heq⟩ := bind_eq_ok.1 h
  cases heq
  have hkept : Kept back value := by
    generalize m.value = written at hvalue hencodable
    cases written with
    | boolean b => cases hvalue; cases b <;> exact .of_back (by decide)
    | string s => cases hvalue; exact kept_encode.2 hencodable
    | number n => exact kept_literal hvalue
  have hfixed : Kept back (ToText.fixed "@MODEL ") := .of_back (by decide)
  simp [hfixed, ToText.quoted, kept_encode, hvariable, hoffset, hkept]

theorem kept_baseArgument {a : BaseArgument} (hvalid : a.Valid) (hs : a.toJson.isEncodable = true)
    (h : a.write = .ok text) : Kept back text := by
  simp only [BaseArgument.toJson, Value.isEncodable, Value.membersEncodable_append,
    Value.membersEncodable_field, Bool.and_eq_true] at hs
  have hs : a.value.isEncodable = true := hs.1.2
  cases a with
  | string s name => cases h; exact kept_encode.2 hs
  | number n name => exact kept_literal h
  | boolean b name => cases h; cases b <;> exact .of_back (by decide)
  | symbol s name => cases h; exact kept_identifier hs hvalid.1
  | hex s name => cases h; exact kept_string hs fun _ => not_mem_hexLiteral hvalid

theorem kept_argument {a : Argument} (hvalid : a.Valid) (hs : a.toJson.isEncodable = true)
    (h : a.write = .ok text) : Kept back text := by
  cases a with
  | base a => exact kept_baseArgument hvalid hs h
  | repetition sets name =>
    simp only [Argument.toJson, Value.isEncodable, Value.membersEncodable_append,
      Value.membersEncodable_field, Bool.and_eq_true] at hs
    have hs := Value.isEncodable_map.1 hs.1.2
    obtain ⟨pieces, hpieces, heq⟩ := bind_eq_ok.1 h
    cases heq
    have hkept : Kept back (ToText.joined [' '] pieces) := by
      refine kept_intercalate (by simp) (forall_mem_of_mapM hpieces fun a ha piece hpiece => ?_)
      obtain ⟨set, hset, ha⟩ := List.mem_flatten.1 ha
      exact kept_baseArgument (hvalid set hset a ha) (Value.isEncodable_map.1 (hs set hset) a ha)
        hpiece
    simp [hkept]

theorem kept_arguments {arguments : List Argument} (hvalid : ∀ a ∈ arguments, a.Valid)
    (hs : ∀ a ∈ arguments, a.toJson.isEncodable = true)
    (h : Argument.writeAll arguments = .ok text) : Kept back text := by
  obtain ⟨pieces, hpieces, heq⟩ := bind_eq_ok.1 h
  cases heq
  have hkept : ∀ piece ∈ pieces, Kept back piece :=
    forall_mem_of_mapM hpieces fun a ha piece => kept_argument (hvalid a ha) (hs a ha)
  refine kept_flatten fun t ht => ?_
  obtain ⟨piece, hpiece, rfl⟩ := List.mem_map.1 ht
  exact kept_cons.2 ⟨by simp, hkept piece hpiece⟩

theorem kept_time {t : Time} (hs : t.toJson.isEncodable = true) (htag : t.Tagged (TagKept back)) :
    Kept back t.write := by
  simp only [Time.toJson, Value.isEncodable, Value.membersEncodable_append,
    Value.membersEncodable_field, Bool.and_eq_true, Value.membersEncodable_optional] at hs
  have hbody : Kept back t.body := kept_getD hs.2 htag
  obtain ⟨letter, hletter, hwrite⟩ := t.write_eq
  have hkeeps : Keeps true letter := by cases t <;> (cases hletter; decide)
  rw [hwrite]
  exact kept_cons.2 ⟨.of_ne hkeeps.1 (hkeeps.2 rfl), hbody⟩

/-- The fields of an action have no halves: what is written of it has none either. -/
theorem kept_action {a : Action} {arguments : List Argument} (hvalid : a.Valid)
    (hs : Value.membersEncodable (a.toJson arguments) = true) :
    Kept back a.write ∧ (∀ text, a.writeDirectives = .ok text → Kept back text) ∧
      ∀ argument ∈ arguments, argument.toJson.isEncodable = true := by
  cases a with
  | command stem =>
    simp only [Action.toJson, Value.membersEncodable_append, Value.membersEncodable_field,
      Bool.and_eq_true, Value.isEncodable_map] at hs
    exact ⟨kept_identifier hs.1.2 hvalid, fun text h => by cases h; exact kept_nil, hs.2⟩
  | ground kind name =>
    simp only [Action.toJson, Value.membersEncodable_append, Value.membersEncodable_field,
      Bool.and_eq_true, Value.membersEncodable_group] at hs
    have hname : name.isEncodable = true := hs.1.2
    have hfixed : Kept back (ToText.fixed kind.keyword) := by
      cases kind <;> exact .of_back (by decide)
    refine ⟨?_, fun text h => by cases h; exact kept_nil, hs.2⟩
    simp [Action.write, hfixed, ToText.quoted, kept_encode, hname]
  | call kind sequence engine epoch =>
    simp only [Action.toJson, Value.membersEncodable_append, Value.membersEncodable_field,
      Bool.and_eq_true, Value.membersEncodable_group, Value.membersEncodable_optional] at hs
    obtain ⟨⟨⟨⟨-, hsequence⟩, harguments⟩, -⟩, hepoch⟩ := hs
    have hsequence : sequence.isEncodable = true := hsequence
    have hfixed : Kept back (ToText.fixed kind.keyword) := by
      cases kind <;> exact .of_back (by decide)
    have hengine : Kept back (ToText.fixed "@ENGINE ") := .of_back (by decide)
    have hdirective : Kept back (ToText.fixed "@EPOCH ") := .of_back (by decide)
    refine ⟨by simp [Action.write, hfixed, ToText.quoted, kept_encode, hsequence],
      fun text h => ?_, harguments⟩
    have hname : ∀ name, epoch = some name → name.isEncodable = true := hepoch
    unfold Action.writeDirectives at h
    cases engine with
    | none =>
      cases h
      cases epoch <;> simp_all [ToText.quoted, kept_encode]
    | some n =>
      obtain ⟨line, hline, heq⟩ := bind_eq_ok.1 h
      obtain ⟨literal, hliteral, rfl⟩ := map_eq_ok.1 hline
      cases heq
      have hliteral : Kept back literal := kept_literal hliteral
      cases epoch <;> simp_all [ToText.quoted, kept_encode]

/-! ## Steps, requests and commands -/

theorem kept_step {s : Step} (hvalid : s.Valid) (hs : s.toJson.isEncodable = true)
    (htag : s.time.Tagged (TagKept back)) (h : s.write indent = .ok text) : Kept back text := by
  simp only [Step.toJson, Value.isEncodable, Value.membersEncodable_append,
    Value.membersEncodable_field, Bool.and_eq_true, Value.membersEncodable_optional,
    Value.membersEncodable_group] at hs
  obtain ⟨⟨⟨⟨htime, hdescription⟩, hmetadataField⟩, hmodelStrings⟩, haction⟩ := hs
  obtain ⟨directives, hdirectives, h⟩ := bind_eq_ok.1 h
  obtain ⟨arguments, harguments, h⟩ := bind_eq_ok.1 h
  obtain ⟨ending, hending, h⟩ := bind_eq_ok.1 h
  obtain ⟨metadata, hmetadata, h⟩ := bind_eq_ok.1 h
  obtain ⟨models, hmodels, heq⟩ := bind_eq_ok.1 h
  cases heq
  obtain ⟨hwritten, hlines, hstrings⟩ := @kept_action back _ _ hvalid.action haction
  have hmodels : Kept back models.flatten := kept_flatten
    (forall_mem_of_mapM hmodels fun m hm _ => kept_model (hmodelStrings m hm))
  have hmetadata : Kept back metadata := kept_metadata hvalid.metadata.sound
    (Value.entries_encodable hvalid.metadata hmetadataField) hmetadata
  simp [kept_time htime htag, hwritten, kept_arguments hvalid.arguments hstrings harguments,
    kept_ending hdescription hending, hlines _ hdirectives, hmetadata, hmodels]

theorem kept_timing {r : Request}
    (htime : ∀ t, r.time = some t → t.toJson.isEncodable = true)
    (hepoch : ∀ g, r.groundEpoch = some g → g.toJson.isEncodable = true)
    (htags : r.Tagged (TagKept back)) (h : r.writeTiming = .ok text) : Kept back text := by
  unfold Request.writeTiming at h
  split at h
  · next time _ heq =>
    cases h
    exact kept_time (htime _ heq) (htags.time _ heq)
  · next epoch hnone hsome =>
    cases h
    have hs := hepoch _ hsome
    simp only [GroundEpoch.toJson, Value.isEncodable, Value.membersEncodable_append,
      Bool.and_eq_true, Value.membersEncodable_optional] at hs
    have hbody : Kept back (epoch.delta.getD "").toList :=
      kept_getD hs.2 (htags.groundEpoch hnone _ hsome)
    have hname : (epoch.name.getD "").isEncodable = true := by
      cases hname : epoch.name with
      | none => rfl
      | some name => exact hs.1 name hname
    simp [hbody, ToText.quoted, kept_encode, hname]
  · cases h

theorem kept_request {r : Request} (hvalid : r.Valid) (hs : r.toJson.isEncodable = true)
    (htags : r.Tagged (TagKept back)) (h : r.write indent = .ok text) : Kept back text := by
  simp only [Request.toJson, Value.isEncodable, Value.membersEncodable_append,
    Value.membersEncodable_field, Bool.and_eq_true, Value.membersEncodable_optional] at hs
  obtain ⟨⟨⟨⟨⟨⟨-, hname⟩, hstepStrings⟩, htime⟩, hepoch⟩, hdescription⟩, hmetadataField⟩ := hs
  have hstepStrings := Value.isEncodable_map.1 (by rw [Value.isEncodable]; exact hstepStrings)
  obtain ⟨timing, htiming, h⟩ := bind_eq_ok.1 h
  obtain ⟨ending, hending, h⟩ := bind_eq_ok.1 h
  obtain ⟨steps, hsteps, h⟩ := bind_eq_ok.1 h
  obtain ⟨metadata, hmetadata, heq⟩ := bind_eq_ok.1 h
  cases heq
  have hsteps : Kept back steps.flatten := kept_flatten (forall_mem_of_mapM hsteps fun s hs _ =>
    kept_step (hvalid.steps s hs) (hstepStrings s hs) (htags.steps s hs))
  have hmetadata : Kept back metadata := kept_metadata hvalid.metadata.sound
    (Value.entries_encodable hvalid.metadata hmetadataField) hmetadata
  have hbegin : Kept back (ToText.fixed " @REQUEST_BEGIN(") := .of_back (by decide)
  have hend : Kept back (ToText.fixed "@REQUEST_END\n") := .of_back (by decide)
  simp [kept_timing htime hepoch htags htiming, hbegin, ToText.quoted, kept_encode, hname,
    kept_ending hdescription hending, hsteps, hend, hmetadata]

theorem kept_immediateCommand {c : ImmediateCommand} (hvalid : c.Valid)
    (hs : c.toJson.isEncodable = true) (h : c.write indent = .ok text) : Kept back text := by
  simp only [ImmediateCommand.toJson, Value.isEncodable, Value.membersEncodable_append,
    Value.membersEncodable_field, Bool.and_eq_true, Value.membersEncodable_optional] at hs
  obtain ⟨⟨⟨hstem, hstrings⟩, hdescription⟩, hmetadataField⟩ := hs
  have hstrings := Value.isEncodable_map.1 (by rw [Value.isEncodable]; exact hstrings)
  obtain ⟨arguments, harguments, h⟩ := bind_eq_ok.1 h
  obtain ⟨ending, hending, h⟩ := bind_eq_ok.1 h
  obtain ⟨metadata, hmetadata, heq⟩ := bind_eq_ok.1 h
  cases heq
  have hmetadata : Kept back metadata := kept_metadata hvalid.metadata.sound
    (Value.entries_encodable hvalid.metadata hmetadataField) hmetadata
  simp [kept_identifier hstem hvalid.stem.1, kept_arguments hvalid.arguments hstrings harguments,
    kept_ending hdescription hending, hmetadata]

theorem kept_hardwareCommand {c : HardwareCommand} (hvalid : c.Valid)
    (hs : c.toJson.isEncodable = true) (h : c.write indent = .ok text) : Kept back text := by
  simp only [HardwareCommand.toJson, Value.isEncodable, Value.membersEncodable_append,
    Value.membersEncodable_field, Bool.and_eq_true, Value.membersEncodable_optional] at hs
  obtain ⟨⟨hstem, hdescription⟩, hmetadataField⟩ := hs
  obtain ⟨ending, hending, h⟩ := bind_eq_ok.1 h
  obtain ⟨metadata, hmetadata, heq⟩ := bind_eq_ok.1 h
  cases heq
  have hmetadata : Kept back metadata := kept_metadata hvalid.metadata.sound
    (Value.entries_encodable hvalid.metadata hmetadataField) hmetadata
  simp [kept_identifier hstem hvalid.stem.1, kept_ending hdescription hending, hmetadata]

/-! ## Declarations -/

theorem kept_range {r : Range} (h : r.write = .ok text) : Kept back text := by
  obtain ⟨min, hmin, h⟩ := bind_eq_ok.1 h
  obtain ⟨max, hmax, heq⟩ := bind_eq_ok.1 h
  cases heq
  have hfixed : Kept back (ToText.fixed "...") := .of_back (by decide)
  simp [kept_literal hmin, hfixed, kept_literal hmax]

theorem kept_allowableValue {v : AllowableValue} (hs : v.toJson.isEncodable = true)
    (h : v.write = .ok text) : Kept back text := by
  cases v with
  | number n => exact kept_literal h
  | text s =>
    simp only [AllowableValue.write] at h
    split at h
    · cases h
    · next hsafe =>
      split at h
      · cases h
      · cases h
      · cases h
        exact kept_string hs fun _ hmem => hsafe (List.any_eq_true.2 ⟨'\r', hmem, by decide⟩)

theorem kept_writeList {pieces : List (List Char)} (h : ∀ piece ∈ pieces, Kept back piece) :
    Kept back (Declaration.writeList pieces) := by
  have hjoined : Kept back (ToText.joined [','] pieces) := kept_intercalate (by simp) h
  simp [Declaration.writeList, hjoined]

theorem kept_declaration {p : Declaration} (hvalid : p.Valid) (hs : p.toJson.isEncodable = true)
    (h : p.write = .ok text) : Kept back text := by
  simp only [Declaration.toJson, Value.isEncodable, Value.membersEncodable_append,
    Value.membersEncodable_field, Bool.and_eq_true, Value.membersEncodable_optional,
    Value.membersEncodable_group] at hs
  obtain ⟨⟨⟨⟨hname, -⟩, henumName⟩, -⟩, hstrings⟩ := hs
  obtain ⟨ranges, hranges, h⟩ := bind_eq_ok.1 h
  obtain ⟨values, hvalues, heq⟩ := bind_eq_ok.1 h
  cases heq
  have hranges : Kept back (Declaration.writeList ranges) := kept_writeList
    (forall_mem_of_mapM hranges fun _ _ _ => kept_range)
  have hvalues : Kept back (Declaration.writeList values) := kept_writeList
    (forall_mem_of_mapM hvalues fun v hv _ => kept_allowableValue (hstrings v hv))
  have hlists : Kept back ((if ranges.isEmpty && values.isEmpty then []
      else Declaration.writeList ranges) ++ if values.isEmpty then []
      else Declaration.writeList values) := by
    rw [kept_append]
    exact ⟨by split <;> simp [hranges], by split <;> simp [hvalues]⟩
  have htype : ∀ type : VariableType, Kept back type.keyword.toList := by
    intro type
    cases type <;> exact .of_back (by decide)
  rw [kept_append] at hlists
  simp only [kept_append]
  refine ⟨⟨⟨⟨⟨kept_identifier hname hvalid.name, ?_⟩, ?_⟩, hlists.1⟩, hlists.2⟩, by simp⟩
  · split
    · simp [htype]
    · exact kept_nil
  · split
    · next name hsome =>
      simp [kept_identifier (henumName name hsome) (hvalid.enumName name hsome)]
    · exact kept_nil

theorem kept_block {block : String} {declarations : List Declaration}
    (hblock : Kept back block.toList) (hvalid : ∀ p ∈ declarations, p.Valid)
    (hs : ∀ p ∈ declarations, p.toJson.isEncodable = true)
    (h : Declaration.writeBlock block declarations = .ok text) : Kept back text := by
  obtain ⟨lines, hlines, h⟩ := bind_eq_ok.1 h
  have hlines : Kept back lines.flatten := kept_flatten (forall_mem_of_mapM hlines fun p hp _ =>
    kept_declaration (hvalid p hp) (hs p hp))
  have hbegin : Kept back (ToText.fixed "_BEGIN\n") := .of_back (by decide)
  have hend : Kept back (ToText.fixed "_END\n") := .of_back (by decide)
  split at h
  · cases h
    exact kept_nil
  · cases h
    have hblock : Kept back (ToText.fixed block) := hblock
    simp [hblock, hlines, hbegin, hend]

/-! ## Documents -/

theorem kept_part {heading : String} {lines : List (List Char)}
    (hheading : Kept back heading.toList)
    (h : ∀ line ∈ lines, Kept back line) : Kept back (Document.writePart heading lines) := by
  unfold Document.writePart
  split
  · exact kept_nil
  · exact kept_append.2 ⟨hheading, kept_flatten h⟩

namespace Document

variable {d : Document}

/-- A file keeps the JSON text of a document exactly if UTF-8 has bytes for all the strings that are
dumped. -/
theorem kept_toJsonText (hvalid : d.Valid) :
    Kept back (d.toJsonText indent) ↔ d.dumped.toJson.isEncodable = true :=
  kept_writeAt hvalid.dumped.sound_toJson 0

/-- A file takes the sequence text of a document if UTF-8 has bytes for all its strings, and gives
it back if no tag has a carriage return. -/
theorem kept_write (hvalid : d.Valid) (hs : d.toJson.isEncodable = true)
    (htags : d.Tagged (TagKept back)) (h : d.write indent = .ok text) : Kept back text := by
  obtain ⟨parameters, locals, metadata, steps, immediate, hardware, requests, hparameters, hlocals,
    hmetadata, hsteps, himmediate, hhardware, hrequests, rfl⟩ := write_eq_ok h
  simp only [toJson, Value.isEncodable, Value.membersEncodable_append,
    Value.membersEncodable_field, Bool.and_eq_true, Value.membersEncodable_group] at hs
  obtain ⟨⟨⟨⟨⟨⟨⟨hid, hentryStrings⟩, hparameterStrings⟩, hlocalStrings⟩, hstepStrings⟩,
    himmediateStrings⟩, hhardwareStrings⟩, hrequestStrings⟩ := hs
  have hentryStrings :=
    Value.isEncodable_object.1
      ((Value.Sound.isEncodable_nullNonFinite hvalid.metadata).1 hentryStrings)
  have hheading : Kept back (ToText.fixed "@ID ") := .of_back (by decide)
  have hflag : Kept back (ToText.fixed "\n@LOAD_AND_GO") := .of_back (by decide)
  have hentries : Metadata.write indent (d.metadata.filter (·.1 != loadAndGoKey)) =
      .ok metadata.flatten := by
    rw [Metadata.write, hmetadata]
    rfl
  have hmetadata : Kept back metadata.flatten := kept_metadata
    (fun entry hentry => hvalid.metadata.sound entry (List.mem_of_mem_filter hentry))
    (fun entry hentry => hentryStrings entry (List.mem_of_mem_filter hentry)) hentries
  have hsteps : Kept back (writePart "\n" steps) :=
    kept_part (.of_back (by decide)) (forall_mem_of_mapM hsteps fun s hs _ =>
      kept_step (hvalid.steps s hs) (hstepStrings s hs) (htags.steps s hs))
  have himmediate : Kept back (writePart "\n@IMMEDIATE\n" immediate) :=
    kept_part (.of_back (by decide)) (forall_mem_of_mapM himmediate fun c hc _ =>
      kept_immediateCommand (hvalid.immediateCommands c hc) (himmediateStrings c hc))
  have hhardware : Kept back (writePart "\n@HARDWARE\n" hardware) :=
    kept_part (.of_back (by decide)) (forall_mem_of_mapM hhardware fun c hc _ =>
      kept_hardwareCommand (hvalid.hardwareCommands c hc) (hhardwareStrings c hc))
  have hrequests : ∀ request ∈ requests, Kept back request :=
    forall_mem_of_mapM hrequests fun r hr _ =>
      kept_request (hvalid.requests r hr) (hrequestStrings r hr) (htags.requests r hr)
  have hlast : Kept back (requests.map (('\n' : Char) :: ·)).flatten := by
    refine kept_flatten fun t ht => ?_
    obtain ⟨request, hrequest, rfl⟩ := List.mem_map.1 ht
    exact kept_cons.2 ⟨by simp, hrequests request hrequest⟩
  have hgo : Kept back (if d.loadAndGo then ToText.fixed "\n@LOAD_AND_GO" else []) := by
    split
    · exact hflag
    · exact kept_nil
  have hparameters : Kept back parameters :=
    kept_block (.of_back (by decide)) hvalid.parameters hparameterStrings hparameters
  have hlocals : Kept back locals :=
    kept_block (.of_back (by decide)) hvalid.locals hlocalStrings hlocals
  simp [hheading, ToText.quoted, kept_encode, hid, hparameters, hlocals, hmetadata, hgo, hsteps,
    himmediate, hhardware, hlast]

/-- No tag that can be read stands in the way of giving a text back. -/
theorem Tagged.kept {validate : Bool} (h : d.Tagged (TagReadable validate)) :
    d.Tagged (TagKept back) where
  steps s hs := fun _ => not_mem_tagBody (h.steps s hs).1
  requests r hr := {
    time := fun t ht _ => not_mem_tagBody ((h.requests r hr).time t ht).1
    groundEpoch := fun hnone g hg _ => not_mem_tagBody ((h.requests r hr).groundEpoch hnone g hg).1
    steps := fun s hs _ => not_mem_tagBody ((h.requests r hr).steps s hs).1 }

/-- Whatever its tags are, a file takes a text. -/
theorem tagged_takes (d : Document) : d.Tagged (TagKept false) where
  steps _ _ := nofun
  requests _ _ :=
    { time := fun _ _ => nofun, groundEpoch := fun _ _ _ => nofun, steps := fun _ _ => nofun }

end Document

end CommandSequence
