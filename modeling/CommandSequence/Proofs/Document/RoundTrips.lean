import CommandSequence.Proofs.Document.JsonRoundTrip
import CommandSequence.Proofs.Document.OfOutline
import CommandSequence.Proofs.Document.TextRoundTrip
import CommandSequence.Settings

/-!
# Round trips of documents

Documents go through sequence text and through JSON and come back. Through text, what JSON accepts
comes back up to what text cannot carry, and what text accepts comes back to the letter, so that
reformatting a text twice is reformatting it once. Through JSON, what JSON accepts comes back with
null for the numbers that are not finite; what text accepts does so as far as the limits of the JSON
reader go, which text does not have.
-/

namespace CommandSequence

/-- The times in the text of a request: its own, or else the offset from its ground epoch, and those
of its steps. -/
def Request.times (r : Request) : Option Time × Option String × List Time :=
  (r.time, if r.time.isSome then none else r.groundEpoch.bind (·.delta), r.steps.map Step.time)

theorem Step.times_canon (steps : List Step) :
    (steps.map canon).map time = steps.map time := by
  rw [List.map_map]
  rfl

theorem Request.times_canon (r : Request) : r.canon.times = r.times := by
  have hsteps := Step.times_canon r.steps
  cases htime : r.time with
  | none => simp [times, canon, htime, hsteps]
  | some t => simp [times, canon, htime, hsteps]

open ToJson (forall_mem_field forall_mem_optional forall_mem_group forall_mem_metadata)

namespace Document

variable {d d' : Document} {json text written : List Char}

/-! ## An example -/

/-- A document of one command at an absolute time. -/
def ofTag (tag : String) : Document :=
  ⟨"demo", [], [], [], [⟨.absolute (some tag), .command "NOOP", [], none, [], []⟩], [], [], []⟩

theorem valid_ofTag {tag : String} (h : tag ≠ "") : (ofTag tag).Valid := by
  have hmetadata : Metadata.Valid [] := .object Dictionary.distinct_nil (List.forall_mem_nil _)
  have hstep : Step.Valid ⟨.absolute (some tag), .command "NOOP", [], none, [], []⟩ :=
    ⟨fun heq => h (Option.some.inj heq), (by decide : isIdentifier (String.toList "NOOP") = true),
      List.forall_mem_nil _, hmetadata, List.forall_mem_nil _⟩
  exact ⟨hmetadata, List.forall_mem_nil _, List.forall_mem_nil _,
    List.forall_mem_singleton.2 hstep, List.forall_mem_nil _, List.forall_mem_nil _,
    List.forall_mem_nil _⟩

theorem fits_ofTag {tag : String} (h : tag.isEncodable = true) :
    (ofTag tag).toJson.Fits .document := by
  have htime : (Time.absolute (some tag)).toJson.Fits (.within 197) := by
    refine .record (Time.keys _) (by decide) (by decide) ?_
    simp only [List.forall_mem_append, forall_mem_field, forall_mem_optional]
    exact ⟨Json.Value.fits_string rfl, fun _ ht => Json.Value.fits_string (Option.some.inj ht ▸ h)⟩
  have hempty : (Json.Value.array []).Fits (.within 197) :=
    ⟨.array (List.forall_mem_nil _), Nat.zero_le _, .inr rfl⟩
  have hmetadata : (Json.Value.object []).Fits (.within 199) :=
    ⟨.object Dictionary.distinct_nil (List.forall_mem_nil _), Nat.zero_le _, .inr rfl⟩
  have hstep : (Step.mk (.absolute (some tag)) (.command "NOOP") [] none [] []).toJson.Fits
      (.within 198) := by
    refine .record (Step.keys _) ⟨Step.names_nodup _, Step.names_encodable _⟩ (by decide) ?_
    simp only [List.forall_mem_append, forall_mem_field, forall_mem_optional, forall_mem_metadata,
      forall_mem_group, Action.toJson]
    have hundescribed (text : String) (h : none = some text) :
        (Json.Value.string text).Fits (.within 197) := absurd h.symm (Option.some_ne_none text)
    exact ⟨⟨⟨⟨htime, hundescribed⟩, fun hne => absurd rfl hne⟩, fun hne => absurd rfl hne⟩,
      ⟨Json.Value.fits_string rfl, Json.Value.fits_string rfl⟩, hempty⟩
  have hsteps : (Json.Value.array ((ofTag tag).steps.map Step.toJson)).Fits (.within 199) :=
    .array (by decide) (List.forall_mem_singleton.2 hstep)
  change (ofTag tag).toJson.Fits (.within 200)
  refine .record (ofTag tag).keys (by decide) (by decide) ?_
  simp only [List.forall_mem_append, forall_mem_field, forall_mem_group]
  exact ⟨⟨⟨⟨⟨⟨⟨Json.Value.fits_string rfl, hmetadata⟩, fun hne => absurd rfl hne⟩,
    fun hne => absurd rfl hne⟩, fun _ => hsteps⟩, fun hne => absurd rfl hne⟩,
    fun hne => absurd rfl hne⟩, fun hne => absurd rfl hne⟩

/-- The example is read from its JSON text. -/
theorem ofJsonText_ofTag {tag : String} (h : tag ≠ "") (hencodable : tag.isEncodable = true) :
    ofJsonText ((ofTag tag).toJsonText none) = .ok (ofTag tag) :=
  ofJsonText_toJsonText_of_fits (valid_ofTag h) (fits_ofTag hencodable)

theorem tagged_ofTag {validate : Bool} {tag : String}
    (hbody : Source.Terminal.absoluteTime.isTagBody tag.toList = true)
    (haccepts : validate = true → TagGrammar.absolute.accepts tag.toList = true) :
    (ofTag tag).Tagged (TagReadable validate) := by
  have htag : TagReadable validate .absoluteTime tag.toList := by
    refine ⟨hbody, fun hvalidate _ letter hletter => ?_⟩
    cases hletter
    simpa [OfOutline.grammars] using haccepts hvalidate
  exact ⟨List.forall_mem_singleton.2 htag, List.forall_mem_nil _⟩

/-! ## Through sequence text -/

/-- What is accepted as JSON comes back from its text as far as text can carry it: for any settings,
if its tags have the forms of their terminals and, where they are validated, satisfy a grammar, and
no enumeration without a type is named like one. -/
theorem ofText_write_of_ofJsonText {s : Settings} (haccepted : ofJsonText json = .ok d)
    (htags : d.Tagged (TagReadable s.validateTimeTags))
    (hnames : ∀ p ∈ d.parameters ++ d.locals, p.Unambiguous)
    (hwrite : d.write s.indent = .ok text) :
    ∃ d', ofText s.validateTimeTags text = .ok d' ∧ d'.Alike d.canon := by
  have hvalid := (keeps_of_ofJsonText haccepted).1
  exact ⟨d.reread, ofText_write hvalid htags hwrite,
    alike_reread (ReadBack.distinct_of_valid hvalid.metadata) hnames⟩

/-- A dated command is accepted and comes back. -/
theorem ofText_write_dated :
    let s : Settings := {}
    let d := ofTag "2024-001T00:00:00"
    let text := String.toList "@ID \"demo\"\n\nA2024-001T00:00:00 NOOP\n"
    ofJsonText (d.toJsonText none) = .ok d ∧ d.Tagged (TagReadable s.validateTimeTags) ∧
      (∀ p ∈ d.parameters ++ d.locals, p.Unambiguous) ∧ d.write s.indent = .ok text ∧
      ∃ d', ofText s.validateTimeTags text = .ok d' ∧ d'.Alike d.canon := by
  have haccepted := @ofJsonText_ofTag "2024-001T00:00:00" (by decide) rfl
  have htags : (ofTag "2024-001T00:00:00").Tagged (TagReadable true) := tagged_ofTag (by decide)
    fun _ => by decide
  have hnames : ∀ p ∈ (ofTag "2024-001T00:00:00").parameters ++ (ofTag "2024-001T00:00:00").locals,
      p.Unambiguous := List.forall_mem_nil _
  exact ⟨haccepted, htags, hnames, rfl,
    ofText_write_of_ofJsonText (s := {}) haccepted htags hnames rfl⟩

/-- Reformatting a text that was reformatted changes nothing. -/
theorem reformat_reformat {s : Settings} (hread : ofText s.validateTimeTags text = .ok d)
    (hwrite : d.write s.indent = .ok written) :
    ∃ d', ofText s.validateTimeTags written = .ok d' ∧ d'.write s.indent = .ok written ∧
      d'.loadAndGo = d.loadAndGo := by
  have hreadable := readable_of_ofText hread
  refine ⟨d.reread, ofText_write hreadable.valid hreadable.tagged hwrite, ?_, loadAndGo_reread d⟩
  rw [write_reread, hwrite]

/-- A text that is in the one layout already is reformatted to itself. -/
theorem reformat_reformat_dated :
    let s : Settings := {}
    let text := String.toList "@ID \"demo\"\n\nA2024-001T00:00:00 NOOP\n"
    ∃ d, ofText s.validateTimeTags text = .ok d ∧ d.write s.indent = .ok text ∧
      ∃ d', ofText s.validateTimeTags text = .ok d' ∧ d'.write s.indent = .ok text ∧
        d'.loadAndGo = d.loadAndGo := by
  have htags : (ofTag "2024-001T00:00:00").Tagged (TagReadable true) := tagged_ofTag (by decide)
    fun _ => by decide
  have hwrite : (ofTag "2024-001T00:00:00").write (some 2) = .ok _ := rfl
  have hread := ofText_write (valid_ofTag (by decide)) htags hwrite
  exact ⟨_, hread, rfl, reformat_reformat (s := {}) hread rfl⟩

/-- If the tags have the forms of their terminals, then what is accepted as JSON and can be written
comes back, whatever its tags say, with the same id, counts, times and offsets from ground
epochs. -/
theorem times_of_write {indent : Json.Indent} (haccepted : ofJsonText json = .ok d)
    (htags : d.Tagged (TagReadable false)) (hwrite : d.write indent = .ok text) :
    ∃ d', ofText false text = .ok d' ∧ d'.id = d.id ∧
      d'.immediateCommands.length = d.immediateCommands.length ∧
      d'.hardwareCommands.length = d.hardwareCommands.length ∧
      d'.steps.map Step.time = d.steps.map Step.time ∧
      d'.requests.map Request.times = d.requests.map Request.times := by
  refine ⟨d.reread, ofText_write (keeps_of_ofJsonText haccepted).1 htags hwrite, rfl,
    List.length_map _, List.length_map _, ?_, ?_⟩
  · exact Step.times_canon d.steps
  · change (d.requests.map Request.canon).map Request.times = _
    rw [List.map_map]
    exact List.map_congr_left fun r _ => r.times_canon

/-- A day that no year has keeps its place. -/
theorem times_of_write_undated :
    let d := ofTag "2024-999T99"
    let text := String.toList "@ID \"demo\"\n\nA2024-999T99 NOOP\n"
    ofJsonText (d.toJsonText none) = .ok d ∧ d.Tagged (TagReadable false) ∧
      d.write (some 2) = .ok text ∧
      ∃ d', ofText false text = .ok d' ∧
      d'.steps.map Step.time = [.absolute (some "2024-999T99")] := by
  have haccepted := @ofJsonText_ofTag "2024-999T99" (by decide) rfl
  have htags : (ofTag "2024-999T99").Tagged (TagReadable false) := tagged_ofTag (by decide) nofun
  have hwrite : (ofTag "2024-999T99").write (some 2) = .ok _ := rfl
  obtain ⟨d', hread, -, -, -, htimes, -⟩ := times_of_write haccepted htags hwrite
  exact ⟨haccepted, htags, rfl, d', hread, htimes⟩

/-- The example with a second command, which runs when the first is complete. -/
def ofTagThenNext (tag : String) : Document :=
  ⟨"demo", [], [], [], [⟨.absolute (some tag), .command "NOOP", [], none, [], []⟩,
    ⟨.commandComplete, .command "NOOP", [], none, [], []⟩], [], [], []⟩

theorem valid_ofTagThenNext {tag : String} (h : tag ≠ "") : (ofTagThenNext tag).Valid := by
  have hone := valid_ofTag h
  have hfirst := hone.steps _ List.mem_cons_self
  have hnext : Step.Valid ⟨.commandComplete, .command "NOOP", [], none, [], []⟩ :=
    { hfirst with time := (Option.some_ne_none _).symm }
  have hsteps := List.forall_mem_cons.2 ⟨hfirst, List.forall_mem_singleton.2 hnext⟩
  exact { hone with steps := hsteps }

/-- A blank in a tag ends it, and what follows a line feed is a line of its own. -/
theorem write_splits :
    let d := ofTag "1 NOOP\nC"
    let text := String.toList "@ID \"demo\"\n\nA1 NOOP\nC NOOP\n"
    ofJsonText (d.toJsonText none) = .ok d ∧ d.write (some 2) = .ok text ∧
      ∃ d', ofText false text = .ok d' ∧ d'.steps.length = 2 ∧ d.steps.length = 1 := by
  have hfirst : (ofTag "1").Tagged (TagReadable false) := tagged_ofTag (by decide) nofun
  have hnext : Time.commandComplete.Tagged (TagReadable false) := ⟨by decide, nofun⟩
  have htags : (ofTagThenNext "1").Tagged (TagReadable false) :=
    ⟨List.forall_mem_cons.2 ⟨hfirst.steps _ List.mem_cons_self, List.forall_mem_singleton.2 hnext⟩,
      List.forall_mem_nil _⟩
  have hwrite : (ofTagThenNext "1").write (some 2) = .ok _ := rfl
  have hread := ofText_write (valid_ofTagThenNext (by decide)) htags hwrite
  exact ⟨ofJsonText_ofTag (by decide) rfl, rfl, _, hread, rfl, rfl⟩

/-! ## Through JSON -/

/-- The JSON text of a document that was read, from text or from JSON, is read back exactly if what
is dumped of the document keeps the limits of the JSON reader; then null stands for the numbers in
its metadata that are not finite. A document without halves of surrogate pairs is dumped as it is.
What was read from JSON keeps the limits, and its JSON text is the same again. -/
theorem ofJsonText_toJsonText_of_read (indent : Json.Indent)
    (hread : (∃ validate text, ofText validate text = .ok d) ∨ ∃ json, ofJsonText json = .ok d) :
    (∀ d', ofJsonText (d.toJsonText indent) = .ok d' ↔
        d.dumped.toJson.Fits .document ∧ d' = d.dumped.norm) ∧
      (d.toJson.isEncodable = true → d.dumped = d) ∧
      ((∃ json, ofJsonText json = .ok d) →
        ofJsonText (d.toJsonText indent) = .ok d.norm ∧
          d.norm.toJsonText indent = d.toJsonText indent) := by
  have hvalid : d.Valid := by
    rcases hread with ⟨validate, text, h⟩ | ⟨json, h⟩
    · exact (readable_of_ofText h).valid
    · exact (keeps_of_ofJsonText h).1
  refine ⟨fun d' => ofJsonText_toJsonText hvalid, dumped_eq hvalid, fun ⟨json, h⟩ => ?_⟩
  have hfits := (keeps_of_ofJsonText h).2
  have hnorm : d.norm.toJson = d.toJson := toJson_norm hvalid
  have hdumped : d.norm.dumped = d.norm := dumped_eq hvalid.norm (hnorm ▸ hfits.isEncodable)
  refine ⟨ofJsonText_toJsonText_of_fits hvalid hfits, ?_⟩
  rw [toJsonText, toJsonText, hdumped, dumped_eq hvalid hfits.isEncodable, hnorm]

/-- What was read from JSON comes back from its JSON text. -/
theorem ofJsonText_toJsonText_dated :
    let d := ofTag "2024-001T00:00:00"
    (∃ json, ofJsonText json = .ok d) ∧ ofJsonText (d.toJsonText (some 2)) = .ok d.norm := by
  have hread : ∃ json, ofJsonText json = .ok (ofTag "2024-001T00:00:00") :=
    ⟨_, @ofJsonText_ofTag "2024-001T00:00:00" (by decide) rfl⟩
  exact ⟨hread, ((ofJsonText_toJsonText_of_read (some 2) (.inr hread)).2.2 hread).1⟩

/-! ### Beyond the limits of the JSON reader -/

/-- Arrays inside one another, the innermost of them empty. -/
def nested : Nat → Json.Value
  | 0 => .array []
  | n + 1 => .array [nested n]

theorem write_nested (n level : Nat) : (nested n).writeAt none level =
    List.replicate (n + 1) ('[' : Char) ++ List.replicate (n + 1) (']' : Char) := by
  induction n generalizing level with
  | zero => rfl
  | succ n ih =>
    calc (nested (n + 1)).writeAt none level
        = ('[' : Char) :: ((nested n).writeAt none (level + 1) ++ [(']' : Char)]) := by
          simp [nested, Json.Value.writeAt, Json.Value.writeItems, Json.Indent.break]
      _ = ('[' : Char) ::
        (List.replicate (n + 1) ('[' : Char) ++ List.replicate (n + 2) (']' : Char)) := by
          rw [ih, List.append_assoc, ← List.replicate_succ']
      _ = List.replicate (n + 2) ('[' : Char) ++ List.replicate (n + 2) (']' : Char) := by
          rw [← List.cons_append, ← List.replicate_succ]

theorem sound_nested (p : Number → Prop) (n : Nat) : (nested n).Sound p := by
  induction n with
  | zero => exact .array (List.forall_mem_nil _)
  | succ n ih => exact .array (List.forall_mem_singleton.2 ih)

theorem depth_nested (n : Nat) : (nested n).depth = n := by
  induction n with
  | zero => rfl
  | succ n ih => simp [nested, Json.Value.depth, Json.Value.depthOfItems, ih]

/-- A document with arrays inside one another in its metadata. -/
def ofDepth (n : Nat) : Document :=
  ⟨"demo", [("deep", nested n)], [], [], [], [], [], []⟩

/-- The line of an entry of metadata with arrays inside one another. -/
def entryOfDepth (n : Nat) : List Char :=
  ToText.fixed "@METADATA \"deep\" "
    ++ (List.replicate (n + 1) ('[' : Char) ++ List.replicate (n + 1) (']' : Char)) ++
      [('\n' : Char)]

/-- The text of a document with arrays inside one another in its metadata. -/
def textOfDepth (n : Nat) : List Char :=
  ToText.fixed "@ID \"demo\"\n" ++ entryOfDepth n

theorem valid_ofDepth (n : Nat) : (ofDepth n).Valid :=
  ⟨.object (by simp [ofDepth, Dictionary.Distinct])
      (List.forall_mem_singleton.2 (sound_nested _ n)),
    List.forall_mem_nil _, List.forall_mem_nil _, List.forall_mem_nil _, List.forall_mem_nil _,
    List.forall_mem_nil _, List.forall_mem_nil _⟩

theorem write_ofDepth (n : Nat) : (ofDepth n).write none = .ok (textOfDepth n) := by
  have hkey : ToText.fixed "@METADATA " ++ ToText.quoted "deep" ++ [(' ' : Char)] =
      ToText.fixed "@METADATA \"deep\" " := by decide
  have hid : ToText.fixed "@ID " ++ ToText.quoted "demo" ++ [('\n' : Char)] =
      ToText.fixed "@ID \"demo\"\n" := by decide
  have hentry : Metadata.writeEntry none "deep" (nested n) = .ok (entryOfDepth n) := by
    rw [Metadata.writeEntry, (sound_nested _ n).unwritable_eq_nil, Json.Value.write, write_nested,
      entryOfDepth, ← hkey]
    simp only [List.append_assoc, List.cons_append, List.nil_append]
  have hmetadata : Metadata.write none ((ofDepth n).metadata.filter (·.1 != loadAndGoKey)) =
      .ok (entryOfDepth n) := by
    change Metadata.write none [("deep", nested n)] = _
    simp [Metadata.write, hentry]
  have hload : (ofDepth n).loadAndGo = false := rfl
  rw [textOfDepth, ← hid]
  simp only [Document.write, hmetadata, hload]
  simp [ofDepth, Declaration.writeBlock, Document.writePart]

theorem ofText_textOfDepth (validate : Bool) (n : Nat) :
    ofText validate (textOfDepth n) = .ok (ofDepth n) := by
  have htags : (ofDepth n).Tagged (TagReadable validate) :=
    ⟨List.forall_mem_nil _, List.forall_mem_nil _⟩
  exact ofText_write (valid_ofDepth n) htags (write_ofDepth n)

theorem depth_toJson_ofDepth (n : Nat) : (ofDepth n).toJson.depth = n + 2 := by
  have hsame : (nested n).nullNonFinite = nested n :=
    (sound_nested (fun m => True ∧ m.isFinite = true) n).nullNonFinite_eq
  have hjson : (ofDepth n).toJson = .object
      [("id", .string "demo"), ("metadata", .object [("deep", (nested n).nullNonFinite)])] := rfl
  simp [hjson, hsame, Json.Value.depth, Json.Value.depthOfMembers, depth_nested]

theorem dumped_ofDepth (n : Nat) : (ofDepth n).dumped = ofDepth n := rfl

/-- Arrays too deep in one another have no way through JSON. -/
theorem ofJsonText_ne_ofDepth (indent : Json.Indent) (d' : Document) :
    ofJsonText ((ofDepth 199).toJsonText indent) ≠ .ok d' := by
  intro h
  have hdepth := ((ofJsonText_toJsonText (valid_ofDepth 199)).1 h).1.2.1
  rw [dumped_ofDepth, depth_toJson_ofDepth] at hdepth
  exact absurd hdepth (by decide)

/-- A text with half of a surrogate pair in its metadata, escaped. -/
def escapedHalf : List Char :=
  String.toList "@ID \"demo\"\n@METADATA \"k\" \"\\ud800\"\n"

/-- The text with half of a surrogate pair as it is written, not escaped. -/
def writtenHalf : List Char :=
  String.toList "@ID \"demo\"\n@METADATA \"k\" \"" ++ .half 0 :: String.toList "\"\n"

/-- Half of a surrogate pair is read from text and written to it, and has no way through JSON. -/
theorem exists_ofText_escapedHalf : ∃ d, ofText true escapedHalf = .ok d ∧
    d.write none = .ok writtenHalf ∧ ∀ indent d', ofJsonText (d.toJsonText indent) ≠ .ok d' := by
  have hread : (ofText true escapedHalf).toOption.map (fun d =>
      ((d.write none).toOption, d.dumped.toJson.isEncodable)) = some (some writtenHalf, false) := by
    decide +kernel
  obtain ⟨d, hd, hfound⟩ := Option.map_eq_some_iff.1 hread
  obtain ⟨hwrite, hhalf⟩ := Prod.mk.inj hfound
  have hofText := toOption_eq_some.1 hd
  refine ⟨d, hofText, toOption_eq_some.1 hwrite, fun indent d' h => ?_⟩
  obtain ⟨hfits, -⟩ := (ofJsonText_toJsonText (readable_of_ofText hofText).valid).1 h
  exact Bool.false_ne_true (hhalf.symm.trans hfits.isEncodable)

/-- Text can nest deeper than JSON, and it can hold half of a surrogate pair: what it gives then has
no way through JSON. -/
theorem ofJsonText_ne_of_ofText :
    (ofText true (textOfDepth 199) = .ok (ofDepth 199) ∧
      ∀ indent d', ofJsonText ((ofDepth 199).toJsonText indent) ≠ .ok d') ∧
    ∃ d, ofText true escapedHalf = .ok d ∧
      ∀ indent d', ofJsonText (d.toJsonText indent) ≠ .ok d' := by
  obtain ⟨d, hd, -, hne⟩ := exists_ofText_escapedHalf
  exact ⟨⟨ofText_textOfDepth true 199, ofJsonText_ne_ofDepth⟩, d, hd, hne⟩

end Document

end CommandSequence
