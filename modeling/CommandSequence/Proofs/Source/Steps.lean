import CommandSequence.Proofs.Document.Effects
import CommandSequence.Proofs.Source.Lines

/-!
# Reading the lines of steps, requests and commands back

The lines that carry the meaning of a document's body: of models, steps, requests and the commands
of sections. Each is read back at every place where its first token may begin a line. What a step's
own line gives of the step is `GivesStep`; its directives give the rest.
-/

namespace CommandSequence

open OfOutline (nonEmpty)
open Source (Terminal Token Cursor Level Lexes Begins nextLine Place Region)

namespace ReadBack

variable {c : Cursor} {place : Place} {text rest arguments ending : List Char} {validate : Bool}

/-! ## Models -/

/-- The value of a model is one token, which gives the value back. -/
theorem begins_modelValue {v : ModelValue} (hwrite : v.write = .ok text)
    (hrest : EndsNumber rest) :
    ∃ kind ∈ [Terminal.string, .number, .boolean], Begins (text ++ rest) kind text rest ∧
      ∀ token : Token, token.Is kind text → OfOutline.modelValue token = .ok v := by
  cases v with
  | boolean b =>
    cases hwrite
    refine ⟨.boolean, by decide, Begins.boolean b hrest, fun token htoken => ?_⟩
    simp only [OfOutline.modelValue, htoken.kind, OfOutline.boolean, htoken.text]
    cases b <;> rfl
  | number n =>
    obtain ⟨s, htext, hs, hread⟩ := Number.exists_spelling hwrite
    subst htext
    refine ⟨.number, by decide, Begins.number hs hrest, fun token htoken => ?_⟩
    have hnumber : OfOutline.number token = .ok n := by
      rw [OfOutline.number, OfOutline.number?, htoken.text, hread]
      rfl
    simp only [OfOutline.modelValue, htoken.kind, hnumber]
    rfl
  | string s =>
    cases hwrite
    refine ⟨.string, by decide, Begins.string s.toList rest, fun token htoken => ?_⟩
    simp only [OfOutline.modelValue, htoken.kind, OfOutline.string_of_is htoken]
    rfl

/-- The line of a model. -/
theorem readsLine_model {m : Model} (hplace : place.Opens .model) (hwrite : m.write = .ok text) :
    ReadsLine place text rest (resumed place) fun line =>
      ∃ directive, line = .directive directive ∧
        OfOutline.effect directive = .ok (.model m) := by
  obtain ⟨value, hvalue, heq⟩ := bind_eq_ok.1 hwrite
  cases heq
  suffices h : ReadsLine place (ToText.fixed "@MODEL " ++ (ToText.quoted m.variableName ++
      (' ' : Char) :: (value ++ (' ' : Char) :: (ToText.quoted m.offset ++ [('\n' : Char)])))) rest
        (resumed place) fun line =>
      ∃ directive, line = .directive directive ∧
        OfOutline.effect directive = .ok (.model m) by simpa using h
  refine readsLine_spaced rfl rfl hplace (by decide) fun token c hkind hc => ?_
  have hline : c.Before (' ' :: (ToText.quoted m.variableName ++
      (' ' : Char) :: (value ++ (' ' : Char) ::
        (ToText.quoted m.offset ++ ('\n' : Char) :: rest)))) := by simpa using hc
  have hends : EndsNumber (' ' :: (ToText.quoted m.offset ++ ('\n' : Char) :: rest)) :=
    endsNumber_cons (by decide) (by decide) (by decide)
  obtain ⟨kind, hmem, hbegins, hgives⟩ := begins_modelValue hvalue hends
  simp only [Source.Line.readFrom, hkind, Source.Line.readModel]
  refine Succeeds.bind (P := fun found => (∃ line, found.1 = line ∧
      OfOutline.model line = .ok m) ∧ found.2.Before (nextLine rest)) ?_ ?_
  · refine (expectString_ok (by decide) hline).bind ?_
    rintro ⟨name, c⟩ ⟨hname, hs, hc⟩
    refine (Cursor.expect_ok hc (hbegins.lexes hmem).blank).bind ?_
    rintro ⟨token, c⟩ ⟨htoken, hc⟩
    refine (readStringLine_ok hc).bind ?_
    rintro ⟨offset, c⟩ ⟨hoffset, hc⟩
    refine .ok ⟨⟨_, rfl, ?_⟩, hc⟩
    have hquoted : (name.kind == Terminal.string) = true := by rw [hname]; rfl
    simp only [OfOutline.model, hquoted, if_true, hs, hgives token htoken, hoffset]
    rfl
  · rintro ⟨line, c⟩ ⟨⟨_, rfl, hmodel⟩, hc⟩
    refine .ok ⟨⟨_, rfl, ?_⟩, rfl, hc⟩
    rw [OfOutline.effect, hmodel]
    rfl

/-! ## The end of a line -/

theorem head?_ending {description : Option String} (h : ToText.ending description = .ok ending) :
    ∃ d more, ending = d :: more ∧ (d = ' ' ∨ d = '\n') := by
  unfold ToText.ending at h
  split at h
  · cases h; exact ⟨_, _, rfl, .inr rfl⟩
  · split at h
    · cases h; exact ⟨_, _, rfl, .inr rfl⟩
    · split at h
      · cases h
      · cases h; exact ⟨_, _, rfl, .inl rfl⟩

/-- What stands after the subject of a line ends a word. -/
theorem endsWord_trailer {args : List Argument} {description : Option String}
    (hwrite : Argument.writeAll args = .ok arguments)
    (hending : ToText.ending description = .ok ending) (rest : List Char) :
    Terminal.endsWord (arguments ++ (ending ++ rest)) = true := by
  obtain ⟨texts, -, heq⟩ := bind_eq_ok.1 hwrite
  cases heq
  cases texts with
  | cons text texts => rfl
  | nil =>
    obtain ⟨d, more, rfl, hd⟩ := head?_ending hending
    rcases hd with rfl | rfl <;> rfl

/-! ## Steps -/

/-- A step's line gives the step, but for what its directives give. -/
structure GivesStep (validate : Bool) (s : Step) (line : Source.StepLine) : Prop where
  time : OfOutline.time validate line.tag = .ok s.time
  action : OfOutline.action line.kind line.subject = .ok s.action.bare
  arguments : OfOutline.arguments line.arguments = .ok (s.arguments.map Argument.canon)
  description : OfOutline.description line.description = s.description.bind nonEmpty

theorem readFrom_timed {token : Token} (h : token.kind ∈ Source.timeTags) :
    Source.Line.readFrom place token c = Source.Line.readTimed place.region token c := by
  have htags : ∀ kind ∈ Source.timeTags, kind = .absoluteTime ∨ kind = .commandComplete ∨
      kind = .commandRelative ∨ kind = .epochRelative := by decide
  rcases htags _ h with h | h | h | h <;> simp only [Source.Line.readFrom, h]

theorem terminal_mem_timeTags (t : Time) : t.terminal ∈ Source.timeTags := by
  cases t <;> simp [Time.terminal, Source.timeTags]

theorem sought_afterTag (region : Region) :
    Level.sought (Source.Line.afterTag region) =
      .requestBegin :: Source.Line.stepOpeners := by
  cases region <;> rfl

/-- Inside a request and before the body's end, steps may follow a time tag. -/
theorem refusing?_afterTag {region : Region} (h : region.isLate = false) {kind : Terminal}
    (hkind : kind ∈ Source.Line.stepOpeners) :
    Level.refusing? (Source.Line.afterTag region) kind = none := by
  have hopeners : ∀ kind ∈ Source.Line.stepOpeners, Level.refusing?
      [⟨.requestBegin :: Source.Line.stepOpeners, []⟩, ⟨Source.Line.stepOpeners, []⟩] kind = none ∧
      Level.refusing? [⟨.requestBegin :: Source.Line.stepOpeners, []⟩] kind = none := by decide
  cases region
  case request => exact (hopeners kind hkind).1
  case immediate => cases h
  case hardware => cases h
  case trailer => cases h
  all_goals exact (hopeners kind hkind).2

/-- A quoted name in parentheses after a keyword. -/
theorem readKeyword_ok {kind : Terminal} {keyword s : String} {region : Region}
    (hlate : region.isLate = false) (hkind : kind ∈ Source.Line.stepOpeners)
    (hkeyword : kind.literal? = some keyword)
    (hc : c.Before ((' ' : Char) ::
      (ToText.fixed keyword ++ (('(' : Char) :: (ToText.quoted s ++ (')' : Char) :: rest))))) :
    Succeeds (c.take (Source.Line.afterTag region)) fun opener => opener.1.kind = kind ∧
      Succeeds (Source.Line.readParenthesized opener.2) fun found =>
        OfOutline.string found.1 = .ok s ∧ found.2.Before rest := by
  have hbegins :=
    Begins.literal hkeyword ('(' :: (ToText.quoted s ++ (')' : Char) :: rest)) fun _ => rfl
  have hmem : kind ∈ Level.sought (Source.Line.afterTag region) := by
    rw [sought_afterTag]
    exact List.mem_cons_of_mem _ hkind
  refine (Cursor.take_ok hc (hbegins.lexes hmem).blank (refusing?_afterTag hlate hkind)).mono
    fun found ⟨htoken, hafter⟩ => ⟨htoken.kind, readParenthesized_ok hafter⟩

/-- The opener of a step and its subject, read from there on, give what the step does. -/
def GivesAction (action : Action) (rest : List Char) (opener : Token × Cursor) : Prop :=
  ∃ kind, Source.Line.stepKind? opener.1.kind = some kind ∧
    Succeeds (if kind = .command then .ok opener
        else Source.Line.readParenthesized opener.2 : Except Source.SyntaxError (Token × Cursor))
      fun found => OfOutline.action kind found.1 = .ok action.bare ∧ found.2.Before rest

/-- What a step does is read back from a keyword and a name in parentheses. -/
theorem readNamedSubject_ok {action : Action} {region : Region} {keyword s : String}
    (kind : Terminal) (stepKind : Source.StepKind) (hlate : region.isLate = false)
    (hopener : kind ∈ Source.Line.stepOpeners)
    (hstep : Source.Line.stepKind? kind = some stepKind) (hcommand : stepKind ≠ .command)
    (hkeyword : kind.literal? = some keyword)
    (htext : action.write = ToText.fixed keyword ++ ('(' : Char) :: ToText.quoted s ++
      [(')' : Char)])
    (hgives : ∀ token, OfOutline.string token = .ok s →
      OfOutline.action stepKind token = .ok action.bare)
    (hc : c.Before (' ' :: (action.write ++ rest))) :
    Succeeds (c.take (Source.Line.afterTag region)) (GivesAction action rest) := by
  have hline : c.Before ((' ' : Char) :: (ToText.fixed keyword ++
      (('(' : Char) :: (ToText.quoted s ++ (')' : Char) :: rest)))) := by
    rw [htext] at hc
    simpa using hc
  refine (readKeyword_ok hlate hopener hkeyword hline).mono fun opener ⟨hkind, hread⟩ => ?_
  refine ⟨stepKind, by rw [hkind, hstep], ?_⟩
  rw [if_neg hcommand]
  exact hread.mono fun found ⟨hs, hafter⟩ => ⟨hgives found.1 hs, hafter⟩

/-- What a step does is read back from its opener and subject. -/
theorem readSubject_ok {action : Action} {region : Region} (hlate : region.isLate = false)
    (hvalid : action.Valid) (hrest : Terminal.endsWord rest = true)
    (hc : c.Before (' ' :: (action.write ++ rest))) :
    Succeeds (c.take (Source.Line.afterTag region)) (GivesAction action rest) := by
  cases action with
  | command stem =>
    have hlexes : Lexes (Level.sought (Source.Line.afterTag region)) (stem.toList ++ rest)
        .identifier stem.toList rest :=
      Lexes.plain (by rw [sought_afterTag]; decide) hvalid hrest (by rw [sought_afterTag]; decide)
    refine (Cursor.take_ok hc hlexes.blank (refusing?_afterTag hlate (by decide))).mono
      fun opener ⟨htoken, hafter⟩ => ⟨.command, by rw [htoken.kind]; rfl, ?_⟩
    rw [if_pos rfl]
    refine .ok ⟨?_, hafter⟩
    simp only [OfOutline.action, OfOutline.word, htoken.text, String.ofList_toList, Action.bare]
  | call kind sequence engine epoch =>
    cases kind with
    | activate =>
      refine readNamedSubject_ok .activate .activate hlate (by decide) rfl (by decide) rfl rfl
        (fun token h => ?_) hc
      rw [OfOutline.action, h]
      rfl
    | load =>
      refine readNamedSubject_ok .load .load hlate (by decide) rfl (by decide) rfl rfl
        (fun token h => ?_) hc
      rw [OfOutline.action, h]
      rfl
  | ground kind name =>
    cases kind with
    | block =>
      refine readNamedSubject_ok .groundBlock .groundBlock hlate (by decide) rfl (by decide) rfl rfl
        (fun token h => ?_) hc
      rw [OfOutline.action, h]
      rfl
    | event =>
      refine readNamedSubject_ok .groundEvent .groundEvent hlate (by decide) rfl (by decide) rfl rfl
        (fun token h => ?_) hc
      rw [OfOutline.action, h]
      rfl

/-- A step's line is its subject, which for a command is the opener itself, and a trailer. -/
theorem readStep_eq (tag opener : Token) (kind : Source.StepKind) (c : Cursor) :
    Source.Line.readStep tag kind opener c =
      (if kind = .command then .ok (opener, c) else Source.Line.readParenthesized c) >>=
        fun found => Source.Line.readTrailer found.2 >>= fun trailer =>
          .ok (⟨tag, kind, opener.position, found.1, trailer.1, trailer.2.1⟩, trailer.2.2) := by
  unfold Source.Line.readStep
  split <;> rfl

/-- The line of a step. -/
theorem readsLine_step {s : Step} (hvalid : s.Valid) (htag : s.time.Tagged (TagReadable validate))
    (hplace : place.Opens s.time.terminal) (hlate : place.region.isLate = false)
    (harguments : Argument.writeAll s.arguments = .ok arguments)
    (hending : ToText.ending s.description = .ok ending) :
    ReadsLine place (s.time.write ++ (' ' : Char) :: (s.action.write ++ (arguments ++ ending))) rest
      { region := Source.Line.bodyRegion place.region, tail := .step } fun line =>
        ∃ stepLine, line = .step stepLine ∧ GivesStep validate s stepLine := by
  have hbegins := Time.begins htag (s.action.write ++ (arguments ++ (ending ++ rest)))
  have hkinds : s.time.terminal ≠ .newline ∧ s.time.terminal ≠ .description := by
    cases s.time <;> simp [Time.terminal]
  refine readsLine_of_begins (by simpa using hbegins) hplace hkinds (by simp)
    fun token c htoken hc => ?_
  rw [readFrom_timed (by rw [htoken.kind]; exact terminal_mem_timeTags _), Source.Line.readTimed]
  refine (readSubject_ok hlate hvalid.action
    (endsWord_trailer harguments hending rest) hc).bind ?_
  rintro ⟨opener, c⟩ ⟨kind, hkind, hread⟩
  simp only [hkind, readStep_eq]
  refine Succeeds.bind (P := fun found => GivesStep validate s found.1 ∧
    found.2.Before (nextLine rest)) ?_ ?_
  · refine Succeeds.bind hread ?_
    rintro ⟨subject, c⟩ ⟨haction, hc⟩
    refine (readTrailer_ok hvalid.arguments harguments hending hc).bind ?_
    rintro ⟨found, description, c⟩ ⟨hfound, hdescription, hc⟩
    exact .ok ⟨⟨Time.ofOutline_ok hvalid.time htag htoken, haction, hfound, hdescription⟩, hc⟩
  · rintro ⟨line, c⟩ ⟨hgives, hc⟩
    exact .ok ⟨⟨line, rfl, hgives⟩, rfl, hc⟩

/-! ## Requests -/

/-- The first line of a request gives the request, but for its steps and metadata. -/
structure GivesRequest (validate : Bool) (r : Request) (line : Source.RequestLine) : Prop where
  timing : ∃ moment, OfOutline.timing validate line.timing = .ok moment ∧
    moment.getLeft? = r.time ∧ moment.getRight? = if r.time.isSome then none else r.groundEpoch
  name : OfOutline.string line.name = .ok r.name
  description : OfOutline.description line.description = r.description.bind nonEmpty

theorem readRequest_ok {name : String} {description : Option String} (timing : Source.Timing)
    (hending : ToText.ending description = .ok ending)
    (hc : c.Before ('(' :: (ToText.quoted name ++ (')' : Char) :: (ending ++ rest)))) :
    Succeeds (Source.Line.readRequest timing c) fun found => found.1.timing = timing ∧
      OfOutline.string found.1.name = .ok name ∧
      OfOutline.description found.1.description = description.bind nonEmpty ∧
      found.2.Before (nextLine rest) := by
  refine (readParenthesized_ok hc).bind fun ⟨named, c⟩ ⟨hname, hc⟩ => ?_
  exact (readDescription_ok hending hc).bind
    fun ⟨described, c⟩ ⟨hdescribed, hc⟩ => .ok ⟨rfl, hname, hdescribed, hc⟩

/-- Outside requests, a request may follow a time tag. -/
theorem refusing?_afterTag_request {region : Region} (h : ∀ late, region ≠ .request late) :
    Level.refusing? (Source.Line.afterTag region) .requestBegin = none := by
  cases region
  case request late => exact absurd rfl (h late)
  all_goals rfl

/-- What follows the timing of a request on its first line. -/
def requestOpening (name : String) (more : List Char) : List Char :=
  String.toList "@REQUEST_BEGIN" ++ (('(' : Char) :: (ToText.quoted name ++ (')' : Char) :: more))

@[simp] theorem requestOpening_append (name : String) (more rest : List Char) :
    requestOpening name more ++ rest = requestOpening name (more ++ rest) := by
  -- for any keyword: the characters of this one would be computed
  have happend (keyword : List Char) : keyword ++
      (('(' : Char) :: (ToText.quoted name ++ (')' : Char) :: more)) ++
      rest = keyword ++
        (('(' : Char) :: (ToText.quoted name ++ (')' : Char) :: (more ++ rest))) := by simp
  exact happend _

theorem begins_requestOpening (name : String) (more : List Char) :
    Begins (requestOpening name more) .requestBegin (String.toList "@REQUEST_BEGIN")
      ('(' :: (ToText.quoted name ++ (')' : Char) :: more)) :=
  Begins.literal rfl _ fun h => by cases h

/-- The first line of a request that begins at a time. -/
theorem readsLine_timedRequest {r : Request} {t : Time} (htime : r.time = some t)
    (hvalid : t.Valid) (htag : t.Tagged (TagReadable validate))
    (hplace : place.Opens t.terminal) (hregion : ∀ late, place.region ≠ .request late)
    (hending : ToText.ending r.description = .ok ending) :
    ReadsLine place (t.write ++ (' ' : Char) :: requestOpening r.name ending) rest
      (Source.Line.insideRequest place.region) fun line =>
        ∃ requestLine, line = .requestBegin requestLine ∧ GivesRequest validate r requestLine := by
  have hopener := begins_requestOpening r.name (ending ++ rest)
  have hbegins := Time.begins htag (requestOpening r.name (ending ++ rest))
  have hkinds : t.terminal ≠ .newline ∧ t.terminal ≠ .description := by
    cases t <;> simp [Time.terminal]
  refine readsLine_of_begins (by simpa using hbegins) hplace hkinds (by simp)
    fun token c htoken hc => ?_
  rw [readFrom_timed (by rw [htoken.kind]; exact terminal_mem_timeTags t), Source.Line.readTimed]
  refine (Cursor.take_ok hc (hopener.lexes (by rw [sought_afterTag]; decide)).blank
    (refusing?_afterTag_request hregion)).bind ?_
  rintro ⟨opener, c⟩ ⟨hopened, hc⟩
  have hnone : Source.Line.stepKind? opener.kind = none := by rw [hopened.kind]; rfl
  simp only [hnone]
  refine (readRequest_ok (.tag token) hending hc).bind ?_
  rintro ⟨line, c⟩ ⟨hline, hname, hdescription, hc⟩
  refine .ok ⟨⟨line, rfl, ⟨?_, hname, hdescription⟩⟩, rfl, hc⟩
  refine ⟨.inl t, ?_, htime.symm, by simp [htime]⟩
  rw [hline, OfOutline.timing, Time.ofOutline_ok hvalid htag htoken]
  rfl

/-- The first line of a request that begins at an offset from a ground epoch. -/
theorem readsLine_anchoredRequest {r : Request} {g : GroundEpoch} (htime : r.time = none)
    (hepoch : r.groundEpoch = some g) (hvalid : g.Valid)
    (htag : TagReadable validate .groundEpoch g.body) (hplace : place.Opens .groundEpoch)
    (hending : ToText.ending r.description = .ok ending) :
    ReadsLine place (('G' : Char) :: (g.body ++ (' ' : Char) :: ToText.quoted (g.name.getD "")) ++
        (' ' : Char) :: requestOpening r.name ending) rest
      (Source.Line.insideRequest place.region) fun line =>
        ∃ requestLine, line = .requestBegin requestLine ∧ GivesRequest validate r requestLine := by
  have hopener := begins_requestOpening r.name (ending ++ rest)
  have hbegins : Begins ('G' :: (g.body ++ (' ' : Char) :: (ToText.quoted (g.name.getD "") ++
      (' ' : Char) :: requestOpening r.name (ending ++ rest)))) .groundEpoch ('G' :: g.body)
      (' ' :: (ToText.quoted (g.name.getD "") ++ (' ' : Char) ::
        requestOpening r.name (ending ++ rest))) :=
    Begins.tag rfl htag.1 rfl
  refine readsLine_of_begins (by simpa using hbegins) hplace (by decide) (by simp)
    fun token c htoken hc => ?_
  simp only [Source.Line.readFrom, htoken.kind]
  refine (expectString_ok (by decide) hc).bind ?_
  rintro ⟨name, c⟩ ⟨_, hname, hc⟩
  refine (Cursor.expect_ok hc (hopener.lexes (by decide)).blank).bind ?_
  rintro ⟨_, c⟩ ⟨_, hc⟩
  refine (readRequest_ok (.groundEpoch token name) hending hc).bind ?_
  rintro ⟨line, c⟩ ⟨hline, hcalled, hdescription, hc⟩
  refine .ok ⟨⟨line, rfl, ⟨?_, hcalled, hdescription⟩⟩, rfl, hc⟩
  have hepochName : nonEmpty (g.name.getD "") = g.name := by
    have hlist := OfOutline.nonEmpty_toList hvalid.name
    rwa [String.ofList_toList] at hlist
  have hencodable : (g.name.getD "").isEncodable = true := by
    cases hg : g.name with
    | none => rfl
    | some name => exact hvalid.encodable name hg
  refine ⟨.inr g, ?_, htime.symm, by simp [htime, hepoch]⟩
  rw [hline, OfOutline.timing, hname, GroundEpoch.ofOutline_ok hvalid htag htoken]
  simp only [Bind.bind, Except.bind, OfOutline.groundEpoch, hencodable, if_true, hepochName]
  rfl

/-- The first line of a request. -/
theorem readsLine_request {r : Request} {timing : List Char} (hvalid : r.Valid)
    (htag : r.Tagged (TagReadable validate))
    (hplace : ∀ kind ∈ Source.openers, place.Opens kind)
    (hregion : ∀ late, place.region ≠ .request late) (htiming : r.writeTiming = .ok timing)
    (hending : ToText.ending r.description = .ok ending) :
    ReadsLine place (timing ++ (' ' : Char) :: requestOpening r.name ending) rest
      (Source.Line.insideRequest place.region) fun line =>
        ∃ requestLine, line = .requestBegin requestLine ∧ GivesRequest validate r requestLine := by
  cases htime : r.time with
  | some t =>
    have hwrite : timing = t.write := by
      rw [Request.writeTiming, htime] at htiming
      exact (Except.ok.inj htiming).symm
    rw [hwrite]
    exact readsLine_timedRequest htime (hvalid.time t htime) (htag.time t htime)
      (hplace _ (List.mem_cons_of_mem _ (terminal_mem_timeTags t))) hregion hending
  | none =>
    cases hepoch : r.groundEpoch with
    | none => simp [Request.writeTiming, htime, hepoch] at htiming
    | some g =>
      have hwrite : timing =
          ('G' : Char) :: (g.body ++ (' ' : Char) :: ToText.quoted (g.name.getD "")) := by
        rw [Request.writeTiming, htime, hepoch] at htiming
        simpa [GroundEpoch.body] using (Except.ok.inj htiming).symm
      rw [hwrite]
      exact readsLine_anchoredRequest htime hepoch (hvalid.groundEpoch g hepoch)
        (htag.groundEpoch htime g hepoch) (hplace _ (by decide)) hending

/-! ## Commands of sections -/

/-- A command of a section may begin the line at a place, where no words are looked for. -/
structure OpensCommand (place : Place) : Prop where
  opens : place.Opens .identifier
  words : ∀ k ∈ Lexes.worded, k.tagLetter? = none → k ∉ Level.sought place.levels

theorem lexes_stem {stem : String} (hplace : OpensCommand place) (hstem : IsSectionStem stem)
    (hrest : Terminal.endsWord rest = true) :
    Lexes (Level.sought place.levels) (stem.toList ++ rest) .identifier stem.toList rest :=
  Lexes.stem hplace.opens.1 hstem.1 hrest hstem.2 hplace.words

/-- The line of an immediate command. -/
theorem readsLine_immediate {command : ImmediateCommand} (hvalid : command.Valid)
    (hplace : OpensCommand place) (hregion : place.region = .immediate)
    (harguments : Argument.writeAll command.arguments = .ok arguments)
    (hending : ToText.ending command.description = .ok ending) :
    ReadsLine place (command.stem.toList ++ (arguments ++ ending)) rest
      { region := .immediate, tail := .command } fun line =>
        ∃ item, line = .command .immediate item ∧
          OfOutline.stem "ImmediateCommand" item.stem = .ok command.stem ∧
          OfOutline.arguments item.arguments = .ok (command.arguments.map Argument.canon) ∧
          OfOutline.description item.description = command.description.bind nonEmpty := by
  have hfront := nextLine_identifier hvalid.stem.1
  have hlexes := lexes_stem hplace hvalid.stem (endsWord_trailer harguments hending rest)
  refine readsLine_of_lexes (fun h => hfront.1 (List.append_eq_nil_iff.1 h).1)
    (by simpa using hfront.2 _) (by simpa using hlexes) hplace.opens.2 fun token c htoken hc => ?_
  simp only [Source.Line.readFrom, htoken.kind, Source.Line.readNamed, hregion]
  refine (readTrailer_ok hvalid.arguments harguments hending hc).bind ?_
  rintro ⟨found, description, c⟩ ⟨hfound, hdescription, hc⟩
  refine .ok ⟨⟨_, rfl, ?_, hfound, hdescription⟩, rfl, hc⟩
  simp [OfOutline.stem, htoken.text, hvalid.stem.2, OfOutline.word]

/-- The line of a hardware command. -/
theorem readsLine_hardware {command : HardwareCommand} (hvalid : command.Valid)
    (hplace : OpensCommand place) (hregion : place.region = .hardware)
    (hending : ToText.ending command.description = .ok ending) :
    ReadsLine place (command.stem.toList ++ ending) rest
      { region := .hardware, tail := .command } fun line =>
        ∃ item, line = .command .hardware item ∧
          OfOutline.stem "HardwareCommand" item.stem = .ok command.stem ∧
          OfOutline.description item.description = command.description.bind nonEmpty := by
  have hfront := nextLine_identifier hvalid.stem.1
  have hends : Terminal.endsWord (ending ++ rest) = true := by
    obtain ⟨d, more, rfl, hd⟩ := head?_ending hending
    rcases hd with rfl | rfl <;> rfl
  refine readsLine_of_lexes (fun h => hfront.1 (List.append_eq_nil_iff.1 h).1)
    (by simpa using hfront.2 _) (by simpa using lexes_stem hplace hvalid.stem hends) hplace.opens.2
    fun token c htoken hc => ?_
  simp only [Source.Line.readFrom, htoken.kind, Source.Line.readNamed, hregion]
  refine (readDescription_ok hending hc).bind ?_
  rintro ⟨description, c⟩ ⟨hdescription, hc⟩
  refine .ok ⟨⟨_, rfl, ?_, hdescription⟩, rfl, hc⟩
  simp [OfOutline.stem, htoken.text, hvalid.stem.2, OfOutline.word]

end ReadBack

end CommandSequence
