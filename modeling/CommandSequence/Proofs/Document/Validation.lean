import CommandSequence.Proofs.Document.OfOutline

/-!
# Validating time tags

A document is read with its time tags validated or not. Validation only filters: with it a text
gives the same document as without it if every tag of that document satisfies one of the grammars of
the letter that it stands after, and otherwise none (`Document.ofText_validating`).

A tag is looked at once, where its token is read (`filters_tag`). Every construct above it keeps the
tags of its parts, so that the check of the whole is the check of the parts; a construct without
times is read the same way by both.
-/

namespace CommandSequence

open OfOutline (grammars)

/-! ## The tags of a document -/

/-- The tag of a time, with the letter that it stands after. -/
def Time.tags : Time → List (Char × String)
  | .absolute tag => tag.toList.map ('A', ·)
  | .commandComplete => []
  | .commandRelative tag => tag.toList.map ('R', ·)
  | .epochRelative tag => tag.toList.map ('E', ·)

/-- The offset of a ground epoch, with its letter. -/
def GroundEpoch.tags (g : GroundEpoch) : List (Char × String) :=
  g.delta.toList.map ('G', ·)

/-- The tags that occur in a step. -/
def Step.tags (s : Step) : List (Char × String) :=
  s.time.tags

/-- The tags that occur in a request, those of its steps included. -/
def Request.tags (r : Request) : List (Char × String) :=
  r.time.toList.flatMap Time.tags ++ r.groundEpoch.toList.flatMap GroundEpoch.tags ++
    r.steps.flatMap Step.tags

/-- The tags that occur in a document. -/
def Document.tags (d : Document) : List (Char × String) :=
  d.steps.flatMap Step.tags ++ d.requests.flatMap Request.tags

/-- A tag satisfies one of the grammars of its letter. -/
def IsAccepted (tag : Char × String) : Prop :=
  ∃ grammar ∈ grammars tag.1, grammar.accepts tag.2.toList = true

instance (tag : Char × String) : Decidable (IsAccepted tag) :=
  inferInstanceAs (Decidable (∃ grammar ∈ grammars tag.1, grammar.accepts tag.2.toList = true))

namespace OfOutline

open Source (Token)

/-! ## Times -/

variable {token : Token} {letter : Char}

/-- The one check of a tag. -/
theorem filters_tag (h : token.IsTag) (hletter : token.kind.tagLetter? = some letter) :
    Filters (tag true token) (tag false token) fun found =>
      ∀ tag ∈ found.toList.map (letter, ·), IsAccepted tag := by
  obtain ⟨_, body, hfound, htext, -⟩ := h
  rw [hletter] at hfound
  cases hfound
  intro found
  simp only [tag, htext, Bool.false_and, Bool.true_and, Bool.false_eq_true, if_false]
  by_cases hempty : body = []
  -- a letter alone has no tag, and neither run looks for one
  · have hnone : nonEmpty (String.ofList body) = none := by
      rw [hempty]
      rfl
    rw [hnone, hempty]
    refine ⟨fun heq => ⟨heq, ?_⟩, And.left⟩
    cases heq
    exact List.forall_mem_nil _
  · have hsome : nonEmpty (String.ofList body) = some (String.ofList body) :=
      if_neg fun h => hempty (List.isEmpty_iff.1 h)
    have haccepted : (∀ tag ∈ [(letter, String.ofList body)], IsAccepted tag) ↔
        (grammars letter).any (·.accepts body) = true := by
      simp [IsAccepted]
    rw [hsome]
    by_cases hany : (grammars letter).any (·.accepts body) = true
    · simp only [hany, Bool.not_true, Bool.and_false, Bool.false_eq_true, if_false]
      refine ⟨fun heq => ⟨heq, ?_⟩, And.left⟩
      cases heq
      exact haccepted.2 hany
    · have hrefused : (!body.isEmpty && !(grammars letter).any (·.accepts body)) = true := by
        simp [hempty, hany]
      rw [if_pos hrefused]
      constructor
      · intro heq
        cases heq
      · rintro ⟨heq, hall⟩
        cases heq
        exact absurd (haccepted.1 hall) hany

theorem filters_time (hkind : token.kind ∈ Source.timeTags) (h : token.IsTag) :
    Filters (time true token) (time false token) fun t => ∀ tag ∈ t.tags, IsAccepted tag := by
  simp only [Source.timeTags, List.mem_cons, List.not_mem_nil, or_false] at hkind
  unfold time
  rcases hkind with hkind | hkind | hkind | hkind
  all_goals
    simp only [hkind]
  case inr.inl => exact .same (.ok (List.forall_mem_nil _))
  all_goals exact (filters_tag h (by rw [hkind]; rfl)).map fun _ => Iff.rfl

theorem filters_timing {t : Source.Timing} (h : t.Lexed) :
    Filters (timing true t) (timing false t) fun moment =>
      ∀ tag ∈ moment.getLeft?.toList.flatMap Time.tags ++
        moment.getRight?.toList.flatMap GroundEpoch.tags, IsAccepted tag := by
  cases t with
  | tag token =>
    refine (filters_time h.1 h.2).map fun t => ?_
    simp
  | groundEpoch token name =>
    -- the name is read first: where it cannot be, both runs fail with the same error
    intro moment
    have hfilters := filters_tag h.2 (by rw [h.1]; rfl)
    simp only [timing, bind_eq_ok]
    constructor
    · rintro ⟨called, hcalled, delta, hdelta, g, hg, hmoment⟩
      obtain ⟨hdelta, hall⟩ := (hfilters delta).1 hdelta
      cases hmoment
      refine ⟨⟨called, hcalled, delta, hdelta, g, hg, rfl⟩, ?_⟩
      obtain ⟨-, rfl⟩ := groundEpoch_eq_ok.1 hg
      simpa [GroundEpoch.tags] using hall
    · rintro ⟨⟨called, hcalled, delta, hdelta, g, hg, hmoment⟩, hall⟩
      cases hmoment
      refine ⟨called, hcalled, delta, (hfilters delta).2 ⟨hdelta, ?_⟩, g, hg, rfl⟩
      obtain ⟨-, rfl⟩ := groundEpoch_eq_ok.1 hg
      simpa [GroundEpoch.tags] using hall

/-! ## Steps and requests -/

/-- A step keeps the time that it was read with, whatever else is read. -/
theorem filters_step {item : Source.StepItem} (h : item.line.Lexed) :
    Filters (step true item) (step false item) fun s => ∀ tag ∈ s.tags, IsAccepted tag := by
  unfold step
  refine (filters_time h.tag.1 h.tag.2).bind fun moment s hs => ?_
  obtain ⟨does, -, hs⟩ := bind_eq_ok.1 hs
  obtain ⟨given, -, hs⟩ := bind_eq_ok.1 hs
  obtain ⟨effects, -, hs⟩ := bind_eq_ok.1 hs
  obtain ⟨-, -, hs⟩ := bind_eq_ok.1 hs
  cases hs
  exact Iff.rfl

/-- What a request is read from. -/
theorem request_eq_ok {validate : Bool} {item : Source.RequestItem} {r : Request} :
    request validate item = .ok r ↔ ∃ moment name steps notes,
      timing validate item.line.timing = .ok moment ∧ string item.line.name = .ok name ∧
      item.steps.mapM (step validate) = .ok steps ∧ metadata item.metadata = .ok notes ∧
      steps ≠ [] ∧ r = {
        name
        steps
        time := moment.getLeft?
        groundEpoch := moment.getRight?
        description := description item.line.description
        metadata := notes } := by
  unfold request
  simp only [bind_eq_ok]
  refine exists_congr fun moment => ?_
  constructor
  · rintro ⟨hmoment, name, hname, steps, hsteps, notes, hnotes, hr⟩
    split at hr
    · cases hr
    · next hfilled =>
      cases hr
      exact ⟨name, steps, notes, hmoment, hname, hsteps, hnotes,
        fun hempty => hfilled (List.isEmpty_iff.2 hempty), rfl⟩
  · rintro ⟨name, steps, notes, hmoment, hname, hsteps, hnotes, hfilled, rfl⟩
    refine ⟨hmoment, name, hname, steps, hsteps, notes, hnotes, ?_⟩
    rw [if_neg fun hempty => hfilled (List.isEmpty_iff.1 hempty)]
    rfl

theorem filters_request {item : Source.RequestItem} (h : (Source.Item.request item).Lexed) :
    Filters (request true item) (request false item) fun r => ∀ tag ∈ r.tags, IsAccepted tag := by
  have htiming := filters_timing h.1
  have hsteps : Filters (item.steps.mapM (step true)) (item.steps.mapM (step false))
      fun steps => ∀ s ∈ steps, ∀ tag ∈ s.tags, IsAccepted tag :=
    .mapM fun s hs => filters_step (h.2 s hs)
  intro r
  rw [request_eq_ok, request_eq_ok]
  constructor
  · rintro ⟨moment, name, steps, notes, hmoment, hname, hread, hnotes, hfilled, rfl⟩
    obtain ⟨hmoment, hallTiming⟩ := (htiming moment).1 hmoment
    obtain ⟨hread, hallSteps⟩ := (hsteps steps).1 hread
    refine ⟨⟨moment, name, steps, notes, hmoment, hname, hread, hnotes, hfilled, rfl⟩, ?_⟩
    exact List.forall_mem_append.2 ⟨hallTiming, List.forall_mem_flatMap.2 hallSteps⟩
  · rintro ⟨⟨moment, name, steps, notes, hmoment, hname, hread, hnotes, hfilled, rfl⟩, hall⟩
    obtain ⟨hallTiming, hallSteps⟩ := List.forall_mem_append.1 hall
    exact ⟨moment, name, steps, notes, (htiming moment).2 ⟨hmoment, hallTiming⟩, hname,
      (hsteps steps).2 ⟨hread, List.forall_mem_flatMap.1 hallSteps⟩, hnotes, hfilled, rfl⟩

/-! ## Items -/

/-- The tags that occur in a part. -/
def Part.tags : Part → List (Char × String)
  | .step s => s.tags
  | .request r => r.tags
  | _ => []

theorem filters_part {item : Source.Item} (h : item.Lexed) :
    Filters (part true item) (part false item) fun p => ∀ tag ∈ p.tags, IsAccepted tag := by
  have hsame (htags : ∀ p, MeansOf true item p → p.tags = [])
      (hfixed : part true item = part false item) :
      Filters (part true item) (part false item) fun p => ∀ tag ∈ p.tags, IsAccepted tag := by
    rw [← hfixed]
    refine .same fun p hp => ?_
    rw [htags p (meansOf_of_part item p hp)]
    exact List.forall_mem_nil _
  cases item with
  | step item => exact (filters_step h).map fun _ => Iff.rfl
  | request item => exact (filters_request h).map fun _ => Iff.rfl
  | «section» position kind items =>
    cases kind
    all_goals exact hsame (fun p hp => by cases hp; rfl) rfl
  | _ => exact hsame (fun p hp => by cases hp; rfl) rfl

/-- A document has the tags of its parts. -/
theorem accepted_gather {parts : List Part} {d : Document} (h : gather parts = .ok d) :
    (∀ tag ∈ d.tags, IsAccepted tag) ↔ ∀ p ∈ parts, ∀ tag ∈ p.tags, IsAccepted tag := by
  obtain ⟨id, -, rfl⟩ := gather_eq_ok.1 h
  rw [Document.tags, List.forall_mem_append, List.forall_mem_flatMap, List.forall_mem_flatMap]
  simp only [List.mem_filterMap]
  constructor
  · intro h p hp
    cases p with
    | step s => exact h.1 s ⟨_, hp, rfl⟩
    | request r => exact h.2 r ⟨_, hp, rfl⟩
    | _ => exact List.forall_mem_nil _
  · intro h
    refine ⟨?_, ?_⟩
    · rintro s ⟨p, hp, hs⟩
      cases p with
      | step _ =>
        cases hs
        exact h _ hp
      | _ => cases hs
    · rintro r ⟨p, hp, hr⟩
      cases p with
      | request _ =>
        cases hr
        exact h _ hp
      | _ => cases hr

end OfOutline

/-! ## Documents -/

/-- With validation a text gives the document that it gives without, if all tags of that document
are accepted. -/
theorem Document.ofText_validating {text : List Char} {d : Document} :
    ofText true text = .ok d ↔ ofText false text = .ok d ∧ ∀ tag ∈ d.tags, IsAccepted tag := by
  rw [ofText_eq_ok, ofText_eq_ok]
  have hfilters {outline : Source.Outline} (hread : Source.Outline.read text = .ok outline) :
      Filters (ofOutline true outline) (ofOutline false outline) fun d =>
        ∀ tag ∈ d.tags, IsAccepted tag :=
    (Filters.mapM fun item hitem =>
      OfOutline.filters_part (Source.Outline.lexed_of_read hread item hitem)).bind
        fun parts d hgather => OfOutline.accepted_gather hgather
  constructor
  · rintro ⟨outline, hread, hdocument⟩
    obtain ⟨hdocument, hall⟩ := (hfilters hread d).1 hdocument
    exact ⟨⟨outline, hread, hdocument⟩, hall⟩
  · rintro ⟨⟨outline, hread, hdocument⟩, hall⟩
    exact ⟨outline, hread, (hfilters hread d).2 ⟨hdocument, hall⟩⟩

end CommandSequence
