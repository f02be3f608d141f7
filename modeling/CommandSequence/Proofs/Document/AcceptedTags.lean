import CommandSequence.Proofs.Document.RoundTrips
import CommandSequence.Proofs.Document.Validation
import CommandSequence.Proofs.Document.Writable
import CommandSequence.Proofs.Time.Tag

/-!
# Accepted tags in text

A tag that one of the grammars of its letter accepts can be written into text, and read back with
validation, just if it is plain: in ASCII digits, on one line, and without the mark of a clock where
the clock has no day (`tags_of_write`). Such a tag has the form of its terminal. Any other is
written as well, and the text then says something else or nothing.
-/

namespace CommandSequence

/-! ## Tags and what they are written as -/

/-- An accepted, plain tag is read back. -/
theorem tagReadable_of_isAccepted {kind : Source.Terminal} {letter : Char} {tag : String}
    (hletter : kind.tagLetter? = some letter) (hkind : kind ≠ .commandComplete)
    (haccepted : IsAccepted (letter, tag)) (hplain : IsPlainTag tag.toList) (validate : Bool) :
    TagReadable validate kind tag.toList := by
  obtain ⟨grammar, hgrammar, haccepts⟩ := haccepted
  refine ⟨isTagBody_of_accepts hletter hkind hgrammar haccepts hplain, ?_⟩
  intro _ _ found hfound
  rw [hletter] at hfound
  cases hfound
  exact List.any_eq_true.2 ⟨grammar, hgrammar, haccepts⟩

/-- Without a tag there is nothing to read back. -/
theorem tagReadable_nil (validate : Bool) (kind : Source.Terminal) : TagReadable validate kind [] :=
  ⟨rfl, fun _ h => absurd rfl h⟩

namespace Time

/-- A time has no tag, or the one that stands after its letter. -/
theorem tags_cases (t : Time) : t.tags = [] ∧ t.body = [] ∨
    ∃ letter tag, t.terminal.tagLetter? = some letter ∧ t.terminal ≠ .commandComplete ∧
      t.tags = [(letter, tag)] ∧ t.body = tag.toList := by
  cases t with
  | commandComplete => exact .inl ⟨rfl, rfl⟩
  | absolute tag =>
    cases tag with
    | none => exact .inl ⟨rfl, rfl⟩
    | some tag => exact .inr ⟨'A', tag, rfl, nofun, rfl, rfl⟩
  | commandRelative tag =>
    cases tag with
    | none => exact .inl ⟨rfl, rfl⟩
    | some tag => exact .inr ⟨'R', tag, rfl, nofun, rfl, rfl⟩
  | epochRelative tag =>
    cases tag with
    | none => exact .inl ⟨rfl, rfl⟩
    | some tag => exact .inr ⟨'E', tag, rfl, nofun, rfl, rfl⟩

theorem tagged_of_isAccepted {t : Time} (haccepted : ∀ tag ∈ t.tags, IsAccepted tag)
    (hplain : ∀ tag ∈ t.tags, IsPlainTag tag.2.toList) (validate : Bool) :
    t.Tagged (TagReadable validate) := by
  unfold Tagged
  rcases t.tags_cases with ⟨-, hbody⟩ | ⟨letter, tag, hletter, hkind, htags, hbody⟩
  · rw [hbody]
    exact tagReadable_nil validate _
  · rw [htags] at haccepted hplain
    rw [hbody]
    exact tagReadable_of_isAccepted hletter hkind (haccepted _ (List.mem_singleton_self _))
      (hplain _ (List.mem_singleton_self _)) validate

theorem isPlainTag_of_tagged {t : Time} {validate : Bool} (h : t.Tagged (TagReadable validate)) :
    ∀ tag ∈ t.tags, IsPlainTag tag.2.toList := by
  rcases t.tags_cases with ⟨htags, -⟩ | ⟨letter, tag, -, -, htags, hbody⟩
  · rw [htags]
    exact List.forall_mem_nil _
  · rw [htags]
    refine List.forall_mem_singleton.2 ?_
    rw [← hbody]
    exact isPlainTag_of_isTagBody h.1

end Time

namespace GroundEpoch

theorem tagged_of_isAccepted {g : GroundEpoch} (haccepted : ∀ tag ∈ g.tags, IsAccepted tag)
    (hplain : ∀ tag ∈ g.tags, IsPlainTag tag.2.toList) (validate : Bool) :
    g.Tagged (TagReadable validate) := by
  obtain ⟨name, delta⟩ := g
  cases delta with
  | none => exact tagReadable_nil validate _
  | some delta =>
    have hletter : Source.Terminal.groundEpoch.tagLetter? = some ('G' : Char) := rfl
    exact tagReadable_of_isAccepted hletter nofun (haccepted _ (List.mem_singleton_self _))
      (hplain _ (List.mem_singleton_self _)) validate

theorem isPlainTag_of_tagged {g : GroundEpoch} {validate : Bool}
    (h : g.Tagged (TagReadable validate)) : ∀ tag ∈ g.tags, IsPlainTag tag.2.toList := by
  obtain ⟨name, delta⟩ := g
  cases delta with
  | none => exact List.forall_mem_nil _
  | some delta =>
    refine List.forall_mem_singleton.2 ?_
    exact isPlainTag_of_isTagBody h.1

end GroundEpoch

/-! ## Requests that are timed once -/

/-- A request does not have both a time and a ground epoch. -/
def Request.IsTimedOnce (r : Request) : Prop :=
  r.time = none ∨ r.groundEpoch = none

namespace OfOutline

/-- A request that is read is timed once. -/
theorem isTimedOnce_request {validate : Bool} (item : Source.RequestItem) :
    Yields (request validate item) Request.IsTimedOnce := by
  intro r h
  obtain ⟨moment, name, steps, notes, -, -, -, -, -, rfl⟩ := request_eq_ok.1 h
  cases moment with
  | inl t => exact .inr rfl
  | inr g => exact .inl rfl

/-- The requests of a document are those of its items. -/
theorem exists_requestItem {validate : Bool} {outline : Source.Outline} {d : Document}
    (h : Document.ofOutline validate outline = .ok d) :
    ∀ r ∈ d.requests, ∃ item, request validate item = .ok r := by
  obtain ⟨parts, hparts, hgather⟩ := bind_eq_ok.1 h
  obtain ⟨id, -, rfl⟩ := gather_eq_ok.1 hgather
  have hread : ∀ p ∈ parts, ∀ r, p.request? = some r → ∃ item, request validate item = .ok r := by
    refine forall_mem_of_mapM hparts fun item _ p hp r hr => ?_
    cases meansOf_of_part item p hp with
    | request h =>
      cases hr
      exact ⟨_, h⟩
    | _ => cases hr
  intro r hr
  obtain ⟨p, hp, hr⟩ := List.mem_filterMap.1 hr
  exact hread p hp r hr

end OfOutline

/-! ## The tags of a document that is read back -/

theorem Request.tags_canon {r : Request} (h : r.IsTimedOnce) : r.canon.tags = r.tags := by
  have hepoch : r.canon.groundEpoch = r.groundEpoch := by
    rcases h with h | h
    · simp [canon, h]
    · simp [canon, h]
  have hsteps : r.canon.steps.flatMap Step.tags = r.steps.flatMap Step.tags := List.flatMap_map ..
  rw [tags, hepoch, hsteps]
  rfl

namespace Document

variable {d : Document} {validate : Bool} {text : List Char}

/-- Rereading keeps all tags, if no request hides one behind its time. -/
theorem tags_reread (h : ∀ r ∈ d.requests, r.IsTimedOnce) : d.reread.tags = d.tags := by
  have hsteps : d.reread.steps.flatMap Step.tags = d.steps.flatMap Step.tags := List.flatMap_map ..
  have hrequests : d.reread.requests.flatMap Request.tags = d.requests.flatMap Request.tags := by
    refine (List.flatMap_map ..).trans ?_
    exact List.flatMap_congr fun r hr => Request.tags_canon (h r hr)
  rw [tags, hsteps, hrequests, tags]

/-- All tags of a document in the text of which they are accepted and plain are read back. -/
theorem tagged_of_isAccepted (haccepted : ∀ tag ∈ d.tags, IsAccepted tag)
    (hplain : ∀ tag ∈ d.tags, IsPlainTag tag.2.toList) (validate : Bool) :
    d.Tagged (TagReadable validate) := by
  have htime {t : Time} (h : ∀ tag ∈ t.tags, tag ∈ d.tags) : t.Tagged (TagReadable validate) :=
    Time.tagged_of_isAccepted (fun tag htag => haccepted tag (h tag htag))
      (fun tag htag => hplain tag (h tag htag)) validate
  have hstep {s : Step} (hs : s ∈ d.steps) : ∀ tag ∈ s.tags, tag ∈ d.tags := fun tag htag =>
    List.mem_append_left _ (List.mem_flatMap.2 ⟨s, hs, htag⟩)
  have hrequest {r : Request} (hr : r ∈ d.requests) : ∀ tag ∈ r.tags, tag ∈ d.tags :=
    fun tag htag => List.mem_append_right _ (List.mem_flatMap.2 ⟨r, hr, htag⟩)
  refine ⟨fun s hs => htime (hstep hs), fun r hr => ⟨fun t ht => ?_, fun _ g hg => ?_, ?_⟩⟩
  · refine htime fun tag htag => hrequest hr tag ?_
    simp [Request.tags, ht, htag]
  · have hsub : ∀ tag ∈ g.tags, tag ∈ d.tags := by
      intro tag htag
      refine hrequest hr tag ?_
      simp [Request.tags, hg, htag]
    exact GroundEpoch.tagged_of_isAccepted (fun tag htag => haccepted tag (hsub tag htag))
      (fun tag htag => hplain tag (hsub tag htag)) validate
  · intro s hs
    refine htime fun tag htag => hrequest hr tag ?_
    exact List.mem_append_right _ (List.mem_flatMap.2 ⟨s, hs, htag⟩)

/-- All tags of a document that is read are plain. -/
theorem isPlainTag_of_ofText (h : ofText validate text = .ok d) :
    ∀ tag ∈ d.tags, IsPlainTag tag.2.toList := by
  have htagged := (readable_of_ofText h).tagged
  obtain ⟨outline, -, hdocument⟩ := ofText_eq_ok.1 h
  have hsteps {steps : List Step} (h : ∀ s ∈ steps, s.time.Tagged (TagReadable validate)) :
      ∀ tag ∈ steps.flatMap Step.tags, IsPlainTag tag.2.toList :=
    List.forall_mem_flatMap.2 fun s hs => Time.isPlainTag_of_tagged (h s hs)
  refine List.forall_mem_append.2 ⟨hsteps htagged.steps, List.forall_mem_flatMap.2 fun r hr => ?_⟩
  obtain ⟨item, hitem⟩ := OfOutline.exists_requestItem hdocument r hr
  have hrequest := htagged.requests r hr
  refine List.forall_mem_append.2 ⟨List.forall_mem_append.2 ⟨?_, ?_⟩, hsteps hrequest.steps⟩
  · refine List.forall_mem_flatMap.2 fun t ht => ?_
    exact Time.isPlainTag_of_tagged (hrequest.time t (Option.mem_toList.1 ht))
  · refine List.forall_mem_flatMap.2 fun g hg => ?_
    have hepoch := Option.mem_toList.1 hg
    -- what is known of a ground epoch beside a time is nothing, but no request is read with both
    rcases OfOutline.isTimedOnce_request item r hitem with htime | hnone
    · exact GroundEpoch.isPlainTag_of_tagged (hrequest.groundEpoch htime g hepoch)
    · rw [hnone] at hepoch
      cases hepoch

/-- The accepted tags of a document that can be written come back from its text, with validation,
just if they are plain. -/
theorem tags_of_write (indent : Json.Indent) (hvalid : d.Valid)
    (hshort : ∀ s ∈ d.valueTexts, SpellsShort s) (hwritable : d.Writable)
    (honce : ∀ r ∈ d.requests, r.IsTimedOnce) (haccepted : ∀ tag ∈ d.tags, IsAccepted tag) :
    (Succeeds (d.write indent) fun text =>
      Succeeds (ofText true text) fun d' => d'.tags = d.tags) ↔
    ∀ tag ∈ d.tags, IsPlainTag tag.2.toList := by
  constructor
  · rintro ⟨text, -, d', hread, htags⟩
    rw [← htags]
    exact isPlainTag_of_ofText hread
  · intro hplain
    obtain ⟨text, hwrite⟩ := (decides_write hvalid hshort indent).result hwritable
    have hread := ofText_write hvalid (tagged_of_isAccepted haccepted hplain true) hwrite
    exact ⟨text, hwrite, d.reread, hread, tags_reread honce⟩

/-- A document of commands at the given times, and of a request with such a command that is offset
from a ground epoch. -/
def timed (times : List Time) (delta : Option String) : Document :=
  let step (t : Time) : Step := ⟨t, .command "NOOP", [], none, [], []⟩
  let request : Request :=
    { name := "pass", steps := [step .commandComplete], time := none,
      groundEpoch := some ⟨some "AOS", delta⟩, description := none, metadata := [] }
  ⟨"demo", [], [], [], times.map step, [], [], if delta.isSome then [request] else []⟩

theorem valid_timed {times : List Time} {delta : Option String} (htimes : ∀ t ∈ times, t.Valid)
    (hdelta : delta ≠ some ("" : String)) : (timed times delta).Valid := by
  have hmetadata : Metadata.Valid [] := .object Dictionary.distinct_nil (List.forall_mem_nil _)
  have hstep {t : Time} (ht : t.Valid) : Step.Valid ⟨t, .command "NOOP", [], none, [], []⟩ :=
    ⟨ht, (by decide : isIdentifier (String.toList "NOOP") = true), List.forall_mem_nil _, hmetadata,
      List.forall_mem_nil _⟩
  have hcomplete : Time.commandComplete.Valid := (Option.some_ne_none _).symm
  refine ⟨hmetadata, List.forall_mem_nil _, List.forall_mem_nil _,
    List.forall_mem_map.2 fun t ht => hstep (htimes t ht), List.forall_mem_nil _,
    List.forall_mem_nil _, ?_⟩
  intro r hr
  cases delta with
  | none => cases hr
  | some delta =>
    cases List.mem_singleton.1 hr
    have hepoch : GroundEpoch.Valid ⟨some "AOS", some delta⟩ :=
      ⟨show some ("AOS" : String) ≠ some "" by decide,
        fun name hname => Option.some.inj hname ▸ rfl, hdelta⟩
    exact ⟨List.cons_ne_nil _ _, List.forall_mem_singleton.2 (hstep hcomplete), nofun,
      fun g hg => Option.some.inj hg ▸ hepoch, hmetadata⟩

/-- A tag after each letter. -/
def everyTag : Document :=
  timed [.absolute (some "2024-045T12:00:00.250"), .commandRelative (some "001T00:10:00"),
    .epochRelative (some "-15.25")] (some "+00:30:.5")

theorem tags_of_write_everyTag :
    everyTag.Valid ∧ (∀ s ∈ everyTag.valueTexts, SpellsShort s) ∧ everyTag.Writable ∧
      (∀ r ∈ everyTag.requests, r.IsTimedOnce) ∧
      everyTag.tags.map Prod.fst = [('A' : Char), 'R', 'E', 'G'] ∧
      (∀ tag ∈ everyTag.tags, IsAccepted tag) ∧
      Succeeds (everyTag.write (some 2)) fun text =>
        Succeeds (ofText true text) fun d' => d'.tags = everyTag.tags := by
  have hvalid : everyTag.Valid := valid_timed (by simp [Time.Valid, Time.tag?]) (by decide)
  have hshort : ∀ s ∈ everyTag.valueTexts, SpellsShort s := List.forall_mem_nil _
  have hwritable : everyTag.Writable := by
    refine ⟨List.forall_mem_singleton.2 fun hboth => ?_, List.forall_mem_nil _,
      List.forall_mem_nil _, List.forall_mem_nil _, List.forall_mem_nil _⟩
    cases hboth.2
  have honce : ∀ r ∈ everyTag.requests, r.IsTimedOnce := List.forall_mem_singleton.2 (.inl rfl)
  have haccepted : ∀ tag ∈ everyTag.tags, IsAccepted tag := by decide +kernel
  have hplain : ∀ tag ∈ everyTag.tags, IsPlainTag tag.2.toList := by decide +kernel
  exact ⟨hvalid, hshort, hwritable, honce, by decide, haccepted,
    (tags_of_write (some 2) hvalid hshort hwritable honce haccepted).2 hplain⟩

/-- Times whose tags are accepted and not plain: the mark of a clock first, a digit of another
script, a line feed at the end. -/
def lostTimes : List Time :=
  [.commandRelative (some "T00:10:00"), .absolute (some "2024-04\u0665T12:00:00"),
    .epochRelative (some "15\n")]

/-- Each of these tags is accepted and written, and does not come back. -/
theorem lost_of_mem_lostTimes {t : Time} (ht : t ∈ lostTimes) : (timed [t] none).Valid ∧
    (∀ tag ∈ (timed [t] none).tags, IsAccepted tag) ∧
    ∃ text, (timed [t] none).write (some 2) = .ok text ∧
      ¬Succeeds (ofText true text) fun d' => d'.tags = (timed [t] none).tags := by
  have hlost : ∀ t ∈ lostTimes, ((timed [t] none).write (some 2)).toOption.any (fun text =>
      !(ofText true text).toOption.any fun d' => d'.tags == (timed [t] none).tags) = true := by
    decide +kernel
  have haccepted : ∀ t ∈ lostTimes, ∀ tag ∈ (timed [t] none).tags, IsAccepted tag := by
    decide +kernel
  have hfilled : ∀ t ∈ lostTimes, t.Valid := by simp [lostTimes, Time.Valid, Time.tag?]
  have hvalid := valid_timed (List.forall_mem_singleton.2 (hfilled t ht))
    (Option.some_ne_none _).symm
  obtain ⟨text, hwrite, hread⟩ := succeeds_of_any (hlost t ht)
  refine ⟨hvalid, haccepted t ht, text, hwrite, ?_⟩
  rintro ⟨d', hd', htags⟩
  rw [hd'] at hread
  simp [Except.toOption, htags] at hread

/-- A clock without a day is accepted and written, and does not come back. -/
theorem accepted_tag_lost : (timed [.commandRelative (some "T00:10:00")] none).Valid ∧
    (∀ tag ∈ (timed [.commandRelative (some "T00:10:00")] none).tags, IsAccepted tag) ∧
    ∃ text, (timed [.commandRelative (some "T00:10:00")] none).write (some 2) = .ok text ∧
      ¬Succeeds (ofText true text) fun d' =>
        d'.tags = (timed [.commandRelative (some "T00:10:00")] none).tags :=
  lost_of_mem_lostTimes (List.mem_cons_self ..)

end Document

end CommandSequence
