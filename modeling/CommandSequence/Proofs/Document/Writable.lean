import CommandSequence.Document.ToText
import CommandSequence.Proofs.Document.OfJson

/-!
# What can be written as sequence text

A valid document has a text unless it holds something that sequence text cannot carry: a request
without timing, a description of more than one line, a number that is not finite, or an allowable
value that would not read back as itself. Each writer decides about its own part (`Decides`), and
what a document cannot be written for is gathered from all its parts: `Document.descriptions`,
`Document.numbers`, `Document.writtenEntries` and `Document.valueTexts`. So writing fails exactly
for one of these (`Document.write_fails_iff`), and then with an error that has a wording.
-/

namespace CommandSequence

/-- The error is one of those that have a wording. -/
def WriteError.IsWorded (e : WriteError) : Prop :=
  e.message?.isSome = true

/-- The text stays on its line. -/
def IsInline (s : String) : Prop :=
  ('\n' : Char) ∉ s.toList ∧ ('\r' : Char) ∉ s.toList

/-! ## Numbers, metadata and models -/

theorem Number.decides_literal {n : Number} (h : n.Fits false) :
    Decides WriteError.IsWorded n.literal (n.isFinite = true) := by
  cases n with
  | int n =>
    rw [literal, if_pos h.1]
    exact (Decides.ok _ _).congr (iff_of_true trivial rfl)
  | float x =>
    by_cases hx : x.isFinite = true
    · rw [literal, if_pos hx]
      exact (Decides.ok _ _).congr (iff_of_true trivial hx)
    · rw [literal, if_neg hx]
      exact ⟨fun h => absurd h hx, fun _ => ⟨_, rfl, rfl⟩⟩

theorem Metadata.decides_writeEntry {value : Json.Value} (h : value.Sound (Number.Fits false))
    (indent : Json.Indent) (key : String) :
    Decides WriteError.IsWorded (Metadata.writeEntry indent key value) (value.nonFinite = []) := by
  unfold Metadata.writeEntry
  rw [h.unwritable_eq fun _ hn => hn.1]
  cases hvalue : value.nonFinite with
  | nil => exact (Decides.ok _ _).congr (iff_of_true trivial rfl)
  | cons x rest => exact ⟨fun h => absurd h (List.cons_ne_nil x rest), fun _ => ⟨_, rfl, rfl⟩⟩

/-- Metadata whose integers fit can be written if every number in them is finite. -/
theorem Metadata.decides_write {m : Metadata}
    (h : ∀ entry ∈ m, entry.2.Sound (Number.Fits false)) (indent : Json.Indent) :
    Decides WriteError.IsWorded (m.write indent) (∀ entry ∈ m, entry.2.nonFinite = []) :=
  (Decides.mapM fun entry hentry =>
    Metadata.decides_writeEntry (h entry hentry) indent entry.1).bind_ok

/-- The number that a model gives, if it gives one. -/
def ModelValue.number? : ModelValue → Option Number
  | .number n => some n
  | _ => none

/-- The numbers that models give. -/
def Model.numbers (models : List Model) : List Number :=
  models.filterMap fun m => m.value.number?

theorem Model.decides_write {m : Model} (h : m.value.Valid) :
    Decides WriteError.IsWorded m.write (∀ n, m.value.number? = some n → n.isFinite = true) := by
  have hvalue : Decides WriteError.IsWorded m.value.write
      (∀ n, m.value.number? = some n → n.isFinite = true) := by
    cases hgiven : m.value with
    | number n =>
      rw [hgiven] at h
      refine (Number.decides_literal h).congr ⟨fun hn k hk => ?_, fun hn => hn n rfl⟩
      cases hk
      exact hn
    | boolean b => exact (Decides.ok _ _).congr (iff_of_true trivial (by simp [ModelValue.number?]))
    | string s => exact (Decides.ok _ _).congr (iff_of_true trivial (by simp [ModelValue.number?]))
  exact hvalue.bind_ok

theorem Model.decides_writeAll {models : List Model} (h : ∀ m ∈ models, m.value.Valid) :
    Decides WriteError.IsWorded (models.mapM Model.write)
      (∀ n ∈ Model.numbers models, n.isFinite = true) := by
  refine (Decides.mapM fun m hm => Model.decides_write (h m hm)).congr ?_
  unfold Model.numbers
  constructor
  · intro hall n hn
    obtain ⟨m, hm, hgiven⟩ := List.mem_filterMap.1 hn
    exact hall m hm n hgiven
  · intro hall m hm n hgiven
    exact hall n (List.mem_filterMap.2 ⟨m, hm, hgiven⟩)

/-! ## Lines -/

theorem ToText.decides_ending (description : Option String) :
    Decides WriteError.IsWorded (ToText.ending description) (∀ s, description = some s →
      IsInline s) := by
  cases description with
  | none => exact (Decides.ok _ _).congr (iff_of_true trivial nofun)
  | some s =>
    have hsome : (∀ t, some s = some t → IsInline t) ↔ IsInline s :=
      ⟨fun h => h s rfl, fun h t ht => Option.some.inj ht ▸ h⟩
    refine Decides.congr ?_ hsome.symm
    unfold ToText.ending IsInline
    dsimp only
    by_cases hempty : s.isEmpty = true
    · have hnil : s.toList = [] := String.toList_eq_nil_iff.2 (String.isEmpty_iff.1 hempty)
      rw [if_pos hempty, hnil]
      exact (Decides.ok _ _).congr (iff_of_true trivial ⟨List.not_mem_nil, List.not_mem_nil⟩)
    · rw [if_neg hempty]
      by_cases hbreak : (s.toList.contains '\n' || s.toList.contains '\r') = true
      · rw [if_pos hbreak]
        refine ⟨fun h => absurd hbreak ?_, fun _ => ⟨_, rfl, rfl⟩⟩
        simp [h.1, h.2]
      · rw [if_neg hbreak]
        refine (Decides.ok _ _).congr (iff_of_true trivial ?_)
        simpa [not_or] using hbreak

/-- Every argument of a valid document can be written: its numbers are finite. -/
theorem BaseArgument.decides_write {a : BaseArgument} (h : a.Valid) :
    Decides WriteError.IsWorded a.write True := by
  cases a with
  | number n name =>
    exact (Number.decides_literal h.2).congr (iff_of_true h.1 trivial)
  | string s name => exact .ok _ _
  | boolean b name => exact .ok _ _
  | symbol s name => exact .ok _ _
  | hex s name => exact .ok _ _

theorem Argument.decides_write {a : Argument} (h : a.Valid) :
    Decides WriteError.IsWorded a.write True := by
  cases a with
  | base a => exact BaseArgument.decides_write h
  | repetition sets name =>
    have hitems : ∀ a ∈ sets.flatten, Decides WriteError.IsWorded a.write True := by
      intro a ha
      obtain ⟨set, hset, ha⟩ := List.mem_flatten.1 ha
      exact BaseArgument.decides_write (h set hset a ha)
    exact (Decides.mapM hitems).bind_ok.congr (iff_of_true (fun _ _ => trivial) trivial)

theorem Argument.decides_writeAll {arguments : List Argument} (h : ∀ a ∈ arguments, a.Valid) :
    Decides WriteError.IsWorded (Argument.writeAll arguments) True :=
  (Decides.mapM fun a ha => Argument.decides_write (h a ha)).bind_ok.congr
    (iff_of_true (fun _ _ => trivial) trivial)

/-! ## Steps, requests and commands -/

theorem Action.decides_writeDirectives {a : Action} (h : a.Valid) :
    Decides WriteError.IsWorded a.writeDirectives True := by
  cases a with
  | command stem => exact .ok _ _
  | ground kind name => exact .ok _ _
  | call kind sequence engine epoch =>
    unfold Action.writeDirectives
    cases engine with
    | none => exact .ok _ _
    | some n =>
      obtain ⟨text, htext⟩ := (Number.decides_literal (h n rfl)).result rfl
      simp only [htext]
      exact .ok _ _

/-- A step can be written if its description stays on its line and its numbers are finite. -/
structure Step.Writable (s : Step) : Prop where
  description : ∀ t, s.description = some t → IsInline t
  metadata : ∀ entry ∈ s.metadata, entry.2.nonFinite = []
  models : ∀ n ∈ Model.numbers s.models, n.isFinite = true

theorem Step.decides_write {s : Step} (h : s.Valid) (indent : Json.Indent) :
    Decides WriteError.IsWorded (s.write indent) s.Writable := by
  refine ((Action.decides_writeDirectives h.action).bind fun directives =>
    (Argument.decides_writeAll h.arguments).bind fun arguments =>
    (ToText.decides_ending s.description).bind fun ending =>
    (Metadata.decides_write h.metadata.sound indent).bind fun metadata =>
    (Model.decides_writeAll h.models).bind_ok).congr ?_
  exact ⟨fun ⟨_, _, hending, hmetadata, hmodels⟩ => ⟨hending, hmetadata, hmodels⟩,
    fun hs => ⟨trivial, trivial, hs.description, hs.metadata, hs.models⟩⟩

/-- The request has a time or a ground epoch. -/
def Request.IsTimed (r : Request) : Prop :=
  ¬(r.time = none ∧ r.groundEpoch = none)

theorem Request.decides_writeTiming (r : Request) :
    Decides WriteError.IsWorded r.writeTiming r.IsTimed := by
  unfold Request.writeTiming Request.IsTimed
  split
  · next htime => exact (Decides.ok _ _).congr (iff_of_true trivial (by simp [htime]))
  · next hepoch => exact (Decides.ok _ _).congr (iff_of_true trivial (by simp [hepoch]))
  · next htime hepoch => exact ⟨fun h => absurd ⟨htime, hepoch⟩ h, fun _ => ⟨_, rfl, rfl⟩⟩

/-- A request can be written if it is timed, its description stays on its line, and its steps and
metadata can be written. -/
structure Request.Writable (r : Request) : Prop where
  timed : r.IsTimed
  description : ∀ t, r.description = some t → IsInline t
  steps : ∀ s ∈ r.steps, s.Writable
  metadata : ∀ entry ∈ r.metadata, entry.2.nonFinite = []

theorem Request.decides_write {r : Request} (h : r.Valid) (indent : Json.Indent) :
    Decides WriteError.IsWorded (r.write indent) r.Writable := by
  refine (r.decides_writeTiming.bind fun timing =>
    (ToText.decides_ending r.description).bind fun ending =>
    (Decides.mapM fun s hs => Step.decides_write (h.steps s hs) indent).bind fun steps =>
    (Metadata.decides_write h.metadata.sound indent).bind_ok).congr ?_
  exact ⟨fun ⟨htimed, hending, hsteps, hmetadata⟩ => ⟨htimed, hending, hsteps, hmetadata⟩,
    fun hr => ⟨hr.timed, hr.description, hr.steps, hr.metadata⟩⟩

/-- A command of a section can be written if its description stays on its line and the numbers of
its metadata are finite. -/
def IsWritableCommand (description : Option String) (metadata : Metadata) : Prop :=
  (∀ t, description = some t → IsInline t) ∧ ∀ entry ∈ metadata, entry.2.nonFinite = []

theorem ImmediateCommand.decides_write {c : ImmediateCommand} (h : c.Valid) (indent : Json.Indent) :
    Decides WriteError.IsWorded (c.write indent) (IsWritableCommand c.description c.metadata) :=
  ((Argument.decides_writeAll h.arguments).bind fun _ =>
    (ToText.decides_ending c.description).bind fun _ =>
    (Metadata.decides_write h.metadata.sound indent).bind_ok).congr (and_iff_right trivial)

theorem HardwareCommand.decides_write {c : HardwareCommand} (h : c.Valid) (indent : Json.Indent) :
    Decides WriteError.IsWorded (c.write indent) (IsWritableCommand c.description c.metadata) :=
  (ToText.decides_ending c.description).bind fun _ =>
    (Metadata.decides_write h.metadata.sound indent).bind_ok

/-! ## Declarations -/

/-- The text, if it spells an integer, has no more digits than can be read. -/
def SpellsShort (s : String) : Prop :=
  Number.isIntegerNumeral (Number.dropFinalNewline s.toList) = true →
    (Number.splitSign (Number.dropFinalNewline s.toList)).2.length ≤ Decimal.digitLimit

/-- A text that a value list cannot carry, or that would read back as a number. -/
def IsUnlistable (s : String) : Prop :=
  (∃ c ∈ s.toList, c = ',' ∨ c = '"' ∨ c = '\\' ∨ c = '\r' ∨ c = '\n') ∨
    ∃ n, Number.read? s.toList = .ok (some n)

theorem Number.exists_read? {text : List Char}
    (h : isIntegerNumeral (dropFinalNewline text) = true →
      (splitSign (dropFinalNewline text)).2.length ≤ Decimal.digitLimit) :
    ∃ found, read? text = .ok found := by
  unfold read?
  dsimp only
  split
  · next hinteger =>
    have hvalue : Decimal.value? (splitSign (dropFinalNewline text)).2 =
        some (Decimal.value (splitSign (dropFinalNewline text)).2) := if_pos (h hinteger)
    simp only [readInt, hvalue]
    exact ⟨_, rfl⟩
  · split
    · exact ⟨_, rfl⟩
    · exact ⟨_, rfl⟩

/-- The number that an allowable value is, if it is one. -/
def AllowableValue.number? : AllowableValue → Option Number
  | .number n => some n
  | .text _ => none

/-- The text that an allowable value is, if it is one. -/
def AllowableValue.text? : AllowableValue → Option String
  | .number _ => none
  | .text s => some s

/-- An allowable value can be written if it is a finite number or a text that a list can carry. -/
structure AllowableValue.Writable (v : AllowableValue) : Prop where
  number : ∀ n, v.number? = some n → n.isFinite = true
  text : ∀ s, v.text? = some s → ¬IsUnlistable s

theorem AllowableValue.isUnsafe_iff (s : String) : s.toList.any isUnsafe = true ↔
    ∃ c ∈ s.toList, c = ',' ∨ c = '"' ∨ c = '\\' ∨ c = '\r' ∨ c = '\n' := by
  simp only [List.any_eq_true, isUnsafe, Bool.or_eq_true, beq_iff_eq, or_assoc]

theorem AllowableValue.decides_write {v : AllowableValue} (h : v.Valid)
    (hshort : ∀ s, v.text? = some s → SpellsShort s) :
    Decides WriteError.IsWorded v.write v.Writable := by
  cases v with
  | number n =>
    refine (Number.decides_literal h).congr
      ⟨fun hn => ⟨?_, by simp [AllowableValue.text?]⟩, fun hv => hv.number n rfl⟩
    rintro _ ⟨⟩
    exact hn
  | text s =>
    have hs : AllowableValue.Writable (.text s) ↔ ¬IsUnlistable s := by
      refine ⟨fun hv => hv.text s rfl, fun hs => ⟨by simp [AllowableValue.number?], ?_⟩⟩
      rintro _ ⟨⟩
      exact hs
    refine Decides.congr ?_ hs.symm
    simp only [AllowableValue.write]
    by_cases hunsafe : s.toList.any isUnsafe = true
    · rw [if_pos hunsafe]
      exact ⟨fun h => absurd (.inl ((isUnsafe_iff s).1 hunsafe)) h, fun _ => ⟨_, rfl, rfl⟩⟩
    · rw [if_neg hunsafe]
      obtain ⟨found, hread⟩ := Number.exists_read? (hshort s rfl)
      rw [hread]
      cases found with
      | some n => exact ⟨fun h => absurd (.inr ⟨n, hread⟩) h, fun _ => ⟨_, rfl, rfl⟩⟩
      | none =>
        refine (Decides.ok _ _).congr (iff_of_true trivial ?_)
        rintro (hchar | ⟨n, hn⟩)
        · exact hunsafe ((isUnsafe_iff s).2 hchar)
        · rw [hread] at hn
          cases hn

theorem Range.decides_write {r : Range} (h : r.Valid) :
    Decides WriteError.IsWorded r.write (r.min.isFinite = true ∧ r.max.isFinite = true) :=
  (Number.decides_literal h.min).bind fun _ => (Number.decides_literal h.max).bind_ok

/-- The numbers of a declaration: the bounds of its ranges, and its allowable values. -/
def Declaration.numbers (p : Declaration) : List Number :=
  p.ranges.flatMap (fun r => [r.min, r.max]) ++ p.values.filterMap AllowableValue.number?

/-- The texts among the allowable values of a declaration. -/
def Declaration.valueTexts (p : Declaration) : List String :=
  p.values.filterMap AllowableValue.text?

/-- A declaration can be written if its numbers are finite and a list can carry its texts. -/
structure Declaration.Writable (p : Declaration) : Prop where
  numbers : ∀ n ∈ p.numbers, n.isFinite = true
  texts : ∀ s ∈ p.valueTexts, ¬IsUnlistable s

theorem Declaration.writable_iff (p : Declaration) :
    (∀ r ∈ p.ranges, r.min.isFinite = true ∧ r.max.isFinite = true) ∧
      (∀ v ∈ p.values, v.Writable) ↔ p.Writable := by
  constructor
  · rintro ⟨hranges, hvalues⟩
    refine ⟨List.forall_mem_append.2 ⟨?_, ?_⟩, ?_⟩
    · intro n hn
      obtain ⟨r, hr, hn⟩ := List.mem_flatMap.1 hn
      rcases List.mem_cons.1 hn with rfl | hn
      · exact (hranges r hr).1
      · rw [List.mem_singleton.1 hn]
        exact (hranges r hr).2
    · intro n hn
      obtain ⟨v, hv, hgiven⟩ := List.mem_filterMap.1 hn
      exact (hvalues v hv).number n hgiven
    · intro s hs
      obtain ⟨v, hv, hgiven⟩ := List.mem_filterMap.1 hs
      exact (hvalues v hv).text s hgiven
  · intro hp
    obtain ⟨hranges, hvalues⟩ := List.forall_mem_append.1 hp.numbers
    refine ⟨fun r hr => ⟨?_, ?_⟩, fun v hv => ⟨fun n hn => ?_, fun s hs => ?_⟩⟩
    · exact hranges _ (List.mem_flatMap.2 ⟨r, hr, List.mem_cons_self⟩)
    · exact hranges _ (List.mem_flatMap.2 ⟨r, hr, List.mem_cons_of_mem _ List.mem_cons_self⟩)
    · exact hvalues n (List.mem_filterMap.2 ⟨v, hv, hn⟩)
    · exact hp.texts s (List.mem_filterMap.2 ⟨v, hv, hs⟩)

theorem Declaration.decides_write {p : Declaration} (h : p.Valid)
    (hshort : ∀ s ∈ p.valueTexts, SpellsShort s) :
    Decides WriteError.IsWorded p.write p.Writable := by
  have hvalue : ∀ v ∈ p.values, Decides WriteError.IsWorded v.write v.Writable := fun v hv =>
    AllowableValue.decides_write (h.values v hv) fun s hs =>
      hshort s (List.mem_filterMap.2 ⟨v, hv, hs⟩)
  exact ((Decides.mapM fun r hr => Range.decides_write (h.ranges r hr)).bind fun ranges =>
    (Decides.mapM hvalue).bind_ok).congr p.writable_iff

theorem Declaration.decides_writeBlock {declarations : List Declaration}
    (h : ∀ p ∈ declarations, p.Valid)
    (hshort : ∀ p ∈ declarations, ∀ s ∈ p.valueTexts, SpellsShort s)
    (block : String) : Decides WriteError.IsWorded (Declaration.writeBlock block declarations)
      (∀ p ∈ declarations, p.Writable) := by
  refine ((Decides.mapM fun p hp => Declaration.decides_write (h p hp) (hshort p hp)).bind
    fun lines => ?_).congr (and_iff_left trivial)
  split
  · exact .ok _ _
  · exact .ok _ _

/-! ## Documents -/

namespace Document

/-- The declarations of both blocks. -/
def declarations (d : Document) : List Declaration :=
  d.parameters ++ d.locals

/-- The steps, those inside requests included. -/
def allSteps (d : Document) : List Step :=
  d.steps ++ d.requests.flatMap Request.steps

/-- The descriptions of steps, requests and commands. -/
def descriptions (d : Document) : List String :=
  d.allSteps.filterMap Step.description ++ d.requests.filterMap Request.description
    ++ d.immediateCommands.filterMap ImmediateCommand.description
    ++ d.hardwareCommands.filterMap HardwareCommand.description

/-- The numbers of models, ranges and lists of allowable values. -/
def numbers (d : Document) : List Number :=
  d.allSteps.flatMap (fun s => Model.numbers s.models) ++ d.declarations.flatMap Declaration.numbers

/-- The entries of metadata that are written with their values: all but the document's own entry for
the load-and-go flag. -/
def writtenEntries (d : Document) : Metadata :=
  d.metadata.filter (·.1 != loadAndGoKey) ++ d.allSteps.flatMap Step.metadata
    ++ d.requests.flatMap Request.metadata
    ++ d.immediateCommands.flatMap ImmediateCommand.metadata
    ++ d.hardwareCommands.flatMap HardwareCommand.metadata

/-- The texts among allowable values. -/
def valueTexts (d : Document) : List String :=
  d.declarations.flatMap Declaration.valueTexts

/-- A document can be written if all its parts can. -/
structure Writable (d : Document) : Prop where
  timed : ∀ r ∈ d.requests, r.IsTimed
  descriptions : ∀ s ∈ d.descriptions, IsInline s
  numbers : ∀ n ∈ d.numbers, n.isFinite = true
  metadata : ∀ entry ∈ d.writtenEntries, entry.2.nonFinite = []
  texts : ∀ s ∈ d.valueTexts, ¬IsUnlistable s

/-- What every step of a list, and every request's step, has. -/
theorem forall_mem_allSteps {d : Document} {P : Step → Prop} :
    (∀ s ∈ d.allSteps, P s) ↔ (∀ s ∈ d.steps, P s) ∧ ∀ r ∈ d.requests, ∀ s ∈ r.steps, P s := by
  rw [allSteps, List.forall_mem_append, List.forall_mem_flatMap]

theorem writable_iff (d : Document) :
    (∀ p ∈ d.parameters, p.Writable) ∧ (∀ p ∈ d.locals, p.Writable) ∧
      (∀ entry ∈ d.metadata.filter (·.1 != loadAndGoKey), entry.2.nonFinite = []) ∧
      (∀ s ∈ d.steps, s.Writable) ∧
      (∀ c ∈ d.immediateCommands, IsWritableCommand c.description c.metadata) ∧
      (∀ c ∈ d.hardwareCommands, IsWritableCommand c.description c.metadata) ∧
      (∀ r ∈ d.requests, r.Writable) ↔ d.Writable := by
  constructor
  · rintro ⟨hparameters, hlocals, hmetadata, hsteps, himmediate, hhardware, hrequests⟩
    have hdeclarations := List.forall_mem_append.2 ⟨hparameters, hlocals⟩
    have hall : ∀ s ∈ d.allSteps, s.Writable :=
      forall_mem_allSteps.2 ⟨hsteps, fun r hr => (hrequests r hr).steps⟩
    constructor
    case timed => exact fun r hr => (hrequests r hr).timed
    case descriptions =>
      simp only [descriptions, List.forall_mem_append, List.forall_mem_filterMap]
      exact ⟨⟨⟨fun s hs => (hall s hs).description, fun r hr => (hrequests r hr).description⟩,
        fun c hc => (himmediate c hc).1⟩, fun c hc => (hhardware c hc).1⟩
    case numbers =>
      simp only [numbers, List.forall_mem_append, List.forall_mem_flatMap]
      exact ⟨fun s hs => (hall s hs).models, fun p hp => (hdeclarations p hp).numbers⟩
    case metadata =>
      simp only [writtenEntries, List.forall_mem_append, List.forall_mem_flatMap]
      exact ⟨⟨⟨⟨hmetadata, fun s hs => (hall s hs).metadata⟩,
        fun r hr => (hrequests r hr).metadata⟩, fun c hc => (himmediate c hc).2⟩,
        fun c hc => (hhardware c hc).2⟩
    case texts => exact List.forall_mem_flatMap.2 fun p hp => (hdeclarations p hp).texts
  · rintro ⟨htimed, hdescriptions, hnumbers, hmetadata, htexts⟩
    simp only [descriptions, List.forall_mem_append, List.forall_mem_filterMap,
      forall_mem_allSteps] at hdescriptions
    simp only [numbers, List.forall_mem_append, List.forall_mem_flatMap, forall_mem_allSteps,
      declarations] at hnumbers
    simp only [writtenEntries, List.forall_mem_append, List.forall_mem_flatMap,
      forall_mem_allSteps] at hmetadata
    simp only [valueTexts, List.forall_mem_flatMap, declarations, List.forall_mem_append] at htexts
    obtain ⟨⟨⟨⟨hstepText, hinnerText⟩, hrequestText⟩, himmediateText⟩, hhardwareText⟩ :=
      hdescriptions
    obtain ⟨⟨hstepNumbers, hinnerNumbers⟩, hparameterNumbers, hlocalNumbers⟩ := hnumbers
    obtain ⟨⟨⟨⟨hown, hstepEntries, hinnerEntries⟩, hrequestEntries⟩, himmediateEntries⟩,
      hhardwareEntries⟩ := hmetadata
    refine ⟨fun p hp => ⟨hparameterNumbers p hp, htexts.1 p hp⟩,
      fun p hp => ⟨hlocalNumbers p hp, htexts.2 p hp⟩, hown,
      fun s hs => ⟨hstepText s hs, hstepEntries s hs, hstepNumbers s hs⟩,
      fun c hc => ⟨himmediateText c hc, himmediateEntries c hc⟩,
      fun c hc => ⟨hhardwareText c hc, hhardwareEntries c hc⟩, fun r hr => ?_⟩
    exact ⟨htimed r hr, hrequestText r hr,
      fun s hs => ⟨hinnerText r hr s hs, hinnerEntries r hr s hs, hinnerNumbers r hr s hs⟩,
      hrequestEntries r hr⟩

/-- A valid document has a text exactly if its parts can be written, and otherwise an error that has
a wording. -/
theorem decides_write {d : Document} (h : d.Valid) (hshort : ∀ s ∈ d.valueTexts, SpellsShort s)
    (indent : Json.Indent) : Decides WriteError.IsWorded (d.write indent) d.Writable := by
  have hspelled : ∀ p ∈ d.parameters ++ d.locals, ∀ s ∈ p.valueTexts, SpellsShort s :=
    fun p hp s hs => hshort s (List.mem_flatMap.2 ⟨p, hp, hs⟩)
  obtain ⟨hparameters, hlocals⟩ := List.forall_mem_append.1 hspelled
  have hentries : ∀ entry ∈ d.metadata.filter (·.1 != loadAndGoKey),
      entry.2.Sound (Number.Fits false) :=
    fun entry hentry => h.metadata.sound entry (List.mem_of_mem_filter hentry)
  refine ((Declaration.decides_writeBlock h.parameters hparameters "INPUT_PARAMS").bind fun _ =>
    (Declaration.decides_writeBlock h.locals hlocals "LOCALS").bind fun _ =>
    (Metadata.decides_write hentries indent).bind fun _ =>
    (Decides.mapM fun s hs => Step.decides_write (h.steps s hs) indent).bind fun _ =>
    (Decides.mapM fun c hc =>
      ImmediateCommand.decides_write (h.immediateCommands c hc) indent).bind fun _ =>
    (Decides.mapM fun c hc =>
      HardwareCommand.decides_write (h.hardwareCommands c hc) indent).bind fun _ =>
    (Decides.mapM fun r hr => Request.decides_write (h.requests r hr) indent).bind_ok).congr
      d.writable_iff

/-- A document that JSON gives cannot be written exactly if a request has no timing, a description
has a line break, a number that is written is not finite, or an allowable value is a text that a
list cannot carry or that reads as a number. The error then has a wording; in every other case there
is a text. Of the integers only those that allowable values spell as texts could have too many
digits. -/
theorem write_fails_iff {json : List Char} {d : Document} (haccepted : ofJsonText json = .ok d)
    (hshort : ∀ s ∈ d.valueTexts, SpellsShort s) (indent : Json.Indent) :
    ((∃ e, d.write indent = .error e ∧ e.IsWorded) ↔
      (∃ r ∈ d.requests, r.time = none ∧ r.groundEpoch = none) ∨
      (∃ s ∈ d.descriptions, ('\n' : Char) ∈ s.toList ∨ ('\r' : Char) ∈ s.toList) ∨
      ((∃ n ∈ d.numbers, n.isFinite = false) ∨ ∃ entry ∈ d.writtenEntries, entry.2.nonFinite ≠ []) ∨
      ∃ s ∈ d.valueTexts, IsUnlistable s) ∧
    ((∃ text, d.write indent = .ok text) ∨ ∃ e, d.write indent = .error e ∧ e.IsWorded) := by
  have hdecides := decides_write (keeps_of_ofJsonText haccepted).1 hshort indent
  have hnot : ¬d.Writable ↔ (∃ r ∈ d.requests, r.time = none ∧ r.groundEpoch = none) ∨
      (∃ s ∈ d.descriptions, ('\n' : Char) ∈ s.toList ∨ ('\r' : Char) ∈ s.toList) ∨
      ((∃ n ∈ d.numbers, n.isFinite = false) ∨ ∃ entry ∈ d.writtenEntries, entry.2.nonFinite ≠ []) ∨
      ∃ s ∈ d.valueTexts, IsUnlistable s := by
    constructor
    · intro h
      by_contra hall
      simp only [not_or, not_exists, not_and] at hall
      obtain ⟨htimed, htexts, ⟨hnumbers, hentries⟩, hvalues⟩ := hall
      refine h ⟨fun r hr hnone => htimed r hr hnone.1 hnone.2, htexts, fun n hn => ?_,
        fun entry hentry => not_not.1 (hentries entry hentry), hvalues⟩
      exact (Bool.eq_false_or_eq_true _).resolve_right (hnumbers n hn)
    · rintro (⟨r, hr, hnone⟩ | ⟨s, hs, hbreak⟩ | (⟨n, hn, hfinite⟩ | ⟨entry, hentry, hfinite⟩) |
        ⟨s, hs, hlist⟩) h
      · exact h.timed r hr hnone
      · exact hbreak.elim (h.descriptions s hs).1 (h.descriptions s hs).2
      · exact Bool.false_ne_true (hfinite.symm.trans (h.numbers n hn))
      · exact hfinite (h.metadata entry hentry)
      · exact h.texts s hs hlist
  refine ⟨hdecides.error_iff.trans hnot, ?_⟩
  by_cases h : d.Writable
  · exact .inl (hdecides.result h)
  · exact .inr (hdecides.error h)

/-- A text with a comma among allowable values is accepted as JSON, and cannot be written. -/
theorem write_fails_comma :
    let json :=
      String.toList "\x7b\"id\": \"demo\", \"locals\": " ++
        String.toList "[\x7b\"name\": \"X\", \"allowable_values\": [\"a,b\"]\x7d]\x7d"
    ∃ d, ofJsonText json = .ok d ∧ d.valueTexts = [("a,b" : String)] ∧
    (∀ s ∈ d.valueTexts, SpellsShort s) ∧
      ∃ e, d.write (some 2) = .error e ∧ e.IsWorded := by
  intro json
  have hread : (ofJsonText json).toOption.map valueTexts = some [("a,b" : String)] := by
    decide +kernel
  obtain ⟨d, hd, htexts⟩ := Option.map_eq_some_iff.1 hread
  have haccepted := toOption_eq_some.1 hd
  have hword : SpellsShort "a,b" := fun hinteger => absurd hinteger (by decide)
  have hshort : ∀ s ∈ d.valueTexts, SpellsShort s := htexts ▸ List.forall_mem_singleton.2 hword
  have hmem : ("a,b" : String) ∈ d.valueTexts := htexts ▸ List.mem_singleton.2 rfl
  have hcomma : IsUnlistable "a,b" := .inl ⟨',', by decide, .inl rfl⟩
  exact ⟨d, haccepted, htexts, hshort, (write_fails_iff haccepted hshort (some 2)).1.2
    (.inr (.inr (.inr ⟨"a,b", hmem, hcomma⟩)))⟩

end Document

end CommandSequence
