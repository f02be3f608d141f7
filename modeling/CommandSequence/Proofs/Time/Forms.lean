import CommandSequence.Proofs.Number.LongRuns
import CommandSequence.Proofs.Time.Anchoring

/-!
# The forms of a duration

A duration is written in fields, as a clock tag or as a bare number (`DurationForm`), and no text in
two of them: a suffix tells fields from the other two, a colon a tag from a number. A calendar
timestamp has a dash after its year, which none of them has there. Trying the forms one after
another therefore gives one result in whatever order (`firstOf_of_mem`, `firstOf_of_none`), as long
as none of the readers fails (`DurationForm.read_unambiguous`).
-/

namespace CommandSequence

open Character

/-- The forms that a duration is written in. -/
inductive DurationForm where
  /-- fields with unit suffixes -/
  | fields
  /-- a clock tag -/
  | clockTag
  /-- a bare number of a unit -/
  | bareNumber
deriving DecidableEq

namespace DurationForm

/-- The forms in the order in which they are tried. -/
def all : List DurationForm :=
  [.fields, .clockTag, .bareNumber]

/-- The duration that a text is in a form. -/
def read (unit : DurationUnit) (text : List Char) :
    DurationForm → Except TimeError (Option Duration)
  | .fields => .ok (Duration.ofFields? text)
  | .clockTag => .ok (Duration.ofTag? text)
  | .bareNumber => Duration.ofNumber? unit text

/-- The duration that a text is in a form, where a clock tag is looked for by the reader that takes
calendar timestamps first. -/
def attempt (places : Int) (unit : DurationUnit) (text : List Char) :
    DurationForm → Except TimeError (Option Duration)
  | .fields => .ok (Duration.ofFields? text)
  | .clockTag => (readTime places text).map fun
    | some (.duration d) => some d
    | _ => none
  | .bareNumber => Duration.ofNumber? unit text

/-- The duration that a text is in the first of the forms that it is written in. -/
def firstOf (places : Int) (unit : DurationUnit) (text : List Char) :
    List DurationForm → Except TimeError Duration
  | [] => throw (.notDuration text)
  | form :: more => do
    match ← form.attempt places unit text with
    | some d => return d
    | none => firstOf places unit text more

theorem unitOfName_name (unit : DurationUnit) : Duration.unitOfName unit.name = .ok unit := by
  cases unit
  all_goals rfl

/-- A duration is read by trying the forms in order. -/
theorem read_eq_firstOf (places : Int) (unit : DurationUnit) (text : List Char) :
    Duration.read places unit.name text = firstOf places unit text all := by
  rw [Duration.read, all, firstOf, attempt]
  cases Duration.ofFields? text with
  | some d => rfl
  | none =>
    rw [ok_bind]
    dsimp only
    rw [firstOf, attempt]
    cases readTime places text with
    | error e => rfl
    | ok reading =>
      rw [unitOfName_name]
      rcases reading with _ | t | d
      · rfl
      · rfl
      · rfl

/-! ## Trying one form after another -/

section

variable {places : Int} {unit : DurationUnit} {text : List Char} {forms : List DurationForm}

/-- The only form that a text is written in gives its duration, wherever it stands in the order. -/
theorem firstOf_of_mem {form : DurationForm} {d : Duration} (hform : form ∈ forms)
    (h : form.attempt places unit text = .ok (some d))
    (hother : ∀ other, other ≠ form → other.attempt places unit text = .ok none) :
    firstOf places unit text forms = .ok d := by
  induction forms with
  | nil => cases hform
  | cons first more ih =>
    rw [firstOf]
    by_cases hfirst : first = form
    · rw [hfirst, h]
      rfl
    · rw [hother first hfirst]
      exact ih (List.mem_of_ne_of_mem (Ne.symm hfirst) hform)

/-- A text that is written in none of the forms is not a duration. -/
theorem firstOf_of_none (h : ∀ form : DurationForm, form.attempt places unit text = .ok none)
    (forms : List DurationForm) : firstOf places unit text forms = .error (.notDuration text) := by
  induction forms with
  | nil => rfl
  | cons first more ih =>
    rw [firstOf, h first]
    exact ih

/-- Within the range of the limit, that calendar timestamps are looked for first makes no
difference. -/
theorem attempt_eq_read (hleast : 1 ≤ places) (hgreatest : places ≤ maxPlaces)
    (form : DurationForm) : form.attempt places unit text = form.read unit text := by
  cases form with
  | fields => rfl
  | bareNumber => rfl
  | clockTag =>
    rw [attempt, read]
    cases htag : Duration.ofTag? text with
    | some d =>
      rw [Duration.readTime_of_ofTag? htag hleast hgreatest]
      rfl
    | none =>
      rw [readTime, if_neg (by omega), if_neg (by omega), htag]
      cases Timestamp.read? places.toNat text with
      | some t => rfl
      | none => rfl

end

end DurationForm

/-! ## Bare numbers and the other forms -/

namespace BareNumber

variable {n : BareNumber}

/-- The characters of a bare number. -/
theorem mem_text (h : n.Proper) {c : Char} (hc : c ∈ n.text) :
    isDigit c = true ∨ c ∈ [('+' : Char), '-', '.', '\n'] := by
  rw [text, pointed] at hc
  rcases List.mem_append.1 hc with hsign | hc
  · rcases h.sign c (Option.mem_toList.1 hsign) with rfl | rfl
    · exact .inr (by decide)
    · exact .inr (by decide)
  · rcases List.mem_append.1 hc with hwhole | hc
    · exact .inl (h.whole.2 c hwhole)
    · rcases List.mem_append.1 hc with hfraction | hending
      · cases hdigits : n.fraction with
        | none =>
          rw [hdigits] at hfraction
          cases hfraction
        | some digits =>
          rw [hdigits] at hfraction
          rcases List.mem_cons.1 hfraction with rfl | hmem
          · exact .inr (by decide)
          · exact .inl ((h.fraction digits hdigits).2 c hmem)
      · rcases Cut.eq_of_atEnd h.ending with hend | hend
        · rw [hend] at hending
          cases hending
        · rw [hend, List.mem_singleton] at hending
          rw [hending]
          exact .inr (by decide)

theorem unsigned_text (h : n.Proper) :
    TagGrammar.unsigned n.text = n.whole ++ (n.pointed ++ n.ending) := by
  rw [← Duration.splitSign_eq_unsigned, text, Duration.splitSign_append h.sign h.whole]

/-- A bare number is not made of fields with suffixes. -/
theorem ofFields?_text (h : n.Proper) : Duration.ofFields? n.text = none := by
  apply Duration.ofFields?_of_unsuffixed
  · intro c hc
    have hmem : c ∈ n.text := by
      rw [unsigned_text h] at hc
      exact List.mem_append_right _ hc
    rcases mem_text h hmem with hdigit | hmark
    · exact Duration.isSuffixStart_of_isOffsetMark (isOffsetMark_of_isDigit hdigit)
    · have hmarks : [('+' : Char), '-', '.', '\n'].all (!Duration.isSuffixStart ·) = true := by
        decide
      have hstart := List.all_eq_true.1 hmarks c hmark
      rwa [Bool.not_eq_true'] at hstart
  · obtain ⟨c, more, hwhole⟩ := List.exists_cons_of_ne_nil h.whole.1
    have hc : isDigit c = true := h.whole.2 c (hwhole ▸ List.mem_cons_self)
    rw [unsigned_text h, hwhole, List.cons_append]
    exact Cut.atEnd_of_isDigit hc _

/-- A bare number is not a clock tag, which has a colon. -/
theorem ofTag?_text (h : n.Proper) : Duration.ofTag? n.text = none := by
  rw [Duration.ofTag?, Option.map_eq_none_iff, Option.eq_none_iff_forall_ne_some]
  intro tag htag
  obtain ⟨w, rest, -, -, -, htext, -⟩ := ClockPieces.exists_of_read? htag
  have hcolon : (':' : Char) ∈ n.text := by
    rw [htext, ClockPieces.text, ClockPieces.marked]
    split
    · simp [ClockPieces.clock]
    · simp [ClockPieces.clock]
  rcases mem_text h hcolon with hdigit | hmark
  · exact absurd hdigit (by decide)
  · exact absurd hmark (by decide)

end BareNumber

namespace Duration

variable {text : List Char}

/-- Only a long run of digits keeps a text from being read as a bare number. -/
theorem hasLongRun_of_ofNumber? {unit : DurationUnit} {e : TimeError}
    (h : ofNumber? unit text = .error e) : Decimal.HasLongRun text := by
  unfold ofNumber? at h
  dsimp only at h
  split at h
  · cases h
  · next whole rest hwhole =>
    obtain ⟨hmagnitude, -, hdigits⟩ := Cut.eq_append_of_run? hwhole
    split at h
    · split at h
      · next hvalue =>
        have hlong : Decimal.digitLimit < whole.length := by
          refine Nat.lt_of_not_le fun hshort => ?_
          rw [Decimal.value?, if_pos hshort] at hvalue
          cases hvalue
        refine ⟨whole, ?_, hdigits, hlong⟩
        exact (hmagnitude ▸ (List.prefix_append whole rest).isInfix).trans
          (Number.splitSign_suffix text).isInfix
      · cases h
    · cases h

/-! ## Calendar timestamps and the forms -/

/-- What a calendar timestamp begins with. -/
theorem exists_year {places : Nat} {t : Timestamp} (h : Timestamp.read? places text = some t) :
    ∃ year rest, text = year ++ ('-' : Char) :: rest ∧ year ≠ [] ∧
    ∀ c ∈ year, isDigit c = true := by
  rw [Timestamp.read?, Option.bind_eq_bind] at h
  obtain ⟨⟨year, left⟩, hyear, h⟩ := Option.bind_eq_some_iff.1 h
  obtain ⟨rest, hdash, -⟩ := Option.bind_eq_some_iff.1 h
  obtain ⟨htext, hlength⟩ := Cut.eq_append_of_exactly? hyear
  refine ⟨year, rest, ?_, ?_, Cut.forall_mem_of_exactly? hyear⟩
  · rw [htext, Cut.eq_cons_of_char? hdash]
  · rintro rfl
    cases hlength

section

variable {digits rest : List Char} (hne : digits ≠ []) (hdigits : ∀ c ∈ digits, isDigit c = true)

include hne hdigits

theorem run?_dash :
    Cut.run? isDigit (digits ++ ('-' : Char) :: rest) = some (digits, ('-' : Char) :: rest) := by
  apply run?_of_digits hne hdigits
  rintro _ ⟨⟩
  decide

theorem splitSign_dash :
    Number.splitSign (digits ++ ('-' : Char) :: rest) =
      (false, digits ++ ('-' : Char) :: rest) := by
  have hsign : ∀ c ∈ (none : Option Char), c = '+' ∨ c = '-' := by rintro _ ⟨⟩
  exact splitSign_append hsign ⟨hne, hdigits⟩ ('-' :: rest)

/-- Digits that a dash follows are a field of no unit. -/
theorem readField?_dash (u : DurationUnit) :
    readField? u (digits ++ ('-' : Char) :: rest) = none := by
  obtain ⟨c, more, rfl⟩ := List.exists_cons_of_ne_nil hne
  have hc : isDigit c = true := hdigits c List.mem_cons_self
  have hblank : ((c :: more) ++ ('-' : Char) :: rest).dropWhile isBlank =
      (c :: more) ++ ('-' : Char) :: rest :=
    List.dropWhile_cons_of_neg (Bool.not_eq_true _ ▸ not_isBlank_of_isDigit hc)
  have hsigned : TagGrammar.signed ((c :: more) ++ ('-' : Char) :: rest) = false :=
    TagGrammar.signed_of_isDigit hc _
  have hpoint : Cut.char? '.' ('-' :: rest) = none := Cut.char?_cons_of_ne (by decide) rest
  have hsuffix : afterSuffix? u ('-' :: rest) = none := by
    cases u
    all_goals rfl
  simp only [readField?, hblank, hsigned, Bool.false_eq_true, if_false,
    run?_dash hne hdigits, hpoint, hsuffix, Option.bind_eq_bind, Option.bind_some, Option.bind_none]

theorem readFields_dash (units : List DurationUnit) :
    readFields units (digits ++ ('-' : Char) :: rest) = ([], digits ++ ('-' : Char) :: rest) := by
  induction units with
  | nil => rfl
  | cons u units ih => rw [readFields, readField?_dash hne hdigits, ih]

theorem ofFields?_dash : ofFields? (digits ++ ('-' : Char) :: rest) = none := by
  have hfields : readFields DurationUnit.all (digits ++ ('-' : Char) :: rest) =
      ([], digits ++ ('-' : Char) :: rest) :=
    readFields_dash hne hdigits _
  obtain ⟨c, more, rfl⟩ := List.exists_cons_of_ne_nil hne
  have hc : isDigit c = true := hdigits c List.mem_cons_self
  have hend : Cut.atEnd ((c :: more) ++ ('-' : Char) :: rest) = false := Cut.atEnd_of_isDigit hc _
  have hsign : (c :: more ++ ('-' : Char) :: rest).head? = some ('-' : Char) → false = true := by
    intro hhead
    cases hhead
    exact absurd hc (by decide)
  refine (ofFields?_split rfl hsign).trans ?_
  rw [hfields]
  exact if_neg (ne_true_of_eq_false hend)

theorem ofNumber?_dash (unit : DurationUnit) :
    ofNumber? unit (digits ++ ('-' : Char) :: rest) = .ok none := by
  have hpoint : Cut.char? '.' ('-' :: rest) = none := Cut.char?_cons_of_ne (by decide) rest
  have hend : Cut.atEnd ('-' :: rest) = false := Cut.atEnd_cons_of_ne (by decide) rest
  simp only [ofNumber?, splitSign_dash hne hdigits, run?_dash hne hdigits, hpoint, Option.bind_none,
    Option.map_none, Option.getD_none, hend, Bool.false_eq_true, if_false]

end

/-- A calendar timestamp is not a duration in any form. -/
theorem read_of_timestamp {places : Nat} {t : Timestamp} (h : Timestamp.read? places text = some t)
    (unit : DurationUnit) (form : DurationForm) : form.read unit text = .ok none := by
  cases form with
  | clockTag =>
    rw [DurationForm.read, Except.ok.injEq, Option.eq_none_iff_forall_ne_some]
    intro d hd
    rw [timestamp_eq_none hd] at h
    cases h
  | fields =>
    obtain ⟨year, rest, rfl, hne, hdigits⟩ := exists_year h
    exact congrArg Except.ok (ofFields?_dash hne hdigits)
  | bareNumber =>
    obtain ⟨year, rest, rfl, hne, hdigits⟩ := exists_year h
    exact ofNumber?_dash hne hdigits unit

end Duration

/-! ## One form for each text -/

namespace DurationForm

variable {unit : DurationUnit} {text : List Char}

/-- A text is a duration in one form at most. -/
theorem eq_of_read {form form' : DurationForm} {d d' : Duration}
    (h : form.read unit text = .ok (some d)) (h' : form'.read unit text = .ok (some d')) :
    form = form' := by
  have hfields {d : Duration} (htag : Duration.ofTag? text = some d) :
      read unit text .fields = .ok none := congrArg Except.ok (Duration.ofFields?_eq_none htag)
  have hnumber {d : Duration} (hread : Duration.ofNumber? unit text = .ok (some d)) :
      read unit text .fields = .ok none ∧ read unit text .clockTag = .ok none := by
    obtain ⟨n, hn, -, rfl⟩ := Duration.exists_bareNumber hread
    exact ⟨congrArg Except.ok (n.ofFields?_text hn), congrArg Except.ok (n.ofTag?_text hn)⟩
  have hclash {form : DurationForm} {d : Duration} (hread : form.read unit text = .ok (some d))
      (hnone : form.read unit text = .ok none) : False := by
    rw [hnone] at hread
    cases hread
  cases form with
  | fields =>
    cases form' with
    | fields => rfl
    | clockTag => exact (hclash h (hfields (Except.ok.inj h'))).elim
    | bareNumber => exact (hclash h (hnumber h').1).elim
  | clockTag =>
    cases form' with
    | fields => exact (hclash h' (hfields (Except.ok.inj h))).elim
    | clockTag => rfl
    | bareNumber => exact (hclash h (hnumber h').2).elim
  | bareNumber =>
    cases form' with
    | fields => exact (hclash h' (hnumber h).1).elim
    | clockTag => exact (hclash h' (hnumber h).2).elim
    | bareNumber => rfl

/-- A form fails to be read only for a long run of digits. -/
theorem exists_read (unit : DurationUnit) (h : ¬Decimal.HasLongRun text) (form : DurationForm) :
    ∃ d?, form.read unit text = .ok d? := by
  cases form with
  | fields => exact ⟨_, rfl⟩
  | clockTag => exact ⟨_, rfl⟩
  | bareNumber =>
    cases hread : Duration.ofNumber? unit text with
    | ok d? => exact ⟨d?, hread⟩
    | error e => exact absurd (Duration.hasLongRun_of_ofNumber? hread) h

theorem mem_all (form : DurationForm) : form ∈ all := by
  cases form
  all_goals decide

section

variable {places : Int} (hleast : 1 ≤ places) (hgreatest : places ≤ maxPlaces)

include hleast hgreatest

/-- The duration that a text is in one form is found in every order that has the form. -/
theorem firstOf_of_read (hlong : ¬Decimal.HasLongRun text) {form : DurationForm} {d : Duration}
    (h : form.read unit text = .ok (some d)) {order : List DurationForm} (hform : form ∈ order) :
    firstOf places unit text order = .ok d := by
  apply firstOf_of_mem hform
  · rw [attempt_eq_read hleast hgreatest, h]
  · intro other hother
    rw [attempt_eq_read hleast hgreatest]
    obtain ⟨d?, hread⟩ := exists_read unit hlong other
    cases d? with
    | none => exact hread
    | some d' => exact absurd (eq_of_read hread h) hother

/-- A text that is a duration in no form is found in none. -/
theorem firstOf_of_unread (hlong : ¬Decimal.HasLongRun text)
    (h : ∀ form : DurationForm, ∀ d, form.read unit text ≠ .ok (some d))
    (order : List DurationForm) : firstOf places unit text order = .error (.notDuration text) := by
  refine firstOf_of_none (fun form => ?_) order
  rw [attempt_eq_read hleast hgreatest]
  obtain ⟨d?, hread⟩ := exists_read unit hlong form
  cases d? with
  | none => exact hread
  | some d => exact absurd hread (h form d)

theorem firstOf_perm (hlong : ¬Decimal.HasLongRun text) {order : List DurationForm}
    (horder : order.Perm all) :
    firstOf places unit text order = firstOf places unit text all := by
  by_cases hforms : ∃ form : DurationForm, ∃ d, form.read unit text = .ok (some d)
  · obtain ⟨form, d, hread⟩ := hforms
    rw [firstOf_of_read hleast hgreatest hlong hread (mem_all form),
      firstOf_of_read hleast hgreatest hlong hread (horder.mem_iff.2 (mem_all form))]
  · have hunread : ∀ form : DurationForm, ∀ d, form.read unit text ≠ .ok (some d) :=
      fun form d hread => hforms ⟨form, d, hread⟩
    rw [firstOf_of_unread hleast hgreatest hlong hunread,
      firstOf_of_unread hleast hgreatest hlong hunread]

theorem firstOf_eq_ok_iff (hlong : ¬Decimal.HasLongRun text) {d : Duration} :
    firstOf places unit text all = .ok d ↔
      ∃ form : DurationForm, form.read unit text = .ok (some d) := by
  constructor
  · intro hfirst
    by_contra hforms
    have hunread : ∀ form : DurationForm, ∀ d', form.read unit text ≠ .ok (some d') := by
      intro form d' hread
      rw [firstOf_of_read hleast hgreatest hlong hread (mem_all form)] at hfirst
      cases hfirst
      exact hforms ⟨form, hread⟩
    rw [firstOf_of_unread hleast hgreatest hlong hunread] at hfirst
    cases hfirst
  · rintro ⟨form, hread⟩
    exact firstOf_of_read hleast hgreatest hlong hread (mem_all form)

end

/-- Of the three forms of a duration no text is read in more than one, and a calendar timestamp in
none. With a limit on fraction digits in its range, and without a run of more digits than are read,
a text is read as the duration that it is in one of the forms, in whatever order they are tried, and
is no duration if it is none in any of them. With a greater limit nothing but fields is read. -/
theorem read_unambiguous (unit : DurationUnit) (text : List Char) :
    (∀ form form' : DurationForm, ∀ d d', form.read unit text = .ok (some d) →
      form'.read unit text = .ok (some d') → form = form') ∧
    (∀ places t, Timestamp.read? places text = some t →
      ∀ form : DurationForm, form.read unit text = .ok none) ∧
    (∀ places : Int, 1 ≤ places → places ≤ maxPlaces → ¬Decimal.HasLongRun text →
      (∀ order : List DurationForm, order.Perm all →
        firstOf places unit text order = Duration.read places unit.name text) ∧
      (∀ d, Duration.read places unit.name text = .ok d ↔
        ∃ form : DurationForm, form.read unit text = .ok (some d)) ∧
      ((∀ form : DurationForm, ∀ d, form.read unit text ≠ .ok (some d)) →
        Duration.read places unit.name text = .error (.notDuration text))) ∧
    ∀ places : Int, maxPlaces < places → Duration.read places unit.name text =
      (Duration.ofFields? text).elim (.error .instantOutOfRange) .ok := by
  refine ⟨fun form form' d d' => eq_of_read,
    fun places t h => Duration.read_of_timestamp h unit, ?_, ?_⟩
  · intro places hleast hgreatest hlong
    rw [read_eq_firstOf]
    exact ⟨fun order => firstOf_perm hleast hgreatest hlong,
      fun d => firstOf_eq_ok_iff hleast hgreatest hlong,
      fun hunread => firstOf_of_unread hleast hgreatest hlong hunread all⟩
  · intro places hplaces
    rw [Duration.read, readTime_of_maxPlaces_lt hplaces]
    cases Duration.ofFields? text with
    | some d => rfl
    | none => rfl

/-- Ninety seconds are a minute and a half in whatever order the forms are tried, and a day of a
calendar is no duration. -/
theorem read_unambiguous_ninety :
    (∃ d, Duration.read 6 "seconds" (String.toList "90") = .ok d ∧ d.minutes = .int 1 ∧
      d.seconds = .int 30 ∧
      firstOf 6 .seconds (String.toList "90") [.bareNumber, .fields, .clockTag] = .ok d ∧
      ∀ form : DurationForm, ∀ d', form.read .seconds (String.toList "90") = .ok (some d') →
        .bareNumber = form) ∧
      (∀ form : DurationForm, form.read .hours (String.toList "2024-045") = .ok none) ∧
      Duration.read 4294967295 "days" (String.toList "1y") = .ok { years := .int 1 } ∧
      Duration.read 6 "seconds" (String.toList "90 ") =
        .error (.notDuration (String.toList "90 ")) := by
  have hseconds := read_unambiguous .seconds (String.toList "90")
  have hread : bareNumber.read .seconds (String.toList "90") =
      .ok (some { minutes := .int 1, seconds := .int 30 }) := by decide +kernel
  have hrange : (1 : Int) ≤ 6 ∧ 6 ≤ maxPlaces := by decide
  have hlong : ¬Decimal.HasLongRun (String.toList "90") :=
    Decimal.not_hasLongRun_of_length (by decide)
  obtain ⟨horder, haccepted, -⟩ := hseconds.2.2.1 6 hrange.1 hrange.2 hlong
  have hduration := (haccepted _).2 ⟨.bareNumber, hread⟩
  refine ⟨⟨_, hduration, rfl, rfl, ?_, ?_⟩, ?_, ?_, ?_⟩
  · rw [horder _ (by decide), hduration]
  · exact fun form d' => hseconds.1 .bareNumber form _ d' hread
  · have hcalendar : (Timestamp.read? 6 (String.toList "2024-045")).isSome = true := by
      decide +kernel
    obtain ⟨t, ht⟩ := Option.isSome_iff_exists.1 hcalendar
    exact (read_unambiguous .hours _).2.1 6 t ht
  · have hyear : Duration.ofFields? (String.toList "1y") = some { years := .int 1 } := by
      decide +kernel
    have hfields := (read_unambiguous .days (String.toList "1y")).2.2.2 4294967295 (by decide)
    rw [hyear] at hfields
    exact hfields
  · obtain ⟨-, -, hunread⟩ := (read_unambiguous .seconds (String.toList "90 ")).2.2.1 6
      hrange.1 hrange.2 (Decimal.not_hasLongRun_of_length (by decide))
    apply hunread
    intro form d hd
    have hnone : form.read .seconds (String.toList "90 ") = .ok none := by
      cases form
      all_goals decide +kernel
    rw [hnone] at hd
    cases hd

/-- With a limit that is greater by one than the greatest one, the tag of no time at all is a
duration in one of the forms, but is not read. -/
theorem read_fails_beyond_maxPlaces : ∃ places : Int, 1 ≤ places ∧
    ¬Decimal.HasLongRun (String.toList "00:00:00") ∧
    clockTag.read .seconds (String.toList "00:00:00") = .ok (some {}) ∧
    Duration.read places DurationUnit.seconds.name (String.toList "00:00:00") =
      .error .instantOutOfRange :=
  ⟨4294967295, by decide, Decimal.not_hasLongRun_of_length (by decide), by decide +kernel,
    by decide +kernel⟩

end DurationForm

end CommandSequence
