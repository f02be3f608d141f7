import CommandSequence.Proofs.Time.ClockPieces
import CommandSequence.Proofs.Time.Tag

/-!
# Clock tags as durations

The pieces of a clock tag have fixed widths, so its counts are bounded (`exists_counts_of_ofTag?`).
No character of a clock tag begins the suffix of a unit, and no dash follows its first digits: of
the forms of a duration a clock tag has only its own (`Duration.read_of_ofTag?`). A tag with all its
pieces is read as written (`WholeTag.ofTag?_text`).
-/

namespace CommandSequence

open Character
open Decimal (Fixed)

/-! ## The counts of a clock tag -/

/-- The counts that a clock tag has. -/
structure ClockCounts where
  days : Nat
  hours : Nat
  minutes : Nat
  seconds : Nat
  milliseconds : Nat
  microseconds : Nat
  negative : Bool

namespace ClockCounts

/-- The duration of the counts. -/
def duration (c : ClockCounts) : Duration where
  days := .int c.days
  hours := .int c.hours
  minutes := .int c.minutes
  seconds := .int c.seconds
  milliseconds := .int c.milliseconds
  microseconds := .int c.microseconds
  negative := c.negative

/-- The counts fit the pieces of a clock tag. -/
structure Fits (c : ClockCounts) : Prop where
  days : c.days < 1000
  hours : c.hours < 100
  minutes : c.minutes < 100
  seconds : c.seconds < 100
  milliseconds : c.milliseconds < 1000

/-- Counts are told apart by their durations. -/
theorem duration_injective {c c' : ClockCounts} (h : c.duration = c'.duration) :
    c = c' := by
  obtain ⟨days, hours, minutes, seconds, milliseconds, microseconds, negative⟩ := c
  obtain ⟨days', hours', minutes', seconds', milliseconds', microseconds', negative'⟩ := c'
  simp only [duration, Duration.mk.injEq, Number.int.injEq, Int.natCast_inj] at h
  obtain ⟨-, rfl, rfl, rfl, rfl, rfl, rfl, rfl⟩ := h
  rfl

end ClockCounts

/-- The pieces of a tag have values of their widths. -/
structure ClockTag.Fits (tag : ClockTag) : Prop where
  days : Decimal.value tag.days < 1000
  hours : Decimal.value tag.hours < 100
  minutes : Decimal.value tag.minutes < 100
  seconds : Decimal.value tag.seconds < 100

theorem ClockTag.fits_of_read? {text : List Char} {tag : ClockTag} (h : read? text = some tag) :
    tag.Fits := by
  obtain ⟨w, -, hproper, -, -, -, rfl⟩ := ClockPieces.exists_of_read? h
  have missing {n : Nat} {piece : Option (List Char)} (hpiece : ∀ digits ∈ piece, Fixed n digits) :
      Decimal.value (piece.getD []) < tenPow n := by
    cases piece with
    | none => exact tenPow_pos n
    | some digits => exact (hpiece digits rfl).value_lt
  exact ⟨missing hproper.days, hproper.hours.value_lt, hproper.minutes.value_lt,
    missing hproper.seconds⟩

/-- The duration of a clock tag is one of whole counts. -/
theorem exists_counts_of_ofTag? {text : List Char} {d : Duration}
    (h : Duration.ofTag? text = some d) : ∃ c : ClockCounts, d = c.duration ∧ c.Fits := by
  obtain ⟨tag, htag, rfl⟩ := Option.map_eq_some_iff.1 h
  have hfits := ClockTag.fits_of_read? htag
  let fraction := (tag.fraction ++ List.replicate 6 ('0' : Char)).take 6
  have hmilliseconds : Decimal.value (fraction.take 3) < 1000 := by
    have hlength : (fraction.take 3).length ≤ 3 := List.length_take_le 3 fraction
    exact Nat.lt_of_lt_of_le (Decimal.value_lt _) (Nat.pow_le_pow_right (by decide) hlength)
  exact ⟨⟨Decimal.value tag.days, Decimal.value tag.hours, Decimal.value tag.minutes,
    Decimal.value tag.seconds, Decimal.value (fraction.take 3), Decimal.value (fraction.drop 3),
    tag.negative⟩, rfl, hfits.days, hfits.hours, hfits.minutes, hfits.seconds, hmilliseconds⟩

/-- Behind the milliseconds a fraction has at most three digits that count. -/
theorem microseconds_lt_of_ofTag? {text : List Char} {c : ClockCounts}
    (h : Duration.ofTag? text = some c.duration) : c.microseconds < 1000 := by
  obtain ⟨tag, -, hcounts⟩ := Option.map_eq_some_iff.1 h
  have hvalue := Int.ofNat.inj (Number.int.inj (congrArg Duration.microseconds hcounts))
  have hlength : (((tag.fraction ++ List.replicate 6 ('0' : Char)).take 6).drop 3).length ≤ 3 := by
    rw [List.length_drop, List.length_take]
    omega
  rw [← hvalue]
  exact Nat.lt_of_lt_of_le (Decimal.value_lt _) (Nat.pow_le_pow_right (by decide) hlength)

/-! ## The other forms of a duration -/

namespace Duration

/-- The characters that a suffix of a unit begins with. -/
def isSuffixStart (c : Char) : Bool :=
  (['y', 'd', 'h', 'm', 's', 'u'] : List Char).contains c

theorem afterSuffix?_eq_none {text : List Char} (u : DurationUnit)
    (h : ∀ c ∈ text, isSuffixStart c = false) : afterSuffix? u text = none := by
  have hsuffix : ¬ u.suffix.isPrefixOf text = true := by
    intro hprefix
    obtain ⟨more, rfl⟩ := List.isPrefixOf_iff_prefix.1 hprefix
    have hany : u.suffix.any isSuffixStart = true := by
      cases u <;> rfl
    obtain ⟨c, hc, hstart⟩ := List.any_eq_true.1 hany
    rw [h c (List.mem_append_left more hc)] at hstart
    cases hstart
  rw [afterSuffix?, if_neg hsuffix]

theorem readField?_eq_none {text : List Char} (u : DurationUnit)
    (h : ∀ c ∈ text, isSuffixStart c = false) : readField? u text = none := by
  have hblank : text.dropWhile isBlank ⊆ text := (List.dropWhile_sublist _).subset
  unfold readField?
  dsimp only
  generalize hmagnitude : (if TagGrammar.signed (text.dropWhile isBlank) then
    ((text.dropWhile isBlank).take 1, (text.dropWhile isBlank).drop 1)
    else ([], text.dropWhile isBlank)) = signed
  have hsigned : signed.2 ⊆ text := by
    rw [← hmagnitude]
    split
    · exact fun c hc => hblank (List.mem_of_mem_drop hc)
    · exact hblank
  rw [Option.bind_eq_bind, Option.bind_eq_none_iff]
  rintro ⟨whole, rest⟩ hwhole
  dsimp only
  have hrest : rest ⊆ text := List.Subset.trans (Cut.subset_of_run? hwhole) hsigned
  have hsuffix {left : List Char} (hleft : left ⊆ text) : afterSuffix? u left = none :=
    afterSuffix?_eq_none u fun c hc => h c (hleft hc)
  cases hfound : (Cut.char? '.' rest).bind (Cut.run? isDigit) with
  | none =>
    rw [hsuffix hrest]
    rfl
  | some found =>
    obtain ⟨point, hpoint, hdigits⟩ := Option.bind_eq_some_iff.1 hfound
    rw [hsuffix (List.Subset.trans (Cut.subset_of_run? hdigits)
      (List.Subset.trans (Cut.subset_of_char? hpoint) hrest))]
    rfl

/-- A text without suffixes has no fields. -/
theorem readFields_eq {text : List Char} (h : ∀ c ∈ text, isSuffixStart c = false)
    (units : List DurationUnit) : readFields units text = ([], text) := by
  induction units with
  | nil => rfl
  | cons u units ih => rw [readFields, readField?_eq_none u h, ih]

theorem isSuffixStart_of_isOffsetMark {c : Char} (h : isOffsetMark c = true) :
    isSuffixStart c = false := by
  rw [Bool.eq_false_iff]
  intro hstart
  have hall : [('y' : Char), 'd', 'h', 'm', 's', 'u'].all (!isOffsetMark ·) = true := by decide
  have hmark := List.all_eq_true.1 hall c (List.contains_iff_mem.1 hstart)
  rw [h] at hmark
  cases hmark

/-- A text that begins as a clock does not end there. -/
theorem atEnd_of_reads {p : Char → Bool} {text : List Char} (h : Reads p text) :
    Cut.atEnd text = false := by
  obtain ⟨c, more, rfl, hc⟩ := h.first
  apply Cut.atEnd_cons_of_ne
  rintro rfl
  exact absurd hc (by decide)

variable {text : List Char} {d : Duration}

theorem reads_of_ofTag? (h : ofTag? text = some d) :
    Reads isOffsetMark (TagGrammar.unsigned text) := by
  obtain ⟨tag, htag, -⟩ := Option.map_eq_some_iff.1 h
  exact reads_of_read? (Option.isSome_of_eq_some htag)

/-- A text is a minus sign or none, and then fields that do not begin with one. -/
theorem exists_minus (text : List Char) : ∃ (minus : Bool) (body : List Char),
    text = (if minus then ('-' : Char) :: body else body) ∧
    (body.head? = some ('-' : Char) → minus = true) := by
  cases text with
  | nil => exact ⟨false, [], rfl, nofun⟩
  | cons c rest =>
    by_cases hc : c = '-'
    · exact ⟨true, rest, by rw [hc]; rfl, fun _ => rfl⟩
    · exact ⟨false, c :: rest, rfl, fun hhead => absurd (Option.some.inj hhead) hc⟩

/-- The fields are read after a minus sign that the text begins with. -/
theorem ofFields?_split {minus : Bool} {body : List Char}
    (htext : text = if minus then ('-' : Char) :: body else body)
    (hminus : body.head? = some ('-' : Char) → minus = true) :
    ofFields? text =
      if Cut.atEnd (readFields DurationUnit.all body).2 then
        some (ofCounts
          (fun u => (((readFields DurationUnit.all body).1.lookup u).map fieldValue).getD (.int 0))
          (minus || (readFields DurationUnit.all body).1.any fun entry =>
            entry.2.head? == some ('-' : Char)))
      else none := by
  subst htext
  cases minus with
  | true => rfl
  | false =>
    cases body with
    | nil => rfl
    | cons c rest =>
      have hc : c ≠ '-' := by
        rintro rfl
        exact absurd (hminus rfl) Bool.false_ne_true
      unfold ofFields?
      split
      next minus body hsplit =>
        split at hsplit
        · next heq => exact absurd (List.head_eq_of_cons_eq heq) hc
        · cases hsplit
          rfl

/-- A text that has no suffixes after its sign, but something else, is not made of fields. -/
theorem ofFields?_of_unsuffixed (h : ∀ c ∈ TagGrammar.unsigned text, isSuffixStart c = false)
    (hend : Cut.atEnd (TagGrammar.unsigned text) = false) : ofFields? text = none := by
  obtain ⟨minus, body, rfl, hminus⟩ := exists_minus text
  have hbody : (∀ c ∈ body, isSuffixStart c = false) ∧ Cut.atEnd body = false := by
    cases minus with
    | true => exact ⟨h, hend⟩
    | false =>
      cases body with
      | nil => exact ⟨h, hend⟩
      | cons c rest =>
        by_cases hplus : c = '+'
        · subst hplus
          exact ⟨List.forall_mem_cons.2 ⟨by decide, h⟩, Cut.atEnd_cons_of_ne (by decide) rest⟩
        · have hdash : c ≠ '-' := by
            rintro rfl
            exact absurd (hminus rfl) Bool.false_ne_true
          rw [if_neg Bool.false_ne_true, TagGrammar.unsigned,
            TagGrammar.signed_cons_of_ne hplus hdash] at h hend
          exact ⟨h, hend⟩
  rw [ofFields?_split rfl hminus, readFields_eq hbody.1]
  exact if_neg (ne_true_of_eq_false hbody.2)

/-- A clock tag is not made of fields with suffixes. -/
theorem ofFields?_eq_none (h : ofTag? text = some d) : ofFields? text = none := by
  have hread := reads_of_ofTag? h
  apply ofFields?_of_unsuffixed
  · intro c hc
    rcases hread.exhausts.mem c hc with hmark | rfl
    · exact isSuffixStart_of_isOffsetMark hmark
    · decide
  · exact atEnd_of_reads hread

/-- A clock tag is not a calendar timestamp, which has a dash after four digits. -/
theorem timestamp_eq_none (h : ofTag? text = some d) (places : Nat) :
    Timestamp.read? places text = none := by
  have hread := reads_of_ofTag? h
  rw [Timestamp.read?, Option.bind_eq_bind, Option.bind_eq_none_iff]
  rintro ⟨year, rest⟩ hyear
  obtain ⟨c, more, htext, hc⟩ := Cut.head?_of_exactly? hyear
  have hunsigned : TagGrammar.unsigned text = text := by
    rw [htext, TagGrammar.unsigned, TagGrammar.signed_of_isDigit hc]
    rfl
  have hdash : Cut.char? '-' rest = none := by
    cases hfound : Cut.char? '-' rest with
    | none => rfl
    | some left =>
      have hmem : ('-' : Char) ∈ text := Cut.subset_of_exactly? hyear (Cut.mem_of_char? hfound)
      rw [← hunsigned] at hmem
      rcases hread.exhausts.mem '-' hmem with hmark | hline
      · exact absurd hmark (by decide)
      · exact absurd hline (by decide)
  dsimp only
  rw [hdash]
  rfl

theorem readTime_of_ofTag? (h : ofTag? text = some d) {places : Int} (hleast : 1 ≤ places)
    (hgreatest : places ≤ maxPlaces) : readTime places text = .ok (some (.duration d)) := by
  rw [readTime, if_neg (by omega), if_neg (by omega), timestamp_eq_none h]
  simp only [h, Option.map_some]

/-- A clock tag is read as a duration. -/
theorem read_of_ofTag? (h : ofTag? text = some d) {places : Int} (hleast : 1 ≤ places)
    (hgreatest : places ≤ maxPlaces) (unit : String) : read places unit text = .ok d := by
  rw [read, ofFields?_eq_none h, readTime_of_ofTag? h hleast hgreatest]
  rfl

end Duration

/-! ## Tags with all their pieces -/

/-- The pieces of a tag `[-][DDDT]hh:mm:ss.mmm` as it is written. -/
structure WholeTag where
  negative : Bool
  days : Option (List Char)
  hours : List Char
  minutes : List Char
  seconds : List Char
  milliseconds : List Char

namespace WholeTag

/-- The tag without its sign. -/
def unsigned (w : WholeTag) : List Char :=
  (match w.days with | none => [] | some days => days ++ [('T' : Char)]) ++
    (w.hours ++ (':' : Char) ::
      (w.minutes ++ (':' : Char) :: (w.seconds ++ ('.' : Char) :: w.milliseconds)))

/-- The tag `[-][DDDT]hh:mm:ss.mmm`. -/
def text (w : WholeTag) : List Char :=
  (if w.negative then [('-' : Char)] else []) ++ w.unsigned

/-- The counts that the pieces stand for. -/
def counts (w : WholeTag) : ClockCounts where
  days := Decimal.value (w.days.getD [])
  hours := Decimal.value w.hours
  minutes := Decimal.value w.minutes
  seconds := Decimal.value w.seconds
  milliseconds := Decimal.value w.milliseconds
  microseconds := 0
  negative := w.negative

/-- The pieces are ASCII digits, each as many as the form asks for. -/
structure Digits (w : WholeTag) : Prop where
  days : ∀ digits ∈ w.days, Fixed 3 digits
  hours : Fixed 2 w.hours
  minutes : Fixed 2 w.minutes
  seconds : Fixed 2 w.seconds
  milliseconds : Fixed 3 w.milliseconds

variable {w : WholeTag}

/-- The tag in pieces, none of which but the day is missing. -/
def pieces (w : WholeTag) : ClockPieces where
  sign := if w.negative then some '-' else none
  days := w.days
  mark := w.days.isSome
  hours := w.hours
  minutes := w.minutes
  seconds := some w.seconds
  point := true
  fraction := w.milliseconds

theorem text_pieces (w : WholeTag) : w.pieces.text = w.text := by
  have hsign : w.pieces.sign.toList = if w.negative then [('-' : Char)] else [] := by
    rw [pieces]
    split
    · rfl
    · rfl
  rw [text, unsigned, ClockPieces.text, hsign]
  cases hdays : w.days with
  | none => simp [pieces, hdays, ClockPieces.marked, ClockPieces.clock, ClockPieces.ending]
  | some days => simp [pieces, hdays, ClockPieces.marked, ClockPieces.clock, ClockPieces.ending]

theorem proper_pieces (h : w.Digits) : w.pieces.Proper where
  sign := by
    intro c hc
    simp only [pieces, Option.mem_def, Option.ite_none_right_eq_some, Option.some.injEq] at hc
    exact .inr hc.2.symm
  days := h.days
  hours := h.hours
  minutes := h.minutes
  seconds := by
    rintro _ ⟨⟩
    exact h.seconds
  fraction := h.milliseconds.digit

theorem read?_text (h : w.Digits) : ClockTag.read? w.text =
    some ⟨w.negative, w.days.getD [], w.hours, w.minutes, w.seconds, w.milliseconds⟩ := by
  rw [← text_pieces, ClockPieces.read?_text (proper_pieces h) nofun, ClockPieces.tag]
  cases hnegative : w.negative with
  | false => simp [pieces, hnegative]
  | true => simp [pieces, hnegative]

/-- A tag with all its pieces is read as written. -/
theorem ofTag?_text (h : w.Digits) : Duration.ofTag? w.text = some w.counts.duration := by
  have hfraction : (w.milliseconds ++ List.replicate 6 ('0' : Char)).take 6 =
      w.milliseconds ++ [('0' : Char), '0', '0'] := by
    rw [List.take_append, h.milliseconds.length, List.take_of_length_le
      (h.milliseconds.length ▸ (by decide : 3 ≤ 6))]
    rfl
  have hwhole : (w.milliseconds ++ [('0' : Char), '0', '0']).take 3 = w.milliseconds :=
    h.milliseconds.length ▸ List.take_left
  have hrest : (w.milliseconds ++ [('0' : Char), '0', '0']).drop 3 = [('0' : Char), '0', '0'] :=
    h.milliseconds.length ▸ List.drop_left
  simp only [Duration.ofTag?, read?_text h, Option.map_some, Duration.ofClockTag, hfraction, hwhole,
    hrest]
  rfl

end WholeTag

end CommandSequence
