import CommandSequence.Proofs.Number.Spelling
import CommandSequence.Proofs.Number.Thousandths
import CommandSequence.Proofs.Time.Timestamp

/-!
# Reading a day-of-year timestamp as a calendar timestamp

The calendar reader tries several readings of each piece, and takes the first that reaches the end
of the text. On a timestamp in pieces of digits only one does: a month would have to be followed by
a dash, and an hour, minute or second of one digit by something else than the second digit. So the
timestamp is read by its pieces (`Timestamp.read?_text`).
-/

namespace CommandSequence

open Character
open Decimal (Fixed)

/-! ## Milliseconds -/

/-- The milliseconds of a timestamp, if there are any, have no more digits than the limit. -/
def WrittenTimestamp.FractionFits (w : WrittenTimestamp) (places : Nat) : Prop :=
  ∀ digits ∈ w.milliseconds, digits.length ≤ places

namespace Timestamp

variable {places : Nat} {digits : List Char}

theorem readFloat_point (h : ∀ c ∈ digits, isDigit c = true) :
    Number.readFloat ('.' :: digits) =
      Binary64.ofDecimal false (Decimal.value digits) (-(digits.length : Int)) := by
  have hsign : Number.splitSign (('.' : Char) :: digits) = (false, ('.' : Char) :: digits) := rfl
  have hwhole : (('.' : Char) :: digits).takeWhile isDigit = [] := rfl
  have hafter : (('.' : Char) :: digits).dropWhile isDigit = ('.' : Char) :: digits := rfl
  simp only [Number.readFloat, hsign, hwhole, hafter, List.takeWhile_eq_self_iff.2 h,
    List.dropWhile_eq_nil_iff.2 h, List.nil_append, Int.zero_sub]

/-- Three digits of milliseconds are read as their number. -/
theorem fractionMilliseconds_eq (places : Nat) (h : Fixed 3 digits) :
    fractionMilliseconds places digits = .int (Decimal.value digits) := by
  have hvalue : Decimal.value digits < 1000 := h.value_lt
  have hbits : Decimal.value digits ≤ twoPow 53 :=
    Nat.le_of_lt (Nat.lt_of_lt_of_le hvalue (by decide))
  have hproduct := Binary64.ofDecimal_mul_thousand hvalue hbits
  have hlength : -((digits.length : Nat) : Int) = -3 := by rw [h.length]; rfl
  simp only [fractionMilliseconds, readFloat_point h.isDigit, hlength, hproduct,
    Binary64.roundPlaces_mul_one hbits, Number.normalize,
    Binary64.toInt?_mul_one (Binary64.representable_mul_one hbits)]

/-- No milliseconds are none, as if they had been written. -/
theorem fractionMilliseconds_zero (places : Nat) : fractionMilliseconds places ['0'] = .int 0 := by
  have hzero : Fixed 1 ['0'] := by decide
  have hfixed : Fixed 3 ['0', '0', '0'] := by decide
  have hzeros : Number.readFloat ['.', '0'] = Number.readFloat ['.', '0', '0', '0'] := by
    rw [readFloat_point hzero.isDigit, readFloat_point hfixed.isDigit]
    simp only [Binary64.ofDecimal, show Decimal.value ['0'] = 0 from rfl,
      show Decimal.value ['0', '0', '0'] = 0 from rfl, true_or, if_true]
  have heq := fractionMilliseconds_eq places hfixed
  rw [fractionMilliseconds, ← hzeros] at heq
  exact heq

/-! ## The readings of one piece -/

/-- The first reading of a text that reaches its end. -/
def firstAtEnd {α : Type} (readings : Readings α) : Option (α × List Char) :=
  readings.find? fun reading => Cut.atEnd reading.2

theorem firstAtEnd_cons {α : Type} (reading : α × List Char) (more : Readings α) :
    firstAtEnd (reading :: more) =
      if Cut.atEnd reading.2 then some reading else firstAtEnd more := by
  simp only [firstAtEnd, List.find?_cons]
  cases Cut.atEnd reading.2 <;> rfl

theorem firstAtEnd_append {α : Type} (readings more : Readings α) :
    firstAtEnd (readings ++ more) = (firstAtEnd readings).or (firstAtEnd more) :=
  List.find?_append

/-- What is made of a reading does not count for whether it reaches the end. -/
theorem firstAtEnd_map {α β : Type} (f : α → List Char → β) (readings : Readings α) :
    firstAtEnd (readings.map fun reading => (f reading.1 reading.2, reading.2)) =
      (firstAtEnd readings).map fun reading => (f reading.1 reading.2, reading.2) := by
  simp only [firstAtEnd, List.find?_map, Function.comp_def]

variable {a b : Char} {rest : List Char}

theorem atEnd_digit (h : isAsciiDigit a = true) (rest : List Char) :
    Cut.atEnd (a :: rest) = false :=
  Cut.atEnd_of_isDigit (isDigit_of_isAsciiDigit h) rest

/-- A piece that follows a mark is not read where another character stands. -/
theorem after_of_ne {α : Type} {mark : Char} (h : a ≠ mark) (piece : List Char → Readings α) :
    after mark piece (a :: rest) = [] := by
  rw [after, Cut.char?_cons_of_ne h]
  rfl

theorem optionally_after_of_ne {α : Type} {mark : Char} (h : a ≠ mark)
    (piece : List Char → Readings α) :
    optionally (after mark piece) (a :: rest) = [(none, a :: rest)] := by
  rw [optionally, after_of_ne h]
  rfl

theorem optionally_after {α : Type} (mark : Char) (piece : List Char → Readings α) :
    optionally (after mark piece) (mark :: rest) =
      (piece rest).map (fun reading => (some reading.1, reading.2)) ++ [(none, mark :: rest)] := by
  rw [optionally, after, Cut.char?_cons_self]
  rfl

theorem oneDigit_digit (h : isAsciiDigit a = true) : oneDigit (a :: rest) = [([a], rest)] := by
  rw [oneDigit, if_pos h]

/-- Two digits below a bound on the tens are read as such. -/
theorem twoDigits_fixed {tens : Nat} (h : Fixed 2 [a, b]) (htens : tens < 10)
    (hvalue : Decimal.value [a, b] < 10 * (tens + 1)) :
    twoDigits '0' tens.digitChar (a :: b :: rest) = [([a, b], rest)] := by
  have ha := isAsciiDigit_iff.1 (h.digit a List.mem_cons_self)
  have hb := h.digit b (List.mem_cons_of_mem a List.mem_cons_self)
  have hten : Decimal.value [a, b] = (a.toNat - 48) * 10 + Decimal.value [b] := by
    rw [Decimal.value_cons, digitValue?_of_isAsciiDigit (isAsciiDigit_iff.2 ha)]
    rfl
  have hle : '0' ≤ a ∧ a ≤ tens.digitChar := by
    change 48 ≤ a.toNat ∧ a.toNat ≤ tens.digitChar.toNat
    rw [Nat.toNat_digitChar_of_lt_ten htens]
    omega
  simp only [twoDigits, hle.1, hle.2, hb, decide_true, Bool.and_self, if_true]

/-! ## The readings of a time of day -/

/-- Of the readings of an hour, one takes both digits. -/
theorem hourOfDay_fixed (h : Fixed 2 [a, b]) (hvalue : Decimal.value [a, b] < 24) :
    hourOfDay (a :: b :: rest) = [([a], b :: rest), ([a, b], rest)] := by
  rw [hourOfDay, oneDigit_digit (h.digit a List.mem_cons_self),
    show '2' = Nat.digitChar 2 from rfl, twoDigits_fixed h (by decide) (by omega)]
  rfl

theorem sixtieth_fixed (h : Fixed 2 [a, b]) (hvalue : Decimal.value [a, b] < 60) :
    sixtieth (a :: b :: rest) = [([a], b :: rest), ([a, b], rest)] := by
  rw [sixtieth, oneDigit_digit (h.digit a List.mem_cons_self),
    show '5' = Nat.digitChar 5 from rfl, twoDigits_fixed h (by decide) (by omega)]
  rfl

theorem exists_pair (h : Fixed 2 digits) : ∃ a b, digits = [a, b] ∧ isAsciiDigit b = true := by
  obtain ⟨a, b, rfl⟩ := List.length_eq_two.1 h.length
  exact ⟨a, b, rfl, h.digit b (List.mem_cons_of_mem a List.mem_cons_self)⟩

/-- A run of digits is first read as a whole. -/
theorem digitsUpTo_run (limit : Nat) (hdigits : ∀ c ∈ digits, isDigit c = true) (hne : digits ≠ [])
    (hlimit : digits.length ≤ limit) (hrest : ∀ c, rest.head? = some c → isDigit c = false) :
    ∃ more, digitsUpTo limit (digits ++ rest) = (digits, rest) :: more := by
  obtain ⟨n, hn⟩ := Nat.exists_eq_add_one_of_ne_zero (mt List.eq_nil_of_length_eq_zero hne)
  refine ⟨(List.range n).reverse.map fun k =>
    ((digits ++ rest).take (k + 1), (digits ++ rest).drop (k + 1)), ?_⟩
  simp only [digitsUpTo, takeWhile_run hdigits hrest, List.take_of_length_le hlimit, hn,
    List.range_succ, List.reverse_append, List.reverse_cons, List.reverse_nil, List.nil_append,
    List.map_cons, List.cons_append]
  rw [← hn, List.take_left, List.drop_left]

/-- The first reading of a second that reaches the end takes both digits and the whole fraction. -/
theorem firstAtEnd_secondOfMinute {w : WrittenTimestamp} (hplaces : w.FractionFits places)
    (h : w.Digits) (hseconds : w.numbers.seconds < 60) :
    firstAtEnd (secondOfMinute places (w.seconds ++ w.fraction)) =
      some ((w.seconds, w.milliseconds), []) := by
  obtain ⟨a, b, hpair, hb⟩ := exists_pair h.seconds
  have hfixed := h.seconds
  rw [WrittenTimestamp.numbers] at hseconds
  rw [hpair] at hfixed hseconds ⊢
  have hpoint : b ≠ '.' := fun heq => absurd (heq ▸ hb) (by decide)
  have hfraction : firstAtEnd (optionally (after '.' (digitsUpTo places)) w.fraction) =
      some (w.milliseconds, []) := by
    rw [WrittenTimestamp.fraction]
    cases hmilliseconds : w.milliseconds with
    | none => rfl
    | some digits =>
      have hdigits := h.milliseconds digits hmilliseconds
      obtain ⟨more, hmore⟩ := digitsUpTo_run places hdigits.isDigit
        (fun hnil => by rw [hnil] at hdigits; exact absurd hdigits.length (by decide))
        (hplaces digits hmilliseconds) (fun c (hc : [].head? = some c) => by cases hc)
      rw [List.append_nil] at hmore
      rw [optionally_after, hmore, List.map_cons, List.cons_append, firstAtEnd_cons]
      rfl
  simp only [secondOfMinute, List.cons_append, List.nil_append, sixtieth_fixed hfixed hseconds,
    List.flatMap_cons, List.flatMap_nil, List.append_nil, optionally_after_of_ne hpoint,
    List.map_cons, List.map_nil, firstAtEnd_cons, atEnd_digit hb]
  rw [firstAtEnd_map (fun fraction _ => ([a, b], fraction)), hfraction]
  rfl

/-- The time of day of a timestamp as it is written. -/
def clockText (w : WrittenTimestamp) : List Char :=
  w.hours ++ (':' : Char) :: (w.minutes ++ (':' : Char) :: (w.seconds ++ w.fraction))

/-- The first reading of a time of day that reaches the end takes the pieces as they are. -/
theorem firstAtEnd_clock {w : WrittenTimestamp} (hplaces : w.FractionFits places) (h : w.Digits)
    (hhours : w.numbers.hours < 24) (hminutes : w.numbers.minutes < 60)
    (hseconds : w.numbers.seconds < 60) :
    firstAtEnd (clock places (clockText w)) =
      some (⟨w.hours, some w.minutes, some (w.seconds, w.milliseconds)⟩, []) := by
  have hsecond := firstAtEnd_secondOfMinute hplaces h hseconds
  obtain ⟨a, b, hhour, hb⟩ := exists_pair h.hours
  obtain ⟨c, d, hminute, hd⟩ := exists_pair h.minutes
  have hfixed := h.hours
  have hfixed' := h.minutes
  rw [WrittenTimestamp.numbers] at hhours hminutes
  rw [hhour] at hfixed hhours
  rw [hminute] at hfixed' hminutes
  rw [clockText, hhour, hminute]
  have hcolon : b ≠ ':' := fun heq => absurd (heq ▸ hb) (by decide)
  have hcolon' : d ≠ ':' := fun heq => absurd (heq ▸ hd) (by decide)
  generalize w.seconds ++ w.fraction = second at hsecond ⊢
  simp only [clock, List.cons_append, List.nil_append, hourOfDay_fixed hfixed hhours,
    sixtieth_fixed hfixed' hminutes, List.flatMap_cons, List.flatMap_nil, List.append_nil,
    optionally_after_of_ne hcolon, optionally_after_of_ne hcolon', optionally_after,
    List.map_cons, List.map_nil, List.map_append, List.map_map, firstAtEnd_cons,
    firstAtEnd_append, atEnd_digit hb, atEnd_digit hd]
  have hwhole := firstAtEnd_map (fun second _ => (⟨[a, b], some [c, d], some second⟩ : Clock))
    (secondOfMinute places second)
  rw [hsecond] at hwhole
  rw [if_neg Bool.false_ne_true, if_neg Bool.false_ne_true]
  -- the reading that takes the second comes before those that leave it out
  refine (congrArg (fun first => (Option.or first _).or _) hwhole).trans ?_
  rfl

/-! ## The reading of a timestamp -/

/-- What is left of a text of three digits after a month begins with one of them. -/
theorem digit_after_month {c : Char} (hb : isAsciiDigit b = true) (hc : isAsciiDigit c = true) :
    ∀ reading ∈ month (a :: b :: c :: rest),
      ∃ d more, reading.2 = d :: more ∧ isAsciiDigit d = true := by
  have hpair (p : Prop) [Decidable p] (digits : List Char) :
      ∀ reading ∈ (if p then [(digits, c :: rest)] else []),
        ∃ d more, reading.2 = d :: more ∧ isAsciiDigit d = true := by
    intro reading hreading
    split at hreading
    · rw [List.mem_singleton.1 hreading]
      exact ⟨c, rest, rfl, hc⟩
    · cases hreading
  intro reading hreading
  rcases List.mem_append.1 hreading with hreading | hreading
  · rcases List.mem_append.1 hreading with hreading | hreading
    · exact hpair _ _ reading hreading
    · rw [oneDigit] at hreading
      split at hreading
      · rw [List.mem_singleton.1 hreading]
        exact ⟨b, c :: rest, rfl, hb⟩
      · cases hreading
  · exact hpair _ _ reading hreading

/-- No month is read in a day of the year, since no dash follows its digits. -/
theorem calendarDay_fixed (h : Fixed 3 digits) (rest : List Char) :
    ∃ more, calendarDay (digits ++ ('T' : Char) :: rest) =
      (.ofYear (Decimal.value digits), ('T' : Char) :: rest) :: more := by
  obtain ⟨a, b, c, rfl⟩ := List.length_eq_three.1 h.length
  obtain ⟨-, hb, hc, -⟩ : isAsciiDigit a = true ∧ isAsciiDigit b = true ∧ isAsciiDigit c = true ∧
      True := by
    simpa using h.digit
  obtain ⟨more, hmore⟩ := digitsUpTo_run 3 h.isDigit (List.cons_ne_nil _ _) (Nat.le_refl 3)
    (fun d (hd : (('T' : Char) :: rest).head? = some d) => by cases hd; decide)
  rw [calendarDay, hmore]
  refine ⟨_, congrArg (· ++ _) (List.flatMap_eq_nil_iff.2 ?_)⟩
  rintro ⟨m, left⟩ hreading
  obtain ⟨d, left', rfl, hd⟩ := digit_after_month hb hc _ hreading
  have hdash : d ≠ '-' := fun heq => absurd (heq ▸ hd) (by decide)
  exact congrArg (List.map _) (after_of_ne hdash dayOfMonth)

/-- A day-of-year timestamp in range is read by its pieces. -/
theorem read?_text {w : WrittenTimestamp} (hplaces : w.FractionFits places) (h : w.Digits)
    (hrange : w.numbers.InRange) :
    read? places w.text = some {
      year := w.numbers.year
      day := .ofYear w.numbers.day
      hour := w.numbers.hours
      minute := w.numbers.minutes
      second := w.numbers.seconds
      milliseconds := .int w.numbers.milliseconds
      time := clockText w } := by
  obtain ⟨more, hday⟩ := calendarDay_fixed h.day (clockText w)
  have hclock : firstAtEnd (clockWritten places (clockText w)) =
      some ((⟨w.hours, some w.minutes, some (w.seconds, w.milliseconds)⟩, clockText w), []) := by
    rw [clockWritten, firstAtEnd_map (fun c rest =>
      (c, (clockText w).take ((clockText w).length - rest.length))),
      firstAtEnd_clock hplaces h hrange.hours hrange.minutes hrange.seconds]
    simp
  have htime : firstAtEnd (timePart places ('T' :: clockText w)) =
      some (some (⟨w.hours, some w.minutes, some (w.seconds, w.milliseconds)⟩, clockText w),
        []) := by
    rw [timePart, firstAtEnd_append, firstAtEnd_append, after, Cut.char?_cons_self]
    change ((firstAtEnd (optionally (clockWritten places) (clockText w))).or _).or _ = _
    rw [optionally, firstAtEnd_append, firstAtEnd_map (fun c _ => some c), hclock]
    rfl
  have hparts := firstAtEnd_map
    (fun time _ => ofParts places w.year (.ofYear (Decimal.value w.day)) time)
    (timePart places ('T' :: clockText w))
  rw [htime] at hparts
  have hmilliseconds : fractionMilliseconds places (w.milliseconds.getD ['0']) =
      .int w.numbers.milliseconds := by
    rw [WrittenTimestamp.numbers]
    cases hwritten : w.milliseconds with
    | none => exact fractionMilliseconds_zero places
    | some digits => exact fractionMilliseconds_eq places (h.milliseconds digits hwritten)
  have htext : w.text = w.year ++ ('-' : Char) :: (w.day ++ ('T' : Char) :: clockText w) := rfl
  rw [read?, htext, h.year.exactly?]
  simp only [Option.bind_eq_bind, Option.bind_some, Cut.char?_cons_self, hday, List.flatMap_cons]
  change Option.map (·.1) (firstAtEnd (_ ++ _)) = _
  rw [firstAtEnd_append, hparts]
  simp only [Option.map_some, Option.some_or, ofParts, Option.bind_some, Option.getD_some,
    hmilliseconds]
  rfl

/-- A timestamp in range is read from its text as it was written. -/
theorem read?_written {t : FoundTimestamp} (hplaces : t.written.FractionFits places)
    (h : t.InRange) :
    read? places t.written.text = some {
      year := t.year
      day := .ofYear t.day
      hour := t.hours
      minute := t.minutes
      second := t.seconds
      milliseconds := .int t.milliseconds
      time := clockText t.written } := by
  have hrange : t.written.numbers.InRange := t.numbers_written.symm ▸ h
  have hread := read?_text hplaces h.digits_written hrange
  rwa [t.numbers_written] at hread

end Timestamp

end CommandSequence
