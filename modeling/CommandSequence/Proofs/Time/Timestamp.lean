import CommandSequence.Proofs.Number.Width
import CommandSequence.Proofs.Text.Cut
import CommandSequence.Proofs.Time.Instant

/-!
# Day-of-year timestamps as text

A timestamp is written in pieces of ASCII digits, each of its own width (`WrittenTimestamp`). Pieces
are found in a text by their widths (`WrittenTimestamp.find?_text`), and numbers in range are
written in one way only (`WrittenTimestamp.written_numbers`), so that writing an instant and reading
a timestamp undo each other (`timestamps_inverse`).
-/

namespace CommandSequence

open Calendar Character
open Decimal (Fixed)

/-! ## Timestamps in pieces -/

/-- The pieces of a timestamp as it is written. -/
structure WrittenTimestamp where
  year : List Char
  day : List Char
  hours : List Char
  minutes : List Char
  seconds : List Char
  milliseconds : Option (List Char)

namespace WrittenTimestamp

/-- The point and the milliseconds, if there are any. -/
def fraction (w : WrittenTimestamp) : List Char :=
  match w.milliseconds with
  | none => []
  | some digits => ('.' : Char) :: digits

/-- The timestamp `YYYY-DDDThh:mm:ss[.mmm]`. -/
def text (w : WrittenTimestamp) : List Char :=
  w.year ++ ('-' : Char) :: (w.day ++ ('T' : Char) :: (w.hours ++ (':' : Char) :: (w.minutes ++
    (':' : Char) :: (w.seconds ++ w.fraction))))

/-- The numbers that the pieces stand for. -/
def numbers (w : WrittenTimestamp) : FoundTimestamp where
  year := Decimal.value w.year
  day := Decimal.value w.day
  hours := Decimal.value w.hours
  minutes := Decimal.value w.minutes
  seconds := Decimal.value w.seconds
  milliseconds := Decimal.value (w.milliseconds.getD [])

/-- The pieces are ASCII digits, each as many as the form asks for. -/
structure Digits (w : WrittenTimestamp) : Prop where
  year : Fixed 4 w.year
  day : Fixed 3 w.day
  hours : Fixed 2 w.hours
  minutes : Fixed 2 w.minutes
  seconds : Fixed 2 w.seconds
  milliseconds : ∀ digits ∈ w.milliseconds, Fixed 3 digits

end WrittenTimestamp

/-- A piece of digits is cut off by its width, whatever follows it. -/
theorem Decimal.Fixed.exactly? {width : Nat} {digits : List Char} (h : Fixed width digits)
    (rest : List Char) :
    Cut.exactly? Character.isDigit width (digits ++ rest) = some (digits, rest) := by
  rw [← h.length]
  exact Cut.exactly?_append h.isDigit rest

namespace WrittenTimestamp

variable {w : WrittenTimestamp}

theorem milliseconds_fraction (h : w.Digits) :
    ((Cut.exactly? isDigit 3 (Cut.skipChar '.' w.fraction)).map (·.1)).getD [] =
      w.milliseconds.getD [] := by
  unfold fraction
  cases hmilliseconds : w.milliseconds with
  | none => rfl
  | some digits =>
    have hdigits := (h.milliseconds digits hmilliseconds).exactly? []
    rw [List.append_nil] at hdigits
    simp only [Cut.skipChar_cons_self, hdigits, Option.map_some, Option.getD_some]

theorem atFront?_text (h : w.Digits) : FoundTimestamp.atFront? w.text = some w.numbers := by
  simp only [FoundTimestamp.atFront?, text, h.year.exactly?, h.day.exactly?, h.hours.exactly?,
    h.minutes.exactly?, h.seconds.exactly?, Cut.char?_cons_self, Option.bind_eq_bind,
    Option.bind_some, milliseconds_fraction h]
  rfl

/-- The timestamp that is found in a written one is that of its numbers. -/
theorem find?_text (h : w.Digits) : FoundTimestamp.find? w.text = some w.numbers := by
  have hfront := atFront?_text h
  cases htext : w.text with
  | nil => rw [htext] at hfront; cases hfront
  | cons c rest =>
    rw [htext] at hfront
    rw [FoundTimestamp.find?, hfront, Option.some_or]

theorem timestampMilliseconds_text (h : w.Digits) :
    timestampMilliseconds w.text = w.numbers.instant.map (·.milliseconds) := by
  rw [timestampMilliseconds, find?_text h]

end WrittenTimestamp

/-! ## Numbers in pieces -/

/-- A timestamp as it is written, with milliseconds only if they are not zero. -/
def FoundTimestamp.written (t : FoundTimestamp) : WrittenTimestamp where
  year := padded 4 t.year
  day := padded 3 t.day
  hours := padded 2 t.hours
  minutes := padded 2 t.minutes
  seconds := padded 2 t.seconds
  milliseconds := if 0 < t.milliseconds then some (padded 3 t.milliseconds) else none

theorem value_padded (width n : Nat) : Decimal.value (padded width n) = n :=
  Decimal.value_zeroFill width n

theorem padded_value {width : Nat} {digits : List Char} (h : Fixed width digits)
    (hwidth : 0 < width) : padded width (Decimal.value digits) = digits :=
  h.zeroFill_value hwidth

/-- A number below a power of ten is padded to digits of the width. -/
theorem fixed_padded {width n : Nat} (hwidth : 0 < width) (h : n < tenPow width) :
    Fixed width (padded width n) :=
  Decimal.fixed_zeroFill hwidth h

namespace FoundTimestamp

variable {t : FoundTimestamp}

theorem numbers_written (t : FoundTimestamp) : t.written.numbers = t := by
  have hmilliseconds : Decimal.value (t.written.milliseconds.getD []) = t.milliseconds := by
    by_cases hzero : 0 < t.milliseconds
    · rw [written, if_pos hzero, Option.getD_some, value_padded]
    · rw [written, if_neg hzero, Option.getD_none, Decimal.value_nil,
        Nat.eq_zero_of_not_pos hzero]
  rw [WrittenTimestamp.numbers, hmilliseconds]
  simp only [written, value_padded]

theorem InRange.day_lt (h : t.InRange) : t.day < 1000 :=
  Nat.lt_of_le_of_lt (Nat.le_trans h.day.2 (yearLength_bounds _).2) (by decide)

theorem InRange.digits_written (h : t.InRange) : t.written.Digits where
  year := fixed_padded (by decide) (Nat.lt_succ_of_le h.year.2)
  day := fixed_padded (by decide) h.day_lt
  hours := fixed_padded (by decide) (Nat.lt_trans h.hours (by decide))
  minutes := fixed_padded (by decide) (Nat.lt_trans h.minutes (by decide))
  seconds := fixed_padded (by decide) (Nat.lt_trans h.seconds (by decide))
  milliseconds := by
    intro digits hdigits
    by_cases hzero : 0 < t.milliseconds
    · rw [written, if_pos hzero] at hdigits
      cases hdigits
      exact fixed_padded (by decide) h.milliseconds
    · rw [written, if_neg hzero] at hdigits
      cases hdigits

end FoundTimestamp

/-- Pieces of digits without zero milliseconds are those of their numbers. -/
theorem WrittenTimestamp.written_numbers {w : WrittenTimestamp} (h : w.Digits)
    (hmilliseconds : ∀ digits ∈ w.milliseconds, 0 < Decimal.value digits) :
    w.numbers.written = w := by
  have hpiece : w.numbers.written.milliseconds = w.milliseconds := by
    unfold FoundTimestamp.written numbers
    cases hpiece : w.milliseconds with
    | none => rfl
    | some digits =>
      dsimp only
      rw [Option.getD_some, if_pos (hmilliseconds digits hpiece),
        padded_value (h.milliseconds digits hpiece) (by decide)]
  obtain ⟨year, day, hours, minutes, seconds, milliseconds⟩ := w
  simp only [FoundTimestamp.written, numbers, padded_value h.year, padded_value h.day,
    padded_value h.hours, padded_value h.minutes, padded_value h.seconds,
    Nat.zero_lt_succ] at hpiece ⊢
  rw [hpiece]

/-! ## Instants and timestamps -/

namespace Instant

variable {i : Instant}

/-- From the second year on an instant has a timestamp, which is written from its fields. -/
theorem timestamp_eq (hyear : 2 ≤ i.year) : i.timestamp true = .ok i.numbers.written.text := by
  have hcounted : i.countedDay = .ok i.dayOfYear := if_neg (Nat.not_le_of_lt hyear)
  rw [timestamp, fields, hcounted, ok_bind]
  by_cases hzero : 0 < i.millisecond
  · simp -implicitDefEqProofs [WrittenTimestamp.text, WrittenTimestamp.fraction,
      FoundTimestamp.written, numbers, hzero, ok_bind, pure, Except.pure]
  · simp -implicitDefEqProofs [WrittenTimestamp.text, WrittenTimestamp.fraction,
      FoundTimestamp.written, numbers, hzero, ok_bind, pure, Except.pure]

/-- The timestamp of an instant reads as the milliseconds of the instant, rounded down. -/
theorem timestampMilliseconds_timestamp (h : i.InRange) (hyear : 2 ≤ i.year) :
    Succeeds (i.timestamp true >>= timestampMilliseconds) (· = i.milliseconds) := by
  obtain ⟨i', hi', hmilliseconds⟩ := instant_numbers h
  refine Succeeds.bind (P := (· = i.numbers.written.text)) ⟨_, timestamp_eq hyear, rfl⟩ ?_
  rintro _ rfl
  rw [WrittenTimestamp.timestampMilliseconds_text (inRange_numbers h).digits_written,
    FoundTimestamp.numbers_written, hi', ← hmilliseconds]
  exact .ok rfl

end Instant

/-- A timestamp in ASCII digits of a day from the second year on, with milliseconds only if they are
not zero. -/
structure WrittenTimestamp.Canonical (w : WrittenTimestamp) : Prop where
  digits : w.Digits
  inRange : w.numbers.InRange
  counted : 2 ≤ w.numbers.year
  milliseconds : ∀ digits ∈ w.milliseconds, 0 < Decimal.value digits

/-- A canonical timestamp is that of the instant that it names. -/
theorem WrittenTimestamp.Canonical.timestamp {w : WrittenTimestamp} (h : w.Canonical) :
    Succeeds (do (← Instant.ofMilliseconds (← timestampMilliseconds w.text)).timestamp true)
      (· = w.text) := by
  obtain ⟨i, hi, hrange, hnumbers, hwhole⟩ := h.inRange.instant
  have hread : timestampMilliseconds w.text = .ok i.milliseconds := by
    rw [timestampMilliseconds_text h.digits, hi]
    rfl
  have hinstant : Instant.ofMilliseconds i.milliseconds = .ok i :=
    Instant.ofMicroseconds_eq_ok.2 ⟨hwhole.symm, hrange⟩
  have hyear : 2 ≤ i.year := by
    have hcounted := h.counted
    rw [← hnumbers] at hcounted
    exact hcounted
  refine ⟨w.text, ?_, rfl⟩
  rw [hread, ok_bind, hinstant, ok_bind, Instant.timestamp_eq hyear, hnumbers,
    written_numbers h.digits h.milliseconds]

/-- From the second year on the milliseconds of instants and day-of-year timestamps are inverse. The
timestamp of a local time at any offset reads as the milliseconds of its instant, rounded down. -/
theorem timestamps_inverse :
    (∀ (milliseconds : Int) (i : Instant), Instant.ofMilliseconds milliseconds = .ok i →
        2 ≤ i.year → Succeeds (i.timestamp true >>= timestampMilliseconds) (· = milliseconds)) ∧
      (∀ (t : LocalTime) (offset : Int) (i : Instant), t.instantAt offset = .ok i → 2 ≤ i.year →
        Succeeds (i.timestamp true >>= timestampMilliseconds)
          (· = i.microseconds.fdiv 1000)) ∧
      ∀ w : WrittenTimestamp, w.Canonical →
        Succeeds (do (← Instant.ofMilliseconds (← timestampMilliseconds w.text)).timestamp true)
          (· = w.text) := by
  refine ⟨?_, ?_, fun w h => h.timestamp⟩
  · intro milliseconds i hi hyear
    obtain ⟨hmicroseconds, hrange⟩ := Instant.ofMicroseconds_eq_ok.1 hi
    have hwhole : i.milliseconds = milliseconds := by
      rw [Instant.milliseconds, hmicroseconds, Int.fdiv_eq_ediv_of_nonneg _ (by decide)]
      omega
    exact hwhole ▸ Instant.timestampMilliseconds_timestamp hrange hyear
  · intro t offset i hi hyear
    obtain ⟨wall, -, hi⟩ := bind_eq_ok.1 hi
    exact Instant.timestampMilliseconds_timestamp (Instant.ofMicroseconds_eq_ok.1 hi).2 hyear

/-- A whole hour of a leap year's last day; a local new year that is a year earlier in universal
time; a timestamp before 1970 with milliseconds. -/
theorem timestamps_inverse_across_years :
    Succeeds ((⟨1609430400000000⟩ : Instant).timestamp true >>= timestampMilliseconds)
        (· = 1609430400000) ∧
      Succeeds ((⟨946683000000998⟩ : Instant).timestamp true >>= timestampMilliseconds)
        (· = 946683000000) ∧
      Succeeds (do
        (← Instant.ofMilliseconds (← timestampMilliseconds
          (String.toList "1904-366T23:59:59.001"))).timestamp true)
        (· = String.toList "1904-366T23:59:59.001") := by
  let w : WrittenTimestamp := ⟨String.toList "1904", String.toList "366", String.toList "23",
    String.toList "59", String.toList "59", some (String.toList "001")⟩
  have hw : w.Canonical := {
    digits := {
      year := by decide
      day := by decide
      hours := by decide
      minutes := by decide
      seconds := by decide
      milliseconds := by rintro _ ⟨⟩; decide }
    inRange := ⟨by decide, by decide, by decide, by decide, by decide, by decide⟩
    counted := by decide
    milliseconds := by rintro _ ⟨⟩; decide }
  refine ⟨timestamps_inverse.1 _ _ (by decide) (by decide), ?_, timestamps_inverse.2.2 w hw⟩
  exact timestamps_inverse.2.1
    { year := 2000, month := 1, day := 1, hour := 0, minute := 30, microsecond := 999 } 3600000001
    _ (by decide) (by decide)

end CommandSequence
