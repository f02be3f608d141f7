import CommandSequence.Proofs.Time.Balance
import CommandSequence.Proofs.Time.Carry

/-!
# When a duration reads back from its tag

A duration is written as a clock tag with its years folded into days. Whatever is read as a clock
tag has counts of the widths of its pieces, so no duration with a wider count reads back; one that
fits is written in the pieces of a clock tag, and these are read as they are written
(`ClockCounts.ofTag?_written`). So fitting is all that it takes (`tagReadsBack_iff`).
-/

namespace CommandSequence

open Decimal (Fixed)

/-! ## Counts in pieces -/

namespace ClockCounts

variable {c : ClockCounts}

/-- The digits of the fraction of a tag: three of milliseconds, and three more of microseconds.
Those that are zero up to the end are not written. -/
def fraction (c : ClockCounts) : List Char :=
  if c.microseconds ≠ 0 then padded 3 c.milliseconds ++ padded 3 c.microseconds
  else if c.milliseconds ≠ 0 then padded 3 c.milliseconds else []

/-- The pieces of the tag of counts. A day is written only if it is not zero. -/
def written (c : ClockCounts) : ClockPieces where
  sign := if c.negative then some '-' else none
  days := if c.days ≠ 0 then some (padded 3 c.days) else none
  mark := c.days ≠ 0
  hours := padded 2 c.hours
  minutes := padded 2 c.minutes
  seconds := some (padded 2 c.seconds)
  point := c.fraction ≠ []
  fraction := c.fraction

/-- The milliseconds and microseconds of the fraction are those of the counts. -/
theorem take_fraction (h : c.Fits) (hmicroseconds : c.microseconds < 1000) :
    (c.fraction ++ List.replicate 6 ('0' : Char)).take 6 =
      padded 3 c.milliseconds ++ padded 3 c.microseconds := by
  have hzeros : padded 3 0 = [('0' : Char), '0', '0'] := rfl
  have hmillis : (padded 3 c.milliseconds).length = 3 :=
    (fixed_padded (by decide) h.milliseconds).length
  have hmicros : (padded 3 c.microseconds).length = 3 :=
    (fixed_padded (by decide) hmicroseconds).length
  unfold fraction
  by_cases hmicro : c.microseconds = 0
  · by_cases hmilli : c.milliseconds = 0
    · rw [if_neg (by simpa using hmicro), if_neg (by simpa using hmilli), hmicro, hmilli, hzeros]
      rfl
    · rw [if_neg (by simpa using hmicro), if_pos hmilli, hmicro, hzeros, List.take_append, hmillis,
        List.take_of_length_le (by omega)]
      rfl
  · rw [if_pos hmicro, List.take_append_of_le_length (by simp [hmillis, hmicros]),
      List.take_of_length_le (by simp [hmillis, hmicros])]

theorem proper_written (h : c.Fits) (hmicroseconds : c.microseconds < 1000) : c.written.Proper where
  sign := by
    intro sign hsign
    simp only [written, Option.mem_def, Option.ite_none_right_eq_some, Option.some.injEq] at hsign
    exact .inr hsign.2.symm
  days := by
    intro digits hdigits
    simp only [written, Option.mem_def, Option.ite_none_right_eq_some, Option.some.injEq] at hdigits
    rw [← hdigits.2]
    exact fixed_padded (by decide) h.days
  hours := fixed_padded (by decide) h.hours
  minutes := fixed_padded (by decide) h.minutes
  seconds := by
    rintro _ ⟨⟩
    exact fixed_padded (by decide) h.seconds
  fraction := by
    have hmillis : Fixed 3 (padded 3 c.milliseconds) := fixed_padded (by decide) h.milliseconds
    have hmicros : Fixed 3 (padded 3 c.microseconds) := fixed_padded (by decide) hmicroseconds
    intro digit hdigit
    unfold written fraction at hdigit
    dsimp only at hdigit
    split at hdigit
    · exact (List.mem_append.1 hdigit).elim (hmillis.digit digit) (hmicros.digit digit)
    · split at hdigit
      · exact hmillis.digit digit hdigit
      · cases hdigit

theorem ofTag?_written (h : c.Fits) (hmicroseconds : c.microseconds < 1000) :
    Duration.ofTag? c.written.text = some c.duration := by
  have hmillis : (padded 3 c.milliseconds).length = 3 :=
    (fixed_padded (by decide) h.milliseconds).length
  have hdays : Decimal.value (c.written.days.getD []) = c.days := by
    unfold written
    dsimp only
    split
    · exact value_padded 3 c.days
    · next hnone => exact (Decidable.not_not.1 hnone).symm
  have hnegative : (c.written.sign == some ('-' : Char)) = c.negative := by
    unfold written
    cases c.negative with
    | false => rfl
    | true => rfl
  have hread := ClockPieces.read?_text (proper_written h hmicroseconds) nofun
  have hfraction : c.written.fraction = c.fraction := rfl
  have hclock : Decimal.value c.written.hours = c.hours ∧
      Decimal.value c.written.minutes = c.minutes ∧
      Decimal.value (c.written.seconds.getD []) = c.seconds :=
    ⟨value_padded 2 c.hours, value_padded 2 c.minutes, value_padded 2 c.seconds⟩
  simp only [Duration.ofTag?, hread, Option.map_some, ClockPieces.tag, Duration.ofClockTag,
    hfraction, take_fraction h hmicroseconds, hdays, hnegative, hclock]
  rw [List.take_left' hmillis, List.drop_left' hmillis, value_padded, value_padded]
  rfl

/-! ## Writing -/

theorem unlessZero_natCast {n : Nat} (h : n < 1000) :
    Duration.unlessZero 3 (.int (n : Int)) = .ok (if n ≠ 0 then padded 3 n else []) := by
  by_cases hzero : n = 0
  · subst hzero
    rfl
  · have hne : (Number.int (n : Int)).isZero = false := by
      simpa [Number.isZero] using hzero
    rw [Duration.unlessZero, hne, if_pos hzero]
    exact padded_natCast 3 h

theorem fields_duration (h : c.Fits) (hmicroseconds : c.microseconds < 1000) :
    c.duration.fields = .ok {
      years := padded 4 0
      days := if c.days ≠ 0 then padded 3 c.days else []
      hours := padded 2 c.hours
      minutes := padded 2 c.minutes
      seconds := padded 2 c.seconds
      milliseconds := if c.milliseconds ≠ 0 then padded 3 c.milliseconds else []
      microseconds := if c.microseconds ≠ 0 then padded 3 c.microseconds else []
      sign := c.duration.sign } := by
  have hyears : Number.padded 4 (.int 0) = .ok (padded 4 0) := padded_natCast 4 (by decide)
  have hhours := padded_natCast 2 (Nat.lt_trans h.hours (by decide))
  have hminutes := padded_natCast 2 (Nat.lt_trans h.minutes (by decide))
  have hseconds := padded_natCast 2 (Nat.lt_trans h.seconds (by decide))
  simp only [Duration.fields, duration, hyears, hhours, hminutes, hseconds,
    unlessZero_natCast h.days, unlessZero_natCast h.milliseconds, unlessZero_natCast hmicroseconds,
    ok_bind]
  rfl

theorem padded_ne_nil (n : Nat) : padded 3 n ≠ [] := by
  apply List.ne_nil_of_length_pos
  rw [padded, Decimal.length_zeroFill]
  omega

/-- The days with their mark, if there are any. -/
theorem days_written (c : ClockCounts) :
    c.written.days.getD [] ++ c.written.marked =
      (if c.days ≠ 0 then padded 3 c.days ++ [('T' : Char)] else []) ++ c.written.clock := by
  unfold ClockPieces.marked
  by_cases hday : c.days = 0
  · simp [written, hday]
  · simp [written, hday]

/-- The point and the fraction, if there is any. -/
theorem ending_written (c : ClockCounts) :
    c.written.ending =
      if c.microseconds ≠ 0 then
        ('.' : Char) :: (padded 3 c.milliseconds ++ padded 3 c.microseconds)
      else if c.milliseconds ≠ 0 then ('.' : Char) :: padded 3 c.milliseconds else [] := by
  unfold ClockPieces.ending written fraction
  by_cases hmicro : c.microseconds = 0
  · by_cases hmilli : c.milliseconds = 0
    · simp [hmicro, hmilli]
    · simp [hmicro, hmilli, padded_ne_nil]
  · simp [hmicro, padded_ne_nil]

/-- Counts that fit are written as a tag in their pieces. -/
theorem tag_duration (h : c.Fits) (hmicroseconds : c.microseconds < 1000) :
    c.duration.tag = .ok c.written.text := by
  have hfold : c.duration.foldYears = .ok c.duration := rfl
  have hsign : c.written.sign.toList = c.duration.sign := by
    rw [written, Duration.sign, duration]
    cases c.negative with
    | false => rfl
    | true => rfl
  have hclock : c.written.clock =
      padded 2 c.hours ++ (':' : Char) ::
        (padded 2 c.minutes ++ (':' : Char) :: (padded 2 c.seconds ++ c.written.ending)) := rfl
  have hzeros : padded 3 0 = [('0' : Char), '0', '0'] := rfl
  rw [Duration.tag, hfold, ok_bind, fields_duration h hmicroseconds, ok_bind]
  refine congrArg Except.ok ?_
  rw [ClockPieces.text, hsign, days_written, hclock, ending_written]
  -- a segment is missing exactly if its count is zero
  by_cases hday : c.days = 0
  all_goals
    by_cases hmicro : c.microseconds = 0
    all_goals
      by_cases hmilli : c.milliseconds = 0
      all_goals simp [hday, hmicro, hmilli, padded_ne_nil, hzeros]

end ClockCounts

/-! ## Reading back -/

namespace WholeCounts

variable {c : WholeCounts}

theorem duration_injective {c c' : WholeCounts} (h : c.duration = c'.duration) : c = c' := by
  obtain ⟨hyears, hclock⟩ : c.years = c'.years ∧ c.toClockCounts = c'.toClockCounts := by
    refine ⟨Int.ofNat.inj (Number.int.inj (congrArg Duration.years h)), ?_⟩
    apply ClockCounts.duration_injective
    exact congrArg (fun d : Duration => { d with years := .int 0 }) h
  cases c
  cases c'
  subst hyears hclock
  rfl

/-- The counts with the years folded into the days, at 365 days each. -/
def folded (c : WholeCounts) : ClockCounts :=
  { c.toClockCounts with days := c.years * 365 + c.days }

theorem foldYears_duration (c : WholeCounts) :
    c.duration.foldYears = .ok c.folded.duration := by
  unfold Duration.foldYears
  by_cases hzero : c.years = 0
  · have hnone : c.duration.years.isZero = true := by
      rw [duration, hzero]
      rfl
    rw [hnone, if_pos rfl, duration, folded, hzero]
    simp [ClockCounts.duration]
  · have hsome : c.duration.years.isZero = false := by
      simpa [duration, Number.isZero] using hzero
    rw [hsome, if_neg Bool.false_ne_true]
    simp [duration, folded, ClockCounts.duration, Number.mul, Number.add, TimeError.ofNumber,
      ok_bind, pure, Except.pure]

/-- The tag of the counts is read as the counts with their years folded into the days. -/
def TagReadsBack (c : WholeCounts) : Prop :=
  ∃ tag, c.duration.tag = .ok tag ∧ Duration.ofTag? tag = some c.folded.duration

theorem tag_folded (c : WholeCounts) : c.duration.tag = c.folded.duration.tag := by
  have hyears : c.folded.duration.foldYears = .ok c.folded.duration := rfl
  rw [Duration.tag, Duration.tag, foldYears_duration, hyears]

theorem tagReadsBack_iff_fits (c : WholeCounts) :
    c.TagReadsBack ↔ c.folded.Fits ∧ c.microseconds < 1000 := by
  constructor
  · rintro ⟨tag, -, hread⟩
    have hmicroseconds : c.folded.microseconds < 1000 := microseconds_lt_of_ofTag? hread
    obtain ⟨counts, hcounts, hfits⟩ := exists_counts_of_ofTag? hread
    rw [ClockCounts.duration_injective hcounts]
    exact ⟨hfits, hmicroseconds⟩
  · rintro ⟨hfits, hmicroseconds⟩
    exact ⟨_, c.tag_folded.trans (ClockCounts.tag_duration hfits hmicroseconds),
      ClockCounts.ofTag?_written hfits hmicroseconds⟩

/-- Of the counts in normal form only the days can be too many for a tag. -/
theorem Normal.fits_folded_iff (h : c.Normal) :
    c.folded.Fits ∧ c.microseconds < 1000 ↔ c.totalMicroseconds < 1000 * 86400000000 := by
  obtain ⟨hmicroseconds, hmilliseconds, hseconds, hminutes, hhours, hdays⟩ := h
  have htotal : c.totalMicroseconds < 1000 * 86400000000 ↔ c.years * 365 + c.days < 1000 := by
    rw [totalMicroseconds]
    omega
  rw [htotal]
  constructor
  · rintro ⟨hfits, -⟩
    exact hfits.days
  · intro hdays
    refine ⟨⟨hdays, ?_, ?_, ?_, hmilliseconds⟩, hmicroseconds⟩
    · exact Nat.lt_trans hhours (by decide)
    · exact Nat.lt_trans hminutes (by decide)
    · exact Nat.lt_trans hseconds (by decide)

/-- A duration of whole counts reads back from its tag, with its years folded into the days, exactly
if each count fits its piece of the tag. A bare number, whose counts are carried, does so exactly if
it is shorter than a thousand days. -/
theorem tagReadsBack_iff :
    (∀ c : WholeCounts, c.TagReadsBack ↔ c.folded.Fits ∧ c.microseconds < 1000) ∧
      ∀ (unit : DurationUnit) (text : List Char) (d : Duration),
        Duration.ofNumber? unit text = .ok (some d) →
          ∃ c : WholeCounts, d = c.duration ∧
            (c.TagReadsBack ↔ c.totalMicroseconds < 1000 * 86400000000) := by
  refine ⟨tagReadsBack_iff_fits, fun unit text d h => ?_⟩
  obtain ⟨c, hnormal, rfl⟩ := Duration.exists_normal_of_ofNumber? h
  exact ⟨c, rfl, c.tagReadsBack_iff_fits.trans hnormal.fits_folded_iff⟩

/-- A clock beyond its range reads back as long as it has two digits. Half a millisecond before the
end of the thousandth day is rounded up to the end, which does not read back. -/
theorem tagReadsBack_iff_thousandDays :
    TagReadsBack ⟨⟨269, 99, 99, 99, 7, 5, true⟩, 2⟩ ∧
      Duration.ofNumber? .seconds (String.toList "86399999.9995") =
        .ok (some (duration ⟨⟨270, 0, 0, 0, 0, 0, false⟩, 2⟩)) ∧
      ∃ c : WholeCounts, duration ⟨⟨270, 0, 0, 0, 0, 0, false⟩, 2⟩ = c.duration ∧
        ¬c.TagReadsBack := by
  have hread : Duration.ofNumber? .seconds (String.toList "86399999.9995") =
      .ok (some (duration ⟨⟨270, 0, 0, 0, 0, 0, false⟩, 2⟩)) := by decide +kernel
  obtain ⟨c, hc, hback⟩ := tagReadsBack_iff.2 _ _ _ hread
  have hfits : folded ⟨⟨269, 99, 99, 99, 7, 5, true⟩, 2⟩ |>.Fits := by
    constructor
    all_goals decide
  refine ⟨(tagReadsBack_iff.1 _).2 ⟨hfits, by decide⟩, hread, c, hc, fun h => ?_⟩
  have hshort := hback.1 h
  rw [← duration_injective hc] at hshort
  exact absurd hshort (by decide)

end WholeCounts

end CommandSequence
