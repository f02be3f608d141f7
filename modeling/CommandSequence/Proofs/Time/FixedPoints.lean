import CommandSequence.Proofs.Time.Anchoring
import CommandSequence.Proofs.Time.Precision

/-!
# Rebalancing twice

What a rebalancing writes is a tag whose clock is in range and whose day is a day of a year
(`Duration.inYear_retagged`). Such a tag is anchored on its own day of 1970, so it is written again
as it is (`WholeTag.InYear.balance_text`), unless the day is the 366th: 1970 has none, and the
instant is the first day of 1971 (`WholeTag.InYear.balance_text_of_lastDay`). A 366th day is written
only for fields with a year among them (`Duration.years_of_lastDay`), since a duration without years
does not reach 1972.
-/

namespace CommandSequence

open Calendar
open Decimal (Fixed)

/-- A tag has a clock in range, and its day is one of a year. -/
structure WholeTag.InYear (w : WholeTag) : Prop extends w.InRange where
  day : ∀ digits ∈ w.days, 1 ≤ Decimal.value digits ∧ Decimal.value digits ≤ 366

theorem Duration.inYear_retagged (d : Duration) {i : Instant} (h : i.InRange) :
    (d.retagged i).InYear where
  digits := digits_retagged h
  hours := by
    rw [counts_retagged]
    exact (Instant.inRange_numbers h).hours
  minutes := by
    rw [counts_retagged]
    exact (Instant.inRange_numbers h).minutes
  seconds := by
    rw [counts_retagged]
    exact (Instant.inRange_numbers h).seconds
  day := by
    have hfirst : 1 ≤ i.dayOfYear := i.isDay_day.first
    have hlast : i.dayOfYear ≤ 366 := Nat.le_trans i.isDay_day.last (yearLength_bounds _).2
    intro digits hdigits
    rcases d.days_retagged i with ⟨-, hdays⟩ | ⟨-, hsecond, hdays⟩ | ⟨-, -, hdays⟩
    · rw [hdays] at hdigits
      cases hdigits
      rw [value_padded]
      exact ⟨hfirst, hlast⟩
    · rw [hdays] at hdigits
      cases hdigits
      rw [value_padded]
      omega
    · rw [hdays] at hdigits
      cases hdigits

namespace WholeTag

variable {w : WholeTag} {places : Int}

theorem counts_days_none (h : w.days = none) : w.counts.days = 0 := by
  rw [counts, h]
  rfl

theorem counts_days_some {digits : List Char} (h : w.days = some digits) :
    w.counts.days = Decimal.value digits := by
  rw [counts, h]
  rfl

/-- The counts of a tag with a clock in range fit it. -/
theorem InRange.fits (h : w.InRange) : w.counts.Fits where
  days := by
    cases hdays : w.days with
    | none =>
      rw [counts_days_none hdays]
      decide
    | some digits =>
      rw [counts_days_some hdays]
      exact (h.digits.days digits hdays).value_lt
  hours := Nat.lt_trans h.hours (by decide)
  minutes := Nat.lt_trans h.minutes (by decide)
  seconds := Nat.lt_trans h.seconds (by decide)
  milliseconds := h.digits.milliseconds.value_lt

/-- The tag with another day of the year. Without a day of its own the first one counts as none. -/
def onDay (w : WholeTag) (day : Nat) : WholeTag :=
  { w with days := if 0 < w.counts.days then some (padded 3 day)
      else if 1 < day then some (padded 3 (day - 1)) else none }

/-- An instant with the clock of a tag is written as that tag, on the day of the instant. -/
theorem retagged_counts (h : w.Digits) {i : Instant} {year day : Nat}
    (hnumbers : i.numbers = { w.counts.anchor with year := year, day := day }) :
    w.counts.duration.retagged i = w.onDay day := by
  simp only [Instant.numbers, ClockCounts.anchor, FoundTimestamp.mk.injEq] at hnumbers
  obtain ⟨-, rfl, hhour, hminute, hsecond, hmillisecond⟩ := hnumbers
  have hdays : (w.counts.duration.retagged i).days = (w.onDay i.dayOfYear).days := by
    by_cases hpositive : 0 < w.counts.days
    · simp [Duration.retagged, onDay, ClockCounts.duration, Number.isPositive, hpositive]
    · simp [Duration.retagged, onDay, ClockCounts.duration, Number.isPositive, hpositive]
  have hclock : padded 2 i.hour = w.hours ∧ padded 2 i.minute = w.minutes ∧
      padded 2 i.second = w.seconds ∧ padded 3 i.millisecond = w.milliseconds := by
    rw [hhour, hminute, hsecond, hmillisecond]
    exact ⟨padded_value h.hours (by decide), padded_value h.minutes (by decide),
      padded_value h.seconds (by decide), padded_value h.milliseconds (by decide)⟩
  obtain ⟨hhours, hminutes, hseconds, hmilliseconds⟩ := hclock
  unfold Duration.retagged onDay at hdays ⊢
  dsimp only at hdays
  rw [hdays, hhours, hminutes, hseconds, hmilliseconds]
  rfl

/-- A tag is written again on the day of any timestamp that has the same clock and the same instant
as the anchor of its counts. -/
theorem balance_text_of_instant (h : w.InRange) (hthree : 3 ≤ places)
    (hgreatest : places ≤ maxPlaces)
    {year day : Nat} (hyear : 2 ≤ year ∧ year ≤ 9999) (hday : 1 ≤ day ∧ day ≤ yearLength year)
    (hsame : FoundTimestamp.instant { w.counts.anchor with year := year, day := day } =
      w.counts.anchor.instant) :
    (balance places w.text).result = .ok (w.onDay day).text := by
  have hread : Duration.read places "seconds" w.text = .ok w.counts.duration :=
    Duration.read_of_ofTag? (ofTag?_text h.digits) (by omega) hgreatest "seconds"
  have hrange : FoundTimestamp.InRange { w.counts.anchor with year := year, day := day } :=
    ⟨⟨Nat.le_of_succ_le hyear.1, hyear.2⟩, hday, h.hours, h.minutes, h.seconds, h.fits.milliseconds⟩
  obtain ⟨i, hi, hnumbers⟩ := ClockCounts.instant_anchored h.fits hrange hsame
  have hinstant : w.counts.duration.anchoredInstant = .ok i := by
    rw [Duration.anchoredInstant, ClockCounts.anchor_duration h.fits]
    exact hi
  have hcounted : i.year = year := congrArg FoundTimestamp.year hnumbers
  rw [balance_eq_of_read (by omega) hgreatest hread]
  refine Duration.rebalanced_eq_ok.2 ⟨i, hinstant, hcounted ▸ hyear.1, ?_, ?_⟩
  · intro hfew
    omega
  · rw [retagged_counts h.digits hnumbers]

/-- A tag on a day that 1970 has is written again as it is. -/
theorem InYear.balance_text (h : w.InYear) (hthree : 3 ≤ places) (hgreatest : places ≤ maxPlaces)
    (hday : w.days ≠ some (String.toList "366")) : (balance places w.text).result = .ok w.text := by
  have hlast : w.counts.days ≤ 365 ∧ w.onDay (max 1 w.counts.days) = w := by
    cases hdays : w.days with
    | none =>
      have hzero := counts_days_none hdays
      rw [onDay, hzero, if_neg (by decide), if_neg (by decide), ← hdays]
      exact ⟨by decide, rfl⟩
    | some digits =>
      obtain ⟨hfirst, hlast⟩ := h.day digits hdays
      have hvalue := counts_days_some hdays
      have hspelled : padded 3 w.counts.days = digits := by
        rw [hvalue]
        exact padded_value (h.digits.days digits hdays) (by decide)
      have hother : w.counts.days ≠ 366 := by
        intro heq
        rw [heq] at hspelled
        exact hday (hdays.trans (congrArg some hspelled.symm))
      refine ⟨by omega, ?_⟩
      rw [onDay, if_pos (by omega), Nat.max_eq_right (by omega), hspelled, ← hdays]
  have hwithin : 1 ≤ max 1 w.counts.days ∧ max 1 w.counts.days ≤ yearLength 1970 := by
    have hyear : yearLength 1970 = 365 := by decide
    omega
  have hwritten := balance_text_of_instant h.toInRange hthree hgreatest (by decide) hwithin rfl
  rwa [hlast.2] at hwritten

/-- The 366th day is the first one of the year after 1970. -/
theorem InYear.balance_text_of_lastDay (h : w.InYear) (hthree : 3 ≤ places)
    (hgreatest : places ≤ maxPlaces) (hday : w.days = some (String.toList "366")) :
    (balance places w.text).result = .ok (w.onDay 1).text := by
  have hdays : w.counts.days = 366 := by
    rw [counts_days_some hday]
    decide
  have hsame : daysBeforeYear 1971 + 1 = daysBeforeYear 1970 + max 1 w.counts.days := by
    rw [hdays]
    decide
  have hinstant : FoundTimestamp.instant { w.counts.anchor with year := 1971, day := 1 } =
      w.counts.anchor.instant := by
    have hyears : (1 ≤ 1971 ∧ 1971 ≤ 9999) ∧ 1 ≤ 1970 ∧ 1970 ≤ 9999 := by decide
    rw [FoundTimestamp.instant_eq (t := { w.counts.anchor with year := 1971, day := 1 }) hyears.1,
      FoundTimestamp.instant_eq (t := w.counts.anchor) hyears.2]
    change Instant.ofMicroseconds (((daysBeforeYear 1971 + 1 : Nat) - 719163 : Int) * 86400000000 +
      w.counts.anchor.timeOfDay) = _
    rw [hsame]
    rfl
  have hfirst : 1 ≤ 1 ∧ 1 ≤ yearLength 1971 := by decide
  exact balance_text_of_instant h.toInRange hthree hgreatest (by decide) hfirst hinstant

end WholeTag

/-! ## The 366th day -/

/-- The instant of a duration lies at most some days after the beginning of its year. -/
theorem FoundIn.lastDay_le {t t' : FoundTimestamp} (h : FoundIn t' t) :
    t'.lastDay ≤ t'.day + 4 := by
  have hhours := h.hours
  have hminutes := h.minutes
  have hseconds := h.seconds.1
  have hmilliseconds := h.milliseconds.1
  have htime : t'.timeOfDay < 5 * 86400000000 := by
    rw [FoundTimestamp.timeOfDay_eq]
    omega
  unfold FoundTimestamp.lastDay
  omega

/-- Within three years from 1970 on no instant lies on a 366th day. -/
theorem dayOfYear_ne_of_year {t : FoundTimestamp} {i : Instant} (h : t.instant = .ok i)
    (hday : 1 ≤ t.day) (hyear : t.year = 1970) (hlast : t.lastDay < 1096) : i.dayOfYear ≠ 366 := by
  intro hleap
  have hlength := i.isDay_day.last
  rw [hleap] at hlength
  have hcases := FoundTimestamp.dayOfYear_cases h hday
  rw [hyear] at hcases
  have hlater : 1972 ≤ i.year := by
    by_contra hearly
    have hcommon : i.year = 1970 ∨ i.year = 1971 := by omega
    rcases hcommon with heq | heq
    · rw [heq] at hlength
      exact absurd hlength (by decide)
    · rw [heq] at hlength
      exact absurd hlength (by decide)
  have hbefore := daysBeforeYear_le (by decide) hlater
  have hcounted : daysBeforeYear 1970 + 730 = daysBeforeYear 1972 := by decide
  omega

namespace Duration

/-- Only fields with a year among them lead to a 366th day: what has no years lies within three
years from 1970 on, and a bare number has fewer days than a year. -/
theorem years_of_lastDay {places : Int} {unit : String} {text : List Char} {d : Duration}
    {i : Instant} (hread : read places unit text = .ok d) (h : d.anchoredInstant = .ok i)
    (hday : i.dayOfYear = 366) : ofFields? text = some d ∧ d.years.isZero = false := by
  obtain ⟨anchored, hanchor, -⟩ := bind_eq_ok.1 h
  obtain ⟨t, hfloors, rfl⟩ := exists_floors (nonNegative_of_read hread) hanchor
  rcases anchoredInstant_cases hanchor h with rfl | ⟨t', hfound, hinstant⟩
  · exact absurd hday (by decide)
  · have hfirst : 1 ≤ t'.day := by
      obtain ⟨days, -, hmax⟩ := hfloors.day
      rw [hfound.day.2, hmax]
      exact Nat.le_max_left 1 days
    have hyears : d.years.isZero = false := by
      by_contra hzero
      rw [Bool.not_eq_false] at hzero
      have hanchored := hfloors.year
      rw [if_pos hzero] at hanchored
      have hyear : t'.year = 1970 := by
        rw [hfound.year (by omega), hanchored]
      have hlast := hfound.lastDay_le
      have hthousand := hfound.day
      exact dayOfYear_ne_of_year hinstant hfirst hyear (by omega) hday
    refine ⟨?_, hyears⟩
    rcases read_cases hread with hfields | ⟨c, -, rfl⟩ | ⟨c, hnormal, rfl⟩
    · exact hfields
    · cases hyears
    · obtain ⟨year, -, rfl⟩ := c.exists_year hfloors
      have htime : t'.timeOfDay < 86400000000 := by
        refine Nat.lt_of_le_of_lt hfound.timeOfDay_le ?_
        have hhours := hnormal.hours
        have hminutes := hnormal.minutes
        have hseconds := hnormal.seconds
        have hmilliseconds := hnormal.milliseconds
        rw [FoundTimestamp.timeOfDay_eq]
        simp only [ClockCounts.anchor]
        omega
      have hlast : t'.lastDay = max 1 c.days := by
        rw [FoundTimestamp.lastDay, Nat.div_eq_of_lt htime, hfound.day.2]
        rfl
      have hdays := hnormal.days
      have hcases := FoundTimestamp.dayOfYear_cases hinstant hfirst
      omega

/-- A day that is written as the 366th is the 366th of the year. -/
theorem dayOfYear_of_retagged {d : Duration} {i : Instant}
    (h : (d.retagged i).days = some (String.toList "366")) : i.dayOfYear = 366 := by
  have hlast : i.dayOfYear ≤ 366 := Nat.le_trans i.isDay_day.last (yearLength_bounds _).2
  have hdays : (d.retagged i).counts.days = 366 := by
    rw [WholeTag.counts_days_some h]
    decide
  rw [counts_retagged] at hdays
  dsimp only at hdays
  split at hdays
  · exact hdays
  · omega

end Duration

/-- Rebalancing a tag that a rebalancing has written gives the same tag, unless its day is the 366th
of the year. That day becomes the first one, and it is written only for fields with unit suffixes
and with years, which are anchored in a leap year. -/
theorem balance_balance {places : Int} {text tag : List Char} (hthree : 3 ≤ places)
    (h : (balance places text).result = .ok tag) :
    ∃ w : WholeTag, tag = w.text ∧ w.InYear ∧
      (w.days ≠ some (String.toList "366") → (balance places tag).result = .ok tag) ∧
      (w.days = some (String.toList "366") →
        (balance places tag).result =
          .ok (WholeTag.text { w with days := some (String.toList "001") }) ∧
          ∃ d, Duration.ofFields? text = some d ∧ d.years.isZero = false) := by
  have hgreatest := limit_of_balance h
  rw [balance_eq_rebalanced (by omega) hgreatest] at h
  obtain ⟨d, hread, h⟩ := bind_eq_ok.1 h
  obtain ⟨i, hi, -, -, rfl⟩ := Duration.rebalanced_eq_ok.1 h
  have hrange := Duration.inRange_of_anchoredInstant hi
  have hyear := d.inYear_retagged hrange
  refine ⟨d.retagged i, rfl, hyear, hyear.balance_text hthree hgreatest, ?_⟩
  intro hday
  have hwritten := hyear.balance_text_of_lastDay hthree hgreatest hday
  have hpositive : 0 < (d.retagged i).counts.days := by
    rw [WholeTag.counts_days_some hday]
    decide
  rw [WholeTag.onDay, if_pos hpositive] at hwritten
  exact ⟨hwritten, d, Duration.years_of_lastDay hread hi (Duration.dayOfYear_of_retagged hday)⟩

/-- A tag after a carry into the first day. -/
theorem balance_balance_carried : (3 : Int) ≤ 6 ∧
    (balance 6 (String.toList "-23:59:60.5")).result = .ok (String.toList "-001T00:00:00.500") ∧
    (balance 6 (String.toList "-001T00:00:00.500")).result =
      .ok (String.toList "-001T00:00:00.500") := by
  have hfirst : (balance 6 (String.toList "-23:59:60.5")).result =
      .ok (String.toList "-001T00:00:00.500") := by
    decide +kernel
  obtain ⟨w, htag, -, hfixed, hlast⟩ := balance_balance (by decide) hfirst
  refine ⟨by decide, hfirst, hfixed ?_⟩
  intro hday
  obtain ⟨-, d, hfields, -⟩ := hlast hday
  have hnone : Duration.ofFields? (String.toList "-23:59:60.5") = none := by decide +kernel
  rw [hnone] at hfields
  cases hfields

/-- The last day of the leap year 4 is written as it is, but it is none of 1970. -/
theorem balance_balance_ne : (3 : Int) ≤ 6 ∧
    (balance 6 (String.toList "4y 366d")).result = .ok (String.toList "366T00:00:00.000") ∧
    (balance 6 (String.toList "366T00:00:00.000")).result =
      .ok (String.toList "001T00:00:00.000") := by
  decide +kernel

end CommandSequence
