import CommandSequence.Proofs.Time.Anchoring
import CommandSequence.Proofs.Time.Precision

/-!
# Which counts a rebalancing keeps

Fields with unit suffixes are not carried, so a count may have more digits than its piece of the
timestamp on which the duration is anchored, and a bare number has years. What a rebalancing writes
is never more than the days and the time of day that went in (`totalMilliseconds_retagged`); it is
as much only if the duration has no years, each count fits its piece, and the year of the anchor is
not left (`keepsCounts_iff`).
-/

namespace CommandSequence

open Calendar

namespace Duration

/-- The value of the tag of an instant: its days of the year, of which the first counts only for a
duration with days, and its time of day. -/
theorem totalMilliseconds_retagged (d : Duration) (i : Instant) :
    (d.retagged i).counts.totalMilliseconds =
      (if d.days.isPositive then i.dayOfYear else i.dayOfYear - 1) * 86400000 +
        i.timeOfDay / 1000 := by
  rw [counts_retagged, ClockCounts.totalMilliseconds, ClockCounts.clockSeconds,
    Instant.timeOfDay_div]
  dsimp only
  omega

/-- The tag of the instant of a timestamp has the value of the days and the time of day that went
in, or less if the instant lies in a later year. -/
theorem value_retagged {d : Duration} {days : Nat} {t : FoundTimestamp} {i : Instant}
    (hdays : d.days = .int (days : Int)) (hinstant : t.instant = .ok i)
    (hday : t.day = max 1 days) : (i.year = t.year ∧ i.dayOfYear = t.lastDay ∧
        (d.retagged i).counts.totalMilliseconds * 1000 = days * 86400000000 + t.timeOfDay) ∨
      (d.retagged i).counts.totalMilliseconds * 1000 < days * 86400000000 + t.timeOfDay := by
  have hfirst : 1 ≤ t.day := hday ▸ Nat.le_max_left 1 days
  have hlast : t.lastDay = max 1 days + t.timeOfDay / 86400000000 := by
    rw [FoundTimestamp.lastDay, hday]
  have hwhole := t.timeOfDay_eq
  have hpositive : d.days.isPositive = decide (0 < days) := by
    simp [hdays, Number.isPositive]
  rw [totalMilliseconds_retagged, hpositive, FoundTimestamp.timeOfDay_of_instant hinstant hfirst]
  -- the day that is written is as far from the days as the day of the year from the first day
  have hwritten : (if decide (0 < days) = true then i.dayOfYear else i.dayOfYear - 1) + max 1 days =
      days + i.dayOfYear := by
    have hcounted : 1 ≤ i.dayOfYear := i.isDay_day.first
    by_cases hnone : 0 < days
    · rw [if_pos (decide_eq_true hnone)]
      omega
    · rw [if_neg (by simpa using hnone)]
      omega
  rcases FoundTimestamp.dayOfYear_cases hinstant hfirst with ⟨hyear, hsame⟩ | ⟨hlater, hsum⟩
  · exact .inl ⟨hyear, hsame, by omega⟩
  · have hgap := daysBeforeYear_lt (FoundTimestamp.of_instant_eq_ok hinstant).1.1 hlater
    have hlength := (yearLength_bounds t.year).1
    exact .inr (by omega)

end Duration

/-- The days that are carried are those of the time of day. -/
theorem ClockCounts.carry_eq {c : ClockCounts} (h : c.milliseconds < 1000) :
    c.carry = c.anchor.timeOfDay / 86400000000 := by
  simp only [carry, clockSeconds, FoundTimestamp.timeOfDay, anchor]
  omega

namespace WholeCounts

variable {c : WholeCounts} {i : Instant}

/-- The value of whole counts without microseconds. -/
theorem totalMicroseconds_eq (hmicroseconds : c.microseconds = 0) : c.totalMicroseconds =
    c.years * 365 * 86400000000 + (c.days * 86400000000 + c.anchor.timeOfDay) := by
  rw [totalMicroseconds, hmicroseconds, FoundTimestamp.timeOfDay_eq]
  simp only [ClockCounts.anchor]
  omega

/-- Where no timestamp is found, the tag is that of at most one day. -/
theorem fits_of_begin (hvalue : (c.duration.retagged ⟨0⟩).counts.totalMilliseconds * 1000 =
      c.years * 365 * 86400000000 + (c.days * 86400000000 + c.anchor.timeOfDay)) :
    c.years = 0 ∧ c.Fits ∧ max 1 c.days + c.carry ≤ 365 := by
  have hpositive : c.duration.days.isPositive = decide (0 < c.days) := by
    simp [duration, ClockCounts.duration, Number.isPositive]
  have hbegin : (⟨0⟩ : Instant).dayOfYear = 1 ∧ (⟨0⟩ : Instant).timeOfDay = 0 := by decide
  rw [Duration.totalMilliseconds_retagged, hpositive, hbegin.1, hbegin.2] at hvalue
  have hlittle : c.years = 0 ∧ c.days ≤ 1 ∧ c.anchor.timeOfDay = 0 := by
    by_cases hnone : 0 < c.days
    · rw [if_pos (decide_eq_true hnone)] at hvalue
      omega
    · rw [if_neg (by simpa using hnone)] at hvalue
      omega
  have hclock : c.hours = 0 ∧ c.minutes = 0 ∧ c.seconds = 0 ∧ c.milliseconds = 0 := by
    have hzero := c.anchor.timeOfDay_eq.symm.trans hlittle.2.2
    simp only [ClockCounts.anchor] at hzero
    omega
  have hfits : c.Fits := ⟨by omega, by omega, by omega, by omega, by omega⟩
  refine ⟨hlittle.1, hfits, ?_⟩
  rw [ClockCounts.carry_eq hfits.milliseconds]
  omega

/-- Where a timestamp is found, it has the value of the counts only if it has all their digits, and
the tag has it only if the instant lies in 1970. -/
theorem fits_of_found {t : FoundTimestamp} {year : Nat} (hyear : c.years = 0 → year = 1970)
    (hfound : FoundIn t { c.anchor with year := year }) (hinstant : t.instant = .ok i)
    (hvalue : (c.duration.retagged i).counts.totalMilliseconds * 1000 =
      c.years * 365 * 86400000000 + (c.days * 86400000000 + c.anchor.timeOfDay)) :
    c.years = 0 ∧ c.Fits ∧ max 1 c.days + c.carry ≤ 365 := by
  have hday : t.day = max 1 c.days := hfound.day.2
  have hearlier : t.timeOfDay ≤ c.anchor.timeOfDay := hfound.timeOfDay_le
  rcases Duration.value_retagged (d := c.duration) rfl hinstant hday with
    ⟨hsame, hlast, hkept⟩ | hless
  · rw [hkept] at hvalue
    have hnone : c.years = 0 := by omega
    have htime : t.timeOfDay = c.anchor.timeOfDay := by omega
    obtain ⟨hseconds, hmilliseconds⟩ := hfound.narrow_of_timeOfDay_eq htime
    have hdays : c.days < 1000 := Nat.lt_of_le_of_lt (Nat.le_max_right 1 c.days) hfound.day.1
    refine ⟨hnone, ⟨hdays, hfound.hours.1, hfound.minutes.1, hseconds, hmilliseconds⟩, ?_⟩
    have hanchored : t.year = 1970 := by
      have hfour : year < 10000 := by
        rw [hyear hnone]
        decide
      exact (hfound.year hfour).trans (hyear hnone)
    have hwithin := i.isDay_day.last
    rw [hlast, hsame, hanchored, FoundTimestamp.lastDay, hday, htime] at hwithin
    rw [ClockCounts.carry_eq hmilliseconds]
    exact hwithin
  · omega

/-- Counts whose value is that of the tag of their instant fit the timestamp on which they are
anchored, and lead to no later year. -/
theorem fits_of_value (h : c.duration.anchoredInstant = .ok i) (hmicroseconds : c.microseconds = 0)
    (hvalue : (c.duration.retagged i).counts.totalMilliseconds * 1000 = c.totalMicroseconds) :
    c.years = 0 ∧ c.Fits ∧ max 1 c.days + c.carry ≤ 365 := by
  obtain ⟨text, hanchor, -⟩ := bind_eq_ok.1 h
  obtain ⟨t, hfloors, rfl⟩ := Duration.exists_floors c.nonNegative hanchor
  obtain ⟨year, hyear, rfl⟩ := exists_year hfloors
  rw [totalMicroseconds_eq hmicroseconds] at hvalue
  rcases Duration.anchoredInstant_cases hanchor h with rfl | ⟨t', hfound, hinstant⟩
  · exact fits_of_begin hvalue
  · exact fits_of_found hyear hfound hinstant hvalue

end WholeCounts

/-- Rebalancing a text keeps counts: it gives a text that is read as a clock tag with the sign of
the counts and with their value in milliseconds. -/
def KeepsCounts (places : Int) (text : List Char) (c : WholeCounts) : Prop :=
  ∃ (tag : List Char) (c' : ClockCounts), (balance places text).result = .ok tag ∧
    Duration.ofTag? tag = some c'.duration ∧ c'.negative = c.negative ∧
    c'.totalMilliseconds * 1000 = c.totalMicroseconds

/-- Whole counts without microseconds, in whatever form they are written, are kept exactly if the
limit on fraction digits is not beyond the greatest one, there are no years, each count has no more
digits than its piece of a clock tag, and the days with those carried into them are at most a year.
Wider counts are cut short, and the year of the anchor is not written. -/
theorem keepsCounts_iff {places : Int} {text : List Char} {c : WholeCounts} (hthree : 3 ≤ places)
    (hread : Duration.read places "seconds" text = .ok c.duration)
    (hmicroseconds : c.microseconds = 0) :
    KeepsCounts places text c ↔
      places ≤ maxPlaces ∧ c.years = 0 ∧ c.Fits ∧ max 1 c.days + c.carry ≤ 365 := by
  constructor
  · rintro ⟨tag, c', hresult, htag, -, htotal⟩
    have hgreatest := limit_of_balance hresult
    refine ⟨hgreatest, ?_⟩
    rw [balance_eq_rebalanced (by omega) hgreatest, hread] at hresult
    obtain ⟨i, hi, -, -, rfl⟩ := Duration.rebalanced_eq_ok.1 hresult
    have hdigits := Duration.digits_retagged (d := c.duration)
      (Duration.inRange_of_anchoredInstant hi)
    rw [WholeTag.ofTag?_text hdigits, Option.some.injEq] at htag
    rw [← ClockCounts.duration_injective htag] at htotal
    exact WholeCounts.fits_of_value hi hmicroseconds htotal
  · rintro ⟨hgreatest, hyears, hfits, hlast⟩
    have hduration : c.duration = c.toClockCounts.duration := by
      rw [WholeCounts.duration, hyears]
      rfl
    rw [hduration] at hread
    refine ⟨_, c.balanced.counts, balance_of_read hthree hgreatest hread hfits hlast,
      WholeTag.ofTag?_text (ClockCounts.digits_balanced hfits hlast), rfl, ?_⟩
    rw [c.toClockCounts.totalMilliseconds_balanced, ClockCounts.totalMilliseconds,
      ClockCounts.clockSeconds, WholeCounts.totalMicroseconds, hyears, hmicroseconds]
    omega

/-- Hours and minutes beyond their range are kept while they have two digits. -/
theorem keepsCounts_iff_twoDigits : (3 : Int) ≤ 6 ∧
    Duration.read 6 "seconds" (String.toList "363d 47h 70m 9s 500ms") =
      .ok (WholeCounts.duration ⟨⟨363, 47, 70, 9, 500, 0, false⟩, 0⟩) ∧
    KeepsCounts 6 (String.toList "363d 47h 70m 9s 500ms") ⟨⟨363, 47, 70, 9, 500, 0, false⟩, 0⟩ := by
  have hread : Duration.read 6 "seconds" (String.toList "363d 47h 70m 9s 500ms") =
      .ok (WholeCounts.duration ⟨⟨363, 47, 70, 9, 500, 0, false⟩, 0⟩) := by decide +kernel
  refine ⟨by decide, hread, (keepsCounts_iff (by decide) hread rfl).2 ?_⟩
  exact ⟨by decide, rfl, ⟨by decide, by decide, by decide, by decide, by decide⟩, by decide⟩

/-- Two minutes written as seconds have three digits, of which two are read. -/
theorem not_keepsCounts_threeDigits : (3 : Int) ≤ 6 ∧
    Duration.read 6 "seconds" (String.toList "120s") =
      .ok (WholeCounts.duration ⟨⟨0, 0, 0, 120, 0, 0, false⟩, 0⟩) ∧
    WholeCounts.totalMicroseconds ⟨⟨0, 0, 0, 120, 0, 0, false⟩, 0⟩ < 1000 * 86400000000 ∧
    (balance 6 (String.toList "120s")).result = .ok (String.toList "00:00:12.000") ∧
    ¬ KeepsCounts 6 (String.toList "120s") ⟨⟨0, 0, 0, 120, 0, 0, false⟩, 0⟩ := by
  have hread : Duration.read 6 "seconds" (String.toList "120s") =
      .ok (WholeCounts.duration ⟨⟨0, 0, 0, 120, 0, 0, false⟩, 0⟩) := by decide +kernel
  have hresult : (balance 6 (String.toList "120s")).result =
      .ok (String.toList "00:00:12.000") := by decide +kernel
  have htag : Duration.ofTag? (String.toList "00:00:12.000") =
      some (ClockCounts.duration ⟨0, 0, 0, 12, 0, 0, false⟩) := by decide +kernel
  refine ⟨by decide, hread, by decide, hresult, ?_⟩
  rintro ⟨tag, c', hresult', htag', -, htotal⟩
  cases hresult.symm.trans hresult'
  have hcounts := ClockCounts.duration_injective (Option.some.inj (htag.symm.trans htag'))
  rw [← hcounts] at htotal
  exact absurd htotal (by decide)

end CommandSequence
