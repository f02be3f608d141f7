import CommandSequence.Proofs.Outcome
import CommandSequence.Proofs.Time.Calendar
import CommandSequence.Time.Timestamp
import Mathlib.Tactic.IntervalCases

/-!
# Instants by day and time of day

An instant within the years 1 to 9999 is a day number and the microseconds since that day began
(`Instant.isAt_day`), and no other pair of these makes the same instant (`Instant.IsAt.unique`). So
a timestamp in range names an instant that has its fields (`FoundTimestamp.InRange.instant`), and
the fields of an instant are a timestamp in range that names it down to the millisecond
(`Instant.inRange_numbers`, `Instant.instant_numbers`). A local time is an instant for every offset
(`LocalTime.instantAt`); offsets of whole minutes are part of it (`LocalTime.instantAt_minutes`).
-/

namespace CommandSequence

open Calendar

namespace Instant

/-! ## The range of instants -/

/-- An instant lies within the years 1 to 9999. -/
structure InRange (i : Instant) : Prop where
  least : -62135596800000000 ≤ i.microseconds
  greatest : i.microseconds < 253402300800000000

theorem ofMicroseconds_eq_ok {microseconds : Int} {i : Instant} :
    ofMicroseconds microseconds = .ok i ↔ i.microseconds = microseconds ∧ i.InRange := by
  unfold ofMicroseconds
  split
  · next h =>
    rw [Except.ok.injEq]
    constructor
    · rintro rfl
      exact ⟨rfl, h.1, h.2⟩
    · rintro ⟨rfl, -⟩
      rfl
  · next h =>
    constructor
    · intro heq
      cases heq
    · rintro ⟨rfl, hleast, hgreatest⟩
      exact absurd ⟨hleast, hgreatest⟩ h

/-! ## Days and times of day -/

/-- An instant is a time of day, in microseconds, on the day of a number. -/
structure IsAt (i : Instant) (number time : Nat) : Prop where
  microseconds : i.microseconds = ((number : Int) - 719162) * 86400000000 + time
  time : time < 86400000000

variable {i i' : Instant} {number time : Nat}

theorem day_eq (i : Instant) : i.day = (i.microseconds / 86400000000 + 719162).toNat := by
  rw [day, Int.fdiv_eq_ediv_of_nonneg _ (Int.natCast_nonneg _)]
  rfl

theorem timeOfDay_eq (i : Instant) : i.timeOfDay = (i.microseconds % 86400000000).toNat := by
  rw [timeOfDay, Int.fmod_eq_emod_of_nonneg _ (Int.natCast_nonneg _)]
  rfl

theorem isAt_day (h : i.InRange) : i.IsAt i.day i.timeOfDay := by
  have hleast := h.least
  rw [day_eq, timeOfDay_eq]
  constructor <;> omega

theorem IsAt.unique (h : i.IsAt number time) : i.day = number ∧ i.timeOfDay = time := by
  have hmicroseconds := h.microseconds
  have htime := h.time
  rw [day_eq, timeOfDay_eq]
  omega

/-- The days of the years 1 to 9999 are those of the instants in range. -/
theorem IsAt.inRange_iff (h : i.IsAt number time) : i.InRange ↔ number < daysBeforeYear 10000 := by
  have hmicroseconds := h.microseconds
  have htime := h.time
  have hlast : daysBeforeYear 10000 = 3652059 := rfl
  constructor
  · intro hrange
    have hgreatest := hrange.greatest
    omega
  · intro hnumber
    constructor <;> omega

theorem afterYearStart_eq {year : Nat} (h : 1 ≤ year ∧ year ≤ 9999) (microseconds : Int) :
    afterYearStart year microseconds =
      ofMicroseconds (((daysBeforeYear year : Int) - 719162) * 86400000000 + microseconds) :=
  if_pos h

/-- The microseconds of a year that has instants lead to one of them. -/
theorem inRange_afterYearStart {year : Nat} {microseconds : Int} (h : 1 ≤ year ∧ year ≤ 9999)
    (hleast : 0 ≤ microseconds) (hgreatest : microseconds < (yearLength year : Int) * 86400000000) :
    InRange ⟨((daysBeforeYear year : Int) - 719162) * 86400000000 + microseconds⟩ := by
  have hafter : daysBeforeYear year + yearLength year ≤ daysBeforeYear 10000 :=
    daysBeforeYear_lt h.1 (Nat.lt_succ_of_le h.2)
  have hlast : daysBeforeYear 10000 = 3652059 := rfl
  constructor
  · change -62135596800000000 ≤ ((daysBeforeYear year : Int) - 719162) * 86400000000 + microseconds
    omega
  · change ((daysBeforeYear year : Int) - 719162) * 86400000000 + microseconds < 253402300800000000
    omega

theorem isDay_day (i : Instant) : IsDay i.day i.year i.dayOfYear :=
  isDay_yearAndDay i.day

theorem year_le (h : i.InRange) : i.year ≤ 9999 := by
  by_contra hlate
  have hlast : daysBeforeYear 10000 ≤ daysBeforeYear i.year :=
    daysBeforeYear_le (by decide) (Nat.lt_of_not_le hlate)
  have hnumber := (isAt_day h).inRange_iff.1 h
  have hcounted := i.isDay_day.counted
  have hfirst := i.isDay_day.first
  omega

/-- The milliseconds from the beginning of the day, by the fields of the time of day. -/
theorem timeOfDay_div (i : Instant) : i.timeOfDay / 1000 =
    ((i.hour * 60 + i.minute) * 60 + i.second) * 1000 + i.millisecond := by
  rw [hour, minute, second, millisecond, microsecond]
  omega

theorem milliseconds_eq (h : i.InRange) : i.milliseconds =
    ((i.day : Int) - 719162) * 86400000 + (i.timeOfDay / 1000 : Nat) := by
  have hmicroseconds := (isAt_day h).microseconds
  rw [milliseconds, Int.fdiv_eq_ediv_of_nonneg _ (by decide)]
  omega

end Instant

/-! ## Timestamps in range -/

namespace FoundTimestamp

/-- The fields of a timestamp are in range, so that none of them rolls over. -/
structure InRange (t : FoundTimestamp) : Prop where
  year : 1 ≤ t.year ∧ t.year ≤ 9999
  day : 1 ≤ t.day ∧ t.day ≤ yearLength t.year
  hours : t.hours < 24
  minutes : t.minutes < 60
  seconds : t.seconds < 60
  milliseconds : t.milliseconds < 1000

/-- The microseconds from the beginning of the day to a timestamp. -/
def timeOfDay (t : FoundTimestamp) : Nat :=
  ((t.hours * 60 + t.minutes) * 60 + t.seconds) * 1000000 + t.milliseconds * 1000

theorem instant_eq {t : FoundTimestamp} (h : 1 ≤ t.year ∧ t.year ≤ 9999) : t.instant =
    Instant.ofMicroseconds (((daysBeforeYear t.year + t.day : Nat) - 719163 : Int) * 86400000000
      + t.timeOfDay) := by
  rw [instant, Instant.afterYearStart_eq h]
  congr 1
  have htime : (t.timeOfDay : Int) = ((t.hours * 60 + t.minutes) * 60 + t.seconds) * 1000000
      + t.milliseconds * 1000 := by
    simp only [timeOfDay, Int.natCast_add, Int.natCast_mul, Int.cast_ofNat_Int]
  rw [htime, Int.natCast_add]
  omega

end FoundTimestamp

namespace Instant

/-- The fields of an instant as the numbers of a timestamp. -/
def numbers (i : Instant) : FoundTimestamp where
  year := i.year
  day := i.dayOfYear
  hours := i.hour
  minutes := i.minute
  seconds := i.second
  milliseconds := i.millisecond

variable {i i' : Instant} {number : Nat} {t : FoundTimestamp}

theorem inRange_numbers (h : i.InRange) : i.numbers.InRange := by
  have htime := (isAt_day h).time
  constructor
  · exact ⟨i.isDay_day.begun, year_le h⟩
  · exact ⟨i.isDay_day.first, i.isDay_day.last⟩
  · exact Nat.div_lt_of_lt_mul htime
  · exact Nat.mod_lt _ (by decide)
  · exact Nat.mod_lt _ (by decide)
  · exact Nat.div_lt_of_lt_mul (Nat.mod_lt _ (by decide))

/-- An instant has the fields that make up its day number and its time of day. -/
theorem IsAt.numbers_eq (h : i.IsAt number t.timeOfDay) (hday : IsDay number t.year t.day)
    (hrange : t.InRange) : i.numbers = t := by
  obtain ⟨hnumber, htime⟩ := h.unique
  have hyearDay : yearAndDay i.day = (t.year, t.day) := hnumber ▸ yearAndDay_eq hday
  have hhours := hrange.hours
  have hminutes := hrange.minutes
  have hseconds := hrange.seconds
  have hmilliseconds := hrange.milliseconds
  have hfields : i.hour = t.hours ∧ i.minute = t.minutes ∧ i.second = t.seconds ∧
      i.millisecond = t.milliseconds := by
    rw [hour, minute, second, millisecond, microsecond, htime, FoundTimestamp.timeOfDay]
    omega
  obtain ⟨hhour, hminute, hsecond, hmillisecond⟩ := hfields
  rw [numbers, year, dayOfYear, hyearDay, hhour, hminute, hsecond, hmillisecond]

/-- Instants with the same fields differ by less than a millisecond. -/
theorem milliseconds_eq_of_numbers (h : i.InRange) (h' : i'.InRange)
    (hnumbers : i.numbers = i'.numbers) : i.milliseconds = i'.milliseconds := by
  simp only [numbers, FoundTimestamp.mk.injEq] at hnumbers
  obtain ⟨hyear, hday, hhour, hminute, hsecond, hmillisecond⟩ := hnumbers
  have hcounted := i.isDay_day.counted
  have hcounted' := i'.isDay_day.counted
  rw [hyear, hday, hcounted'] at hcounted
  rw [milliseconds_eq h, milliseconds_eq h', timeOfDay_div, timeOfDay_div, hhour, hminute, hsecond,
    hmillisecond, Nat.succ.inj hcounted]

end Instant

/-- A timestamp in range names an instant, which has its fields and no microseconds. -/
theorem FoundTimestamp.InRange.instant {t : FoundTimestamp} (h : t.InRange) :
    ∃ i : Instant, t.instant = .ok i ∧ i.InRange ∧ i.numbers = t ∧
      i.milliseconds * 1000 = i.microseconds := by
  have hafter : daysBeforeYear t.year + yearLength t.year ≤ daysBeforeYear 10000 :=
    daysBeforeYear_lt h.year.1 (Nat.lt_succ_of_le h.year.2)
  obtain ⟨hfirst, hlast⟩ := h.day
  have htime : t.timeOfDay < 86400000000 ∧ t.timeOfDay % 1000 = 0 := by
    have hhours := h.hours
    have hminutes := h.minutes
    have hseconds := h.seconds
    have hmilliseconds := h.milliseconds
    unfold timeOfDay
    omega
  let number := daysBeforeYear t.year + t.day - 1
  have hday : IsDay number t.year t.day := ⟨h.year.1, hfirst, hlast, by omega⟩
  let i : Instant := ⟨((number : Int) - 719162) * 86400000000 + t.timeOfDay⟩
  have hi : i.IsAt number t.timeOfDay := ⟨rfl, htime.1⟩
  have hrange : i.InRange := hi.inRange_iff.2 (by omega)
  refine ⟨i, ?_, hrange, hi.numbers_eq hday h, ?_⟩
  · rw [instant_eq h.year, Instant.ofMicroseconds_eq_ok]
    refine ⟨?_, hrange⟩
    rw [hi.microseconds]
    omega
  · have hmicroseconds := hi.microseconds
    rw [Instant.milliseconds, Int.fdiv_eq_ediv_of_nonneg _ (by decide)]
    omega

/-- The fields of an instant name it, rounded down to the millisecond. -/
theorem Instant.instant_numbers {i : Instant} (h : i.InRange) :
    Succeeds i.numbers.instant fun i' => i'.milliseconds = i.milliseconds := by
  obtain ⟨i', hi', hrange, hnumbers, -⟩ := (inRange_numbers h).instant
  exact ⟨i', hi', milliseconds_eq_of_numbers hrange h hnumbers⟩

/-! ## Local times -/

/-- A day of a month is a day of its year. -/
theorem Calendar.dayOfYear_lt (year : Nat) {month day : Nat} (hmonth : month < 12)
    (hday : day < (monthLengths year).getD month 0) :
    ((monthLengths year).take month).foldl Nat.add 0 + day < yearLength year := by
  unfold monthLengths yearLength at *
  cases hleap : isLeap year with
  | false => interval_cases month <;> simp [hleap] at hday ⊢ <;> omega
  | true => interval_cases month <;> simp [hleap] at hday ⊢ <;> omega

namespace LocalTime

/-- The instant of a local time at an offset in microseconds; the offset in minutes that it comes
with does not count. -/
def instantAt (t : LocalTime) (offset : Int) : Except TimeError Instant := do
  let wall ← { t with offset := 0 }.instant
  Instant.ofMicroseconds (wall.microseconds - offset)

/-- At its own offset a local time is its instant. -/
theorem instantAt_minutes {t : LocalTime} (h : -1440 < t.offset ∧ t.offset < 1440) :
    t.instantAt (t.offset * 60000000) = t.instant := by
  unfold instantAt instant
  dsimp only
  rw [if_neg (by decide), if_neg (not_not_intro h)]
  -- the fields are checked alike on both sides
  simp only [ite_error_bind]
  refine ite_congr rfl (fun _ => rfl) fun _ => ?_
  refine ite_congr rfl (fun _ => rfl) fun hyear => ?_
  refine ite_congr rfl (fun _ => rfl) fun hmonth => ?_
  refine ite_congr rfl (fun _ => rfl) fun hday => ?_
  refine ite_congr rfl (fun _ => rfl) fun hhour => ?_
  refine ite_congr rfl (fun _ => rfl) fun hminute => ?_
  refine ite_congr rfl (fun _ => rfl) fun hsecond => ?_
  refine ite_congr rfl (fun _ => rfl) fun hmicrosecond => ?_
  rw [not_not] at hyear hmonth hday hhour hminute hsecond hmicrosecond
  have hinYears : 1 ≤ t.year.toNat ∧ t.year.toNat ≤ 9999 := by omega
  have hdays : ((monthLengths t.year.toNat).take (t.month - 1).toNat).foldl Nat.add 0
      + (t.day - 1).toNat < yearLength t.year.toNat :=
    Calendar.dayOfYear_lt _ (by omega) (by omega)
  have hlength : ((dayMicroseconds : Nat) : Int) = 86400000000 := rfl
  rw [Instant.afterYearStart_eq hinYears, Instant.afterYearStart_eq hinYears, hlength,
    Instant.ofMicroseconds_eq_ok.2 ⟨rfl, Instant.inRange_afterYearStart hinYears ?_ ?_⟩]
  · change Instant.ofMicroseconds _ = _
    congr 1
    dsimp only
    omega
  · omega
  · omega

end LocalTime

end CommandSequence
