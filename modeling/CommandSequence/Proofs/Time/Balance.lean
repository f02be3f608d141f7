import CommandSequence.Proofs.Time.TimestampReading
import CommandSequence.Time.Balance

/-!
# Rebalancing keeps the value of a clock tag

The counts of a tag are anchored on a timestamp whose fields may be out of range. The instant of
that timestamp is the one of its fields rolled over (`FoundTimestamp.instant_rolled`), so the
timestamp that is written from it has the rolled fields, and the day that comes back is the day that
went in and the days carried into it. The first day stands for no days, so the same sum is written
whether the tag had days or not (`balancedDay_counts`). `balance_keeps_value` puts these together.
-/

namespace CommandSequence

open Calendar
open Decimal (Fixed)

/-! ## Anchoring -/

theorem writable_natCast {n : Nat} (h : n < 1000) : Decimal.writable (n : Int) = true := by
  have hlength : (Decimal.ofNat n).length ≤ 3 := (Decimal.length_ofNat_le (by decide)).2 h
  rw [Decimal.writable_iff, Int.natAbs_natCast]
  exact Nat.le_trans hlength (by decide)

theorem ofInt_natCast (n : Nat) : Decimal.ofInt (n : Int) = Decimal.ofNat n :=
  if_neg (Int.not_lt.2 (Int.natCast_nonneg n))

theorem padded_natCast {n : Nat} (width : Nat) (h : n < 1000) :
    Number.padded width (.int (n : Int)) = .ok (padded width n) := by
  simp only [Number.padded, Number.normalize, Number.write, writable_natCast h, if_true,
    ofInt_natCast, TimeError.ofNumber, Except.map, padded]

theorem paddedFloor_natCast {n : Nat} (width : Nat) (h : n < 1000) :
    Number.paddedFloor width (.int (n : Int)) = .ok (padded width n) := by
  simp only [Number.paddedFloor, Number.floor, TimeError.ofNumber, Bind.bind, Except.bind,
    padded_natCast width h]

namespace ClockCounts

variable {c : ClockCounts}

/-- The whole seconds of the clock of a tag. -/
def clockSeconds (c : ClockCounts) : Nat :=
  (c.hours * 60 + c.minutes) * 60 + c.seconds

/-- The whole days in the clock of a tag. -/
def carry (c : ClockCounts) : Nat :=
  c.clockSeconds / 86400

/-- The value of a tag without its sign, in milliseconds. -/
def totalMilliseconds (c : ClockCounts) : Nat :=
  (c.days * 86400 + c.clockSeconds) * 1000 + c.milliseconds

/-- The pieces of the timestamp on which the counts are anchored. -/
def anchored (c : ClockCounts) : WrittenTimestamp where
  year := String.toList "1970"
  day := padded 3 (max 1 c.days)
  hours := padded 2 c.hours
  minutes := padded 2 c.minutes
  seconds := padded 2 c.seconds
  milliseconds := some (padded 3 c.milliseconds)

/-- The numbers of the timestamp on which the counts are anchored. -/
def anchor (c : ClockCounts) : FoundTimestamp where
  year := 1970
  day := max 1 c.days
  hours := c.hours
  minutes := c.minutes
  seconds := c.seconds
  milliseconds := c.milliseconds

theorem digits_anchored (h : c.Fits) : c.anchored.Digits where
  year := show Fixed 4 (String.toList "1970") by decide
  day := fixed_padded (by decide) (Nat.max_lt.2 ⟨by decide, h.days⟩)
  hours := fixed_padded (by decide) h.hours
  minutes := fixed_padded (by decide) h.minutes
  seconds := fixed_padded (by decide) h.seconds
  milliseconds := by
    rintro _ ⟨⟩
    exact fixed_padded (by decide) h.milliseconds

theorem numbers_anchored (c : ClockCounts) : c.anchored.numbers = c.anchor := by
  simp only [WrittenTimestamp.numbers, anchored, anchor, value_padded, Option.getD_some]
  rfl

theorem anchor_duration (h : c.Fits) : c.duration.anchor = .ok c.anchored.text := by
  have hday : Number.padded 3 (.int (max 1 (c.days : Int))) = .ok (padded 3 (max 1 c.days)) := by
    have hcast : max 1 (c.days : Int) = ((max 1 c.days : Nat) : Int) := by omega
    rw [hcast]
    exact padded_natCast 3 (Nat.max_lt.2 ⟨by decide, h.days⟩)
  have hhours := paddedFloor_natCast 2 (Nat.lt_trans h.hours (by decide))
  have hminutes := paddedFloor_natCast 2 (Nat.lt_trans h.minutes (by decide))
  have hseconds := paddedFloor_natCast 2 (Nat.lt_trans h.seconds (by decide))
  have hmilliseconds := paddedFloor_natCast 3 h.milliseconds
  have hyears : Number.isZero (.int 0) = true := rfl
  simp only [Duration.anchor, duration, hyears, if_true, Number.floor, TimeError.ofNumber, hhours,
    hminutes, hseconds, hmilliseconds, Bind.bind, Except.bind, hday, pure, Except.pure]
  simp [anchored, WrittenTimestamp.text, WrittenTimestamp.fraction]

/-- The numbers of the timestamp with each of them rolled over into the next. -/
def rolled (c : ClockCounts) : FoundTimestamp where
  year := 1970
  day := max 1 c.days + c.carry
  hours := c.clockSeconds / 3600 % 24
  minutes := c.clockSeconds / 60 % 60
  seconds := c.clockSeconds % 60
  milliseconds := c.milliseconds

/-- Rolling the numbers over changes no instant. -/
theorem instant_rolled (c : ClockCounts) : c.rolled.instant = c.anchor.instant := by
  have hyear : 1 ≤ 1970 ∧ 1970 ≤ 9999 := by decide
  have htime : c.carry * 86400000000 + c.rolled.timeOfDay = c.anchor.timeOfDay := by
    simp only [FoundTimestamp.timeOfDay, rolled, anchor, carry]
    have hseconds : c.clockSeconds = (c.hours * 60 + c.minutes) * 60 + c.seconds := rfl
    omega
  rw [FoundTimestamp.instant_eq (t := c.rolled) hyear,
    FoundTimestamp.instant_eq (t := c.anchor) hyear, ← htime]
  congr 1
  simp only [rolled, anchor]
  omega

theorem inRange_rolled (h : c.Fits) (hlast : max 1 c.days + c.carry ≤ 365) : c.rolled.InRange where
  year := show 1 ≤ 1970 ∧ 1970 ≤ 9999 by decide
  day := ⟨Nat.le_add_right_of_le (Nat.le_max_left ..),
    Nat.le_trans hlast (yearLength_bounds 1970).1⟩
  hours := Nat.mod_lt _ (by decide)
  minutes := Nat.mod_lt _ (by decide)
  seconds := Nat.mod_lt _ (by decide)
  milliseconds := h.milliseconds

/-- The counts lead to the instant with the fields of any timestamp in range that has the same
instant as their anchor. -/
theorem instant_anchored (h : c.Fits) {t : FoundTimestamp} (hrange : t.InRange)
    (hsame : t.instant = c.anchor.instant) :
    Succeeds (timestampMilliseconds c.anchored.text >>= Instant.ofMilliseconds)
      (·.numbers = t) := by
  obtain ⟨i, hi, hinstant, hnumbers, hwhole⟩ := hrange.instant
  have hread : timestampMilliseconds c.anchored.text = .ok i.milliseconds := by
    rw [WrittenTimestamp.timestampMilliseconds_text (digits_anchored h), numbers_anchored,
      ← hsame, hi]
    rfl
  rw [hread]
  exact ⟨i, Instant.ofMicroseconds_eq_ok.2 ⟨hwhole.symm, hinstant⟩, hnumbers⟩

/-- The instant of the counts has the timestamp of the rolled numbers. -/
theorem timestamp_anchored (h : c.Fits) (hlast : max 1 c.days + c.carry ≤ 365) :
    Succeeds (timestampMilliseconds c.anchored.text >>= Instant.ofMilliseconds) fun i =>
      i.timestamp true = .ok c.rolled.written.text := by
  obtain ⟨i, hi, hnumbers⟩ := instant_anchored h (inRange_rolled h hlast) c.instant_rolled
  have hyear : 2 ≤ i.year := by
    have hrolled : i.numbers.year = 1970 := by
      rw [hnumbers]
      rfl
    exact Nat.le_trans (by decide) (Nat.le_of_eq hrolled.symm)
  exact ⟨i, hi, hnumbers ▸ Instant.timestamp_eq hyear⟩

/-! ## The balanced tag -/

/-- The pieces of the tag that the rolled numbers are written as. -/
def balanced (c : ClockCounts) : WholeTag where
  negative := c.negative
  days := if 0 < c.days ∨ 0 < c.carry then some (padded 3 (c.days + c.carry)) else none
  hours := padded 2 c.rolled.hours
  minutes := padded 2 c.rolled.minutes
  seconds := padded 2 c.rolled.seconds
  milliseconds := padded 3 c.rolled.milliseconds

/-- The day that is written is the same sum whether the tag had days or not. -/
theorem balancedDay_rolled (c : ClockCounts) : c.duration.balancedDay c.rolled.day =
    if 0 < c.days ∨ 0 < c.carry then padded 3 (c.days + c.carry) ++ [('T' : Char)] else [] := by
  have hpositive : c.duration.days.isPositive = decide (0 < c.days) := by
    simp [duration, Number.isPositive]
  have hwritten : (if decide (0 < c.days) = true then (c.rolled.day : Int) else c.rolled.day - 1) =
      ((c.days + c.carry : Nat) : Int) := by
    simp only [rolled, decide_eq_true_eq]
    omega
  have hcarried : (decide (0 < c.days) || decide (1 < c.rolled.day)) = true ↔
      0 < c.days ∨ 0 < c.carry := by
    rw [Bool.or_eq_true, decide_eq_true_eq, decide_eq_true_eq]
    change 0 < c.days ∨ 1 < max 1 c.days + c.carry ↔ _
    constructor <;> omega
  simp only [Duration.balancedDay, hpositive, hwritten, hcarried, ofInt_natCast]
  rfl

theorem text_balanced (c : ClockCounts) : c.balanced.text =
    c.duration.sign ++ c.duration.balancedDay c.rolled.day ++ padded 2 c.rolled.hours ++
      (':' : Char) :: padded 2 c.rolled.minutes ++ (':' : Char) :: padded 2 c.rolled.seconds ++
      ('.' : Char) :: padded 3 c.rolled.milliseconds := by
  have hsign : c.duration.sign = if c.negative then [('-' : Char)] else [] := rfl
  rw [balancedDay_rolled, hsign, WholeTag.text, WholeTag.unsigned, balanced]
  by_cases hday : 0 < c.days ∨ 0 < c.carry
  · simp [hday]
  · simp [hday]

theorem digits_balanced (h : c.Fits) (hlast : max 1 c.days + c.carry ≤ 365) :
    c.balanced.Digits where
  days := by
    intro digits hdigits
    by_cases hday : 0 < c.days ∨ 0 < c.carry
    · rw [balanced, if_pos hday] at hdigits
      cases hdigits
      have hsum : c.days + c.carry < 1000 := by omega
      exact fixed_padded (by decide) hsum
    · rw [balanced, if_neg hday] at hdigits
      cases hdigits
  hours := fixed_padded (by decide) (Nat.lt_trans (inRange_rolled h hlast).hours (by decide))
  minutes := fixed_padded (by decide) (Nat.lt_trans (inRange_rolled h hlast).minutes (by decide))
  seconds := fixed_padded (by decide) (Nat.lt_trans (inRange_rolled h hlast).seconds (by decide))
  milliseconds := fixed_padded (by decide) h.milliseconds

/-- The balanced tag has the days that were carried and the rolled numbers. -/
theorem counts_balanced (c : ClockCounts) : c.balanced.counts =
    ⟨c.days + c.carry, c.rolled.hours, c.rolled.minutes, c.rolled.seconds, c.rolled.milliseconds, 0,
      c.negative⟩ := by
  have hdays : Decimal.value (c.balanced.days.getD []) = c.days + c.carry := by
    by_cases hday : 0 < c.days ∨ 0 < c.carry
    · rw [balanced, if_pos hday, Option.getD_some, value_padded]
    · rw [balanced, if_neg hday, Option.getD_none, Decimal.value_nil]
      omega
  rw [WholeTag.counts, hdays]
  simp only [balanced, value_padded]

theorem totalMilliseconds_balanced (c : ClockCounts) :
    c.balanced.counts.totalMilliseconds = c.totalMilliseconds := by
  simp only [counts_balanced, totalMilliseconds, clockSeconds, rolled, carry]
  omega

end ClockCounts

/-- The hours, minutes and seconds of a tag are in range. -/
structure WholeTag.InRange (w : WholeTag) : Prop where
  digits : w.Digits
  hours : w.counts.hours < 24
  minutes : w.counts.minutes < 60
  seconds : w.counts.seconds < 60

theorem ClockCounts.inRange_balanced {c : ClockCounts} (h : c.Fits)
    (hlast : max 1 c.days + c.carry ≤ 365) : c.balanced.InRange where
  digits := digits_balanced h hlast
  hours := by rw [counts_balanced]; exact (inRange_rolled h hlast).hours
  minutes := by rw [counts_balanced]; exact (inRange_rolled h hlast).minutes
  seconds := by rw [counts_balanced]; exact (inRange_rolled h hlast).seconds

/-- Rebalancing counts that fit a tag and stay within a year writes their rolled numbers. -/
theorem balance_of_read {places : Int} {text : List Char} {c : ClockCounts}
    (hleast : 3 ≤ places) (hgreatest : places ≤ maxPlaces)
    (hduration : Duration.read places "seconds" text = .ok c.duration) (hfits : c.Fits)
    (hlast : max 1 c.days + c.carry ≤ 365) :
    (balance places text).result = .ok c.balanced.text := by
  obtain ⟨i, hi, htimestamp⟩ := ClockCounts.timestamp_anchored hfits hlast
  obtain ⟨milliseconds, hread, hi⟩ := bind_eq_ok.1 hi
  have hrolled := ClockCounts.inRange_rolled hfits hlast
  have hplaces : c.rolled.written.FractionFits places.toNat := by
    intro digits hfraction
    have hlength := (hrolled.digits_written.milliseconds digits hfraction).length
    omega
  have hwritten := Timestamp.read?_written hplaces hrolled
  have hmilliseconds := padded_natCast 3 hrolled.milliseconds
  have htime := readTime_of_read? (by omega) hgreatest hwritten
  simp -implicitDefEqProofs only [balance, hduration, ClockCounts.anchor_duration hfits, hread, hi,
    htimestamp, htime, hmilliseconds, ok_bind, pure, Except.pure, ClockCounts.text_balanced]

theorem balance_eq {places : Int} {text : List Char} {c : ClockCounts}
    (hleast : 3 ≤ places) (hgreatest : places ≤ maxPlaces)
    (h : Duration.ofTag? text = some c.duration) (hfits : c.Fits)
    (hlast : max 1 c.days + c.carry ≤ 365) :
    (balance places text).result = .ok c.balanced.text :=
  balance_of_read hleast hgreatest (Duration.read_of_ofTag? h (by omega) hgreatest "seconds") hfits
    hlast

/-- Rebalancing keeps the sign and the value of a clock tag that stays within a year of 365 days: it
gives a tag `[-][DDDT]hh:mm:ss.mmm` with every field in range, which has a day exactly if the tag
had days or its clock a whole one. -/
theorem balance_keeps_value {places : Int} {text : List Char} {d : Duration} (hleast : 3 ≤ places)
    (hgreatest : places ≤ maxPlaces) (h : Duration.ofTag? text = some d) :
    ∃ c : ClockCounts, d = c.duration ∧ (max 1 c.days + c.carry ≤ 365 →
      ∃ w : WholeTag, (balance places text).result = .ok w.text ∧ w.InRange ∧
        (w.days.isSome ↔ 0 < c.days ∨ 0 < c.carry) ∧
        Duration.ofTag? w.text = some w.counts.duration ∧ w.counts.negative = c.negative ∧
        w.counts.totalMilliseconds = c.totalMilliseconds) := by
  obtain ⟨c, rfl, hfits⟩ := exists_counts_of_ofTag? h
  refine ⟨c, rfl, fun hlast => ⟨c.balanced, balance_eq hleast hgreatest h hfits hlast,
    ClockCounts.inRange_balanced hfits hlast, ?_,
    WholeTag.ofTag?_text (ClockCounts.digits_balanced hfits hlast), rfl,
    c.totalMilliseconds_balanced⟩⟩
  by_cases hday : 0 < c.days ∨ 0 < c.carry
  · rw [ClockCounts.balanced, if_pos hday]
    exact iff_of_true rfl hday
  · rw [ClockCounts.balanced, if_neg hday]
    exact iff_of_false Bool.false_ne_true hday

/-- Two days and a clock with every field beyond its range. -/
theorem balance_keeps_value_overflowing :
    ∃ w : WholeTag, (balance 6 (String.toList "-002T99:99:99.5")).result = .ok w.text ∧ w.InRange ∧
      w.days.isSome ∧ Duration.ofTag? w.text = some w.counts.duration ∧
      w.counts.negative = true ∧ w.counts.totalMilliseconds = 535239500 := by
  have htag : Duration.ofTag? (String.toList "-002T99:99:99.5") =
      some (ClockCounts.duration ⟨2, 99, 99, 99, 500, 0, true⟩) := by decide
  have hplaces : (3 : Int) ≤ 6 ∧ 6 ≤ maxPlaces := by decide
  obtain ⟨c, hc, hkeeps⟩ := balance_keeps_value hplaces.1 hplaces.2 htag
  have hcounts : c = ⟨2, 99, 99, 99, 500, 0, true⟩ := by
    obtain ⟨days, hours, minutes, seconds, milliseconds, microseconds, negative⟩ := c
    simp only [ClockCounts.duration, Duration.mk.injEq, Number.int.injEq] at hc
    obtain ⟨-, hdays, hhours, hminutes, hseconds, hmilliseconds, hmicroseconds, rfl⟩ := hc
    congr <;> omega
  subst hcounts
  obtain ⟨w, hresult, hrange, hdays, hread, hnegative, htotal⟩ := hkeeps (by decide)
  exact ⟨w, hresult, hrange, hdays.2 (by decide), hread, hnegative, htotal⟩

/-- With a greater limit on fraction digits nothing is rebalanced that has no unit suffixes. -/
theorem balance_of_ofFields?_eq_none {places : Int} {text : List Char}
    (hplaces : maxPlaces < places)
    (h : Duration.ofFields? text = none) :
    (balance places text).result = .error .instantOutOfRange := by
  have hduration : Duration.read places "seconds" text = .error .instantOutOfRange := by
    rw [Duration.read, h, readTime_of_maxPlaces_lt hplaces]
    rfl
  simp only [balance, hduration, Bind.bind, Except.bind]

theorem balance_of_maxPlaces_lt {places : Int} {text : List Char} {d : Duration}
    (hplaces : maxPlaces < places) (h : Duration.ofTag? text = some d) :
    (balance places text).result = .error .instantOutOfRange :=
  balance_of_ofFields?_eq_none hplaces (Duration.ofFields?_eq_none h)

/-- A limit that is greater by one than the greatest one fails on the tag of no time at all. -/
theorem balance_fails_beyond_maxPlaces : (3 : Int) ≤ 4294967295 ∧
    Duration.ofTag? (String.toList "00:00:00") =
      some (ClockCounts.duration ⟨0, 0, 0, 0, 0, 0, false⟩) ∧
    ∀ balanced, (balance 4294967295 (String.toList "00:00:00")).result ≠ .ok balanced := by
  have htag : Duration.ofTag? (String.toList "00:00:00") =
      some (ClockCounts.duration ⟨0, 0, 0, 0, 0, 0, false⟩) := by decide
  refine ⟨by decide, htag, ?_⟩
  intro balanced hbalanced
  rw [balance_of_maxPlaces_lt (by decide) htag] at hbalanced
  cases hbalanced

end CommandSequence
