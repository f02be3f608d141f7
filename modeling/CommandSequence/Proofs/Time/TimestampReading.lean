import CommandSequence.Proofs.Time.ClockTag
import CommandSequence.Proofs.Time.FractionLimit

/-!
# Reading the timestamp of an instant

The timestamp of an instant is written in pieces, the milliseconds only if they are not zero. The
calendar reader takes the pieces back one by one (`readTime_timestamp`), so the instant has its own
fields again, and the time of day is the text after the mark. A limit of one or two fraction digits
is too low for milliseconds, and what is not a timestamp then is not a clock tag either
(`readTime_of_instant`).
-/

namespace CommandSequence

open Character

theorem readTime_of_read? {places : Int} {text : List Char} {t : Timestamp} (hleast : 1 ≤ places)
    (hgreatest : places ≤ maxPlaces) (h : Timestamp.read? places.toNat text = some t) :
    readTime places text = .ok (some (.timestamp t)) := by
  rw [readTime, if_neg (by omega), if_neg (by omega), h]

theorem readTime_of_maxPlaces_lt {places : Int} (h : maxPlaces < places) (text : List Char) :
    readTime places text = .error .instantOutOfRange := by
  have hzero : places ≠ 0 := fun heq => absurd (heq ▸ h) (by decide)
  rw [readTime, if_neg hzero, if_pos h]

/-- The timestamp of an instant is read back by its fields, if they have no more milliseconds than
the limit has digits. -/
theorem readTime_timestamp {places : Int} {i : Instant} (hleast : 1 ≤ places)
    (hgreatest : places ≤ maxPlaces) (h : i.InRange) :
    readTime places i.numbers.written.text =
      .ok (if places < 3 ∧ 0 < i.millisecond then none else some (.timestamp {
        year := i.year
        day := .ofYear i.dayOfYear
        hour := i.hour
        minute := i.minute
        second := i.second
        milliseconds := .int i.millisecond
        time := Timestamp.clockText i.numbers.written })) := by
  have hrange := Instant.inRange_numbers h
  have hdigits := hrange.digits_written
  have hread {places : Nat} (hplaces : i.numbers.written.FractionFits places) :=
    Timestamp.read?_written hplaces hrange
  have hthree : i.numbers.written.FractionFits 3 := by
    intro digits hfraction
    exact Nat.le_of_eq (hdigits.milliseconds digits hfraction).length
  by_cases hfew : places < 3 ∧ 0 < i.millisecond
  · have hmilliseconds : i.numbers.written.milliseconds = some (padded 3 i.millisecond) :=
      if_pos hfew.2
    have hlength : (padded 3 i.millisecond).length = 3 :=
      (hdigits.milliseconds _ hmilliseconds).length
    have hwide : places.toNat < (padded 3 i.millisecond).length := by omega
    have hnone := Timestamp.read?_eq_none hdigits hmilliseconds hwide
    -- a clock tag would not be read as a timestamp under any limit
    have htag : Duration.ofTag? i.numbers.written.text = none := by
      by_contra hsome
      obtain ⟨d, hd⟩ := Option.ne_none_iff_exists'.1 hsome
      have hnever := Duration.timestamp_eq_none hd 3
      rw [hread hthree] at hnever
      cases hnever
    rw [if_pos hfew, readTime, if_neg (by omega), if_neg (by omega), hnone, htag]
    rfl
  · have hplaces : i.numbers.written.FractionFits places.toNat := by
      intro digits hfraction
      have hlength := hthree digits hfraction
      by_cases hzero : 0 < i.millisecond
      · omega
      · have hmissing : i.numbers.written.milliseconds = none := if_neg hzero
        rw [hmissing] at hfraction
        cases hfraction
    rw [if_neg hfew]
    exact readTime_of_read? hleast hgreatest (hread hplaces)

theorem timestamp_of_first_year {i : Instant} (h : i.year ≤ 1) :
    i.timestamp true = .error .instantOutOfRange := by
  have hcounted : i.countedDay = .error .instantOutOfRange := if_pos h
  rw [Instant.timestamp, Instant.fields, hcounted]
  rfl

/-! ## The time of day as written -/

/-- What follows the first `T` of a text. -/
def afterMark (text : List Char) : List Char :=
  (text.dropWhile (· != ('T' : Char))).drop 1

/-- The time of day of a written timestamp is what follows the mark. -/
theorem WrittenTimestamp.afterMark_text {w : WrittenTimestamp} (h : w.Digits) :
    afterMark w.text = Timestamp.clockText w := by
  have hunmarked {c : Char} (hc : isDigit c = true) : (c != 'T') = true := by
    rw [bne_iff_ne]
    rintro rfl
    exact absurd hc (by decide)
  have hdate : ∀ c ∈ w.year ++ ('-' : Char) :: w.day, (c != 'T') = true := by
    intro c hc
    rcases List.mem_append.1 hc with hc | hc
    · exact hunmarked (h.year.isDigit c hc)
    · rcases List.mem_cons.1 hc with rfl | hc
      · decide
      · exact hunmarked (h.day.isDigit c hc)
  have htext : w.text = (w.year ++ ('-' : Char) :: w.day) ++ ('T' : Char) ::
      Timestamp.clockText w := by
    simp [text, Timestamp.clockText]
  rw [afterMark, htext, List.dropWhile_append_of_pos hdate]
  rfl

/-- The calendar reader reads the timestamp of an instant from the second year on as the fields of
the instant and the time of day after the mark. If the instant has milliseconds and the limit is
below three digits, it reads nothing. A limit beyond the greatest one compiles to no pattern. -/
theorem readTime_of_instant {places : Int} (hplaces : 1 ≤ places) {i : Instant} (h : i.InRange)
    (hyear : 2 ≤ i.year) :
    Succeeds (i.timestamp true) fun stamp => readTime places stamp =
      if maxPlaces < places then .error .instantOutOfRange
      else if 3 ≤ places ∨ i.millisecond = 0 then .ok (some (.timestamp {
        year := i.year
        day := .ofYear i.dayOfYear
        hour := i.hour
        minute := i.minute
        second := i.second
        milliseconds := .int i.millisecond
        time := afterMark stamp }))
      else .ok none := by
  refine ⟨_, Instant.timestamp_eq hyear, ?_⟩
  dsimp only
  by_cases hbeyond : maxPlaces < places
  · rw [if_pos hbeyond, readTime_of_maxPlaces_lt hbeyond]
  · rw [if_neg hbeyond, readTime_timestamp hplaces (by omega) h,
      WrittenTimestamp.afterMark_text (Instant.inRange_numbers h).digits_written]
    by_cases hfits : 3 ≤ places ∨ i.millisecond = 0
    · rw [if_pos hfits, if_neg (by omega)]
    · rw [if_neg hfits, if_pos (by omega)]

/-- The last instant of a leap year under a limit of three digits. -/
theorem readTime_of_instant_lastDay :
    let i : Instant := ⟨1735689599999999⟩
    (1 : Int) ≤ 3 ∧ i.InRange ∧ 2 ≤ i.year ∧
      i.timestamp true = .ok (String.toList "2024-366T23:59:59.999") ∧
      readTime 3 (String.toList "2024-366T23:59:59.999") = .ok (some (.timestamp
        ⟨2024, .ofYear 366, 23, 59, 59, .int 999, String.toList "23:59:59.999"⟩)) := by
  intro i
  have hrange : i.InRange := ⟨by decide, by decide⟩
  have hyear : 2 ≤ i.year := by decide
  have hstamp : i.timestamp true = .ok (String.toList "2024-366T23:59:59.999") := by decide
  obtain ⟨stamp, hwritten, hread⟩ := @readTime_of_instant 3 (by decide) i hrange hyear
  obtain rfl : (String.toList "2024-366T23:59:59.999") = stamp :=
    Except.ok.inj (hstamp.symm.trans hwritten)
  exact ⟨by decide, hrange, hyear, hstamp, hread.trans (by decide)⟩

/-- A limit that is greater by one than the greatest one fails on the beginning of 1970. -/
theorem readTime_fails_beyond_maxPlaces :
    let i : Instant := ⟨0⟩
    (1 : Int) ≤ 4294967295 ∧ i.InRange ∧ 2 ≤ i.year ∧ i.millisecond = 0 ∧
      i.timestamp true = .ok (String.toList "1970-001T00:00:00") ∧
      ∀ reading, readTime 4294967295 (String.toList "1970-001T00:00:00") ≠ .ok reading := by
  intro i
  refine ⟨by decide, ⟨by decide, by decide⟩, by decide, by decide, by decide, ?_⟩
  intro reading hreading
  rw [readTime_of_maxPlaces_lt (by decide)] at hreading
  cases hreading

end CommandSequence
