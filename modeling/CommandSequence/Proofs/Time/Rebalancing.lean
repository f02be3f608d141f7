import CommandSequence.Proofs.Time.Balance

/-!
# The course of a rebalancing

Within its range the limit on fraction digits does not count for how a duration is read
(`Duration.read_congr`). The duration leads to an instant, and the timestamp of that instant is read
back by its fields unless it has milliseconds and the limit is below three digits. So rebalancing
writes the fields of the instant (`balance_eq`), as a tag with all its pieces (`Duration.retagged`).
-/

namespace CommandSequence

open Decimal (Fixed)

/-! ## Reading -/

namespace Duration

/-- A duration that is not a clock tag: fields with unit suffixes, or a bare number of a unit. -/
def readUntagged (unit : String) (text : List Char) : Except TimeError Duration :=
  match ofFields? text with
  | some d => .ok d
  | none => do
    match ← ofNumber? (← unitOfName unit) text with
    | some d => return d
    | none => throw (.notDuration text)

theorem read_eq_readUntagged {places : Int} (hleast : 1 ≤ places) (hgreatest : places ≤ maxPlaces)
    {text : List Char} (h : ofTag? text = none) (unit : String) :
    read places unit text = readUntagged unit text := by
  unfold read readUntagged readTime
  cases ofFields? text with
  | some d => rfl
  | none =>
    rw [if_neg (by omega), if_neg (by omega), h]
    cases Timestamp.read? places.toNat text with
    | none => rfl
    | some t => rfl

/-- Two limits within the range read the same durations. -/
theorem read_congr {places places' : Int} (hleast : 1 ≤ places) (hgreatest : places ≤ maxPlaces)
    (hleast' : 1 ≤ places') (hgreatest' : places' ≤ maxPlaces) (unit : String) (text : List Char) :
    read places unit text = read places' unit text := by
  cases htag : ofTag? text with
  | none =>
    rw [read_eq_readUntagged hleast hgreatest htag, read_eq_readUntagged hleast' hgreatest' htag]
  | some d =>
    rw [read_of_ofTag? htag hleast hgreatest, read_of_ofTag? htag hleast' hgreatest']

/-! ## The tag of an instant -/

/-- The instant of the timestamp on which a duration is anchored. -/
def anchoredInstant (d : Duration) : Except TimeError Instant := do
  Instant.ofMilliseconds (← timestampMilliseconds (← d.anchor))

/-- An instant as a tag with the sign of a duration. The day of the year is written if the duration
has days; without days of its own the first day counts as none. -/
def retagged (d : Duration) (i : Instant) : WholeTag where
  negative := d.negative
  days :=
    if d.days.isPositive then some (padded 3 i.dayOfYear)
    else if 1 < i.dayOfYear then some (padded 3 (i.dayOfYear - 1)) else none
  hours := padded 2 i.hour
  minutes := padded 2 i.minute
  seconds := padded 2 i.second
  milliseconds := padded 3 i.millisecond

variable {d : Duration} {i : Instant}

theorem inRange_of_anchoredInstant (h : d.anchoredInstant = .ok i) : i.InRange := by
  obtain ⟨anchored, -, h⟩ := bind_eq_ok.1 h
  obtain ⟨milliseconds, -, h⟩ := bind_eq_ok.1 h
  exact (Instant.ofMicroseconds_eq_ok.1 h).2

/-- The day of the tag, by cases. -/
theorem days_retagged (d : Duration) (i : Instant) :
    (d.days.isPositive = true ∧ (d.retagged i).days = some (padded 3 i.dayOfYear)) ∨
      (¬ d.days.isPositive = true ∧ 1 < i.dayOfYear ∧
        (d.retagged i).days = some (padded 3 (i.dayOfYear - 1))) ∨
      ¬ d.days.isPositive = true ∧ i.dayOfYear = 1 ∧ (d.retagged i).days = none := by
  have hfirst : 1 ≤ i.dayOfYear := i.isDay_day.first
  by_cases hpositive : d.days.isPositive = true
  · exact .inl ⟨hpositive, if_pos hpositive⟩
  · have hdays : (d.retagged i).days =
        if 1 < i.dayOfYear then some (padded 3 (i.dayOfYear - 1)) else none := if_neg hpositive
    rw [hdays]
    by_cases hsecond : 1 < i.dayOfYear
    · exact .inr (.inl ⟨hpositive, hsecond, if_pos hsecond⟩)
    · exact .inr (.inr ⟨hpositive, by omega, if_neg hsecond⟩)

theorem balancedDay_dayOfYear (d : Duration) (i : Instant) : d.balancedDay i.dayOfYear =
    (d.retagged i).days.elim [] (· ++ [('T' : Char)]) := by
  have hfirst := i.isDay_day.first
  have hbefore : (i.dayOfYear : Int) - 1 = ((i.dayOfYear - 1 : Nat) : Int) := by omega
  rw [balancedDay, hbefore]
  rcases d.days_retagged i with ⟨hpositive, hdays⟩ | ⟨hpositive, hsecond, hdays⟩ |
    ⟨hpositive, hsecond, hdays⟩
  · rw [hdays, hpositive, Bool.true_or, if_pos rfl, if_pos rfl, ofInt_natCast,
      Option.elim_some, padded]
  · rw [hdays, Bool.eq_false_of_not_eq_true hpositive, Bool.false_or,
      if_pos (decide_eq_true hsecond), if_neg Bool.false_ne_true, ofInt_natCast, Option.elim_some,
      padded]
  · rw [hdays, Bool.eq_false_of_not_eq_true hpositive, Bool.false_or, hsecond]
    rfl

theorem text_retagged (d : Duration) (i : Instant) : (d.retagged i).text =
    d.sign ++ d.balancedDay i.dayOfYear ++ padded 2 i.hour ++ (':' : Char) :: padded 2 i.minute ++
      (':' : Char) :: padded 2 i.second ++ ('.' : Char) :: padded 3 i.millisecond := by
  have hsign : d.sign = if (d.retagged i).negative then [('-' : Char)] else [] := rfl
  rw [balancedDay_dayOfYear, hsign, WholeTag.text, WholeTag.unsigned]
  cases (d.retagged i).days with
  | none => simp [retagged]
  | some digits => simp [retagged]

theorem digits_retagged (h : i.InRange) : (d.retagged i).Digits := by
  have hrange := Instant.inRange_numbers h
  have hday : i.dayOfYear < 1000 := hrange.day_lt
  exact {
    days := by
      intro digits hdigits
      rcases d.days_retagged i with ⟨-, hdays⟩ | ⟨-, -, hdays⟩ | ⟨-, -, hdays⟩
      · rw [hdays] at hdigits
        cases hdigits
        exact fixed_padded (by decide) hday
      · rw [hdays] at hdigits
        cases hdigits
        exact fixed_padded (by decide) (Nat.lt_of_le_of_lt (Nat.sub_le ..) hday)
      · rw [hdays] at hdigits
        cases hdigits
    hours := fixed_padded (by decide) (Nat.lt_trans hrange.hours (by decide))
    minutes := fixed_padded (by decide) (Nat.lt_trans hrange.minutes (by decide))
    seconds := fixed_padded (by decide) (Nat.lt_trans hrange.seconds (by decide))
    milliseconds := fixed_padded (by decide) hrange.milliseconds }

/-- The counts of the tag are the fields of the instant. -/
theorem counts_retagged (d : Duration) (i : Instant) : (d.retagged i).counts =
    ⟨if d.days.isPositive then i.dayOfYear else i.dayOfYear - 1, i.hour, i.minute, i.second,
      i.millisecond, 0, d.negative⟩ := by
  have hcount : Decimal.value ((d.retagged i).days.getD []) =
      if d.days.isPositive then i.dayOfYear else i.dayOfYear - 1 := by
    rcases d.days_retagged i with ⟨hpositive, hdays⟩ | ⟨hpositive, -, hdays⟩ |
      ⟨hpositive, hsecond, hdays⟩
    · rw [hdays, if_pos hpositive, Option.getD_some, value_padded]
    · rw [hdays, if_neg hpositive, Option.getD_some, value_padded]
    · rw [hdays, if_neg hpositive, hsecond, Option.getD_none, Decimal.value_nil]
  rw [WholeTag.counts, hcount]
  simp only [retagged, value_padded]

/-! ## The timestamp read back -/

/-- What rebalancing makes of a duration: the tag of its instant, which must lie after the first
year, and whose milliseconds must not be more digits than the limit. -/
def rebalanced (places : Int) (d : Duration) : Except TimeError (List Char) := do
  let i ← d.anchoredInstant
  if i.year ≤ 1 then throw .instantOutOfRange
  else if places < 3 ∧ 0 < i.millisecond then throw .timestampUnread
  else return (d.retagged i).text

theorem rebalanced_eq_ok {places : Int} {r : List Char} :
    d.rebalanced places = .ok r ↔ ∃ i, d.anchoredInstant = .ok i ∧ 2 ≤ i.year ∧
      (places < 3 → i.millisecond = 0) ∧ (d.retagged i).text = r := by
  unfold rebalanced
  constructor
  · intro h
    obtain ⟨i, hi, h⟩ := bind_eq_ok.1 h
    split at h
    · cases h
    · next hyear =>
      split at h
      · cases h
      · next hplaces =>
        cases h
        refine ⟨i, hi, by omega, ?_, rfl⟩
        intro hfew
        omega
  · rintro ⟨i, hi, hyear, hplaces, rfl⟩
    have hfits : ¬ (places < 3 ∧ 0 < i.millisecond) := by
      rintro ⟨hfew, hpositive⟩
      have hzero := hplaces hfew
      omega
    rw [hi, ok_bind, if_neg (by omega), if_neg hfits]
    rfl

end Duration

/-! ## The course by its stages -/

section Stages

variable {places : Int} {text : List Char} {d : Duration} {i : Instant} {e : TimeError}
  (hread : Duration.read places "seconds" text = .ok d)

include hread

/-- Without an instant the rebalancing fails. -/
theorem balance_of_error (h : d.anchoredInstant = .error e) :
    (balance places text).result = .error e := by
  unfold Duration.anchoredInstant at h
  cases hanchor : d.anchor with
  | error e' =>
    rw [hanchor] at h
    cases h
    simp only [balance, hread, hanchor, ok_bind, error_bind]
  | ok anchored =>
    rw [hanchor, ok_bind] at h
    cases hfound : timestampMilliseconds anchored with
    | error e' =>
      rw [hfound] at h
      cases h
      simp only [balance, hread, hanchor, hfound, ok_bind, error_bind]
    | ok milliseconds =>
      rw [hfound, ok_bind] at h
      simp only [balance, hread, hanchor, hfound, h, ok_bind, error_bind]

variable (hinstant : d.anchoredInstant = .ok i)

include hinstant

/-- With an instant that has no timestamp, or none that is read, the rebalancing fails. -/
theorem balance_of_unread (h : i.timestamp true >>= readTime places = .error e) :
    (balance places text).result = .error e := by
  obtain ⟨anchored, hanchor, hinstant⟩ := bind_eq_ok.1 hinstant
  obtain ⟨milliseconds, hfound, hinstant⟩ := bind_eq_ok.1 hinstant
  -- rewriting by equations here and below: a check by evaluation would compare calendar fields
  cases htimestamp : i.timestamp true with
  | error e' =>
    rw [htimestamp] at h
    cases h
    simp -implicitDefEqProofs only [balance, hread, hanchor, hfound, hinstant,
      htimestamp, ok_bind, error_bind]
  | ok stamp =>
    rw [htimestamp, ok_bind] at h
    simp -implicitDefEqProofs only [balance, hread, hanchor, hfound, hinstant,
      htimestamp, h, ok_bind, error_bind]

/-- With a timestamp that is not read back as one the rebalancing fails. -/
theorem balance_of_none {stamp : List Char} (hstamp : i.timestamp true = .ok stamp)
    (htime : readTime places stamp = .ok none) :
    (balance places text).result = .error .timestampUnread := by
  obtain ⟨anchored, hanchor, hinstant⟩ := bind_eq_ok.1 hinstant
  obtain ⟨milliseconds, hfound, hinstant⟩ := bind_eq_ok.1 hinstant
  simp -implicitDefEqProofs only [balance, hread, hanchor, hfound, hinstant, hstamp,
    htime, ok_bind, pure, Except.pure]

/-- With a timestamp that is read back by the fields of the instant, these are written. -/
theorem balance_of_timestamp {stamp : List Char} {t : Timestamp}
    (hstamp : i.timestamp true = .ok stamp)
    (htime : readTime places stamp = .ok (some (.timestamp t)))
    (hfields : t.day = .ofYear i.dayOfYear ∧ t.hour = i.hour ∧ t.minute = i.minute ∧
      t.second = i.second ∧ t.milliseconds = .int i.millisecond) :
    (balance places text).result = .ok (d.retagged i).text := by
  have hrange := Instant.inRange_numbers (Duration.inRange_of_anchoredInstant hinstant)
  obtain ⟨anchored, hanchor, hinstant⟩ := bind_eq_ok.1 hinstant
  obtain ⟨milliseconds, hfound, hinstant⟩ := bind_eq_ok.1 hinstant
  obtain ⟨hday, hhour, hminute, hsecond, hmilliseconds⟩ := hfields
  have hpadded : Number.padded 3 (.int i.millisecond) = .ok (padded 3 i.millisecond) :=
    padded_natCast 3 hrange.milliseconds
  simp -implicitDefEqProofs only [balance, hread, hanchor, hfound, hinstant, hstamp,
    htime, hday, hhour, hminute, hsecond, hmilliseconds, hpadded, ok_bind, pure, Except.pure,
    Duration.text_retagged]

end Stages

/-- Rebalancing reads a duration and writes its instant, for every limit in its range. -/
theorem balance_eq_rebalanced {places : Int} (hleast : 1 ≤ places) (hgreatest : places ≤ maxPlaces)
    (text : List Char) : (balance places text).result =
      Duration.read places "seconds" text >>= Duration.rebalanced places := by
  cases hread : Duration.read places "seconds" text with
  | error e => simp only [balance, hread, error_bind]
  | ok d =>
    rw [ok_bind, Duration.rebalanced]
    cases hinstant : d.anchoredInstant with
    | error e => exact balance_of_error hread hinstant
    | ok i =>
      rw [ok_bind]
      by_cases hyear : i.year ≤ 1
      · rw [if_pos hyear]
        refine balance_of_unread hread hinstant ?_
        rw [timestamp_of_first_year hyear]
        rfl
      · have hstamp := Instant.timestamp_eq (Nat.lt_of_not_le hyear)
        have htime :=
          readTime_timestamp hleast hgreatest (Duration.inRange_of_anchoredInstant hinstant)
        rw [if_neg hyear]
        by_cases hfew : places < 3 ∧ 0 < i.millisecond
        · rw [if_pos hfew] at htime ⊢
          exact balance_of_none hread hinstant hstamp htime
        · rw [if_neg hfew] at htime ⊢
          exact balance_of_timestamp hread hinstant hstamp htime ⟨rfl, rfl, rfl, rfl, rfl⟩

theorem balance_eq_of_read {places : Int} {text : List Char} {d : Duration} (hleast : 1 ≤ places)
    (hgreatest : places ≤ maxPlaces) (h : Duration.read places "seconds" text = .ok d) :
    (balance places text).result = d.rebalanced places := by
  rw [balance_eq_rebalanced hleast hgreatest, h, ok_bind]

end CommandSequence
