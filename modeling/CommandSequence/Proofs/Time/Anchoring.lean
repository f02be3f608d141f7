import CommandSequence.Proofs.Time.Carry
import CommandSequence.Proofs.Time.Rebalancing

/-!
# Anchoring counts that are too wide

A duration is anchored on a timestamp in which each count has at least the digits of its piece
(`FoundTimestamp.spelled`), and that text is searched for a timestamp with exactly those digits. A
day, hours or minutes with more digits are in none. Seconds or milliseconds with more digits are cut
short, so that what is found is earlier (`FoundIn.timeOfDay_le`). The instant that it leads to lies
in its year and on its day unless the days of the year are used up
(`FoundTimestamp.dayOfYear_cases`).
-/

namespace CommandSequence

open Calendar Character
open Decimal (Fixed)

/-! ## Pieces of any width -/

theorem isAsciiDigit_of_mem_padded (width n : Nat) :
    ∀ c ∈ padded width n, isAsciiDigit c = true :=
  Decimal.isAsciiDigit_of_mem_zeroFill width n

theorem le_length_padded (width n : Nat) : width ≤ (padded width n).length := by
  rw [padded, Decimal.length_zeroFill]
  exact Nat.le_max_left ..

/-- A mark that is no digit follows the digits of a width only if there are no more of them. -/
theorem cut_padded {width n : Nat} {mark : Char} {rest piece left more : List Char}
    (hwidth : 0 < width) (hmark : isAsciiDigit mark = false)
    (hpiece : Cut.exactly? isDigit width (padded width n ++ mark :: rest) = some (piece, left))
    (hleft : Cut.char? mark left = some more) :
    n < tenPow width ∧ piece = padded width n ∧ more = rest := by
  obtain ⟨htext, hlength⟩ := Cut.eq_append_of_exactly? hpiece
  rw [Cut.eq_cons_of_char? hleft] at htext
  have hleast := le_length_padded width n
  have hsame : piece = padded width n ∧ mark :: more = mark :: rest := by
    rcases List.append_eq_append_iff.1 htext with ⟨extra, rfl, htail⟩ | ⟨extra, hdigits, htail⟩
    · have hextra : extra = [] := by
        rw [List.length_append] at hlength
        exact List.eq_nil_of_length_eq_zero (by omega)
      rw [hextra, List.append_nil]
      exact ⟨rfl, by rw [htail, hextra, List.nil_append]⟩
    · cases extra with
      | nil => exact ⟨by rw [hdigits, List.append_nil], htail⟩
      | cons c extra =>
        obtain ⟨rfl, -⟩ := List.cons.inj htail
        have hdigit := isAsciiDigit_of_mem_padded width n mark (hdigits ▸ by simp)
        rw [hmark] at hdigit
        cases hdigit
  rw [hsame.1] at hlength
  exact ⟨Decimal.lt_of_length_zeroFill hwidth (Nat.le_of_eq hlength), hsame.1,
    (List.cons.inj hsame.2).2⟩

/-! ## The timestamp that is found -/

namespace FoundTimestamp

variable {t t' : FoundTimestamp} {text rest : List Char}

/-- What is found begins with four digits and a dash. -/
theorem year_of_atFront? (h : atFront? text = some t') :
    ∃ year rest, text = year ++ ('-' : Char) :: rest ∧ year.length = 4 := by
  obtain ⟨⟨year, afterYear⟩, hyear, h⟩ := Option.bind_eq_some_iff.1 h
  obtain ⟨rest, hdash, -⟩ := Option.bind_eq_some_iff.1 h
  obtain ⟨htext, hlength⟩ := Cut.eq_append_of_exactly? hyear
  exact ⟨year, rest, by rw [htext, Cut.eq_cons_of_char? hdash], hlength⟩

theorem find?_of_notMem (h : ('-' : Char) ∉ text) : find? text = none := by
  have hfront {text : List Char} (h : ('-' : Char) ∉ text) : atFront? text = none := by
    by_contra hsome
    obtain ⟨t', ht'⟩ := Option.ne_none_iff_exists'.1 hsome
    obtain ⟨year, rest, htext, -⟩ := year_of_atFront? ht'
    rw [htext] at h
    exact h (List.mem_append_right year List.mem_cons_self)
  induction text with
  | nil => exact hfront h
  | cons c text ih =>
    rw [find?, hfront h, Option.none_or]
    exact ih fun hmem => h (List.mem_cons_of_mem c hmem)

/-- The only dash in a text stands after the year of the timestamp that is found. -/
theorem year_of_find? {front : List Char} (hfront : ('-' : Char) ∉ front)
    (hrest : ('-' : Char) ∉ rest)
    (h : find? (front ++ ('-' : Char) :: rest) = some t') :
    ∃ before year, front = before ++ year ∧ year.length = 4 ∧
      atFront? (year ++ ('-' : Char) :: rest) = some t' := by
  have hsplit {front : List Char} (hfront : ('-' : Char) ∉ front)
      (h : atFront? (front ++ ('-' : Char) :: rest) = some t') : front.length = 4 := by
    obtain ⟨year, more, htext, hlength⟩ := year_of_atFront? h
    rw [((List.append_cons_inj_of_notMem hfront hrest).1 htext).1]
    exact hlength
  induction front with
  | nil =>
    rw [List.nil_append, find?, Option.or_eq_some_iff] at h
    rcases h with h | ⟨-, h⟩
    · have hempty : ([] : List Char).length = 4 := hsplit hfront h
      cases hempty
    · rw [find?_of_notMem hrest] at h
      cases h
  | cons c front ih =>
    rw [List.cons_append, find?, Option.or_eq_some_iff] at h
    rcases h with h | ⟨-, h⟩
    · exact ⟨[], c :: front, rfl, hsplit hfront h, h⟩
    · obtain ⟨before, year, rfl, hyear⟩ := ih (fun hmem => hfront (List.mem_cons_of_mem c hmem)) h
      exact ⟨c :: before, year, rfl, hyear⟩

/-- The pieces of a timestamp whose numbers may be too wide for them. -/
def spelled (t : FoundTimestamp) : WrittenTimestamp where
  year := padded 4 t.year
  day := padded 3 t.day
  hours := padded 2 t.hours
  minutes := padded 2 t.minutes
  seconds := padded 2 t.seconds
  milliseconds := some (padded 3 t.milliseconds)

end FoundTimestamp

/-- A timestamp is found in the spelling of another one: they differ only in numbers that are too
wide for their pieces, and those are cut short. -/
structure FoundIn (t' t : FoundTimestamp) : Prop where
  year : t.year < 10000 → t'.year = t.year
  day : t.day < 1000 ∧ t'.day = t.day
  hours : t.hours < 100 ∧ t'.hours = t.hours
  minutes : t.minutes < 100 ∧ t'.minutes = t.minutes
  seconds : t'.seconds < 100 ∧ (t.seconds < 100 → t'.seconds = t.seconds)
  milliseconds : t'.milliseconds < 1000 ∧
    (t.seconds < 100 → t.milliseconds < 1000 → t'.milliseconds = t.milliseconds)

namespace FoundTimestamp

variable {t t' : FoundTimestamp}

/-- No dash stands after the year. -/
theorem dash_notMem_spelled (t : FoundTimestamp) : ('-' : Char) ∉ t.spelled.day ++ ('T' : Char) ::
    (t.spelled.hours ++ (':' : Char) :: (t.spelled.minutes ++ (':' : Char) ::
      (t.spelled.seconds ++ t.spelled.fraction))) := by
  have hdigits (width n : Nat) : ('-' : Char) ∉ padded width n := by
    intro hmem
    exact absurd (isAsciiDigit_of_mem_padded width n '-' hmem) (by decide)
  simp [spelled, WrittenTimestamp.fraction, hdigits]

theorem value_lt_of_exactly? {n : Nat} {text piece rest : List Char}
    (h : Cut.exactly? isDigit n text = some (piece, rest)) : Decimal.value piece < tenPow n :=
  (Cut.eq_append_of_exactly? h).2 ▸ Decimal.value_lt piece

/-- The milliseconds that are cut off are at most three digits. -/
theorem value_milliseconds_lt (text : List Char) : Decimal.value
    (((Cut.exactly? isDigit 3 text).map (·.1)).getD []) < 1000 := by
  cases h : Cut.exactly? isDigit 3 text with
  | none => decide
  | some found => exact value_lt_of_exactly? h

theorem foundIn_of_atFront? {year : List Char} (hlength : year.length = 4)
    (hdigit : ∀ c ∈ year, isAsciiDigit c = true)
    (hyear : t.year < 10000 → Decimal.value year = t.year)
    (h : atFront? (year ++ ('-' : Char) ::
      (t.spelled.day ++ ('T' : Char) :: (t.spelled.hours ++ (':' : Char) ::
      (t.spelled.minutes ++ (':' : Char) :: (t.spelled.seconds ++ t.spelled.fraction))))) =
        some t') :
    FoundIn t' t := by
  have hfixed : Fixed 4 year := ⟨hlength, hdigit⟩
  simp only [atFront?, hfixed.exactly?, Cut.char?_cons_self, Option.bind_eq_bind,
    Option.bind_some] at h
  obtain ⟨⟨day, afterDay⟩, hday, h⟩ := Option.bind_eq_some_iff.1 h
  obtain ⟨clock, hmark, h⟩ := Option.bind_eq_some_iff.1 h
  obtain ⟨hdayWidth, rfl, rfl⟩ := cut_padded (by decide) (by decide) hday hmark
  obtain ⟨⟨hours, afterHours⟩, hhours, h⟩ := Option.bind_eq_some_iff.1 h
  obtain ⟨afterColon, hcolon, h⟩ := Option.bind_eq_some_iff.1 h
  obtain ⟨hhoursWidth, rfl, rfl⟩ := cut_padded (by decide) (by decide) hhours hcolon
  obtain ⟨⟨minutes, afterMinutes⟩, hminutes, h⟩ := Option.bind_eq_some_iff.1 h
  obtain ⟨afterColon', hcolon', h⟩ := Option.bind_eq_some_iff.1 h
  obtain ⟨hminutesWidth, rfl, rfl⟩ := cut_padded (by decide) (by decide) hminutes hcolon'
  obtain ⟨⟨seconds, afterSeconds⟩, hseconds, h⟩ := Option.bind_eq_some_iff.1 h
  cases h
  have hwhole (hnarrow : t.seconds < 100) : seconds = padded 2 t.seconds ∧
      afterSeconds = ('.' : Char) :: padded 3 t.milliseconds := by
    have hfixed : Fixed 2 (padded 2 t.seconds) := fixed_padded (by decide) hnarrow
    have hcut := hfixed.exactly? t.spelled.fraction
    have hsame := hseconds.symm.trans hcut
    cases hsame
    exact ⟨rfl, rfl⟩
  exact {
    year := hyear
    day := ⟨hdayWidth, value_padded 3 t.day⟩
    hours := ⟨hhoursWidth, value_padded 2 t.hours⟩
    minutes := ⟨hminutesWidth, value_padded 2 t.minutes⟩
    seconds := by
      refine ⟨value_lt_of_exactly? hseconds, ?_⟩
      intro hnarrow
      rw [(hwhole hnarrow).1]
      exact value_padded 2 t.seconds
    milliseconds := by
      refine ⟨value_milliseconds_lt _, ?_⟩
      intro hnarrow hthree
      have hfixed : Fixed 3 (padded 3 t.milliseconds) := fixed_padded (by decide) hthree
      have hcut := hfixed.exactly? []
      rw [List.append_nil] at hcut
      rw [(hwhole hnarrow).2, Cut.skipChar_cons_self, hcut]
      exact value_padded 3 t.milliseconds }

/-- What is found in the spelling of a timestamp. -/
theorem foundIn_of_find? (h : find? t.spelled.text = some t') : FoundIn t' t := by
  have hdash : ('-' : Char) ∉ t.spelled.year := by
    intro hmem
    exact absurd (isAsciiDigit_of_mem_padded 4 t.year '-' hmem) (by decide)
  obtain ⟨before, year, hyear, hlength, hfront⟩ := year_of_find? hdash t.dash_notMem_spelled h
  change padded 4 t.year = before ++ year at hyear
  refine foundIn_of_atFront? hlength ?_ ?_ hfront
  · intro c hc
    refine isAsciiDigit_of_mem_padded 4 t.year c ?_
    rw [hyear]
    exact List.mem_append_right before hc
  · intro hnarrow
    have hfour : (padded 4 t.year).length = 4 := (fixed_padded (by decide) hnarrow).length
    have hbefore : before = [] := by
      rw [hyear, List.length_append] at hfour
      exact List.eq_nil_of_length_eq_zero (by omega)
    rw [hbefore, List.nil_append] at hyear
    rw [← hyear, value_padded]

end FoundTimestamp

/-- The time of day by its whole minutes and by its seconds and milliseconds. -/
theorem FoundTimestamp.timeOfDay_eq (t : FoundTimestamp) : t.timeOfDay =
    ((t.hours * 60 + t.minutes) * 60000 + (t.seconds * 1000 + t.milliseconds)) * 1000 := by
  unfold timeOfDay
  omega

/-- Seconds and milliseconds that are cut short make an earlier time of day. -/
theorem FoundIn.timeOfDay_le {t t' : FoundTimestamp} (h : FoundIn t' t) :
    t'.timeOfDay ≤ t.timeOfDay := by
  have hhours := h.hours.2
  have hminutes := h.minutes.2
  obtain ⟨hseconds, hnarrow⟩ := h.seconds
  obtain ⟨hmilliseconds, hthree⟩ := h.milliseconds
  have hrest : t'.seconds * 1000 + t'.milliseconds ≤ t.seconds * 1000 + t.milliseconds := by
    by_cases hwide : t.seconds < 100
    · rw [hnarrow hwide]
      by_cases hwide' : t.milliseconds < 1000
      · rw [hthree hwide hwide']
      · omega
    · omega
  rw [FoundTimestamp.timeOfDay_eq, FoundTimestamp.timeOfDay_eq, hhours, hminutes]
  exact Nat.mul_le_mul_right 1000 (Nat.add_le_add_left hrest _)

/-- Nothing is cut short of a time of day that is found as it was. -/
theorem FoundIn.narrow_of_timeOfDay_eq {t t' : FoundTimestamp} (h : FoundIn t' t)
    (htime : t'.timeOfDay = t.timeOfDay) : t.seconds < 100 ∧ t.milliseconds < 1000 := by
  have hhours := h.hours.2
  have hminutes := h.minutes.2
  obtain ⟨hseconds, hnarrow⟩ := h.seconds
  obtain ⟨hmilliseconds, -⟩ := h.milliseconds
  rw [FoundTimestamp.timeOfDay_eq, FoundTimestamp.timeOfDay_eq, hhours, hminutes] at htime
  have hrest : t'.seconds * 1000 + t'.milliseconds = t.seconds * 1000 + t.milliseconds :=
    Nat.add_left_cancel (Nat.eq_of_mul_eq_mul_right (by decide) htime)
  have hwide : t.seconds < 100 := by omega
  have hsame := hnarrow hwide
  exact ⟨hwide, by omega⟩

/-! ## The instant of a timestamp -/

namespace FoundTimestamp

variable {t : FoundTimestamp} {i : Instant}

/-- The day of a timestamp and the whole days of its time of day, counted from its year. -/
def lastDay (t : FoundTimestamp) : Nat :=
  t.day + t.timeOfDay / 86400000000

/-- Only a timestamp of the years 1 to 9999 has an instant. -/
theorem of_instant_eq_ok (h : t.instant = .ok i) : (1 ≤ t.year ∧ t.year ≤ 9999) ∧ i.InRange ∧
    i.microseconds = ((daysBeforeYear t.year + t.day : Nat) - 719163 : Int) * 86400000000
      + t.timeOfDay := by
  have hyear : 1 ≤ t.year ∧ t.year ≤ 9999 := by
    by_contra houtside
    rw [instant, Instant.afterYearStart, if_neg houtside] at h
    cases h
  rw [instant_eq hyear] at h
  obtain ⟨hmicroseconds, hrange⟩ := Instant.ofMicroseconds_eq_ok.1 h
  exact ⟨hyear, hrange, hmicroseconds⟩

/-- The instant of a timestamp has no microseconds. -/
theorem milliseconds_of_instant (h : t.instant = .ok i) :
    i.milliseconds * 1000 = i.microseconds := by
  obtain ⟨-, -, hmicroseconds⟩ := of_instant_eq_ok h
  have hwhole := t.timeOfDay_eq
  rw [Instant.milliseconds, Int.fdiv_eq_ediv_of_nonneg _ (by decide)]
  omega

/-- The instant of a timestamp is the one of its days and its time of day. -/
theorem isAt_of_instant (h : t.instant = .ok i) (hday : 1 ≤ t.day) :
    i.IsAt (daysBeforeYear t.year + t.lastDay - 1) (t.timeOfDay % 86400000000) := by
  obtain ⟨-, -, hmicroseconds⟩ := of_instant_eq_ok h
  refine ⟨?_, Nat.mod_lt _ (by decide)⟩
  rw [hmicroseconds]
  unfold lastDay
  omega

/-- An instant lies on the day of its timestamp, or in a later year. -/
theorem dayOfYear_cases (h : t.instant = .ok i) (hday : 1 ≤ t.day) :
    (i.year = t.year ∧ i.dayOfYear = t.lastDay) ∨
      (t.year < i.year ∧
        i.dayOfYear + (daysBeforeYear i.year - daysBeforeYear t.year) = t.lastDay) := by
  obtain ⟨hyear, -⟩ := of_instant_eq_ok h
  have hat := isAt_of_instant h hday
  have hcounted := i.isDay_day.counted
  rw [hat.unique.1] at hcounted
  have hlast := i.isDay_day.last
  have hpositive : 1 ≤ t.lastDay := Nat.le_add_right_of_le hday
  rcases Nat.lt_trichotomy i.year t.year with hearlier | hsame | hlater
  · have hbefore := daysBeforeYear_lt i.isDay_day.begun hearlier
    omega
  · rw [hsame] at hcounted
    exact .inl ⟨hsame, by omega⟩
  · have hbefore := daysBeforeYear_le hyear.1 (Nat.le_of_lt hlater)
    exact .inr ⟨hlater, by omega⟩

theorem timeOfDay_of_instant (h : t.instant = .ok i) (hday : 1 ≤ t.day) :
    i.timeOfDay = t.timeOfDay % 86400000000 :=
  (isAt_of_instant h hday).unique.2

end FoundTimestamp

/-- The instant of a duration is that of the timestamp that is found in its spelling, or else the
beginning of 1970. -/
theorem Duration.anchoredInstant_cases {d : Duration} {t : FoundTimestamp} {i : Instant}
    (hanchor : d.anchor = .ok t.spelled.text) (h : d.anchoredInstant = .ok i) :
    i = ⟨0⟩ ∨ ∃ t', FoundIn t' t ∧ t'.instant = .ok i := by
  obtain ⟨text, htext, h⟩ := bind_eq_ok.1 h
  cases hanchor.symm.trans htext
  obtain ⟨milliseconds, hmilliseconds, h⟩ := bind_eq_ok.1 h
  have hmicroseconds := (Instant.ofMicroseconds_eq_ok.1 h).1
  unfold timestampMilliseconds at hmilliseconds
  split at hmilliseconds
  · cases hmilliseconds
    exact .inl (congrArg Instant.mk hmicroseconds)
  · next t' hfind =>
    obtain ⟨found, hinstant, rfl⟩ := map_eq_ok.1 hmilliseconds
    rw [FoundTimestamp.milliseconds_of_instant hinstant] at hmicroseconds
    have hsame : i = found := congrArg Instant.mk hmicroseconds
    exact .inr ⟨t', FoundTimestamp.foundIn_of_find? hfind, hsame ▸ hinstant⟩

/-! ## The timestamp of a duration -/

theorem padded_eq_ok {width n : Nat} {text : List Char}
    (h : Number.padded width (.int (n : Int)) = .ok text) : text = padded width n := by
  simp only [Number.padded, Number.normalize, Number.write, ofInt_natCast] at h
  split at h
  · cases h
    rfl
  · cases h

theorem exists_floor {n : Number} {z : Int} (hn : ∀ z, n.floor = .ok z → 0 ≤ z)
    (h : TimeError.ofNumber n.floor = .ok z) : ∃ k : Nat, n.floor = .ok (k : Int) ∧ z = k := by
  cases hfloor : n.floor with
  | error e =>
    rw [hfloor] at h
    cases h
  | ok floor =>
    rw [hfloor] at h
    cases h
    obtain ⟨k, rfl⟩ := Int.eq_ofNat_of_zero_le (hn z hfloor)
    exact ⟨k, rfl, rfl⟩

theorem paddedFloor_eq_ok {n : Number} {width : Nat} {text : List Char}
    (hn : ∀ z, n.floor = .ok z → 0 ≤ z) (h : n.paddedFloor width = .ok text) :
    ∃ k : Nat, n.floor = .ok (k : Int) ∧ text = padded width k := by
  obtain ⟨z, hz, h⟩ := bind_eq_ok.1 h
  obtain ⟨k, hk, rfl⟩ := exists_floor hn hz
  exact ⟨k, hk, padded_eq_ok h⟩

namespace Duration

variable {d : Duration} {t : FoundTimestamp} {text : List Char}

/-- No count of a duration is less than zero. -/
def NonNegative (d : Duration) : Prop :=
  ∀ u z, (d.count u).floor = .ok z → 0 ≤ z

/-- A timestamp has the whole counts of a duration. No years stand for 1970, and no days for one. -/
structure Floors (d : Duration) (t : FoundTimestamp) : Prop where
  year : if d.years.isZero then t.year = 1970 else d.years.floor = .ok (t.year : Int)
  day : ∃ days : Nat, d.days.floor = .ok (days : Int) ∧ t.day = max 1 days
  hours : d.hours.floor = .ok (t.hours : Int)
  minutes : d.minutes.floor = .ok (t.minutes : Int)
  seconds : d.seconds.floor = .ok (t.seconds : Int)
  milliseconds : d.milliseconds.floor = .ok (t.milliseconds : Int)

/-- A duration is anchored on the spelling of its whole counts. -/
theorem exists_floors (hd : d.NonNegative) (h : d.anchor = .ok text) :
    ∃ t, d.Floors t ∧ text = t.spelled.text := by
  unfold anchor at h
  extract_lets rest at h
  have hyear : ∃ y : Nat, (if d.years.isZero then y = 1970 else d.years.floor = .ok (y : Int)) ∧
      rest (padded 4 y) = .ok text := by
    by_cases hzero : d.years.isZero = true
    · rw [if_pos hzero] at h
      exact ⟨1970, by rw [if_pos hzero], h⟩
    · rw [if_neg hzero] at h
      obtain ⟨year, hyear, h⟩ := bind_eq_ok.1 h
      obtain ⟨y, hy, rfl⟩ := paddedFloor_eq_ok (hd .years) hyear
      exact ⟨y, by rw [if_neg hzero]; exact hy, h⟩
  obtain ⟨y, hy, h⟩ := hyear
  obtain ⟨z, hz, h⟩ := bind_eq_ok.1 h
  obtain ⟨day, hday, h⟩ := bind_eq_ok.1 h
  obtain ⟨hours, hhours, h⟩ := bind_eq_ok.1 h
  obtain ⟨minutes, hminutes, h⟩ := bind_eq_ok.1 h
  obtain ⟨seconds, hseconds, h⟩ := bind_eq_ok.1 h
  obtain ⟨milliseconds, hmilliseconds, h⟩ := bind_eq_ok.1 h
  cases h
  obtain ⟨days, hdays, rfl⟩ := exists_floor (hd .days) hz
  have hcast : max 1 (days : Int) = ((max 1 days : Nat) : Int) := by omega
  rw [hcast] at hday
  obtain rfl := padded_eq_ok hday
  obtain ⟨hour, hhour, rfl⟩ := paddedFloor_eq_ok (hd .hours) hhours
  obtain ⟨minute, hminute, rfl⟩ := paddedFloor_eq_ok (hd .minutes) hminutes
  obtain ⟨second, hsecond, rfl⟩ := paddedFloor_eq_ok (hd .seconds) hseconds
  obtain ⟨millisecond, hmillisecond, rfl⟩ := paddedFloor_eq_ok (hd .milliseconds) hmilliseconds
  refine ⟨⟨y, max 1 days, hour, minute, second, millisecond⟩,
    ⟨hy, ⟨days, hdays, rfl⟩, hhour, hminute, hsecond, hmillisecond⟩, ?_⟩
  simp [WrittenTimestamp.text, WrittenTimestamp.fraction, FoundTimestamp.spelled]

end Duration

/-! ## Durations that are read -/

theorem WholeCounts.nonNegative (c : WholeCounts) : c.duration.NonNegative := by
  intro u z hz
  have hcount : c.duration.count u = .int (c.count u) := by
    cases u
    all_goals rfl
  rw [hcount] at hz
  cases hz
  exact Int.natCast_nonneg _

/-- Whole counts are anchored on themselves, in 1970 if they have no years. -/
theorem WholeCounts.exists_year {c : WholeCounts} {t : FoundTimestamp} (h : c.duration.Floors t) :
    ∃ year, (c.years = 0 → year = 1970) ∧ t = { c.anchor with year := year } := by
  obtain ⟨year, day, hours, minutes, seconds, milliseconds⟩ := t
  obtain ⟨hyear, ⟨days, hdays, hday⟩, hhours, hminutes, hseconds, hmilliseconds⟩ := h
  cases hdays
  cases hhours
  cases hminutes
  cases hseconds
  cases hmilliseconds
  refine ⟨year, ?_, ?_⟩
  · intro hzero
    have hnone : c.duration.years.isZero = true := by
      rw [WholeCounts.duration, hzero]
      rfl
    rwa [if_pos hnone] at hyear
  · obtain rfl : day = max 1 c.days := hday
    rfl

/-- The magnitude of a field is not less than zero. -/
theorem nonNegative_fieldValue {written : List Char} {z : Int}
    (h : (Duration.fieldValue written).floor = .ok z) : 0 ≤ z := by
  unfold Duration.fieldValue at h
  generalize Number.readFloat written = x at h
  cases x with
  | nan => cases h
  | infinite negative => cases h
  | finite negative units hunits =>
    by_cases hwhole : units % Binary64.one = 0
    · have hinteger : (Number.float (Binary64.finite negative units hunits).abs).normalize =
          .int (units / Binary64.one : Nat) := by
        simp only [Binary64.abs, Number.normalize, Binary64.toInt?, if_pos hwhole,
          Bool.false_eq_true, if_false]
      rw [hinteger] at h
      cases h
      exact Int.natCast_nonneg _
    · have hfraction : (Number.float (Binary64.finite negative units hunits).abs).normalize =
          .float (.finite false units hunits) := by
        simp only [Binary64.abs, Number.normalize, Binary64.toInt?, if_neg hwhole]
      rw [hfraction] at h
      cases h
      exact Int.natCast_nonneg _

namespace Duration

variable {d : Duration} {text : List Char}

theorem count_ofCounts (count : DurationUnit → Number) (negative : Bool) (u : DurationUnit) :
    (ofCounts count negative).count u = count u := by
  cases u
  all_goals rfl

theorem nonNegative_of_ofFields? (h : ofFields? text = some d) : d.NonNegative := by
  intro u z hz
  have hvalue (written : Option (List Char))
      (hz : ((written.map fieldValue).getD (.int 0)).floor = .ok z) : 0 ≤ z := by
    cases written with
    | none =>
      cases hz
      exact Int.le_refl 0
    | some written => exact nonNegative_fieldValue hz
  simp only [ofFields?, Option.ite_none_right_eq_some, Option.some.injEq] at h
  obtain ⟨-, rfl⟩ := h
  rw [count_ofCounts] at hz
  exact hvalue _ hz

/-- A duration is read from fields, from a clock tag or from a bare number. -/
theorem read_cases {places : Int} {unit : String} (h : read places unit text = .ok d) :
    ofFields? text = some d ∨ (∃ c : ClockCounts, c.Fits ∧ d = c.duration) ∨
      ∃ c : WholeCounts, c.Normal ∧ d = c.duration := by
  have htag (d' : Duration) (hd : readTime places text = .ok (some (.duration d'))) :
      ∃ c : ClockCounts, c.Fits ∧ d' = c.duration := by
    unfold readTime at hd
    split at hd
    · cases hd
    · split at hd
      · cases hd
      · split at hd
        · cases hd
        · rw [Except.ok.injEq, Option.map_eq_some_iff] at hd
          obtain ⟨d', hd, heq⟩ := hd
          cases heq
          obtain ⟨c, rfl, hfits⟩ := exists_counts_of_ofTag? hd
          exact ⟨c, hfits, rfl⟩
  unfold read at h
  cases hfields : ofFields? text with
  | some d' =>
    rw [hfields] at h
    cases h
    exact .inl rfl
  | none =>
    rw [hfields] at h
    obtain ⟨reading, htime, h⟩ := bind_eq_ok.1 h
    right
    split at h
    · cases h
      exact .inl (htag _ htime)
    · obtain ⟨u, -, h⟩ := bind_eq_ok.1 h
      obtain ⟨number, hnumber, h⟩ := bind_eq_ok.1 h
      split at h
      · cases h
        exact .inr (exists_normal_of_ofNumber? hnumber)
      · cases h

theorem nonNegative_of_read {places : Int} {unit : String} (h : read places unit text = .ok d) :
    d.NonNegative := by
  rcases read_cases h with hfields | ⟨c, -, rfl⟩ | ⟨c, -, rfl⟩
  · exact nonNegative_of_ofFields? hfields
  · exact WholeCounts.nonNegative ⟨c, 0⟩
  · exact c.nonNegative

end Duration

end CommandSequence
