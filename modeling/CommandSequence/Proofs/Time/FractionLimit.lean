import CommandSequence.Proofs.Time.CalendarReading

/-!
# Fractions beyond the limit of the calendar reader

Of the pieces of a calendar timestamp only the fraction takes the point. So a reading of a timestamp
with a fraction leaves the point and the digits after it, or it leaves some of the digits if these
are more than the limit (`Unread`). Neither is the end of the text, and the timestamp is not read at
all (`Timestamp.read?_eq_none`).
-/

namespace CommandSequence.Timestamp

open Character

/-- The characters that no piece but the fraction leaves. -/
def isPlain (c : Char) : Bool :=
  c != '.'

theorem isPlain_of_isDigit {c : Char} (h : isDigit c = true) : isPlain c = true := by
  rw [isPlain, bne_iff_ne]
  rintro rfl
  exact absurd h (by decide)

/-! ## Pieces without a point -/

/-- Every reading takes characters other than the point. -/
def Passing {α : Type} (readings : Readings α) (text : List Char) : Prop :=
  ∀ reading ∈ readings, Cut.Consumes isPlain text reading.2

section

variable {α β : Type} {text : List Char}

theorem passing_nil (text : List Char) : Passing ([] : Readings α) text :=
  List.forall_mem_nil _

theorem passing_single {a : α} {rest : List Char} (h : Cut.Consumes isPlain text rest) :
    Passing [(a, rest)] text :=
  List.forall_mem_singleton.2 h

theorem Passing.append {readings more : Readings α} (h : Passing readings text)
    (h' : Passing more text) : Passing (readings ++ more) text := by
  intro reading hreading
  rcases List.mem_append.1 hreading with hreading | hreading
  · exact h reading hreading
  · exact h' reading hreading

theorem Passing.optionally {piece : List Char → Readings α} (h : Passing (piece text) text) :
    Passing (optionally piece text) text := by
  intro reading hreading
  rcases List.mem_append.1 hreading with hreading | hreading
  · obtain ⟨found, hfound, rfl⟩ := List.mem_map.1 hreading
    exact h found hfound
  · rw [List.mem_singleton.1 hreading]
    exact .refl _ _

theorem passing_after {c : Char} (hc : isPlain c = true) {piece : List Char → Readings α}
    (h : ∀ rest, Passing (piece rest) rest) (text : List Char) :
    Passing (after c piece text) text := by
  unfold after
  cases hfound : Cut.char? c text with
  | none => exact passing_nil text
  | some rest =>
    intro reading hreading
    exact (Cut.consumes_of_char? hfound hc).trans (h rest reading hreading)

theorem passing_oneDigit (text : List Char) : Passing (oneDigit text) text := by
  unfold oneDigit
  split
  · next c rest =>
    split
    · next hc =>
      exact passing_single (.cons (isPlain_of_isDigit (isDigit_of_isAsciiDigit hc)) rest)
    · exact passing_nil _
  · exact passing_nil _

theorem isPlain_of_le {c : Char} (h : '0' ≤ c) : isPlain c = true := by
  rw [isPlain, bne_iff_ne]
  rintro rfl
  exact absurd h (by decide)

theorem consumes_pair {a b : Char} (ha : isPlain a = true) (hb : isPlain b = true)
    (rest : List Char) : Cut.Consumes isPlain (a :: b :: rest) rest :=
  (Cut.Consumes.cons ha _).trans (.cons hb _)

theorem passing_twoDigits (greatest : Char) (text : List Char) :
    Passing (twoDigits '0' greatest text) text := by
  unfold twoDigits
  split
  · next a b rest =>
    split
    · next hpair =>
      simp only [Bool.and_eq_true, decide_eq_true_eq] at hpair
      obtain ⟨⟨ha, -⟩, hb⟩ := hpair
      have hdigit := isPlain_of_isDigit (isDigit_of_isAsciiDigit hb)
      exact passing_single (consumes_pair (isPlain_of_le ha) hdigit rest)
    · exact passing_nil _
  · exact passing_nil _

theorem passing_bounded {first : Char} (hfirst : isPlain first = true) (greatest : Char)
    (text : List Char) : Passing (bounded first greatest text) text := by
  unfold bounded
  split
  · next a b rest =>
    split
    · next hpair =>
      simp only [Bool.and_eq_true, beq_iff_eq, decide_eq_true_eq] at hpair
      obtain ⟨⟨rfl, hb⟩, -⟩ := hpair
      exact passing_single (consumes_pair hfirst (isPlain_of_le hb) rest)
    · exact passing_nil _
  · exact passing_nil _

/-- A reading of a run takes digits, at most as many as the limit and at least one. -/
theorem exists_of_mem_digitsUpTo {limit : Nat} {text : List Char} {reading : List Char × List Char}
    (h : reading ∈ digitsUpTo limit text) :
    ∃ n, n < limit ∧ reading = (text.take (n + 1), text.drop (n + 1)) ∧
      ∀ c ∈ text.take (n + 1), isDigit c = true := by
  simp only [digitsUpTo, List.mem_map, List.mem_reverse, List.mem_range, List.length_take,
    lt_min_iff] at h
  obtain ⟨n, ⟨hlimit, hrun⟩, rfl⟩ := h
  refine ⟨n, hlimit, rfl, ?_⟩
  intro c hc
  have htake : text.take (n + 1) = (text.takeWhile isDigit).take (n + 1) := by
    conv_lhs => rw [← List.takeWhile_append_dropWhile (p := isDigit) (l := text)]
    exact List.take_append_of_le_length hrun
  rw [htake] at hc
  exact List.mem_takeWhile_imp (List.mem_of_mem_take hc)

theorem passing_digitsUpTo (limit : Nat) (text : List Char) :
    Passing (digitsUpTo limit text) text := by
  intro reading hreading
  obtain ⟨n, -, rfl, hdigits⟩ := exists_of_mem_digitsUpTo hreading
  refine ⟨text.take (n + 1), (List.take_append_drop ..).symm, ?_⟩
  intro c hc
  exact isPlain_of_isDigit (hdigits c hc)

end

/-! ## The day, the hour, the minute and the second -/

theorem passing_sixtieth (text : List Char) : Passing (sixtieth text) text :=
  (passing_oneDigit text).append (passing_twoDigits '5' text)

theorem passing_hourOfDay (text : List Char) : Passing (hourOfDay text) text :=
  (passing_oneDigit text).append (passing_twoDigits '2' text)

theorem passing_month (text : List Char) : Passing (month text) text :=
  ((passing_twoDigits '0' text).append (passing_oneDigit text)).append
    (passing_bounded (by decide) '2' text)

theorem passing_dayOfMonth (text : List Char) : Passing (dayOfMonth text) text :=
  ((passing_twoDigits '2' text).append (passing_oneDigit text)).append
    (passing_bounded (by decide) '1' text)

theorem passing_calendarDay (text : List Char) : Passing (calendarDay text) text := by
  intro reading hreading
  rcases List.mem_append.1 hreading with hreading | hreading
  · obtain ⟨⟨m, rest⟩, hmonth, hreading⟩ := List.mem_flatMap.1 hreading
    obtain ⟨⟨d, left⟩, hday, rfl⟩ := List.mem_map.1 hreading
    exact (passing_month text _ hmonth).trans
      (passing_after (by decide) passing_dayOfMonth rest _ hday)
  · obtain ⟨⟨d, left⟩, hday, rfl⟩ := List.mem_map.1 hreading
    exact passing_digitsUpTo 3 text _ hday

/-! ## The fraction -/

/-- The digits of a fraction have not all been read: they follow their point, or some of them are
left. -/
def Unread (digits text : List Char) : Prop :=
  Cut.Consumes isPlain text ('.' :: digits) ∨ ∃ n < digits.length, text = digits.drop n

variable {digits text : List Char}

/-- What is not read does not end the text. -/
theorem Unread.atEnd (h : Unread digits text) (hdigits : ∀ c ∈ digits, isAsciiDigit c = true) :
    Cut.atEnd text = false := by
  rcases h with ⟨front, rfl, -⟩ | ⟨n, hn, rfl⟩
  · cases front with
    | nil => rfl
    | cons c front =>
      unfold Cut.atEnd
      split
      · next heq => cases heq
      · next heq =>
        have hlength := congrArg List.length heq
        simp at hlength
      · rfl
  · rw [List.drop_eq_getElem_cons hn]
    exact atEnd_digit (hdigits _ (List.getElem_mem hn)) _

/-- Taking other characters leaves the point where it stands. -/
theorem consumes_left {rest : List Char} (h : Cut.Consumes isPlain text rest)
    (h' : Cut.Consumes isPlain text ('.' :: digits)) :
    Cut.Consumes isPlain rest ('.' :: digits) := by
  obtain ⟨piece, rfl, hpiece⟩ := h
  obtain ⟨front, heq, hfront⟩ := h'
  rcases List.append_eq_append_iff.1 heq with ⟨more, rfl, hrest⟩ | ⟨more, rfl, hrest⟩
  · refine ⟨more, hrest, ?_⟩
    intro c hc
    exact hfront c (List.mem_append_right piece hc)
  · cases more with
    | nil => exact ⟨[], hrest.symm, List.forall_mem_nil _⟩
    | cons c more =>
      obtain ⟨rfl, -⟩ := List.cons.inj hrest
      exact absurd (hpiece '.' (List.mem_append_right front List.mem_cons_self)) (by decide)

/-- A point with more digits than the limit behind it is left, or some of the digits are. -/
theorem unread_fraction {places : Nat} (hplaces : places < digits.length)
    (h : Cut.Consumes isPlain text ('.' :: digits)) :
    ∀ reading ∈ optionally (after '.' (digitsUpTo places)) text, Unread digits reading.2 := by
  intro reading hreading
  rcases List.mem_append.1 hreading with hreading | hreading
  · obtain ⟨found, hfound, rfl⟩ := List.mem_map.1 hreading
    obtain ⟨front, rfl, hfront⟩ := h
    cases front with
    | nil =>
      rw [List.nil_append, after, Cut.char?_cons_self] at hfound
      obtain ⟨n, hn, rfl, -⟩ := exists_of_mem_digitsUpTo hfound
      exact .inr ⟨n + 1, by omega, rfl⟩
    | cons c front =>
      have hc : c ≠ '.' := bne_iff_ne.1 (hfront c List.mem_cons_self)
      rw [List.cons_append, after_of_ne hc] at hfound
      cases hfound
  · rw [List.mem_singleton.1 hreading]
    exact .inl h

theorem unread_secondOfMinute {places : Nat} (hplaces : places < digits.length)
    (h : Cut.Consumes isPlain text ('.' :: digits)) :
    ∀ reading ∈ secondOfMinute places text, Unread digits reading.2 := by
  intro reading hreading
  obtain ⟨⟨second, rest⟩, hsecond, hreading⟩ := List.mem_flatMap.1 hreading
  obtain ⟨⟨fraction, left⟩, hfraction, rfl⟩ := List.mem_map.1 hreading
  have hrest := consumes_left (passing_sixtieth text _ hsecond) h
  exact unread_fraction hplaces hrest _ hfraction

theorem unread_clock {places : Nat} (hplaces : places < digits.length)
    (h : Cut.Consumes isPlain text ('.' :: digits)) :
    ∀ reading ∈ clock places text, Unread digits reading.2 := by
  intro reading hreading
  obtain ⟨⟨hour, afterHour⟩, hhour, hreading⟩ := List.mem_flatMap.1 hreading
  obtain ⟨⟨minute, afterMinute⟩, hminute, hreading⟩ := List.mem_flatMap.1 hreading
  obtain ⟨⟨second, left⟩, hsecond, rfl⟩ := List.mem_map.1 hreading
  have hpassed := (passing_after (by decide) passing_sixtieth afterHour).optionally _ hminute
  have hrest := consumes_left hpassed (consumes_left (passing_hourOfDay text _ hhour) h)
  rcases List.mem_append.1 hsecond with hsecond | hsecond
  · obtain ⟨found, hfound, heq⟩ := List.mem_map.1 hsecond
    cases heq
    unfold after at hfound
    cases hcolon : Cut.char? ':' afterMinute with
    | none =>
      rw [hcolon] at hfound
      cases hfound
    | some rest =>
      rw [hcolon] at hfound
      have hleft := consumes_left (Cut.consumes_of_char? hcolon (by decide)) hrest
      exact unread_secondOfMinute hplaces hleft _ hfound
  · cases List.mem_singleton.1 hsecond
    exact .inl hrest

theorem unread_timePart {places : Nat} (hplaces : places < digits.length)
    (h : Cut.Consumes isPlain text ('.' :: digits)) :
    ∀ reading ∈ timePart places text, Unread digits reading.2 := by
  have hmarked {mark : Char} (hmark : isPlain mark = true) :
      ∀ reading ∈ after mark (optionally (clockWritten places)) text, Unread digits reading.2 := by
    intro reading hreading
    unfold after at hreading
    cases hfound : Cut.char? mark text with
    | none =>
      rw [hfound] at hreading
      cases hreading
    | some rest =>
      rw [hfound] at hreading
      have hrest := consumes_left (Cut.consumes_of_char? hfound hmark) h
      rcases List.mem_append.1 hreading with hreading | hreading
      · obtain ⟨written, hwritten, rfl⟩ := List.mem_map.1 hreading
        obtain ⟨⟨c, left⟩, hclock, rfl⟩ := List.mem_map.1 hwritten
        exact unread_clock hplaces hrest _ hclock
      · rw [List.mem_singleton.1 hreading]
        exact .inl hrest
  intro reading hreading
  rcases List.mem_append.1 hreading with hreading | hreading
  · rcases List.mem_append.1 hreading with hreading | hreading
    · exact hmarked (by decide) reading hreading
    · exact hmarked (by decide) reading hreading
  · rw [List.mem_singleton.1 hreading]
    exact .inl h

/-- A timestamp whose fraction has more digits than the limit is not read. -/
theorem read?_eq_none {w : WrittenTimestamp} {places : Nat} (h : w.Digits)
    (hmilliseconds : w.milliseconds = some digits) (hplaces : places < digits.length) :
    read? places w.text = none := by
  have hplain {width : Nat} {piece : List Char} (hpiece : Decimal.Fixed width piece)
      (rest : List Char) : Cut.Consumes isPlain (piece ++ rest) rest :=
    ⟨piece, rfl, fun c hc => isPlain_of_isDigit (hpiece.isDigit c hc)⟩
  have hfraction : w.fraction = ('.' : Char) :: digits := by
    rw [WrittenTimestamp.fraction, hmilliseconds]
  have hday : Cut.Consumes isPlain
      (w.day ++ ('T' : Char) :: (w.hours ++ (':' : Char) :: (w.minutes ++ (':' : Char) ::
      (w.seconds ++ w.fraction)))) (('.' : Char) :: digits) := by
    rw [hfraction]
    exact (hplain h.day _).trans <| (Cut.Consumes.cons (by decide) _).trans <|
      (hplain h.hours _).trans <| (Cut.Consumes.cons (by decide) _).trans <|
      (hplain h.minutes _).trans <| (Cut.Consumes.cons (by decide) _).trans (hplain h.seconds _)
  rw [read?, WrittenTimestamp.text, h.year.exactly?]
  simp only [Option.bind_eq_bind, Option.bind_some, Cut.char?_cons_self]
  rw [Option.map_eq_none_iff, List.find?_eq_none]
  intro reading hreading
  obtain ⟨⟨day, rest⟩, hfound, hreading⟩ := List.mem_flatMap.1 hreading
  obtain ⟨⟨time, left⟩, htime, rfl⟩ := List.mem_map.1 hreading
  have hrest := consumes_left (passing_calendarDay _ _ hfound) hday
  have hleft := unread_timePart hplaces hrest _ htime
  exact Bool.eq_false_iff.1 (hleft.atEnd (h.milliseconds digits hmilliseconds).digit)

end CommandSequence.Timestamp
