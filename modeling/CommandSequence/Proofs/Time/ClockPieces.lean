import CommandSequence.Proofs.Time.Timestamp

/-!
# Clock tags in pieces

A clock tag is written `[+-][DDD][T]hh:mm:[ss][.][f]`, and each of its pieces but hours and minutes
may be missing. Two digits behind the minutes are seconds; with that the pieces of a tag are the
ones that are read (`ClockPieces.read?_text`), and nothing else is read as a tag
(`ClockPieces.exists_of_read?`). The point and the digits of a fraction may each stand without the
other.
-/

namespace CommandSequence

open Character
open Decimal (Fixed)

/-- A piece of ASCII digits is cut off by its width, whatever follows it. -/
theorem exactly?_fixed {width : Nat} {digits : List Char} (h : Fixed width digits)
    (rest : List Char) :
    Cut.exactly? isAsciiDigit width (digits ++ rest) = some (digits, rest) := by
  rw [← h.length]
  exact Cut.exactly?_append h.digit rest

theorem fixed_of_exactly? {n : Nat} {text piece rest : List Char}
    (h : Cut.exactly? isAsciiDigit n text = some (piece, rest)) : Fixed n piece :=
  ⟨(Cut.eq_append_of_exactly? h).2, Cut.forall_mem_of_exactly? h⟩

/-! ## Pieces -/

/-- The pieces of a clock tag as it is written. -/
structure ClockPieces where
  sign : Option Char
  days : Option (List Char)
  mark : Bool
  hours : List Char
  minutes : List Char
  seconds : Option (List Char)
  point : Bool
  fraction : List Char

namespace ClockPieces

/-- What stands behind the seconds. -/
def ending (w : ClockPieces) : List Char :=
  if w.point then '.' :: w.fraction else w.fraction

/-- The clock `hh:mm:[ss][.][f]`. -/
def clock (w : ClockPieces) : List Char :=
  w.hours ++ (':' : Char) :: (w.minutes ++ (':' : Char) :: (w.seconds.getD [] ++ w.ending))

/-- The clock after its mark. -/
def marked (w : ClockPieces) : List Char :=
  if w.mark then 'T' :: w.clock else w.clock

/-- The tag `[+-][DDD][T]hh:mm:[ss][.][f]`. -/
def text (w : ClockPieces) : List Char :=
  w.sign.toList ++ (w.days.getD [] ++ w.marked)

/-- The pieces as they are read. -/
def tag (w : ClockPieces) : ClockTag :=
  ⟨w.sign == some ('-' : Char), w.days.getD [], w.hours, w.minutes, w.seconds.getD [], w.fraction⟩

/-- The pieces are ASCII digits, each as many as the form asks for. -/
structure Proper (w : ClockPieces) : Prop where
  sign : ∀ c ∈ w.sign, c = '+' ∨ c = '-'
  days : ∀ digits ∈ w.days, Fixed 3 digits
  hours : Fixed 2 w.hours
  minutes : Fixed 2 w.minutes
  seconds : ∀ digits ∈ w.seconds, Fixed 2 digits
  fraction : ∀ c ∈ w.fraction, isAsciiDigit c = true

/-- Two digits behind the minutes are seconds, not a fraction. -/
def SecondsFirst (w : ClockPieces) : Prop :=
  w.seconds = none → w.point = true ∨ w.fraction.length < 2

/-- A point and digits of a fraction come together or not at all. -/
def Pointed (w : ClockPieces) : Prop :=
  w.point = true ↔ w.fraction ≠ []

variable {w : ClockPieces}

theorem Pointed.secondsFirst (h : w.Pointed) : w.SecondsFirst := by
  intro _
  by_cases hfraction : w.fraction = []
  · rw [hfraction]
    exact .inr (by decide)
  · exact .inl (h.2 hfraction)

/-! ## Reading the pieces -/

/-- The seconds are cut off by their width; without them fewer than two digits follow the
minutes. -/
theorem exactly?_seconds (h : w.Proper) (hseconds : w.SecondsFirst) :
    (Cut.exactly? isAsciiDigit 2 (w.seconds.getD [] ++ w.ending)).getD
        ([], w.seconds.getD [] ++ w.ending) = (w.seconds.getD [], w.ending) := by
  cases hdigits : w.seconds with
  | some digits =>
    rw [Option.getD_some, exactly?_fixed (h.seconds digits hdigits), Option.getD_some]
  | none =>
    have hnone : Cut.exactly? isAsciiDigit 2 w.ending = none := by
      rw [ending]
      split
      · rfl
      · next hpoint =>
        have hlength := (hseconds hdigits).resolve_left hpoint
        match w.fraction, hlength with
        | [], _ => rfl
        | [c], _ =>
          unfold Cut.exactly?
          split
          · rfl
          · rfl
    rw [Option.getD_none, List.nil_append, hnone, Option.getD_none]

theorem skipChar_ending (h : w.Proper) : Cut.skipChar '.' w.ending = w.fraction := by
  rw [ending]
  split
  · exact Cut.skipChar_cons_self '.' w.fraction
  · cases hfraction : w.fraction with
    | nil => rfl
    | cons c more =>
      have hc : c ≠ '.' := by
        rintro rfl
        exact absurd (h.fraction '.' (hfraction ▸ List.mem_cons_self)) (by decide)
      rw [Cut.skipChar, Cut.char?_cons_of_ne hc, Option.getD_none]

/-- A clock begins with a digit, not with its mark. -/
theorem skipChar_marked (h : w.Proper) : Cut.skipChar 'T' w.marked = w.clock := by
  rw [marked]
  split
  · exact Cut.skipChar_cons_self 'T' w.clock
  · obtain ⟨c, more, hhours, hc, -⟩ := h.hours.exists_cons
    have hmark : c ≠ 'T' := fun heq => absurd (heq ▸ hc) (by decide)
    rw [clock, hhours, List.cons_append, Cut.skipChar, Cut.char?_cons_of_ne hmark,
      Option.getD_none]

theorem readClock?_marked (h : w.Proper) (hseconds : w.SecondsFirst) (negative : Bool)
    (days : List Char) : ClockTag.readClock? negative days w.marked =
      some ⟨negative, days, w.hours, w.minutes, w.seconds.getD [], w.fraction⟩ := by
  simp only [ClockTag.readClock?, skipChar_marked h, clock, exactly?_fixed h.hours,
    exactly?_fixed h.minutes, exactly?_seconds h hseconds, skipChar_ending h,
    Option.bind_eq_bind, Option.bind_some, Cut.char?_cons_self,
    List.takeWhile_eq_self_iff.2 h.fraction, List.dropWhile_eq_nil_iff.2 h.fraction]
  rfl

/-- Of a clock without a day at most two digits are cut off in front. -/
theorem exactly?_marked (h : w.Proper) : Cut.exactly? isAsciiDigit 3 w.marked = none := by
  rw [marked]
  split
  · rfl
  · exact Cut.exactly?_of_short (h.hours.length ▸ by decide) (by decide) h.hours.digit _

theorem readUnsigned?_text (h : w.Proper) (hseconds : w.SecondsFirst) (negative : Bool) :
    ClockTag.readUnsigned? negative (w.days.getD [] ++ w.marked) =
      some ⟨negative, w.days.getD [], w.hours, w.minutes, w.seconds.getD [], w.fraction⟩ := by
  have hclock := readClock?_marked h hseconds negative
  rw [ClockTag.readUnsigned?]
  cases hdays : w.days with
  | none =>
    rw [Option.getD_none, List.nil_append, exactly?_marked h, Option.bind_none, hclock]
    rfl
  | some digits =>
    rw [Option.getD_some, exactly?_fixed (h.days digits hdays), Option.bind_some]
    dsimp only
    rw [hclock]
    rfl

/-- A tag without its sign does not begin with one. -/
theorem head?_unsigned (h : w.Proper) :
    ∃ c more, w.days.getD [] ++ w.marked = c :: more ∧ c ≠ '-' ∧ c ≠ '+' := by
  have hdigit {c : Char} (hc : isAsciiDigit c = true) : c ≠ '-' ∧ c ≠ '+' := by
    constructor
    · rintro rfl
      exact absurd hc (by decide)
    · rintro rfl
      exact absurd hc (by decide)
  cases hdays : w.days with
  | some digits =>
    obtain ⟨c, more, rfl, hc, -⟩ := (h.days digits hdays).exists_cons
    exact ⟨c, _, rfl, hdigit hc⟩
  | none =>
    rw [Option.getD_none, List.nil_append, marked]
    split
    · exact ⟨'T', _, rfl, by decide, by decide⟩
    · obtain ⟨c, more, hhours, hc, -⟩ := h.hours.exists_cons
      exact ⟨c, _, by rw [clock, hhours]; rfl, hdigit hc⟩

/-- A tag is read by its pieces. -/
theorem read?_text (h : w.Proper) (hseconds : w.SecondsFirst) :
    ClockTag.read? w.text = some w.tag := by
  have hunsigned := readUnsigned?_text h hseconds
  rw [text, tag]
  cases hsign : w.sign with
  | some c =>
    rcases h.sign c hsign with rfl | rfl
    · exact hunsigned false
    · exact hunsigned true
  | none =>
    obtain ⟨c, more, hfirst, hdash, hplus⟩ := head?_unsigned h
    have hread := hunsigned false
    rw [Option.toList_none, List.nil_append]
    rw [hfirst] at hread ⊢
    unfold ClockTag.read?
    split
    · next heq => exact absurd (List.cons.inj heq).1 hdash
    · next heq => exact absurd (List.cons.inj heq).1 hplus
    · exact hread

/-! ## The pieces of what is read -/

/-- Two digits are cut off as seconds, if there are as many. -/
theorem exists_seconds (text : List Char) : ∃ (seconds : Option (List Char)) (rest : List Char),
    (Cut.exactly? isAsciiDigit 2 text).getD ([], text) = (seconds.getD [], rest) ∧
      text = seconds.getD [] ++ rest ∧ (∀ digits ∈ seconds, Fixed 2 digits) ∧
      (seconds = none → (rest.takeWhile isAsciiDigit).length < 2) := by
  cases hfound : Cut.exactly? isAsciiDigit 2 text with
  | none =>
    refine ⟨none, text, rfl, rfl, ?_, fun _ => Cut.length_takeWhile_lt hfound⟩
    rintro _ ⟨⟩
  | some found =>
    obtain ⟨digits, rest⟩ := found
    refine ⟨some digits, rest, rfl, (Cut.eq_append_of_exactly? hfound).1, ?_, nofun⟩
    rintro _ ⟨⟩
    exact fixed_of_exactly? hfound

theorem exists_of_readClock? {negative : Bool} {days text : List Char} {t : ClockTag}
    (h : ClockTag.readClock? negative days text = some t) :
    ∃ (w : ClockPieces) (rest : List Char), w.sign = none ∧ w.days = none ∧ w.Proper ∧
      w.SecondsFirst ∧ Cut.atEnd rest = true ∧ text = w.marked ++ rest ∧
      t = ⟨negative, days, w.hours, w.minutes, w.seconds.getD [], w.fraction⟩ := by
  obtain ⟨⟨hours, afterHours⟩, hhours, h⟩ := Option.bind_eq_some_iff.1 h
  obtain ⟨minute, hcolon, h⟩ := Option.bind_eq_some_iff.1 h
  obtain ⟨⟨minutes, afterMinutes⟩, hminutes, h⟩ := Option.bind_eq_some_iff.1 h
  obtain ⟨second, hcolon', h⟩ := Option.bind_eq_some_iff.1 h
  obtain ⟨seconds, afterSeconds, hread, hsecond, hseconds, hfew⟩ := exists_seconds second
  obtain ⟨mark, hmark⟩ := Cut.exists_skipped 'T' text
  obtain ⟨point, hpoint⟩ := Cut.exists_skipped '.' afterSeconds
  rw [hread] at h
  dsimp only at h
  split at h
  · next hend =>
    cases h
    generalize Cut.skipChar '.' afterSeconds = digits at hend hpoint ⊢
    let w : ClockPieces :=
      ⟨none, none, mark, hours, minutes, seconds, point, digits.takeWhile isAsciiDigit⟩
    have hending : afterSeconds = w.ending ++ digits.dropWhile isAsciiDigit := by
      rw [hpoint, ending]
      cases point with
      | false => exact List.takeWhile_append_dropWhile.symm
      | true => exact congrArg (('.' : Char) :: ·) List.takeWhile_append_dropWhile.symm
    have hclock : Cut.skipChar 'T' text = w.clock ++ digits.dropWhile isAsciiDigit := by
      rw [(Cut.eq_append_of_exactly? hhours).1, Cut.eq_cons_of_char? hcolon,
        (Cut.eq_append_of_exactly? hminutes).1, Cut.eq_cons_of_char? hcolon', hsecond, hending]
      simp [clock, w]
    refine ⟨w, digits.dropWhile isAsciiDigit, rfl, rfl, ?_, ?_, hend, ?_, rfl⟩
    · exact {
        sign := by rintro _ ⟨⟩
        days := by rintro _ ⟨⟩
        hours := fixed_of_exactly? hhours
        minutes := fixed_of_exactly? hminutes
        seconds := hseconds
        fraction := fun c hc => List.mem_takeWhile_imp hc }
    · intro hmissing
      cases point with
      | true => exact .inl rfl
      | false =>
        rw [hpoint] at hfew
        exact .inr (hfew hmissing)
    · rw [hmark, hclock, marked]
      cases mark with
      | false => rfl
      | true => rfl
  · cases h

theorem exists_of_readUnsigned? {negative : Bool} {text : List Char} {t : ClockTag}
    (h : ClockTag.readUnsigned? negative text = some t) :
    ∃ (w : ClockPieces) (rest : List Char), w.sign = none ∧ w.Proper ∧ w.SecondsFirst ∧
      Cut.atEnd rest = true ∧ text = w.text ++ rest ∧ t = { w.tag with negative := negative } := by
  simp only [ClockTag.readUnsigned?, Option.orElse_eq_orElse, Option.orElse_eq_or,
    Option.or_eq_some_iff] at h
  rcases h with hdays | ⟨-, hclock⟩
  · obtain ⟨⟨days, afterDays⟩, hcut, hclock⟩ := Option.bind_eq_some_iff.1 hdays
    obtain ⟨w, rest, hsign, -, hproper, hseconds, hend, rfl, rfl⟩ := exists_of_readClock? hclock
    refine ⟨{ w with days := some days }, rest, hsign, ?_, hseconds, hend, ?_, rfl⟩
    · refine { hproper with days := ?_ }
      rintro _ ⟨⟩
      exact fixed_of_exactly? hcut
    · rw [(Cut.eq_append_of_exactly? hcut).1, ClockPieces.text, hsign]
      simp [marked, clock, ending]
  · obtain ⟨w, rest, hsign, hdays, hproper, hseconds, hend, rfl, rfl⟩ := exists_of_readClock? hclock
    refine ⟨w, rest, hsign, hproper, hseconds, hend, ?_, ?_⟩
    · rw [ClockPieces.text, hsign, hdays]
      rfl
    · rw [tag, hdays]
      rfl

/-- Nothing but a tag in pieces is read as a tag; one line feed may follow it. -/
theorem exists_of_read? {text : List Char} {t : ClockTag} (h : ClockTag.read? text = some t) :
    ∃ (w : ClockPieces) (rest : List Char), w.Proper ∧ w.SecondsFirst ∧
      Cut.atEnd rest = true ∧ text = w.text ++ rest ∧ t = w.tag := by
  have hsigned {c : Char} {unsigned : List Char} (hc : c = '+' ∨ c = '-')
      (h : ClockTag.readUnsigned? (c == '-') unsigned = some t) :
      ∃ (w : ClockPieces) (rest : List Char), w.Proper ∧ w.SecondsFirst ∧
        Cut.atEnd rest = true ∧ c :: unsigned = w.text ++ rest ∧ t = w.tag := by
    obtain ⟨w, rest, hsign, hproper, hseconds, hend, rfl, rfl⟩ := exists_of_readUnsigned? h
    refine ⟨{ w with sign := some c }, rest, ?_, hseconds, hend, ?_, rfl⟩
    · refine { hproper with sign := ?_ }
      rintro _ ⟨⟩
      exact hc
    · rw [ClockPieces.text, hsign]
      rfl
  unfold ClockTag.read? at h
  split at h
  · exact hsigned (.inr rfl) h
  · exact hsigned (.inl rfl) h
  · obtain ⟨w, rest, hsign, hproper, hseconds, hend, htext, rfl⟩ := exists_of_readUnsigned? h
    refine ⟨w, rest, hproper, hseconds, hend, htext, ?_⟩
    rw [tag, hsign]
    rfl

end ClockPieces

end CommandSequence
