import CommandSequence.Proofs.Time.Carry

/-!
# The tags that the grammars accept

Each grammar documents the pieces of its tags (`TagGrammar.Documented`), and accepts every tag that
is written in them. Timestamps and counts are accepted in no other form. A clock is also accepted
with the digits of a fraction that no point introduces, and with a point that no digits follow
(`TagGrammar.Unpointed`); `TagGrammar.accepts_iff` says that there is nothing else, and that no tag
is of both kinds.
-/

namespace CommandSequence

open Character
open Decimal (Fixed)

/-! ## Timestamps -/

/-- So many digits, of any script. -/
structure Decimal.OfWidth (width : Nat) (digits : List Char) : Prop where
  length : digits.length = width
  digit : ∀ c ∈ digits, isDigit c = true

theorem Decimal.OfWidth.exactly? {width : Nat} {digits : List Char} (h : OfWidth width digits)
    (rest : List Char) : Cut.exactly? isDigit width (digits ++ rest) = some (digits, rest) := by
  rw [← h.length]
  exact Cut.exactly?_append h.digit rest

theorem Decimal.ofWidth_of_exactly? {width : Nat} {text digits rest : List Char}
    (h : Cut.exactly? isDigit width text = some (digits, rest)) : OfWidth width digits :=
  ⟨(Cut.eq_append_of_exactly? h).2, Cut.forall_mem_of_exactly? h⟩

namespace WrittenTimestamp

/-- The pieces are digits of any script, each as many as the form asks for. -/
structure AnyDigits (w : WrittenTimestamp) : Prop where
  year : Decimal.OfWidth 4 w.year
  day : Decimal.OfWidth 3 w.day
  hours : Decimal.OfWidth 2 w.hours
  minutes : Decimal.OfWidth 2 w.minutes
  seconds : Decimal.OfWidth 2 w.seconds
  milliseconds : ∀ digits ∈ w.milliseconds, Decimal.OfWidth 3 digits

theorem isAbsolute_text {w : WrittenTimestamp} (h : w.AnyDigits) :
    TagGrammar.isAbsolute w.text = true := by
  simp only [TagGrammar.isAbsolute, text, h.year.exactly?, h.day.exactly?, h.hours.exactly?,
    h.minutes.exactly?, h.seconds.exactly?, Cut.char?_cons_self, Option.bind_eq_bind,
    Option.bind_some, Option.pure_def, fraction]
  cases hmilliseconds : w.milliseconds with
  | none => rfl
  | some digits =>
    have hdigits := (h.milliseconds digits hmilliseconds).exactly? []
    rw [List.append_nil] at hdigits
    simp only [Cut.char?_cons_self, Option.bind_some, hdigits]
    exact Bool.or_true _

theorem exists_of_isAbsolute {text : List Char} (h : TagGrammar.isAbsolute text = true) :
    ∃ (w : WrittenTimestamp) (rest : List Char), w.AnyDigits ∧ Cut.atEnd rest = true ∧
      text = w.text ++ rest := by
  unfold TagGrammar.isAbsolute at h
  dsimp only at h
  split at h
  · cases h
  · next left hclock =>
    obtain ⟨⟨year, afterYear⟩, hyear, hclock⟩ := Option.bind_eq_some_iff.1 hclock
    obtain ⟨day, hdash, hclock⟩ := Option.bind_eq_some_iff.1 hclock
    obtain ⟨⟨days, afterDay⟩, hday, hclock⟩ := Option.bind_eq_some_iff.1 hclock
    obtain ⟨hour, hmark, hclock⟩ := Option.bind_eq_some_iff.1 hclock
    obtain ⟨⟨hours, afterHour⟩, hhour, hclock⟩ := Option.bind_eq_some_iff.1 hclock
    obtain ⟨minute, hcolon, hclock⟩ := Option.bind_eq_some_iff.1 hclock
    obtain ⟨⟨minutes, afterMinute⟩, hminute, hclock⟩ := Option.bind_eq_some_iff.1 hclock
    obtain ⟨second, hcolon', hclock⟩ := Option.bind_eq_some_iff.1 hclock
    obtain ⟨⟨seconds, afterSeconds⟩, hsecond, hclock⟩ := Option.bind_eq_some_iff.1 hclock
    cases hclock
    dsimp only at hdash hmark hcolon hcolon' h
    have htext : text = year ++ ('-' : Char) ::
        (days ++ ('T' : Char) :: (hours ++ (':' : Char) :: (minutes ++ (':' : Char) ::
        (seconds ++ afterSeconds)))) := by
      rw [(Cut.eq_append_of_exactly? hyear).1, Cut.eq_cons_of_char? hdash,
        (Cut.eq_append_of_exactly? hday).1, Cut.eq_cons_of_char? hmark,
        (Cut.eq_append_of_exactly? hhour).1, Cut.eq_cons_of_char? hcolon,
        (Cut.eq_append_of_exactly? hminute).1, Cut.eq_cons_of_char? hcolon',
        (Cut.eq_append_of_exactly? hsecond).1]
    have hdigits {milliseconds : Option (List Char)}
        (h : ∀ digits ∈ milliseconds, Decimal.OfWidth 3 digits) :
        AnyDigits ⟨year, days, hours, minutes, seconds, milliseconds⟩ :=
      ⟨Decimal.ofWidth_of_exactly? hyear, Decimal.ofWidth_of_exactly? hday,
        Decimal.ofWidth_of_exactly? hhour, Decimal.ofWidth_of_exactly? hminute,
        Decimal.ofWidth_of_exactly? hsecond, h⟩
    rcases Bool.or_eq_true_iff.1 h with hend | hfraction
    · refine ⟨⟨year, days, hours, minutes, seconds, none⟩, afterSeconds, hdigits ?_, hend, ?_⟩
      · rintro _ ⟨⟩
      · rw [htext]
        simp [WrittenTimestamp.text, fraction]
    · split at hfraction
      · next digits rest hfound =>
        obtain ⟨point, hpoint, hfound⟩ := Option.bind_eq_some_iff.1 hfound
        refine ⟨⟨year, days, hours, minutes, seconds, some digits⟩, rest, hdigits ?_, hfraction, ?_⟩
        · rintro _ ⟨⟩
          exact Decimal.ofWidth_of_exactly? hfound
        · rw [htext, Cut.eq_cons_of_char? hpoint, (Cut.eq_append_of_exactly? hfound).1]
          simp [WrittenTimestamp.text, fraction]
      · cases hfraction

end WrittenTimestamp

/-! ## Counts -/

namespace BareNumber

/-- A bare number whose fraction is in ASCII digits, and which nothing follows. -/
structure Plain (n : BareNumber) : Prop extends n.Proper where
  ascii : ∀ digits ∈ n.fraction, ∀ c ∈ digits, isAsciiDigit c = true
  last : n.ending = []

theorem isCount_text {n : BareNumber} (h : n.Plain) :
    TagGrammar.isCount (n.whole ++ (n.pointed ++ n.ending)) = true := by
  rw [h.last, List.append_nil, pointed]
  cases hfraction : n.fraction with
  | none =>
    have hwhole := Duration.run?_of_digits h.whole.1 h.whole.2
      (show ∀ c, [].head? = some c → isDigit c = false by rintro _ ⟨⟩)
    rw [TagGrammar.isCount, Option.elim_none, hwhole]
    rfl
  | some digits =>
    have hwhole := Duration.run?_of_digits h.whole.1 h.whole.2
      (show ∀ c, (('.' : Char) :: digits).head? = some c → isDigit c = false by rintro _ ⟨⟩; decide)
    have hdigits : Cut.run? isAsciiDigit digits = some (digits, []) := by
      have hascii := h.ascii digits hfraction
      rw [Cut.run?, List.takeWhile_eq_self_iff.2 hascii, List.dropWhile_eq_nil_iff.2 hascii]
      cases digits with
      | nil => exact absurd rfl (h.fraction [] hfraction).1
      | cons c more => rfl
    simp only [TagGrammar.isCount, Option.elim_some, hwhole, Cut.char?_cons_self, Option.bind_some,
      hdigits]
    rfl

theorem exists_of_isCount {text : List Char} (h : TagGrammar.isCount text = true)
    (hline : text.getLast? ≠ some ('\n' : Char)) :
    ∃ n : BareNumber, n.Plain ∧ n.sign = none ∧ n.text = text := by
  unfold TagGrammar.isCount at h
  split at h
  · cases h
  · next whole afterWhole hwhole =>
    obtain ⟨rfl, hdigits⟩ := Cut.eq_append_of_run? hwhole
    rcases Bool.or_eq_true_iff.1 h with hend | hfraction
    · obtain rfl := Cut.eq_nil_of_atEnd hend hline
      refine ⟨⟨none, whole, none, []⟩, ⟨⟨?_, hdigits, ?_, rfl⟩, ?_, rfl⟩, rfl, rfl⟩
      all_goals rintro _ ⟨⟩
    · split at hfraction
      · next digits rest hfound =>
        obtain ⟨point, hpoint, hfound⟩ := Option.bind_eq_some_iff.1 hfound
        obtain ⟨rfl, hne, hascii⟩ := Cut.eq_append_of_run? hfound
        rw [Cut.eq_cons_of_char? hpoint] at hline ⊢
        have hlast : ((whole ++ ('.' : Char) :: digits) ++ rest).getLast? ≠ some ('\n' : Char) := by
          rwa [List.append_assoc]
        obtain rfl := Cut.eq_nil_of_atEnd hfraction hlast
        refine ⟨⟨none, whole, some digits, []⟩, ⟨⟨?_, hdigits, ?_, rfl⟩, ?_, rfl⟩, rfl, rfl⟩
        · rintro _ ⟨⟩
        · rintro _ ⟨⟩
          exact ⟨hne, fun c hc => isDigit_of_isAsciiDigit (hascii c hc)⟩
        · rintro _ ⟨⟩
          exact hascii
      · cases hfraction

end BareNumber

/-! ## Clocks -/

namespace ClockPieces

variable {w w' : ClockPieces}

/-- A tag has a point in front of its fraction, or none at all. -/
theorem point_mem_text (h : w.Proper) : ('.' : Char) ∈ w.text ↔ w.point = true := by
  have hpiece {digits : List Char} (hdigits : ∀ c ∈ digits, isAsciiDigit c = true) :
      ('.' : Char) ∉ digits := fun hmem => absurd (hdigits '.' hmem) (by decide)
  have hmissing {width : Nat} {piece : Option (List Char)}
      (h : ∀ digits ∈ piece, Fixed width digits) : ('.' : Char) ∉ piece.getD [] := by
    cases piece with
    | none => exact List.not_mem_nil
    | some digits => exact hpiece (h digits rfl).digit
  have hsign : ('.' : Char) ∉ w.sign.toList := by
    intro hmem
    rcases h.sign '.' (Option.mem_toList.1 hmem) with heq | heq
    · cases heq
    · cases heq
  have hmarked : ('.' : Char) ∈ w.marked ↔ ('.' : Char) ∈ w.clock := by
    rw [marked]
    split
    · simp
    · rfl
  have hending : ('.' : Char) ∈ w.ending ↔ w.point = true := by
    rw [ending]
    split
    · next hpoint => simp [hpoint]
    · next hpoint => simp [hpoint, hpiece h.fraction]
  simp [text, hmarked, clock, hending, hsign, hmissing h.days, hmissing h.seconds,
    hpiece h.hours.digit, hpiece h.minutes.digit]

/-- Whether point and fraction come together is told from the text. -/
theorem pointed_congr (h : w.Proper) (hseconds : w.SecondsFirst) (h' : w'.Proper)
    (hseconds' : w'.SecondsFirst) (htext : w.text = w'.text) : w.Pointed ↔ w'.Pointed := by
  have hpoint : w.point = true ↔ w'.point = true := by
    rw [← point_mem_text h, ← point_mem_text h', htext]
  have hread := read?_text h hseconds
  rw [htext, read?_text h' hseconds', Option.some.injEq] at hread
  have hfraction : w'.fraction = w.fraction := congrArg ClockTag.fraction hread
  rw [Pointed, Pointed, hpoint, hfraction]

theorem signed_text (h : w.Proper) : TagGrammar.signed w.text = w.sign.isSome := by
  cases hsign : w.sign with
  | some c =>
    rw [text, hsign]
    rcases h.sign c hsign with rfl | rfl
    · rfl
    · rfl
  | none =>
    obtain ⟨c, more, hfirst, hdash, hplus⟩ := head?_unsigned h
    rw [text, hsign, Option.toList_none, List.nil_append, hfirst]
    exact TagGrammar.signed_cons_of_ne hplus hdash more

end ClockPieces

/-! ## The grammars -/

namespace TagGrammar

/-- The clocks of a grammar, with a sign or without. -/
structure IsClock (g : TagGrammar) (w : ClockPieces) : Prop extends w.Proper where
  kind : g = .epoch ∨ g = .relative ∧ w.sign = none

/-- The tags of a grammar as it is documented: a timestamp, a clock whose fraction follows a point,
or a count of seconds. -/
inductive Documented : TagGrammar → List Char → Prop
  | absolute {w : WrittenTimestamp} (h : w.AnyDigits) : Documented .absolute w.text
  | clock {g : TagGrammar} {w : ClockPieces} (h : g.IsClock w) (hpoint : w.Pointed) :
      Documented g w.text
  | epochSimple {n : BareNumber} (h : n.Plain) : Documented .epochSimple n.text
  | relativeSimple {n : BareNumber} (h : n.Plain) (hsign : n.sign = none) :
      Documented .relativeSimple n.text

/-- A clock with the digits of a fraction but no point, or with a point but no digits. -/
def Unpointed (g : TagGrammar) (tag : List Char) : Prop :=
  ∃ w : ClockPieces, g.IsClock w ∧ w.SecondsFirst ∧ ¬w.Pointed ∧ w.text = tag

theorem accepts_clock {g : TagGrammar} {w : ClockPieces} (h : g.IsClock w)
    (hseconds : w.SecondsFirst) : g.accepts w.text = true := by
  have hread := ClockPieces.read?_text h.toProper hseconds
  rcases h.kind with rfl | ⟨rfl, hsign⟩
  · rw [accepts, hread, Option.isSome_some]
  · rw [accepts, hread, Option.isSome_some, ClockPieces.signed_text h.toProper, hsign]
    rfl

theorem accepts_count {n : BareNumber} (h : n.Plain) : isCount (unsigned n.text) = true := by
  have hcount := BareNumber.isCount_text h
  rw [unsigned, BareNumber.text]
  cases hsign : n.sign with
  | some c =>
    rcases h.sign c hsign with rfl | rfl
    · exact hcount
    · exact hcount
  | none =>
    rw [Option.toList_none, List.nil_append, (unsigned_of_reads (reads_of_isCount hcount)).1]
    exact hcount

/-- A documented tag is accepted. -/
theorem accepts_of_documented {g : TagGrammar} {tag : List Char} (h : g.Documented tag) :
    g.accepts tag = true := by
  cases h with
  | absolute h => exact WrittenTimestamp.isAbsolute_text h
  | clock h hpoint => exact accepts_clock h hpoint.secondsFirst
  | epochSimple h => exact accepts_count h
  | relativeSimple h hsign =>
    rw [BareNumber.text, hsign]
    exact BareNumber.isCount_text h

theorem exists_clock {tag : List Char} (h : (ClockTag.read? tag).isSome = true)
    (hline : tag.getLast? ≠ some ('\n' : Char)) :
    ∃ w : ClockPieces, w.Proper ∧ w.SecondsFirst ∧ w.text = tag := by
  obtain ⟨t, ht⟩ := Option.isSome_iff_exists.1 h
  obtain ⟨w, rest, hproper, hseconds, hend, rfl, -⟩ := ClockPieces.exists_of_read? ht
  rw [Cut.eq_nil_of_atEnd hend hline, List.append_nil]
  exact ⟨w, hproper, hseconds, rfl⟩

theorem exists_count {tag : List Char} (h : isCount (unsigned tag) = true)
    (hline : tag.getLast? ≠ some ('\n' : Char)) : ∃ n : BareNumber, n.Plain ∧ n.text = tag := by
  obtain ⟨sign, hsign, htext⟩ := Duration.exists_sign tag
  rw [Duration.splitSign_eq_unsigned] at htext
  have hlast : (unsigned tag).getLast? ≠ some ('\n' : Char) := by
    intro hlast
    rw [← htext, List.getLast?_append, hlast] at hline
    exact hline rfl
  obtain ⟨n, hn, hnone, hcount⟩ := BareNumber.exists_of_isCount h hlast
  refine ⟨{ n with sign := sign }, { hn with sign := hsign }, ?_⟩
  rw [← htext, ← hcount, BareNumber.text, BareNumber.text, hnone]
  rfl

theorem documented_or_unpointed {g : TagGrammar} {w : ClockPieces} (h : g.IsClock w)
    (hseconds : w.SecondsFirst) : g.Documented w.text ∨ g.Unpointed w.text := by
  by_cases hpoint : w.Pointed
  · exact .inl (.clock h hpoint)
  · exact .inr ⟨w, h, hseconds, hpoint, rfl⟩

/-- A tag that is accepted and does not end in a line feed is documented, or a clock without its
point or without the digits behind it. -/
theorem documented_or_unpointed_of_accepts {g : TagGrammar} {tag : List Char}
    (hline : tag.getLast? ≠ some ('\n' : Char)) (h : g.accepts tag = true) :
    g.Documented tag ∨ g.Unpointed tag := by
  cases g with
  | absolute =>
    obtain ⟨w, rest, hw, hend, rfl⟩ := WrittenTimestamp.exists_of_isAbsolute h
    rw [Cut.eq_nil_of_atEnd hend hline, List.append_nil]
    exact .inl (.absolute hw)
  | epoch =>
    obtain ⟨w, hproper, hseconds, rfl⟩ := exists_clock h hline
    exact documented_or_unpointed { hproper with kind := .inl rfl } hseconds
  | relative =>
    obtain ⟨hsigned, hread⟩ := Bool.and_eq_true_iff.1 h
    obtain ⟨w, hproper, hseconds, rfl⟩ := exists_clock hread hline
    have hsign : w.sign = none := by
      rwa [ClockPieces.signed_text hproper, Bool.not_eq_true', Option.isSome_eq_false_iff,
        Option.isNone_iff_eq_none] at hsigned
    exact documented_or_unpointed { hproper with kind := .inr ⟨rfl, hsign⟩ } hseconds
  | epochSimple =>
    obtain ⟨n, hn, rfl⟩ := exists_count h hline
    exact .inl (.epochSimple hn)
  | relativeSimple =>
    obtain ⟨n, hn, hsign, rfl⟩ := BareNumber.exists_of_isCount h hline
    exact .inl (.relativeSimple hn hsign)

/-- No documented tag lacks its point, or has one for nothing. -/
theorem not_unpointed_of_documented {g : TagGrammar} {tag : List Char} (h : g.Documented tag) :
    ¬g.Unpointed tag := by
  rintro ⟨w, hclock, hseconds, hpoint, htext⟩
  have hother (hg : g ≠ .epoch ∧ g ≠ .relative) : False := by
    rcases hclock.kind with heq | ⟨heq, -⟩
    · exact hg.1 heq
    · exact hg.2 heq
  cases h with
  | absolute h => exact hother ⟨nofun, nofun⟩
  | clock h hpointed =>
    refine hpoint ((ClockPieces.pointed_congr hclock.toProper hseconds h.toProper
      hpointed.secondsFirst htext).2 hpointed)
  | epochSimple h => exact hother ⟨nofun, nofun⟩
  | relativeSimple h hsign => exact hother ⟨nofun, nofun⟩

/-- Of the tags that do not end in a line feed a grammar accepts those that it documents, and
besides them only clocks with the digits of a fraction that no point introduces, or with a point
that introduces none. -/
theorem accepts_iff (g : TagGrammar) {tag : List Char} (hline : tag.getLast? ≠ some ('\n' : Char)) :
    (g.accepts tag = true ↔ g.Documented tag ∨ g.Unpointed tag) ∧
      ¬(g.Documented tag ∧ g.Unpointed tag) := by
  refine ⟨⟨documented_or_unpointed_of_accepts hline, ?_⟩,
    fun h => not_unpointed_of_documented h.1 h.2⟩
  rintro (hdocumented | ⟨w, hclock, hseconds, -, rfl⟩)
  · exact accepts_of_documented hdocumented
  · exact accepts_clock hclock hseconds

/-- A fraction may follow the minutes, and the day may have its mark and the tag its sign. -/
theorem accepts_iff_withoutSeconds : (String.toList "-364T23:59:.5").getLast? ≠ some ('\n' : Char) ∧
    epoch.Documented (String.toList "-364T23:59:.5") ∧
    epoch.accepts (String.toList "-364T23:59:.5") = true ∧
    ¬epoch.Unpointed (String.toList "-364T23:59:.5") := by
  have hline : (String.toList "-364T23:59:.5").getLast? ≠ some ('\n' : Char) := by decide
  let w : ClockPieces := ⟨some '-', some (String.toList "364"), true, String.toList "23",
    String.toList "59", none, true, String.toList "5"⟩
  have hclock : epoch.IsClock w := {
    sign := by rintro _ ⟨⟩; exact .inr rfl
    days := by rintro _ ⟨⟩; decide
    hours := by decide
    minutes := by decide
    seconds := by rintro _ ⟨⟩
    fraction := List.all_eq_true.1 (by decide)
    kind := .inl rfl }
  have hpoint : w.Pointed := iff_of_true rfl (List.cons_ne_nil _ _)
  have hdocumented : epoch.Documented (String.toList "-364T23:59:.5") := .clock hclock hpoint
  exact ⟨hline, hdocumented, (accepts_iff .epoch hline).1.2 (.inl hdocumented),
    fun h => (accepts_iff .epoch hline).2 ⟨hdocumented, h⟩⟩

/-- A digit behind the seconds is accepted as a fraction without its point. -/
theorem accepts_unpointed : (String.toList "00:00:005").getLast? ≠ some ('\n' : Char) ∧
    epoch.accepts (String.toList "00:00:005") = true ∧
    ¬epoch.Documented (String.toList "00:00:005") := by
  let w : ClockPieces :=
    ⟨none, none, false, String.toList "00", String.toList "00", some (String.toList "00"), false,
    String.toList "5"⟩
  have hclock : epoch.IsClock w := {
    sign := by rintro _ ⟨⟩
    days := by rintro _ ⟨⟩
    hours := by decide
    minutes := by decide
    seconds := by rintro _ ⟨⟩; decide
    fraction := List.all_eq_true.1 (by decide)
    kind := .inl rfl }
  have hpoint : ¬w.Pointed := fun h => absurd (h.2 (List.cons_ne_nil _ _)) Bool.false_ne_true
  exact ⟨by decide, by decide, fun h =>
    not_unpointed_of_documented h ⟨w, hclock, nofun, hpoint, rfl⟩⟩

end TagGrammar

end CommandSequence
