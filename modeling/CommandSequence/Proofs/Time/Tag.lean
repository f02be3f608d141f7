import CommandSequence.Document.OfOutline
import CommandSequence.Proofs.Source.Lexing
import CommandSequence.Proofs.Text.Cut

/-!
# The grammars of time tags and their terminals

A grammar and the terminal of a letter are two descriptions of the tags of that letter. The grammars
accept more: digits of any script, one line feed at the end, and the mark `T` before a clock that
has no day. Of the tags without these (`IsPlainTag`) each that a grammar accepts has the form of the
terminal (`isTagBody_of_accepts`), and no other tag has it (`isPlainTag_of_isTagBody`).
-/

namespace CommandSequence

open Character
open Source (Terminal)

open Cut (Consumes Exhausts consumes_of_exactly? consumes_of_char? consumes_skipChar
  consumes_dropWhile consumes_of_run? head?_of_exactly? head?_of_run?)

/-! ## What the grammars accept -/

/-- The characters of a count or a clock, with digits of any script. -/
def isOffsetMark (c : Char) : Bool :=
  isDigit c || c == ':' || c == '.' || c == 'T'

/-- The characters of a timestamp, with digits of any script. -/
def isTimestampMark (c : Char) : Bool :=
  isOffsetMark c || c == '-'

theorem isOffsetMark_of_isDigit {c : Char} (h : isDigit c = true) : isOffsetMark c = true := by
  simp [isOffsetMark, h]

theorem isOffsetMark_of_isAsciiDigit {c : Char} (h : isAsciiDigit c = true) :
    isOffsetMark c = true :=
  isOffsetMark_of_isDigit (isDigit_of_isAsciiDigit h)

theorem isTimestampMark_of_isDigit {c : Char} (h : isDigit c = true) :
    isTimestampMark c = true := by
  simp [isTimestampMark, isOffsetMark_of_isDigit h]

/-- A text begins with a digit or the mark of a clock and is characters of a class. -/
structure Reads (p : Char → Bool) (text : List Char) : Prop where
  first : ∃ c more, text = c :: more ∧ (isDigit c = true ∨ c = 'T')
  exhausts : Exhausts p text

theorem reads_of_isAbsolute {text : List Char} (h : TagGrammar.isAbsolute text = true) :
    Reads isTimestampMark text := by
  have hdigits {n : Nat} {text piece rest : List Char}
      (h : Cut.exactly? isDigit n text = some (piece, rest)) : Consumes isTimestampMark text rest :=
    consumes_of_exactly? h fun _ => isTimestampMark_of_isDigit
  unfold TagGrammar.isAbsolute at h
  dsimp only at h
  split at h
  · cases h
  · next rest hclock =>
    obtain ⟨⟨_, afterYear⟩, hyear, hclock⟩ := Option.bind_eq_some_iff.1 hclock
    obtain ⟨day, hdash, hclock⟩ := Option.bind_eq_some_iff.1 hclock
    obtain ⟨⟨_, afterDay⟩, hday, hclock⟩ := Option.bind_eq_some_iff.1 hclock
    obtain ⟨hour, hmark, hclock⟩ := Option.bind_eq_some_iff.1 hclock
    obtain ⟨⟨_, afterHour⟩, hhour, hclock⟩ := Option.bind_eq_some_iff.1 hclock
    obtain ⟨minute, hcolon, hclock⟩ := Option.bind_eq_some_iff.1 hclock
    obtain ⟨⟨_, afterMinute⟩, hminute, hclock⟩ := Option.bind_eq_some_iff.1 hclock
    obtain ⟨second, hcolon', hclock⟩ := Option.bind_eq_some_iff.1 hclock
    obtain ⟨⟨_, afterSecond⟩, hsecond, hclock⟩ := Option.bind_eq_some_iff.1 hclock
    cases hclock
    have hread : Consumes isTimestampMark text afterSecond :=
      (hdigits hyear).trans <| (consumes_of_char? hdash (by decide)).trans <|
      (hdigits hday).trans <| (consumes_of_char? hmark (by decide)).trans <|
      (hdigits hhour).trans <| (consumes_of_char? hcolon (by decide)).trans <|
      (hdigits hminute).trans <| (consumes_of_char? hcolon' (by decide)).trans (hdigits hsecond)
    obtain ⟨c, more, htext, hc⟩ := head?_of_exactly? hyear
    refine ⟨⟨c, more, htext, .inl hc⟩, hread.exhausts ?_⟩
    rcases Bool.or_eq_true_iff.1 h with hend | hfraction
    · exact ⟨afterSecond, .refl _ _, hend⟩
    · split at hfraction
      · next last hfound =>
        obtain ⟨fraction, hpoint, hfound⟩ := Option.bind_eq_some_iff.1 hfound
        exact ⟨last, (consumes_of_char? hpoint (by decide)).trans (hdigits hfound), hfraction⟩
      · cases hfraction

theorem reads_of_isCount {text : List Char} (h : TagGrammar.isCount text = true) :
    Reads isOffsetMark text := by
  unfold TagGrammar.isCount at h
  split at h
  · cases h
  · next whole rest hwhole =>
    obtain ⟨c, more, htext, hc⟩ := head?_of_run? hwhole
    refine ⟨⟨c, more, htext, .inl hc⟩, (consumes_of_run? hwhole fun _ =>
      isOffsetMark_of_isDigit).exhausts ?_⟩
    rcases Bool.or_eq_true_iff.1 h with hend | hfraction
    · exact ⟨rest, .refl _ _, hend⟩
    · split at hfraction
      · next last hfound =>
        obtain ⟨fraction, hpoint, hfound⟩ := Option.bind_eq_some_iff.1 hfound
        exact ⟨last, (consumes_of_char? hpoint (by decide)).trans
          (consumes_of_run? hfound fun _ => isOffsetMark_of_isAsciiDigit), hfraction⟩
      · cases hfraction

theorem consumes_of_exactly?_ascii {n : Nat} {text piece rest : List Char}
    (h : Cut.exactly? isAsciiDigit n text = some (piece, rest)) : Consumes isOffsetMark text rest :=
  consumes_of_exactly? h fun _ => isOffsetMark_of_isAsciiDigit

/-- A clock begins with its mark or a digit. -/
theorem reads_of_readClock? {negative : Bool} {days text : List Char} {t : ClockTag}
    (h : ClockTag.readClock? negative days text = some t) :
    Reads isOffsetMark text := by
  obtain ⟨⟨hours, afterHours⟩, hhours, h⟩ := Option.bind_eq_some_iff.1 h
  obtain ⟨minute, hcolon, h⟩ := Option.bind_eq_some_iff.1 h
  obtain ⟨⟨minutes, afterMinutes⟩, hminutes, h⟩ := Option.bind_eq_some_iff.1 h
  obtain ⟨second, hcolon', h⟩ := Option.bind_eq_some_iff.1 h
  -- the seconds may be missing; what is cut off is then empty
  have hseconds : Consumes isOffsetMark second
      ((Cut.exactly? isAsciiDigit 2 second).getD ([], second)).2 := by
    cases hfound : Cut.exactly? isAsciiDigit 2 second with
    | none => exact .refl _ _
    | some found => exact consumes_of_exactly?_ascii hfound
  generalize (Cut.exactly? isAsciiDigit 2 second).getD ([], second) = found at h hseconds
  obtain ⟨seconds, afterSeconds⟩ := found
  dsimp only at h hseconds
  refine ⟨?_, ?_⟩
  · by_cases hmark : text.head? = some ('T' : Char)
    · obtain ⟨more, rfl⟩ := List.head?_eq_some_iff.1 hmark
      exact ⟨'T', more, rfl, .inr rfl⟩
    · have hskip : Cut.skipChar 'T' text = text := by
        cases text with
        | nil => rfl
        | cons c more =>
          have hc : c ≠ 'T' := fun heq => hmark (congrArg some heq)
          rw [Cut.skipChar, Cut.char?, if_neg hc]
          rfl
      rw [hskip] at hhours
      obtain ⟨c, more, rfl, hc⟩ := head?_of_exactly? hhours
      exact ⟨c, more, rfl, .inl (isDigit_of_isAsciiDigit hc)⟩
  · refine ((consumes_skipChar (by decide) text).trans <|
      (consumes_of_exactly?_ascii hhours).trans <| (consumes_of_char? hcolon (by decide)).trans <|
      (consumes_of_exactly?_ascii hminutes).trans <|
      (consumes_of_char? hcolon' (by decide)).trans <| hseconds.trans <|
      (consumes_skipChar (c := '.') (by decide) _).trans <|
      consumes_dropWhile (fun _ => isOffsetMark_of_isAsciiDigit) _).exhausts ⟨_, .refl _ _, ?_⟩
    split at h
    · assumption
    · cases h

theorem reads_of_readUnsigned? {negative : Bool} {text : List Char} {t : ClockTag}
    (h : ClockTag.readUnsigned? negative text = some t) :
    Reads isOffsetMark text := by
  simp only [ClockTag.readUnsigned?, Option.orElse_eq_orElse, Option.orElse_eq_or,
    Option.or_eq_some_iff] at h
  rcases h with hdays | ⟨-, hclock⟩
  · obtain ⟨⟨days, rest⟩, hcut, hclock⟩ := Option.bind_eq_some_iff.1 hdays
    obtain ⟨c, more, htext, hc⟩ := head?_of_exactly? hcut
    exact ⟨⟨c, more, htext, .inl (isDigit_of_isAsciiDigit hc)⟩,
      (consumes_of_exactly?_ascii hcut).exhausts (reads_of_readClock? hclock).exhausts⟩
  · exact reads_of_readClock? hclock

theorem TagGrammar.signed_cons_of_ne {c : Char} (hplus : c ≠ '+') (hminus : c ≠ '-')
    (rest : List Char) : signed (c :: rest) = false := by
  simp [signed, hplus, hminus]

theorem TagGrammar.signed_of_isDigit {c : Char} (h : isDigit c = true) (rest : List Char) :
    signed (c :: rest) = false := by
  apply signed_cons_of_ne
  · rintro rfl
    exact absurd h (by decide)
  · rintro rfl
    exact absurd h (by decide)

/-- A tag without the sign that it may begin with. -/
def TagGrammar.unsigned (tag : List Char) : List Char :=
  if signed tag then tag.drop 1 else tag

theorem reads_of_read? {tag : List Char} (h : (ClockTag.read? tag).isSome = true) :
    Reads isOffsetMark (TagGrammar.unsigned tag) := by
  obtain ⟨t, ht⟩ := Option.isSome_iff_exists.1 h
  unfold ClockTag.read? at ht
  split at ht
  · exact reads_of_readUnsigned? ht
  · exact reads_of_readUnsigned? ht
  · next hminus hplus =>
    have hsigned : TagGrammar.signed tag = false := by
      cases tag with
      | nil => rfl
      | cons c rest =>
        have hfirst : c ≠ '+' := fun heq => hplus rest (heq ▸ rfl)
        have hsecond : c ≠ '-' := fun heq => hminus rest (heq ▸ rfl)
        exact TagGrammar.signed_cons_of_ne hfirst hsecond rest
    rw [TagGrammar.unsigned, hsigned]
    exact reads_of_readUnsigned? ht

/-! ## Plain tags -/

/-- A tag in ASCII digits, on one line, whose clock does not begin with its mark. -/
structure IsPlainTag (tag : List Char) : Prop where
  digits : ∀ c ∈ tag, isDigit c = true → isAsciiDigit c = true
  line : ('\n' : Char) ∉ tag
  front : (TagGrammar.unsigned tag).head? ≠ some ('T' : Char)

instance (tag : List Char) : Decidable (IsPlainTag tag) :=
  letI : Decidable (∀ c ∈ tag, isDigit c = true → isAsciiDigit c = true) :=
    List.decidableBAll _ tag
  decidable_of_iff ((∀ c ∈ tag, isDigit c = true → isAsciiDigit c = true) ∧ ('\n' : Char) ∉ tag ∧
      (TagGrammar.unsigned tag).head? ≠ some ('T' : Char))
    ⟨fun ⟨hdigits, hline, hfront⟩ => ⟨hdigits, hline, hfront⟩,
      fun h => ⟨h.digits, h.line, h.front⟩⟩

section

variable {kind : Terminal} {letter : Char} {tag : List Char}

theorem isClock_of_isOffsetMark {c : Char} (h : isOffsetMark c = true)
    (hdigit : isDigit c = true → isAsciiDigit c = true) : Terminal.isClock c = true := by
  simp only [isOffsetMark, Bool.or_eq_true, beq_iff_eq] at h
  rcases h with ((h | rfl) | rfl) | rfl
  · simp [Terminal.isClock, hdigit h]
  all_goals decide

theorem isTimestamp_of_isTimestampMark {c : Char} (h : isTimestampMark c = true)
    (hdigit : isDigit c = true → isAsciiDigit c = true) : Terminal.isTimestamp c = true := by
  rcases Bool.or_eq_true_iff.1 h with h | h
  · simp [Terminal.isTimestamp, isClock_of_isOffsetMark h hdigit]
  · simp [Terminal.isTimestamp, h]

/-- What is read has the form of the terminal after a sign, if it is plain. -/
theorem isTagBody_of_reads {p : Char → Bool} (hread : Reads p (TagGrammar.unsigned tag))
    (hplain : IsPlainTag tag)
    (hsign : TagGrammar.signed tag = true → kind.tagSign = Terminal.isSign)
    (hp : ∀ c, p c = true → (isDigit c = true → isAsciiDigit c = true) → kind.tagInner c = true) :
    kind.isTagBody tag = true := by
  have hsub : ∀ c ∈ TagGrammar.unsigned tag, c ∈ tag := by
    intro c hc
    unfold TagGrammar.unsigned at hc
    split at hc
    · exact List.mem_of_mem_drop hc
    · exact hc
  have hall : (TagGrammar.unsigned tag).all kind.tagInner = true := by
    refine List.all_eq_true.2 fun c hc => ?_
    exact hp c (hread.exhausts.all (fun hline => hplain.line (hsub _ hline)) c hc)
      (hplain.digits c (hsub c hc))
  obtain ⟨c, more, htext, hc⟩ := hread.first
  have hdigit : isAsciiDigit c = true := by
    rcases hc with hc | rfl
    · exact hplain.digits c (hsub c (htext ▸ List.mem_cons_self)) hc
    · exact absurd (congrArg List.head? htext) hplain.front
  -- the terminal asks for a digit behind the sign, or in the first place
  by_cases hsigned : TagGrammar.signed tag = true
  · rw [TagGrammar.unsigned, if_pos hsigned] at htext hall
    cases tag with
    | nil => cases hsigned
    | cons first rest =>
      rw [List.drop_one, List.tail_cons] at htext hall
      have hfirst : kind.tagSign first = true := by
        rw [hsign hsigned]
        exact hsigned
      have hbegins : Terminal.beginsWithDigit rest = true := by
        rw [htext]
        exact hdigit
      simp only [Terminal.isTagBody, hfirst, hbegins, Bool.and_self, if_true, hall]
  · rw [TagGrammar.unsigned, if_neg hsigned] at htext hall
    subst htext
    have hnone : kind.tagSign c = false := Terminal.tagSign_of_isAsciiDigit hdigit
    simp only [Terminal.isTagBody, hnone, Bool.false_and, Bool.false_eq_true, if_false, hdigit,
      hall, Bool.and_self]

/-- What begins with a digit has no sign. -/
theorem unsigned_of_reads {p : Char → Bool} (h : Reads p tag) :
    TagGrammar.signed tag = false ∧ TagGrammar.unsigned tag = tag := by
  obtain ⟨c, more, rfl, hc⟩ := h.first
  have hsigned : TagGrammar.signed (c :: more) = false := by
    rcases hc with hdigit | rfl
    · exact TagGrammar.signed_of_isDigit hdigit more
    · rfl
  exact ⟨hsigned, by rw [TagGrammar.unsigned, hsigned]; rfl⟩

/-- A plain tag that a grammar of a letter accepts has the form of the letter's terminal. -/
theorem isTagBody_of_accepts (hletter : kind.tagLetter? = some letter)
    (hkind : kind ≠ .commandComplete) {grammar : TagGrammar}
    (hgrammar : grammar ∈ OfOutline.grammars letter) (haccepts : grammar.accepts tag = true)
    (hplain : IsPlainTag tag) : kind.isTagBody tag = true := by
  have hoffset (h : Reads isOffsetMark (TagGrammar.unsigned tag))
      (hsign : TagGrammar.signed tag = true → kind.tagSign = Terminal.isSign)
      (hinner : kind.tagInner = Terminal.isClock) : kind.isTagBody tag = true :=
    isTagBody_of_reads h hplain hsign fun c hc hdigit => by
      rw [hinner]
      exact isClock_of_isOffsetMark hc hdigit
  have hcount (h : TagGrammar.isCount tag = true) (hinner : kind.tagInner = Terminal.isClock) :
      kind.isTagBody tag = true := by
    have hread := reads_of_isCount h
    obtain ⟨hunsigned, heq⟩ := unsigned_of_reads hread
    refine hoffset (heq.symm ▸ hread) (fun hsigned => ?_) hinner
    rw [hunsigned] at hsigned
    cases hsigned
  have hepoch (hgrammar : grammar ∈ [TagGrammar.epoch, .epochSimple])
      (hsign : kind.tagSign = Terminal.isSign) (hinner : kind.tagInner = Terminal.isClock) :
      kind.isTagBody tag = true := by
    rcases List.mem_pair.1 hgrammar with rfl | rfl
    · exact hoffset (reads_of_read? haccepts) (fun _ => hsign) hinner
    · exact hoffset (reads_of_isCount haccepts) (fun _ => hsign) hinner
  cases kind
  case absoluteTime =>
    cases hletter
    rw [List.mem_singleton.1 hgrammar] at haccepts
    have hread := reads_of_isAbsolute haccepts
    obtain ⟨hunsigned, heq⟩ := unsigned_of_reads hread
    refine isTagBody_of_reads (heq.symm ▸ hread) hplain (fun hsigned => ?_) fun c =>
      isTimestamp_of_isTimestampMark
    rw [hunsigned] at hsigned
    cases hsigned
  case commandRelative =>
    cases hletter
    rcases List.mem_pair.1 hgrammar with rfl | rfl
    · obtain ⟨hunsigned, hclock⟩ := Bool.and_eq_true_iff.1 haccepts
      refine hoffset (reads_of_read? hclock) (fun hsigned => ?_) rfl
      rw [hsigned] at hunsigned
      cases hunsigned
    · exact hcount haccepts rfl
  case epochRelative =>
    cases hletter
    exact hepoch hgrammar rfl rfl
  case groundEpoch =>
    cases hletter
    exact hepoch hgrammar rfl rfl
  case commandComplete => exact absurd rfl hkind
  all_goals cases hletter

/-- The characters of time tags. -/
theorem stands_of_tagInner {c : Char} (h : kind.tagInner c = true) :
    isAsciiDigit c = true ∨ c ∈ [(':' : Char), '.', 'T', '-', '+'] := by
  have hstamp : Terminal.isTimestamp c = true := by
    have hclock (h : Terminal.isClock c = true) : Terminal.isTimestamp c = true :=
      Bool.or_eq_true_iff.2 (.inl h)
    cases kind
    case absoluteTime => exact h
    case commandRelative => exact hclock h
    case epochRelative => exact hclock h
    case groundEpoch => exact hclock h
    all_goals cases h
  simp only [Terminal.isTimestamp, Terminal.isClock, Bool.or_eq_true, beq_iff_eq] at hstamp
  rcases hstamp with (((h | rfl) | rfl) | rfl) | rfl
  · exact .inl h
  all_goals exact .inr (by decide)

/-- Nothing but a plain tag has the form of a terminal. -/
theorem isPlainTag_of_isTagBody (h : kind.isTagBody tag = true) : IsPlainTag tag := by
  have hplain (hall : ∀ c ∈ tag, isAsciiDigit c = true ∨ c ∈ [(':' : Char), '.', 'T', '-', '+'])
      (hfront : (TagGrammar.unsigned tag).head? ≠ some ('T' : Char)) : IsPlainTag tag := by
    refine ⟨fun c hc hdigit => ?_, fun hline => ?_, hfront⟩
    · refine (hall c hc).resolve_right fun hmark => ?_
      have hnone : ∀ d ∈ [(':' : Char), '.', 'T', '-', '+'], (!isDigit d) = true :=
        List.all_eq_true.1 (by decide)
      have hdigit' := hnone c hmark
      rw [hdigit] at hdigit'
      cases hdigit'
    · exact absurd (hall _ hline) (by decide)
  cases tag with
  | nil => exact hplain (List.forall_mem_nil _) nofun
  | cons c more =>
    simp only [Terminal.isTagBody] at h
    split at h
    · next hsigned =>
      obtain ⟨hsign, hbegins⟩ := Bool.and_eq_true_iff.1 hsigned
      have hc : Terminal.isSign c = true := by
        cases kind
        all_goals first | exact hsign | cases hsign
      have hunsigned : TagGrammar.unsigned (c :: more) = more := by
        rw [TagGrammar.unsigned, TagGrammar.signed]
        exact if_pos hc
      refine hplain (List.forall_mem_cons.2 ⟨.inr ?_, fun d hd => ?_⟩) ?_
      · simp only [Terminal.isSign, Bool.or_eq_true, beq_iff_eq] at hc
        rcases hc with rfl | rfl
        all_goals decide
      · exact stands_of_tagInner (List.all_eq_true.1 h d hd)
      · rw [hunsigned]
        intro hmark
        obtain ⟨rest, rfl⟩ := List.head?_eq_some_iff.1 hmark
        cases hbegins
    · obtain ⟨hc, hall⟩ := Bool.and_eq_true_iff.1 h
      refine hplain (fun d hd => stands_of_tagInner (List.all_eq_true.1 hall d hd)) ?_
      have hread : Reads (fun _ => true) (c :: more) :=
        ⟨⟨c, more, rfl, .inl (isDigit_of_isAsciiDigit hc)⟩,
          [], ⟨c :: more, (List.append_nil _).symm, fun _ _ => rfl⟩, rfl⟩
      rw [(unsigned_of_reads hread).2]
      intro hmark
      cases hmark
      cases hc

end

end CommandSequence
